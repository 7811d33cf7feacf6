import VerifiableGit.Bridge.CheckRun
import VerifiableGit.Library.Heeds
import VerifiableGit.Library.Locks

-- What a check that is posted rests on, and that no two of them are the same.
namespace VerifiableGit.CheckRun
open Text Verify Library Library.Interaction
open Governance (Resource NamespaceRecord)
open Bridge.Checks (mergeFacts)

abbrev Seen := Library.Interaction.History Query Reply

-- Neither a lock nor a check run is asked for.
def Query.quiet : Query → Bool
  | .enter _ | .leave _ | .acquire | .release | .startCheckRun _ _ _ _ | .finishCheckRun _ _ _ _ _ => false
  | _ => true

section
variable {v : Verifier} {cfg : Config} {past : Past} {allowed : Seen → Query → Prop}

theorem heeds_settled {r : Except Bytes α} {post : Seen → Except Bytes α → Prop} (here : post seen r) :
    (settled r).run.Heeds (Honest v cfg past) allowed post seen := here

-- A question whose answer the program passes on.
theorem heeds_send {q : Query} {P : Seen → Reply q → Prop} (quiet : ∀ seen q, q.quiet = true → allowed seen q)
    (here : q.quiet = true) (last : ∀ r, Honest v cfg past q r → P (⟨q,r⟩ :: seen) r) :
    (send q).Heeds (Honest v cfg past) allowed P seen := heeds_ask (quiet seen q here) last

theorem heeds_always {p : Plain α} {post : Seen → Except Bytes α → Prop}
    (heeds : p.Heeds (Honest v cfg past) allowed (fun seen a => post seen (.ok a)) seen) :
    (always p).run.Heeds (Honest v cfg past) allowed post seen :=
  heeds_bind p _ heeds fun _ _ _ reached => reached

theorem heeds_fails {post : Seen → α → Prop} (e : Bytes) :
    (throw e : Action α).run.Heeds (Honest v cfg past) allowed (onOk post) seen := trivial

theorem heeds_pure {post : Seen → α → Prop} {a : α} (here : post seen a) :
    (pure a : Action α).run.Heeds (Honest v cfg past) allowed (onOk post) seen := here

theorem heeds_check (sha : Bytes) : (settled (checkSha sha)).run.Heeds (Honest v cfg past) allowed (onOk fun _ _ => True) seen := by
  refine heeds_settled ?_
  cases checkSha sha with
  | ok => trivial
  | error e => trivial

theorem heeds_checks (shas : List Bytes) :
    (settled (shas.forM checkSha)).run.Heeds (Honest v cfg past) allowed (onOk fun _ _ => True) seen := by
  refine heeds_settled ?_
  cases shas.forM checkSha with
  | ok => trivial
  | error e => trivial

/-! The listing -/

-- Page after page, the front of what GitHub lists.
theorem pages_front (all : List Bytes) (n : Nat) :
    all.take (comparePerPage * n) ++ (all.drop (comparePerPage * n)).take comparePerPage =
      all.take (comparePerPage * (n + 1)) := by
  rw [Nat.mul_succ,List.take_add]

theorem page_heeds (quiet : ∀ seen q, q.quiet = true → allowed seen q) (repo : Resource) (base head : Bytes) (page : Nat) :
    (fallible (send (.compareCommits repo base head page))).run.Heeds (Honest v cfg past) allowed
      (onOk fun _ c => c = past.page repo base head page) seen := by
  refine heeds_send quiet rfl fun r honest => ?_
  cases r with
  | ok c => exact honest c rfl
  | error e => trivial

-- What is listed after the page `done + 1`.
theorem listed_front (repo : Resource) (base head : Bytes) {c : ComparePage} (page : c = past.page repo base head (done + 1))
    (front : before = ((past.range repo base head).take 250).take (comparePerPage * done)) :
    before ++ c.commits = ((past.range repo base head).take 250).take (comparePerPage * (done + 1)) ∧
      c.totalCommits = (past.range repo base head).length ∧ before ++ c.commits <+: past.range repo base head := by
  have listed : before ++ c.commits = ((past.range repo base head).take 250).take (comparePerPage * (done + 1)) := by
    rw [front,page,Past.page,Nat.add_sub_cancel,pages_front]
  refine ⟨listed,by rw [page,Past.page],?_⟩
  rw [listed]
  exact (List.take_prefix _ _).trans (List.take_prefix _ _)

theorem comparePages_heeds (quiet : ∀ seen q, q.quiet = true → allowed seen q) (repo : Resource) (base head : Bytes)
    (left done : Nat) (pages : done + left + 1 = comparePages) (before : List Bytes)
    (front : before = ((past.range repo base head).take 250).take (comparePerPage * done)) :
    (comparePagesFrom repo base head left before).run.Heeds (Honest v cfg past) allowed
      (onOk fun _ cmp => cmp.total = (past.range repo base head).length ∧ cmp.commits <+: past.range repo base head) seen := by
  induction left generalizing done before seen with
  | zero =>
    refine heeds_then _ _ (page_heeds quiet repo base head comparePages) fun after c _ page => ?_
    rw [← pages] at page
    obtain ⟨_,total,start⟩ := listed_front repo base head page front
    exact heeds_pure ⟨total,start⟩
  | succ left ih =>
    refine heeds_then _ _ (page_heeds quiet repo base head _) fun after c _ page => ?_
    rw [show comparePages - (left + 1) = done + 1 by omega] at page
    obtain ⟨listed,total,start⟩ := listed_front repo base head page front
    split
    · exact heeds_pure ⟨total,start⟩
    · exact ih (done + 1) (by omega) _ listed

theorem compare_heeds (quiet : ∀ seen q, q.quiet = true → allowed seen q) (repo : Resource) (base head : Bytes) :
    (compareCommits repo base head).run.Heeds (Honest v cfg past) allowed
      (onOk fun _ cmp => cmp.total = (past.range repo base head).length ∧ cmp.commits <+: past.range repo base head) seen := by
  refine heeds_then _ _ (heeds_check base) fun _ _ _ _ => ?_
  refine heeds_then _ _ (heeds_check head) fun _ _ _ _ => ?_
  refine heeds_then _ _ (comparePages_heeds quiet repo base head (comparePages - 1) 0 rfl [] rfl) fun _ cmp _ listed => ?_
  refine heeds_then _ _ (heeds_checks cmp.commits) fun _ _ _ _ => ?_
  exact heeds_pure listed

/-! The commits -/

-- Each commit under its own id.
def Fetched (past : Past) (repo : Resource) (shas : List Bytes) (commits : List RangeCommit) : Prop :=
  commits.map (·.sha) = shas ∧ ∀ c ∈ commits, past.object repo c.sha = some c.raw

theorem catFiles_heeds (quiet : ∀ seen q, q.quiet = true → allowed seen q) (repo : Resource) (shas : List Bytes) :
    (catFiles repo shas).run.Heeds (Honest v cfg past) allowed (onOk fun _ => Fetched past repo shas) seen := by
  induction shas generalizing seen with
  | nil => exact heeds_pure ⟨rfl,List.forall_mem_nil _⟩
  | cons sha rest ih =>
    refine heeds_then _ _ (M := fun _ raw => past.object repo sha = some raw) ?_ fun _ raw _ object => ?_
    · refine heeds_send quiet rfl fun r honest => ?_
      cases r with
      | ok raw => exact honest raw rfl
      | error e => trivial
    · refine heeds_then _ _ ih fun _ more _ fetched => ?_
      refine heeds_pure ⟨by rw [List.map_cons,fetched.1],?_⟩
      exact List.forall_mem_cons.mpr ⟨object,fetched.2⟩

theorem fetch_heeds (quiet : ∀ seen q, q.quiet = true → allowed seen q) (repo : Resource) (head : Bytes) (shas : List Bytes) :
    (fetchCommits repo head shas).run.Heeds (Honest v cfg past) allowed (onOk fun _ => Fetched past repo shas) seen := by
  refine heeds_then _ _ (heeds_check head) fun _ _ _ _ => ?_
  refine heeds_then _ _ (heeds_checks shas) fun _ _ _ _ => ?_
  refine heeds_then _ _ (M := fun _ _ => True) ?_ fun _ _ _ _ => catFiles_heeds quiet repo shas
  refine heeds_send quiet rfl fun r _ => ?_
  cases r with
  | ok => trivial
  | error e => trivial

theorem facts_heeds (quiet : ∀ seen q, q.quiet = true → allowed seen q) (repo : Resource) (commits : List RangeCommit) :
    (factsFor cfg repo commits).Heeds (Honest v cfg past) allowed (fun _ _ => True) seen := by
  unfold factsFor
  split
  · exact heeds_bind _ _ (heeds_send (P := fun _ _ => True) quiet rfl fun _ _ => trivial) fun _ _ _ _ => trivial
  · trivial

/-! The verdict -/

-- A report has one verdict for each commit, in their order.
theorem report_aligned {facts : MergeFacts} (reported : Reported v cfg commits facts resource fallback report) :
    report.commits.map (·.sha) = commits.map (·.sha) := by
  obtain ⟨signers,exempt,registry,prepared⟩ := reported
  have provisional := provisional_trusted v.ssh v.debug v.scid (argsFor cfg resource fallback) commits signers exempt registry
  have aligned := provisional.length_eq
  unfold verifyPrepared at prepared
  cases policy : applyPlatformMergePolicy (.facts facts) commits (provisionalVerdicts v.ssh v.debug v.scid
      (argsFor cfg resource fallback) commits signers exempt registry) with
  | error why =>
    rw [policy] at prepared
    cases prepared
  | ok final =>
    rw [policy] at prepared
    cases prepared
    have kept := forall₂_chain provisional (policy_trusted policy aligned)
      (t := fun commit verdict => verdict.sha = commit.sha) fun _ _ _ first second => second.1.trans first.1
    have same : List.Forall₂ (fun (verdict : CommitVerdict) (commit : RangeCommit) => verdict.sha = commit.sha) final commits :=
      kept.flip
    clear aligned policy provisional kept
    induction same with
    | nil => rfl
    | cons here _ ih => rw [List.map_cons,List.map_cons,here,ih]

theorem summarise_success {lines : List CommitLine} (success : (summarise lines baseRef).conclusion = .success) :
    lines ≠ [] ∧ ∀ l ∈ lines, l.passes = true := by
  simp only [summarise] at success
  split at success
  · rename_i none_
    refine ⟨none_.2,fun l inside => ?_⟩
    have empty := List.filter_eq_nil_iff.mp (List.eq_nil_of_length_eq_zero none_.1) l inside
    simpa using empty
  · cases success

-- What a check has to show of the commits it is for.
structure Passes (v : Verifier) (cfg : Config) (past : Past) (t : CheckTrigger) (fallback baseSha : Bytes) : Prop where
  few : (past.range t.repo baseSha t.headSha).length ≤ cfg.maxCommits
  all : past.range t.repo baseSha t.headSha = [] ∧ t.headSha = baseSha ∨
    ∃ fetched facts report, Fetched past t.repo (past.range t.repo baseSha t.headSha) fetched ∧
      Reported v cfg fetched facts t.repo.asStr fallback report ∧
      report.commits ≠ [] ∧ report.commits.map (·.sha) = past.range t.repo baseSha t.headSha ∧
      ∀ verdict ∈ report.commits, verdict.status.passes = true

theorem lines_pass {facts : MergeFacts} (fetched : Fetched past t.repo (past.range t.repo baseSha t.headSha) commits)
    (few : (past.range t.repo baseSha t.headSha).length ≤ cfg.maxCommits)
    (reported : Reported v cfg commits facts t.repo.asStr fallback report)
    (success : (summarise (report.commits.map v.line) baseRef).conclusion = .success) :
    Passes v cfg past t fallback baseSha := by
  obtain ⟨some_,pass⟩ := summarise_success success
  refine ⟨few,.inr ⟨commits,facts,report,fetched,reported,?_,?_,fun verdict inside => ?_⟩⟩
  · intro empty
    rw [empty] at some_
    exact some_ rfl
  · rw [report_aligned reported,fetched.1]
  · exact pass (v.line verdict) (List.mem_map_of_mem inside)

theorem verify_heeds (quiet : ∀ seen q, q.quiet = true → allowed seen q) (ctx : NamespaceRecord) (t : CheckTrigger)
    (baseRef baseSha : Bytes) :
    (verify cfg ctx t baseRef baseSha).run.Heeds (Honest v cfg past) allowed
      (onOk fun _ verdict => verdict.conclusion = .success → Passes v cfg past t ctx.resource.asStr baseSha) seen := by
  refine heeds_then _ _ (compare_heeds quiet t.repo baseSha t.headSha) fun _ cmp _ listed => ?_
  obtain ⟨total,front⟩ := listed
  split
  · exact heeds_fails _
  rename_i few
  split
  · exact heeds_fails _
  rename_i complete
  have all : cmp.commits = past.range t.repo baseSha t.headSha := front.eq_of_length_le (by omega)
  have room : (past.range t.repo baseSha t.headSha).length ≤ cfg.maxCommits := by omega
  split
  · rename_i empty
    refine heeds_pure fun success => ?_
    split at success
    · rename_i tip
      exact ⟨room,.inl ⟨by rw [← all,empty],tip⟩⟩
    · cases success
  refine heeds_then _ _ (M := fun _ _ => True) ?_ fun _ _ _ _ => ?_
  · refine heeds_send quiet rfl fun r _ => ?_
    cases r with
    | ok => trivial
    | error e => trivial
  refine heeds_then _ _ (fetch_heeds quiet t.repo t.headSha cmp.commits) fun _ fetched _ got => ?_
  rw [all] at got
  refine heeds_then _ _ (heeds_always (facts_heeds quiet t.repo fetched)) fun _ given _ _ => ?_
  refine heeds_then _ _ (M := fun _ lines => ∃ report, Reported v cfg fetched given t.repo.asStr ctx.resource.asStr report ∧
    lines = report.commits.map v.line) ?_ fun _ lines _ reported => ?_
  · refine heeds_send quiet rfl fun r honest => ?_
    cases r with
    | ok lines => exact honest lines rfl
    | error e => trivial
  · obtain ⟨report,prepared,rfl⟩ := reported
    exact heeds_pure (lines_pass got room prepared)

end

/-! What a check holds, and what it rests on -/

structure Started where
  repo : Resource
  head : Bytes
  externalId : Bytes
  id : Nat

-- The key and the permit a check has taken, and the check run it has started and
-- not asked to complete.
structure Hands where
  held : Option Key := none
  permit : Bool := false
  running : Option Started := none

def note : (q : Query) → Reply q → Hands → Hands
  | .enter key,free,h => if free then { h with held := some key } else h
  | .leave _,_,h => { h with held := none }
  | .acquire,_,h => { h with permit := true }
  | .release,_,h => { h with permit := false }
  | .startCheckRun repo head _ externalId,started,h => match started with
    | .ok id => { h with running := some ⟨repo,head,externalId,id⟩ }
    | .error _ => h
  | .finishCheckRun _ _ _ _ _,_,h => { h with running := none }
  | _,_,h => h

def hands (seen : Seen) : Hands := gather note {} seen

-- The base branch and its tip: of a pull request, as GitHub shows it.
def BaseIs (t : CheckTrigger) (seen : Seen) (baseRef baseSha : Bytes) : Prop :=
  (∀ number ∈ t.kind.number, ∃ pr, ⟨.pullRequest t.repo number,.ok pr⟩ ∈ seen ∧ pr.isOpen = true ∧ pr.headSha = t.headSha ∧
    pr.baseRef = baseRef ∧ pr.baseSha = baseSha) ∧
  (t.kind.number = none → t.baseRef = baseRef ∧ t.baseSha = baseSha)

structure Based (t : CheckTrigger) (seen : Seen) (ctx : NamespaceRecord) (baseRef baseSha : Bytes) : Prop where
  loaded : ∃ id, ⟨.getNamespace id,some ctx⟩ ∈ seen
  bound : ctx.isOrphaned = false → ctx.isBound = true
  base : BaseIs t seen baseRef baseSha
  guarded : ⟨.defaultBranch t.repo,.ok baseRef⟩ ∈ seen

theorem base_later (base : BaseIs t seen baseRef baseSha) (later : seen <:+ after) : BaseIs t after baseRef baseSha := by
  refine ⟨fun number asked => ?_,base.2⟩
  obtain ⟨pr,answered,rest⟩ := base.1 number asked
  exact ⟨pr,later.subset answered,rest⟩

theorem based_later (based : Based t seen ctx baseRef baseSha) (later : seen <:+ after) : Based t after ctx baseRef baseSha := by
  obtain ⟨id,answered⟩ := based.loaded
  exact ⟨⟨id,later.subset answered⟩,based.bound,base_later based.base later,later.subset based.guarded⟩

def externalIdOf (baseRef head : Bytes) : Bytes := baseRef ++ ascii "@" ++ head

-- A check run on `repo` at `head`, against a base that is the default branch.
def Posting (t : CheckTrigger) (seen : Seen) (repo : Resource) (head externalId : Bytes) : Prop :=
  repo = t.repo ∧ head = t.headSha ∧ (hands seen).permit = true ∧ (hands seen).running = none ∧
    ∃ ctx baseRef baseSha, (hands seen).held = some (t.repo,t.headSha,baseRef) ∧ externalId = externalIdOf baseRef t.headSha ∧
      Based t seen ctx baseRef baseSha

def Vouched (v : Verifier) (cfg : Config) (past : Past) (t : CheckTrigger) (seen : Seen) : Prop :=
  ∃ ctx baseRef baseSha, Based t seen ctx baseRef baseSha ∧ ctx.isBound = true ∧ Passes v cfg past t ctx.resource.asStr baseSha

def Rule (v : Verifier) (cfg : Config) (past : Past) (t : CheckTrigger) (seen : Seen) : Query → Prop
  | .enter _ => hands seen = {}
  | .leave key => hands seen = { held := some key }
  | .acquire => ∃ key, hands seen = { held := some key }
  | .release => (hands seen).permit = true ∧ (hands seen).running = none
  | .startCheckRun repo head _ externalId => Posting t seen repo head externalId
  | .finishCheckRun repo id conclusion _ _ => repo = t.repo ∧
      (∃ externalId, (hands seen).running = some ⟨t.repo,t.headSha,externalId,id⟩) ∧
      (conclusion = .success → Vouched v cfg past t seen)
  | _ => True

section
variable {v : Verifier} {cfg : Config} {past : Past} {t : CheckTrigger}

theorem quiet_rule {q : Query} (quiet : q.quiet = true) : Rule v cfg past t seen q := by
  cases q with
  | enter | leave | acquire | release | startCheckRun | finishCheckRun => cases quiet
  | _ => trivial

theorem quiet_hands {q : Query} (quiet : q.quiet = true) (r : Reply q) (seen : Seen) : hands (⟨q,r⟩ :: seen) = hands seen := by
  cases q with
  | enter | leave | acquire | release | startCheckRun | finishCheckRun => cases quiet
  | _ => rfl

-- A program that asks neither for a lock nor for a check run.
theorem heeds_quiet {post : Seen → α → Prop} (p : Plain α)
    (heeds : p.Heeds (Honest v cfg past) (fun _ q => q.quiet = true) post seen) :
    p.Heeds (Honest v cfg past) (Rule v cfg past t) (fun after a => hands after = hands seen ∧ post after a) seen := by
  induction p generalizing seen with
  | done a => exact ⟨rfl,heeds⟩
  | call q next ih =>
    refine ⟨quiet_rule heeds.1,fun r honest => heeds_weaken _ (ih r (heeds.2 r honest)) ?_⟩
    intro after a _ reached
    exact ⟨reached.1.trans (quiet_hands heeds.1 r seen),reached.2⟩

theorem concluded_heeds (ctx : NamespaceRecord) (baseRef baseSha : Bytes) :
    (concluded cfg ctx t baseRef baseSha).Heeds (Honest v cfg past) (fun _ q => q.quiet = true)
      (fun _ verdict => verdict.conclusion = .success →
        ctx.isOrphaned = false ∧ Passes v cfg past t ctx.resource.asStr baseSha) seen := by
  unfold concluded
  split
  · exact fun success => CheckConclusion.noConfusion success
  rename_i governed
  refine heeds_bind _ _ (verify_heeds (fun _ _ quiet => quiet) ctx t baseRef baseSha) fun _ result _ reached => ?_
  cases result with
  | ok verdict => exact fun success => ⟨Bool.eq_false_iff.mpr governed,reached success⟩
  | error e => exact fun success => CheckConclusion.noConfusion success

theorem hint_heeds (ctx : NamespaceRecord) (fromPr : Bool) (verdict : Verdict) :
    (hint ctx t fromPr verdict).Heeds (Honest v cfg past) (fun _ q => q.quiet = true) (fun _ _ => True) seen := by
  unfold hint
  split
  · exact ⟨rfl,fun _ _ => trivial⟩
  · trivial

theorem heeds_checked {post : Seen → Except Bytes β → Prop} (sha : Bytes) (f : Unit → Action β)
    (rest : (f ()).run.Heeds (Honest v cfg past) (Rule v cfg past t) post seen) (fails : ∀ e, post seen (.error e)) :
    (settled (checkSha sha) >>= f).run.Heeds (Honest v cfg past) (Rule v cfg past t) post seen := by
  refine heeds_fallible _ _ (M := fun after _ => after = seen) rfl ?_ ?_
  · intro after _ _ same
    rwa [same]
  · intro after e _ same
    rw [same]
    exact fails e

-- What a check asks while its check run is open, down to the request that completes it.
theorem open_heeds {ctx : NamespaceRecord} {id : Nat} (h : Hands) (fromPr : Bool) (based : Based t seen ctx baseRef baseSha)
    (running : hands seen = { h with running := some ⟨t.repo,t.headSha,externalIdOf baseRef t.headSha,id⟩ }) (free : h.running = none) :
    (do
      let verdict ← always (concluded cfg ctx t baseRef baseSha)
      let more ← always (hint ctx t fromPr verdict)
      fallible (send (.finishCheckRun t.repo id verdict.conclusion verdict.title (verdict.summary ++ more)))
      always (send (.setLastCheck t.repo t.repoId t.headSha verdict.conclusion.asStr))
      pure (.posted verdict.conclusion) : Action CheckOutcome).run.Heeds (Honest v cfg past) (Rule v cfg past t)
      (fun after _ => hands after = h) seen := by
  refine heeds_lift _ _ (heeds_quiet _ (concluded_heeds ctx baseRef baseSha)) fun after verdict later reached => ?_
  refine heeds_lift _ _ (heeds_quiet _ (hint_heeds ctx fromPr verdict)) fun now more later' kept => ?_
  have here := based_later based (later.trans later')
  have same : hands now = { h with running := some ⟨t.repo,t.headSha,externalIdOf baseRef t.headSha,id⟩ } := by rw [kept.1,reached.1,running]
  refine heeds_fallible _ _ (M := fun last _ => hands last = h) ?_ ?_ fun _ _ _ done => done
  · refine ⟨⟨rfl,⟨_,by rw [same]⟩,fun success => ?_⟩,fun answer _ => ?_⟩
    · obtain ⟨governed,passes⟩ := reached.2 success
      exact ⟨ctx,baseRef,baseSha,here,here.bound governed,passes⟩
    · show { hands now with running := none } = h
      rw [same]
      cases h
      simp only at free
      rw [free]
  · intro last _ _ done
    refine heeds_lift _ _ (heeds_quiet _ (heeds_send (P := fun _ _ => True) (fun _ _ quiet => quiet) rfl fun _ _ => trivial)) ?_
    exact fun _ _ _ end_ => end_.1.trans done

theorem post_heeds {ctx : NamespaceRecord} (fromPr : Bool) (based : Based t seen ctx baseRef baseSha)
    (holds : hands seen = { held := some (t.repo,t.headSha,baseRef), permit := true }) :
    (postCheck cfg ctx t baseRef baseSha fromPr).run.Heeds (Honest v cfg past) (Rule v cfg past t)
      (fun after _ => hands after = hands seen) seen := by
  refine heeds_checked _ _ ?_ fun _ => rfl
  refine ⟨⟨rfl,rfl,by rw [holds],by rw [holds],ctx,baseRef,baseSha,by rw [holds],rfl,based⟩,fun started _ => ?_⟩
  cases started with
  | ok id => exact open_heeds (hands seen) fromPr (based_later based (List.suffix_cons _ _)) rfl (by rw [holds])
  | error e => rfl

/-! The locks -/

theorem permitted_heeds {ctx : NamespaceRecord} (fromPr : Bool) (based : Based t seen ctx baseRef baseSha)
    (holds : hands seen = { held := some (t.repo,t.headSha,baseRef) }) :
    (permitted (postCheck cfg ctx t baseRef baseSha fromPr)).run.Heeds (Honest v cfg past) (Rule v cfg past t)
      (fun after _ => hands after = hands seen) seen := by
  refine heeds_next _ ⟨_,holds⟩ fun r _ => ?_
  have taken : hands (⟨.acquire,r⟩ :: seen) = { held := some (t.repo,t.headSha,baseRef), permit := true } := by
    show { hands seen with permit := true } = _
    rw [holds]
  have here := based_later based (List.suffix_cons ⟨.acquire,r⟩ seen)
  refine heeds_bind _ _ (post_heeds fromPr here taken) fun after result _ kept => ?_
  have same := kept.trans taken
  refine heeds_next _ ⟨by rw [same],by rw [same]⟩ fun _ _ => ?_
  show { hands after with permit := false } = hands seen
  rw [same,holds]

theorem inFlight_heeds {ctx : NamespaceRecord} (fromPr : Bool) (based : Based t seen ctx baseRef baseSha)
    (empty : hands seen = {}) :
    (inFlight (t.repo,t.headSha,baseRef) (permitted (postCheck cfg ctx t baseRef baseSha fromPr))).run.Heeds
      (Honest v cfg past) (Rule v cfg past t) (fun after _ => hands after = {}) seen := by
  refine heeds_next _ empty fun free _ => ?_
  cases free with
  | false => exact empty
  | true =>
    have taken : hands (⟨.enter (t.repo,t.headSha,baseRef),true⟩ :: seen) = { held := some (t.repo,t.headSha,baseRef) } := by
      show { hands seen with held := some (t.repo,t.headSha,baseRef) } = _
      rw [empty]
    have here := based_later based (List.suffix_cons ⟨.enter (t.repo,t.headSha,baseRef),true⟩ seen)
    refine heeds_bind _ _ (permitted_heeds fromPr here taken) fun after result _ kept => ?_
    have same := kept.trans taken
    refine heeds_next _ same fun _ _ => ?_
    show { hands after with held := none } = {}
    rw [same]

/-! From the trigger on -/

-- The namespace a check is for, as it was read.
def Loaded (seen : Seen) (ctx : NamespaceRecord) : Prop :=
  (∃ id, ⟨.getNamespace id,some ctx⟩ ∈ seen) ∧ (ctx.isOrphaned = false → ctx.isBound = true)

theorem load_heeds (id : Bytes) :
    (loadPostingChecks id).Heeds (Honest v cfg past) (fun _ q => q.quiet = true)
      (fun after found => ∀ ctx ∈ found, Loaded after ctx) seen := by
  refine ⟨rfl,fun found _ => ?_⟩
  show Prog.Heeds _ _ _ (⟨Query.getNamespace id,found⟩ :: seen) (if found.any _ then _ else _)
  split
  · rename_i orphaned
    intro ctx inside
    cases inside
    simp only [Option.any_some,Bool.and_eq_true] at orphaned
    exact ⟨⟨id,List.mem_cons_self⟩,fun governed => absurd orphaned.1 (by rw [governed]; exact Bool.false_ne_true)⟩
  · refine ⟨rfl,fun again _ ctx inside => ?_⟩
    obtain ⟨same,bound⟩ := Option.filter_eq_some_iff.mp inside
    cases same
    exact ⟨⟨id,List.mem_cons_self⟩,fun _ => bound⟩

theorem loaded_later (loaded : Loaded seen ctx) (later : seen <:+ after) : Loaded after ctx := by
  obtain ⟨⟨id,answered⟩,bound⟩ := loaded
  exact ⟨⟨id,later.subset answered⟩,bound⟩

theorem namespace_heeds (repo : Resource) :
    (checkNamespace repo).Heeds (Honest v cfg past) (fun _ q => q.quiet = true)
      (fun after found => ∀ ctx ∈ found, Loaded after ctx) seen := by
  refine ⟨rfl,fun all _ => ?_⟩
  dsimp only [Prog.bind]
  cases all.find? (serves repo) with
  | none => exact fun ctx inside => absurd inside (Option.not_mem_none ctx)
  | some ns =>
    refine heeds_bind _ _ (load_heeds _) fun after loaded later found => ?_
    cases loaded with
    | none => exact fun ctx inside => absurd inside (Option.not_mem_none ctx)
    | some ctx =>
      refine ⟨rfl,fun posts _ => ?_⟩
      show ∀ other ∈ (if posts then some ctx else none), Loaded (⟨Query.bridgePostedCheck ctx,posts⟩ :: after) other
      intro other inside
      cases posts with
      | false => cases inside
      | true =>
        cases inside
        exact loaded_later (found ctx rfl) (List.suffix_cons _ _)

theorem baseOf_heeds :
    (baseOf t).run.Heeds (Honest v cfg past) (fun _ q => q.quiet = true)
      (onOk fun after base => ∀ baseRef baseSha, base = .ok (baseRef,baseSha) → BaseIs t after baseRef baseSha) seen := by
  unfold baseOf
  split
  · rename_i number asked
    refine heeds_then _ _ (M := fun after pr => ⟨.pullRequest t.repo number,.ok pr⟩ ∈ after) ?_ fun after pr _ answered => ?_
    · refine heeds_send (fun _ _ quiet => quiet) rfl fun r _ => ?_
      cases r with
      | ok pr => exact List.mem_cons_self
      | error e => trivial
    split
    · refine heeds_pure fun _ _ bad => ?_
      cases bad
    rename_i closed
    split
    · refine heeds_pure fun _ _ bad => ?_
      cases bad
    rename_i moved
    refine heeds_pure fun baseRef baseSha same => ?_
    cases same
    refine ⟨fun other known => ?_,fun unknown => ?_⟩
    · rw [asked] at known
      cases known
      exact ⟨pr,answered,not_not.mp closed,not_not.mp moved,rfl,rfl⟩
    · rw [asked] at unknown
      cases unknown
  · rename_i unknown
    refine heeds_pure fun baseRef baseSha same => ?_
    cases same
    refine ⟨fun other known => ?_,fun _ => ⟨rfl,rfl⟩⟩
    rw [unknown] at known
    cases known

theorem checkBase_heeds {ctx : NamespaceRecord} (loaded : Loaded seen ctx) (base : BaseIs t seen baseRef baseSha)
    (empty : hands seen = {}) :
    (checkBase cfg ctx t baseRef baseSha).run.Heeds (Honest v cfg past) (Rule v cfg past t)
      (fun after _ => hands after = {}) seen := by
  refine heeds_checked _ _ ?_ fun _ => empty
  refine heeds_next _ (quiet_rule rfl) fun branch _ => ?_
  have still : hands (⟨.defaultBranch t.repo,branch⟩ :: seen) = {} := by rw [quiet_hands rfl,empty]
  cases branch with
  | error e => exact still
  | ok branch =>
    have later := List.suffix_cons (⟨.defaultBranch t.repo,.ok branch⟩ : Σ q : Query,Reply q) seen
    show Prog.Heeds _ _ _ _ (ExceptT.run (if baseRef ≠ branch then _ else _))
    split
    · exact still
    · rename_i same
      have same := not_not.mp same
      subst same
      have loaded' := loaded_later loaded later
      exact inFlight_heeds _ ⟨loaded'.1,loaded'.2,base_later base later,List.mem_cons_self⟩ still

theorem run_heeds (empty : hands seen = {}) :
    (run cfg t).run.Heeds (Honest v cfg past) (Rule v cfg past t) (fun after _ => hands after = {}) seen := by
  refine heeds_lift _ _ (heeds_quiet _ (namespace_heeds t.repo)) fun after found _ reached => ?_
  have still := reached.1.trans empty
  cases found with
  | none => exact still
  | some ctx =>
    refine heeds_fallible _ _ (heeds_quiet _ baseOf_heeds) ?_ fun now e _ kept => kept.1.trans still
    intro now base later kept
    cases base with
    | error why => exact kept.1.trans still
    | ok pair =>
      exact checkBase_heeds (loaded_later (reached.2 ctx rfl) later) (kept.2 pair.1 pair.2 rfl) (kept.1.trans still)

end

/-! Many checks at a time -/

section
variable {v : Verifier} {cfg : Config} {past : Past}

abbrev Checks := Library.Interaction.Config CheckTrigger Query Reply State

theorem serve_honest (q : Query) (s : State) (r : Reply q) (u : State) (served : serve v cfg past q s r u) :
    Honest v cfg past q r := by
  cases q with
  | enter | leave | acquire | release => trivial
  | _ => exact served.1

def rules (v : Verifier) (cfg : Config) (past : Past) : (crew v cfg past).Rules where
  allowed t seen q := Told (Honest v cfg past) seen → Rule v cfg past t seen q
  post _ seen := Told (Honest v cfg past) seen → hands seen = {}
  idle _ _ := rfl
  follows _ := heeds_follows _ (heeds_bind _ _ (run_heeds rfl) fun _ _ _ reached => reached)

-- A check run with the locks it is under.
def Covered (h : Hands) (run : Started) : Prop :=
  h.permit = true ∧ ∃ baseRef, h.held = some (run.repo,run.head,baseRef) ∧ run.externalId = externalIdOf baseRef run.head

-- What everybody holds, against what the bridge has in memory.
structure Inv (cfg : Config) (s : State) (h : Nat → Hands) : Prop extends
    Locks.Kept s.inFlight s.free (max cfg.concurrency 1) (fun i => (h i).held) (fun i => (h i).permit) where
  started : ∀ i, ∀ run ∈ (h i).running, Covered (h i) run

abbrev handsOf (c : Checks) : Nat → Hands := gathered note {} c

def Sound (cfg : Config) (c : Checks) : Prop := Inv cfg c.1 (handsOf c)

-- A task changes what it holds, and nobody else anything.
theorem inv_update {h : Nat → Hands} (inv : Inv cfg s h) (i : Nat) (g : Hands)
    (locks : Locks.Kept u.inFlight u.free (max cfg.concurrency 1) (Function.update (fun j => (h j).held) i g.held)
      (Function.update (fun j => (h j).permit) i g.permit))
    (mine : ∀ run ∈ g.running, Covered g run) : Inv cfg u (Function.update h i g) := by
  have held : (fun j => (Function.update h i g j).held) = Function.update (fun j => (h j).held) i g.held :=
    Function.comp_update Hands.held h i g
  have permit : (fun j => (Function.update h i g j).permit) = Function.update (fun j => (h j).permit) i g.permit :=
    Function.comp_update Hands.permit h i g
  refine ⟨by rwa [held,permit],fun j run runs => ?_⟩
  by_cases here : j = i
  · subst here
    rw [Function.update_self] at runs ⊢
    exact mine run runs
  · rw [Function.update_of_ne here] at runs ⊢
    exact inv.started j run runs

theorem update_same {β : Type} {f : Nat → β} {i : Nat} {b : β} (same : b = f i) : Function.update f i b = f := by
  rw [same,Function.update_eq_self]

theorem inv_held {h : Nat → Hands} (inv : Inv cfg s h) (i : Nat) (g : Hands) (permit : g.permit = (h i).permit)
    (locks : Locks.Kept u.inFlight u.free (max cfg.concurrency 1) (Function.update (fun j => (h j).held) i g.held)
      fun j => (h j).permit)
    (mine : ∀ run ∈ g.running, Covered g run) : Inv cfg u (Function.update h i g) := by
  have same : Function.update (fun j => (h j).permit) i g.permit = fun j => (h j).permit := update_same permit
  exact inv_update inv i g (by rwa [same]) mine

theorem inv_permit {h : Nat → Hands} (inv : Inv cfg s h) (i : Nat) (g : Hands) (held : g.held = (h i).held)
    (locks : Locks.Kept u.inFlight u.free (max cfg.concurrency 1) (fun j => (h j).held)
      (Function.update (fun j => (h j).permit) i g.permit))
    (mine : ∀ run ∈ g.running, Covered g run) : Inv cfg u (Function.update h i g) := by
  have same : Function.update (fun j => (h j).held) i g.held = fun j => (h j).held := update_same held
  exact inv_update inv i g (by rwa [same]) mine

theorem inv_quiet {h : Nat → Hands} (inv : Inv cfg s h) (i : Nat) (g : Hands) (held : g.held = (h i).held)
    (permit : g.permit = (h i).permit) (mine : ∀ run ∈ g.running, Covered g run) : Inv cfg s (Function.update h i g) := by
  have same : Function.update (fun j => (h j).held) i g.held = fun j => (h j).held := update_same held
  exact inv_held inv i g permit (by rw [same]; exact inv.toKept) mine

theorem inv_same {h : Nat → Hands} (inv : Inv cfg s h) (i : Nat) : Inv cfg s (Function.update h i (h i)) := by
  rwa [Function.update_eq_self]

-- One answer to one task, from what it may ask.
theorem inv_asked {q : Query} {r : Reply q} {tasks : Nat → Task CheckTrigger Query Reply} (i : Nat)
    (served : serve v cfg past q s r u) (rule : Rule v cfg past (tasks i).handler (tasks i).seen q)
    (inv : Sound cfg (s,tasks)) :
    Inv cfg u (Function.update (handsOf (s,tasks)) i (note q r (hands (tasks i).seen))) := by
  have nothing : ∀ {g : Hands}, g.running = none → ∀ run ∈ g.running, Covered g run := by
    intro g idle run runs
    rw [idle] at runs
    cases runs
  cases q with
  | enter key =>
    obtain ⟨same,rfl⟩ := served
    cases r with
    | true =>
      have empty : handsOf (s,tasks) i = {} := rule
      have outside : key ∉ s.inFlight := of_decide_eq_true same.symm
      exact inv_held inv i _ rfl (Locks.kept_enter inv.toKept i (congrArg Hands.held empty) outside) (nothing (congrArg Hands.running empty))
    | false =>
      have inside : key ∈ s.inFlight := not_not.mp (of_decide_eq_false same.symm)
      rw [Finset.insert_eq_of_mem inside]
      exact inv_same inv i
  | leave key =>
    cases served
    have has : handsOf (s,tasks) i = { held := some key } := rule
    exact inv_held inv i _ rfl (Locks.kept_leave inv.toKept i (congrArg Hands.held has)) (nothing (congrArg Hands.running has))
  | acquire =>
    obtain ⟨more,room,rfl⟩ := served
    obtain ⟨key,has⟩ := rule
    have has : handsOf (s,tasks) i = { held := some key } := has
    have kept := inv.toKept
    rw [room] at kept
    exact inv_permit inv i _ rfl (Locks.kept_acquire kept i (congrArg Hands.permit has)) (nothing (congrArg Hands.running has))
  | release =>
    cases served
    exact inv_permit inv i _ rfl (Locks.kept_release inv.toKept i rule.1) (nothing rule.2)
  | startCheckRun repo head name externalId =>
    cases served.2
    obtain ⟨same,at_,permit,_,ctx,baseRef,baseSha,held,external,_⟩ := rule
    subst same at_ external
    cases r with
    | ok id =>
      refine inv_quiet inv i _ rfl rfl fun run runs => ?_
      cases runs
      exact ⟨permit,baseRef,held,rfl⟩
    | error e => exact inv_same inv i
  | finishCheckRun repo id conclusion title summary =>
    cases served.2
    exact inv_quiet inv i _ rfl rfl (nothing rfl)
  | _ =>
    cases served.2
    exact inv_same inv i

theorem sound_empty {c : Checks} (nobody : c.1.inFlight = ∅) (free : c.1.free = max cfg.concurrency 1)
    (gone : ∀ i, (c.2 i).seen = []) : Sound cfg c := by
  have empty : ∀ i, handsOf c i = {} := fun i => gathered_none note {} (gone i)
  refine ⟨?_,fun i run runs => ?_⟩
  · rw [nobody,free]
    exact Locks.kept_none (fun i => by rw [empty i]) fun i => by rw [empty i]
  · rw [empty i] at runs
    cases runs

theorem sound_step {c d : Checks} {act : Act CheckTrigger Query Reply} (ruled : (rules v cfg past).Ruled c.2)
    (told : ∀ i, Told (Honest v cfg past) (c.2 i).seen) (step : (crew v cfg past).Step c act d) (sound : Sound cfg c) : Sound cfg d := by
  have whole := step
  cases step with
  | asked i asks served =>
    rw [Sound,handsOf,gathered_asked note {} whole]
    exact inv_asked i served (ruled_asks ruled i asks (told i)) sound
  | entered i idle enters =>
    cases enters
    have empty : handsOf (_,_) i = {} := ruled_idle ruled i idle (told i)
    rw [Sound,handsOf,gathered_entered note {} _ _ empty]
    exact sound
  | abandoned i waits => exact (waits_never waits).elim
  | crashed down =>
    cases down
    exact sound_empty rfl rfl fun _ => rfl

theorem run_sound {c : Checks} (t : CheckTrigger) (ran : (crew v cfg past).Run (fun _ _ => True) (idle cfg t) c) :
    (rules v cfg past).Ruled c.2 ∧ (∀ i, Told (Honest v cfg past) (c.2 i).seen) ∧ Sound cfg c := by
  have idle_told : ∀ i, Told (Honest v cfg past) ((idle cfg t).2 i).seen := fun i q r inside => absurd inside List.not_mem_nil
  refine run_keeps (rules v cfg past) (I := fun c => (∀ i, Told (Honest v cfg past) (c.2 i).seen) ∧ Sound cfg c) ?_ ran
    (fun i => (rules v cfg past).idle _) ⟨idle_told,sound_empty rfl rfl fun _ => rfl⟩
  intro c act d ruled _ step kept
  have one : (crew v cfg past).Run (fun _ _ => True) c d := run_step trivial step
  have next := run_told (Honest v cfg past) serve_honest one kept.1
  exact ⟨next,sound_step ruled kept.1 step kept.2⟩

-- The check run a task has open is one it was told of.
theorem running_started {seen : Seen} (running : (hands seen).running = some one) :
    ∃ name, ⟨.startCheckRun one.repo one.head name one.externalId,.ok one.id⟩ ∈ seen := by
  induction seen with
  | nil => cases running
  | cons answered seen ih =>
    obtain ⟨q,r⟩ := answered
    have before : (hands seen).running = some one →
        ∃ name, ⟨.startCheckRun one.repo one.head name one.externalId,.ok one.id⟩ ∈ (⟨q,r⟩ :: seen : Seen) := by
      intro same
      obtain ⟨name,inside⟩ := ih same
      exact ⟨name,List.mem_cons_of_mem _ inside⟩
    cases q with
    | startCheckRun repo' head' name externalId =>
      cases r with
      | ok id' =>
        cases running
        exact ⟨name,List.mem_cons_self⟩
      | error e => exact before running
    | finishCheckRun => cases running
    | enter key =>
      cases r with
      | true | false => exact before running
    | _ => exact before running

-- A check that passes is one of the trigger's head, in the trigger's repository,
-- where every commit GitHub lists was read under its own id and verified.
theorem check_vouched {id : Nat} {c d : Checks} (t : CheckTrigger) (ran : (crew v cfg past).Run (fun _ _ => True) (idle cfg t) c)
    (step : (crew v cfg past).Step c (.asked i (.finishCheckRun repo id .success title summary) answer) d) :
    repo = (c.2 i).handler.repo ∧
      (∃ name externalId, ⟨.startCheckRun repo (c.2 i).handler.headSha name externalId,.ok id⟩ ∈ (c.2 i).seen) ∧
      Vouched v cfg past (c.2 i).handler (c.2 i).seen := by
  obtain ⟨ruled,told,_⟩ := run_sound t ran
  cases step with
  | asked _ asks _ =>
    obtain ⟨same,⟨externalId,running⟩,vouched⟩ := ruled_asks ruled i asks (told i)
    obtain ⟨name,started⟩ := running_started running
    subst same
    exact ⟨rfl,⟨name,externalId,started⟩,vouched rfl⟩

end

namespace Sample

theorem github_plain : (35 : UInt8) ∉ ascii "github.com" := by decide

def acme : Resource := { host := ascii "github.com", owner := ascii "acme", rest := [], plain := github_plain }
def widget : Resource := { acme with rest := [ascii "widget"] }
def main : Bytes := ascii "main"
def head : Bytes := List.replicate 40 97
def base : Bytes := List.replicate 40 98

def governed : NamespaceRecord := { id := ascii "n1", resource := acme, state := .bound, binding := some ⟨acme,true,some 1,some 2⟩ }

def trigger : CheckTrigger := ⟨widget,7,head,base,main,.pullRequest 3⟩

def cfg : Config := ⟨ascii "did:web:vtc",250,1,fun _ => none,fun _ => false⟩

def past : Past where
  range _ _ _ := [head]
  object _ sha := if sha = head then some Verify.Sample.raw else none

def verifier : Verifier := ⟨Verify.Sample.ssh Verify.Sample.software,id,Verify.Sample.scid,fun _ => ascii "signed by did:web:a"⟩

def trusted : CommitStatus := .trusted (ascii "did:web:a") widget.asStr

-- Every commit signed with the sample's key is granted.
def answer : Unit → (q : Query) → State → Option (Reply q × State)
  | _,.listNamespaces,s => some ([governed],s)
  | _,.getNamespace id,s => some (if id = governed.id then some governed else none,s)
  | _,.setLastCheck _ _ _ _,s => some ((),s)
  | _,.bridgePostedCheck _,s => some (true,s)
  | _,.enter key,s => some (decide (key ∉ s.inFlight),{ s with inFlight := insert key s.inFlight })
  | _,.leave key,s => some ((),{ s with inFlight := s.inFlight.erase key })
  | _,.acquire,s => match s.free with
    | 0 => none
    | more + 1 => some ((),{ s with free := more })
  | _,.release,s => some ((),{ s with free := s.free + 1 })
  | _,.pullRequest _ _,s => some (.ok ⟨head,main,base,true,ascii "topic",some 7,some 7,none,none⟩,s)
  | _,.defaultBranch _,s => some (.ok main,s)
  | _,.startCheckRun _ _ _ _,s => some (.ok 11,s)
  | _,.finishCheckRun _ _ _ _ _,s | _,.contentsReadToken _,s | _,.fetch _ _ _,s => some (.ok (),s)
  | _,.compareCommits repo base head page,s => some (.ok (past.page repo base head page),s)
  | _,.catFile _ sha,s => some (if sha = head then .ok Verify.Sample.raw else .error [],s)
  | _,.recompute _,_ => none
  | _,.verifyWithFacts commits _ resource fallback,s =>
    some (if commits = [⟨head,Verify.Sample.raw⟩] ∧ resource = widget.asStr ∧ fallback = acme.asStr then
      .ok [⟨head,true,ascii "signed by did:web:a"⟩] else .error [],s)
  | _,.checkHint _,s => some (none,s)

def code (t : CheckTrigger) : Prog Query Reply Unit := (crew verifier cfg past).code t

theorem sample_reported (facts : MergeFacts) : ∃ report : TrustReport Bytes,
    Reported verifier cfg [⟨head,Verify.Sample.raw⟩] facts widget.asStr acme.asStr report ∧
      report.commits = [⟨head,trusted⟩] := by
  have check : checkCommitSignature (Verify.Sample.ssh Verify.Sample.software) id Verify.Sample.scid Verify.Sample.signers none
      Verify.Sample.raw = .valid (ascii "did:web:a") := by decide
  have verdicts : provisionalVerdicts (Verify.Sample.ssh Verify.Sample.software) id Verify.Sample.scid
      (argsFor cfg widget.asStr acme.asStr) [⟨head,Verify.Sample.raw⟩] Verify.Sample.signers none (fun _ => .answered true) =
      [⟨head,trusted⟩] := by
    simp only [provisionalVerdicts,List.map_cons,List.map_nil,check]
    rfl
  have policy := settleRounds_settled (.facts facts) (provisional [⟨head,Verify.Sample.raw⟩] [⟨head,trusted⟩]) rfl
  refine ⟨⟨true,[⟨head,trusted⟩],[],[]⟩,⟨Verify.Sample.signers,none,fun _ => .answered true,?_⟩,rfl⟩
  simp only [verifyPrepared,verifier,applyPlatformMergePolicy,verdicts,policy,List.map_cons,List.map_nil,check]
  rfl

theorem crew_plays : Plays code answer (fun _ s => some s) (fun _ => { free := max cfg.concurrency 1 }) (crew verifier cfg past) where
  code := rfl
  serve _ q s r t answered := by
    cases q with
    | enter key =>
      cases answered
      exact ⟨rfl,rfl⟩
    | leave | release =>
      cases answered
      rfl
    | acquire =>
      simp only [answer] at answered
      split at answered
      · cases answered
      · rename_i more room
        cases answered
        exact ⟨more,room,rfl⟩
    | compareCommits repo base head page =>
      cases answered
      exact ⟨fun c same => (Except.ok.inj same).symm,rfl⟩
    | catFile repo sha =>
      cases answered
      refine ⟨fun raw same => ?_,rfl⟩
      split at same
      · rename_i here
        cases same
        exact if_pos here
      · cases same
    | verifyWithFacts commits facts resource fallback =>
      cases answered
      refine ⟨fun lines same => ?_,rfl⟩
      split at same
      · rename_i asked
        obtain ⟨rfl,rfl,rfl⟩ := asked
        cases same
        obtain ⟨report,reported,commits⟩ := sample_reported facts
        exact ⟨report,reported,by rw [commits]; rfl⟩
      · cases same
    | recompute => cases answered
    | _ =>
      cases answered
      exact ⟨trivial,rfl⟩
  enter _ _ _ entered := (Option.some.inj entered).symm
  crash _ := rfl

-- The check run a task has just been asked to complete as passed.
def finished (c : Checks) : Option Nat :=
  match (c.2 0).seen with
  | ⟨.finishCheckRun _ id .success _ _,_⟩ :: _ => some id
  | _ => none

-- A pull request of one signed commit, from its trigger to the last request but one.
theorem sample_run : ∃ (c d : Checks) (q : Query) (r : Reply q),
    (crew verifier cfg past).Run (fun _ _ => True) (idle cfg trigger) c ∧ (crew verifier cfg past).Step c (.asked 0 q r) d ∧
      (handsOf c 0).running.isSome = true ∧ finished d = some 11 := by
  obtain ⟨c,q,r,d,ran,_,step,open_,done⟩ := played_step crew_plays (fun _ _ => true) (idle cfg trigger)
    [.enter 0 trigger,.finish 0 14 ()] 0 () (fun c => (handsOf c 0).running.isSome) finished (true,some 11) (by decide)
  exact ⟨c,d,q,r,run_weaken (fun _ _ _ => trivial) ran,step,open_,done⟩

end Sample

theorem check_vouched_sample : ∃ c : Checks,
    (crew Sample.verifier Sample.cfg Sample.past).Run (fun _ _ => True) (idle Sample.cfg Sample.trigger) c ∧
      Vouched Sample.verifier Sample.cfg Sample.past (c.2 0).handler (c.2 0).seen := by
  obtain ⟨c,d,q,r,ran,step,_,done⟩ := Sample.sample_run
  refine ⟨c,ran,?_⟩
  rw [Sample.finished,(seen_asked step).1] at done
  cases q with
  | finishCheckRun repo id conclusion title summary =>
    cases conclusion with
    | success => exact (check_vouched Sample.trigger ran step).2.2
    | failure => cases done
  | _ => cases done

end VerifiableGit.CheckRun
