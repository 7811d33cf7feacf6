import VerifiableGit.Guard.Jobs

-- Whether the organisation's ruleset lists every managed repository that is live.
namespace VerifiableGit.Guard
open Text Library Library.Interaction
open Governance (Resource Namespace Pin NamespaceRecord RepoRecord RepoKey ForgeAccount RoleAssignment ForgeError StepOutcome)
open Governance.NamespaceRecord (Held)

def World.live (w : World) : Finset Nat := w.bootstrapped \ w.archived

-- The record of a bound namespace lists these, and the live ones.
def Stored (ns : Bytes) (r : Resource) (extra : Finset Nat) (w : World) : Prop :=
  ∃ n, w.namespaces.lookup ns = some n ∧ (n.id = ns ∧ n.resource = r) ∧ n.isBound ∧ w.live ∪ extra ⊆ n.managed

-- The adapter does.
def Holding (r : Resource) (extra : Finset Nat) (w : World) : Prop :=
  ∃ m, (w.memory r).managed = some m ∧ w.live ∪ extra ⊆ m

structure Covers (ns : Bytes) (r : Resource) (extra : Finset Nat) (w : World) : Prop where
  stored : Stored ns r extra w
  holding : Holding r extra w
  missed : w.missed = ∅

def Query.Calm : Query → Prop
  | .deleteNamespace _ | .putNamespace _ _ | .persist _ _ _ | .unmanage _ _ | .recordCheck _ _ | .setManaged _ _
  | .dropManaged _ _ | .restore _ | .forge (.patchArchived _) | .forge (.writeRuleset _ _ _ _ _) => False
  | _ => True

variable {ns : Bytes} {r : Resource} {extra : Finset Nat} {w u : World}

theorem covers_fewer {less : Finset Nat} (fewer : less ⊆ extra) (covers : Covers ns r extra w) : Covers ns r less w := by
  obtain ⟨⟨n,found,own,bound,listed⟩,⟨m,held,within⟩,missed⟩ := covers
  have all : w.live ∪ less ⊆ w.live ∪ extra := Finset.union_subset_union_right fewer
  exact ⟨⟨n,found,own,bound,all.trans listed⟩,⟨m,held,all.trans within⟩,missed⟩

theorem updateBound_stored (id : Bytes) (change : NamespaceRecord → NamespaceRecord)
    (keeps : ∀ n, n.isBound → ((change n).id = n.id ∧ (change n).resource = n.resource) ∧ (change n).isBound ∧
      n.managed ⊆ (change n).managed)
    (stored : Stored ns r extra w) : Stored ns r extra (w.updateBound id change) := by
  obtain ⟨n,found,own,bound,listed⟩ := stored
  by_cases same : ns = id
  · subst same
    obtain ⟨⟨id,resource⟩,still,more⟩ := keeps n bound
    refine ⟨change n,?_,⟨id.trans own.1,resource.trans own.2⟩,still,listed.trans more⟩
    simp [World.updateBound,found]
  · refine ⟨n,?_,own,bound,listed⟩
    simp [World.updateBound,same,found]

theorem remember_holding (s : Resource) (change : Memory → Memory)
    (keeps : ∀ m managed, m.managed = some managed → ∃ more, (change m).managed = some more ∧ managed ⊆ more)
    (holding : Holding r extra w) : Holding r extra (w.remember s change) := by
  obtain ⟨m,held,within⟩ := holding
  by_cases same : r = s
  · subst same
    obtain ⟨more,there,wider⟩ := keeps (w.memory r) m held
    exact ⟨more,by simpa [World.remember] using there,within.trans wider⟩
  · refine ⟨m,?_,within⟩
    simp [World.remember,same,held]

theorem answer_calm {q : Query} {a : q.Answer} (calm : q.Calm) (answered : w.answer q = some (a,u))
    (covers : Covers ns r extra w) : Covers ns r extra u ∧ u.live = w.live := by
  obtain ⟨stored,holding,missed⟩ := covers
  cases q with
  | deleteNamespace | putNamespace | persist | unmanage | recordCheck | setManaged | dropManaged | restore => exact calm.elim
  | forge => cases answered
  | manageNamespace id forgeId =>
    cases answered
    have kept := updateBound_stored id (fun n => { n with managed := insert forgeId n.managed })
      (fun n bound => ⟨⟨rfl,rfl⟩,bound,Finset.subset_insert _ _⟩) stored
    exact ⟨⟨kept,holding,missed⟩,rfl⟩
  | changeCapability id capability available =>
    cases answered
    have kept := updateBound_stored id (withCapability capability available) (fun n bound => by
      unfold withCapability
      split <;> exact ⟨⟨rfl,rfl⟩,bound,subset_rfl⟩) stored
    exact ⟨⟨kept,holding,missed⟩,rfl⟩
  | addManaged s forgeId =>
    cases answered
    have kept := remember_holding s (fun m => { m with managed := some (insert forgeId (m.managed.getD ∅)) })
      (fun m managed known => ⟨_,rfl,by simp [known]⟩) holding
    exact ⟨⟨stored,kept,missed⟩,rfl⟩
  | setRequiredWorkflow s available =>
    cases answered
    have kept := remember_holding s (fun m => { m with requiredWorkflow := some available })
      (fun m managed known => ⟨managed,known,subset_rfl⟩) holding
    exact ⟨⟨stored,kept,missed⟩,rfl⟩
  | setPin s pin =>
    cases answered
    have kept := remember_holding s (fun m => { m with pin := some pin })
      (fun m managed known => ⟨managed,known,subset_rfl⟩) holding
    exact ⟨⟨stored,kept,missed⟩,rfl⟩
  | _ =>
    cases answered
    exact ⟨⟨stored,holding,missed⟩,rfl⟩

theorem served_calm {q : Query} {a : q.Answer} (calm : q.Calm) (served : Served q w a u)
    (covers : Covers ns r extra w) : Covers ns r extra u ∧ u.live = w.live := by
  obtain ⟨stored,holding,missed⟩ := covers
  cases served with
  | at_once answered => exact answer_calm calm answered ⟨stored,holding,missed⟩
  | create | createThenFailed => exact ⟨⟨stored,holding,missed⟩,rfl⟩
  | patchArchived | patchThenFailed | ruled | ruledThenFailed | refused => exact calm.elim
  | _ => exact ⟨⟨stored,holding,missed⟩,rfl⟩

-- One job at a time, nobody else at the records; `fits` is asked of every step.
def alone (fits : (q : Query) → World → World → Prop) (always : World → Prop) : Setting Query Query.Answer World :=
  ⟨fun q w a u => Served q w a u ∧ fits q w u,fun _ _ => False,fun _ _ _ => True,always⟩

section
variable {fits : (q : Query) → World → World → Prop} {always : World → Prop}

theorem alone_stable (P : World → Prop) : (alone fits always).Stable P := fun _ _ act => act.elim

theorem holds_return {post : α → World → Prop} (safe : always w) (here : post a w) :
    (alone fits always).Holds post (.done a) w := by
  intro t later
  have same := stable_later (alone_stable (· = w)) later rfl
  exact same ▸ ⟨safe,here⟩

theorem holds_query {q : Query} {next : q.Answer → Code α} {post : α → World → Prop} (safe : always w)
    (answered : ∀ a u, Served q w a u → fits q w u → (alone fits always).Holds post (next a) u) :
    (alone fits always).Holds post (.call q next) w := by
  refine holds_call (P := (· = w)) (alone_stable _) (fun _ same => same ▸ safe) ?_ rfl
  rintro _ a u rfl served
  exact ⟨trivial,answered a u served.1 served.2⟩

theorem holds_txn {q : Query} {f : q.Answer → Job α} {post : Option α → World → Prop} (safe : always w)
    (answered : ∀ a u, Served q w a u → fits q w u → (alone fits always).Holds post (f a).run u) :
    (alone fits always).Holds post (txn q >>= f).run w := holds_query safe answered

theorem holds_expects {q : Query} {found : q.Answer → Bool} {f : q.Answer → Job α} {post : Option α → World → Prop}
    (safe : always w) (answered : ∀ a u, Served q w a u → fits q w u →
      found a = true ∧ (alone fits always).Holds post (f a).run u) :
    (alone fits always).Holds post (expects q found >>= f).run w := by
  refine holds_query safe fun a u served fit => ?_
  obtain ⟨there,rest⟩ := answered a u served fit
  show (alone fits always).Holds post ((Prog.done (if found a = true then some a else none)).bind _) u
  rw [if_pos there]
  exact rest

theorem holds_attempt {m : Method α} {f : Except Failure α → Job β} {mid : Except Failure α → World → Prop}
    {post : Option β → World → Prop} (first : (alone fits always).Holds mid m.run w)
    (safe : ∀ result u, mid result u → always u)
    (next : ∀ result u, mid result u → (alone fits always).Holds post (f result).run u) :
    (alone fits always).Holds post (attempt m >>= f).run w := by
  have tried : (alone fits always).Holds (fun o u => ∃ result, o = some result ∧ mid result u) (attempt m).run w :=
    holds_bind _ _ first fun result u there => holds_return (safe result u there) ⟨result,rfl,there⟩
  refine holds_optional _ f tried ?_ ?_
  · rintro result u ⟨_,⟨⟩,there⟩
    exact next result u there
  · rintro u ⟨_,⟨⟩,_⟩

-- What a job keeps whatever it comes to.
theorem holds_then {mid post : World → Prop} (p : Job α) (f : α → Job β)
    (first : (alone fits always).Holds (fun _ => mid) p.run w)
    (next : ∀ a u, mid u → (alone fits always).Holds (fun _ => post) (f a).run u)
    (weaker : ∀ u, mid u → always u ∧ post u) : (alone fits always).Holds (fun _ => post) (p >>= f).run w :=
  holds_optional p f first next fun u there => holds_return (weaker u there).1 (weaker u there).2

end

section
variable {kind : Query → Prop}

theorem asks_send {request : Request} (here : kind (.forge request)) : (send request).run.Asks kind :=
  ⟨here,fun _ => trivial⟩

theorem asks_run {q : Query} (here : kind q) : (run q).run.Asks kind := ⟨here,fun _ => trivial⟩

theorem asks_txn {q : Query} (here : kind q) : (txn q).run.Asks kind := ⟨here,fun _ => trivial⟩

end

-- Calm, or a ruleset that lists all of these.
def Covering (listed : Finset Nat) (q : Query) : Prop :=
  q.Calm ∨ ∃ existing central sha branch ids, q = .forge (.writeRuleset existing central sha branch ids) ∧ listed ⊆ ids

section
variable {listed : Finset Nat}

theorem keptCommit_covering (existing : Option OrgRuleset) (central : Nat) (contents : Bytes) :
    (keptCommit existing central contents).run.Asks (Covering listed) := by
  unfold keptCommit
  split
  · trivial
  · exact asks_fallible _ _ (asks_send (.inl trivial)) fun _ => trivial

theorem placedCommit_covering (branch contents message : Bytes) :
    (placedCommit branch contents message).run.Asks (Covering listed) := by
  refine asks_fallible _ _ (asks_send (.inl trivial)) fun head => ?_
  refine asks_fallible _ _ (asks_send (.inl trivial)) fun file => ?_
  split
  · trivial
  · exact asks_fallible _ _ (asks_send (.inl trivial)) fun _ => trivial

theorem coverRepositories_covering (resource : Resource) (existing : Option OrgRuleset) (central : Nat)
    (sha branch : Bytes) (target : Nat) {ids : Finset Nat} (all : listed ⊆ ids) :
    (coverRepositories resource existing central sha branch target ids).run.Asks (Covering listed) := by
  refine asks_fallible _ _ (asks_send (.inr ⟨_,_,_,_,ids,rfl,all⟩)) fun written => ?_
  cases written with
  | error refusal => exact asks_fallible _ _ (asks_run (.inl trivial)) fun _ => trivial
  | ok id =>
    refine asks_fallible _ _ (asks_send (.inl trivial)) fun after => ?_
    cases after with
    | none => trivial
    | some rs =>
      dsimp only
      split <;> trivial

theorem coverAsNeeded_covering (resource : Resource) (existing : Option OrgRuleset) (central : Nat)
    (sha branch : Bytes) (target : Nat) {ids : Finset Nat} (changed : Bool) (all : listed ⊆ ids) :
    (coverAsNeeded resource existing central sha branch target ids changed).run.Asks (Covering listed) := by
  unfold coverAsNeeded
  split
  · trivial
  · exact coverRepositories_covering _ _ _ _ _ _ all

theorem pinAndCover_covering (resource : Resource) (target : Nat) (wanted : RequiredWorkflow) :
    (pinAndCover resource target listed wanted).run.Asks (Covering listed) := by
  refine asks_fallible _ _ (asks_send (.inl trivial)) fun central => ?_
  refine asks_fallible _ _ (asks_send (.inl trivial)) fun _ => ?_
  refine asks_fallible _ _ (asks_send (.inl trivial)) fun existing => ?_
  refine asks_fallible _ _ (keptCommit_covering _ _ _) fun kept => ?_
  have placed : (commitFor (central.defaultBranch.getD (ascii "main")) wanted.contents wanted.message kept).run.Asks
      (Covering listed) := by
    cases kept with
    | none => exact placedCommit_covering _ _ _
    | some sha => trivial
  refine asks_fallible _ _ placed fun commit => ?_
  dsimp only
  split
  · refine asks_fallible _ _ (asks_send (.inl trivial)) fun _ => ?_
    refine asks_fallible _ _ (asks_send (.inl trivial)) fun _ => ?_
    refine asks_fallible _ _ (coverAsNeeded_covering _ _ _ _ _ _ _ (Finset.subset_insert _ _)) fun outcome => ?_
    refine asks_fallible _ _ (asks_run (.inl trivial)) fun _ => ?_
    exact asks_fallible _ _ (asks_run (.inl trivial)) fun _ => trivial
  · trivial

end

-- What is safe at any moment: a restart hands the adapter what the record lists.
def Safe (ns : Bytes) (r : Resource) (w : World) : Prop := Stored ns r ∅ w ∧ w.missed = ∅

-- An archive request for a bootstrapped repository leaves it archived.
def Archives (q : Query) (w u : World) : Prop :=
  ∀ repo forgeId, q = .forge (.patchArchived repo) → w.ids repo = some forgeId → forgeId ∈ w.bootstrapped →
    forgeId ∈ u.archived

theorem covers_safe (covers : Covers ns r extra w) : Safe ns r w :=
  ⟨(covers_fewer (Finset.empty_subset _) covers).stored,covers.missed⟩

theorem ruled_covers {ids : Finset Nat} (all : w.live ⊆ ids) (covers : Covers ns r extra w) :
    Covers ns r extra (w.rule ids) := by
  refine ⟨covers.stored,covers.holding,?_⟩
  have none_left : w.live \ ids = ∅ := Finset.sdiff_eq_empty_iff_subset.mpr all
  show w.missed ∪ w.live \ ids = ∅
  rw [none_left,covers.missed,Finset.union_empty]

theorem served_covering {q : Query} {a : q.Answer} {listed : Finset Nat} (covering : Covering listed q)
    (served : Served q w a u) (covers : Covers ns r extra w) (all : w.live ⊆ listed) :
    Covers ns r extra u ∧ u.live ⊆ listed := by
  rcases covering with calm | ⟨existing,central,sha,branch,ids,rfl,within⟩
  · obtain ⟨kept,same⟩ := served_calm calm served covers
    exact ⟨kept,same ▸ all⟩
  · cases served with
    | ruled | ruledThenFailed => exact ⟨ruled_covers (all.trans within) covers,all⟩
    | refused | failed => exact ⟨covers,all⟩
    | free free => exact free.elim
    | at_once answered => cases answered

abbrev careful (ns : Bytes) (r : Resource) : Setting Query Query.Answer World := alone Archives (Safe ns r)

theorem holds_covering {listed : Finset Nat} (p : Code α) (asks : p.Asks (Covering listed))
    (covers : Covers ns r extra w) (all : w.live ⊆ listed) : (careful ns r).Holds (fun _ => Covers ns r extra) p w := by
  have kept := holds_asks (w := careful ns r) (P := fun u => Covers ns r extra u ∧ u.live ⊆ listed) (alone_stable _)
    (fun _ here => covers_safe here.1)
    (fun q s a t covering here served => ⟨trivial,served_covering covering served.1 here.1 here.2⟩) p asks ⟨covers,all⟩
  exact holds_weaken p kept fun _ _ there => there.1

theorem holds_calm (p : Code α) (asks : p.Asks Query.Calm) (covers : Covers ns r extra w) :
    (careful ns r).Holds (fun _ => Covers ns r extra) p w :=
  holds_covering p (asks_weaken (fun _ calm => .inl calm) p asks) covers subset_rfl

theorem memory_answer {m : Memory} (served : Served (.memory r) w m u) : u = w ∧ m = w.memory r := by
  cases served with
  | at_once answered =>
    cases answered
    exact ⟨rfl,rfl⟩

theorem requireFor_covering (repo : Resource) (wanted : RequiredWorkflow) (m : Memory) {listed : Finset Nat}
    (known : m.managed = some listed) : (requireFor r repo wanted m).run.Asks (Covering listed) := by
  unfold requireFor
  rw [known]
  cases m.registered with
  | none => trivial
  | some registered =>
    dsimp only
    split
    · refine asks_fallible _ _ (asks_send (.inl trivial)) fun _ => ?_
      exact asks_fallible _ _ (asks_send (.inl trivial)) fun found => pinAndCover_covering _ _ _
    · trivial

theorem holds_requireNamespaceWorkflow (repo : Resource) (wanted : RequiredWorkflow) (covers : Covers ns r extra w) :
    (careful ns r).Holds (fun _ => Covers ns r extra) (requireNamespaceWorkflow r repo wanted).run w := by
  refine holds_query (covers_safe covers) fun m u served _ => ?_
  obtain ⟨rfl,rfl⟩ := memory_answer served
  obtain ⟨listed,known,within⟩ := covers.holding
  exact holds_covering _ (requireFor_covering repo wanted _ known) covers (Finset.union_subset_left within)

section
variable {ctx : NamespaceRecord} (own : ctx.id = ns) (here : ctx.resource = r)

theorem at_once_answered {q : Query} {a : q.Answer} (ours : ∀ request, q ≠ .forge request)
    (served : Served q w a u) : w.answer q = some (a,u) := by
  cases served with
  | at_once answered => exact answered
  | _ => exact absurd rfl (ours _)

theorem kept_done {less : Finset Nat} (fewer : less ⊆ extra) (u : World) (covers : Covers ns r extra u) :
    Safe ns r u ∧ Covers ns r less u :=
  ⟨covers_safe covers,covers_fewer fewer covers⟩

-- The transaction expects the record of the namespace, and it is there.
theorem manageNamespace_answer {forgeId : Nat} {a : Option (Finset Nat)}
    (served : Served (.manageNamespace ns forgeId) w a u) (covers : Covers ns r ∅ w) :
    ∃ listed, a = some listed ∧ u.live ∪ {forgeId} ⊆ listed ∧ Stored ns r {forgeId} u ∧ u.missed = ∅ := by
  obtain ⟨n,found,own,bound,within⟩ := covers.stored
  have answered := at_once_answered (fun _ => by simp) served
  simp only [World.answer,found] at answered
  cases answered
  have all : w.live ∪ {forgeId} ⊆ insert forgeId n.managed := by
    refine Finset.union_subset ?_ (by simp)
    exact (Finset.union_subset_left within).trans (Finset.subset_insert _ _)
  exact ⟨_,rfl,all,⟨{ n with managed := insert forgeId n.managed },by simp [World.updateBound,found],own,bound,all⟩,
    covers.missed⟩

theorem setManaged_covers {listed : Finset Nat} {a : Unit} (served : Served (.setManaged r listed) w a u)
    (stored : Stored ns r extra w) (missed : w.missed = ∅) (all : w.live ∪ extra ⊆ listed) : Covers ns r extra u := by
  have answered := at_once_answered (fun _ => by simp) served
  cases answered
  exact ⟨stored,⟨listed,by simp [World.remember],all⟩,missed⟩

include own here in
theorem holds_manage (state : RepoState) (owners : List ForgeAccount) (covers : Covers ns r ∅ w) :
    (careful ns r).Holds (fun _ => Covers ns r {state.forgeId}) (manage ctx state owners).run w := by
  rw [manage_run,own,here]
  refine holds_query (covers_safe covers) fun _ t served _ => ?_
  have covers := (served_calm (by trivial) served covers).1
  refine holds_query (covers_safe covers) fun a u served _ => ?_
  obtain ⟨listed,rfl,all,stored,missed⟩ := manageNamespace_answer served covers
  have safe : Safe ns r u := by
    obtain ⟨n,found,own,bound,within⟩ := stored
    exact ⟨⟨n,found,own,bound,(Finset.union_subset_union_right (Finset.empty_subset _)).trans within⟩,missed⟩
  refine holds_query safe fun _ v served _ => ?_
  have covers := setManaged_covers served stored missed all
  exact holds_return (covers_safe covers) covers

theorem persist_covers {m : Memory} {pin : Option Pin} {a : Bool} (served : Served (.persist ns pin m.managed) w a u)
    (same : m.managed = (w.memory r).managed) (covers : Covers ns r extra w) : a = true ∧ Covers ns r extra u := by
  obtain ⟨⟨n,found,own,bound,within⟩,⟨listed,held,all⟩,missed⟩ := covers
  have answered := at_once_answered (fun _ => by simp) served
  simp only [World.answer,found] at answered
  cases answered
  refine ⟨rfl,⟨persisted pin m.managed n,by simp [World.updateBound,found],own,bound,?_⟩,⟨listed,held,all⟩,missed⟩
  rw [persisted,same,held]
  exact all

include own here in
theorem holds_persist (covers : Covers ns r extra w) :
    (careful ns r).Holds (fun _ => Covers ns r extra) (persistAdapterState ctx).run w := by
  rw [persist_run,own,here]
  refine holds_query (covers_safe covers) fun first t served _ => ?_
  obtain ⟨rfl,rfl⟩ := memory_answer served
  refine holds_query (covers_safe covers) fun second t served _ => ?_
  obtain ⟨rfl,rfl⟩ := memory_answer served
  refine holds_query (covers_safe covers) fun found u served _ => ?_
  obtain ⟨rfl,covers⟩ := persist_covers served rfl covers
  exact holds_return (covers_safe covers) covers

include here in
omit own in
theorem holds_runStep (repo : Resource) (step : BootstrapStep) (covers : Covers ns r extra w) :
    (careful ns r).Holds (fun _ => Covers ns r extra) (runStep ctx.resource repo step).run w := by
  unfold runStep
  cases step.action with
  | requireNamespaceWorkflow wanted =>
    rw [here]
    exact holds_requireNamespaceWorkflow repo wanted covers
  | other => exact holds_calm _ (asks_send trivial) covers

include here in
omit own in
theorem holds_runSteps (repo : Resource) (first : Bool) (steps : List BootstrapStep) (report : JobReport)
    (covers : Covers ns r extra w) :
    (careful ns r).Holds (fun _ => Covers ns r extra) (runSteps ctx repo first steps report).run w := by
  induction steps generalizing report w with
  | nil => exact holds_return (covers_safe covers) covers
  | cons step rest ih =>
    have stepped : (careful ns r).Holds (fun _ => Covers ns r extra) (attempt (runStep ctx.resource repo step)).run w :=
      holds_bind _ _ (holds_runStep here repo step covers) fun _ u kept => holds_return (covers_safe kept) kept
    refine holds_then _ _ stepped (fun result u covers => ?_) (kept_done subset_rfl)
    rcases result with ⟨ns,capability,available,reason⟩ | _ | _ | _ | outcome
    · dsimp only
      split
      · refine holds_calm _ (asks_optional _ _ ?_ fun _ => trivial) covers
        refine asks_optional _ _ ⟨trivial,fun found => by cases found <;> trivial⟩ fun _ => ?_
        split
        · exact asks_txn trivial
        · trivial
      · exact holds_return (covers_safe covers) covers
    all_goals first | exact holds_return (covers_safe covers) covers | exact ih _ covers

theorem recordCheck_covers {key : RepoKey} {check : Bytes} {a : Unit} (served : Served (.recordCheck key check) w a u)
    (within : key.2 ∈ extra) (covers : Covers ns r extra w) : Covers ns r extra u := by
  have answered := at_once_answered (fun _ => by simp) served
  cases answered
  have fewer : insert key.2 w.bootstrapped \ w.archived ∪ extra ⊆ w.live ∪ extra := by
    intro id member
    simp only [World.live,Finset.mem_union,Finset.mem_sdiff,Finset.mem_insert] at member ⊢
    rcases member with ⟨rfl | before,alive⟩ | other
    · exact .inr within
    · exact .inl ⟨before,alive⟩
    · exact .inr other
  obtain ⟨⟨n,found,own,bound,listed⟩,⟨m,held,all⟩,missed⟩ := covers
  exact ⟨⟨n,found,own,bound,fewer.trans listed⟩,⟨m,held,fewer.trans all⟩,missed⟩

include own here in
theorem holds_attemptBootstrap (setup : Setup) (check : Bytes) (repo : Resource) (only : Option (List Bytes))
    (first : Bool) (report : JobReport) (known : (report.repo.map (·.2)).getD 0 ∈ extra) (covers : Covers ns r extra w) :
    (careful ns r).Holds (fun _ => Covers ns r extra) (attemptBootstrap setup ctx check repo only first report).run w := by
  refine holds_then _ _ (holds_calm _ (asks_txn trivial) covers) (fun m t covers => ?_) (kept_done subset_rfl)
  cases setup.plan ((m.registered.map m.capable).getD false) repo with
  | error e => exact holds_return (covers_safe covers) covers
  | ok plan =>
    refine holds_then _ _ (holds_runSteps here repo first _ report covers) (fun ran t covers => ?_) (kept_done subset_rfl)
    obtain ⟨ran,after⟩ := ran
    cases ran with
    | replan => exact holds_return (covers_safe covers) covers
    | failed =>
      refine holds_then _ _ (holds_persist own here covers) (fun _ u covers => ?_) (kept_done subset_rfl)
      exact holds_return (covers_safe covers) covers
    | through =>
      refine holds_then _ _ (holds_persist own here covers) (fun _ u covers => ?_) (kept_done subset_rfl)
      refine holds_query (covers_safe covers) fun _ v served _ => ?_
      have covers := recordCheck_covers served known covers
      exact holds_return (covers_safe covers) covers

include own here in
theorem holds_runBootstrap (setup : Setup) (repo : Resource) (only : Option (List Bytes)) (report : JobReport)
    (known : (report.repo.map (·.2)).getD 0 ∈ extra) (covers : Covers ns r extra w) :
    (careful ns r).Holds (fun _ => Covers ns r extra) (runBootstrap setup ctx repo only report).run w := by
  unfold runBootstrap
  cases setup.requiredCheck with
  | none => exact holds_return (covers_safe covers) covers
  | some check =>
    refine holds_then _ _ (holds_attemptBootstrap own here setup check repo only true report known covers)
      (fun first t covers => ?_) (kept_done subset_rfl)
    cases first with
    | some done => exact holds_return (covers_safe covers) covers
    | none =>
      refine holds_then _ _ (holds_attemptBootstrap own here setup check repo only false report known covers)
        (fun second u covers => ?_) (kept_done subset_rfl)
      cases second <;> exact holds_return (covers_safe covers) covers

theorem refreshGuard_calm (report : JobReport) : (refreshGuard ctx report).run.Asks Query.Calm := by
  unfold refreshGuard
  cases report.repo with
  | none => trivial
  | some repo =>
    refine asks_optional _ _ (asks_txn trivial) fun record => ?_
    cases record with
    | none => trivial
    | some record =>
      refine asks_optional _ _ (asks_txn trivial) fun found => ?_
      cases found with
      | error e => trivial
      | ok state => exact asks_txn trivial

theorem applyRoles_calm (repo : Resource) (forgeId : Nat) (desired : List RoleAssignment) (owners : List ForgeAccount)
    (report : JobReport) : (applyRoles ctx repo forgeId desired owners report).run.Asks Query.Calm := by
  refine asks_optional _ _ (asks_txn trivial) fun applied => ?_
  cases applied with
  | error e => trivial
  | ok roles => exact asks_optional _ _ (asks_txn trivial) fun _ => trivial

theorem createdRepo_calm (repo : Resource) : (createdRepo ctx repo).run.Asks Query.Calm := by
  refine asks_optional _ _ (asks_txn trivial) fun created => ?_
  split
  · trivial
  · refine asks_optional _ _ (asks_txn trivial) fun record => ?_
    split
    · exact asks_optional _ _ (asks_txn trivial) fun _ => trivial
    · trivial
  · trivial

include own here in
theorem holds_createRepo (setup : Setup) (repo : Resource) (desired : List RoleAssignment) (owners : List ForgeAccount)
    (covers : Covers ns r ∅ w) :
    (careful ns r).Holds (fun _ => Covers ns r ∅) (createRepo setup ctx repo desired owners).run w := by
  refine holds_then _ _ (holds_calm _ (createdRepo_calm repo) covers) (fun created t covers => ?_) (kept_done subset_rfl)
  rcases created with e | ⟨state,status⟩
  · exact holds_return (covers_safe covers) covers
  · have empty : ∅ ⊆ ({state.forgeId} : Finset Nat) := Finset.empty_subset _
    refine holds_then _ _ (holds_manage own here state owners covers) (fun _ u covers => ?_) (kept_done empty)
    refine holds_then _ _ (holds_runBootstrap own here setup repo none _ (Finset.mem_singleton_self _) covers)
      (fun done v covers => ?_) (kept_done empty)
    have covers := covers_fewer empty covers
    obtain ⟨through,report⟩ := done
    cases through with
    | true =>
      refine holds_then _ _ (holds_calm _ (applyRoles_calm _ _ _ _ _) covers) (fun report x covers => ?_) (kept_done subset_rfl)
      refine holds_then _ _ (holds_calm _ (refreshGuard_calm report) covers) (fun _ y covers => ?_) (kept_done subset_rfl)
      exact holds_return (covers_safe covers) covers
    | false =>
      refine holds_then _ _ (holds_calm _ (refreshGuard_calm report) covers) (fun _ y covers => ?_) (kept_done subset_rfl)
      exact holds_return (covers_safe covers) covers

include own here in
theorem holds_bootstrap (setup : Setup) (repo : Resource) (only : Option (List Bytes)) (covers : Covers ns r ∅ w) :
    (careful ns r).Holds (fun _ => Covers ns r ∅) (bootstrap setup ctx repo only).run w := by
  refine holds_then _ _ (holds_calm _ (asks_txn trivial) covers) (fun found t covers => ?_) (kept_done subset_rfl)
  cases found with
  | error e => exact holds_return (covers_safe covers) covers
  | ok state =>
    have empty : ∅ ⊆ ({state.forgeId} : Finset Nat) := Finset.empty_subset _
    refine holds_then _ _ (holds_calm _ (asks_txn trivial) covers) (fun record t covers => ?_) (kept_done subset_rfl)
    refine holds_then _ _ (holds_manage own here state _ covers) (fun _ u covers => ?_) (kept_done empty)
    refine holds_then _ _ (holds_runBootstrap own here setup _ only _ (Finset.mem_singleton_self _) covers)
      (fun done v covers => ?_) (kept_done empty)
    obtain ⟨_,report⟩ := done
    refine holds_then _ _ (holds_calm _ (refreshGuard_calm report) (covers_fewer empty covers)) (fun _ y covers => ?_)
      (kept_done subset_rfl)
    exact holds_return (covers_safe covers) covers

-- While it is being archived, the adapter has let go of the repository.
structure Dropped (ns : Bytes) (r repo : Resource) (id : Nat) (w : World) : Prop where
  stored : Stored ns r ∅ w
  held : ∃ m, (w.memory r).managed = some m ∧ w.live.erase id ⊆ m
  missed : w.missed = ∅
  there : w.ids repo = some id

theorem dropped_covers {repo : Resource} {id : Nat} (dropped : Dropped ns r repo id w) (gone : id ∉ w.live) :
    Covers ns r ∅ w := by
  obtain ⟨stored,⟨m,held,all⟩,missed,_⟩ := dropped
  exact ⟨stored,⟨m,held,by simpa [Finset.erase_eq_of_notMem gone] using all⟩,missed⟩

theorem archive_live (id : Nat) : (w.archive id).live = w.live.erase id := by
  ext other
  simp only [World.archive,World.live,Finset.mem_sdiff,Finset.mem_insert,Finset.mem_erase]
  tauto

theorem dropManaged_dropped {repo : Resource} {id : Nat} {a : Unit} (served : Served (.dropManaged r id) w a u)
    (there : w.ids repo = some id) (covers : Covers ns r ∅ w) : Dropped ns r repo id u ∧ u.archived = w.archived := by
  have answered := at_once_answered (fun _ => by simp) served
  cases answered
  obtain ⟨stored,⟨m,held,all⟩,missed⟩ := covers
  refine ⟨⟨stored,⟨m.erase id,by simp [World.remember,held],?_⟩,missed,there⟩,rfl⟩
  exact Finset.erase_subset_erase id ((Finset.union_empty w.live) ▸ all)

-- With the archive request answered the repository is no longer live; where it
-- failed, it was never bootstrapped.
theorem patchArchived_covers {repo : Resource} {id : Nat} {a : Except ForgeError Unit}
    (served : Served (.forge (.patchArchived repo)) w a u) (fits : Archives (.forge (.patchArchived repo)) w u)
    (dropped : Dropped ns r repo id w) : Covers ns r ∅ u ∧ u.ids repo = some id ∧ (a = .ok () → id ∈ u.archived) := by
  obtain ⟨⟨n,found,own,bound,listed⟩,⟨m,held,all⟩,missed,there⟩ := dropped
  have archived : Covers ns r ∅ (w.archive id) := by
    have fewer : (w.archive id).live ⊆ w.live := by
      rw [archive_live]
      exact Finset.erase_subset _ _
    refine ⟨⟨n,found,own,bound,(Finset.union_subset_union_left fewer).trans listed⟩,⟨m,held,?_⟩,missed⟩
    rw [archive_live,Finset.union_empty]
    exact all
  cases served with
  | patchArchived other | patchThenFailed other =>
    obtain rfl : _ = id := Option.some.inj (other.symm.trans there)
    exact ⟨archived,there,fun _ => Finset.mem_insert_self _ _⟩
  | failed =>
    have gone : id ∉ w.live := by
      intro live
      obtain ⟨before,alive⟩ := Finset.mem_sdiff.mp live
      exact alive (fits repo id rfl there before)
    exact ⟨dropped_covers ⟨⟨n,found,own,bound,listed⟩,⟨m,held,all⟩,missed,there⟩ gone,there,fun ok => by cases ok⟩
  | free free => exact free.elim
  | at_once answered => cases answered

theorem token_answer {a : Except ForgeError Unit} (served : Served (.forge .token) w a u) : u = w := by
  cases served with
  | at_once answered => cases answered
  | _ => rfl

theorem repository_answer {repo : Resource} {a : Except ForgeError (Nat × Bool)}
    (served : Served (.forge (.repository repo)) w a u) :
    u = w ∧ ∀ found, a = .ok found → w.ids repo = some found.1 ∧ found.2 = decide (found.1 ∈ w.archived) := by
  cases served with
  | at_once answered => cases answered
  | free free => exact free.elim
  | repository there =>
    refine ⟨rfl,?_⟩
    rintro _ ⟨⟩
    exact ⟨there,rfl⟩
  | failed =>
    refine ⟨rfl,?_⟩
    rintro _ ⟨⟩

structure Archived (ns : Bytes) (r repo : Resource) (id : Nat) (result : Except Failure Unit) (w : World) : Prop where
  covers : Covers ns r ∅ w
  there : w.ids repo = some id
  archived : result = .ok () → id ∈ w.archived

theorem archived_failed {repo : Resource} {id : Nat} (e : Failure) (covers : Covers ns r ∅ w)
    (there : w.ids repo = some id) : Archived ns r repo id (.error e) w :=
  ⟨covers,there,fun ok => by cases ok⟩

theorem holds_archiveRepo (repo : Resource) (id : Nat) (there : w.ids repo = some id) (covers : Covers ns r ∅ w) :
    (careful ns r).Holds (Archived ns r repo id) (archiveRepo r repo).run w := by
  rw [archiveRepo_run]
  refine holds_query (covers_safe covers) fun token t served _ => ?_
  obtain rfl := token_answer served
  cases token with
  | error e => exact holds_return (covers_safe covers) (archived_failed _ covers there)
  | ok _ =>
    refine holds_query (covers_safe covers) fun found t served _ => ?_
    obtain ⟨rfl,told⟩ := repository_answer served
    cases found with
    | error e => exact holds_return (covers_safe covers) (archived_failed _ covers there)
    | ok found =>
      obtain ⟨here,flag⟩ := told found rfl
      obtain rfl : found.1 = id := Option.some.inj (here.symm.trans there)
      refine holds_query (covers_safe covers) fun _ u served _ => ?_
      obtain ⟨dropped,same⟩ := dropManaged_dropped served there covers
      split
      · rename_i gone
        have archived : found.1 ∈ u.archived := by
          rw [same]
          simpa [flag] using gone
        have covers := dropped_covers dropped fun live => (Finset.mem_sdiff.mp live).2 archived
        exact holds_return (covers_safe covers) ⟨covers,dropped.there,fun _ => archived⟩
      · refine holds_query ⟨dropped.stored,dropped.missed⟩ fun done v served fits => ?_
        obtain ⟨covers,there,archived⟩ := patchArchived_covers served fits dropped
        refine holds_return (covers_safe covers) ⟨covers,there,fun ok => archived ?_⟩
        cases done with
        | error e => cases ok
        | ok _ => rfl

theorem unmanage_covers {id : Nat} {a : Bool} (served : Served (.unmanage ns id) w a u) (gone : id ∉ w.live)
    (covers : Covers ns r ∅ w) : a = true ∧ Covers ns r ∅ u := by
  obtain ⟨⟨n,found,own,bound,listed⟩,held,missed⟩ := covers
  have answered := at_once_answered (fun _ => by simp) served
  simp only [World.answer,found] at answered
  cases answered
  refine ⟨rfl,⟨{ n with managed := n.managed.erase id },by simp [World.updateBound,found],own,bound,?_⟩,held,missed⟩
  intro other member
  have live : other ∈ w.live ∪ ∅ := member
  refine Finset.mem_erase.mpr ⟨?_,listed live⟩
  rintro rfl
  exact gone ((Finset.union_empty w.live) ▸ live)

theorem inspect_answer {repo : Resource} {a : Except ForgeError RepoState} (served : Served (.forge (.inspect repo)) w a u) :
    u = w ∧ ∀ state, a = .ok state → w.ids repo = some state.forgeId := by
  cases served with
  | at_once answered => cases answered
  | free free => exact free.elim
  | inspect there here =>
    refine ⟨rfl,?_⟩
    rintro _ ⟨⟩
    exact there
  | failed =>
    refine ⟨rfl,?_⟩
    rintro _ ⟨⟩

theorem recordArchived_covers {key : RepoKey} {a : Unit} (served : Served (.recordArchived key) w a u)
    (covers : Covers ns r ∅ w) : Covers ns r ∅ u ∧ u.archived = w.archived := by
  have answered := at_once_answered (fun _ => by simp) served
  cases answered
  exact ⟨⟨covers.stored,covers.holding,covers.missed⟩,rfl⟩

include own here in
theorem holds_archive (repo : Resource) (covers : Covers ns r ∅ w) :
    (careful ns r).Holds (fun _ => Covers ns r ∅) (archive ctx repo).run w := by
  unfold archive
  rw [here,own]
  refine holds_txn (covers_safe covers) fun found t served _ => ?_
  obtain ⟨rfl,told⟩ := inspect_answer served
  cases found with
  | error e => exact holds_return (covers_safe covers) covers
  | ok state =>
    refine holds_attempt (holds_archiveRepo repo state.forgeId (told state rfl) covers)
      (fun _ _ there => covers_safe there.covers) ?_
    rintro result t ⟨covers,there,archived⟩
    cases result with
    | error e => exact holds_return (covers_safe covers) covers
    | ok _ =>
      refine holds_txn (covers_safe covers) fun _ u served _ => ?_
      obtain ⟨covers,same⟩ := recordArchived_covers served covers
      have gone : state.forgeId ∉ u.live := fun live => (Finset.mem_sdiff.mp live).2 (same ▸ archived rfl)
      refine holds_expects (covers_safe covers) fun a v served _ => ?_
      obtain ⟨found,covers⟩ := unmanage_covers served gone covers
      refine ⟨found,holds_then _ _ (holds_persist own here covers) (fun _ x covers => ?_) (kept_done subset_rfl)⟩
      exact holds_return (covers_safe covers) covers

end

-- The namespace's record is handed back to a new adapter.
def World.restart (ns : Bytes) (w : World) : World :=
  let fresh := { w with memory := fun _ => {} }
  match w.namespaces.lookup ns with
  | some n => fresh.restore n
  | none => fresh

theorem restart_covers (safe : Safe ns r w) : Covers ns r ∅ (w.restart ns) := by
  obtain ⟨⟨n,found,own,bound,listed⟩,missed⟩ := safe
  obtain ⟨state,there⟩ := Bool.and_eq_true_iff.mp bound
  obtain ⟨binding,known⟩ := Option.isSome_iff_exists.mp there
  have held : Held n := .inl (by simpa using state)
  have shown : w.restart ns = { w with memory := (w.restart ns).memory } := by
    simp [World.restart,found,World.restore,known,held,World.remember]
  have managed : ((w.restart ns).memory r).managed = some n.managed := by
    simp [World.restart,found,World.restore,known,held,World.remember,own.2,Memory.restoreGuard]
  rw [shown]
  exact ⟨⟨n,found,own,bound,listed⟩,⟨n.managed,managed,listed⟩,missed⟩

-- The namespace's jobs one after the other, a restart at any moment.
abbrev Jobs := Option (Option JobReport)

def Next (setup : Setup) (ns : Bytes) (w : World) (there : World × Code Jobs) : Prop :=
  ∃ kind, there = (w,(runJob setup ns kind).run)

def Restarts (ns : Bytes) (w : World) (there : World × Code Jobs) : Prop := there = (w.restart ns,.done none)

def Session (setup : Setup) (ns : Bytes) (fits : (q : Query) → World → World → Prop) :
    World × Code Jobs → World × Code Jobs → Prop :=
  (alone fits fun _ => True).Session (Next setup ns) (Restarts ns)

theorem holds_runJob (setup : Setup) (kind : JobKind) (covers : Covers ns r ∅ w) :
    (careful ns r).Holds (fun _ => Covers ns r ∅) (runJob setup ns kind).run w := by
  refine holds_txn (covers_safe covers) fun record t served _ => ?_
  obtain ⟨n,found,⟨own,here⟩,bound,listed⟩ := covers.stored
  have answered := at_once_answered (fun _ => by simp) served
  cases answered
  rw [found]
  cases admitted : (some n).filter fun n => n.isBound && n.resource.contains kind.repo && !kind.repo.isNamespace with
  | none => exact holds_return (covers_safe covers) covers
  | some ctx =>
    obtain rfl : n = ctx := by simpa using (Option.filter_eq_some_iff.mp admitted).1
    have ran : (careful ns r).Holds (fun _ => Covers ns r ∅) (runKind setup n kind).run w := by
      cases kind with
      | createRepo repo desired owners => exact holds_createRepo own here setup repo desired owners covers
      | bootstrap repo only => exact holds_bootstrap own here setup repo only covers
      | archive repo => exact holds_archive own here repo covers
    exact holds_then _ _ ran (fun _ u covers => holds_return (covers_safe covers) covers) (kept_done subset_rfl)

-- A namespace as it is served, with nothing bootstrapped yet.
structure Serving (ns : Bytes) (r : Resource) (w : World) : Prop where
  bound : ∃ n, w.namespaces.lookup ns = some n ∧ (n.id = ns ∧ n.resource = r) ∧ n.isBound
  restored : ∃ m, (w.memory r).managed = some m
  nothing : w.bootstrapped = ∅ ∧ w.missed = ∅

theorem serving_covers (serving : Serving ns r w) : Covers ns r ∅ w := by
  obtain ⟨⟨n,found,own,bound⟩,⟨m,held⟩,none,missed⟩ := serving
  have within (s : Finset Nat) : w.live ∪ ∅ ⊆ s := by simp [World.live,none]
  exact ⟨⟨n,found,own,bound,within _⟩,⟨m,held,within _⟩,missed⟩

-- As long as every archive request for a bootstrapped repository leaves it
-- archived, no ruleset leaves out a live one, and between jobs the adapter holds
-- them all.
theorem organisation_covered (setup : Setup) (ns : Bytes) (r : Resource) (w : World) (serving : Serving ns r w)
    (there : World × Code Jobs) (run : Relation.ReflTransGen (Session setup ns Archives) (w,.done none) there) :
    there.1.missed = ∅ ∧ ∀ value, there.2 = .done value → ∀ id ∈ there.1.bootstrapped, id ∉ there.1.archived →
      ∃ m, (there.1.memory r).managed = some m ∧ id ∈ m := by
  have careful_run : Relation.ReflTransGen ((careful ns r).Session (Next setup ns) (Restarts ns)) (w,.done none) there :=
    session_mono (w := alone Archives fun _ => True) (fun _ _ _ _ served => served) (fun _ _ act => act) run
  have covers := serving_covers serving
  have again (a : Jobs) (s : World) (next : World × Code Jobs) (covers : Covers ns r ∅ s) (starts : Next setup ns s next) :
      (careful ns r).Holds (fun _ => Covers ns r ∅) next.2 next.1 := by
    obtain ⟨kind,rfl⟩ := starts
    exact holds_runJob setup kind covers
  have restarted (s : World) (next : World × Code Jobs) (safe : Safe ns r s) (down : Restarts ns s next) :
      (careful ns r).Holds (fun _ => Covers ns r ∅) next.2 next.1 := by
    obtain rfl := down
    have covers := restart_covers safe
    exact holds_return (covers_safe covers) covers
  obtain ⟨_,holds⟩ := session_run (K := fun _ => True) (fun a s next _ => again a s next)
    (fun s next _ => restarted s next) (fun _ _ _ _ => trivial) careful_run trivial
    (holds_return (covers_safe covers) covers)
  refine ⟨(holds_always _ holds).2,fun value done id before alive => ?_⟩
  rw [done] at holds
  obtain ⟨m,held,all⟩ := (holds_value holds).holding
  exact ⟨m,held,all (Finset.mem_union_left _ (Finset.mem_sdiff.mpr ⟨before,alive⟩))⟩

-- Jobs played one after the other.
def played (script : Script) (setup : Setup) (ns : Bytes) : List JobKind → World × Jobs → Option (World × Jobs)
  | [],c => some c
  | kind :: rest,(w,_) =>
    match (runJob setup ns kind).run.run (World.scripted script) w with
    | some (value,u) => played script setup ns rest (u,value)
    | none => none

theorem played_session {script : Script} {setup : Setup} (fits : (q : Query) → World → World → Prop)
    (fit : ∀ q w a u, World.scripted script q w = some (a,u) → fits q w u) (kinds : List JobKind) {c d : World × Jobs}
    (done : played script setup ns kinds c = some d) :
    Relation.ReflTransGen (Session setup ns fits) (c.1,.done c.2) (d.1,.done d.2) := by
  induction kinds generalizing c with
  | nil =>
    cases done
    exact .refl
  | cons kind rest ih =>
    obtain ⟨w,before⟩ := c
    unfold played at done
    split at done
    · rename_i value u ran
      have first := run_steps (w := alone fits fun _ => True)
        (fun q s a t answered => ⟨scripted_served q s a t answered,fit q s a t answered⟩) _ ran
      exact .head (.again ⟨kind,rfl⟩) ((session_steps first).trans (ih done))
    · cases done

theorem scripted_archives {script : Script} (sure : ∀ repo, script.fails (.patchArchived repo) = false) (q : Query)
    (w : World) (a : q.Answer) (u : World) (answered : World.scripted script q w = some (a,u)) : Archives q w u := by
  rintro repo id rfl there before
  simp only [World.scripted,sure,World.carried,there] at answered
  cases answered
  exact Finset.mem_insert_self _ _

namespace Sample

def acme : Resource := ⟨ascii "github.com",ascii "acme",[],by decide⟩
def repo (name : Bytes) : Resource := ⟨ascii "github.com",ascii "acme",[name],by decide⟩
def one : Resource := repo (ascii "one")
def two : Resource := repo (ascii "two")
def three : Resource := repo (ascii "three")

def owner : Namespace := ⟨acme,true,some 7,some 5⟩
def record : NamespaceRecord := { id := [1], resource := acme, state := .bound, binding := some owner, capabilities := some true, requiredWorkflow := some true }

-- Three repositories of an organisation that has been bound.
def start : World := World.restart [1] {
  namespaces := AList.singleton [1] record
  ids := fun r => if r = one then some 1 else if r = two then some 2 else if r = three then some 3 else none }

def setup : Setup := {
  plan := fun required _ => .ok [⟨ascii "workflow",if required then .requireNamespaceWorkflow ⟨[1],ascii "check",[]⟩ else .other⟩]
  requiredCheck := some (ascii "check") }

-- The request to archive the first repository fails, the one for the second does
-- not; the ruleset written for the third then lists it alone.
def archiveFails : Script := { fails := fun request =>
  match request with
  | .patchArchived r => decide (r = one)
  | _ => false }

theorem organisation_uncovered : ∃ w : World, ∃ value : Jobs,
    Relation.ReflTransGen (Session setup [1] fun _ _ _ => True) (start,.done none) (w,.done value) ∧
    1 ∈ w.bootstrapped ∧ 1 ∉ w.archived ∧ (w.memory acme).managed = some {3} ∧ w.missed = {1} := by
  have ran : (played archiveFails setup [1] [.bootstrap one none,.archive one,.archive two,.bootstrap three none]
      (start,none)).map (fun d => (d.1.bootstrapped,d.1.archived,(d.1.memory acme).managed,d.1.missed)) =
      some ({1,3},{2},some {3},{1}) := by
    decide
  obtain ⟨d,done,seen⟩ := Option.map_eq_some_iff.mp ran
  obtain ⟨bootstrapped,seen⟩ := Prod.mk.inj seen
  obtain ⟨archived,seen⟩ := Prod.mk.inj seen
  obtain ⟨managed,missed⟩ := Prod.mk.inj seen
  refine ⟨d.1,d.2,played_session (fun _ _ _ => True) (fun _ _ _ _ _ => trivial) _ done,?_,?_,managed,missed⟩
  · simp [bootstrapped]
  · simp [archived]

theorem organisation_covered_sample : ∃ w : World, ∃ value : Jobs,
    Relation.ReflTransGen (Session setup [1] Archives) (start,.done none) (w,.done value) ∧
    1 ∈ w.bootstrapped ∧ ∃ m, (w.memory acme).managed = some m ∧ 1 ∈ m := by
  have ran : (played {} setup [1] [.bootstrap one none,.archive two,.bootstrap three none] (start,none)).map
      (fun d => (d.1.bootstrapped,d.1.archived)) = some ({1,3},{2}) := by
    decide
  obtain ⟨d,done,seen⟩ := Option.map_eq_some_iff.mp ran
  obtain ⟨bootstrapped,archived⟩ := Prod.mk.inj seen
  have run := played_session Archives (scripted_archives fun _ => rfl) _ done
  have serving : Serving [1] acme start := ⟨⟨record,by rfl,⟨rfl,rfl⟩,by decide⟩,⟨∅,by decide⟩,⟨rfl,rfl⟩⟩
  have before : 1 ∈ d.1.bootstrapped := by simp [bootstrapped]
  have alive : 1 ∉ d.1.archived := by simp [archived]
  have covered := organisation_covered setup [1] acme start serving _ run
  exact ⟨d.1,d.2,run,before,covered.2 d.2 rfl 1 before alive⟩

end Sample

end VerifiableGit.Guard
