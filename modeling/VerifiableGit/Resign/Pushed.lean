import VerifiableGit.Library.Locks
import VerifiableGit.Resign.Keys
import VerifiableGit.Resign.Run

-- What a push of the bridge's own rests on, and that no two go to one branch.
namespace VerifiableGit.ResignRun
open Text Verify Library Library.Interaction
open Commit (Scid splitSignedCommit)
open CheckRun (PullRequestInfo)
open Governance (Resource NamespaceRecord checkBranchName)
open Resign (BranchLedger Branches PushEvent Event Chain ledgerKey isClean)
open Resigned (Ed25519 GitSigningKey resignCommit alreadyResigned)

/-! The paths -/

-- A workflow file, or what could stand for one, in any case.
def Workflow (path : Bytes) : Prop :=
  path.map lowerByte = ascii ".github" ∨ path.map lowerByte = workflows ∨ (workflows ++ ascii "/") <+: path.map lowerByte

theorem lossy_front {front : Bytes} (plain : ∀ b ∈ front, b < 128) (rest : Bytes) :
    fromUtf8Lossy (front ++ rest).length (front ++ rest) = front ++ fromUtf8Lossy rest.length rest := by
  induction front with
  | nil => rfl
  | cons b front ih =>
    obtain ⟨small,later⟩ := List.forall_mem_cons.mp plain
    have none_ : followRanges b = some [] := if_pos small
    rw [List.cons_append,List.length_cons,fromUtf8Lossy,none_]
    simp only [followed,List.length_nil,if_true,List.take_zero,List.drop_zero,List.cons_append,List.nil_append,ih later]

theorem lower_ascii {b : UInt8} (small : lowerByte b < 128) : b < 128 := by
  unfold lowerByte at small
  split at small
  · rename_i upper
    exact Std.lt_of_le_of_lt upper.2 (by decide)
  · exact small

-- Lossy text keeps its front while that is ASCII.
theorem lower_front {front rest path : Bytes} (plain : ∀ b ∈ front, b < 128) (split : path.map lowerByte = front ++ rest) :
    ∃ tail, tail.map lowerByte = rest ∧
      (fromUtf8Lossy path.length path).map lowerByte = front ++ (fromUtf8Lossy tail.length tail).map lowerByte := by
  obtain ⟨head,tail,rfl,same,left⟩ := List.map_eq_append_iff.mp split
  have small : ∀ b ∈ head, b < 128 := fun b inside => lower_ascii (plain _ (same ▸ List.mem_map_of_mem inside))
  exact ⟨tail,left,by rw [lossy_front small,List.map_append,same]⟩

theorem lower_whole {path text : Bytes} (plain : ∀ b ∈ text, b < 128) (same : path.map lowerByte = text) :
    (fromUtf8Lossy path.length path).map lowerByte = text := by
  obtain ⟨tail,left,whole⟩ := lower_front plain (same.trans (List.append_nil text).symm)
  rw [whole,List.map_eq_nil_iff.mp left]
  exact List.append_nil text

theorem touches_workflow {path : Bytes} (workflow : Workflow path) : touchesWorkflows path = true := by
  simp only [touchesWorkflows,Bool.or_eq_true,decide_eq_true_eq,List.isPrefixOf_iff_prefix]
  rcases workflow with same | same | ⟨rest,same⟩
  · exact .inl (.inl (lower_whole (by decide +kernel) same))
  · exact .inl (.inr (lower_whole (by decide +kernel) same))
  · obtain ⟨_,_,whole⟩ := lower_front (by decide +kernel) same.symm
    exact .inr (whole ▸ List.prefix_append _ _)

-- Zero-ended paths split back.
theorem paths_split (paths : List Bytes) (plain : ∀ path ∈ paths, path ≠ [] ∧ 0 ∉ path) :
    ((paths.flatMap (· ++ [0])).splitOn 0).filter (· ≠ []) = paths := by
  induction paths with
  | nil => rfl
  | cons path rest ih =>
    obtain ⟨⟨some_,here⟩,later⟩ := List.forall_mem_cons.mp plain
    rw [List.flatMap_cons,List.append_assoc,List.singleton_append,List.splitOn_append_cons_self_of_not_mem here,
      List.filter_cons,if_pos (decide_eq_true some_),ih later]

abbrev Seen (Key : Type) := Library.Interaction.History Query (Reply Key)

-- Neither a lock, a push nor what others do.
def Query.quiet : Query → Bool
  | .shared q => q.quiet
  | .enter _ | .leave _ | .acquire | .release | .push _ _ _ _ | .happens _ => false
  | _ => true

section
variable {Key : Type} {v : CheckRun.Verifier} {cfg : BridgeConfig} {past : Past}

abbrev Quietly {α : Type} (v : CheckRun.Verifier) (cfg : BridgeConfig) (past : Past) (post : Seen Key → α → Prop) (seen : Seen Key)
    (p : Plain Key α) : Prop :=
  p.Heeds (Honest v cfg past) (fun _ q => q.quiet = true) post seen

theorem quiet_send {q : Query} {P : Seen Key → Reply Key q → Prop} (here : q.quiet = true)
    (last : ∀ r, Honest v cfg past q r → P (⟨q,r⟩ :: seen) r) : Quietly v cfg past P seen (send q) := heeds_ask here last

-- What a request that may fail is answered, if it succeeds.
theorem quiet_fallible {α : Type} {p : Plain Key (Except Bytes α)} {post : Seen Key → α → Prop}
    (heeds : Quietly v cfg past (onOk post) seen p) : Quietly v cfg past (onOk post) seen (fallible p).run := heeds

theorem quiet_always {α : Type} {p : Plain Key α} {post : Seen Key → α → Prop} (heeds : Quietly v cfg past post seen p) :
    Quietly v cfg past (onOk post) seen (always p).run :=
  heeds_bind p _ heeds fun _ _ _ reached => reached

theorem quiet_settled {α : Type} {r : Except Bytes α} {post : Seen Key → α → Prop} (here : onOk post seen r) :
    Quietly v cfg past (onOk post) seen (settled r).run := here

theorem quiet_shared {α : Type} {p : CheckRun.Action α} {post : α → Prop}
    (heeds : p.run.Heeds (CheckRun.Honest v cfg.checks past.toPast) (fun _ q => q.quiet = true) (onOk fun _ => post) []) :
    Quietly v cfg past (onOk fun _ : Seen Key => post) seen (shared p).run := by
  have inner : p.run.Heeds (CheckRun.Honest v cfg.checks past.toPast) (fun _ q => q.quiet = true)
      (fun _ => onOk (fun _ => post) ([] : CheckRun.Seen)) [] := by
    refine heeds_weaken _ heeds fun after result _ reached => ?_
    cases result with
    | ok a => exact reached
    | error e => trivial
  have told : ∀ (q : CheckRun.Query) (r : Reply Key (.shared q)), Honest v cfg past (.shared q) r →
      CheckRun.Honest v cfg.checks past.toPast q r := fun _ _ here => here
  have asks : ∀ (_ : Seen Key) (q : CheckRun.Query), q.quiet = true → (Query.shared q).quiet = true := fun _ _ quiet => quiet
  have outer : (p.run.within Query.shared fun _ r => r).Heeds (Honest v cfg past) (fun _ q => q.quiet = true)
      (fun _ : Seen Key => onOk (fun _ => post) ([] : CheckRun.Seen)) seen :=
    heeds_within Query.shared (fun _ r => r) told asks p.run inner
  refine heeds_weaken _ outer fun after result _ reached => ?_
  cases result with
  | ok a => exact reached
  | error e => trivial

/-! Each commit -/

theorem sha_checked {sha : Bytes} (checked : CheckRun.checkSha sha = .ok ()) : Resigned.checkSha sha = .ok () := by
  unfold CheckRun.checkSha at checked
  split at checked
  · rename_i hex
    refine if_pos ?_
    simpa [CheckRun.isSha,and_assoc] using hex
  · cases checked

theorem parse_parent {raw : Bytes} {c : Resigned.Commit} (parsed : Resigned.Commit.parse raw = .ok c) (one : c.parents = 1) :
    Resigned.checkSha c.parent = .ok () := by
  unfold Resigned.Commit.parse at parsed
  split at parsed
  · cases parsed
  split at parsed
  · cases parsed
  rename_i headers message _
  dsimp only at parsed
  generalize (lines headers).foldl Resigned.Seen.line {} = seen at parsed
  split at parsed
  · cases parsed
  rename_i tree _
  cases checked : Resigned.checkSha tree with
  | error e =>
    rw [checked] at parsed
    cases parsed
  | ok _ =>
    rw [checked] at parsed
    by_cases single : seen.parents = 1
    · cases parent : Resigned.checkSha (seen.parent.getD []) with
      | error e =>
        simp only [if_pos single,parent] at parsed
        cases parsed
      | ok _ =>
        simp only [if_pos single,parent] at parsed
        cases author : seen.author with
        | none =>
          rw [author] at parsed
          cases parsed
        | some author_ =>
          rw [author] at parsed
          cases parsed
          exact parent
    · simp only [if_neg single] at parsed
      cases author : seen.author with
      | none =>
        rw [author] at parsed
        cases parsed
      | some author_ =>
        rw [author] at parsed
        cases parsed
        exact absurd one single

-- Dependabot's commit, signed by the platform, on top of the one before it.
structure Dependabots (c : Resigned.Commit) (raw : Bytes) (previous : Option Bytes) (keyring : ExemptKeyring) (login email : Bytes) : Prop where
  single : c.parents = 1
  follows : ∀ p ∈ previous, c.parent = p
  standard : c.unexpected = []
  signed : ∃ payload pem fingerprint, splitSignedCommit raw = .ok (some (payload,pem)) ∧ keyring pem payload = .ok fingerprint
  author : (login ++ ascii " <" ++ email ++ ascii "> ") <+: c.author

theorem dependabots_checked {host : Host} {c : Resigned.Commit} {raw : Bytes} {previous : Option Bytes} {keyring : ExemptKeyring}
    {login email : Bytes} (checked : checkDependabot host c raw previous keyring login email = .ok ()) :
    Dependabots c raw previous keyring login email := by
  unfold checkDependabot at checked
  split at checked
  · cases checked
  rename_i single
  split at checked
  · cases checked
  rename_i follows
  split at checked
  · cases checked
  rename_i standard
  split at checked
  · cases checked
  · cases checked
  rename_i payload pem split_
  split at checked
  · cases checked
  split at checked
  · cases checked
  rename_i fingerprint verified
  split at checked
  · cases checked
  rename_i author
  refine ⟨not_not.mp single,fun p inside => ?_,not_not.mp standard,⟨payload,pem,fingerprint,split_,verified⟩,?_⟩
  · cases inside
    simpa using follows
  · exact List.isPrefixOf_iff_prefix.mp (not_not.mp author)

section
variable (past : Past) (ed : Ed25519 Key) (scid : Scid) (w : Rewrite Key)

-- What becomes of one commit: the same tree and author, on top of the one made
-- before it, and signed by the bridge.
structure Remade (previous new : Option Bytes) (c : RangeCommit) (commit : Resigned.Commit) (message raw : Bytes) : Prop where
  parsed : Resigned.Commit.parse c.raw = .ok commit
  dependabots : Dependabots commit c.raw previous w.keyring w.login w.email
  plain : ∀ path ∈ past.changed w.repo commit.parent c.sha, ¬Workflow path
  made : resignCommit ed scid commit (new.getD commit.parent) w.committer message w.signing = .ok raw
  same : Resigned.Commit.parse raw = .ok ⟨commit.tree,new.getD commit.parent,1,commit.author,[],message⟩

-- A range, oldest first, and the head it is given.
def Rewritten (previous new : Option Bytes) : List RangeCommit → Bytes → Prop
  | [],head => new = some head
  | c :: rest,head => ∃ commit message raw, Remade past ed scid w previous new c commit message raw ∧
      Rewritten (some c.sha) (some (past.id raw)) rest head

end

theorem changes_heeds (repo : Resource) (parent commit : Bytes) (seen : Seen Key) :
    Quietly v cfg past (fun _ changed => changed = .ok false → ∀ path ∈ past.changed repo parent commit, ¬Workflow path) seen
      (changesWorkflows repo parent commit) := by
  have asked : Quietly v cfg past (fun _ (answer : Except Bytes Bytes) => ∀ out, answer = .ok out →
      out = (past.changed repo parent commit).flatMap (· ++ [0])) seen (send (.diffTree repo parent commit)) :=
    quiet_send rfl fun _ honest => honest
  refine heeds_bind _ _ asked fun _ answer _ honest => ?_
  intro changed path member workflow
  cases answer with
  | error e => cases changed
  | ok out =>
    have same := Except.ok.inj changed
    rw [honest out rfl] at same
    dsimp only at same
    rw [paths_split _ (past.paths repo parent commit)] at same
    have all := List.any_eq_false.mp same path member
    exact all (touches_workflow workflow)

theorem trailer_heeds (message : Bytes) (signing : GitSigningKey Key) (seen : Seen Key) :
    Quietly v cfg past (onOk fun _ _ => True) seen (addTrailer message signing).run := by
  unfold addTrailer
  split
  · trivial
  have asked : Quietly v cfg past (onOk fun _ _ => True) seen
      (fallible (send (.interpretTrailers message (ascii "Signed-by-DID: " ++ signing.verificationMethod)))).run := by
    refine quiet_fallible (quiet_send rfl fun answer _ => ?_)
    cases answer with
    | ok out => trivial
    | error e => trivial
  refine heeds_then _ _ asked fun _ out _ _ => ?_
  split
  · trivial
  · trivial

variable {ed : Ed25519 Key} {scid : Scid} {host : Host} {w : Rewrite Key}

theorem rewrite_heeds (line : Line w.committer) (commits : List RangeCommit) (previous new : Option Bytes)
    (sha : ∀ n ∈ new, Resigned.checkSha n = .ok ()) (seen : Seen Key) :
    Quietly v cfg past (onOk fun _ made => ∀ head, made = .ok (some head) → Rewritten past ed scid w previous new commits head) seen
      (rewriteFrom host ed scid w previous new commits).run := by
  induction commits generalizing previous new seen with
  | nil => exact fun head same => Except.ok.inj same
  | cons c rest ih =>
    unfold rewriteFrom
    split
    · exact fun head same => (by cases same)
    rename_i commit parsed
    split
    · exact fun head same => (by cases same)
    rename_i checked
    have dependabots := dependabots_checked checked
    refine heeds_then _ _ (quiet_always (changes_heeds w.repo commit.parent c.sha seen)) fun _ changed _ plain => ?_
    split
    · exact fun head same => (by cases same)
    · exact fun head same => (by cases same)
    have plain := plain rfl
    refine heeds_then _ _ (trailer_heeds _ _ _) fun _ message _ _ => ?_
    split
    · exact fun head same => (by cases same)
    rename_i raw made
    have asked (seen : Seen Key) : Quietly v cfg past (onOk fun _ out => unicodeTrim out = past.id raw) seen
        (fallible (send (.hashObject raw))).run := by
      refine quiet_fallible (quiet_send rfl fun answer honest => ?_)
      cases answer with
      | ok out => exact honest out rfl
      | error e => trivial
    refine heeds_then _ _ (asked _) fun _ out _ id_ => ?_
    refine heeds_then _ _ (M := fun _ _ => True) (quiet_settled (by split <;> trivial)) fun _ _ _ _ => ?_
    refine heeds_then _ _ (M := fun _ _ => Resigned.checkSha (past.id raw) = .ok ()) (quiet_settled ?_) fun after _ _ hex => ?_
    · cases hex : CheckRun.checkSha (unicodeTrim out) with
      | error e => trivial
      | ok _ =>
        rw [id_] at hex
        exact sha_checked hex
    rw [id_]
    have onto : Resigned.checkSha (new.getD commit.parent) = .ok () := by
      cases new with
      | none => exact parse_parent parsed dependabots.single
      | some n => exact sha n rfl
    obtain ⟨same,_⟩ := Resigned.resign_parsed ed scid made parsed onto line
    refine heeds_weaken _ (ih (some c.sha) (some (past.id raw)) (fun n inside => ?_) after) fun _ result _ reached => ?_
    · cases inside
      exact hex
    cases result with
    | error e => trivial
    | ok made_ => exact fun head final => ⟨commit,message,raw,⟨parsed,dependabots,plain,made,same⟩,reached head final⟩

end

/-! What a push rests on -/

-- The branch and the permit a re-sign has taken.
structure Hands where
  held : Option (Nat × Bytes) := none
  permit : Bool := false

section
variable {Key : Type}

def note : (q : Query) → Reply Key q → Hands → Hands
  | .enter flight,free,h => if free then { h with held := some flight } else h
  | .leave _,_,h => { h with held := none }
  | .acquire,_,h => { h with permit := true }
  | .release,_,h => { h with permit := false }
  | _,_,h => h

def hands (seen : Seen Key) : Hands := gather note {} seen

def keyOf (t : Trigger) (pr : PullRequestInfo) : Bytes := ledgerKey t.repo.host t.repoId pr.headRef

-- The pull request is Dependabot's own, of a branch of this repository into the
-- protected one, in a namespace that has the re-sign on.
structure Eligible (cfg : BridgeConfig) (t : Trigger) (seen : Seen Key) (gh : GitHubForgeConfig) (pr : PullRequestInfo)
    (keyringFile : Bytes) : Prop where
  app : cfg.githubFor t.repo.host t.repo.owner = some gh
  governed : ∃ id ctx, ⟨.shared (.getNamespace id),some ctx⟩ ∈ seen ∧ ctx.isBound = true ∧ ⟨.automation ctx,true⟩ ∈ seen ∧
    gh.resignDependabot ctx.resource.owner = true
  keyring : gh.platformKeyringFile = some keyringFile
  shown : ⟨.pullRequest t.repo t.number,.ok pr⟩ ∈ seen
  isOpen : pr.isOpen = true
  author : openedByDependabot gh pr = true
  head : pr.headRepoId = some t.repoId
  base : pr.baseRepoId = some t.repoId
  branch : checkBranchName pr.headRef = true
  into : ⟨.shared (.defaultBranch t.repo),.ok pr.baseRef⟩ ∈ seen
  clean : ∃ l, ⟨.ledger (keyOf t pr),some l⟩ ∈ seen ∧ isClean gh.dependabotLogin gh.dependabotId l pr.headSha = .ok ()

-- Every commit GitHub lists up to the head was read under its own id, and remade.
structure Ranged (cfg : BridgeConfig) (past : Past) (ed : Ed25519 Key) (scid : Scid) (t : Trigger) (seen : Seen Key)
    (gh : GitHubForgeConfig) (pr : PullRequestInfo) (keyringFile newHead : Bytes) : Prop where
  few : (past.range t.repo pr.baseSha pr.headSha).length ≤ cfg.checks.maxCommits
  last : (past.range t.repo pr.baseSha pr.headSha).getLast? = some pr.headSha
  there : ⟨.branchHead t.repo pr.headRef,.ok (some pr.headSha)⟩ ∈ seen
  remade : ∃ fetched w, CheckRun.Fetched past.toPast t.repo (past.range t.repo pr.baseSha pr.headSha) fetched ∧
    ⟨.loadKeyring keyringFile,.ok w.keyring⟩ ∈ seen ∧ ⟨.gitSigningKey,.ok w.signing⟩ ∈ seen ∧ w.repo = t.repo ∧
    w.login = gh.dependabotLogin ∧
    w.email = ascii (toString gh.dependabotId) ++ ascii "+" ++ gh.dependabotLogin ++ ascii "@users.noreply." ++ t.repo.host ∧
    alreadyResigned ed scid (fetched.map (·.raw)) w.signing = false ∧ Rewritten past ed scid w none none fetched newHead

theorem eligible_later {cfg : BridgeConfig} {t : Trigger} {gh : GitHubForgeConfig} {pr : PullRequestInfo} {keyringFile : Bytes}
    {seen after : Seen Key} (later : seen <:+ after) (eligible : Eligible cfg t seen gh pr keyringFile) :
    Eligible cfg t after gh pr keyringFile := by
  obtain ⟨id,ctx,read,bound,auto,on⟩ := eligible.governed
  obtain ⟨l,found,clean⟩ := eligible.clean
  exact { eligible with
    governed := ⟨id,ctx,later.subset read,bound,later.subset auto,on⟩
    shown := later.subset eligible.shown
    into := later.subset eligible.into
    clean := ⟨l,later.subset found,clean⟩ }

theorem ranged_later {cfg : BridgeConfig} {past : Past} {ed : Ed25519 Key} {scid : Scid} {t : Trigger} {gh : GitHubForgeConfig}
    {pr : PullRequestInfo} {keyringFile newHead : Bytes} {seen after : Seen Key} (later : seen <:+ after)
    (ranged : Ranged cfg past ed scid t seen gh pr keyringFile newHead) : Ranged cfg past ed scid t after gh pr keyringFile newHead := by
  obtain ⟨fetched,w,read,keyring,signing,rest⟩ := ranged.remade
  exact { ranged with
    there := later.subset ranged.there
    remade := ⟨fetched,w,read,later.subset keyring,later.subset signing,rest⟩ }

-- A push replaces the pull request's head, and is on record.
def Grounded (cfg : BridgeConfig) (past : Past) (ed : Ed25519 Key) (scid : Scid) (t : Trigger) (seen : Seen Key) (branch newHead lease : Bytes) : Prop :=
  ∃ gh pr keyringFile, branch = pr.headRef ∧ lease = pr.headSha ∧ Eligible cfg t seen gh pr keyringFile ∧
    Ranged cfg past ed scid t seen gh pr keyringFile newHead ∧ ⟨.recordOwn (keyOf t pr) lease newHead,.ok ()⟩ ∈ seen

def Rule (cfg : BridgeConfig) (past : Past) (ed : Ed25519 Key) (scid : Scid) (work : Work) (seen : Seen Key) : Query → Prop
  | .acquire => hands seen = {}
  | .enter _ => hands seen = { permit := true }
  | .leave flight => hands seen = { held := some flight, permit := true }
  | .release => hands seen = { permit := true }
  | .push repo branch newHead lease => ∃ t, work = .resign t ∧ repo = t.repo ∧
      hands seen = { held := some (t.repoId,branch), permit := true } ∧ Grounded cfg past ed scid t seen branch newHead lease
  | .happens outside => work = .outside outside
  | _ => True

variable {v : CheckRun.Verifier} {cfg : BridgeConfig} {past : Past} {host : Host} {ed : Ed25519 Key} {scid : Scid}

theorem quiet_rule {work : Work} {seen : Seen Key} {q : Query} (quiet : q.quiet = true) : Rule cfg past ed scid work seen q := by
  cases q with
  | enter | leave | acquire | release | push | happens => cases quiet
  | _ => trivial

theorem quiet_hands {q : Query} (quiet : q.quiet = true) (r : Reply Key q) (seen : Seen Key) : hands (⟨q,r⟩ :: seen) = hands seen := by
  cases q with
  | enter | leave | acquire | release | push | happens => cases quiet
  | _ => rfl

theorem heeds_quiet {α : Type} {work : Work} {post : Seen Key → α → Prop} (p : Plain Key α) {seen : Seen Key}
    (heeds : Quietly v cfg past post seen p) :
    p.Heeds (Honest v cfg past) (Rule cfg past ed scid work) (fun after a => hands after = hands seen ∧ post after a) seen := by
  induction p generalizing seen with
  | done a => exact ⟨rfl,heeds⟩
  | call q next ih =>
    refine ⟨quiet_rule heeds.1,fun r honest => heeds_weaken _ (ih r (heeds.2 r honest)) ?_⟩
    intro after a _ reached
    exact ⟨reached.1.trans (quiet_hands heeds.1 r seen),reached.2⟩

-- Whatever it comes to, a re-sign ends with `h` in its hands.
abbrev Ends {α : Type} (v : CheckRun.Verifier) (cfg : BridgeConfig) (past : Past) (ed : Ed25519 Key) (scid : Scid) (t : Trigger)
    (h : Hands) (seen : Seen Key) (p : Action Key α) : Prop :=
  p.run.Heeds (Honest v cfg past) (Rule cfg past ed scid (.resign t)) (fun after _ => hands after = h) seen

theorem ends_then {α β : Type} {t : Trigger} {h : Hands} {seen : Seen Key} {mid : Seen Key → α → Prop} (p : Action Key α)
    (f : α → Action Key β) (still : hands seen = h) (first : Quietly v cfg past (onOk mid) seen p.run)
    (rest : ∀ after a, seen <:+ after → hands after = h → mid after a → Ends v cfg past ed scid t h after (f a)) :
    Ends v cfg past ed scid t h seen (p >>= f) := by
  refine heeds_fallible p f (heeds_quiet _ first) (fun after a later reached => ?_) fun after e _ reached => reached.1.trans still
  exact rest after a later (reached.1.trans still) reached.2

theorem digits_line (n : Nat) : newline ∉ ascii (toString n) := by
  rw [ascii_digits]
  intro member
  obtain ⟨c,inside,same⟩ := List.mem_map.mp member
  have bounds := digit_byte n c inside
  have value := congrArg UInt8.toNat same
  simp only [newline,Nat.toUInt8_eq,UInt8.toNat_ofNat',UInt8.toNat_ofNat] at value
  omega

theorem int_line (n : Int) : newline ∉ ascii (toString n) := by
  cases n with
  | ofNat n => exact digits_line n
  | negSucc n =>
    have text : ascii (toString (Int.negSucc n)) = ascii "-" ++ ascii (toString (n + 1)) := by
      show ascii ("-" ++ Nat.repr (n + 1)) = _
      rw [ascii,String.toList_append,List.map_append]
      rfl
    rw [text]
    intro member
    rcases List.mem_append.mp member with sign | digits
    · revert sign
      decide
    · exact digits_line (n + 1) digits

-- A request of whose answer nothing is used but that it succeeded.
theorem quiet_request {α : Type} {seen : Seen Key} {p : Plain Key (Except Bytes α)}
    (here : Quietly v cfg past (fun _ _ => True) seen p) :
    Quietly v cfg past (onOk fun _ _ => True) seen (fallible p).run :=
  heeds_weaken _ here fun _ r _ _ => by cases r <;> trivial

theorem checked_ends {α : Type} {t : Trigger} {h : Hands} {seen : Seen Key} (r : Except Bytes Unit) (f : Unit → Action Key α)
    (still : hands seen = h) (rest : r = .ok () → Ends v cfg past ed scid t h seen (f ())) :
    Ends v cfg past ed scid t h seen (settled r >>= f) := by
  cases r with
  | error e => exact still
  | ok _ => exact rest rfl

theorem push_ends {t : Trigger} {gh : GitHubForgeConfig} {pr : PullRequestInfo} {keyringFile newHead : Bytes} (commits : Nat)
    {seen : Seen Key} (eligible : Eligible cfg t seen gh pr keyringFile)
    (ranged : Ranged cfg past ed scid t seen gh pr keyringFile newHead)
    (holds : hands seen = { held := some (t.repoId,pr.headRef), permit := true }) :
    Ends v cfg past ed scid t { held := some (t.repoId,pr.headRef), permit := true } seen (pushRewritten t pr newHead commits) := by
  refine ends_then _ _ holds (quiet_request (quiet_send rfl fun _ _ => trivial)) fun after _ later holds _ => ?_
  have eligible := eligible_later later eligible
  have ranged := ranged_later later ranged
  refine checked_ends _ _ holds fun _ => checked_ends _ _ holds fun _ => ?_
  refine ends_then _ _ holds (quiet_request (quiet_send rfl fun _ _ => trivial)) fun seen _ later holds _ => ?_
  have eligible := eligible_later later eligible
  have ranged := ranged_later later ranged
  have recorded : Quietly v cfg past (onOk fun (after : Seen Key) _ => ⟨.recordOwn (keyOf t pr) pr.headSha newHead,.ok ()⟩ ∈ after) seen
      (fallible (send (.recordOwn (keyOf t pr) pr.headSha newHead))).run := by
    refine quiet_fallible (quiet_send rfl fun answer _ => ?_)
    cases answer with
    | ok _ => exact List.mem_cons_self
    | error e => trivial
  refine ends_then _ _ holds recorded fun after _ later holds recorded => ?_
  have eligible := eligible_later later eligible
  have ranged := ranged_later later ranged
  refine ends_then _ _ holds (quiet_request (quiet_send rfl fun _ _ => trivial)) fun seen _ later holds _ => ?_
  have eligible := eligible_later later eligible
  have ranged := ranged_later later ranged
  refine checked_ends _ _ holds fun _ => checked_ends _ _ holds fun _ => checked_ends _ _ holds fun _ => ?_
  refine ⟨⟨t,rfl,rfl,holds,gh,pr,keyringFile,rfl,rfl,eligible,ranged,later.subset recorded⟩,fun answer _ => ?_⟩
  cases answer with
  | ok _ => exact holds
  | error e => exact holds

theorem line_committer (cfg : BridgeConfig) (at_ : Int) : Line (cfg.committerName ++ ascii " <" ++ cfg.committerEmail ++ ascii "> " ++
    ascii (toString at_) ++ ascii " +0000") := by
  have texts : newline ∉ ascii " <" ∧ newline ∉ ascii "> " ∧ newline ∉ ascii " +0000" := by decide
  simp only [Line,List.mem_append,not_or]
  exact ⟨⟨⟨⟨⟨cfg.plain.1,texts.1⟩,cfg.plain.2⟩,texts.2.1⟩,int_line at_⟩,texts.2.2⟩

theorem range_ends {t : Trigger} {gh : GitHubForgeConfig} {pr : PullRequestInfo} {keyringFile : Bytes} {signing : GitSigningKey Key}
    {fetched : List RangeCommit} {seen : Seen Key} (eligible : Eligible cfg t seen gh pr keyringFile)
    (few : (past.range t.repo pr.baseSha pr.headSha).length ≤ cfg.checks.maxCommits)
    (last : (past.range t.repo pr.baseSha pr.headSha).getLast? = some pr.headSha)
    (there : ⟨.branchHead t.repo pr.headRef,.ok (some pr.headSha)⟩ ∈ seen)
    (read : CheckRun.Fetched past.toPast t.repo (past.range t.repo pr.baseSha pr.headSha) fetched)
    (own : ⟨.gitSigningKey,.ok signing⟩ ∈ seen) (foreign : alreadyResigned ed scid (fetched.map (·.raw)) signing = false)
    (holds : hands seen = { held := some (t.repoId,pr.headRef), permit := true }) :
    Ends v cfg past ed scid t { held := some (t.repoId,pr.headRef), permit := true } seen
      (rewriteRange host ed scid cfg t pr keyringFile signing fetched) := by
  unfold rewriteRange
  rw [eligible.app]
  have loaded : Quietly v cfg past (onOk fun (after : Seen Key) keyring => ⟨.loadKeyring keyringFile,.ok keyring⟩ ∈ after) seen
      (fallible (send (.loadKeyring keyringFile))).run := by
    refine quiet_fallible (quiet_send rfl fun answer _ => ?_)
    cases answer with
    | ok _ => exact List.mem_cons_self
    | error e => trivial
  refine ends_then _ _ holds loaded fun after keyring later holds loaded => ?_
  have timed : Quietly v cfg past (onOk fun (_ : Seen Key) _ => True) after (always (send .timestamp)).run :=
    quiet_always (quiet_send rfl fun _ _ => trivial)
  refine ends_then _ _ holds timed fun seen at_ later' holds _ => ?_
  refine ends_then _ _ holds (rewrite_heeds (line_committer cfg at_) fetched none none (fun n inside => (by cases inside)) seen)
    fun now made later'' holds rewritten => ?_
  have later := later.trans (later'.trans later'')
  cases made with
  | error why =>
    have noted : Quietly v cfg past (onOk fun (_ : Seen Key) _ => True) now
        (always (send (.noteSkip (keyOf t pr) pr.headSha why))).run := quiet_always (quiet_send rfl fun _ _ => trivial)
    exact ends_then _ _ holds noted fun _ _ _ holds _ => holds
  | ok head =>
    cases head with
    | none => exact holds
    | some newHead =>
      refine push_ends _ (eligible_later later eligible) ⟨few,last,later.subset there,?_⟩ holds
      exact ⟨fetched,_,read,(later'.trans later'').subset loaded,later.subset own,rfl,rfl,rfl,foreign,rewritten newHead rfl⟩

theorem fetch_quiet (repo : Resource) (head : Bytes) (shas : List Bytes) (seen : Seen Key) :
    Quietly v cfg past (onOk fun _ => CheckRun.Fetched past.toPast repo shas) seen (fetchForRewrite repo head shas).run := by
  have fine : ∀ (r : Except Bytes Unit) (seen : Seen Key), Quietly v cfg past (onOk fun _ _ => True) seen (settled r).run := by
    intro r seen
    refine quiet_settled ?_
    cases r with
    | ok _ => trivial
    | error e => trivial
  refine heeds_then _ _ (fine _ _) fun _ _ _ _ => ?_
  refine heeds_then _ _ (fine _ _) fun _ _ _ _ => ?_
  refine heeds_then _ _ (quiet_request (quiet_send rfl fun _ _ => trivial)) fun _ _ _ _ => ?_
  exact quiet_shared (CheckRun.catFiles_heeds (fun _ _ quiet => quiet) repo shas)

theorem moved_quiet (key head : Bytes) (current : Option Bytes) (seen : Seen Key) :
    Quietly v cfg past (fun _ _ => True) seen (moved key head current) := by
  unfold moved
  split
  · trivial
  · exact heeds_bind _ _ (quiet_send (P := fun _ _ => True) rfl fun _ _ => trivial) fun _ _ _ _ => trivial

theorem held_ends {t : Trigger} {gh : GitHubForgeConfig} {pr : PullRequestInfo} {keyringFile : Bytes} {seen : Seen Key}
    (eligible : Eligible cfg t seen gh pr keyringFile)
    (holds : hands seen = { held := some (t.repoId,pr.headRef), permit := true }) :
    Ends v cfg past ed scid t { held := some (t.repoId,pr.headRef), permit := true } seen
      (resignHeld host ed scid cfg t pr keyringFile) := by
  refine ends_then _ _ holds (quiet_shared (CheckRun.compare_heeds (fun _ _ quiet => quiet) t.repo pr.baseSha pr.headSha))
    fun after cmp later holds listed => ?_
  obtain ⟨total,front⟩ := listed
  split
  · exact holds
  rename_i enough
  split
  · exact holds
  rename_i last
  have all : cmp.commits = past.range t.repo pr.baseSha pr.headSha := front.eq_of_length_le (by omega)
  have eligible := eligible_later later eligible
  refine ends_then _ _ holds (quiet_request (quiet_send rfl fun _ _ => trivial)) fun seen _ later holds _ => ?_
  have eligible := eligible_later later eligible
  refine ends_then _ _ holds (fetch_quiet t.repo pr.headSha cmp.commits seen) fun after fetched later holds read => ?_
  have eligible := eligible_later later eligible
  refine checked_ends _ _ holds fun _ => ?_
  have pointed : Quietly v cfg past (onOk fun (seen : Seen Key) current => ⟨.branchHead t.repo pr.headRef,.ok current⟩ ∈ seen) after
      (fallible (send (.branchHead t.repo pr.headRef))).run := by
    refine quiet_fallible (quiet_send rfl fun answer _ => ?_)
    cases answer with
    | ok _ => exact List.mem_cons_self
    | error e => trivial
  refine ends_then _ _ holds pointed fun seen current later holds there => ?_
  have eligible := eligible_later later eligible
  split
  · exact heeds_weaken _ (heeds_quiet _ (quiet_always (moved_quiet _ _ current seen))) fun _ _ _ reached => reached.1.trans holds
  rename_i same
  have same := not_not.mp same
  subst same
  have keyed : Quietly v cfg past (onOk fun (after : Seen Key) signing => ⟨.gitSigningKey,.ok signing⟩ ∈ after) seen
      (fallible (send .gitSigningKey)).run := by
    refine quiet_fallible (quiet_send rfl fun answer _ => ?_)
    cases answer with
    | ok _ => exact List.mem_cons_self
    | error e => trivial
  refine ends_then _ _ holds keyed fun after signing later holds own => ?_
  split
  · exact holds
  rename_i foreign
  rw [all] at read last enough
  exact range_ends (eligible_later later eligible) (by omega) (not_not.mp last) (later.subset there) read own
    (Bool.eq_false_iff.mpr foreign) holds

-- The permit and the branch, taken and given back.
theorem lock_ends {t : Trigger} {flight : Nat × Bytes} {seen : Seen Key} (body : Action Key ResignOutcome) (empty : hands seen = {})
    (inside : ∀ after, seen <:+ after → hands after = { held := some flight, permit := true } →
      Ends v cfg past ed scid t { held := some flight, permit := true } after body) :
    Ends v cfg past ed scid t {} seen (held flight body) := by
  refine heeds_next _ empty fun r _ => ?_
  have permit : hands (⟨.acquire,r⟩ :: seen) = { permit := true } := by
    show { hands seen with permit := true } = _
    rw [empty]
  refine heeds_next _ permit fun free _ => ?_
  cases free with
  | false =>
    refine heeds_next _ permit fun _ _ => ?_
    show { hands (⟨Query.acquire,r⟩ :: seen) with permit := false } = {}
    rw [permit]
  | true =>
    have taken : hands (⟨.enter flight,true⟩ :: ⟨.acquire,r⟩ :: seen) = { held := some flight, permit := true } := by
      show { hands (⟨.acquire,r⟩ :: seen) with held := some flight } = _
      rw [permit]
    refine heeds_bind _ _ (inside _ ((List.suffix_cons _ _).trans (List.suffix_cons _ _)) taken) fun after result _ kept => ?_
    refine heeds_next _ kept fun r' _ => ?_
    have left : hands (⟨.leave flight,r'⟩ :: after) = { permit := true } := by
      show { hands after with held := none } = _
      rw [kept]
    refine heeds_next _ left fun _ _ => ?_
    show { hands (⟨Query.leave flight,r'⟩ :: after) with permit := false } = {}
    rw [left]

/-! From the trigger on -/

theorem ctx_quiet (repo : Resource) (seen : Seen Key) :
    Quietly v cfg past (fun after found => ∀ ctx ∈ found, ctx.isBound = true ∧ ∃ id, ⟨.shared (.getNamespace id),some ctx⟩ ∈ after) seen
      (githubCtx repo) := by
  refine heeds_next _ rfl fun all _ => ?_
  split
  · exact fun ctx inside => absurd inside (Option.not_mem_none ctx)
  rename_i ns _
  refine heeds_next _ rfl fun loaded _ => ?_
  split
  · exact fun ctx inside => absurd inside (Option.not_mem_none ctx)
  rename_i ctx found
  refine heeds_next _ rfl fun serves _ other inside => ?_
  obtain ⟨same,bound⟩ := Option.filter_eq_some_iff.mp found
  cases serves with
  | false => cases inside
  | true =>
    cases inside
    cases same
    exact ⟨bound,ns.id,List.mem_cons_of_mem _ List.mem_cons_self⟩

theorem remember_quiet (t : Trigger) (pr : PullRequestInfo) (seen : Seen Key) :
    Quietly v cfg past (fun _ _ => True) seen (remember cfg t pr) := by
  unfold remember
  split
  · exact quiet_send rfl fun _ _ => trivial
  · trivial

theorem qualified {gh : GitHubForgeConfig} {repoId : Nat} {pr : PullRequestInfo} {branch : Bytes}
    (ok : qualifies gh repoId pr (some branch) = .ok ()) : pr.isOpen = true ∧ openedByDependabot gh pr = true ∧
      pr.headRepoId = some repoId ∧ pr.baseRepoId = some repoId ∧ checkBranchName pr.headRef = true ∧ pr.baseRef = branch := by
  unfold qualifies at ok
  split at ok
  · cases ok
  rename_i open_
  split at ok
  · cases ok
  rename_i author
  split at ok
  · cases ok
  rename_i ids
  split at ok
  · cases ok
  rename_i name
  dsimp only at ok
  split at ok
  · cases ok
  rename_i base
  obtain ⟨head,into⟩ := not_or.mp ids
  exact ⟨not_not.mp open_,not_not.mp author,not_not.mp head,not_not.mp into,not_not.mp name,not_not.mp base⟩

theorem eligibility_quiet {ctx : NamespaceRecord} {t : Trigger} {pr : PullRequestInfo} {branch : Bytes} {seen : Seen Key}
    (bound : ctx.isBound = true) (read : ∃ id, ⟨.shared (.getNamespace id),some ctx⟩ ∈ seen)
    (shown : ⟨.pullRequest t.repo t.number,.ok pr⟩ ∈ seen) (into : ⟨.shared (.defaultBranch t.repo),.ok branch⟩ ∈ seen) :
    Quietly v cfg past (fun after checked => ∀ keyringFile, checked = .ok keyringFile → ∃ gh, Eligible cfg t after gh pr keyringFile) seen
      (eligibility cfg ctx t.repo t.repoId pr (some branch)) := by
  have refused : ∀ (e : Bytes) (seen : Seen Key) (keyringFile : Bytes), (.error e : Except Bytes Bytes) = .ok keyringFile →
      ∃ gh, Eligible cfg t seen gh pr keyringFile := fun e seen keyringFile bad => (by cases bad)
  unfold eligibility
  split
  · exact refused _ _
  rename_i gh app
  refine heeds_next _ rfl fun automatic _ => ?_
  split
  · exact refused _ _
  rename_i auto
  split
  · exact refused _ _
  rename_i on
  split
  · exact refused _ _
  · exact refused _ _
  rename_i keyring file ok
  refine heeds_next _ rfl fun found _ => ?_
  split
  · exact refused _ _
  rename_i l _
  intro keyringFile same
  obtain ⟨isOpen,author,head,base,name,rfl⟩ := qualified ok
  obtain ⟨id,read⟩ := read
  cases clean : isClean gh.dependabotLogin gh.dependabotId l pr.headSha with
  | error e =>
    rw [clean] at same
    cases same
  | ok _ =>
    rw [clean] at same
    cases same
    have auto := not_not.mp auto
    subst auto
    refine ⟨gh,app,⟨id,ctx,?_,bound,?_,not_not.mp on⟩,file,?_,isOpen,author,head,base,name,?_,⟨l,List.mem_cons_self,clean⟩⟩
    · exact List.mem_cons_of_mem _ (List.mem_cons_of_mem _ read)
    · exact List.mem_cons_of_mem _ List.mem_cons_self
    · exact List.mem_cons_of_mem _ (List.mem_cons_of_mem _ shown)
    · exact List.mem_cons_of_mem _ (List.mem_cons_of_mem _ into)

theorem run_ends {t : Trigger} {seen : Seen Key} (empty : hands seen = {}) :
    Ends v cfg past ed scid t {} seen (run host ed scid cfg t) := by
  refine ends_then _ _ empty (quiet_always (ctx_quiet t.repo seen)) fun after found later empty bound => ?_
  split
  · exact empty
  rename_i ctx
  obtain ⟨bound,id,read⟩ := bound ctx rfl
  have asked : Quietly v cfg past (onOk fun (now : Seen Key) pr => ⟨.pullRequest t.repo t.number,.ok pr⟩ ∈ now) after
      (fallible (send (.pullRequest t.repo t.number))).run := by
    refine quiet_fallible (quiet_send rfl fun answer _ => ?_)
    cases answer with
    | ok _ => exact List.mem_cons_self
    | error e => trivial
  refine ends_then _ _ empty asked fun seen pr later empty shown => ?_
  have read := later.subset read
  refine ends_then _ _ empty (quiet_always (remember_quiet t pr seen)) fun after _ later empty _ => ?_
  have read := later.subset read
  have shown := later.subset shown
  have based : Quietly v cfg past (onOk fun (now : Seen Key) branch => ⟨.shared (.defaultBranch t.repo),.ok branch⟩ ∈ now) after
      (fallible (send (.shared (.defaultBranch t.repo)))).run := by
    refine quiet_fallible (quiet_send rfl fun answer _ => ?_)
    cases answer with
    | ok _ => exact List.mem_cons_self
    | error e => trivial
  refine ends_then _ _ empty based fun seen branch later empty into => ?_
  have checked : Quietly v cfg past (fun now checked => ∀ keyringFile, checked = .ok keyringFile →
      ∃ gh, Eligible cfg t now gh pr keyringFile) seen (eligibility cfg ctx t.repo t.repoId pr (some branch)) :=
    eligibility_quiet bound ⟨id,later.subset read⟩ (later.subset shown) into
  refine ends_then _ _ empty (quiet_always checked) fun after checked later empty eligible => ?_
  split
  · exact empty
  rename_i keyringFile
  obtain ⟨gh,eligible⟩ := eligible keyringFile rfl
  exact lock_ends _ empty fun now later holds => held_ends (eligible_later later eligible) holds

end

/-! Many re-signs at a time -/

-- The log, played from the start, gives the ledgers.
def Played (s : State) : Prop := ∃ ready, Resign.play {} s.log = some ⟨s.branches,ready⟩

theorem apply_ready {branches : Branches} {u : Resign.State} (e : Event) (applied : Event.apply { branches := branches } e = some u)
    (ready : List (Bytes × Bytes × Bytes)) : ∃ later, Event.apply ⟨branches,ready⟩ e = some ⟨u.branches,later⟩ := by
  cases e with
  | delivered host push now =>
    simp only [Event.apply] at applied ⊢
    cases done : Resign.recordPush host push now branches with
    | ok next =>
      rw [done] at applied
      cases applied
      exact ⟨ready,rfl⟩
    | error why =>
      rw [done] at applied
      cases applied
      exact ⟨ready,rfl⟩
  | recorded key before after now =>
    simp only [Event.apply] at applied ⊢
    cases done : Resign.recordOwn key before after now branches with
    | ok next =>
      rw [done] at applied
      cases applied
      exact ⟨_,rfl⟩
    | error why =>
      rw [done] at applied
      cases applied
      exact ⟨ready,rfl⟩
  | sent key before after => cases applied
  | noted | skipped | pruned | detached =>
    cases applied
    exact ⟨ready,rfl⟩

theorem record_played {s : State} (e : Event) (played : Played s) : Played (s.record e) := by
  obtain ⟨ready,played⟩ := played
  unfold State.record
  cases applied : Event.apply { branches := s.branches } e with
  | none => exact ⟨ready,played⟩
  | some u =>
    obtain ⟨later,same⟩ := apply_ready e applied ready
    refine ⟨later,?_⟩
    rw [Resign.play_append,played]
    simp only [Option.bind_some,Resign.play,same]

theorem record_log (s : State) (e : Event) : s.log <+: (s.record e).log := by
  unfold State.record
  cases Event.apply { branches := s.branches } e with
  | none => exact List.prefix_rfl
  | some u => exact List.prefix_append _ _

theorem record_locks (s : State) (e : Event) : (s.record e).inFlight = s.inFlight ∧ (s.record e).free = s.free := by
  unfold State.record
  cases Event.apply { branches := s.branches } e with
  | none => exact ⟨rfl,rfl⟩
  | some u => exact ⟨rfl,rfl⟩

-- What a ledger was when it was read, and what is on record since.
def Heard {Key : Type} (s : State) : (q : Query) → Reply Key q → Prop
  | .ledger key,found => ∀ l, found = some l →
      ∃ earlier u, earlier <+: s.log ∧ Resign.play {} earlier = some u ∧ u.branches.lookup key = some l
  | .recordOwn key before after,answer => answer = .ok () → ∃ now, .recorded key before after now ∈ s.log
  | _,_ => True

section
variable {Key : Type} {v : CheckRun.Verifier} {cfg : BridgeConfig} {past : Past} {host : Host} {ed : Ed25519 Key} {scid : Scid}

abbrev Resigns (Key : Type) := Library.Interaction.Config Work Query (Reply Key) State

abbrev handsOf (c : Resigns Key) : Nat → Hands := gathered note {} c

theorem heard_later {s t : State} (later : s.log <+: t.log) (q : Query) (r : Reply Key q) (heard : Heard s q r) : Heard t q r := by
  cases q with
  | ledger key =>
    intro l found
    obtain ⟨earlier,u,front,rest⟩ := heard l found
    exact ⟨earlier,u,front.trans later,rest⟩
  | recordOwn key before after =>
    intro ok
    obtain ⟨now,inside⟩ := heard ok
    exact ⟨now,later.subset inside⟩
  | _ => trivial

theorem serve_honest (q : Query) (s : State) (r : Reply Key q) (u : State) (served : serve v cfg past q s r u) : Honest v cfg past q r := by
  cases q with
  | shared | diffTree | hashObject => exact served.1
  | _ => trivial

-- What one answer does to the ledgers: nothing, or one write on record.
theorem served_wrote {q : Query} {s t : State} {r : Reply Key q} (served : serve v cfg past q s r t) :
    t.log = s.log ∧ t.branches = s.branches ∨ ∃ e, t = s.record e := by
  cases q with
  | rememberPullRequest | noteSkip =>
    obtain ⟨now,same⟩ := served
    exact .inr ⟨_,same⟩
  | recordOwn key before after =>
    rcases served with ⟨_,now,same⟩ | ⟨_,same⟩
    · exact .inr ⟨_,same⟩
    · exact .inl ⟨by rw [same],by rw [same]⟩
  | happens outside =>
    cases outside with
    | moved => exact .inl ⟨by rw [show t = _ from served,State.moved],by rw [show t = _ from served,State.moved]⟩
    | _ => exact .inr ⟨_,served⟩
  | push =>
    rcases served with ⟨_,same⟩ | ⟨_,same⟩
    · exact .inl ⟨by rw [same,State.moved],by rw [same,State.moved]⟩
    · exact .inl ⟨by rw [same],by rw [same]⟩
  | leave | release => exact .inl ⟨by rw [show t = _ from served],by rw [show t = _ from served]⟩
  | acquire =>
    obtain ⟨more,_,same⟩ := served
    exact .inl ⟨by rw [same],by rw [same]⟩
  | _ => exact .inl ⟨by rw [served.2],by rw [served.2]⟩

theorem served_log {q : Query} {s t : State} {r : Reply Key q} (served : serve v cfg past q s r t) : s.log <+: t.log := by
  rcases served_wrote served with ⟨same,_⟩ | ⟨e,same⟩
  · rw [same]
  · rw [same]
    exact record_log s e

theorem served_played {q : Query} {s t : State} {r : Reply Key q} (served : serve v cfg past q s r t) (played : Played s) : Played t := by
  rcases served_wrote served with ⟨log,branches⟩ | ⟨e,same⟩
  · unfold Played
    rwa [log,branches]
  · rw [same]
    exact record_played e played

theorem served_heard {q : Query} {s t : State} {r : Reply Key q} (served : serve v cfg past q s r t) (played : Played s) : Heard t q r := by
  cases q with
  | ledger key =>
    obtain ⟨read,same⟩ := served
    subst same
    intro l found
    obtain ⟨ready,played⟩ := played
    exact ⟨t.log,_,List.prefix_rfl,played,read.symm.trans found⟩
  | recordOwn key before after =>
    intro ok
    rcases served with ⟨known,now,same⟩ | ⟨failed,_⟩
    · obtain ⟨l,found⟩ := Option.isSome_iff_exists.mp known
      refine ⟨now,?_⟩
      rw [same]
      simp only [State.record,Event.apply,Resign.recordOwn,found,List.mem_append,List.mem_singleton,or_true]
    · exact absurd ok failed
  | _ => trivial

abbrev Held (cfg : BridgeConfig) (s : State) (h : Nat → Hands) : Prop :=
  Locks.Kept s.inFlight s.free (max cfg.checks.concurrency 1) (fun i => (h i).held) fun i => (h i).permit

theorem held_update {h : Nat → Hands} (i : Nat) (g : Hands)
    (locks : Locks.Kept u.inFlight u.free (max cfg.checks.concurrency 1) (Function.update (fun j => (h j).held) i g.held)
      (Function.update (fun j => (h j).permit) i g.permit)) : Held cfg u (Function.update h i g) := by
  have held : (fun j => (Function.update h i g j).held) = Function.update (fun j => (h j).held) i g.held :=
    Function.comp_update Hands.held h i g
  have permit : (fun j => (Function.update h i g j).permit) = Function.update (fun j => (h j).permit) i g.permit :=
    Function.comp_update Hands.permit h i g
  rwa [Held,held,permit]

theorem held_same {s t : State} {h : Nat → Hands} (kept : Held cfg s h) (i : Nat) (same : t.inFlight = s.inFlight ∧ t.free = s.free) :
    Held cfg t (Function.update h i (h i)) := by
  rw [Function.update_eq_self,Held,same.1,same.2]
  exact kept

-- One answer to one task, from what it may ask.
theorem held_asked {q : Query} {r : Reply Key q} {tasks : Nat → Task Work Query (Reply Key)} {s t : State} (i : Nat)
    (served : serve v cfg past q s r t) (rule : Rule cfg past ed scid (tasks i).handler (tasks i).seen q)
    (kept : Held cfg s (handsOf (s,tasks))) :
    Held cfg t (Function.update (handsOf (s,tasks)) i (note q r (handsOf (s,tasks) i))) := by
  have alike : ∀ {β : Type} (f : Nat → β), Function.update f i (f i) = f := fun f => Function.update_eq_self i f
  cases q with
  | enter flight =>
    obtain ⟨same,rfl⟩ := served
    cases r with
    | true =>
      have taken := Locks.kept_enter kept i (congrArg Hands.held rule) (of_decide_eq_true same.symm)
      refine held_update i _ ?_
      rwa [← alike fun j => (handsOf (s,tasks) j).permit] at taken
    | false =>
      have inside : flight ∈ s.inFlight := not_not.mp (of_decide_eq_false same.symm)
      exact held_same kept i ⟨Finset.insert_eq_of_mem inside,rfl⟩
  | leave flight =>
    cases served
    have left := Locks.kept_leave kept i (congrArg Hands.held rule)
    refine held_update i _ ?_
    rwa [← alike fun j => (handsOf (s,tasks) j).permit] at left
  | acquire =>
    obtain ⟨more,room,rfl⟩ := served
    rw [Held,room] at kept
    have taken := Locks.kept_acquire kept i (congrArg Hands.permit rule)
    refine held_update i _ ?_
    rwa [← alike fun j => (handsOf (s,tasks) j).held] at taken
  | release =>
    cases served
    have given := Locks.kept_release kept i (congrArg Hands.permit rule)
    refine held_update i _ ?_
    rwa [← alike fun j => (handsOf (s,tasks) j).held] at given
  | push repo branch newHead lease =>
    rcases served with ⟨_,same⟩ | ⟨_,same⟩
    · exact held_same kept i (by rw [same]; exact ⟨rfl,rfl⟩)
    · exact held_same kept i (by rw [same]; exact ⟨rfl,rfl⟩)
  | recordOwn key before after =>
    rcases served with ⟨_,now,same⟩ | ⟨_,same⟩
    · exact held_same kept i (by rw [same]; exact record_locks s _)
    · exact held_same kept i (by rw [same]; exact ⟨rfl,rfl⟩)
  | rememberPullRequest | noteSkip =>
    obtain ⟨now,same⟩ := served
    exact held_same kept i (by rw [same]; exact record_locks s _)
  | happens outside =>
    cases outside with
    | moved => exact held_same kept i (by rw [show t = _ from served]; exact ⟨rfl,rfl⟩)
    | _ => exact held_same kept i (by rw [show t = _ from served]; exact record_locks s _)
  | _ => exact held_same kept i (by rw [served.2]; exact ⟨rfl,rfl⟩)

theorem work_follows (work : Work) : ((crew v cfg past host ed scid).code work).Follows
    (fun seen q => Told (Honest v cfg past) seen → Rule cfg past ed scid work seen q)
    (fun seen _ => Told (Honest v cfg past) seen → hands seen = {}) [] := by
  cases work with
  | resign t => exact heeds_follows _ (heeds_bind _ _ (run_ends rfl) fun _ _ _ reached => reached)
  | outside o => exact ⟨fun _ => rfl,fun _ _ => rfl⟩

def rules (v : CheckRun.Verifier) (cfg : BridgeConfig) (past : Past) (host : Host) (ed : Ed25519 Key) (scid : Scid) :
    (crew v cfg past host ed scid).Rules where
  allowed work seen q := Told (Honest v cfg past) seen → Rule cfg past ed scid work seen q
  post _ seen := Told (Honest v cfg past) seen → hands seen = {}
  idle _ _ := rfl
  follows := work_follows

structure Sound (cfg : BridgeConfig) (c : Resigns Key) : Prop where
  played : Played c.1
  heard : Noted Heard c
  locks : Held cfg c.1 (handsOf c)

theorem sound_step {c d : Resigns Key} {act : Act Work Query (Reply Key)} (ruled : (rules v cfg past host ed scid).Ruled c.2)
    (told : ∀ i, Told (Honest v cfg past) (c.2 i).seen) (step : (crew v cfg past host ed scid).Step c act d) (sound : Sound cfg c) :
    Sound cfg d := by
  have whole := step
  cases step with
  | asked i asks served =>
    refine ⟨served_played served sound.played,?_,?_⟩
    · refine noted_step whole (heard_later (served_log served)) (fun j q r same => ?_) sound.heard
      cases same
      exact served_heard served sound.played
    · rw [handsOf,gathered_asked note {} whole]
      exact held_asked i served (ruled_asks ruled i asks (told i)) sound.locks
  | entered i idle enters =>
    cases enters
    have empty : handsOf (_,_) i = {} := ruled_idle ruled i idle (told i)
    refine ⟨sound.played,noted_step whole (fun _ _ here => here) (fun _ _ _ bad => (by cases bad)) sound.heard,?_⟩
    rw [handsOf,gathered_entered note {} _ _ empty]
    exact sound.locks
  | abandoned i waits => exact (waits_never waits).elim
  | crashed down =>
    cases down
    refine ⟨sound.played,noted_step whole (fun _ _ here => here) (fun _ _ _ bad => (by cases bad)) sound.heard,?_⟩
    exact Locks.kept_none (fun _ => rfl) fun _ => rfl

theorem run_sound {c : Resigns Key} (work : Work) (ran : (crew v cfg past host ed scid).Run (fun _ _ => True) (idle cfg work) c) :
    (rules v cfg past host ed scid).Ruled c.2 ∧ (∀ i, Told (Honest v cfg past) (c.2 i).seen) ∧ Sound cfg c := by
  have idle_told : ∀ i, Told (Honest v cfg past) ((idle cfg work : Resigns Key).2 i).seen :=
    fun i q r inside => absurd inside List.not_mem_nil
  have start : Sound cfg (idle cfg work : Resigns Key) :=
    ⟨⟨[],rfl⟩,fun i q r inside => absurd inside List.not_mem_nil,Locks.kept_none (fun _ => rfl) fun _ => rfl⟩
  refine run_keeps (rules v cfg past host ed scid) (I := fun c => (∀ i, Told (Honest v cfg past) (c.2 i).seen) ∧ Sound cfg c) ?_ ran
    (fun i => (rules v cfg past host ed scid).idle _) ⟨idle_told,start⟩
  intro c act d ruled _ step kept
  have one : (crew v cfg past host ed scid).Run (fun _ _ => True) c d := run_step trivial step
  exact ⟨run_told (Honest v cfg past) serve_honest one kept.1,sound_step ruled kept.1 step kept.2⟩

-- Every push of the bridge's own replaces a head of Dependabot's open pull request
-- that recorded pushes of Dependabot's and the bridge's lead to, by a remake of
-- the whole range; it is on record first, no other re-sign has the branch, and it
-- only takes while the branch is where it was.
theorem resign_pushed {c d : Resigns Key} {answer : Except Bytes Unit} (work : Work)
    (ran : (crew v cfg past host ed scid).Run (fun _ _ => True) (idle cfg work) c)
    (step : (crew v cfg past host ed scid).Step c (.asked i (.push repo branch newHead lease) answer) d) :
    ∃ t gh pr keyringFile, (c.2 i).handler = .resign t ∧ repo = t.repo ∧ branch = pr.headRef ∧ lease = pr.headSha ∧
      Eligible cfg t (c.2 i).seen gh pr keyringFile ∧ Ranged cfg past ed scid t (c.2 i).seen gh pr keyringFile newHead ∧
      (∃ earlier u l, earlier <+: c.1.log ∧ Resign.play {} earlier = some u ∧ u.branches.lookup (keyOf t pr) = some l ∧
        Chain earlier (keyOf t pr) gh.dependabotLogin gh.dependabotId l lease) ∧
      (∃ now, .recorded (keyOf t pr) lease newHead now ∈ c.1.log) ∧
      (∀ j, j ≠ i → (handsOf c j).held ≠ some (t.repoId,branch)) ∧
      (answer = .ok () → c.1.heads repo branch = some lease ∧ d.1.heads repo branch = some newHead) := by
  obtain ⟨ruled,told,sound⟩ := run_sound work ran
  cases step with
  | asked _ asks served =>
    obtain ⟨t,mine,same,holds,gh,pr,keyringFile,branch_,lease_,eligible,ranged,recorded⟩ := ruled_asks ruled i asks (told i)
    refine ⟨t,gh,pr,keyringFile,mine,same,branch_,lease_,eligible,ranged,?_,?_,fun j other has => other ?_,fun ok => ?_⟩
    · obtain ⟨l,read,clean⟩ := eligible.clean
      obtain ⟨earlier,u,front,played,found⟩ := sound.heard i _ _ read l rfl
      rw [lease_]
      exact ⟨earlier,u,l,front,played,found,Resign.clean_chain played found clean⟩
    · exact sound.heard i _ _ recorded rfl
    · exact sound.locks.alone j i _ has (congrArg Hands.held holds)
    · rcases served with ⟨there,after⟩ | ⟨failed,_⟩
      · refine ⟨there,?_⟩
        rw [after,State.moved]
        exact if_pos ⟨rfl,rfl⟩
      · exact absurd ok failed

end

namespace Sample

theorem host_plain : (35 : UInt8) ∉ ascii "h" := by decide

def acme : Resource := { host := ascii "h", owner := ascii "acme", rest := [], plain := host_plain }
def widget : Resource := { acme with rest := [ascii "widget"] }
def main : Bytes := ascii "main"
def branch : Bytes := ascii "dependabot/x"
def head : Bytes := List.replicate 40 97
def remade : Bytes := List.replicate 40 98

def raw : Bytes := ascii "tree " ++ List.replicate 40 49 ++ ascii "\nparent " ++ List.replicate 40 50 ++
  ascii ("\nauthor d <1+d@users.noreply.h> 1 Z\ncommitter g <g> 1 Z\ngpgsig -----BEGIN PGP SIGNATURE-----\n x\n\nBump\n")

def governed : NamespaceRecord := { id := ascii "n1", resource := acme, state := .bound, binding := some ⟨acme,true,some 1,some 2⟩ }

def trigger : Trigger := ⟨widget,7,3⟩

def request : PullRequestInfo := ⟨head,main,List.replicate 40 50,true,branch,some 7,some 7,some (ascii "d"),some 1⟩

def gh : GitHubForgeConfig := ⟨ascii "d",1,fun _ => true,some (ascii "keyring")⟩

theorem plain : newline ∉ ascii "v" ∧ newline ∉ ascii "b" := by decide

def cfg : BridgeConfig := ⟨⟨ascii "did:web:vtc",250,1,fun _ => none,fun _ => true⟩,fun _ _ => some gh,ascii "v",ascii "b",plain⟩

theorem paths (_ : Resource) (_ _ : Bytes) : ∀ path ∈ [ascii "Cargo.lock"], path ≠ [] ∧ 0 ∉ path := by decide

def past : Past where
  range _ _ _ := [head]
  object _ sha := if sha = head then some raw else none
  changed _ _ _ := [ascii "Cargo.lock"]
  paths := paths
  id _ := remade

def created : PushEvent :=
  { repo := widget.asStr, repoId := 7, gitRef := ascii "refs/heads/dependabot/x", before := Resign.zeroSha, after := head
    created := true, deleted := false, senderLogin := ascii "d", senderId := 1, deliveryId := none, pushedAt := some 1 }

def host : Host := ⟨fun _ => [],fun _ => []⟩

-- Dependabot's one commit is signed by the platform, and bumps a lock file.
def answer : Unit → (q : Query) → State → Option (Reply Unit q × State)
  | _,.shared .listNamespaces,s => some ([governed],s)
  | _,.shared (.getNamespace _),s => some (some governed,s)
  | _,.shared (.defaultBranch _),s => some (.ok main,s)
  | _,.shared (.compareCommits repo base head page),s => some (.ok (past.page repo base head page),s)
  | _,.shared (.contentsReadToken _),s => some (.ok (),s)
  | _,.shared (.fetch _ _ _),s => some (.ok (),s)
  | _,.shared (.catFile _ sha),s => some (if sha = head then .ok raw else .error [],s)
  | _,.shared _,_ => none
  | _,.rememberPullRequest key number,s => some ((),s.record (.noted key number 5))
  | _,.ledger key,s => some (s.branches.lookup key,s)
  | _,.recordOwn key before after,s =>
    if (s.branches.lookup key).isSome then some (.ok (),s.record (.recorded key before after 6)) else none
  | _,.noteSkip key head why,s => some ((),s.record (.skipped key head why 6))
  | _,.enter flight,s => some (decide (flight ∉ s.inFlight),{ s with inFlight := insert flight s.inFlight })
  | _,.leave flight,s => some ((),{ s with inFlight := s.inFlight.erase flight })
  | _,.acquire,s => match s.free with
    | 0 => none
    | more + 1 => some ((),{ s with free := more })
  | _,.release,s => some ((),{ s with free := s.free + 1 })
  | _,.servesGithub _,s | _,.automation _,s => some (true,s)
  | _,.gitSigningKey,s => some (.ok Resigned.Sample.signing,s)
  | _,.loadKeyring _,s => some (.ok fun _ _ => .ok (ascii "web-flow"),s)
  | _,.timestamp,s => some (5,s)
  | _,.pullRequest _ _,s => some (.ok request,s)
  | _,.contentsWriteToken _,s | _,.completeForPush _ _ _,s => some (.ok (),s)
  | _,.branchHead repo branch,s => some (.ok (s.heads repo branch),s)
  | _,.diffTree repo parent commit,s => some (.ok ((past.changed repo parent commit).flatMap (· ++ [0])),s)
  | _,.interpretTrailers message trailer,s => some (.ok (message ++ [newline] ++ trailer ++ [newline]),s)
  | _,.hashObject _,s => some (.ok (remade ++ [newline]),s)
  | _,.push repo branch newHead lease,s =>
    if s.heads repo branch = some lease then some (.ok (),s.moved repo branch (some newHead)) else none
  | _,.happens (.delivered host push now),s => some ((),s.record (.delivered host push now))
  | _,.happens (.pruned now),s => some ((),s.record (.pruned now))
  | _,.happens (.detached start),s => some ((),s.record (.detached start))
  | _,.happens (.moved repo branch head),s => some ((),s.moved repo branch head)

def code (work : Work) : Prog Query (Reply Unit) Unit :=
  (crew CheckRun.Sample.verifier cfg past host Resigned.Sample.ed Verify.Sample.scid).code work

theorem id_trimmed : unicodeTrim (remade ++ [newline]) = remade := by decide

theorem crew_plays : Plays code answer (fun _ s => some s) (fun s => { s with inFlight := ∅, free := max cfg.checks.concurrency 1 })
    (crew CheckRun.Sample.verifier cfg past host Resigned.Sample.ed Verify.Sample.scid) where
  code := rfl
  serve _ q s r t answered := by
    cases q with
    | shared q =>
      cases q with
      | compareCommits repo base head page =>
        cases answered
        exact ⟨fun c same => (Except.ok.inj same).symm,rfl⟩
      | catFile repo sha =>
        cases answered
        refine ⟨fun raw same => ?_,rfl⟩
        split at same
        · rename_i here
          cases same
          exact if_pos here
        · cases same
      | listNamespaces | getNamespace | defaultBranch | contentsReadToken | fetch =>
        cases answered
        exact ⟨trivial,rfl⟩
      | _ => cases answered
    | rememberPullRequest | noteSkip =>
      cases answered
      exact ⟨_,rfl⟩
    | recordOwn key before after =>
      simp only [answer] at answered
      split at answered
      · rename_i known
        cases answered
        exact .inl ⟨known,_,rfl⟩
      · cases answered
    | enter flight | ledger =>
      cases answered
      exact ⟨rfl,rfl⟩
    | leave | release =>
      cases answered
      rfl
    | acquire =>
      simp only [answer] at answered
      split at answered
      · cases answered
      · rename_i more room
        cases answered
        exact ⟨more,room,rfl⟩
    | branchHead =>
      cases answered
      exact ⟨fun head same => (Except.ok.inj same).symm,rfl⟩
    | diffTree =>
      cases answered
      exact ⟨fun out same => (Except.ok.inj same).symm,rfl⟩
    | hashObject =>
      cases answered
      exact ⟨fun out same => (Except.ok.inj same) ▸ id_trimmed,rfl⟩
    | push repo branch newHead lease =>
      simp only [answer] at answered
      split at answered
      · rename_i there
        cases answered
        exact .inl ⟨there,rfl⟩
      · cases answered
    | happens outside =>
      cases outside with
      | _ =>
        cases answered
        rfl
    | _ =>
      cases answered
      exact ⟨trivial,rfl⟩
  enter _ _ _ entered := (Option.some.inj entered).symm
  crash _ := rfl

-- The head a task has just been told is pushed.
def pushed (c : Resigns Unit) : Option Bytes :=
  match (c.2 0).seen with
  | ⟨.push _ _ newHead _,.ok _⟩ :: _ => some newHead
  | _ => none

theorem sample_run : ∃ (c d : Resigns Unit) (q : Query) (r : Reply Unit q),
    (crew CheckRun.Sample.verifier cfg past host Resigned.Sample.ed Verify.Sample.scid).Run (fun _ _ => True) (idle cfg (.resign trigger)) c ∧
      (crew CheckRun.Sample.verifier cfg past host Resigned.Sample.ed Verify.Sample.scid).Step c (.asked 0 q r) d ∧
      (handsOf c 0).permit = true ∧ pushed d = some remade := by
  obtain ⟨c,q,r,d,ran,_,step,holds,done⟩ := played_step crew_plays (fun _ _ => true) (idle cfg (.resign trigger))
    [.enter 1 (.outside (.delivered (ascii "h") created 2)),.finish 1 1 (),.enter 1 (.outside (.moved widget branch (some head))),.finish 1 1 (),
      .enter 0 (.resign trigger),.finish 0 25 ()] 0 () (fun c => (handsOf c 0).permit) pushed (true,some remade) (by
        -- Only what decides whether a text is UTF-8 is laid open, to be evaluated the short way.
        delta code crew run held resignHeld rewriteRange rewriteFrom
        delta rewriteFrom._f
        delta alreadyResigned Resigned.signedBy Resigned.Commit.parse checkDependabot resignCommit
        delta Resigned.namesSigner Commit.conflictingSignerDids Commit.signerDid
        delta Commit.committerDid Commit.trailerDid splitSignedCommit
        delta Commit.committerIdentity
        rw [Resigned.utf8_bytewise]
        decide +kernel)
  exact ⟨c,d,q,r,run_weaken (fun _ _ _ => trivial) ran,step,holds,done⟩

end Sample

theorem resign_pushed_sample : ∃ (c : Resigns Unit) (t : Trigger) (gh : GitHubForgeConfig) (pr : PullRequestInfo) (keyringFile : Bytes),
    (crew CheckRun.Sample.verifier Sample.cfg Sample.past Sample.host Resigned.Sample.ed Verify.Sample.scid).Run (fun _ _ => True)
        (idle Sample.cfg (.resign Sample.trigger)) c ∧
      Eligible Sample.cfg t (c.2 0).seen gh pr keyringFile ∧
      Ranged Sample.cfg Sample.past Resigned.Sample.ed Verify.Sample.scid t (c.2 0).seen gh pr keyringFile Sample.remade := by
  obtain ⟨c,d,q,r,ran,step,_,done⟩ := Sample.sample_run
  rw [Sample.pushed,(seen_asked step).1] at done
  cases q with
  | push repo branch newHead lease =>
    cases r with
    | ok =>
      cases done
      obtain ⟨t,gh,pr,keyringFile,_,_,_,_,eligible,ranged,_⟩ := resign_pushed (.resign Sample.trigger) ran step
      exact ⟨c,t,gh,pr,keyringFile,ran,eligible,ranged⟩
    | error => cases done
  | _ => cases done

end VerifiableGit.ResignRun
