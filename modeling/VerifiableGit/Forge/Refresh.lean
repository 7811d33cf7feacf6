import Mathlib.Data.List.Sort
import VerifiableGit.Forge.Protection
import VerifiableGit.Governance.Records
import VerifiableGit.Verify.Signature
import VerifiableGit.Library.Interaction

-- Refreshing the managed files of a protected Forgejo branch
-- (vgi-forge-forgejo, forge.rs).
namespace VerifiableGit.Forge
open Text Commit Verify Library.Interaction
open Governance (ForgeError StepOutcome)

abbrev PushSettings := Api.PushSettings UInt8
abbrev ProtectionJson := Api.ProtectionJson UInt8

structure RepoJson where
  defaultBranch : Option Bytes
  empty : Bool
deriving DecidableEq

def RepoJson.branch (r : RepoJson) : Option Bytes := r.defaultBranch.filter fun b => b ≠ [] && !r.empty

-- What a path of a repository holds; the contents as far as they can be decoded.
inductive Entry where
  | directory
  | file (sha : Bytes) (contents : Except ForgeError Bytes)
  | other (kind : Bytes)

structure ExtraFile where
  path : Bytes
  contents : Bytes
deriving DecidableEq

structure RefreshReport where
  outcome : StepOutcome
  files : List (Bytes × StepOutcome)
  opened : Bool
  detail : Bytes

-- The requests to the forge; the two patches of a rule differ in their bodies.
inductive Query where
  | getRepo
  | contents (path : Bytes)
  | branchProtections
  | patchProtection (rule : Bytes) (body : PushSettings)
  | putContents (path : Bytes) (sha : Option Bytes) (contents message : Bytes)

abbrev Query.Value : Query → Type
  | .getRepo => RepoJson
  | .contents _ => Option Entry
  | .branchProtections => List ProtectionJson
  | .patchProtection _ _ => ProtectionJson
  | .putContents _ _ _ _ => Unit

abbrev Reply (q : Query) : Type := Except ForgeError q.Value

abbrev Action (α : Type) : Type := ExceptT ForgeError (Prog Query Reply) α

def send (q : Query) : Action q.Value := ask q

-- The adapter's bot, and whether it has a token for the repository.
structure Adapter where
  resource : Bytes
  bot : Bytes
  token : Except ForgeError Unit

-- How the language folds the case of a text and shows a list of texts.
structure Texts where
  toLowercase : Bytes → Bytes
  debug : List Bytes → Bytes

def isGlob (name : Bytes) : Bool := name.any fun b => b ∈ [42,63,91,93,123,125,92]

def patterns : Bytes → List Bytes := Api.patterns 59 fun p => (unicodeTrim p).map Governance.lower

def isControl (b : UInt8) : Bool := b < 32 || b = 127

-- `char::is_control` of some character: the second range takes two bytes.
def hasControl : Bytes → Bool
  | [] => false
  | 0xC2 :: b :: rest => (0x80 ≤ b && b ≤ 0x9F) || hasControl (b :: rest)
  | b :: rest => isControl b || hasControl rest

def validateRepoPath (path : Bytes) : Except ForgeError Unit :=
  let bad := path.isEmpty || (ascii "/").isPrefixOf path || path.contains 92 ||
    (path.splitOn 47).any fun s => s.isEmpty || s = ascii "." || s = ascii ".." || hasControl s
  if bad then
    .error (.config (ascii "`" ++ path ++ ascii "` is not a clean repository-relative path (no leading `/`, no empty, `.` or `..` segments)"))
  else .ok ()

def protectedHint : Bytes := [32,0xE2,0x80,0x94] ++ ascii (" if the default branch is already protected, this file can only " ++
  "change through a pull request, and the workflow and keyring not " ++
  "even then (they are protected paths, by design): update those " ++
  "with the audited refresh-managed-files step")

def hinted : ForgeError → ForgeError
  | .rejected status message => .rejected status (message ++ protectedHint)
  | .forbidden message => .forbidden (message ++ protectedHint)
  | e => e

def untouched (files : List ExtraFile) : List (Bytes × StepOutcome) := files.map fun f => (f.path,.unchanged)

-- What needs no request.
def settled (r : Except ForgeError Unit) : Action Unit := ExceptT.mk (pure r)

section
variable (texts : Texts) (adapter : Adapter)

def selectNext (branch : Bytes) (state : Option ProtectionJson × List Bytes) (rule : ProtectionJson) :
    Option ProtectionJson × List Bytes :=
  match rule.name with
  | some n =>
    if n = branch then (some rule,state.2)
    else if !isGlob n && texts.toLowercase n = texts.toLowercase branch then (state.1,state.2 ++ [n])
    else state
  | none => state

-- The rule named exactly `branch` (the last of them), and the plain rules the
-- forge may apply in its place.
def selectRule (rules : List ProtectionJson) (branch : Bytes) : Option ProtectionJson × List Bytes :=
  rules.foldl (selectNext texts branch) (none,[])

def folded (names : List Bytes) : List Bytes :=
  (names.map texts.toLowercase).insertionSort fun a b => a ≤ b

def samePushSettings (a b : PushSettings) : Bool :=
  a.enablePush = b.enablePush &&
    (!a.enablePush ||
      (a.enablePushWhitelist = b.enablePushWhitelist &&
        folded texts a.pushWhitelistUsernames = folded texts b.pushWhitelistUsernames &&
        folded texts a.pushWhitelistTeams = folded texts b.pushWhitelistTeams &&
        a.pushWhitelistDeployKeys = b.pushWhitelistDeployKeys)) &&
    patterns a.protectedFilePatterns = patterns b.protectedFilePatterns

def currentFile (path : Bytes) : Action (Option (Bytes × Bytes)) := do
  let existing : Option Entry ← send (.contents path)
  match existing with
  | none => pure none
  | some .directory => throw (.rejected 409 (ascii "`" ++ path ++ ascii "` exists and is a directory, not a file"))
  | some (.other kind) =>
    throw (.rejected 409 (ascii "`" ++ path ++ ascii "` exists and is a " ++ kind ++ ascii ", not a file"))
  | some (.file _ (.error e)) => throw e
  | some (.file sha (.ok contents)) => pure (some (sha,contents))

def putFile (path : Bytes) (sha : Option Bytes) (contents message : Bytes) : Action Unit :=
  tryCatch (send (.putContents path sha contents message)) fun e => throw (hinted e)

def writeFile (path contents message : Bytes) : Action StepOutcome := do
  settled (validateRepoPath path)
  settled adapter.token
  let current ← currentFile path
  match current with
  | some (sha,now) =>
    if now = contents then pure .unchanged
    else do
      putFile path (some sha) contents message
      pure .updated
  | none => do
    putFile path none contents message
    pure .created

-- The files whose contents on the branch are not the wanted ones.
def staleFiles : List ExtraFile → Action (List ExtraFile)
  | [] => pure []
  | f :: rest => do
    let current ← currentFile f.path
    let stale ← staleFiles rest
    pure (if current.map Prod.snd = some f.contents then stale else f :: stale)

def protectionRule (branch : Bytes) : Action (Option ProtectionJson × List Bytes) := do
  let rules : List ProtectionJson ← send .branchProtections
  pure (selectRule texts rules branch)

def opened : PushSettings := ⟨true,true,[adapter.bot],[],false,[]⟩

-- Opens the rule to the bot alone. The error of an opening that failed, which
-- the forge may have carried out all the same.
def openRule (prior : Option ProtectionJson) (branch : Bytes) : Prog Query Reply (Option ForgeError) :=
  match prior with
  | none => pure none
  | some rule => do
    let answer : Except ForgeError ProtectionJson ←
      ask (Query.patchProtection (rule.name.getD branch) (opened adapter))
    match answer with
    | .ok _ => pure none
    | .error e => pure (some e)

-- What became of each file, and the path of the first that could not be written.
def writeFiles (stale : List ExtraFile) (message : Bytes) :
    List ExtraFile → Prog Query Reply (List (Bytes × StepOutcome) × Option (Bytes × ForgeError))
  | [] => pure ([],none)
  | f :: rest =>
    if stale.any fun s => s.path = f.path then do
      let result : Except ForgeError StepOutcome ← (writeFile adapter f.path f.contents message).run
      match result with
      | .error e => pure (untouched (f :: rest),some (f.path,e))
      | .ok outcome => do
        let (files,failed) ← writeFiles stale message rest
        pure ((f.path,outcome) :: files,failed)
    else do
      let (files,failed) ← writeFiles stale message rest
      pure ((f.path,.unchanged) :: files,failed)

-- Nothing is written where the opening failed.
def writeOpened (stale : List ExtraFile) (message : Bytes) (files : List ExtraFile) :
    Option ForgeError → Prog Query Reply (List (Bytes × StepOutcome) × Option (Bytes × ForgeError))
  | some _ => pure (untouched files,none)
  | none => writeFiles adapter stale message files

def notAsItWas : ForgeError := .rejected 200 (ascii "the restored protection does not read back as it was")

-- What the answer to one restoring patch says of the rule.
def readBack (rule : ProtectionJson) : Except ForgeError ProtectionJson → Option ForgeError
  | .ok after => if samePushSettings texts after.toPushSettings rule.toPushSettings then none else some notAsItWas
  | .error e => some e

-- Puts the rule back as it was read, at most so many times.
def restoreRule (branch : Bytes) (rule : ProtectionJson) : Nat → Prog Query Reply (Option ForgeError)
  | 0 => pure none
  | more + 1 => do
    let answer : Except ForgeError ProtectionJson ←
      ask (Query.patchProtection (rule.name.getD branch) rule.toPushSettings)
    let failed := readBack texts rule answer
    if failed.isNone || more = 0 then pure failed else restoreRule branch rule more

def restore (prior : Option ProtectionJson) (branch : Bytes) : Prog Query Reply (Option ForgeError) :=
  match prior with
  | none => pure none
  | some rule => restoreRule texts branch rule 2

def detailOf (prior : Option ProtectionJson) (openError restoreError : Option ForgeError) (written : List Bytes) : Bytes :=
  adapter.resource ++ ascii ": protection " ++
    (match prior,openError with
      | none,_ => ascii "absent, not opened"
      | some _,none => ascii "opened"
      | some _,some e => ascii "open failed (" ++ e.text ++ ascii ")") ++
    ascii " for `" ++ adapter.bot ++ ascii "`; wrote " ++ texts.debug written ++ ascii "; " ++
    (match restoreError,prior with
      | none,some _ => ascii "protection restored and verified"
      | none,none => ascii "nothing to restore"
      | some e,_ => ascii "PROTECTION LEFT OPEN: " ++ e.text)

def refused (before after : Bytes) : ForgeError → ForgeError
  | .rejected status message => .rejected status (before ++ message ++ after)
  | e => e

-- What is returned once the rule has been put back, as far as it could be.
def concluded (prior : Option ProtectionJson) (openError restoreError : Option ForgeError)
    (writeError : Option (Bytes × ForgeError)) (files : List (Bytes × StepOutcome)) : Except ForgeError RefreshReport :=
  let written := (files.filter fun f => f.2 ≠ .unchanged).map Prod.fst
  let detail := detailOf texts adapter prior openError restoreError written
  match restoreError,openError,writeError with
  | some _,_,_ => .error (.rejected 500 detail)
  | none,some e,_ => .error (refused [] (ascii " (nothing written; protection restored)") e)
  | none,none,some (path,e) => .error (refused (path ++ ascii ": ") (ascii " (protection restored)") e)
  | none,none,none => .ok ⟨if written.isEmpty then .unchanged else .updated,files,prior.isSome,detail⟩

def refreshRule (branch : Bytes) (files stale : List ExtraFile) (message : Bytes) (prior : Option ProtectionJson) :
    Action RefreshReport := ExceptT.mk do
  let openError ← openRule adapter prior branch
  let (written,writeError) ← writeOpened adapter stale message files openError
  let restoreError ← restore texts prior branch
  pure (concluded texts adapter prior openError restoreError writeError written)

def refreshOnBranch (branch : Bytes) (files : List ExtraFile) (message : Bytes) : Action RefreshReport := do
  settled (files.forM fun f => validateRepoPath f.path)
  settled adapter.token
  let stale ← staleFiles files
  if stale.isEmpty then
    pure ⟨.unchanged,untouched files,false,adapter.resource ++ ascii ": managed files already current"⟩
  else do
    let (rule,shadowing) ← protectionRule texts branch
    if shadowing.isEmpty then refreshRule texts adapter branch files stale message rule
    else throw (.rejected 409 (adapter.resource ++ ascii ": rule(s) " ++ (ascii ", ").intercalate shadowing ++
      ascii " shadow the managed protection; resolve that first"))

def defaultBranch : Action (Option Bytes) := do
  settled adapter.token
  let r : RepoJson ← send .getRepo
  pure r.branch

def refreshManagedFiles (files : List ExtraFile) (message : Bytes) : Action RefreshReport := do
  let branch ← defaultBranch adapter
  match branch with
  | none => throw (.rejected 409 (adapter.resource ++ ascii " is empty: nothing to refresh"))
  | some branch => refreshOnBranch texts adapter branch files message

def writeManagedFile (path contents message : Bytes) : Action StepOutcome := do
  let branch ← defaultBranch adapter
  match branch with
  | none => writeFile adapter path contents message
  | some branch => do
    let report ← refreshOnBranch texts adapter branch [⟨path,contents⟩] message
    pure ((report.files.head?.map Prod.snd).getD report.outcome)

-- The two steps of a plan that write managed files.
inductive Step where
  | writeFile (path contents message : Bytes)
  | refreshProtectedFiles (files : List ExtraFile) (message : Bytes)

def runStep : Step → Action StepOutcome
  | .writeFile path contents message => writeManagedFile texts adapter path contents message
  | .refreshProtectedFiles files message => do
    let report ← refreshManagedFiles texts adapter files message
    pure report.outcome

end

structure Pushers where
  allowListed : Bool
  usernames : List Bytes
  teams : List Bytes
  deployKeys : Bool
deriving DecidableEq

structure Protection where
  pushers : Option Pushers
  protectedFiles : List Bytes
deriving DecidableEq

-- The repository on the forge, and its rules as they were when the running step began.
structure World where
  repo : RepoJson
  files : Bytes → Option Entry
  rules : List ProtectionJson
  begun : List ProtectionJson

section
variable (texts : Texts) (stores : PushSettings → PushSettings → PushSettings)

def World.patched (w : World) (rule : Bytes) (body : PushSettings) : World :=
  { w with rules := w.rules.map fun r => if r.name = some rule then { r with toPushSettings := stores r.toPushSettings body } else r }

-- The first write of an empty repository makes its default branch.
def World.put (w : World) (path sha contents : Bytes) : World :=
  { w with
    repo := { w.repo with empty := false }
    files := fun p => if p = path then some (.file sha (.ok contents)) else w.files p }

-- Any request may fail; one that changes something may do so and then fail. What
-- a patch makes of a rule is for the forge to say (`stores`), and its answer is
-- the rule as it then stands.
inductive Served : (q : Query) → World → Reply q → World → Prop
  | getRepo : Served .getRepo w (.ok w.repo) w
  | contents : Served (.contents path) w (.ok (w.files path)) w
  | branchProtections : Served .branchProtections w (.ok w.rules) w
  | patched (there : (selectRule texts (w.patched stores rule body).rules rule).1 = some after) :
      Served (.patchProtection rule body) w (.ok after) (w.patched stores rule body)
  | patchedThenFailed : Served (.patchProtection rule body) w (.error e) (w.patched stores rule body)
  | put : Served (.putContents path sha contents message) w (.ok ()) (w.put path blob contents)
  | putThenFailed : Served (.putContents path sha contents message) w (.error e) (w.put path blob contents)
  | failed : Served q w (.error e) w

-- Nobody else changes the repository.
def setting : Setting Query Reply World := ⟨Served texts stores,fun _ _ => False,fun _ _ _ => True,fun _ => True⟩

-- The next step begins, whether the last one returned or died.
def Begins (w : World) (there : World × Prog Query Reply (Except ForgeError StepOutcome)) : Prop :=
  ∃ adapter step, there = ({ w with begun := w.rules },(runStep texts adapter step).run)

def Session := (setting texts stores).Session (α := Except ForgeError StepOutcome) (Begins texts) (Begins texts)

-- Who may push, where anybody may, and which paths nobody may touch.
def effective (s : PushSettings) : Protection :=
  ⟨if s.enablePush then some ⟨s.enablePushWhitelist,folded texts s.pushWhitelistUsernames,
    folded texts s.pushWhitelistTeams,s.pushWhitelistDeployKeys⟩ else none,patterns s.protectedFilePatterns⟩

-- What the managed rule of the default branch lets through, made or not.
def protection (repo : RepoJson) (rules : List ProtectionJson) : Option Protection := do
  let branch ← repo.defaultBranch
  let rule ← (selectRule texts rules branch).1
  pure (effective texts rule.toPushSettings)

variable {texts stores} {adapter : Adapter}

theorem samePushSettings_effective :
    samePushSettings texts a b = true ↔ effective texts a = effective texts b := by
  cases pushesA : a.enablePush <;> cases pushesB : b.enablePush <;>
    simp [samePushSettings,effective,pushesA,pushesB,and_assoc]

theorem stable_alone (P : World → Prop) : (setting texts stores).Stable P := fun _ _ act => act.elim

-- The requests that read, and those that leave the rules alone.
def Query.Reads : Query → Prop
  | .getRepo | .contents _ | .branchProtections => True
  | .patchProtection _ _ | .putContents _ _ _ _ => False

def Query.KeepsRules : Query → Prop
  | .patchProtection _ _ => False
  | _ => True

theorem reads_keep (q : Query) (reads : q.Reads) : q.KeepsRules := by
  cases q with
  | patchProtection rule body => exact reads
  | _ => trivial

theorem served_reads (served : Served texts stores q w r u) (reads : q.Reads) : u = w := by
  cases served with
  | patched | patchedThenFailed | put | putThenFailed => exact reads.elim
  | _ => rfl

-- What every request leaves as it is.
def Framed (w u : World) : Prop := u.repo.defaultBranch = w.repo.defaultBranch ∧ u.begun = w.begun

theorem framed_trans (first : Framed w u) (second : Framed u v) : Framed w v :=
  ⟨second.1.trans first.1,second.2.trans first.2⟩

theorem served_framed (served : Served texts stores q w r u) : Framed w u := by
  cases served <;> exact ⟨rfl,rfl⟩

theorem served_rules (served : Served texts stores q w r u) (keeps : q.KeepsRules) : u.rules = w.rules := by
  cases served with
  | patched | patchedThenFailed => exact keeps.elim
  | _ => rfl

theorem currentFile_reads (path : Bytes) : (currentFile path).run.Asks Query.Reads := by
  refine asks_fallible _ _ ⟨trivial,fun _ => trivial⟩ fun existing => ?_
  rcases existing with _ | ⟨_ | ⟨sha,contents | contents⟩ | kind⟩ <;> trivial

theorem staleFiles_reads (files : List ExtraFile) : (staleFiles files).run.Asks Query.Reads := by
  induction files with
  | nil => trivial
  | cons f rest ih =>
    exact asks_fallible _ _ (currentFile_reads f.path) fun current =>
      asks_fallible _ _ ih fun stale => trivial

theorem putFile_keeps : (putFile path sha contents message).run.Asks Query.KeepsRules :=
  ⟨trivial,fun r => by cases r <;> trivial⟩

theorem writeFile_keeps (path contents message : Bytes) :
    (writeFile adapter path contents message).run.Asks Query.KeepsRules := by
  refine asks_fallible _ _ trivial fun _ => asks_fallible _ _ trivial fun _ => ?_
  refine asks_fallible _ _ (asks_weaken reads_keep _ (currentFile_reads path)) fun current => ?_
  cases current with
  | none => exact asks_fallible _ _ putFile_keeps fun _ => trivial
  | some found =>
    by_cases same : found.2 = contents
    · simp only [same]
      trivial
    · simp only [same]
      exact asks_fallible _ _ putFile_keeps fun _ => trivial

theorem writeFiles_keeps (stale : List ExtraFile) (message : Bytes) (files : List ExtraFile) :
    (writeFiles adapter stale message files).Asks Query.KeepsRules := by
  induction files with
  | nil => trivial
  | cons f rest ih =>
    unfold writeFiles
    split
    · refine asks_bind _ _ (writeFile_keeps _ _ _) fun result => ?_
      cases result with
      | error e => trivial
      | ok outcome => exact asks_bind _ _ ih fun _ => trivial
    · exact asks_bind _ _ ih fun _ => trivial

theorem holds_reads (p : Prog Query Reply α) (asks : p.Asks Query.Reads) (w : World) :
    (setting texts stores).Holds (fun _ t => t = w) p w :=
  holds_asks (stable_alone _) (fun _ _ => trivial)
    (fun _ _ _ _ reads here served => ⟨trivial,(served_reads served reads).trans here⟩) p asks rfl

theorem holds_keeps (p : Prog Query Reply α) (asks : p.Asks Query.KeepsRules) (w : World) :
    (setting texts stores).Holds (fun _ t => Framed w t ∧ t.rules = w.rules) p w := by
  refine holds_asks (stable_alone _) (fun _ _ => trivial) ?_ p asks ⟨⟨rfl,rfl⟩,rfl⟩
  intro q s r t keeps here served
  have framed := framed_trans here.1 (served_framed served)
  have rules := (served_rules served keeps).trans here.2
  exact ⟨trivial,framed,rules⟩

theorem holds_return {post : α → World → Prop} (here : post a w) :
    (setting texts stores).Holds post (.done a) w :=
  holds_done (P := post a) (stable_alone _) (fun _ _ => trivial) (fun _ there => there) here

theorem holds_request {post : α → World → Prop} {next : Reply q → Prog Query Reply α}
    (answered : ∀ r u, Served texts stores q w r u → (setting texts stores).Holds post (next r) u) :
    (setting texts stores).Holds post (.call q next) w := by
  refine holds_call (P := (· = w)) (stable_alone _) (fun _ _ => trivial) ?_ rfl
  rintro _ r t rfl served
  exact ⟨trivial,answered r t served⟩

theorem selectNext_name (known : ∀ r, state.1 = some r → r.name = some branch) :
    ∀ r, (selectNext texts branch state rule).1 = some r → r.name = some branch := by
  intro r found
  unfold selectNext at found
  split at found
  · rename_i n name
    split at found
    · rename_i same
      cases found
      rw [name,same]
    · split at found <;> exact known r found
  · exact known r found

theorem selectRule_name (found : (selectRule texts rules branch).1 = some rule) : rule.name = some branch := by
  suffices every : ∀ state : Option ProtectionJson × List Bytes, (∀ r, state.1 = some r → r.name = some branch) →
      ∀ r, (rules.foldl (selectNext texts branch) state).1 = some r → r.name = some branch from
    every (none,[]) (fun r none => by cases none) rule found
  clear found
  induction rules with
  | nil => exact fun state known => known
  | cons head rest ih => exact fun state known => ih _ (selectNext_name known)

theorem holds_openRule (prior : Option ProtectionJson) (branch : Bytes) (w : World) :
    (setting texts stores).Holds (fun _ t => Framed w t ∧ (prior = none → t.rules = w.rules))
      (openRule adapter prior branch) w := by
  cases prior with
  | none => exact holds_return ⟨⟨rfl,rfl⟩,fun _ => rfl⟩
  | some rule =>
    refine holds_request fun answer u served => ?_
    have framed := served_framed served
    cases answer <;> exact holds_return ⟨framed,fun absent => by cases absent⟩

-- A patch whose answer reads back as it was has put the rule back.
theorem readBack_none (served : Served texts stores (.patchProtection branch body) w answer u)
    (same : readBack texts rule answer = none) :
    ∃ after, (selectRule texts u.rules branch).1 = some after ∧
      effective texts after.toPushSettings = effective texts rule.toPushSettings := by
  cases served with
  | patched there =>
    refine ⟨_,there,samePushSettings_effective.mp ?_⟩
    simpa [readBack] using same
  | patchedThenFailed => cases same
  | failed => cases same

theorem restoreRule_succ (named : rule.name = some branch) (more : Nat) :
    restoreRule texts branch rule (more + 1) = .call (.patchProtection branch rule.toPushSettings) fun answer =>
      if (readBack texts rule answer).isNone || more = 0 then .done (readBack texts rule answer)
      else restoreRule texts branch rule more := by
  rw [restoreRule,named]
  rfl

-- A restore without a failure: the rule lets through what it did.
def Restored (texts : Texts) (rule : ProtectionJson) (branch : Bytes) (failed : Option ForgeError) (w : World) : Prop :=
  failed = none → ∃ after, (selectRule texts w.rules branch).1 = some after ∧
    effective texts after.toPushSettings = effective texts rule.toPushSettings

theorem holds_restoreRule (named : rule.name = some branch) (more : Nat) (w : World) :
    (setting texts stores).Holds (fun failed t => Framed w t ∧ Restored texts rule branch failed t)
      (restoreRule texts branch rule (more + 1)) w := by
  induction more generalizing w with
  | zero =>
    rw [restoreRule_succ named]
    refine holds_request fun answer u served => ?_
    simp only [decide_true,Bool.or_true,if_true]
    exact holds_return ⟨served_framed served,readBack_none served⟩
  | succ more ih =>
    rw [restoreRule_succ named]
    refine holds_request fun answer u served => ?_
    cases same : readBack texts rule answer with
    | none => exact holds_return ⟨served_framed served,fun _ => readBack_none served same⟩
    | some e =>
      have further := ih u
      exact holds_weaken _ further fun _ t kept => ⟨framed_trans (served_framed served) kept.1,kept.2⟩

-- A step that does not report the rule as left open leaves it as it began.
def Kept (texts : Texts) (result : Except ForgeError α) (w : World) : Prop :=
  (∀ detail, result ≠ .error (.rejected 500 detail)) →
    protection texts w.repo w.rules = protection texts w.repo w.begun

theorem protection_of {w : World} (branch : w.repo.defaultBranch = some b) : protection texts w.repo rules =
    (selectRule texts rules b).1.map fun rule => effective texts rule.toPushSettings := by
  cases found : (selectRule texts rules b).1 <;> simp [protection,branch,found]

theorem branch_default {repo : RepoJson} (branch : repo.branch = some b) : repo.defaultBranch = some b :=
  (Option.filter_eq_some_iff.mp branch).1

theorem concluded_restored (quiet : ∀ detail,
    concluded texts adapter prior openError restoreError writeError files ≠ .error (.rejected 500 detail)) :
    restoreError = none := by
  cases restoreError with
  | none => rfl
  | some e => exact absurd rfl (quiet _)

theorem refreshRule_kept (begun : w.begun = w.rules) (branch : w.repo.branch = some b)
    (read : (selectRule texts w.rules b).1 = prior) :
    (setting texts stores).Holds (Kept texts) (refreshRule texts adapter b files stale message prior).run w := by
  refine holds_bind _ _ (holds_openRule prior b w) fun openError t opened => ?_
  have written : (setting texts stores).Holds (fun _ u => Framed t u ∧ u.rules = t.rules)
      (writeOpened adapter stale message files openError) t := by
    cases openError with
    | some e => exact holds_return ⟨⟨rfl,rfl⟩,rfl⟩
    | none => exact holds_keeps _ (writeFiles_keeps _ _ _) t
  refine holds_bind _ _ written fun files u wrote => ?_
  have framed := framed_trans opened.1 wrote.1
  cases prior with
  | none =>
    refine holds_return fun _ => ?_
    rw [wrote.2,opened.2 rfl,framed.2,begun]
  | some rule =>
    refine holds_bind _ _ (holds_restoreRule (selectRule_name read) 1 u) fun restoreError v restored => ?_
    refine holds_return fun quiet => ?_
    have framed := framed_trans framed restored.1
    obtain ⟨after,there,same⟩ := restored.2 (concluded_restored quiet)
    have branch : v.repo.defaultBranch = some b := framed.1.trans (branch_default branch)
    rw [protection_of branch,protection_of branch,there,framed.2,begun,read]
    simpa using same

theorem kept_unchanged {result : Except ForgeError α} (begun : w.begun = w.rules) : Kept texts result w :=
  fun _ => by rw [begun]

-- What only reads changes nothing, whether it fails or not.
theorem holds_read (p : Action α) (f : α → Action β) (asks : p.run.Asks Query.Reads) (begun : w.begun = w.rules)
    (next : ∀ a, (setting texts stores).Holds (Kept texts) (f a).run w) :
    (setting texts stores).Holds (Kept texts) (p >>= f).run w := by
  refine holds_fallible p f (holds_reads _ asks w) ?_ ?_
  · rintro a _ rfl
    exact next a
  · rintro e _ rfl
    exact holds_return (kept_unchanged begun)

-- What reads something exactly, and the step that goes on with it.
def Reads (value : α) (w : World) (result : Except ForgeError α) (t : World) : Prop :=
  t = w ∧ ∀ a, result = .ok a → a = value

theorem holds_exact (p : Action α) (f : α → Action β) (read : (setting texts stores).Holds (Reads value w) p.run w)
    (begun : w.begun = w.rules) (next : (setting texts stores).Holds (Kept texts) (f value).run w) :
    (setting texts stores).Holds (Kept texts) (p >>= f).run w := by
  refine holds_fallible p f read ?_ ?_
  · rintro a _ ⟨rfl,exact_⟩
    obtain rfl := exact_ a rfl
    exact next
  · rintro e _ ⟨rfl,-⟩
    exact holds_return (kept_unchanged begun)

theorem holds_protectionRule (branch : Bytes) (w : World) :
    (setting texts stores).Holds (Reads (selectRule texts w.rules branch) w) (protectionRule texts branch).run w := by
  refine holds_request fun answer u served => ?_
  cases served with
  | branchProtections => exact holds_return ⟨rfl,fun a same => by cases same; rfl⟩
  | failed => exact holds_return ⟨rfl,fun a same => by cases same⟩

theorem holds_defaultBranch (w : World) :
    (setting texts stores).Holds (Reads w.repo.branch w) (defaultBranch adapter).run w := by
  cases token : adapter.token with
  | error e =>
    simp only [defaultBranch,token]
    exact holds_return ⟨rfl,fun a same => by cases same⟩
  | ok _ =>
    simp only [defaultBranch,token]
    refine holds_request fun answer u served => ?_
    cases served with
    | getRepo => exact holds_return ⟨rfl,fun a same => by cases same; rfl⟩
    | failed => exact holds_return ⟨rfl,fun a same => by cases same⟩

theorem refreshOnBranch_kept (begun : w.begun = w.rules) (branch : w.repo.branch = some b) :
    (setting texts stores).Holds (Kept texts) (refreshOnBranch texts adapter b files message).run w := by
  refine holds_read _ _ trivial begun fun _ => ?_
  refine holds_read _ _ trivial begun fun _ => ?_
  refine holds_read _ _ (staleFiles_reads files) begun fun stale => ?_
  split
  · exact holds_return (kept_unchanged begun)
  · refine holds_exact _ _ (holds_protectionRule b w) begun ?_
    dsimp only
    split
    · exact refreshRule_kept begun branch rfl
    · exact holds_return (kept_unchanged begun)

theorem kept_result {result : Except ForgeError α} (f : α → β) (kept : Kept texts result w) :
    Kept texts (result.map f) w := by
  intro quiet
  refine kept fun detail same => quiet detail ?_
  rw [same]
  rfl

-- What is done with a result afterwards does not matter to the rule.
theorem holds_mapped (p : Action α) (f : α → β) (kept : (setting texts stores).Holds (Kept texts) p.run w) :
    (setting texts stores).Holds (Kept texts) (do let a ← p; pure (f a) : Action β).run w :=
  holds_fallible p _ kept (fun _ _ there => holds_return (kept_result f there))
    fun _ _ there => holds_return (kept_result f there)

theorem runStep_kept (begun : w.begun = w.rules) (step : Step) :
    (setting texts stores).Holds (Kept texts) (runStep texts adapter step).run w := by
  cases step with
  | writeFile path contents message =>
    refine holds_exact _ _ (holds_defaultBranch w) begun ?_
    cases branch : w.repo.branch with
    | none =>
      refine holds_weaken _ (holds_keeps _ (writeFile_keeps path contents message) w) fun _ t kept _ => ?_
      rw [kept.1.2,kept.2,begun]
    | some b => exact holds_mapped _ _ (refreshOnBranch_kept begun branch)
  | refreshProtectedFiles files message =>
    refine holds_mapped _ _ (holds_exact _ _ (holds_defaultBranch w) begun ?_)
    cases branch : w.repo.branch with
    | none => exact holds_return (kept_unchanged begun)
    | some b => exact refreshOnBranch_kept begun branch

theorem session_framed {here there : World × Prog Query Reply (Except ForgeError StepOutcome)}
    (step : Session texts stores here there) : there.1.repo.defaultBranch = here.1.repo.defaultBranch := by
  cases step with
  | step step =>
    cases step with
    | own answered => exact (served_framed answered).1
    | other act => exact act.elim
  | again next =>
    obtain ⟨adapter,step,rfl⟩ := next
    rfl
  | crash down =>
    obtain ⟨adapter,step,rfl⟩ := down
    rfl

-- Whichever steps ran, failed and died before: one that returns `Ok` leaves the
-- rule letting through what it did before the first of them if and only if it
-- did so when that one began.
theorem refresh_exact (texts : Texts) (stores : PushSettings → PushSettings → PushSettings) (adapter : Adapter)
    (w : World) (begun : w.begun = w.rules) (step : Step) (t : World) (outcome : StepOutcome)
    (run : Relation.ReflTransGen (Session texts stores) (w,(runStep texts adapter step).run) (t,.done (.ok outcome))) :
    protection texts t.repo t.rules = protection texts w.repo w.rules ↔
      protection texts w.repo t.begun = protection texts w.repo w.rules := by
  have begins (s : World) (there : World × Prog Query Reply (Except ForgeError StepOutcome))
      (next : Begins texts s there) : (setting texts stores).Holds (Kept texts) there.2 there.1 := by
    obtain ⟨adapter,step,rfl⟩ := next
    exact runStep_kept rfl step
  obtain ⟨same,holds⟩ := session_run (K := fun s => s.repo.defaultBranch = w.repo.defaultBranch)
    (fun _ s there _ _ next => begins s there next) (fun s there _ _ down => begins s there down)
    (fun here there step kept => (session_framed step).trans kept) run rfl (runStep_kept begun step)
  have kept := holds_value holds fun detail failed => by cases failed
  have named (rules : List ProtectionJson) : protection texts t.repo rules = protection texts w.repo rules := by
    rw [protection,protection,show t.repo.defaultBranch = w.repo.defaultBranch from same]
  rw [kept,named]

end

-- A protected branch whose managed workflow is missing, on a forge that may fail
-- every request to close the branch to pushes.
namespace Sample

def texts : Texts := ⟨fun t => t.map Governance.lower,fun _ => []⟩
def adapter : Adapter := ⟨ascii "forge.example/acme/gadgets",ascii "vgi-bot",.ok ()⟩
def workflow : Bytes := ascii ".forgejo/workflows/verify-trust.yml"
def closedRule : ProtectionJson := { ruleName := some (ascii "main"), protectedFilePatterns := workflow }
def start : World := ⟨⟨some (ascii "main"),false⟩,fun _ => none,[closedRule],[closedRule]⟩
def refresh : Step := .refreshProtectedFiles [⟨workflow,ascii "v2"⟩] []
def keepsBody (_ body : PushSettings) : PushSettings := body

def answers (failing : Bool) : (q : Query) → World → Option (Reply q × World)
  | .getRepo,w => some (.ok w.repo,w)
  | .contents path,w => some (.ok (w.files path),w)
  | .branchProtections,w => some (.ok w.rules,w)
  | .patchProtection rule body,w =>
    if body.enablePush || !failing then
      let u := w.patched keepsBody rule body
      (selectRule texts u.rules rule).1.map fun after => (.ok after,u)
    else some (.error (.unavailable []),w)
  | .putContents path _ contents _,w => some (.ok (),w.put path [] contents)

theorem answers_served (q : Query) (w : World) (r : Reply q) (u : World) (answered : answers failing q w = some (r,u)) :
    Served texts keepsBody q w r u := by
  cases q with
  | getRepo =>
    cases answered
    exact .getRepo
  | contents path =>
    cases answered
    exact .contents
  | branchProtections =>
    cases answered
    exact .branchProtections
  | patchProtection rule body =>
    by_cases opens : body.enablePush || !failing
    · simp only [answers,opens,if_true] at answered
      obtain ⟨after,there,same⟩ := Option.map_eq_some_iff.mp answered
      cases same
      exact .patched there
    · simp only [answers,opens] at answered
      cases answered
      exact .failed
  | putContents path sha contents message =>
    cases answered
    exact .put

def refreshed (failing : Bool) (w : World) : Option (Except ForgeError StepOutcome × World) :=
  (runStep texts adapter refresh).run.run (answers failing) { w with begun := w.rules }

-- The first refresh cannot close the branch again and says so; the second finds
-- the file current and says that all is well.
theorem refresh_left_open : ∃ t outcome, Relation.ReflTransGen (Session texts keepsBody)
    (start,(runStep texts adapter refresh).run) (t,.done (.ok outcome)) ∧
    protection texts t.repo t.rules ≠ protection texts start.repo start.rules := by
  have ran : ((refreshed true start).bind fun first => refreshed true first.2).map
      (fun second => (second.1.toOption,protection texts second.2.repo second.2.rules)) =
      some (some .unchanged,some ⟨some ⟨true,[ascii "vgi-bot"],[],false⟩,[]⟩) := by
    decide
  obtain ⟨second,both,there⟩ := Option.map_eq_some_iff.mp ran
  obtain ⟨first,one,two⟩ := Option.bind_eq_some_iff.mp both
  obtain ⟨result,t⟩ := second
  obtain ⟨outcome,left⟩ := Prod.mk.inj there
  cases result with
  | error e => cases outcome
  | ok value =>
    have firstRan := run_steps (w := setting texts keepsBody) answers_served _ one
    have secondRan := run_steps (w := setting texts keepsBody) answers_served _ two
    refine ⟨t,value,?_,?_⟩
    · refine (session_steps firstRan).trans ?_
      exact .head (.again ⟨adapter,refresh,rfl⟩) (session_steps secondRan)
    · rw [left]
      decide

theorem refresh_exact_sample : ∃ t outcome, Relation.ReflTransGen (Session texts keepsBody)
    (start,(runStep texts adapter refresh).run) (t,.done (.ok outcome)) ∧
    protection texts t.repo t.rules = protection texts start.repo start.rules := by
  have ran : (refreshed false start).map (fun last => (last.1.toOption,last.2.begun)) =
      some (some .updated,start.rules) := by
    decide
  obtain ⟨⟨result,t⟩,one,there⟩ := Option.map_eq_some_iff.mp ran
  obtain ⟨outcome,begun⟩ := Prod.mk.inj there
  cases result with
  | error e => cases outcome
  | ok value =>
    have run : Relation.ReflTransGen (Session texts keepsBody) (start,(runStep texts adapter refresh).run)
        (t,.done (.ok value)) := session_steps (run_steps answers_served _ one)
    refine ⟨t,value,run,?_⟩
    exact (refresh_exact texts keepsBody adapter start rfl refresh t value run).mpr (congrArg _ begun)

end Sample

end VerifiableGit.Forge
