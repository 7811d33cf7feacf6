import VerifiableGit.Forge.OwnerExact
import VerifiableGit.Workflow.Retried

-- A plan that has run to its end leaves nothing for the next run of it to do.
namespace VerifiableGit.Bootstrap
open Text Library.Interaction
open Qualified (Str text)
open Governance (ForgeError StepOutcome StepStatus)
open Workflow (StepAction BootstrapStep VgiConfig ExtraFile ProtectionSpec ForgeAccount intoBytes fromUtf8 linesOf)
open Workflow.GitHub (codeownersLocations guardedPath CheckGuard)
open OwnerRules (renderCodeowners outsideLines Word Paired)
open Forge (Entry)

-- What does not change from one run to the next.
structure World where
  plan : Workflow.Result (List BootstrapStep)
  actionsApp : UInt64
  login : Nat → Str

def Query.Reads : Query → Prop
  | .putContent _ _ _ _ | .deleteContent _ _ _ | .patchVariable _ _ | .postVariable _ _ | .deleteVariable _
  | .writeRuleset _ | .namespaceWorkflow _ _ _ => False
  | _ => True

def sentBody : Ruleset.Request → Did.Value
  | .put _ body | .post body => body

-- A ruleset's document is listed under its id, and an id stands for one ruleset.
structure Numbered (s : Repository) : Prop where
  distinct : (s.rulesets.map (·.id)).Nodup
  identified : Ruleset.Identified s.rulesets

section
variable (world : World)

-- An account's login is the same each time it is asked for.
def Steady : (q : Query) → q.Answer → Prop
  | .actionsApp,answer => ∀ app, answer = .ok app → app = world.actionsApp
  | .user account,answer => ∀ user, answer = .ok user → user.1 = account → user.2 = world.login account
  | _,_ => True

-- GitHub gives a new ruleset an id of its own, and of each what it was sent.
def Stores (q : Query) (s : Repository) (a : q.Answer) (t : Repository) : Prop :=
  ∀ request, q = .writeRuleset request → q.Refuses a ∧ t = s ∨ ∃ keep fresh,
    (∀ r ∈ s.rulesets, r.id ≠ fresh) ∧
    (∀ id, Ruleset.ReadBack (sentBody request) (keep id (sentBody request))) ∧
    (∀ id rs, Ruleset.rulesetJson (keep id (sentBody request)) = some rs → rs.id = id) ∧
    t = { s with rulesets := Ruleset.answered keep fresh s.rulesets request }

-- One run with nobody else at the repository; `kind` is what it may ask.
def alone (kind : Query → Prop) : Setting Query Query.Answer Repository where
  serve q s a t := Served (· = world.plan) q s a t ∧ Steady world q a ∧ Stores q s a t
  rely _ _ := False
  guarantee q _ _ := kind q
  always := Numbered

end

variable {world : World} {kind : Query → Prop} {s t : Repository} {α β : Type}

theorem alone_solitary : (alone world kind).Solitary := fun _ _ act => act

theorem read_same {q : Query} {a : q.Answer} (served : Served plans q s a t) (reads : q.Reads) : t = s := by
  have effect : ∀ {q s t}, q.Reads → ¬Effect q s t := by
    intro q s t reads effect
    cases effect with
    | _ => cases reads
  cases served with
  | shown => rfl
  | refused => rfl
  | done changed => exact absurd changed (effect reads)
  | lost changed => exact absurd changed (effect reads)

theorem settles_done {post : α → Repository → Prop} {value : α} (numbered : Numbered s) (here : post value s) :
    (alone world kind).Holds post (.done value) s := solitary_done alone_solitary numbered here

theorem settles_ask {q : Query} {next : q.Answer → Code α} {post : α → Repository → Prop} (numbered : Numbered s) (fine : kind q)
    (rest : ∀ a t, Served (· = world.plan) q s a t → Steady world q a → Stores q s a t →
      (alone world kind).Holds post (next a) t) : (alone world kind).Holds post (.call q next) s :=
  solitary_call alone_solitary numbered fun a t served => ⟨fine,rest a t served.1 served.2.1 served.2.2⟩

/-! What reading finds -/

-- The repository is as it was, and what was found is true of it.
def Finds (found : α → Prop) (s : Repository) (r : Except Failure α) (t : Repository) : Prop :=
  t = s ∧ ∀ a, r = .ok a → found a

theorem finds_failed (e : Failure) {found : α → Prop} : Finds found s (.error e) s := ⟨rfl,fun _ same => (by cases same)⟩

theorem reads_step {found : α → Prop} {post : Except Failure β → Repository → Prop} (numbered : Numbered s) (p : Step α)
    (f : α → Step β) (reads : (alone world kind).Holds (Finds found s) p.run s)
    (rest : ∀ a, found a → (alone world kind).Holds post (f a).run s) (failed : ∀ e, post (.error e) s) :
    (alone world kind).Holds post (p >>= f).run s := by
  refine holds_fallible p f reads (fun a t reached => ?_) (fun e t reached => ?_)
  · obtain ⟨rfl,known⟩ := reached
    exact rest a (known a rfl)
  · obtain ⟨rfl,_⟩ := reached
    exact settles_done numbered (failed e)

theorem settled_finds (numbered : Numbered s) (r : Except Failure α) {found : α → Prop} (known : ∀ a, r = .ok a → found a) :
    (alone world kind).Holds (Finds found s) (settled r).run s := settles_done numbered ⟨rfl,known⟩

-- A check that reads nothing, then the rest.
theorem settled_step {post : Except Failure β → Repository → Prop} (numbered : Numbered s) (r : Except Failure α) (f : α → Step β)
    (rest : ∀ a, r = .ok a → (alone world kind).Holds post (f a).run s) (failed : ∀ e, post (.error e) s) :
    (alone world kind).Holds post (settled r >>= f).run s :=
  reads_step numbered _ _ (settled_finds numbered r fun _ ok => ok) rest failed

theorem said_ok {e : Except ForgeError α} {value : α} (ok : said e = .ok value) : e = .ok value := by
  cases e with
  | error e => cases ok
  | ok held => exact congrArg Except.ok (Except.ok.inj ok)

-- An answer that is no refusal is shown.
theorem served_shown {q : Query} {a : q.Answer} (served : Served plans q s a t) (reads : q.Reads) (taken : ¬q.Refuses a) :
    Shown plans q s a := by
  have effect : ∀ {s t}, ¬Effect q s t := by
    intro s t effect
    cases effect with
    | _ => cases reads
  cases served with
  | shown shown => exact shown
  | refused no => exact absurd no taken
  | done changed => exact absurd changed effect
  | lost changed => exact absurd changed effect

theorem loop_list (bytes : ByteArray) (n i : Nat) (front : List UInt8) (left : bytes.size - i = n) :
    ByteArray.toList.loop bytes i front = front.reverse ++ bytes.data.toList.drop i := by
  induction n generalizing i front with
  | zero =>
    have past : bytes.data.toList.length ≤ i := by
      change bytes.size ≤ i
      omega
    rw [ByteArray.toList.loop,if_neg (by omega),List.drop_eq_nil_of_le past,List.append_nil]
  | succ n ih =>
    have inside : i < bytes.size := by omega
    have there : i < bytes.data.toList.length := inside
    rw [ByteArray.toList.loop,if_pos inside,ih (i+1) _ (by omega),List.drop_eq_getElem_cons there]
    simp [ByteArray.get!,inside]

theorem decode_encode (contents : Str) : fromUtf8 (intoBytes contents) = some contents := by
  have listed : (String.ofList contents).toUTF8.toList = (String.ofList contents).toUTF8.data.toList :=
    loop_list _ _ 0 [] rfl
  have whole : (String.ofList contents).toUTF8.data.toList.toByteArray = (String.ofList contents).toUTF8 := by
    ext1
    simp
  have valid : (String.ofList contents).toUTF8.IsValidUTF8 := (String.ofList contents).isValidUTF8
  rw [fromUtf8,intoBytes,listed,whole,String.fromUTF8?,dif_pos valid]
  exact congrArg some String.toList_ofList

section
variable (all : ∀ q : Query, q.Reads → kind q)
include all

-- One question that only reads, and what is made of its answer.
theorem ask_finds {q : Query} {made : q.Answer → Except Failure α} {found : α → Prop} (numbered : Numbered s) (reads : q.Reads)
    (known : ∀ answer value, Served (· = world.plan) q s answer s → Steady world q answer → made answer = .ok value → found value) :
    (alone world kind).Holds (Finds found s) (.call q fun answer => .done (made answer)) s := by
  refine settles_ask numbered (all q reads) fun answer t served steady _ => ?_
  cases read_same served reads
  exact settles_done numbered ⟨rfl,fun value same => known answer value served steady same⟩

theorem token_finds (numbered : Numbered s) (perms : Permissions) :
    (alone world kind).Holds (Finds (fun _ => True) s) (token perms).run s :=
  ask_finds all numbered trivial fun _ _ _ _ _ => trivial

theorem content_finds (numbered : Numbered s) (path : Str) :
    (alone world kind).Holds (Finds (· = s.entries path) s) (content path).run s := by
  refine ask_finds all numbered trivial fun answer value served _ ok => ?_
  cases said_ok ok
  cases served_shown served trivial (fun no => (by cases no.choose_spec)) with
  | content => rfl

theorem variable_finds (numbered : Numbered s) (name : Str) :
    (alone world kind).Holds (Finds (· = s.settings name) s) (getVariable name).run s := by
  refine ask_finds all numbered trivial fun answer value served _ ok => ?_
  cases said_ok ok
  cases served_shown served trivial (fun no => (by cases no.choose_spec)) with
  | getVariable => rfl

theorem branch_finds (numbered : Numbered s) : (alone world kind).Holds (Finds (· = s.defaultBranch) s) defaultBranch.run s := by
  refine ask_finds all numbered trivial fun answer value served _ ok => ?_
  cases said_ok ok
  cases served_shown served trivial (fun no => (by cases no.choose_spec)) with
  | repository => rfl

theorem rulesets_finds (numbered : Numbered s) :
    (alone world kind).Holds (Finds (· = s.rulesets.map fun r => (r.id,r.name)) s) listRulesets.run s := by
  refine ask_finds all numbered trivial fun answer value served _ ok => ?_
  cases said_ok ok
  cases served_shown served trivial (fun no => (by cases no.choose_spec)) with
  | rulesets => rfl

-- The document of one ruleset that is listed.
theorem ruleset_finds (numbered : Numbered s) {held : Ruleset.Stored} (member : held ∈ s.rulesets) :
    (alone world kind).Holds (Finds (fun found => ∃ rs, found = some rs ∧ Ruleset.rulesetJson held.document = some rs) s)
      (getRuleset held.id).run s := by
  refine ask_finds all numbered trivial fun answer value served _ ok => ?_
  cases said_ok ok
  generalize key : held.id = id at served
  cases served_shown served trivial (fun no => (by cases no.choose_spec)) with
  | ruleset there read =>
    cases List.inj_on_of_nodup_map numbered.distinct member there key
    exact ⟨_,rfl,read⟩
  | missing gone => exact absurd key (gone held member)

def appOf (world : World) (adapter : Adapter) : UInt64 := if adapter.bridgePosted then adapter.appId else world.actionsApp

theorem app_finds (numbered : Numbered s) (adapter : Adapter) :
    (alone world kind).Holds (Finds (· = appOf world adapter) s) (checkIntegrationId adapter).run s := by
  change (alone world kind).Holds _ (if adapter.bridgePosted then Prog.done (Except.ok adapter.appId) else _) s
  by_cases posted : adapter.bridgePosted = true
  · rw [if_pos posted]
    refine settles_done numbered ⟨rfl,fun app same => ?_⟩
    cases same
    rw [appOf,if_pos posted]
  · rw [if_neg posted]
    refine ask_finds all numbered trivial fun answer value _ steady ok => ?_
    cases said_ok ok
    rw [appOf,if_neg posted]
    exact steady value rfl

theorem managed_finds (numbered : Numbered s) :
    (alone world kind).Holds (Finds (fun found => (found = none ∧ Ruleset.managedRuleset s.rulesets = none) ∨
      ∃ held rs, Ruleset.managedRuleset s.rulesets = some held ∧ found = some rs ∧ Ruleset.rulesetJson held.document = some rs) s)
      managedRuleset.run s := by
  refine reads_step numbered _ _ (rulesets_finds all numbered) (fun listed same => ?_) fun e => finds_failed e
  subst same
  have find : ((s.rulesets.map fun r => (r.id,r.name)).find? fun r => r.2 = Ruleset.rulesetName) =
      (Ruleset.managedRuleset s.rulesets).map fun r => (r.id,r.name) := by
    rw [Ruleset.managedRuleset,List.find?_map]
    rfl
  rw [find]
  cases managed : Ruleset.managedRuleset s.rulesets with
  | none => exact settles_done numbered ⟨rfl,fun a same => .inl ⟨(Except.ok.inj same).symm,rfl⟩⟩
  | some held =>
    refine holds_weaken _ (ruleset_finds all numbered (List.mem_of_find?_eq_some managed)) fun r t reached => ⟨reached.1,fun a same => ?_⟩
    obtain ⟨rs,found,read⟩ := reached.2 a same
    exact .inr ⟨held,rs,rfl,found,read⟩

theorem login_finds (numbered : Numbered s) (account : Nat) :
    (alone world kind).Holds (Finds (· = world.login account) s) (loginFor account).run s := by
  refine settles_ask numbered (all _ trivial) fun answer t served steady _ => ?_
  cases read_same served trivial
  cases answer with
  | error e => exact settles_done numbered (finds_failed _)
  | ok user =>
    change (alone world kind).Holds _ (if user.1 = account then Prog.done (Except.ok user.2) else _) s
    split
    · rename_i named
      exact settles_done numbered ⟨rfl,fun login same => (Except.ok.inj same) ▸ steady user rfl named⟩
    · exact settles_done numbered (finds_failed _)

-- The logins a list of owners comes to.
def joinedLogin (world : World) (logins : List Str) (owner : ForgeAccount) : List Str :=
  if world.login owner.id ∈ logins then logins else logins ++ [world.login owner.id]

def loginsOf (world : World) (logins : List Str) (owners : List ForgeAccount) : List Str := owners.foldl (joinedLogin world) logins

theorem logins_finds (numbered : Numbered s) (logins : List Str) (owners : List ForgeAccount) :
    (alone world kind).Holds (Finds (· = loginsOf world logins owners) s) (loginsFor logins owners).run s := by
  induction owners generalizing logins with
  | nil => exact settles_done numbered ⟨rfl,fun found same => (Except.ok.inj same).symm⟩
  | cons owner rest ih =>
    refine reads_step numbered _ _ (login_finds all numbered owner.id) (fun login same => ?_) fun e => finds_failed e
    subst same
    exact ih (joinedLogin world logins owner)

-- What `file_at` finds of an entry.
def filed (entry : Option Entry) : Option (Bytes × Bytes) → Prop
  | none => entry = none
  | some (contents,sha) => entry = some (.file sha (.ok contents))

theorem file_finds (numbered : Numbered s) (adapter : Adapter) (path : Str) :
    (alone world kind).Holds (Finds (filed (s.entries path)) s) (fileAt adapter path).run s := by
  refine reads_step numbered _ _ (content_finds all numbered path) (fun existing same => ?_) fun e => finds_failed e
  rw [← same]
  cases existing with
  | none => exact settles_done numbered ⟨rfl,fun a same => (Except.ok.inj same) ▸ rfl⟩
  | some entry =>
    cases entry with
    | directory => exact settles_done numbered (finds_failed _)
    | other kind => exact settles_done numbered (finds_failed _)
    | file sha held =>
      refine settled_step numbered _ _ (fun contents ok => ?_) fun e => finds_failed e
      cases said_ok ok
      exact settles_done numbered ⟨rfl,fun a same => (Except.ok.inj same) ▸ rfl⟩

-- The first of these locations that has a file, with its text.
def located (s : Repository) (paths : List Str) : Option (Str × Str) → Prop
  | none => ∀ path ∈ paths, s.entries path = none
  | some (target,found) => ∃ front back contents, paths = front ++ target :: back ∧ (∀ path ∈ front, s.entries path = none) ∧
      Has s target contents ∧ fromUtf8 contents = some found

theorem codeowners_finds (numbered : Numbered s) (adapter : Adapter) (paths : List Str) :
    (alone world kind).Holds (Finds (located s paths) s) (findCodeowners adapter paths).run s := by
  induction paths with
  | nil => exact settles_done numbered ⟨rfl,fun found same => (Except.ok.inj same) ▸ fun _ member => absurd member List.not_mem_nil⟩
  | cons path rest ih =>
    refine reads_step numbered _ _ (file_finds all numbered adapter path) (fun existing here => ?_) fun e => finds_failed e
    cases existing with
    | none =>
      refine holds_weaken _ ih fun r t reached => ⟨reached.1,fun found same => ?_⟩
      have later := reached.2 found same
      cases found with
      | none =>
        intro other member
        rcases List.mem_cons.mp member with rfl | member
        · exact here
        · exact later other member
      | some found =>
        obtain ⟨front,back,contents,split,absent,has,decoded⟩ := later
        refine ⟨path :: front,back,contents,by rw [split]; rfl,fun other member => ?_,has,decoded⟩
        rcases List.mem_cons.mp member with rfl | member
        · exact here
        · exact absent other member
    | some existing =>
      obtain ⟨contents,sha⟩ := existing
      dsimp only
      cases decoded : fromUtf8 contents with
      | none => exact settles_done numbered (finds_failed _)
      | some found =>
        refine settles_done numbered ⟨rfl,fun a same => ?_⟩
        cases same
        exact ⟨[],rest,contents,rfl,fun _ member => absurd member List.not_mem_nil,⟨sha,here⟩,decoded⟩

omit all in
theorem paths_find (numbered : Numbered s) (paths : List Str) :
    (alone world kind).Holds (Finds (fun _ => True) s) (checkPaths paths).run s := by
  induction paths with
  | nil => exact settles_done numbered ⟨rfl,fun _ _ => trivial⟩
  | cons path rest ih =>
    exact settled_step numbered _ _ (fun _ _ => ih) fun e => finds_failed e

/-! A step with nothing to do -/

-- A file that is there is left alone.
theorem held_finds (numbered : Numbered s) {path : Str} {contents : Bytes} (message : Str) (has : Has s path contents) :
    (alone world kind).Holds (Finds (· = .unchanged) s) (writeFileWith path contents message).run s := by
  obtain ⟨sha,there⟩ := has
  refine settled_step numbered _ _ (fun _ _ => ?_) fun e => finds_failed e
  refine reads_step numbered _ _ (content_finds all numbered path) (fun existing same => ?_) fun e => finds_failed e
  rw [same,there]
  refine settled_step numbered _ _ (fun held ok => ?_) fun e => finds_failed e
  cases said_ok ok
  change (alone world kind).Holds _ (if contents = contents then Prog.done (Except.ok StepOutcome.unchanged) else _) s
  rw [if_pos rfl]
  exact settles_done numbered ⟨rfl,fun o same => (Except.ok.inj same).symm⟩

def actionsIdFor (world : World) (adapter : Adapter) (spec : ProtectionSpec) : Option UInt64 :=
  if spec.requireStatusCheck then some (appOf world adapter) else none

theorem required_finds (numbered : Numbered s) (adapter : Adapter) (spec : ProtectionSpec) :
    (alone world kind).Holds (Finds (· = actionsIdFor world adapter spec) s) (requiredApp adapter spec).run s := by
  unfold requiredApp actionsIdFor
  split
  · refine reads_step numbered _ _ (app_finds all numbered adapter) (fun app same => ?_) fun e => finds_failed e
    subst same
    exact settles_done numbered ⟨rfl,fun found same => (Except.ok.inj same).symm⟩
  · exact settles_done numbered ⟨rfl,fun found same => (Except.ok.inj same).symm⟩

-- The step's work is done.
def Idle (world : World) (adapter : Adapter) (s : Repository) : StepAction → Prop
  | .writeFile path contents _ => Has s path contents
  | .setVariable name value => s.settings name = some value
  | .removeFile path _ => s.entries path = none
  | .removeVariable name => s.settings name = none
  | .protectDefaultBranch spec => ∃ held rs, Ruleset.managedRuleset s.rulesets = some held ∧
      Ruleset.rulesetJson held.document = some rs ∧ Ruleset.holds rs s.defaultBranch (actionsIdFor world adapter spec) spec = true
  | .requireOwnerReview paths owners _ _ => ∃ target contents, Ahead s target ∧ Has s target (intoBytes contents) ∧
      renderCodeowners contents (guardedWith paths target) (loginsOf world [] owners) = contents
  | .requireNamespaceWorkflow _ _ _ | .configureRepo _ _ => False

omit all in
theorem located_ahead {target : Str} {contents : Str} {found : Option (Str × Str)} (ahead : Ahead s target)
    (has : Has s target (intoBytes contents)) (here : located s codeownersLocations found) : found = some (target,contents) := by
  obtain ⟨front,back,split,absent⟩ := ahead
  obtain ⟨sha,there⟩ := has
  cases found with
  | none =>
    have none_ := here target (by rw [split]; simp)
    rw [none_] at there
    cases there
  | some found =>
    obtain ⟨other,text⟩ := found
    obtain ⟨front',back',held,split',absent',has',decoded⟩ := here
    have same : front' = front ∧ other = target := by
      have shape : front ++ target :: back = front' ++ other :: back' := split.symm.trans split'
      rcases List.append_eq_append_iff.mp shape with ⟨more,left,right⟩ | ⟨more,left,right⟩
      · cases more with
        | nil =>
          cases right
          exact ⟨by rw [left,List.append_nil],rfl⟩
        | cons x more =>
          cases right
          rw [absent' target (by rw [left]; simp)] at there
          cases there
      · cases more with
        | nil =>
          cases right
          exact ⟨by rw [left,List.append_nil],rfl⟩
        | cons x more =>
          cases right
          obtain ⟨_,filled⟩ := has'
          rw [absent other (by rw [left]; simp)] at filled
          cases filled
    obtain ⟨_,rfl⟩ := same
    cases has_one ⟨sha,there⟩ has'
    rw [decode_encode] at decoded
    cases decoded
    rfl

theorem token_step {post : Except Failure β → Repository → Prop} (numbered : Numbered s) (perms : Permissions) (f : Unit → Step β)
    (rest : (alone world kind).Holds post (f ()).run s) (failed : ∀ e, post (.error e) s) :
    (alone world kind).Holds post (token perms >>= f).run s :=
  reads_step numbered _ _ (token_finds all numbered perms) (fun _ _ => rest) failed

-- The reading of an owners' step: the logins, and the file GitHub goes by.
theorem review_step {post : Except Failure StepOutcome → Repository → Prop} (numbered : Numbered s) (adapter : Adapter) (paths : List Str)
    (owners : List ForgeAccount) (rules : Bytes) (message : Str) (failed : ∀ e, post (.error e) s)
    (rest : ∀ planned found target community, 2 ≤ owners.length → fromUtf8 rules = some planned → located s codeownersLocations found →
      found.getD (codeownersPath,planned) = (target,community) → (alone world kind).Holds post
        (writeFileWith target (intoBytes (renderCodeowners community (guardedWith paths target) (loginsOf world [] owners))) message).run s) :
    (alone world kind).Holds post (requireOwnerReview adapter paths owners rules message).run s := by
  unfold requireOwnerReview
  split
  · exact settles_done numbered (failed _)
  rename_i enough
  refine reads_step numbered _ _ (paths_find numbered paths) (fun _ _ => ?_) failed
  refine settled_step numbered _ _ (fun planned decoded => ?_) failed
  have given : fromUtf8 rules = some planned := by
    unfold plannedRules at decoded
    split at decoded
    · cases decoded
      assumption
    · cases decoded
  refine token_step all numbered _ _ ?_ failed
  refine reads_step numbered _ _ (logins_finds all numbered [] owners) (fun logins same => ?_) failed
  subst same
  refine token_step all numbered _ _ ?_ failed
  refine reads_step numbered _ _ (codeowners_finds all numbered adapter _) (fun found here => ?_) failed
  exact rest planned found _ _ (Nat.le_of_not_lt enough) given here rfl

theorem protect_step {post : Except Failure StepOutcome → Repository → Prop} (numbered : Numbered s) (adapter : Adapter)
    (spec : ProtectionSpec) (failed : ∀ e, post (.error e) s)
    (rest : ∀ found, (found = none ∧ Ruleset.managedRuleset s.rulesets = none) ∨
      (∃ held rs, Ruleset.managedRuleset s.rulesets = some held ∧ found = some rs ∧ Ruleset.rulesetJson held.document = some rs) →
      (alone world kind).Holds post (match found with
        | some rs =>
          if Ruleset.holds rs s.defaultBranch (actionsIdFor world adapter spec) spec then (pure .unchanged : Step StepOutcome)
          else do
            writeRuleset (.put rs.id (Ruleset.rulesetBody spec (actionsIdFor world adapter spec)))
            pure .updated
        | none => do
          writeRuleset (.post (Ruleset.rulesetBody spec (actionsIdFor world adapter spec)))
          pure .created : Step StepOutcome).run s) :
    (alone world kind).Holds post (protect adapter spec).run s := by
  refine token_step all numbered _ _ ?_ failed
  refine reads_step numbered _ _ (required_finds all numbered adapter spec) (fun actionsId same => ?_) failed
  subst same
  refine reads_step numbered _ _ (branch_finds all numbered) (fun branch same => ?_) failed
  subst same
  exact reads_step numbered _ _ (managed_finds all numbered) rest failed

theorem idle_finds (numbered : Numbered s) (adapter : Adapter) (action : StepAction) (idle : Idle world adapter s action) :
    (alone world kind).Holds (Finds (· = .unchanged) s) (runStep adapter action).run s := by
  have failed : ∀ e, Finds (· = StepOutcome.unchanged) s (.error e) s := fun e => finds_failed e
  have same : ∀ o, (Except.ok StepOutcome.unchanged : Except Failure StepOutcome) = .ok o → o = .unchanged :=
    fun o same => (Except.ok.inj same).symm
  cases action with
  | writeFile path contents message =>
    refine settled_step numbered _ _ (fun _ _ => ?_) failed
    exact token_step all numbered _ _ (held_finds all numbered message idle) failed
  | setVariable name value =>
    refine settled_step numbered _ _ (fun _ _ => token_step all numbered _ _ ?_ failed) failed
    refine reads_step numbered _ _ (variable_finds all numbered name) (fun existing found => ?_) failed
    rw [found,idle]
    change (alone world kind).Holds _ (if value = value then Prog.done (Except.ok StepOutcome.unchanged) else _) s
    rw [if_pos rfl]
    exact settles_done numbered ⟨rfl,same⟩
  | protectDefaultBranch spec =>
    obtain ⟨held,rs,managed,read,holds⟩ := idle
    refine protect_step all numbered adapter spec failed fun found known => ?_
    rcases known with ⟨_,none_⟩ | ⟨other,rs',managed',rfl,read'⟩
    · rw [none_] at managed
      cases managed
    · cases managed.symm.trans managed'
      cases read.symm.trans read'
      dsimp only
      rw [if_pos holds]
      exact settles_done numbered ⟨rfl,same⟩
  | requireNamespaceWorkflow contents check message => cases idle
  | requireOwnerReview paths owners rules message =>
    obtain ⟨target,contents,ahead,has,again⟩ := idle
    refine review_step all numbered adapter paths owners rules message failed fun planned found _ _ _ _ here shape => ?_
    rw [located_ahead ahead has here] at shape
    cases shape
    rw [again]
    exact held_finds all numbered message has
  | removeFile path message =>
    refine settled_step numbered _ _ (fun _ _ => token_step all numbered _ _ ?_ failed) failed
    refine reads_step numbered _ _ (file_finds all numbered adapter path) (fun existing found => ?_) failed
    rw [idle] at found
    cases existing with
    | none => exact settles_done numbered ⟨rfl,same⟩
    | some existing => cases found
  | removeVariable name =>
    refine settled_step numbered _ _ (fun _ _ => token_step all numbered _ _ ?_ failed) failed
    refine reads_step numbered _ _ (variable_finds all numbered name) (fun existing found => ?_) failed
    rw [found,idle]
    exact settles_done numbered ⟨rfl,same⟩
  | configureRepo methods enableCi => cases idle

end

/-! A step with something to do -/

-- Nothing came of it, or the change, and where it went well the change.
def Changes (after : Repository → Prop) (s : Repository) (r : Except Failure α) (t : Repository) : Prop :=
  (t = s ∨ after t) ∧ ∀ a, r = .ok a → after t

theorem changes_failed {after : Repository → Prop} (e : Failure) : Changes after s (.error e : Except Failure α) s :=
  ⟨.inl rfl,fun _ same => (by cases same)⟩

abbrev whole (world : World) : Setting Query Query.Answer Repository := alone world fun _ => True

theorem reads_any : ∀ q : Query, q.Reads → True := fun _ _ => trivial

theorem accepts_taken {q : Query} {a : q.Answer} (yes : q.Accepts a) : ¬q.Refuses a := by
  intro no
  cases q with
  | putContent | deleteContent | patchVariable | postVariable | deleteVariable | writeRuleset =>
    obtain ⟨e,same⟩ := no
    cases yes.symm.trans same
  | _ => cases yes

theorem ask_changes {q : Query} {made : q.Answer → Except Failure α} {after : Repository → Prop} (numbered : Numbered s)
    (unshown : ∀ a, ¬Shown (· = world.plan) q s a) (made_ : ∀ a v, made a = .ok v → ¬q.Refuses a)
    (kept : ∀ t, after t → Numbered t) (took : ∀ a t, Effect q s t → Stores q s a t → q.Refuses a ∧ t = s ∨ after t) :
    (whole world).Holds (Changes after s) (.call q fun answer => .done (made answer)) s := by
  refine settles_ask numbered trivial fun answer t served _ stores => ?_
  cases served with
  | shown shown => exact absurd shown (unshown answer)
  | refused no => exact settles_done numbered ⟨.inl rfl,fun v same => absurd no (made_ answer v same)⟩
  | done changed yes =>
    rcases took answer t changed stores with ⟨no,_⟩ | there
    · exact absurd no (accepts_taken yes)
    · exact settles_done (kept t there) ⟨.inr there,fun _ _ => there⟩
  | lost changed no =>
    rcases took answer t changed stores with ⟨_,rfl⟩ | there
    · exact settles_done numbered ⟨.inl rfl,fun v same => absurd no (made_ answer v same)⟩
    · exact settles_done (kept t there) ⟨.inr there,fun v same => absurd no (made_ answer v same)⟩

theorem changes_then {after : Repository → Prop} (numbered : Numbered s) (kept : ∀ t, after t → Numbered t) (p : Step Unit)
    (outcome : StepOutcome) (changes : (whole world).Holds (Changes after s) p.run s) :
    (whole world).Holds (Changes after s) (p >>= fun _ => pure outcome).run s := by
  refine holds_fallible p _ changes (fun a t reached => ?_) (fun e t reached => ?_)
  · have there := reached.2 a rfl
    exact settles_done (kept t there) ⟨.inr there,fun _ _ => there⟩
  · rcases reached.1 with rfl | there
    · exact settles_done numbered (changes_failed e)
    · exact settles_done (kept t there) ⟨.inr there,fun _ same => (by cases same)⟩

theorem mapError_ok {e : Except ForgeError α} {f : ForgeError → ForgeError} {v : α} (ok : said (e.mapError f) = .ok v) : e = .ok v := by
  cases e with
  | error e => cases ok
  | ok held => exact congrArg Except.ok (Except.ok.inj ok)

theorem numbered_entries {entry : Option Entry} (numbered : Numbered s) : Numbered (s.put path entry) := ⟨numbered.distinct,numbered.identified⟩

theorem numbered_settings {value : Option Str} (numbered : Numbered s) : Numbered (s.assign name value) :=
  ⟨numbered.distinct,numbered.identified⟩

def PutAt (path : Str) (contents : Bytes) (s t : Repository) : Prop := ∃ blob, t = s.put path (some (.file blob (.ok contents)))

theorem put_changes (numbered : Numbered s) (path : Str) (sha : Option Bytes) (contents : Bytes) (message : Str) (outcome : StepOutcome) :
    (whole world).Holds (Changes (PutAt path contents s) s) (putContent path sha contents message >>= fun _ => pure outcome).run s := by
  have kept : ∀ t, PutAt path contents s t → Numbered t := by
    rintro t ⟨blob,rfl⟩
    exact numbered_entries numbered
  refine changes_then numbered kept _ _ (ask_changes numbered (fun a shown => (by cases shown)) (fun a v ok no => ?_)
    kept fun a t effect _ => .inr ?_)
  · obtain ⟨e,rfl⟩ := no
    cases mapError_ok ok
  · cases effect with
    | put free current blob => exact ⟨blob,rfl⟩

-- The file is in place, one way or another.
def Placing (path : Str) (contents : Bytes) (s : Repository) (r : Except Failure StepOutcome) (t : Repository) : Prop :=
  (t = s ∨ PutAt path contents s t) ∧ ∀ o, r = .ok o → Has t path contents

theorem put_has (put : PutAt path contents s t) : Has t path contents := by
  obtain ⟨blob,rfl⟩ := put
  exact ⟨blob,put_same _ _ _⟩

theorem written_places (numbered : Numbered s) (path : Str) (contents : Bytes) (message : Str) :
    (whole world).Holds (Placing path contents s) (writeFileWith path contents message).run s := by
  have failed : ∀ e, Placing path contents s (.error e) s := fun e => ⟨.inl rfl,fun _ same => (by cases same)⟩
  have puts : ∀ sha outcome, (whole world).Holds (Placing path contents s)
      (putContent path sha contents message >>= fun _ => pure outcome).run s := by
    intro sha outcome
    refine holds_weaken _ (put_changes numbered path sha contents message outcome) fun r t reached => ?_
    exact ⟨reached.1,fun o same => put_has (reached.2 o same)⟩
  refine settled_step numbered _ _ (fun _ _ => ?_) failed
  refine reads_step numbered _ _ (content_finds reads_any numbered path) (fun existing there => ?_) failed
  cases existing with
  | none => exact puts none .created
  | some entry =>
    cases entry with
    | directory => exact settles_done numbered (failed _)
    | other kind => exact settles_done numbered (failed _)
    | file sha held =>
      refine settled_step numbered _ _ (fun found ok => ?_) failed
      cases said_ok ok
      change (whole world).Holds _ (if found = contents then Prog.done (Except.ok StepOutcome.unchanged) else
        (putContent path (some sha) contents message >>= fun _ => pure StepOutcome.updated).run) s
      split
      · rename_i same
        subst same
        exact settles_done numbered ⟨.inl rfl,fun _ _ => ⟨sha,there.symm⟩⟩
      · exact puts (some sha) .updated

theorem delete_changes (numbered : Numbered s) (path : Str) (sha : Bytes) (message : Str) :
    (whole world).Holds (Changes (· = s.put path none) s) (deleteContent path sha message >>= fun _ => pure StepOutcome.updated).run s := by
  have kept : ∀ t, t = s.put path none → Numbered t := by
    rintro t rfl
    exact numbered_entries numbered
  refine changes_then numbered kept _ _ (ask_changes numbered (fun a shown => (by cases shown)) (fun a v ok no => ?_)
    kept fun a t effect _ => .inr ?_)
  · obtain ⟨e,rfl⟩ := no
    cases mapError_ok ok
  · cases effect with
    | delete free current => rfl

-- The three ways a variable is changed.
theorem assign_changes (numbered : Numbered s) (q : Query) (made : q.Answer → Except Failure Unit) (name : Str) (value : Option Str)
    (outcome : StepOutcome) (unshown : ∀ a, ¬Shown (· = world.plan) q s a) (made_ : ∀ a v, made a = .ok v → ¬q.Refuses a)
    (took : ∀ t, Effect q s t → t = s.assign name value) :
    (whole world).Holds (Changes (· = s.assign name value) s)
      ((ExceptT.mk (Prog.call q fun answer => Prog.done (made answer)) : Step Unit) >>= fun _ => pure outcome).run s := by
  have kept : ∀ t, t = s.assign name value → Numbered t := by
    rintro t rfl
    exact numbered_settings numbered
  exact changes_then numbered kept _ _ (ask_changes numbered unshown made_ kept fun _ t effect _ => .inr (took t effect))

theorem patch_changes (numbered : Numbered s) (name value : Str) :
    (whole world).Holds (Changes (· = s.assign name (some value)) s) (patchVariable name value >>= fun _ => pure StepOutcome.updated).run s := by
  refine assign_changes numbered (.patchVariable name value) said name _ _ (fun a shown => (by cases shown)) (fun a v ok no => ?_)
    fun t effect => ?_
  · obtain ⟨e,rfl⟩ := no
    cases said_ok ok
  · cases effect with
    | patch => rfl

theorem post_changes (numbered : Numbered s) (name value : Str) :
    (whole world).Holds (Changes (· = s.assign name (some value)) s) (postVariable name value >>= fun _ => pure StepOutcome.created).run s := by
  refine assign_changes numbered (.postVariable name value) said name _ _ (fun a shown => (by cases shown)) (fun a v ok no => ?_)
    fun t effect => ?_
  · obtain ⟨e,rfl⟩ := no
    cases said_ok ok
  · cases effect with
    | post => rfl

theorem drop_changes (numbered : Numbered s) (name : Str) :
    (whole world).Holds (Changes (· = s.assign name none) s) (deleteVariable name >>= fun _ => pure StepOutcome.updated).run s := by
  refine assign_changes numbered (.deleteVariable name) said name _ _ (fun a shown => (by cases shown)) (fun a v ok no => ?_)
    fun t effect => ?_
  · obtain ⟨e,rfl⟩ := no
    cases said_ok ok
  · cases effect with
    | drop => rfl

-- The rule is what the plan asks, and nothing else changed.
structure Ruled (world : World) (adapter : Adapter) (spec : ProtectionSpec) (s t : Repository) : Prop where
  idle : Idle world adapter t (.protectDefaultBranch spec)
  numbered : Numbered t
  rest : ∃ rulesets, t = { s with rulesets := rulesets }

theorem body_idle (standard : Ruleset.Standard spec) (adapter : Adapter) {held : Ruleset.Stored}
    (managed : Ruleset.managedRuleset t.rulesets = some held)
    (back : Ruleset.ReadBack (Ruleset.rulesetBody spec (actionsIdFor world adapter spec)) held.document) :
    Idle world adapter t (.protectDefaultBranch spec) := by
  have integration : actionsIdFor world adapter spec = some (appOf world adapter) := if_pos standard.statusCheck
  rw [integration] at back
  obtain ⟨rs,found,given⟩ := Ruleset.body_read standard back
  exact ⟨held,rs,managed,found,by rw [integration]; exact Ruleset.given_holds standard given _⟩

theorem put_ruled (standard : Ruleset.Standard spec) (numbered : Numbered s) (adapter : Adapter) {held : Ruleset.Stored}
    (managed : Ruleset.managedRuleset s.rulesets = some held)
    (stores : Stores (.writeRuleset (.put held.id (Ruleset.rulesetBody spec (actionsIdFor world adapter spec)))) s a t) :
    (∃ e, a = .error e) ∧ t = s ∨ Ruled world adapter spec s t := by
  refine (stores _ rfl).imp_right ?_
  rintro ⟨keep,fresh,_,back,listed,rfl⟩
  refine ⟨body_idle standard adapter (Ruleset.managed_put _ keep fresh _ managed) (back held.id),⟨?_,fun r member rs read => ?_⟩,_,rfl⟩
  · have ids : ((Ruleset.answered keep fresh s.rulesets (.put held.id (Ruleset.rulesetBody spec (actionsIdFor world adapter spec)))).map
        (·.id)) = s.rulesets.map (·.id) := by
      rw [Ruleset.answered,List.map_map]
      refine List.map_congr_left fun r _ => ?_
      change (if r.id = held.id then _ else r : Ruleset.Stored).id = r.id
      split <;> rfl
    exact ids ▸ numbered.distinct
  · obtain ⟨origin,inside,rfl⟩ := List.mem_map.mp member
    by_cases same : origin.id = held.id
    · rw [if_pos same] at read ⊢
      exact (listed held.id rs read).trans same.symm
    · rw [if_neg same] at read ⊢
      exact numbered.identified origin inside rs read

theorem post_ruled (standard : Ruleset.Standard spec) (numbered : Numbered s) (adapter : Adapter)
    (none_ : Ruleset.managedRuleset s.rulesets = none)
    (stores : Stores (.writeRuleset (.post (Ruleset.rulesetBody spec (actionsIdFor world adapter spec)))) s a t) :
    (∃ e, a = .error e) ∧ t = s ∨ Ruled world adapter spec s t := by
  refine (stores _ rfl).imp_right ?_
  rintro ⟨keep,fresh,new,back,listed,rfl⟩
  have managed : Ruleset.managedRuleset (Ruleset.answered keep fresh s.rulesets (.post (Ruleset.rulesetBody spec
      (actionsIdFor world adapter spec)))) = some ⟨fresh,Ruleset.rulesetName,keep fresh (Ruleset.rulesetBody spec
      (actionsIdFor world adapter spec))⟩ := by
    have absent : (s.rulesets.find? fun r => r.name = Ruleset.rulesetName) = none := none_
    rw [Ruleset.answered,Ruleset.managedRuleset,List.find?_append,absent,Option.none_or]
    exact List.find?_cons_of_pos (decide_eq_true rfl)
  refine ⟨body_idle standard adapter managed (back fresh),⟨?_,fun r member rs read => ?_⟩,_,rfl⟩
  · rw [Ruleset.answered,List.map_append]
    refine List.nodup_append.mpr ⟨numbered.distinct,List.nodup_singleton _,fun id inside other last same => ?_⟩
    obtain ⟨r,member,rfl⟩ := List.mem_map.mp inside
    cases List.mem_singleton.mp last
    exact new r member same
  · rcases List.mem_append.mp member with member | member
    · exact numbered.identified r member rs read
    · cases List.mem_singleton.mp member
      exact listed fresh rs read

/-! What one step leaves -/

def Touches : StepAction → Str → Prop
  | .writeFile path _ _,other | .removeFile path _,other => other = path
  | .requireOwnerReview _ _ _ _,other => other ∈ codeownersLocations
  | _,_ => False

def Assigns : StepAction → Str → Prop
  | .setVariable name _,other | .removeVariable name,other => other = name
  | _,_ => False

def Locking : StepAction → Prop
  | .protectDefaultBranch _ => True
  | _ => False

-- Everything a step is not about stays.
structure Frame (action : StepAction) (s t : Repository) : Prop where
  entries : ∀ path, ¬Touches action path → t.entries path = s.entries path
  settings : ∀ name, ¬Assigns action name → t.settings name = s.settings name
  rulesets : ¬Locking action → t.rulesets = s.rulesets
  branch : t.defaultBranch = s.defaultBranch

theorem frame_refl (action : StepAction) (s : Repository) : Frame action s s := ⟨fun _ _ => rfl,fun _ _ => rfl,fun _ => rfl,rfl⟩

theorem frame_put {action : StepAction} (entry : Option Entry) (touches : Touches action path) : Frame action s (s.put path entry) :=
  ⟨fun _ apart => put_other entry fun same => apart (same ▸ touches),fun _ _ => rfl,fun _ => rfl,rfl⟩

theorem frame_assign {action : StepAction} (value : Option Str) (assigns : Assigns action name) : Frame action s (s.assign name value) :=
  ⟨fun _ _ => rfl,fun _ apart => Function.update_of_ne (fun same => apart (by rw [same]; exact assigns)) _ _,fun _ => rfl,rfl⟩

-- No line of a file of owners that something visible follows ends in a carriage
-- return: reading the lines takes one such away from the ends each time.
def Tidied (contents : Bytes) : Prop := ∀ found, fromUtf8 contents = some found → (outsideLines (linesOf found)).Pairwise Paired

def Tidy (s : Repository) : Prop := ∀ path ∈ codeownersLocations, ∀ contents, Has s path contents → Tidied contents

theorem tidy_frame {action : StepAction} (frame : Frame action s t) (apart : ∀ path ∈ codeownersLocations, ¬Touches action path)
    (tidy : Tidy s) : Tidy t := by
  intro path member contents has
  obtain ⟨sha,there⟩ := has
  exact tidy path member contents ⟨sha,(frame.entries path (apart path member)).symm.trans there⟩

section
variable (world : World) (adapter : Adapter) (review : Prop)

-- The steps a plan has where the check is not the organisation's own workflow.
def Fit : StepAction → Prop
  | .writeFile path _ _ | .removeFile path _ => review → path ∉ codeownersLocations
  | .setVariable _ _ | .removeVariable _ => True
  | .protectDefaultBranch spec => Ruleset.Standard spec
  | .requireOwnerReview paths _ rules _ => review ∧ (∀ path ∈ paths, Word path) ∧ Tidied rules
  | .requireNamespaceWorkflow _ _ _ | .configureRepo _ _ => False

-- The step's change and no other.
structure Carried (action : StepAction) (s t : Repository) : Prop where
  frame : Frame action s t
  numbered : Numbered t
  tidy : review → Tidy t
  idle : Idle world adapter t action

structure Ran (action : StepAction) (s : Repository) (r : Except Failure StepOutcome) (t : Repository) : Prop where
  frame : Frame action s t
  numbered : Numbered t
  tidy : review → Tidy t
  idle : ∀ o, r = .ok o → Idle world adapter t action

end

variable {adapter : Adapter} {review : Prop}

theorem ran_failed {action : StepAction} (numbered : Numbered s) (tidy : review → Tidy s) (e : Failure) :
    Ran world adapter review action s (.error e) s :=
  ⟨frame_refl action s,numbered,tidy,fun _ same => (by cases same)⟩

theorem ran_idle {action : StepAction} (numbered : Numbered s) (tidy : review → Tidy s) (idle : Idle world adapter s action)
    (r : Except Failure StepOutcome) : Ran world adapter review action s r s :=
  ⟨frame_refl action s,numbered,tidy,fun _ _ => idle⟩

-- A change that is what the step is for.
theorem changes_ran {action : StepAction} (numbered : Numbered s) (tidy : review → Tidy s) {p : Step StepOutcome}
    {after : Repository → Prop} (changes : (whole world).Holds (Changes after s) p.run s)
    (done : ∀ t, after t → Carried world adapter review action s t) :
    (whole world).Holds (Ran world adapter review action s) p.run s := by
  refine holds_weaken _ changes fun r t reached => ?_
  rcases reached.1 with rfl | there
  · refine ⟨frame_refl action t,numbered,tidy,fun o same => ?_⟩
    exact (done t (reached.2 o same)).idle
  · obtain ⟨frame,fresh,tidied,idle⟩ := done t there
    exact ⟨frame,fresh,tidied,fun _ _ => idle⟩

theorem assigned_done {action : StepAction} {value : Option Str} (numbered : Numbered s) (tidy : review → Tidy s)
    (assigns : Assigns action name) (idle : (s.assign name value).settings name = value → Idle world adapter (s.assign name value) action) :
    ∀ t, t = s.assign name value → Carried world adapter review action s t := by
  rintro t rfl
  exact ⟨frame_assign value assigns,numbered_settings numbered,tidy,idle (Function.update_self _ _ _)⟩

theorem set_ran (numbered : Numbered s) (tidy : review → Tidy s) (name value : Str) :
    (whole world).Holds (Ran world adapter review (.setVariable name value) s) (setVariable name value).run s := by
  have failed : ∀ e, Ran world adapter review (.setVariable name value) s (.error e) s := ran_failed numbered tidy
  have done : ∀ t, t = s.assign name (some value) → Carried world adapter review (.setVariable name value) s t :=
    assigned_done numbered tidy rfl id
  refine settled_step numbered _ _ (fun _ _ => token_step reads_any numbered _ _ ?_ failed) failed
  refine reads_step numbered _ _ (variable_finds reads_any numbered name) (fun existing there => ?_) failed
  cases existing with
  | none => exact changes_ran numbered tidy (post_changes numbered name value) done
  | some held =>
    change (whole world).Holds _ (if held = value then Prog.done (Except.ok StepOutcome.unchanged) else
      (patchVariable name value >>= fun _ => pure StepOutcome.updated).run) s
    split
    · rename_i same
      exact settles_done numbered (ran_idle numbered tidy (same ▸ there.symm) _)
    · exact changes_ran numbered tidy (patch_changes numbered name value) done

theorem drop_ran (numbered : Numbered s) (tidy : review → Tidy s) (name : Str) :
    (whole world).Holds (Ran world adapter review (.removeVariable name) s) (removeVariable name).run s := by
  have failed : ∀ e, Ran world adapter review (.removeVariable name) s (.error e) s := ran_failed numbered tidy
  have done : ∀ t, t = s.assign name none → Carried world adapter review (.removeVariable name) s t :=
    assigned_done numbered tidy rfl id
  refine settled_step numbered _ _ (fun _ _ => token_step reads_any numbered _ _ ?_ failed) failed
  refine reads_step numbered _ _ (variable_finds reads_any numbered name) (fun existing there => ?_) failed
  cases existing with
  | none =>
    have idle : Idle world adapter s (.removeVariable name) := there.symm
    exact settles_done numbered (ran_idle numbered tidy idle _)
  | some held => exact changes_ran numbered tidy (drop_changes numbered name) done

theorem remove_ran (numbered : Numbered s) (tidy : review → Tidy s) (path message : Str) (elsewhere : review → path ∉ codeownersLocations) :
    (whole world).Holds (Ran world adapter review (.removeFile path message) s) (removeFile adapter path message).run s := by
  have failed : ∀ e, Ran world adapter review (.removeFile path message) s (.error e) s := ran_failed numbered tidy
  refine settled_step numbered _ _ (fun _ _ => token_step reads_any numbered _ _ ?_ failed) failed
  refine reads_step numbered _ _ (file_finds reads_any numbered adapter path) (fun existing there => ?_) failed
  cases existing with
  | none =>
    have idle : Idle world adapter s (.removeFile path message) := there
    exact settles_done numbered (ran_idle numbered tidy idle _)
  | some existing =>
    refine changes_ran numbered tidy (delete_changes numbered path existing.2 message) ?_
    rintro t rfl
    have frame : Frame (.removeFile path message) s (s.put path none) := frame_put none rfl
    refine ⟨frame,numbered_entries numbered,fun reviewed => tidy_frame frame ?_ (tidy reviewed),put_same _ _ _⟩
    exact fun other location same => elsewhere reviewed (same ▸ location)

theorem write_ran (numbered : Numbered s) (tidy : review → Tidy s) (path : Str) (contents : Bytes) (message : Str)
    (elsewhere : review → path ∉ codeownersLocations) :
    (whole world).Holds (Ran world adapter review (.writeFile path contents message) s) (writeFile path contents message).run s := by
  have failed : ∀ e, Ran world adapter review (.writeFile path contents message) s (.error e) s := ran_failed numbered tidy
  refine settled_step numbered _ _ (fun _ _ => token_step reads_any numbered _ _ ?_ failed) failed
  refine holds_weaken _ (written_places numbered path contents message) fun r t reached => ?_
  obtain ⟨rfl | ⟨blob,rfl⟩,placed⟩ := reached
  · exact ⟨frame_refl _ t,numbered,tidy,placed⟩
  · have frame : Frame (.writeFile path contents message) s (s.put path (some (.file blob (.ok contents)))) := frame_put _ rfl
    refine ⟨frame,numbered_entries numbered,fun reviewed => tidy_frame frame ?_ (tidy reviewed),placed⟩
    exact fun other location same => elsewhere reviewed (same ▸ location)

theorem protect_ran (numbered : Numbered s) (tidy : review → Tidy s) {spec : ProtectionSpec} (standard : Ruleset.Standard spec) :
    (whole world).Holds (Ran world adapter review (.protectDefaultBranch spec) s) (protect adapter spec).run s := by
  have failed : ∀ e, Ran world adapter review (.protectDefaultBranch spec) s (.error e) s := ran_failed numbered tidy
  have done : ∀ t, Ruled world adapter spec s t → Carried world adapter review (.protectDefaultBranch spec) s t := by
    intro t ruled
    obtain ⟨idle,fresh,rulesets,rfl⟩ := ruled
    exact ⟨⟨fun _ _ => rfl,fun _ _ => rfl,fun apart => absurd trivial apart,rfl⟩,fresh,tidy,idle⟩
  have kept : ∀ t, Ruled world adapter spec s t → Numbered t := fun t ruled => ruled.numbered
  have taken : ∀ request (a : (Query.writeRuleset request).Answer) v, said a = .ok v → ¬(Query.writeRuleset request).Refuses a := by
    intro request a v ok no
    obtain ⟨e,rfl⟩ := no
    cases said_ok ok
  refine protect_step reads_any numbered adapter spec failed fun found known => ?_
  rcases known with ⟨rfl,none_⟩ | ⟨held,rs,managed,rfl,read⟩
  · refine changes_ran numbered tidy (changes_then numbered kept (writeRuleset _) _ ?_) done
    exact ask_changes numbered (fun a shown => (by cases shown)) (taken _) kept
      fun a t _ stores => post_ruled standard numbered adapter none_ stores
  · dsimp only
    split
    · rename_i holds
      have idle : Idle world adapter s (.protectDefaultBranch spec) := ⟨held,rs,managed,read,holds⟩
      exact settles_done numbered (ran_idle numbered tidy idle _)
    · refine changes_ran numbered tidy (changes_then numbered kept (writeRuleset _) _ ?_) done
      rw [numbered.identified held (List.mem_of_find?_eq_some managed) rs read]
      exact ask_changes numbered (fun a shown => (by cases shown)) (taken _) kept
        fun a t _ stores => put_ruled standard numbered adapter managed stores

/-! The owners' file -/

theorem logins_kept (owners : List ForgeAccount) {logins : List Str} (each : ∀ login ∈ logins, Word login)
    (words : ∀ account, Word (world.login account)) :
    (∀ login ∈ loginsOf world logins owners, Word login) ∧ (logins ≠ [] ∨ owners ≠ [] → loginsOf world logins owners ≠ []) := by
  induction owners generalizing logins with
  | nil => exact ⟨each,fun some_ => some_.resolve_right fun no => no rfl⟩
  | cons owner rest ih =>
    have next : ∀ login ∈ joinedLogin world logins owner, Word login := by
      intro login member
      unfold joinedLogin at member
      split at member
      · exact each login member
      · rcases List.mem_append.mp member with member | member
        · exact each login member
        · exact List.mem_singleton.mp member ▸ words owner.id
    have more : joinedLogin world logins owner ≠ [] := by
      unfold joinedLogin
      split
      · rename_i member
        exact List.ne_nil_of_mem member
      · simp
    exact ⟨(ih next).1,fun _ => (ih next).2 (.inl more)⟩

theorem locations_words : ∀ path ∈ codeownersLocations, Word ('/' :: path) := by
  have plain : ∀ path ∈ codeownersLocations, ('/' :: path).any Qualified.isWhitespace = false ∧ '#' ∉ '/' :: path := by decide
  intro path member
  refine ⟨List.cons_ne_nil _ _,fun c inside => ?_,(plain path member).2⟩
  have none_ := List.any_eq_false.mp (plain path member).1 c inside
  exact Bool.eq_false_iff.mpr none_

theorem guarded_words {paths : List Str} (each : ∀ path ∈ paths, Word path) {target : Str} (location : target ∈ codeownersLocations) :
    ∀ path ∈ guardedWith paths target, Word path := by
  unfold guardedWith
  split
  · exact each
  · intro path member
    rcases List.mem_append.mp member with member | member
    · exact each path member
    · exact List.mem_singleton.mp member ▸ locations_words target location

theorem located_target {found : Option (Str × Str)} {planned target community : Str} (here : located s codeownersLocations found)
    (shape : found.getD (codeownersPath,planned) = (target,community)) :
    Ahead s target ∧ (community = planned ∨ ∃ contents, Has s target contents ∧ fromUtf8 contents = some community) := by
  cases found with
  | none =>
    cases shape
    exact ⟨ahead_first s,.inl rfl⟩
  | some found =>
    cases shape
    obtain ⟨front,back,contents,split,absent,has,decoded⟩ := here
    exact ⟨⟨front,back,split,absent⟩,.inr ⟨contents,has,decoded⟩⟩

theorem review_ran (numbered : Numbered s) (tidy : Tidy s) (paths : List Str) (owners : List ForgeAccount) {rules : Bytes} (message : Str)
    (words : ∀ account, Word (world.login account)) (each : ∀ path ∈ paths, Word path) (tidied : Tidied rules) :
    (whole world).Holds (Ran world adapter review (.requireOwnerReview paths owners rules message) s)
      (requireOwnerReview adapter paths owners rules message).run s := by
  have failed : ∀ e, Ran world adapter review (.requireOwnerReview paths owners rules message) s (.error e) s :=
    ran_failed numbered fun _ => tidy
  refine review_step reads_any numbered adapter paths owners rules message failed fun planned found target community enough given here shape => ?_
  obtain ⟨ahead,from_⟩ := located_target here shape
  have location := ahead_location ahead
  have allPaths := guarded_words each location
  have allLogins : ∀ login ∈ loginsOf world [] owners, Word login := (logins_kept owners (fun _ member => absurd member List.not_mem_nil) words).1
  have nonempty : [] ≠ [] ∨ owners ≠ [] → loginsOf world [] owners ≠ [] :=
    (logins_kept owners (fun _ member => absurd member List.not_mem_nil) words).2
  have some_ : loginsOf world [] owners ≠ [] := nonempty (.inr fun none_ => by rw [none_] at enough; exact absurd enough (by decide))
  have paired : (outsideLines (linesOf community)).Pairwise Paired := by
    rcases from_ with rfl | ⟨contents,has,decoded⟩
    · exact tidied _ given
    · exact tidy target location contents has community decoded
  have again := (OwnerRules.render_again allPaths allLogins some_ community).mpr paired
  generalize rendered : renderCodeowners community (guardedWith paths target) (loginsOf world [] owners) = written at again
  have fixed : Tidied (intoBytes written) := by
    intro text decoded
    rw [decode_encode] at decoded
    cases decoded
    exact (OwnerRules.render_again allPaths allLogins some_ written).mp (congrArg (renderCodeowners · _ _) again)
  refine holds_weaken _ (written_places numbered target (intoBytes written) message) fun r t reached => ?_
  obtain ⟨rfl | ⟨blob,rfl⟩,placed⟩ := reached
  · exact ⟨frame_refl _ t,numbered,fun _ => tidy,fun o ok => ⟨target,written,ahead,placed o ok,again⟩⟩
  · refine ⟨frame_put _ location,numbered_entries numbered,fun _ path member contents has => ?_,
      fun o ok => ⟨target,written,ahead_put _ ahead,placed o ok,again⟩⟩
    by_cases same : path = target
    · subst same
      cases has_one has ⟨blob,put_same _ _ _⟩
      exact fixed
    · obtain ⟨sha,there⟩ := has
      exact tidy path member contents ⟨sha,(put_other _ same).symm.trans there⟩

theorem runStep_ran (numbered : Numbered s) (tidy : review → Tidy s) (words : ∀ account, Word (world.login account)) {action : StepAction}
    (fit : Fit review action) : (whole world).Holds (Ran world adapter review action s) (runStep adapter action).run s := by
  cases action with
  | writeFile path contents message => exact write_ran numbered tidy path contents message fit
  | setVariable name value => exact set_ran numbered tidy name value
  | protectDefaultBranch spec => exact protect_ran numbered tidy fit
  | requireNamespaceWorkflow contents check message => cases fit
  | requireOwnerReview paths owners rules message => exact review_ran numbered (tidy fit.1) paths owners message words fit.2.1 fit.2.2
  | removeFile path message => exact remove_ran numbered tidy path message fit
  | removeVariable name => exact drop_ran numbered tidy name
  | configureRepo methods enableCi => cases fit

end VerifiableGit.Bootstrap
