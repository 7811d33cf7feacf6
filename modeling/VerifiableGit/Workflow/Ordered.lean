import VerifiableGit.Workflow.Exact
import VerifiableGit.Workflow.Steps
import VerifiableGit.Forge.RulesetAgrees

-- A repository whose bootstrap is run again and again, and broken off anywhere:
-- it is never locked before what its plan commits is there.
namespace VerifiableGit.Bootstrap
open Text Library.Interaction
open Qualified (Str text)
open Governance (ForgeError StepOutcome StepStatus)
open Workflow (StepAction BootstrapStep BootstrapComponent ProtectionSpec ForgeAccount intoBytes)
open Workflow.GitHub (codeownersLocations guardedPath CheckGuard)
open Forge (Entry)

structure Repository where
  entries : Str → Option Entry
  settings : Str → Option Str
  rulesets : List Ruleset.Stored
  defaultBranch : Option Bytes

def Repository.put (s : Repository) (path : Str) (entry : Option Entry) : Repository :=
  { s with entries := Function.update s.entries path entry }

def Repository.assign (s : Repository) (name : Str) (value : Option Str) : Repository :=
  { s with settings := Function.update s.settings name value }

def Repository.blob (s : Repository) (path : Str) : Option Bytes :=
  match s.entries path with
  | some (.file sha _) => some sha
  | _ => none

-- Nothing is pushed to the default branch past this ruleset.
def Locks (branch : Option Bytes) (r : Ruleset.Stored) : Prop :=
  ∃ rs, Ruleset.rulesetJson r.document = some rs ∧
    (Ruleset.protectionOf rs branch none).enforced = true ∧
    (Ruleset.protectionOf rs branch none).coversDefaultBranch = true ∧
    (Ruleset.protectionOf rs branch none).requiresPullRequest = true

def Repository.Locked (s : Repository) : Prop := ∃ r ∈ s.rulesets, Locks s.defaultBranch r

-- What a request that is carried out makes of the repository.
inductive Effect : Query → Repository → Repository → Prop
  | put (free : ¬s.Locked) (current : sha = s.blob path) (blob : Bytes) :
    Effect (.putContent path sha contents message) s (s.put path (some (.file blob (.ok contents))))
  | delete (free : ¬s.Locked) (current : some sha = s.blob path) : Effect (.deleteContent path sha message) s (s.put path none)
  | patch : Effect (.patchVariable name value) s (s.assign name (some value))
  | post : Effect (.postVariable name value) s (s.assign name (some value))
  | drop : Effect (.deleteVariable name) s (s.assign name none)
  | ruleset (keep : UInt64 → Did.Value → Did.Value) (fresh : UInt64) :
    Effect (.writeRuleset request) s { s with rulesets := Ruleset.answered keep fresh s.rulesets request }

-- What a request that only reads may be answered.
inductive Shown (plans : Workflow.Result (List BootstrapStep) → Prop) : (q : Query) → Repository → q.Answer → Prop
  | plan (given : plans answer) : Shown plans .plan s answer
  | token : Shown plans (.token perms) s (.ok ())
  | content : Shown plans (.content path) s (.ok (s.entries path))
  | getVariable : Shown plans (.getVariable name) s (.ok (s.settings name))
  | actionsApp (app : UInt64) : Shown plans .actionsApp s (.ok app)
  | repository : Shown plans .repository s (.ok s.defaultBranch)
  | rulesets : Shown plans .rulesets s (.ok (s.rulesets.map fun r => (r.id,r.name)))
  | ruleset (held : r ∈ s.rulesets) (read : Ruleset.rulesetJson r.document = some rs) :
    Shown plans (.ruleset r.id) s (.ok (some rs))
  | missing (gone : ∀ r ∈ s.rulesets, r.id ≠ key) : Shown plans (.ruleset key) s (.ok none)
  | user (account : Nat) (login : Str) : Shown plans (.user asked) s (.ok (account,login))
  | namespaceWorkflow (result : Except Failure StepOutcome) : Shown plans (.namespaceWorkflow contents check message) s result
  | capabilityChanged : Shown plans (.capabilityChanged capability available) s ()

def Query.Refuses : (q : Query) → q.Answer → Prop
  | .plan,_ | .namespaceWorkflow _ _ _,_ | .capabilityChanged _ _,_ => False
  | .token _,answer => ∃ e, answer = .error e
  | .content _,answer => ∃ e, answer = .error e
  | .putContent _ _ _ _,answer | .deleteContent _ _ _,answer => ∃ e, answer = .error e
  | .getVariable _,answer => ∃ e, answer = .error e
  | .patchVariable _ _,answer | .postVariable _ _,answer | .deleteVariable _,answer => ∃ e, answer = .error e
  | .actionsApp,answer => ∃ e, answer = .error e
  | .repository,answer => ∃ e, answer = .error e
  | .rulesets,answer => ∃ e, answer = .error e
  | .ruleset _,answer => ∃ e, answer = .error e
  | .writeRuleset _,answer => ∃ e, answer = .error e
  | .user _,answer => ∃ e, answer = .error e

def Query.Accepts : (q : Query) → q.Answer → Prop
  | .putContent _ _ _ _,answer | .deleteContent _ _ _,answer | .patchVariable _ _,answer | .postVariable _ _,answer
  | .deleteVariable _,answer | .writeRuleset _,answer => answer = .ok ()
  | _,_ => False

-- A request may fail, before it took or after.
inductive Served (plans : Workflow.Result (List BootstrapStep) → Prop) : (q : Query) → Repository → q.Answer → Repository → Prop
  | shown (answer : Shown plans q s a) : Served plans q s a s
  | refused (no : q.Refuses a) : Served plans q s a s
  | done (effect : Effect q s t) (yes : q.Accepts a) : Served plans q s a t
  | lost (effect : Effect q s t) (no : q.Refuses a) : Served plans q s a t

def Has (s : Repository) (path : Str) (contents : Bytes) : Prop := ∃ sha, s.entries path = some (.file sha (.ok contents))

-- GitHub goes by this file of owners: no location before it has one.
def Ahead (s : Repository) (target : Str) : Prop :=
  ∃ front back, codeownersLocations = front ++ target :: back ∧ ∀ path ∈ front, s.entries path = none

def Rules (target : Str) (contents : Bytes) : Prop :=
  ∃ community paths logins, guardedPath ∈ paths ∧ logins ≠ [] ∧
    contents = intoBytes (OwnerRules.renderCodeowners community (guardedWith paths target) logins)

-- The owners' file GitHub goes by ends in the managed rules.
def Managed (s : Repository) : Prop := ∃ target contents, Ahead s target ∧ Has s target contents ∧ Rules target contents

def Writes (step : BootstrapStep) (path : Str) (contents : Bytes) : Prop := ∃ message, step.action = .writeFile path contents message

def Reviews (step : BootstrapStep) : Prop :=
  ∃ paths owners rules message, step.action = .requireOwnerReview paths owners rules message

def Protects (step : BootstrapStep) : Prop := ∃ spec, step.action = .protectDefaultBranch spec

def Query.Quiet : Query → Prop
  | .putContent _ _ _ _ | .deleteContent _ _ _ | .writeRuleset _ => False
  | _ => True

-- `wanted` is what the plans commit, `review` whether they all have the owners
-- review it.
section
variable (wanted : Str → Bytes → Prop) (review : Prop)

def Kept (path : Str) : Prop := (∃ contents, wanted path contents) ∨ path ∈ codeownersLocations

-- Everyone else leaves these files alone and does not lock the branch.
structure Others (s t : Repository) : Prop where
  entries : ∀ path, Kept wanted path → t.entries path = s.entries path
  unlocked : t.Locked → s.Locked

structure Placed (s : Repository) : Prop where
  files : ∀ path contents, wanted path contents → Has s path contents
  rules : review → Managed s

def Safe (s : Repository) : Prop := s.Locked → Placed wanted review s

def site (plans : Workflow.Result (List BootstrapStep) → Prop) : Setting Query Query.Answer Repository where
  serve := Served plans
  rely := Others wanted
  guarantee q s _ := ∀ path sha contents message, q = .putContent path sha contents message →
    (∃ held, wanted path held) → ¬s.Locked
  always := Safe wanted review

variable {wanted review} {plans : Workflow.Result (List BootstrapStep) → Prop} {s t : Repository} {done : List BootstrapStep}

theorem put_same (s : Repository) (path : Str) (entry : Option Entry) : (s.put path entry).entries path = entry :=
  Function.update_self _ _ _

theorem put_other {s : Repository} {path other : Str} (entry : Option Entry) (differ : other ≠ path) :
    (s.put path entry).entries other = s.entries other := Function.update_of_ne differ _ _

theorem has_one (left : Has s path held) (right : Has s path contents) : held = contents := by
  obtain ⟨_,left⟩ := left
  obtain ⟨_,right⟩ := right
  rw [left] at right
  cases right
  rfl

theorem ahead_location (ahead : Ahead s target) : target ∈ codeownersLocations := by
  obtain ⟨front,back,split,_⟩ := ahead
  rw [split]
  simp

theorem settled_quiet (r : Except Failure α) : (settled r).run.Asks Query.Quiet := trivial

variable {I K J : Repository → Prop} {path : Str} {contents : Bytes}

theorem locations_distinct : codeownersLocations.Nodup := by decide

theorem ahead_first (s : Repository) : Ahead s codeownersPath := ⟨[],_,rfl,fun _ member => absurd member List.not_mem_nil⟩

theorem ahead_put (entry : Option Entry) (ahead : Ahead s target) : Ahead (s.put target entry) target := by
  obtain ⟨front,back,split,absent⟩ := ahead
  refine ⟨front,back,split,fun path member => ?_⟩
  have differ : path ≠ target := by
    rintro rfl
    have distinct := locations_distinct
    rw [split] at distinct
    exact List.disjoint_of_nodup_append distinct member List.mem_cons_self
  rw [put_other entry differ,absent path member]

theorem managed_put (ahead : Ahead s target) (rules : Rules target contents) (blob : Bytes) :
    Managed (s.put target (some (.file blob (.ok contents)))) :=
  ⟨target,contents,ahead_put _ ahead,⟨blob,put_same _ _ _⟩,rules⟩

-- A step does not undo what the plans commit.
def Suits (wanted : Str → Bytes → Prop) (review : Prop) : StepAction → Prop
  | .writeFile path contents _ => (∀ held, wanted path held → held = contents) ∧ (review → path ∉ codeownersLocations)
  | .removeFile path _ => (∀ held, ¬wanted path held) ∧ (review → path ∉ codeownersLocations)
  | .requireOwnerReview paths _ _ _ => (∀ path ∈ codeownersLocations, ∀ held, ¬wanted path held) ∧ guardedPath ∈ paths
  | _ => True

variable {step : BootstrapStep}

end

end VerifiableGit.Bootstrap
