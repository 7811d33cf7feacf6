import Mathlib.Data.Finset.Sort
import VerifiableGit.Governance.Detach
import VerifiableGit.Governance.Roles
import VerifiableGit.Library.Interaction

-- An organisation's guard on GitHub: the repositories the bridge manages and the
-- workflow commit it pinned, as the store keeps them (store.rs), as the adapter
-- holds them (vgi-forge-github, forge.rs), and the requests that change either.
namespace VerifiableGit.Guard
open Text Library Library.Interaction
open Governance (Resource Namespace Pin NamespaceRecord managedRecord projectedRecord RepoRecord RepoKey NamespaceState ForgeAccount RoleAssignment RoleMap ForgeError StepOutcome
  StepStatus)
open Governance.NamespaceRecord (Held Earlier)
open Governance.RepoRecord (moved)

-- What the adapter holds for a namespace's resource.
structure Memory where
  registered : Option Namespace := none
  requiredWorkflow : Option Bool := none
  managed : Option (Finset Nat) := none
  pin : Option Pin := none
deriving DecidableEq

structure RepoState where
  resource : Resource
  forgeId : Nat
  archived : Bool
  -- what `Guard::in_force` makes of it
  guard : Bytes
deriving DecidableEq

-- The organisation's ruleset as GitHub shows it.
structure OrgRuleset where
  id : Nat
  pinnedSha : Nat → Option Bytes
  coveredRepositoryIds : List Nat
  byRepositoryId : Bool
  gaps : Nat → Bytes → Nat → List Bytes

structure CentralRepo where
  id : Nat
  defaultBranch : Option Bytes

-- A refusal of the ruleset's workflows rule, as the plan does not have it.
structure Refusal where
  message : Bytes

inductive Failure where
  | capabilityChanged (ns capability : Bytes) (available : Bool) (reason : Bytes)
  | unsupported (operation hint : Bytes)
  | notBound (ns : Bytes)
  | forge (e : ForgeError)
deriving DecidableEq

def Failure.text : Failure → Bytes
  | .capabilityChanged ns capability available reason => ascii "`" ++ capability ++ ascii "` is now " ++
      ascii (toString available) ++ ascii " for `" ++ ns ++ ascii "` (" ++ reason ++ ascii "); plan again"
  | .unsupported operation hint => operation ++ ascii " is not supported here: " ++ hint
  | .notBound ns => ascii "namespace `" ++ ns ++
      ascii "` is not bound to this bridge; bind it before managing its repositories"
  | .forge e => e.text

def Failure.code : Failure → Bytes
  | .capabilityChanged _ _ _ _ => ascii "forgeError"
  | .unsupported _ _ | .notBound _ => ascii "notCapable"
  | .forge e => Governance.errorCode e

-- What a completed bind tells of the owner, and whether the organisation can have
-- a required workflow, where that could be told.
structure Bound where
  organization : Bool
  ownerId : Option Nat
  installationId : Option Nat
  available : Option Bool

-- What `apply_roles` comes to: its step, and the map the roles were projected
-- under once every one of them took.
structure RolesApplied where
  status : StepStatus
  detail : Option Bytes
  effective : Option RoleMap

inductive Request where
  | token
  | repository (repo : Resource)
  | inspect (repo : Resource)
  | create (repo : Resource)
  | patchArchived (repo : Resource)
  | central
  | orgRuleset
  | rulesetById (id : Nat)
  | fileAt (commit : Bytes)
  | headCommit (branch : Bytes)
  | putWorkflow (branch : Bytes) (blob : Option Bytes) (contents message : Bytes)
  | protectCentral
  | writeRuleset (existing : Option Nat) (central : Nat) (sha branch : Bytes) (ids : Finset Nat)
  | step (repo : Resource) (name : Bytes)
  | applyRoles (repo : Resource) (desired : List RoleAssignment)
  | completeBind (ns : Resource)

abbrev Request.Value : Request → Type
  | .token => Unit
  | .repository _ => Nat × Bool
  | .inspect _ | .create _ => RepoState
  | .patchArchived _ => Unit
  | .central => CentralRepo
  | .orgRuleset | .rulesetById _ => Option OrgRuleset
  | .fileAt _ => Option (Bytes × Bytes)
  | .headCommit _ => Bytes
  | .putWorkflow _ _ _ _ => Bytes
  | .protectCentral => StepOutcome
  | .writeRuleset _ _ _ _ _ => Except Refusal Nat
  | .step _ _ => StepOutcome
  | .applyRoles _ _ => RolesApplied
  | .completeBind _ => Bound

-- The store's transactions, the adapter's memory, and the requests to the forge.
inductive Query where
  | getNamespace (id : Bytes)
  | sameOwner (new : NamespaceRecord)
  | retire (id : Bytes)
  | deleteNamespace (id : Bytes)
  | putNamespace (id : Bytes) (record : NamespaceRecord)
  | manageNamespace (id : Bytes) (forgeId : Nat)
  | persist (id : Bytes) (pin : Option Pin) (managed : Option (Finset Nat))
  | changeCapability (id capability : Bytes) (available : Bool)
  | unmanage (id : Bytes) (forgeId : Nat)
  | getRepo (key : RepoKey)
  | listRepos
  | moveRepo (key : RepoKey) (ns : Bytes)
  | manageRepo (ns : Bytes) (key : RepoKey) (resource : Resource) (owners : List ForgeAccount)
  | recordCheck (key : RepoKey) (check : Bytes)
  | recordRoles (ns : Bytes) (key : RepoKey) (resource : Resource) (roles : List RoleAssignment)
      (owners : List ForgeAccount) (effective : Option RoleMap)
  | recordArchived (key : RepoKey)
  | recordGuard (key : RepoKey) (guard : Bytes)
  | memory (ns : Resource)
  | setManaged (ns : Resource) (managed : Finset Nat)
  | addManaged (ns : Resource) (forgeId : Nat)
  | dropManaged (ns : Resource) (forgeId : Nat)
  | setRequiredWorkflow (ns : Resource) (available : Bool)
  | setPin (ns : Resource) (pin : Pin)
  | restore (record : NamespaceRecord)
  | forge (request : Request)

-- An update of a namespace's record that finds none panics: `false`, or `none`.
abbrev Query.Answer : Query → Type
  | .getNamespace _ => Option NamespaceRecord
  | .sameOwner _ => List NamespaceRecord
  | .manageNamespace _ _ => Option (Finset Nat)
  | .persist _ _ _ | .changeCapability _ _ _ | .unmanage _ _ => Bool
  | .getRepo _ => Option RepoRecord
  | .listRepos => List (RepoKey × RepoRecord)
  | .moveRepo _ _ => Option RepoRecord
  | .memory _ => Memory
  | .forge request => Except ForgeError request.Value
  | _ => Unit

abbrev Code := Prog Query Query.Answer

-- `missed`: what a ruleset that was written left out though it was bootstrapped
-- and live. `recorded`: what jobs have recorded as managed and not archived.
structure World where
  namespaces : Table Bytes NamespaceRecord := ∅
  repos : Table RepoKey RepoRecord := ∅
  retired : List Bytes := []
  memory : Resource → Memory := fun _ => {}
  ids : Resource → Option Nat := fun _ => none
  archived : Finset Nat := ∅
  bootstrapped : Finset Nat := ∅
  missed : Finset Nat := ∅
  recorded : Finset Nat := ∅
  panicked : Bool := false

-- The capability's name as the job code knows it.
def withCapability (capability : Bytes) (available : Bool) (n : NamespaceRecord) : NamespaceRecord :=
  if capability = ascii "required_workflow" then
    { n with requiredWorkflow := some available, capabilities := n.capabilities.map fun _ => available }
  else n

def persisted (pin : Option Pin) (managed : Option (Finset Nat)) (n : NamespaceRecord) : NamespaceRecord :=
  { n with pin := pin.or n.pin, managed := managed.getD n.managed }

def Memory.register (m : Memory) (ns : Namespace) : Memory := { m with registered := some ns }

def Memory.restoreGuard (m : Memory) (n : NamespaceRecord) : Memory :=
  { m with
    requiredWorkflow := (n.requiredWorkflow.or n.capabilities).or m.requiredWorkflow
    managed := some n.managed
    pin := n.pin.or m.pin }

def Memory.capable (m : Memory) (ns : Namespace) : Bool :=
  ns.installationId.isSome && ns.organization && m.requiredWorkflow.getD false

section
variable (w : World)

def World.remember (r : Resource) (change : Memory → Memory) : World :=
  { w with memory := fun s => if s = r then change (w.memory s) else w.memory s }

-- `Adapter::restore`: bound and orphaned namespaces with a binding.
def World.restore (n : NamespaceRecord) : World :=
  match n.binding with
  | some binding =>
    if Held n then (w.remember binding.resource (·.register binding)).remember n.resource (·.restoreGuard n) else w
  | none => w

-- A transaction that expects the record of a bound namespace.
def World.updateBound (id : Bytes) (change : NamespaceRecord → NamespaceRecord) : World :=
  { w with
    namespaces := w.namespaces.update id (·.map change)
    panicked := w.panicked || (w.namespaces.lookup id).isNone }

def World.updateRepo (key : RepoKey) (change : Option RepoRecord → Option RepoRecord) : World :=
  { w with repos := w.repos.update key change }

-- The store and the adapter's memory: one answer, at once.
def World.answer : (q : Query) → Option (q.Answer × World)
  | .getNamespace id => some (w.namespaces.lookup id,w)
  | .sameOwner new => some ((w.namespaces.rows.map (·.2)).filter (Earlier · new),w)
  | .retire id => some ((),{ w with retired := id :: w.retired })
  | .deleteNamespace id => some ((),{ w with namespaces := w.namespaces.erase id })
  | .putNamespace id n => some ((),{ w with namespaces := w.namespaces.insert id n })
  | .manageNamespace id forgeId =>
    some ((w.namespaces.lookup id).map fun n => insert forgeId n.managed,
      { w.updateBound id fun n => { n with managed := insert forgeId n.managed } with
        recorded := insert forgeId w.recorded })
  | .persist id pin managed =>
    some ((w.namespaces.lookup id).isSome,w.updateBound id (persisted pin managed))
  | .changeCapability id capability available =>
    some ((w.namespaces.lookup id).isSome,w.updateBound id (withCapability capability available))
  | .unmanage id forgeId =>
    some ((w.namespaces.lookup id).isSome,w.updateBound id fun n => { n with managed := n.managed.erase forgeId })
  | .getRepo key => some (w.repos.lookup key,w)
  | .listRepos => some (w.repos.rows,w)
  | .moveRepo key ns => some ((w.repos.lookup key).map (moved ns),w.updateRepo key (·.map (moved ns)))
  | .manageRepo ns key resource owners => some ((),w.updateRepo key fun r => some (managedRecord ns resource key.2 owners r))
  | .recordCheck key check =>
    some ((),{ w.updateRepo key (·.map fun r => { r with requiredCheck := some check }) with
      bootstrapped := insert key.2 w.bootstrapped })
  | .recordRoles ns key resource roles owners effective =>
    some ((),w.updateRepo key fun r => some (projectedRecord ns resource key.2 roles owners effective r))
  | .recordArchived key => some ((),w.updateRepo key (·.map fun r => { r with archived := true }))
  | .recordGuard key guard => some ((),w.updateRepo key (·.map fun r => { r with guard := some guard }))
  | .memory r => some (w.memory r,w)
  | .setManaged r managed => some ((),w.remember r fun m => { m with managed := some managed })
  | .addManaged r forgeId => some ((),w.remember r fun m => { m with managed := some (insert forgeId (m.managed.getD ∅)) })
  | .dropManaged r forgeId => some ((),w.remember r fun m => { m with managed := m.managed.map (·.erase forgeId) })
  | .setRequiredWorkflow r available => some ((),w.remember r fun m => { m with requiredWorkflow := some available })
  | .setPin r pin => some ((),w.remember r fun m => { m with pin := some pin })
  | .restore n => some ((),w.restore n)
  | .forge _ => none

def World.archive (forgeId : Nat) : World :=
  { w with archived := insert forgeId w.archived, recorded := w.recorded.erase forgeId }

def World.rule (ids : Finset Nat) : World := { w with missed := w.missed ∪ ((w.bootstrapped \ w.archived) \ ids) }

end

-- Requests that change nothing of this state, whatever they answer.
def Request.Free : Request → Prop
  | .repository _ | .inspect _ | .create _ | .patchArchived _ | .writeRuleset _ _ _ _ _ => False
  | _ => True

-- Any request may fail; one that changes something may do so and then fail. A
-- name stands for the same repository throughout.
inductive Served : (q : Query) → World → q.Answer → World → Prop
  | at_once {q : Query} {r : q.Answer} (answered : w.answer q = some (r,u)) : Served q w r u
  | free {request : Request} {value : request.Value} (free : request.Free) : Served (.forge request) w (.ok value) w
  | repository (there : w.ids repo = some forgeId) :
      Served (.forge (.repository repo)) w (.ok (forgeId,decide (forgeId ∈ w.archived))) w
  | inspect (there : w.ids repo = some forgeId) (here : w.ids resource = some forgeId) :
      Served (.forge (.inspect repo)) w (.ok ⟨resource,forgeId,decide (forgeId ∈ w.archived),shown⟩) w
  | create (new : w.ids repo = none) (fresh : forgeId ∉ w.archived) :
      Served (.forge (.create repo)) w (.ok ⟨repo,forgeId,false,shown⟩)
        { w with ids := fun r => if r = repo then some forgeId else w.ids r }
  | createThenFailed (new : w.ids repo = none) (fresh : forgeId ∉ w.archived) :
      Served (.forge (.create repo)) w (.error e) { w with ids := fun r => if r = repo then some forgeId else w.ids r }
  | patchArchived (there : w.ids repo = some forgeId) : Served (.forge (.patchArchived repo)) w (.ok ()) (w.archive forgeId)
  | patchThenFailed (there : w.ids repo = some forgeId) : Served (.forge (.patchArchived repo)) w (.error e) (w.archive forgeId)
  | ruled : Served (.forge (.writeRuleset existing central sha branch ids)) w (.ok (.ok rule)) (w.rule ids)
  | ruledThenFailed : Served (.forge (.writeRuleset existing central sha branch ids)) w (.error e) (w.rule ids)
  | refused : Served (.forge (.writeRuleset existing central sha branch ids)) w (.ok (.error refusal)) w
  | failed {request : Request} : Served (.forge request) w (.error e) w

-- A forge that answers, but for the requests that fail and change nothing.
structure Script where
  fails : Request → Bool := fun _ => false
  refuses : Bool := false
  bound : Bound := ⟨true,some 7,some 5,some true⟩
  fresh : Nat := 0

namespace Sample

def sha : Bytes := List.replicate 40 97
def ruleset : OrgRuleset := ⟨1,fun _ => some sha,List.range 9,true,fun _ _ _ => []⟩
def outage : ForgeError := .unavailable []

end Sample

-- What the requests that change nothing answer.
def Request.shown (script : Script) : (request : Request) → Option request.Value
  | .token => some ()
  | .central => some ⟨99,none⟩
  | .orgRuleset => some none
  | .rulesetById _ => some (some Sample.ruleset)
  | .fileAt _ => some (some ([1],[]))
  | .headCommit _ => some Sample.sha
  | .putWorkflow _ _ _ _ => some Sample.sha
  | .protectCentral => some .unchanged
  | .step _ _ => some .updated
  | .applyRoles _ _ => some ⟨.applied,none,none⟩
  | .completeBind _ => some script.bound
  | _ => none

-- The request carried out: what it answers, and what the forge then is.
def World.carried (script : Script) (w : World) : (request : Request) → Option (request.Value × World)
  | .repository repo => (w.ids repo).map fun id => ((id,decide (id ∈ w.archived)),w)
  | .inspect repo => (w.ids repo).map fun id => (⟨repo,id,decide (id ∈ w.archived),[]⟩,w)
  | .create repo =>
    if w.ids repo = none ∧ script.fresh ∉ w.archived then
      some (⟨repo,script.fresh,false,[]⟩,{ w with ids := fun r => if r = repo then some script.fresh else w.ids r })
    else none
  | .patchArchived repo => (w.ids repo).map fun id => ((),w.archive id)
  | .writeRuleset _ _ _ _ ids => if script.refuses then some (.error ⟨[]⟩,w) else some (.ok 1,w.rule ids)
  | request => (request.shown script).map fun value => (value,w)

def World.scripted (script : Script) : (q : Query) → World → Option (q.Answer × World)
  | .forge request,w =>
    if script.fails request then some (.error Sample.outage,w)
    else (w.carried script request).map fun done => (.ok done.1,done.2)
  | q,w => w.answer q

variable {w u : World}

theorem carried_served {script : Script} {request : Request} {value : request.Value}
    (carried : w.carried script request = some (value,u)) : Served (.forge request) w (.ok value) u := by
  cases request with
  | repository repo =>
    obtain ⟨id,there,same⟩ := Option.map_eq_some_iff.mp carried
    cases same
    exact .repository there
  | inspect repo =>
    obtain ⟨id,there,same⟩ := Option.map_eq_some_iff.mp carried
    cases same
    exact .inspect there there
  | create repo =>
    obtain ⟨new,same⟩ := Option.ite_none_right_eq_some.mp carried
    cases same
    exact .create new.1 new.2
  | patchArchived repo =>
    obtain ⟨id,there,same⟩ := Option.map_eq_some_iff.mp carried
    cases same
    exact .patchArchived there
  | writeRuleset existing central sha branch ids =>
    by_cases refuses : script.refuses = true
    · simp only [World.carried,refuses,if_true] at carried
      cases carried
      exact .refused
    · simp only [World.carried,refuses] at carried
      cases carried
      exact .ruled
  | _ =>
    simp only [World.carried,Option.map_eq_some_iff] at carried
    obtain ⟨there,_,same⟩ := carried
    cases same
    refine .free ?_
    trivial

theorem scripted_served {script : Script} (q : Query) (w : World) (a : q.Answer) (u : World)
    (answered : w.scripted script q = some (a,u)) : Served q w a u := by
  cases q with
  | forge request =>
    by_cases fails : script.fails request = true
    · simp only [World.scripted,fails,if_true] at answered
      cases answered
      exact .failed
    · simp only [World.scripted,fails] at answered
      obtain ⟨done,carried,same⟩ := Option.map_eq_some_iff.mp answered
      cases same
      exact carried_served carried
  | _ => exact .at_once answered

end VerifiableGit.Guard
