import Mathlib.Data.Finset.Basic
import VerifiableGit.Text

-- What the bridge keeps of repositories and namespaces (store.rs), and the
-- forge-neutral types in it (vgi-forge).
namespace VerifiableGit.Governance
open Text

def lower (b : UInt8) : UInt8 := if 65 ≤ b ∧ b ≤ 90 then b + 32 else b

-- `eq_ignore_ascii_case`.
def sameIgnoringCase (a b : Bytes) : Bool := a.map lower = b.map lower

-- `host/owner` or `host/owner/repo`, cut at the slashes. A host is made of
-- letters, digits, `-` and `.`; what matters here is that it has no `#`.
structure Resource where
  host : Bytes
  owner : Bytes
  rest : List Bytes
  plain : 35 ∉ host := by decide
deriving DecidableEq

def Resource.asStr (r : Resource) : Bytes := r.rest.foldl (fun text segment => text ++ 47 :: segment) (r.host ++ 47 :: r.owner)

def Resource.isNamespace (r : Resource) : Bool := r.rest = []

def Resource.repoName (r : Resource) : Option Bytes := r.rest.getLast?

def Resource.contains (r other : Resource) : Bool :=
  r.host = other.host && r.owner = other.owner && r.rest.isPrefixOf other.rest

-- `name` is a segment of a resource, or empty.
def Resource.join (r : Resource) (name : Bytes) : Option Resource :=
  if r.isNamespace && name ≠ [] then some { r with rest := [name] } else none

inductive ForgeRole where
  | none | read | triage | write | maintain | admin
deriving DecidableEq

def ForgeRole.level : ForgeRole → Nat
  | .none => 0
  | .read => 1
  | .triage => 2
  | .write => 3
  | .maintain => 4
  | .admin => 5

structure ForgeAccount where
  id : Nat
  login : Bytes
deriving DecidableEq

structure RoleAssignment where
  account : ForgeAccount
  role : ForgeRole
deriving DecidableEq

structure RoleMap where
  own : ForgeRole
  maintain : ForgeRole
  commit : ForgeRole
deriving DecidableEq

structure LastCheck where
  sha : Bytes
  conclusion : Bytes
  at_ : Int
deriving DecidableEq

structure RepoRecord where
  ns : Bytes
  resource : Resource
  forgeId : Nat
  owners : List ForgeAccount := []
  roles : List RoleAssignment := []
  rolesKnown : Bool := false
  requiredCheck : Option Bytes := none
  archived : Bool := false
  lastDrift : Option Bytes := none
  guard : Option Bytes := none
  lastCheck : Option LastCheck := none
  roleMap : Option RoleMap := none
deriving DecidableEq

-- A repository the bridge created or bootstrapped.
def managedRecord (ns : Bytes) (resource : Resource) (forgeId : Nat) (owners : List ForgeAccount)
    (record : Option RepoRecord) : RepoRecord :=
  let r := record.getD { ns := ns, resource := resource, forgeId := forgeId }
  { r with resource := resource, owners := if owners = [] then r.owners else owners, archived := false }

-- One whose roles a job has projected.
def projectedRecord (ns : Bytes) (resource : Resource) (forgeId : Nat) (roles : List RoleAssignment)
    (owners : List ForgeAccount) (effective : Option RoleMap) (record : Option RepoRecord) : RepoRecord :=
  let r := record.getD { ns := ns, resource := resource, forgeId := forgeId }
  { r with
    roles := roles.filter (·.role ≠ .none)
    rolesKnown := true
    owners := owners
    roleMap := if effective.isSome then effective else r.roleMap }

-- One that passes to another namespace with its owner.
def RepoRecord.moved (ns : Bytes) (r : RepoRecord) : RepoRecord := { r with ns := ns, owners := [], lastDrift := none }

inductive NamespaceState where
  | pending | bound | orphaned
deriving DecidableEq

-- The owner on its forge: its numeric id and kind, and the App's installation.
structure Namespace where
  resource : Resource
  organization : Bool
  ownerId : Option Nat
  installationId : Option Nat
deriving DecidableEq

-- The pinned commit of the namespace's own repository, and its check.
structure Pin where
  repositoryId : Nat
  sha : Bytes
  check : Bytes
deriving DecidableEq

structure NamespaceRecord where
  id : Bytes
  resource : Resource
  state : NamespaceState := .pending
  binding : Option Namespace := none
  -- `required_workflow` of the capabilities found while binding
  capabilities : Option Bool := none
  requiredWorkflow : Option Bool := none
  pin : Option Pin := none
  managed : Finset Nat := ∅
  orphanedAt : Option Int := none
  removalWarnedAt : Option Int := none
deriving DecidableEq

namespace NamespaceRecord

def isBound (n : NamespaceRecord) : Bool := n.state = .bound && n.binding.isSome

def isOrphaned (n : NamespaceRecord) : Bool := n.state = .orphaned

-- Bound or orphaned.
def Held (n : NamespaceRecord) : Prop := n.state = .bound ∨ n.state = .orphaned

instance (n : NamespaceRecord) : Decidable (Held n) := inferInstanceAs (Decidable (_ ∨ _))

def ownerId (n : NamespaceRecord) : Option Nat := n.binding.bind (·.ownerId)

-- The owner of `n` is the owner of `new`, by its name or by its id.
def SameOwner (n new : NamespaceRecord) : Prop :=
  n.resource.host = new.resource.host ∧
    (n.resource = new.resource ∨ ((ownerId new).isSome ∧ ownerId n = ownerId new))

instance (n new : NamespaceRecord) : Decidable (SameOwner n new) := inferInstanceAs (Decidable (_ ∧ _))

-- The filter of `supersede`.
def Earlier (n new : NamespaceRecord) : Prop := n.id ≠ new.id ∧ Held n ∧ SameOwner n new

instance (n new : NamespaceRecord) : Decidable (Earlier n new) := inferInstanceAs (Decidable (_ ∧ _))

-- What passes from the earlier record to the new one.
def takeOver (new old : NamespaceRecord) : NamespaceRecord :=
  { new with
    managed := new.managed ∪ old.managed
    pin := new.pin.or old.pin
    requiredWorkflow := new.requiredWorkflow.or old.requiredWorkflow }

end NamespaceRecord

inductive ForgeError where
  | unauthorized (message : Bytes)
  | forbidden (message : Bytes)
  | notFound (what : Bytes)
  | alreadyExists (resource : Bytes) (forgeId : Option Nat)
  | rejected (status : Nat) (message : Bytes)
  | rateLimited (retryAfterSecs : Option Nat)
  | unavailable (message : Bytes)
  | config (message : Bytes)
  | protocol (message : Bytes)
deriving DecidableEq

def ForgeError.text : ForgeError → Bytes
  | .unauthorized m => ascii "forge rejected the credentials: " ++ m
  | .forbidden m => ascii "forge refused the operation: " ++ m
  | .notFound what => what ++ ascii ": not found (or not visible)"
  | .alreadyExists r (some id) => ascii "`" ++ r ++ ascii "` already exists (forge id " ++
      ascii (toString id) ++ ascii ")"
  | .alreadyExists r none => ascii "`" ++ r ++ ascii "` already exists"
  | .rejected status m => ascii "forge rejected the request (" ++ ascii (toString status) ++ ascii "): " ++ m
  | .rateLimited (some s) => ascii "rate-limited by the forge; retry in " ++ ascii (toString s) ++ ascii "s"
  | .rateLimited none => ascii "rate-limited by the forge"
  | .unavailable m => ascii "forge unavailable: " ++ m
  | .config m => ascii "configuration error: " ++ m
  | .protocol m => ascii "unexpected forge response: " ++ m

-- Credentials and rate limits.
def ForgeError.isFatal : ForgeError → Bool
  | .unauthorized _ | .rateLimited _ => true
  | _ => false

def errorCode : ForgeError → Bytes
  | .alreadyExists _ _ => ascii "nameTaken"
  | .notFound _ => ascii "notFound"
  | .forbidden _ | .unauthorized _ => ascii "forbidden"
  | .rateLimited _ => ascii "rateLimited"
  | _ => ascii "forgeError"

inductive StepOutcome where
  | unchanged | created | updated
deriving DecidableEq

inductive StepStatus where
  | applied | unchanged | failed | skipped
deriving DecidableEq

def StepStatus.rank : StepStatus → Nat
  | .unchanged => 0
  | .applied => 1
  | .skipped => 2
  | .failed => 3

-- A job's report as it accumulates (mapping.rs), its names, details and failures
-- as the code around it has them.
structure StepLine (N D : Type) where
  name : N
  status : StepStatus
  detail : Option D
deriving DecidableEq

structure StepReport (N D F : Type) where
  steps : List (StepLine N D) := []
  failure : Option F := none
deriving DecidableEq

section
variable {N D F : Type} [DecidableEq N]

-- A name reported twice keeps its worst status.
def merged (line : StepLine N D) : List (StepLine N D) → List (StepLine N D)
  | [] => [line]
  | first :: rest =>
    if first.name = line.name then
      (if first.status.rank < line.status.rank then { first with status := line.status, detail := line.detail } else first) :: rest
    else first :: merged line rest

def StepReport.step (r : StepReport N D F) (name : N) (status : StepStatus) (detail : Option D) : StepReport N D F :=
  { r with steps := merged ⟨name,status,detail⟩ r.steps }

-- A line that failed stays so.
theorem merged_failed (line : StepLine N D) (lines : List (StepLine N D)) (clear : ∀ l ∈ merged line lines, l.status ≠ .failed) :
    ∀ l ∈ lines, l.status ≠ .failed := by
  induction lines with
  | nil => exact List.forall_mem_nil _
  | cons first rest ih =>
    unfold merged at clear
    split at clear
    · obtain ⟨here,later⟩ := List.forall_mem_cons.mp clear
      refine List.forall_mem_cons.mpr ⟨fun failed => here ?_,later⟩
      have highest : ¬first.status.rank < line.status.rank := by
        rw [failed]
        cases line.status <;> decide
      rw [if_neg highest]
      exact failed
    · obtain ⟨here,later⟩ := List.forall_mem_cons.mp clear
      exact List.forall_mem_cons.mpr ⟨here,ih later⟩

def StepReport.append (r : StepReport N D F) (lines : List (StepLine N D)) : StepReport N D F :=
  lines.foldl (fun r line => r.step line.name line.status line.detail) r

end

-- The first failure is kept.
def StepReport.failed {N D F : Type} (r : StepReport N D F) (failure : F) : StepReport N D F :=
  { r with failure := r.failure.or (some failure) }

end VerifiableGit.Governance
