import VerifiableGit.Governance.Roles
import VerifiableGit.Library.Table
import Mathlib.Data.List.Sort

-- What the running bridge keeps (store.rs): the job ledger, the namespaces and
-- repositories, the flows waiting for a person, and the outbox.
namespace VerifiableGit.Service
open Text Library
open Governance (Resource NamespaceRecord NamespaceState RepoRecord ForgeAccount ForgeRole RoleMap
  Report StepStatus)

-- A job's kind with the members `check_kind_members` lets it have. A resource is
-- what `Resource::parse` or `Resource::namespace_of` makes of the text.
inductive JobKind where
  | projectRoles (repo : Except Bytes Resource)
  | createRepo (repo : Except Bytes Resource)
  | bootstrap (repo : Except Bytes Resource)
  | archive (repo : Except Bytes Resource)
  | inspect (repo : Option (Except Bytes Resource))
  | closePullRequest (repo : Except Bytes Resource) (number : Nat)
  | beginBind (target : Except Bytes Resource)
  | beginAccountLink (subject : Bytes)
deriving DecidableEq

def JobKind.text : JobKind → Bytes
  | .projectRoles _ => ascii "projectRoles"
  | .createRepo _ => ascii "createRepo"
  | .bootstrap _ => ascii "bootstrap"
  | .archive _ => ascii "archive"
  | .inspect _ => ascii "inspect"
  | .closePullRequest _ _ => ascii "closePullRequest"
  | .beginBind _ => ascii "beginBind"
  | .beginAccountLink _ => ascii "beginAccountLink"

def JobKind.repo : JobKind → Option (Except Bytes Resource)
  | .projectRoles r | .createRepo r | .bootstrap r | .archive r | .closePullRequest r _ => some r
  | .inspect r => r
  | .beginBind _ | .beginAccountLink _ => none

structure RemoveAccount where
  forge : Bytes
  id : Bytes
deriving DecidableEq

structure JobPayload where
  jobId : Bytes
  ns : Bytes
  kind : JobKind
  removeAccounts : List RemoveAccount := []
deriving DecidableEq

inductive JobState where
  | queued | running | waiting | finished
deriving DecidableEq

-- The job response's `next`.
structure Next where
  url : Bytes
  userCode : Option Bytes := none
  expiresAt : Int
deriving DecidableEq

-- A result as it is sent; `ext` is the status report attached to it.
structure ResultPayload where
  jobId : Bytes
  steps : List (Governance.StepLine Bytes Bytes)
  error : Option (Bytes × Bytes)
  ext : Option Bytes
deriving DecidableEq

structure JobRecord where
  jobId : Bytes
  digest : Bytes
  ns : Bytes
  kind : Bytes
  payload : Option JobPayload
  state : JobState
  next : Option Next := none
  result : Option ResultPayload := none
  receivedAt : Int
  issuedAt : Option Int := none
  finishedAt : Option Int := none
deriving DecidableEq

def JobRecord.queued (jobId digest ns kind : Bytes) (payload : JobPayload) (receivedAt : Int) : JobRecord :=
  { jobId := jobId, digest := digest, ns := ns, kind := kind, payload := some payload, state := .queued,
    receivedAt := receivedAt }

def pendingNamespace (id : Bytes) (resource : Resource) : NamespaceRecord :=
  { id := id, resource := resource, state := .pending }

structure RetiredNamespace where
  resource : Resource
  supersededBy : Bytes
  retiredAt : Int
deriving DecidableEq

structure DevicePoll where
  interval : Nat
  expiresIn : Nat
deriving DecidableEq

inductive PendingFlow where
  | bind (jobId ns : Bytes) (resource : Resource) (expiresAt : Int)
  | link (jobId ns host member : Bytes) (expiresAt : Int) (device : Option DevicePoll)
  | manifest (host : Bytes) (owner : Option Bytes) (expiresAt : Int)
deriving DecidableEq

def PendingFlow.expiresAt : PendingFlow → Int
  | .bind _ _ _ at_ | .link _ _ _ _ at_ _ | .manifest _ _ at_ => at_

def PendingFlow.jobId : PendingFlow → Option Bytes
  | .bind job _ _ _ | .link job _ _ _ _ _ => some job
  | .manifest _ _ _ => none

inductive EventBody where
  | bindCompleted (jobId ownerId kind : Bytes) (supersedes : List Bytes)
  | accountLinked (jobId : Bytes) (account : ForgeAccount)
  | repoCreatedUnmanaged (forgeId : Nat) (resource : Resource)
  | roleMapReported (roleMap : RoleMap) (ladder : List ForgeRole) (repos : List (Resource × RoleMap))
      (stale : List Resource)
  -- any other event, with the resources it names; `none` is one that does not parse
  | other (type : Bytes) (names : List (Option Resource))
deriving DecidableEq

def EventBody.names : EventBody → List (Option Resource)
  | .bindCompleted _ _ _ _ | .accountLinked _ _ => []
  | .repoCreatedUnmanaged _ r => [some r]
  | .roleMapReported _ _ repos stale => repos.map (fun r => some r.1) ++ stale.map some
  | .other _ names => names

-- What a namespace's role map is reported with.
structure RoleMapReport where
  roleMap : RoleMap
  ladder : List ForgeRole
  repos : List (Resource × RoleMap)
  stale : List Resource

def RoleMapReport.event (r : RoleMapReport) : EventBody := .roleMapReported r.roleMap r.ladder r.repos r.stale

def EventBody.isRoleMap : EventBody → Bool
  | .roleMapReported _ _ _ _ => true
  | _ => false

structure EventPayload where
  ns : Bytes
  event : EventBody
  -- the resource of each drift item
  drift : List (Option Resource) := []
  ext : Option Bytes
deriving DecidableEq

-- The kind of an outbox entry with its payload.
inductive Content where
  | result (payload : ResultPayload)
  | event (payload : EventPayload)
deriving DecidableEq

structure OutboxEntry where
  content : Content
  docIds : List Bytes := []
  lastSent : Int := 0
  attempts : Nat := 0
deriving DecidableEq

-- `result:<job>`, `event:<id>` and `event:roleMap:<namespace>`.
inductive OutboxKey where
  | result (jobId : Bytes)
  | event (id : Bytes)
  | roleMap (ns : Bytes)
deriving DecidableEq

def OutboxKey.text : OutboxKey → Bytes
  | .result id => ascii "result:" ++ id
  | .event id => ascii "event:" ++ id
  | .roleMap ns => ascii "event:roleMap:" ++ ns

def OutboxKey.isRoleMap : OutboxKey → Bool
  | .roleMap _ => true
  | _ => false

def before : Bytes → Bytes → Bool
  | [],_ => true
  | _ :: _,[] => false
  | a :: x,b :: y => a < b || (a = b && before x y)

-- A listing comes in the order of the keys.
def listed (text : κ → Bytes) (rows : List (κ × β)) : List (κ × β) :=
  rows.insertionSort fun a b => before (text a.1) (text b.1)

@[simp] theorem mem_listed (text : κ → Bytes) (rows : List (κ × β)) (row : κ × β) :
    row ∈ listed text rows ↔ row ∈ rows :=
  (List.perm_insertionSort _ rows).mem_iff

end VerifiableGit.Service
