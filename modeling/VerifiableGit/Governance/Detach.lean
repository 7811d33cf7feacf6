import VerifiableGit.Library.Table
import VerifiableGit.Resign.Keys
import VerifiableGit.Governance.Records

-- The bridge's repository and namespace tables, and how a repository leaves
-- them (events.rs).
namespace VerifiableGit.Governance
open Text Library

-- What the bridge has to say to the VTC.
inductive Sent where
  | repoCreatedUnmanaged (forgeId : Nat) (resource : Resource)
  | repoDeleted (forgeId : Nat) (resource : Resource)
  | repoRenamed (forgeId : Nat) (before after : Resource)
  | repoTransferred (forgeId : Nat) (before after : Resource)
  | roleChanged (forgeId : Nat) (resource : Resource) (account : ForgeAccount) (role : Option ForgeRole)
  | protectionChanged (forgeId : Nat) (resource : Resource) (requiredCheck : Bool)
  | pullRequestOpened (forgeId : Nat) (resource : Resource) (number : Nat) (reopened : Bool)
  | installationRemoved
deriving DecidableEq

-- `repo_key`
abbrev RepoKey := Bytes × Nat

structure Store where
  repos : Table RepoKey RepoRecord := ∅
  namespaces : Table Bytes NamespaceRecord := ∅
  branches : Resign.Branches := ∅
  -- webhook delivery ids already handled
  deliveries : List Bytes := []
  sent : List (Bytes × Sent) := []

def RepoRecord.key (r : RepoRecord) : RepoKey := (r.resource.host,r.forgeId)

def Store.record (s : Store) (host : Bytes) (forgeId : Nat) : Option RepoRecord := s.repos.lookup (host,forgeId)

def Store.namespaceRecord (s : Store) (ns : Bytes) : Option NamespaceRecord := s.namespaces.lookup ns

def Store.updateRecord (s : Store) (key : RepoKey) (f : RepoRecord → RepoRecord) : Store :=
  { s with repos := s.repos.update key (·.map f) }

def Store.report (s : Store) (ns : Bytes) (event : Sent) : Store := { s with sent := s.sent ++ [(ns,event)] }

-- Whose deliveries these are: of an App's owner, or of a whole Forgejo host.
structure Scope where
  host : Bytes
  owner : Option Bytes

def Scope.covers (scope : Scope) (r : Resource) : Bool :=
  r.host = scope.host && scope.owner.all fun owner => sameIgnoringCase r.owner owner

-- The namespace-level repository of the required workflow.
def namespaceRepo (r : Resource) : Bool := r.repoName.getD [] = ascii ".vgi"

def Store.namespaceIn (s : Store) (scope : Scope) (r : Resource) : Option NamespaceRecord :=
  if scope.covers r then
    (s.namespaces.rows.map (·.2)).find? fun n =>
      n.state = .bound && n.resource.contains r && scope.covers n.resource
  else none

-- Never a record of another namespace, whatever id a delivery names.
def Store.repoIn (s : Store) (ns : NamespaceRecord) (forgeId : Nat) : Option RepoRecord :=
  (s.record ns.resource.host forgeId).filter (·.ns = ns.id)

def Store.claimedElsewhere (s : Store) (ns : NamespaceRecord) (forgeId : Nat) : Bool :=
  (s.record ns.resource.host forgeId).any (·.ns ≠ ns.id) ||
    (s.namespaces.rows.map (·.2)).any fun n =>
      n.id ≠ ns.id && n.resource.host = ns.resource.host && forgeId ∈ n.managed

def unmanage (forgeId : Nat) (n : NamespaceRecord) : NamespaceRecord := { n with managed := n.managed.erase forgeId }

-- The record, its place in every managed set, and the ledgers kept for it.
def Store.detach (s : Store) (host : Bytes) (forgeId : Nat) : Store :=
  { s with
    repos := s.repos.erase (host,forgeId)
    namespaces := s.namespaces.each
      (s.namespaces.keysWhere fun _ n => n.resource.host = host && forgeId ∈ n.managed) (·.map (unmanage forgeId))
    branches := Resign.detach (Resign.ledgerPrefix host forgeId) s.branches }

def Store.detachFrom (s : Store) (ns : NamespaceRecord) (forgeId : Nat) : Option Store :=
  if s.claimedElsewhere ns forgeId then none else some (s.detach ns.resource.host forgeId)

def Store.staleAt (s : Store) (ns : Bytes) (resource : Resource) (forgeId : Nat) : List RepoRecord :=
  (s.repos.rows.map (·.2)).filter fun r => r.ns = ns && r.resource = resource && r.forgeId ≠ forgeId

def Store.detachReusedName (s : Store) (ns : Bytes) (resource : Resource) (forgeId : Nat) : Store :=
  (s.staleAt ns resource forgeId).foldl (fun s r => s.detach resource.host r.forgeId) s

def Store.reportUnmanaged (s : Store) (ns : NamespaceRecord) (resource : Resource) (forgeId : Nat) : Store :=
  if namespaceRepo resource || (s.repoIn ns forgeId).isSome then s
  else (s.detachReusedName ns.id resource forgeId).report ns.id (.repoCreatedUnmanaged forgeId resource)

def sameOwner (ns : NamespaceRecord) : Scope := ⟨ns.resource.host,some (ns.resource.owner.map lower)⟩

def Store.transferredOut (s : Store) (fromNs : NamespaceRecord) (before after : Resource) (forgeId : Nat) : Store :=
  match s.detachFrom fromNs forgeId with
  | none => s
  | some s =>
    if namespaceRepo before then s
    else
      let s := s.report fromNs.id (.repoTransferred forgeId before after)
      -- The receiving side, only when it is the same owner's.
      match s.namespaceIn (sameOwner fromNs) after with
      | some toNs => if toNs.id ≠ fromNs.id then s.reportUnmanaged toNs after forgeId else s
      | none => s

end VerifiableGit.Governance
