import VerifiableGit.Governance.Detach
import VerifiableGit.Governance.Model

-- Inspecting a repository: what the forge shows against what the bridge holds
-- (jobs.rs).
namespace VerifiableGit.Governance
open Text Library

-- What the forge says of a repository under its owner and name.
structure ForgeRepo where
  owner : Bytes
  name : Bytes
  id : Nat
  visibility : Visibility := .public_
  archived : Bool := false
  collaborators : List Collaborator := []
  protection : ProtectionState := {}

-- The adapter puts its own host before the name, and lowers it.
def ForgeRepo.resource (r : ForgeRepo) (ns : Resource) : Resource :=
  { ns with owner := r.owner.map lower, rest := [r.name.map lower] }

def repoState (ns : Resource) (r : ForgeRepo) : RepoState where
  resource := r.resource ns
  forgeId := r.id
  visibility := r.visibility
  archived := r.archived
  collaborators := r.collaborators
  protection := r.protection

structure Vgi where
  requiredCheck : Bytes
  requiredApprovals : UInt8

-- What the drift comes to: whether every gap still leaves the check enforced,
-- the guard in force, and the digest of the drift and the guard.
structure Judged where
  enforced : Bool
  guard : Bytes
  digest : Bytes

-- The bridge's configuration and adapters. `judge` is the adapter's `diff` with
-- its hook, without the role drift when no roles were projected.
structure Setup where
  serves : Resource → Bool
  github : Resource → Bool
  vgi : Resource → Option Vgi
  judge : RepoState → Projection → Bool → Judged

def projection (setup : Setup) (ns : NamespaceRecord) (state : RepoState) (record : Option RepoRecord) : Projection :=
  match record with
  | none => { resource := state.resource }
  | some r =>
    { resource := r.resource
      forgeId := some r.forgeId
      roles := r.roles
      owners := r.owners
      archived := r.archived
      requiredCheck := r.requiredCheck.or ((setup.vgi ns.resource).map (·.requiredCheck))
      requiredApprovals := ((setup.vgi ns.resource).map (·.requiredApprovals)).getD 0 }

def Store.recordGuard (s : Store) (key : RepoKey) (guard : Bytes) : Store :=
  s.updateRecord key fun r => { r with guard := some guard }

def Store.recordDrift (s : Store) (key : RepoKey) (digest : Bytes) : Store :=
  s.updateRecord key fun r => { r with lastDrift := some digest }

-- A rename, or a name another repository had, found by an inspection.
def Store.settleName (s : Store) (ns : NamespaceRecord) (state : RepoState) : Store :=
  match s.record ns.resource.host state.forgeId with
  | none =>
    if s.staleAt ns.id state.resource state.forgeId = [] then s
    else (s.detachReusedName ns.id state.resource state.forgeId).reportUnmanaged ns state.resource state.forgeId
  | some r =>
    if r.resource = state.resource then s
    else
      let s := s.detachReusedName ns.id state.resource state.forgeId
      let s := s.report ns.id (.repoRenamed state.forgeId r.resource state.resource)
      s.updateRecord r.key fun x => { x with resource := state.resource }

-- What the repository was compared with, and whether the check is enforced.
structure Compared where
  repo : Resource × Nat
  record : Option RepoRecord
  projection : Projection
  enforced : Bool

-- A change of guard alone is news too: the digest is of both.
def Store.noteDrift (s : Store) (ns : Bytes) (always : Bool) (r : RepoRecord) (state : RepoState) (judged : Judged)
    (enforced : Bool) : Store :=
  let s := s.recordGuard r.key judged.guard
  if always || r.lastDrift ≠ some judged.digest then
    (s.report ns (.protectionChanged state.forgeId state.resource enforced)).recordDrift r.key judged.digest
  else s

def Store.compare (s : Store) (setup : Setup) (ns : NamespaceRecord) (always : Bool) (state : RepoState) :
    Store × Compared :=
  let record := s.record ns.resource.host state.forgeId
  let proj := projection setup ns state record
  let judged := setup.judge state { proj with resource := state.resource } (record.any (·.rolesKnown))
  let enforced := judged.enforced && proj.requiredCheck.isSome
  let s := match record with
    | none => s
    | some r => s.noteDrift ns.id always r state judged enforced
  (s,⟨(state.resource,state.forgeId),record,proj,enforced⟩)

def Store.inspectRepo (s : Store) (setup : Setup) (ns : NamespaceRecord) (always : Bool) (state : RepoState) :
    Store × Option Compared :=
  if ns.resource.contains state.resource then
    let (s,compared) := (s.settleName ns state).compare setup ns always state
    (s,some compared)
  else
    -- Transferred without an event reaching the bridge.
    match s.record ns.resource.host state.forgeId with
    | some r =>
      if ns.resource.contains r.resource then
        (s.transferredOut ns r.resource state.resource state.forgeId,none)
      else (s,none)
    | none => (s,none)

-- The repositories the namespace records, each asked for by its name.
def Store.sweepList (s : Store) (ns : Bytes) : List RepoRecord :=
  (s.repos.rows.map (·.2)).filter fun r => r.ns = ns && !r.archived

-- The answers come in the order of the questions.
def sweepFrom (setup : Setup) (ns : NamespaceRecord) (always : Bool) (inspect : Nat → Resource → Except ForgeError ForgeRepo) :
    Nat → List RepoRecord → Store → Store × List Compared × List Bytes
  | _,[],s => (s,[],[])
  | n,r :: rest,s =>
    match inspect n r.resource with
    | .error e =>
      let (s,compared,failures) := sweepFrom setup ns always inspect (n + 1) rest s
      (s,compared,(r.resource.asStr ++ ascii ": " ++ e.text) :: failures)
    | .ok repo =>
      let (s,one) := s.inspectRepo setup ns always (repoState ns.resource repo)
      let (s,compared,failures) := sweepFrom setup ns always inspect (n + 1) rest s
      (s,one.toList ++ compared,failures)

end VerifiableGit.Governance
