import VerifiableGit.Service.Bridge

-- A namespace's life after its binding (namespaces.rs).
namespace VerifiableGit.Service
open Text Library Library.Interaction
open Governance (Resource NamespaceRecord NamespaceState RepoRecord RepoKey)
open Governance.NamespaceRecord (takeOver)

def day : Int := 86400

def warnAhead : Int := 7 * day

def removalDue (n : NamespaceRecord) (days : Int) : Option Int :=
  if n.isOrphaned then some (n.orphanedAt.getD 0 + days * day) else none

def OutboxEntry.isEventOf (e : OutboxEntry) (ns : Bytes) : Bool :=
  match e.content with
  | .event p => p.ns = ns
  | .result _ => false

def dropEvents (ns : Bytes) : Code Unit := do
  let entries : List (OutboxKey × OutboxEntry) ← request .listEntries
  .each (fun e => if e.2.isEventOf ns then do let _ ← request (.deleteEntry e.1); pure () else pure ()) entries

-- `Bridge::orphan`
def orphanNamespace (ns : Bytes) : Code Unit := do
  let at_ : Int ← request .now
  let orphaned : Bool ← request (.orphan ns at_)
  if orphaned then dropEvents ns else pure ()

def deleteRepos (ns : Bytes) : Code Unit := do
  let repos : List (RepoKey × RepoRecord) ← request .listRepos
  .each (fun r => if r.2.ns = ns then do let _ ← request (.deleteRepo r.1); pure () else pure ()) repos

-- Refused for a namespace that is not orphaned.
def forget (ns : Bytes) : Code Unit := do
  let n : Option NamespaceRecord ← request (.getNamespace ns)
  match n with
  | none => pure ()
  | some n =>
    if n.isOrphaned then
      deleteRepos ns
      dropEvents ns
      let _ ← request (.deleteNamespace ns)
      pure ()
    else pure ()

def sweepOne (cfg : Cfg) (now : Int) (n : Bytes × NamespaceRecord) : Code Unit :=
  match removalDue n.2 cfg.orphanRetentionDays with
  | none => pure ()
  | some due =>
    if due ≤ now then do
      request (.lock n.1)
      forget n.1
      request (.unlock n.1)
    else if due - now ≤ warnAhead ∧ n.2.removalWarnedAt.all (fun w => day ≤ now - w) then
      request (.warnRemoval n.1 now)
    else pure ()

def sweepOrphaned (cfg : Cfg) : Code Unit := do
  let all : List (Bytes × NamespaceRecord) ← request .listNamespaces
  let now : Int ← request .now
  .each (sweepOne cfg now) all

def moveRepos (old new : Bytes) : Code (List RepoRecord) := do
  let repos : List (RepoKey × RepoRecord) ← request .listRepos
  .fold (fun done r =>
    if r.2.ns = old then do
      let moved : Option RepoRecord ← request (.moveRepo r.1 new)
      pure (done ++ moved.toList)
    else pure done) [] repos

structure Superseding where
  new : NamespaceRecord
  retired : List Bytes := []
  moved : List RepoRecord := []

-- Retired first, deleted last.
def supersedeOne (at_ : Int) (s : Superseding) (old : NamespaceRecord) : Code Superseding := do
  request (.retire old.id ⟨old.resource,s.new.id,at_⟩)
  let moved ← moveRepos old.id s.new.id
  dropEvents old.id
  let _ ← request (.deleteNamespace old.id)
  pure ⟨takeOver s.new old,s.retired ++ [old.id],s.moved ++ moved⟩

def supersede (new : NamespaceRecord) : Code Superseding := do
  let earlier : List NamespaceRecord ← request (.sameOwner new)
  let at_ : Int ← request .now
  let s ← .fold (supersedeOne at_) { new := new } earlier
  pure { s with retired := (listed id (s.retired.map fun r => (r,()))).map (·.1) }

end VerifiableGit.Service
