import VerifiableGit.Bridge.Remote

-- The local store with the in-memory half of VTA mode beside it, and what the
-- two answer to one locked access.
namespace VerifiableGit.Bridge
open VerifiableGit.Text

-- One pending change: what the next mirror pass writes.
inductive Dirty where
  | record (table : Table) (key : Bytes)
  | secret (name : Bytes)
  deriving DecidableEq

def Dirty.remoteKey : Dirty → Bytes
  | .record table key => stateKey table key
  | .secret name => secretKey name

def Dirty.isMirrored : Dirty → Bool
  | .record table key => recordIsMirrored table key
  | .secret name => secretIsMirrored name

-- `records` is the redb file without its mirror table, which is `mirrored`; the
-- two outlive the process, the rest does not.
structure Host where
  records : Map (Table × Bytes) Value
  mirrored : Map Bytes Nat
  secrets : Map Bytes Bytes
  dirty : Finset Dirty
  inFlight : Nat
  versions : Map Bytes Nat
  conflicts : Nat

namespace Host

def empty : Host := ⟨∅,∅,∅,∅,0,∅,0⟩

-- A new mirror over the same file.
def reopened (host : Host) : Host := { empty with records := host.records, mirrored := host.mirrored }

def mark (host : Host) (d : Dirty) : Host := { host with dirty := insert d host.dirty }

def pending (host : Host) : Nat := host.dirty.card + host.inFlight

def getRaw (host : Host) (table : Table) (key : Bytes) : Option Value := host.records.lookup (table,key)

def putCached (host : Host) (table : Table) (key : Bytes) (value : Value) : Host :=
  { host with records := host.records.insert (table,key) value }

def deleteCached (host : Host) (table : Table) (key : Bytes) : Host :=
  { host with records := host.records.erase (table,key) }

def putMirror (host : Host) (key : Bytes) (version : Nat) : Host :=
  { host with mirrored := host.mirrored.insert key version }

def deleteMirror (host : Host) (key : Bytes) : Host :=
  { host with mirrored := host.mirrored.erase key }

end Host

inductive StoreOp where
  | put (table : Table) (key : Bytes) (value : Value)
  | putNew (table : Table) (key : Bytes) (value : Value)
  | update (table : Table) (key : Bytes) (f : Option Value → Option Value)
  | delete (table : Table) (key : Bytes)
  | putSecret (name : Bytes) (value : Bytes)
  | deleteSecret (name : Bytes)

def touched (table : Table) (key : Bytes) : Option Dirty :=
  if recordIsMirrored table key then some (.record table key) else none

def touchedSecret (name : Bytes) : Option Dirty :=
  if secretIsMirrored name then some (.secret name) else none

-- The change a store operation commits, and what it marks after that.
def Host.commit (host : Host) : StoreOp → Host × Option Dirty
  | .put table key value => (host.putCached table key value,touched table key)
  | .putNew table key value =>
    if (host.getRaw table key).isSome then (host,none)
    else (host.putCached table key value,touched table key)
  | .update table key f =>
    match f (host.getRaw table key) with
    | some value => (host.putCached table key value,touched table key)
    | none => (host.deleteCached table key,touched table key)
  | .delete table key =>
    (host.deleteCached table key,
      if (host.getRaw table key).isSome then touched table key else none)
  | .putSecret name value =>
    ({ host with secrets := host.secrets.insert name value },touchedSecret name)
  | .deleteSecret name =>
    ({ host with secrets := host.secrets.erase name },
      if (host.secrets.lookup name).isSome then touchedSecret name else none)

-- One access of the mirror or the store, under its lock. A pass reads a secret
-- twice; `again` tells the second read.
inductive HostQuery where
  | dirtyIsEmpty
  | takeBatch
  | putBack (item : Dirty)
  | landed
  | getRaw (table : Table) (key : Bytes)
  | secret (again : Bool) (name : Bytes)
  | seen (key : Bytes)
  | remember (key : Bytes) (version : Nat)
  | forget (key : Bytes)
  | putMirror (key : Bytes) (version : Nat)
  | deleteMirror (key : Bytes)
  | conflict

abbrev HostQuery.Answer : HostQuery → Type
  | .dirtyIsEmpty => Bool
  | .takeBatch => List Dirty
  | .getRaw _ _ => Option Value
  | .secret _ _ => Option Bytes
  | .seen _ => Option Nat
  | _ => Unit

-- The batch is taken and counted in flight under one lock; in which order the
-- set hands it out is left open.
def Host.Serves (host : Host) : (q : HostQuery) → q.Answer → Host → Prop
  | .dirtyIsEmpty,r,after => r = decide (host.dirty = ∅) ∧ after = host
  | .takeBatch,r,after => r.Nodup ∧ r.toFinset = host.dirty ∧
      after = { host with dirty := ∅, inFlight := host.inFlight + r.length }
  | .putBack item,_,after => after = host.mark item
  | .landed,_,after => after = { host with inFlight := host.inFlight - 1 }
  | .getRaw table key,r,after => r = host.getRaw table key ∧ after = host
  | .secret _ name,r,after => r = host.secrets.lookup name ∧ after = host
  | .seen key,r,after => r = host.versions.lookup key ∧ after = host
  | .remember key version,_,after =>
      after = { host with versions := host.versions.insert key version }
  | .forget key,_,after => after = { host with versions := host.versions.erase key }
  | .putMirror key version,_,after => after = host.putMirror key version
  | .deleteMirror key,_,after => after = host.deleteMirror key
  | .conflict,_,after => after = { host with conflicts := host.conflicts + 1 }

theorem remoteKey_inj {d e : Dirty} (same : d.remoteKey = e.remoteKey) : d = e := by
  cases d with
  | record table key =>
    cases e with
    | record other name =>
      obtain ⟨rfl,rfl⟩ := stateKey_inj same
      rfl
    | secret name => exact absurd same state_not_secret
  | secret key =>
    cases e with
    | record other name => exact absurd same.symm state_not_secret
    | secret name => exact congrArg Dirty.secret (secretKey_inj same)

theorem remoteKey_not_lease (d : Dirty) : d.remoteKey ≠ leaseKey := by
  cases d with
  | record table key => exact state_not_lease
  | secret name => exact secret_not_lease

theorem touched_exact {table : Table} {key : Bytes} {d : Dirty} :
    touched table key = some d ↔ d = .record table key ∧ d.isMirrored := by
  unfold touched
  split
  · rename_i mirrored
    constructor
    · intro same
      cases same
      exact ⟨rfl,mirrored⟩
    · rintro ⟨rfl,_⟩
      rfl
  · rename_i other
    constructor
    · intro same
      cases same
    · rintro ⟨rfl,mirrored⟩
      exact absurd mirrored other

theorem touchedSecret_exact {name : Bytes} {d : Dirty} :
    touchedSecret name = some d ↔ d = .secret name ∧ d.isMirrored := by
  unfold touchedSecret
  split
  · rename_i mirrored
    constructor
    · intro same
      cases same
      exact ⟨rfl,mirrored⟩
    · rintro ⟨rfl,_⟩
      rfl
  · rename_i other
    constructor
    · intro same
      cases same
    · rintro ⟨rfl,mirrored⟩
      exact absurd mirrored other

end VerifiableGit.Bridge
