import Mathlib.Data.List.Sort
import VerifiableGit.Bridge.Lease

-- The mirror: one pass writing what is pending, and the pull of a start.
namespace VerifiableGit.Bridge.Mirror
open VerifiableGit.Text VerifiableGit.Library.Interaction

def u64Max : Nat := 2 ^ 64 - 1

-- The length of a value's JSON where its texts need no escapes, for runs.
def fieldLength : Field → Nat
  | .str text => text.length + 2
  | .int n => (toString n).length
  | .raw json => json.length

def jsonLength : Value → Nat
  | .object fields => max 2 (1 + (fields.map fun row => row.1.length + 4 + fieldLength row.2).sum)
  | .raw json => json.length

section
variable (seal_ : MasterKey) (size : Value → Nat)

-- What the local store holds now for the item. A secret's stands in for the
-- sealed one, of the same length.
def currentValue : Dirty → Code (Except Fault (Option Value))
  | .record table key => do
    let value ← access (.getRaw table key)
    pure (.ok value)
  | .secret name => do
    let bytes ← access (.secret false name)
    match bytes with
    | none => pure (.ok none)
    | some bytes => do
      let nonce ← request .nonce
      match nonce with
      | none => pure (.error .sealing)
      | some nonce => pure (.ok (some (secretValue seal_ name u64Max bytes nonce)))

def oversize (value : Option Value) : Bool := value.any fun v => decide (maxValueBytes < size v)

-- What an answered request leaves in the mirror's books.
def settle (key : Bytes) : Except PutError (Option Nat) → Lease → Code (Except Fault Unit × Lease)
  | .ok (some version),lease => do
    access (.remember key version)
    access (.putMirror key version)
    pure (.ok (),lease.observe version)
  | .ok none,lease => do
    access (.forget key)
    access (.deleteMirror key)
    pure (.ok (),lease)
  | .error (.conflict _),lease => do
    access .conflict
    pure (.error (.conflict key),lease)
  | .error (.other e),lease => pure (.error e,lease)

def send (item : Dirty) (value : Option Value) (seen : Option Nat) (lease : Lease) :
    Code (Except Fault Unit × Lease) :=
  match value,item with
  | some _,.secret name => do
    let bytes ← access (.secret true name)
    match bytes with
    | none => pure (.ok (),lease)
    | some bytes => do
      let (answer,lease) ← putSealed seal_ name bytes seen lease
      settle item.remoteKey (answer.map some) lease
  | some v,.record _ _ => do
    let answer ← request (.put item.remoteKey v (some (seen.getD 0)))
    settle item.remoteKey (answer.map some) lease
  | none,_ => do
    let answer ← request (.delete item.remoteKey seen)
    match answer with
    | .ok (some tombstone) => settle item.remoteKey (.ok none) (lease.observe tombstone)
    | .ok none => settle item.remoteKey (.ok none) lease
    | .error e => settle item.remoteKey (.error e) lease

theorem send_absent (item : Dirty) (seen : Option Nat) (lease : Lease) :
    ∃ after, send seal_ item none seen lease = .call (Request.delete item.remoteKey seen) after ∧
      (∀ tombstone, after (.ok (some tombstone)) = settle item.remoteKey (.ok none) (lease.observe tombstone)) ∧
      after (.ok none) = settle item.remoteKey (.ok none) lease ∧
      ∀ e, after (.error e) = settle item.remoteKey (.error e) lease := by
  cases item <;> exact ⟨_,rfl,fun _ => rfl,rfl,fun _ => rfl⟩

def write (item : Dirty) (lease : Lease) : Code (Except Fault Unit × Lease) := do
  let value ← currentValue seal_ item
  match value with
  | .error e => pure (.error e,lease)
  | .ok value =>
    if oversize size value then pure (.ok (),lease)
    else do
      let seen ← access (.seen item.remoteKey)
      send seal_ item value seen lease

def writeItem (item : Dirty) (failed : Option Fault) (lease : Lease) : Code (Option Fault × Lease) :=
  match failed with
  | some e => pure (some e,lease)
  | none => do
    let (renewed,lease) ← lease.renewIfDue
    match renewed with
    | .error e => pure (some e,lease)
    | .ok () => do
      let (res,lease) ← write seal_ size item lease
      match res with
      | .error e => pure (some e,lease)
      | .ok () => pure (none,lease)

def putBack (item : Dirty) : Option Fault → Code Unit
  | some _ => access (.putBack item)
  | none => pure ()

def passItems : List Dirty → Option Fault → Lease → Code (Option Fault × Lease)
  | [],failed,lease => pure (failed,lease)
  | item :: rest,failed,lease => do
    let (failed,lease) ← writeItem seal_ size item failed lease
    putBack item failed
    access .landed
    passItems rest failed lease

def syncPass (holder : Bytes) (fuel : Nat) : Code (Except Fault Unit) := do
  let idle ← access .dirtyIsEmpty
  if idle then pure (.ok ())
  else do
    let acquired ← Lease.acquire fuel holder 10000
    match acquired with
    | .error e => pure (.error e)
    | .ok lease => do
      let batch ← access .takeBatch
      let (failed,lease) ← passItems seal_ size batch none lease
      lease.release
      match failed with
      | some e => pure (.error e)
      | none => pure (.ok ())

end

-- Of one key's records, the first of the highest version.
def newest (found : Map Bytes Record) (row : Bytes × Record) : Map Bytes Record :=
  match found.lookup row.1 with
  | some have_ => if row.2.version ≤ have_.version then found else found.insert row.1 row.2
  | none => found.insert row.1 row.2

def latest (records : List (Bytes × Record)) : Map Bytes Record := records.foldl newest ∅

-- The rows of a `BTreeMap`, in the order of their keys.
def inOrder (found : Map Bytes Record) : List (Sigma fun _ : Bytes => Record) :=
  found.entries.insertionSort fun a b => a.1 ≤ b.1

-- A refused pull is an error that carries the host it leaves.
def refuse (host : Host) : Host := { host with conflicts := host.conflicts + 1 }

def isSecretKey (key : Bytes) : Bool := (ascii "secret/").isPrefixOf key

def pullMissing (listing : Listing) (found : Map Bytes Record) (host : Host) (row : Sigma fun _ : Bytes => Nat) :
    Except Host Host :=
  if (found.lookup row.1).isSome then .ok host
  else if listing.watermark < row.2 then .error (refuse host)
  else if listing.mode = .feed then .error (refuse host)
  else if isSecretKey row.1 then .ok (host.deleteMirror row.1)
  else .ok host

def olderThan (mirrored : Map Bytes Nat) (row : Sigma fun _ : Bytes => Record) : Bool :=
  (mirrored.lookup row.1).any fun m => decide (row.2.version < m)

def liveVersion (versions : Map Bytes Nat) (row : Sigma fun _ : Bytes => Record) : Map Bytes Nat :=
  if row.2.deleted then versions else versions.insert row.1 row.2.version

def liveVersions (found : Map Bytes Record) : Map Bytes Nat :=
  (inOrder found).foldl liveVersion ∅

def pullRecord (seal_ : MasterKey) (host : Host) (row : Sigma fun _ : Bytes => Record) :
    Except Host Host :=
  match stripPrefix (ascii "secret/") row.1 with
  | some name =>
    if row.2.deleted then .ok host
    else
      match secretBytes seal_ name row.2.version row.2.value with
      | none => .error (refuse host)
      | some bytes =>
        .ok ({ host with secrets := host.secrets.insert name bytes }.putMirror row.1 row.2.version)
  | none =>
    match parseStateKey row.1 with
    | some (table,key) =>
      if row.2.deleted then .ok ((host.deleteCached table key).deleteMirror row.1)
      else .ok ((host.putCached table key row.2.value).putMirror row.1 row.2.version)
    | none => .ok host

def pullLocal (found : Map Bytes Record) (mirrored : Map Bytes Nat) (host : Host)
    (place : Table × Bytes) : Host :=
  let key := stateKey place.1 place.2
  if !recordIsMirrored place.1 place.2 then host
  else if (found.lookup key).isSome then host
  else if (mirrored.lookup key).isSome then (host.deleteCached place.1 place.2).deleteMirror key
  else host.mark (.record place.1 place.2)

def pull (seal_ : MasterKey) (listing : Listing) (host : Host) : Except Host Host :=
  let mirrored := host.mirrored
  let found := latest listing.records
  -- Behind the largest version mirrored, so behind some.
  if mirrored.entries.any fun row => decide (listing.watermark < row.2) then .error (refuse host)
  else do
    let host ← mirrored.entries.foldlM (pullMissing listing found) host
    if found.entries.any (olderThan mirrored) then .error (refuse host)
    else do
      let host ← (inOrder found).foldlM (pullRecord seal_)
        { host with versions := liveVersions found }
      .ok (host.records.keys.foldl (pullLocal found mirrored) host)

end VerifiableGit.Bridge.Mirror
