import Mathlib.Data.List.AList
import Mathlib.Data.Finset.Card
import VerifiableGit.Text

-- The VTA's app-state as the bridge sees it: one counter for the namespace,
-- conditional writes, tombstones, and what the bridge keeps under which key.
namespace VerifiableGit.Bridge
open VerifiableGit.Text

abbrev Map (K : Type) (V : Type) := AList fun _ : K => V

-- A JSON value as the bridge looks into it: one object deep.
inductive Field where
  | str (text : Bytes)
  | int (n : Int)
  | raw (json : Bytes)
  deriving DecidableEq

inductive Value where
  | object (fields : List (Bytes × Field))
  | raw (json : Bytes)
  deriving DecidableEq

def Value.get (v : Value) (name : Bytes) : Option Field :=
  match v with
  | .object fields => fields.lookup name
  | .raw _ => none

def Field.asStr : Field → Option Bytes
  | .str text => some text
  | _ => none

def i64Min : Int := -(2 ^ 63)
def i64Max : Int := 2 ^ 63 - 1

def Field.asI64 : Field → Option Int
  | .int n => if i64Min ≤ n ∧ n ≤ i64Max then some n else none
  | _ => none

structure Record where
  version : Nat
  deleted : Bool
  value : Value
  updatedAt : Option Int
  deriving DecidableEq

inductive ListingMode where
  | feed
  | snapshot
  deriving DecidableEq

structure Listing where
  records : List (Bytes × Record)
  watermark : Nat
  mode : ListingMode

inductive Fault where
  | remote (why : Bytes)
  | conflict (key : Bytes)
  | leaseHeld
  | leaseRanOut
  | renewing
  | sealing
  | unpredictable (key : Bytes)
  deriving DecidableEq

inductive PutError where
  | conflict (current : Option Nat)
  | other (fault : Fault)
  deriving DecidableEq

abbrev PutResult := Except PutError Nat
abbrev DeleteResult := Except PutError (Option Nat)

-- What is held at a key; no value is a tombstone.
structure Entry where
  version : Nat
  value : Option Value
  updatedAt : Int
  deriving DecidableEq

structure Remote where
  counter : Nat
  entries : Map Bytes Entry
  reaped : Bool

namespace Remote

def empty : Remote := ⟨0,∅,false⟩

def live (remote : Remote) (key : Bytes) : Option Nat :=
  (remote.entries.lookup key).bind fun entry => entry.value.map fun _ => entry.version

def precondition : Option Nat → Option Nat → Except PutError Unit
  | none,_ => .ok ()
  | some 0,none => .ok ()
  | some e,some c => if e = c then .ok () else .error (.conflict (some c))
  | some _,none => .error (.conflict none)

def write (remote : Remote) (now : Int) (key : Bytes) (value : Option Value) : Remote :=
  { remote with
    counter := remote.counter + 1
    entries := remote.entries.insert key ⟨remote.counter + 1,value,now⟩ }

def Entry.record (entry : Entry) : Record :=
  ⟨entry.version,entry.value.isNone,entry.value.getD (.raw (ascii "null")),some entry.updatedAt⟩

def list (remote : Remote) : Listing where
  records := remote.entries.entries.map fun row => (row.1,Entry.record row.2)
  watermark := remote.counter
  mode := if remote.reaped then .snapshot else .feed

def get (remote : Remote) (key : Bytes) : Option Record :=
  (remote.entries.lookup key).bind fun entry =>
    if entry.value.isSome then some (Entry.record entry) else none

def put (remote : Remote) (now : Int) (key : Bytes) (value : Value) (expected : Option Nat) :
    PutResult × Remote :=
  match precondition expected (remote.live key) with
  | .ok () => (.ok (remote.counter + 1),remote.write now key (some value))
  | .error e => (.error e,remote)

def delete (remote : Remote) (now : Int) (key : Bytes) (expected : Option Nat) :
    DeleteResult × Remote :=
  match remote.live key with
  | none => (.ok none,remote)
  | some c =>
    match precondition expected (some c) with
    | .ok () => (.ok (some (remote.counter + 1)),remote.write now key none)
    | .error e => (.error e,remote)

end Remote

inductive Table where
  | jobs
  | namespaces
  | repos
  | pending
  | outbox
  | deliveries
  | secrets
  | meta_
  | branches
  | mirror
  deriving DecidableEq

def Table.all : List Table :=
  [.jobs,.namespaces,.repos,.pending,.outbox,.deliveries,.secrets,.meta_,.branches,.mirror]

def Table.name : Table → Bytes
  | .jobs => ascii "jobs"
  | .namespaces => ascii "namespaces"
  | .repos => ascii "repos"
  | .pending => ascii "pending"
  | .outbox => ascii "outbox"
  | .deliveries => ascii "deliveries"
  | .secrets => ascii "secrets"
  | .meta_ => ascii "meta"
  | .branches => ascii "branches"
  | .mirror => ascii "mirror"

def Table.fromName (name : Bytes) : Option Table := Table.all.find? fun t => t.name = name

def bindingMeta : Bytes := ascii "vta/binding"

def mirroredTables : List Table := [.namespaces,.repos,.branches,.meta_]

def recordIsMirrored (table : Table) (key : Bytes) : Bool :=
  table ∈ mirroredTables && !(table = .meta_ && key = bindingMeta)

def secretIsMirrored (name : Bytes) : Bool := !(ascii "pending/").isPrefixOf name

def slash : UInt8 := 47

-- `str::split_once('/')`.
def splitSlash : Bytes → Option (Bytes × Bytes)
  | [] => none
  | b :: rest =>
    if b = slash then some ([],rest)
    else (splitSlash rest).map fun (before,after) => (b :: before,after)

def stateKey (table : Table) (key : Bytes) : Bytes :=
  ascii "state/" ++ table.name ++ slash :: key

def secretKey (name : Bytes) : Bytes := ascii "secret/" ++ name

def parseStateKey (key : Bytes) : Option (Table × Bytes) := do
  let rest ← stripPrefix (ascii "state/") key
  let (table,local_) ← splitSlash rest
  let table ← (Table.fromName table).filter fun t => recordIsMirrored t local_
  some (table,local_)

def leaseKey : Bytes := ascii "lease/writer"

def maxValueBytes : Nat := 65536

section
variable {name key local_ : Bytes} {table other : Table}

theorem table_named (table : Table) : Table.fromName table.name = some table := by
  cases table <;> decide

theorem table_unslashed (table : Table) : slash ∉ table.name := by
  cases table <;> decide

theorem splitSlash_exact (before after : Bytes) (plain : slash ∉ before) :
    splitSlash (before ++ slash :: after) = some (before,after) := by
  induction before with
  | nil => simp [splitSlash]
  | cons b rest ih =>
    have other : b ≠ slash := fun same => plain (by simp [same])
    simp only [List.cons_append,splitSlash,other,if_false,
      ih fun inside => plain (List.mem_cons_of_mem _ inside),Option.map_some]

theorem splitSlash_sound {text before after : Bytes} (found : splitSlash text = some (before,after)) :
    text = before ++ slash :: after := by
  induction text generalizing before with
  | nil => cases found
  | cons b rest ih =>
    unfold splitSlash at found
    split at found
    · rename_i here
      cases found
      simp [here]
    · obtain ⟨⟨first,second⟩,inside,same⟩ := Option.map_eq_some_iff.mp found
      cases same
      simp only [ih inside,List.cons_append]

theorem fromName_sound {text : Bytes} (found : Table.fromName text = some table) :
    table.name = text := by simpa using List.find?_some found

theorem parse_stateKey (mirrored : recordIsMirrored table key) :
    parseStateKey (stateKey table key) = some (table,key) := by
  have start : stripPrefix (ascii "state/") (stateKey table key) =
      some (table.name ++ slash :: key) := by
    rw [stateKey,List.append_assoc]
    exact stripPrefix_append _ _
  simp [parseStateKey,start,splitSlash_exact _ _ (table_unslashed table),table_named,
    Option.filter_some,mirrored]

theorem parse_sound (found : parseStateKey key = some (table,local_)) :
    key = stateKey table local_ ∧ recordIsMirrored table local_ := by
  simp only [parseStateKey,Option.bind_eq_bind,Option.bind_eq_some_iff] at found
  obtain ⟨rest,start,⟨name,tail⟩,split,t,named,same⟩ := found
  cases same
  obtain ⟨found,mirrored⟩ := Option.filter_eq_some_iff.mp named
  refine ⟨?_,mirrored⟩
  have text := splitSlash_sound split
  unfold stripPrefix at start
  split at start
  · rename_i begins
    cases start
    obtain ⟨tail,same⟩ := List.isPrefixOf_iff_prefix.mp begins
    rw [← same,List.drop_left] at text
    rw [← same,text,stateKey,fromName_sound found,List.append_assoc]
  · cases start

theorem stateKey_inj (same : stateKey table key = stateKey other name) : table = other ∧ key = name := by
  rw [stateKey,stateKey,List.append_assoc,List.append_assoc] at same
  have rest := List.append_cancel_left same
  have left := splitSlash_exact table.name key (table_unslashed table)
  rw [rest,splitSlash_exact other.name name (table_unslashed other)] at left
  have named : some other = some table := by
    rw [← table_named other,← table_named table]
    exact congrArg Table.fromName (Prod.mk.inj (Option.some.inj left)).1
  exact ⟨(Option.some.inj named).symm,(Prod.mk.inj (Option.some.inj left)).2.symm⟩

theorem secretKey_inj (same : secretKey key = secretKey name) : key = name :=
  List.append_cancel_left same

theorem state_not_secret : stateKey table key ≠ secretKey name := by
  simp [stateKey,secretKey,ascii]

theorem state_not_lease : stateKey table key ≠ leaseKey := by
  simp [stateKey,leaseKey,ascii]

theorem secret_not_lease : secretKey name ≠ leaseKey := by
  simp [secretKey,leaseKey,ascii]

theorem strip_secretKey : stripPrefix (ascii "secret/") (secretKey name) = some name :=
  stripPrefix_append _ _

theorem strip_secret_sound (found : stripPrefix (ascii "secret/") key = some name) :
    key = secretKey name :=
  stripPrefix_some.mp found

end

-- What a write leaves at every key, and what a request may answer.
namespace Remote

def Counted (remote : Remote) : Prop :=
  ∀ key e, remote.entries.lookup key = some e → e.version ≤ remote.counter

variable {remote : Remote} {key other : Bytes} {now : Int} {value : Value} {expected : Option Nat}

@[simp] theorem write_counter (v : Option Value) : (remote.write now key v).counter = remote.counter + 1 := rfl

@[simp] theorem write_same (v : Option Value) :
    (remote.write now key v).entries.lookup key = some ⟨remote.counter + 1,v,now⟩ :=
  AList.lookup_insert _

theorem write_other (v : Option Value) (different : other ≠ key) :
    (remote.write now key v).entries.lookup other = remote.entries.lookup other :=
  AList.lookup_insert_ne different

@[simp] theorem live_write (v : Option Value) :
    (remote.write now key v).live key = v.map fun _ => remote.counter + 1 := by
  simp [live]

theorem live_other (v : Option Value) (different : other ≠ key) :
    (remote.write now key v).live other = remote.live other := by
  simp [live,write_other v different]

theorem counted_write (counted : remote.Counted) (now : Int) (key : Bytes) (v : Option Value) :
    (remote.write now key v).Counted := by
  intro k e here
  by_cases same : k = key
  · subst same
    rw [write_same,Option.some.injEq] at here
    exact here ▸ Nat.le_refl _
  · rw [write_other v same] at here
    exact Nat.le_succ_of_le (counted k e here)

theorem precondition_live {e : Option Nat} : precondition (some (e.getD 0)) e = .ok () := by
  cases e with
  | none => rfl
  | some n => cases n <;> simp [precondition]

theorem precondition_error {e : Option Nat} {fault : PutError}
    (stopped : precondition expected e = .error fault) : ∃ c, fault = .conflict c := by
  unfold precondition at stopped
  split at stopped
  · cases stopped
  · cases stopped
  · split at stopped
    · cases stopped
    · cases stopped
      exact ⟨_,rfl⟩
  · cases stopped
    exact ⟨_,rfl⟩

theorem precondition_some {e : Nat} {c : Option Nat} (passed : precondition (some e) c = .ok ()) :
    c = some e ∨ e = 0 ∧ c = none := by
  unfold precondition at passed
  split at passed
  · rename_i same
    cases same
  · rename_i same
    cases same
    exact .inr ⟨rfl,rfl⟩
  · rename_i same
    cases same
    split at passed
    · rename_i here
      exact .inl (congrArg some here.symm)
    · cases passed
  · cases passed

theorem get_write (v : Value) : (remote.write now key (some v)).get key =
    some ⟨remote.counter + 1,false,v,some now⟩ := by
  simp [get,Entry.record]

theorem get_removed : (remote.write now key none).get key = none := by
  simp [get]

theorem get_other (v : Option Value) (different : other ≠ key) :
    (remote.write now key v).get other = remote.get other := by
  simp [get,write_other v different]

theorem get_live {r : Record} (here : remote.get key = some r) : remote.live key = some r.version := by
  obtain ⟨e,found,shown⟩ := Option.bind_eq_some_iff.mp here
  split at shown
  · rename_i held
    cases shown
    obtain ⟨v,held⟩ := Option.isSome_iff_exists.mp held
    simp [live,found,held,Entry.record]
  · cases shown

theorem live_get {c : Nat} (alive : remote.live key = some c) :
    ∃ r, remote.get key = some r ∧ r.version = c := by
  obtain ⟨e,found,shown⟩ := Option.bind_eq_some_iff.mp alive
  obtain ⟨v,held,same⟩ := Option.map_eq_some_iff.mp shown
  exact ⟨Entry.record e,by simp [get,found,held],same⟩

variable (remote key now expected) in
theorem delete_cases : (remote.live key = none ∧
      remote.delete now key expected = (.ok none,remote)) ∨
    (∃ c, remote.live key = some c ∧ precondition expected (some c) = .ok () ∧
      remote.delete now key expected =
        (.ok (some (remote.counter + 1)),remote.write now key none)) ∨
    (∃ c e, remote.live key = some c ∧ precondition expected (some c) = .error e ∧
      remote.delete now key expected = (.error e,remote)) := by
  unfold delete
  cases alive : remote.live key with
  | none => exact .inl ⟨rfl,rfl⟩
  | some c =>
    cases passed : precondition expected (some c) with
    | ok _ => exact .inr (.inl ⟨c,rfl,passed,by simp only [passed]⟩)
    | error e => exact .inr (.inr ⟨c,e,rfl,passed,by simp only [passed]⟩)

end Remote

end VerifiableGit.Bridge
