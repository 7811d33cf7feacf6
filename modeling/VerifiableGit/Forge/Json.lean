import Mathlib.Data.List.Forall2
import VerifiableGit.Verify.DidDocument

-- JSON as serde reads it, and as a forge gives back what it was sent.
namespace VerifiableGit.Json
open Text
open Did (Value)

def isDigit (b : UInt8) : Bool := 48 ≤ b && b ≤ 57

def decimal (text : Bytes) : Nat := Nat.ofDigitChars 10 (text.map fun b => Char.ofNat b.toNat) 0

def asBool : Value → Option Bool
  | .bool value => some value
  | _ => none

-- A number written with a sign, a fraction or an exponent is no `u64`.
def asU64 : Value → Option UInt64
  | .number text =>
    if text ≠ [] ∧ text.all isDigit ∧ decimal text < 2 ^ 64 then some (UInt64.ofNat (decimal text)) else none
  | _ => none

def natural (n : Nat) : Value := .number (ascii (toString n))

-- The members a derived `Deserialize` finds, by name. It reads an array as well,
-- the members in the order they are declared.
def members (names : List Bytes) : Value → Option (Bytes → Option Value)
  | .object fields => some fun name => (Value.object fields).get name
  | .array items => if items.length ≤ names.length then some fun name => items[names.idxOf name]? else none
  | _ => none

-- An `Option` with a default: absent and `null` are `None`.
def optional (read : Value → Option α) : Option Value → Option (Option α)
  | none | some .null => some none
  | some value => (read value).map some

def required (read : Value → Option α) (value : Option Value) : Option α := value.bind read

def readAll (read : Value → Option α) (value : Value) : Option (List α) := value.asArray.bind fun items => items.mapM read

-- A value given back: what was written is there, item by item and member by
-- member, and an object may have further members.
inductive Kept : Value → Value → Prop where
  | null : Kept .null .null
  | bool : Kept (.bool value) (.bool value)
  | number : Kept (.number text) (.number text)
  | string : Kept (.string text) (.string text)
  | nil : Kept (.array []) (.array [])
  | cons (first : Kept item other) (rest : Kept (.array items) (.array others)) :
      Kept (.array (item :: items)) (.array (other :: others))
  | object (found : Bytes → Value)
      (present : ∀ key value, (Value.object fields).get key = some value → (Value.object more).get key = some (found key))
      (each : ∀ key value, (Value.object fields).get key = some value → Kept value (found key)) :
      Kept (.object fields) (.object more)

theorem digit_isDigit (n : Nat) : (ascii (toString n)).all isDigit = true := by
  rw [ascii_digits,List.all_map]
  refine List.all_eq_true.mpr fun c member => ?_
  have bounds := digit_byte n c member
  have small : c.toNat % 256 = c.toNat := Nat.mod_eq_of_lt (by omega)
  have byte : c.toNat.toUInt8.toNat = c.toNat := by rw [Nat.toUInt8_eq,UInt8.toNat_ofNat',small]
  simp only [Function.comp,isDigit,Bool.and_eq_true,decide_eq_true_eq,UInt8.le_iff_toNat_le,byte]
  exact bounds

theorem decimal_digits (n : Nat) : decimal (ascii (toString n)) = n := by
  rw [decimal,digits_back]
  exact Nat.ofDigitChars_ten_toDigits

theorem digits_ne_nil (n : Nat) : ascii (toString n) ≠ [] := by
  rw [ascii_digits]
  exact fun empty => Nat.toDigits_ne_nil (List.map_eq_nil_iff.mp empty)

theorem asU64_natural (n : Nat) (small : n < 2 ^ 64) : asU64 (natural n) = some (UInt64.ofNat n) := by
  have value := decimal_digits n
  show (if ascii (toString n) ≠ [] ∧ (ascii (toString n)).all isDigit ∧ decimal (ascii (toString n)) < 2 ^ 64 then
    some (UInt64.ofNat (decimal (ascii (toString n)))) else none) = _
  rw [value]
  exact if_pos ⟨digits_ne_nil n,digit_isDigit n,small⟩

theorem asU64_id (id : UInt64) : asU64 (natural id.toNat) = some id := by
  rw [asU64_natural id.toNat id.toNat_lt,UInt64.ofNat_toNat]

section
variable {read : Value}

theorem kept_string (kept : Kept (.string text) read) : read = .string text := by
  cases kept with
  | string => rfl

theorem kept_number (kept : Kept (.number text) read) : read = .number text := by
  cases kept with
  | number => rfl

theorem kept_bool (kept : Kept (.bool value) read) : read = .bool value := by
  cases kept with
  | bool => rfl

theorem kept_array (kept : Kept (.array items) read) : ∃ others, read = .array others ∧ List.Forall₂ Kept items others := by
  induction items generalizing read with
  | nil =>
    cases kept with
    | nil => exact ⟨[],rfl,.nil⟩
  | cons item items ih =>
    cases kept with
    | cons first rest =>
      obtain ⟨others,same,each⟩ := ih rest
      cases same
      exact ⟨_,rfl,.cons first each⟩

theorem kept_object (kept : Kept (.object fields) read) : ∃ more, read = .object more := by
  cases kept with
  | object found present each => exact ⟨_,rfl⟩

theorem kept_member (key : Bytes) (kept : Kept (.object fields) read)
    (written : (Value.object fields).get key = some value) :
    ∃ other, read.get key = some other ∧ Kept value other := by
  cases kept with
  | object found present each => exact ⟨found key,present key value written,each key value written⟩

theorem kept_members (kept : Kept (.object fields) read) (names : List Bytes) : members names read = some read.get := by
  obtain ⟨more,same⟩ := kept_object kept
  rw [same]
  rfl

end

-- What reads each item written reads each item given back.
theorem readAll_kept (read : Value → Option α) (P : Value → α → Prop)
    (each : ∀ item ∈ items, ∀ other, Kept item other → ∃ a, read other = some a ∧ P item a)
    (kept : List.Forall₂ Kept items others) : ∃ all, others.mapM read = some all ∧ List.Forall₂ P items all := by
  induction kept with
  | nil => exact ⟨[],rfl,.nil⟩
  | cons first rest ih =>
    obtain ⟨a,found,holds⟩ := each _ List.mem_cons_self _ first
    obtain ⟨all,founds,hold⟩ := ih fun item member => each item (List.mem_cons_of_mem _ member)
    exact ⟨a :: all,by rw [List.mapM_cons,found,founds]; rfl,.cons holds hold⟩

theorem get_member {fields : List (Bytes × Value)} (found : (Value.object fields).get key = some value) :
    (key,value) ∈ fields := by
  obtain ⟨field,there,same⟩ := Option.map_eq_some_iff.mp found
  have named : field.1 = key := of_decide_eq_true (List.find?_some (p := fun f : Bytes × Value => decide (f.1 = key)) there)
  rw [← same,← named]
  exact List.mem_of_find?_eq_some there

mutual

theorem kept_self : (value : Value) → Kept value value
  | .null => .null
  | .bool _ => .bool
  | .number _ => .number
  | .string _ => .string
  | .array items => kept_items items
  | .object fields => .object (fun key => ((Value.object fields).get key).getD .null)
      (fun key value found => by rw [found,Option.getD_some])
      (fun key value found => by
        have member := get_member found
        have small := List.sizeOf_lt_of_mem member
        rw [found,Option.getD_some]
        exact kept_self value)
termination_by value => sizeOf value
decreasing_by
  all_goals simp_wf
  simp only [Prod.mk.sizeOf_spec] at small
  omega

theorem kept_items : (items : List Value) → Kept (.array items) (.array items)
  | [] => .nil
  | item :: items => .cons (kept_self item) (kept_items items)
termination_by items => sizeOf items

end

-- A member is added in front.
theorem kept_added (fields : List (Bytes × Value)) (key : Bytes) (value : Value)
    (absent : (Value.object fields).get key = none) : Kept (.object fields) (.object ((key,value) :: fields)) := by
  refine .object (fun name => ((Value.object fields).get name).getD .null) (fun name value found => ?_) fun name value found => ?_
  · rw [found,Option.getD_some]
    have other : ¬key = name := fun same => by
      rw [same,found] at absent
      cases absent
    rw [← found]
    simp [Value.get,other]
  · rw [found,Option.getD_some]
    exact kept_self value

end VerifiableGit.Json
