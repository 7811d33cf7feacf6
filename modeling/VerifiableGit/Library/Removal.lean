import Mathlib.Data.List.Basic
import Mathlib.Data.List.Nodup

-- Taking keys out of a list one after another. A key that is no longer there
-- stops the run, and so does a step that fails; what is gone by then stays gone.
namespace VerifiableGit.Library.Removal

section
variable {α : Type} [DecidableEq α] {fails : Nat → Bool} {nth : Nat} {key : α} {keys items left : List α}

def remove (fails : Nat → Bool) (nth : Nat) (key : α) (items : List α) : Option (List α) :=
  if fails nth ∨ key ∉ items then none else some (items.filter (· ≠ key))

def removeEach (fails : Nat → Bool) : Nat → List α → List α → Bool × List α
  | _,[],items => (true,items)
  | nth,key :: keys,items =>
    match remove fails nth key items with
    | none => (false,items)
    | some left => removeEach fails (nth+1) keys left

-- What lets every step through.
structure Removable (fails : Nat → Bool) (nth : Nat) (keys items : List α) : Prop where
  distinct : keys.Nodup
  present : ∀ key ∈ keys, key ∈ items
  answered : ∀ i < keys.length, fails (nth+i) = false

theorem removable_cons : Removable fails nth (key :: keys) items ↔
    fails nth = false ∧ key ∈ items ∧ Removable fails (nth+1) keys (items.filter (· ≠ key)) := by
  constructor
  · intro all
    obtain ⟨once,distinct⟩ := List.nodup_cons.mp all.distinct
    have other : ∀ k ∈ keys, k ≠ key := fun k member same => once (same ▸ member)
    refine ⟨all.answered 0 (Nat.zero_lt_succ _),all.present key List.mem_cons_self,distinct,?_,?_⟩
    · intro k member
      simp only [List.mem_filter,decide_eq_true_eq]
      exact ⟨all.present k (List.mem_cons_of_mem _ member),other k member⟩
    · intro i below
      have := all.answered (i+1) (Nat.succ_lt_succ below)
      rwa [show nth+1+i = nth+(i+1) by omega]
  · intro ⟨answered,present,rest⟩
    refine ⟨List.nodup_cons.mpr ⟨fun member => ?_,rest.distinct⟩,?_,?_⟩
    · simpa using rest.present key member
    · intro k member
      cases List.mem_cons.mp member with
      | inl same => exact same ▸ present
      | inr tail => exact List.mem_of_mem_filter (rest.present k tail)
    · intro i below
      cases i with
      | zero => exact answered
      | succ i =>
        have := rest.answered i (Nat.lt_of_succ_lt_succ below)
        rwa [show nth+(i+1) = nth+1+i by omega]

theorem removeEach_all (all : Removable fails nth keys items) :
    removeEach fails nth keys items = (true,items.filter (· ∉ keys)) := by
  induction keys generalizing nth items with
  | nil => simp [removeEach]
  | cons key keys ih =>
    obtain ⟨answered,present,rest⟩ := removable_cons.mp all
    have step : remove fails nth key items = some (items.filter (· ≠ key)) := by simp [remove,answered,present]
    simp only [removeEach,step,ih rest,List.filter_filter]
    refine congrArg _ (List.filter_congr fun item _ => ?_)
    by_cases same : item = key <;> simp [same]

theorem removeEach_ok (done : (removeEach fails nth keys items).1 = true) : Removable fails nth keys items := by
  induction keys generalizing nth items with
  | nil => exact ⟨List.nodup_nil,nofun,nofun⟩
  | cons key keys ih =>
    by_cases stuck : fails nth ∨ key ∉ items
    · simp [removeEach,remove,stuck] at done
    · have step : remove fails nth key items = some (items.filter (· ≠ key)) := if_neg stuck
      rw [removeEach,step] at done
      obtain ⟨answered,present⟩ := not_or.mp stuck
      exact removable_cons.mpr ⟨by simpa using answered,not_not.mp present,ih done⟩

theorem removeEach_sublist : (removeEach fails nth keys items).2.Sublist items := by
  induction keys generalizing nth items with
  | nil => exact List.Sublist.refl _
  | cons key keys ih =>
    by_cases stuck : fails nth ∨ key ∉ items
    · simp [removeEach,remove,stuck]
    · have step : remove fails nth key items = some (items.filter (· ≠ key)) := if_neg stuck
      rw [removeEach,step]
      exact ih.trans List.filter_sublist

theorem removeEach_stuck (stuck : fails nth ∨ key ∉ items) :
    removeEach fails nth (key :: keys) items = (false,items) := by
  simp [removeEach,remove,stuck]

-- The first step done, the list is shorter whatever becomes of the rest.
theorem removeEach_shorter (answered : fails nth = false) (present : key ∈ items) :
    (removeEach fails nth (key :: keys) items).2.length < items.length := by
  have step : remove fails nth key items = some (items.filter (· ≠ key)) := by simp [remove,answered,present]
  have less : (items.filter (· ≠ key)).length < items.length :=
    List.length_filter_lt_length_iff_exists.mpr ⟨key,present,by simp⟩
  rw [removeEach,step]
  exact Nat.lt_of_le_of_lt removeEach_sublist.length_le less

end
end VerifiableGit.Library.Removal
