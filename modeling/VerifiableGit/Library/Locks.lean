import Mathlib.Data.Finset.Card
import Mathlib.Logic.Function.Basic

-- Keys that one holder has at a time, and a number of permits that is never gone
-- over, against what is on record of both.
namespace VerifiableGit.Library.Locks

section
variable {I K : Type}

-- `taken` is the record of the keys, `free` the permits nobody has.
structure Kept (taken : Finset K) (free most : Nat) (held : I → Option K) (permit : I → Bool) : Prop where
  owned : ∀ key, key ∈ taken ↔ ∃ i, held i = some key
  alone : ∀ i j key, held i = some key → held j = some key → i = j
  permits : ∃ holders : Finset I, (∀ i, i ∈ holders ↔ permit i = true) ∧ holders.card + free = most

variable {taken : Finset K} {free most : Nat} {held : I → Option K} {permit : I → Bool} {key : K}

theorem kept_none (nobody : ∀ i, held i = none) (without : ∀ i, permit i = false) : Kept (∅ : Finset K) most most held permit := by
  refine ⟨fun key => ?_,fun i j key has => ?_,⟨∅,fun i => ?_,?_⟩⟩
  · refine iff_of_false (Finset.notMem_empty key) fun some_ => ?_
    obtain ⟨i,has⟩ := some_
    rw [nobody i] at has
    cases has
  · rw [nobody i] at has
    cases has
  · rw [without i]
    exact iff_of_false (Finset.notMem_empty i) Bool.false_ne_true
  · rw [Finset.card_empty,Nat.zero_add]

theorem kept_enter [DecidableEq I] [DecidableEq K] (kept : Kept taken free most held permit) (i : I) (none_ : held i = none)
    (fresh : key ∉ taken) : Kept (insert key taken) free most (Function.update held i (some key)) permit := by
  have nobody : ∀ j, held j ≠ some key := fun j has => fresh ((kept.owned key).mpr ⟨j,has⟩)
  have other : ∀ j k, held j = some k → j ≠ i := by
    intro j k has here
    rw [here,none_] at has
    cases has
  refine ⟨fun k => ?_,fun j l k one two => ?_,kept.permits⟩
  · rw [Finset.mem_insert,kept.owned k]
    constructor
    · intro has
      rcases has with rfl | ⟨j,has⟩
      · exact ⟨i,Function.update_self ..⟩
      · exact ⟨j,by rwa [Function.update_of_ne (other j k has)]⟩
    · intro ⟨j,has⟩
      by_cases here : j = i
      · subst here
        rw [Function.update_self] at has
        exact .inl (Option.some.inj has).symm
      · rw [Function.update_of_ne here] at has
        exact .inr ⟨j,has⟩
  · by_cases first : j = i <;> by_cases second : l = i
    · rw [first,second]
    · subst first
      rw [Function.update_self] at one
      rw [Function.update_of_ne second] at two
      cases one
      exact absurd two (nobody l)
    · subst second
      rw [Function.update_self] at two
      rw [Function.update_of_ne first] at one
      cases two
      exact absurd one (nobody j)
    · rw [Function.update_of_ne first] at one
      rw [Function.update_of_ne second] at two
      exact kept.alone j l k one two

theorem kept_leave [DecidableEq I] [DecidableEq K] (kept : Kept taken free most held permit) (i : I) (has : held i = some key) :
    Kept (taken.erase key) free most (Function.update held i none) permit := by
  refine ⟨fun k => ?_,fun j l k one two => ?_,kept.permits⟩
  · rw [Finset.mem_erase,kept.owned k]
    constructor
    · intro ⟨other,j,holds⟩
      have elsewhere : j ≠ i := by
        intro here
        rw [here,has] at holds
        exact other (Option.some.inj holds).symm
      exact ⟨j,by rwa [Function.update_of_ne elsewhere]⟩
    · intro ⟨j,holds⟩
      by_cases here : j = i
      · subst here
        rw [Function.update_self] at holds
        cases holds
      · rw [Function.update_of_ne here] at holds
        exact ⟨fun same => here (kept.alone j i key (same ▸ holds) has),j,holds⟩
  · by_cases first : j = i
    · subst first
      rw [Function.update_self] at one
      cases one
    · by_cases second : l = i
      · subst second
        rw [Function.update_self] at two
        cases two
      · rw [Function.update_of_ne first] at one
        rw [Function.update_of_ne second] at two
        exact kept.alone j l k one two

theorem kept_acquire [DecidableEq I] (kept : Kept taken (free + 1) most held permit) (i : I) (without : permit i = false) :
    Kept taken free most held (Function.update permit i true) := by
  obtain ⟨holders,are,count⟩ := kept.permits
  have outside : i ∉ holders := by
    rw [are i,without]
    exact Bool.false_ne_true
  refine ⟨kept.owned,kept.alone,insert i holders,fun j => ?_,?_⟩
  · by_cases here : j = i
    · subst here
      rw [Function.update_self]
      exact iff_of_true (Finset.mem_insert_self _ _) rfl
    · rw [Function.update_of_ne here,Finset.mem_insert,are j,or_iff_right here]
  · rw [Finset.card_insert_of_notMem outside]
    omega

theorem kept_release [DecidableEq I] (kept : Kept taken free most held permit) (i : I) (has : permit i = true) :
    Kept taken (free + 1) most held (Function.update permit i false) := by
  obtain ⟨holders,are,count⟩ := kept.permits
  have inside : i ∈ holders := (are i).mpr has
  refine ⟨kept.owned,kept.alone,holders.erase i,fun j => ?_,?_⟩
  · by_cases here : j = i
    · subst here
      rw [Function.update_self]
      exact iff_of_false (Finset.notMem_erase _ _) Bool.false_ne_true
    · rw [Function.update_of_ne here,Finset.mem_erase,are j,and_iff_right here]
  · have less := Finset.card_erase_add_one inside
    omega

end

end VerifiableGit.Library.Locks
