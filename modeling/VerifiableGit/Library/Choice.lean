import Mathlib.Data.List.MinMax

-- The greatest and the least of a list that is in the order of its places: ties
-- go to the last place of the greatest, and to the first of the least.
namespace VerifiableGit.Library
universe u v w
variable {α : Type u} {κ : Type v} {ι : Type w} [LinearOrder κ]

-- `a` stands above `c`: greater, or as great and at a later place.
def Above (f : α → κ) (place : α → ι) (before : ι → ι → Prop) (a c : α) : Prop :=
  f c < f a ∨ f c = f a ∧ before (place c) (place a)

-- One of the list that all others stand above, or that stands above all others.
def Lowest (f : α → κ) (place : α → ι) (before : ι → ι → Prop) (l : List α) (c : α) : Prop :=
  c ∈ l ∧ ∀ a ∈ l, a ≠ c → Above f place before a c

def Highest (f : α → κ) (place : α → ι) (before : ι → ι → Prop) (l : List α) (c : α) : Prop :=
  c ∈ l ∧ ∀ a ∈ l, a ≠ c → Above f place before c a

section
variable {f : α → κ} {place : α → ι} {before : ι → ι → Prop} {l : List α} {a b c : α}

theorem above_irrefl (apart : ∀ i, ¬ before i i) : ¬ Above f place before a a := by
  intro above
  cases above with
  | inl less => exact lt_irrefl _ less
  | inr tied => exact apart _ tied.2

theorem above_le (above : Above f place before a c) : f c ≤ f a := by
  cases above with
  | inl less => exact le_of_lt less
  | inr tied => exact le_of_eq tied.1

variable [trans : IsTrans ι before]

theorem above_trans (first : Above f place before a b) (second : Above f place before b c) :
    Above f place before a c := by
  rcases first with less | ⟨same,earlier⟩
  · exact .inl (lt_of_le_of_lt (above_le second) less)
  · rcases second with lower | ⟨tied,later⟩
    · exact .inl (same ▸ lower)
    · exact .inr ⟨tied.trans same,trans.trans _ _ _ later earlier⟩

variable (sorted : l.Pairwise fun a b => before (place a) (place b))
include sorted

theorem argmax_highest (found : l.reverse.argmax f = some c) : Highest f place before l c := by
  induction l generalizing c with
  | nil => cases found
  | cons x rest ih =>
    obtain ⟨first,others⟩ := List.pairwise_cons.mp sorted
    rw [List.reverse_cons,List.argmax_concat] at found
    cases best : rest.reverse.argmax f with
    | none =>
      have empty : rest = [] := List.reverse_eq_nil_iff.mp (List.argmax_eq_none.mp best)
      simp only [best,Option.some.injEq] at found
      subst empty found
      exact ⟨List.mem_singleton_self x,fun a inside other => absurd (List.mem_singleton.mp inside) other⟩
    | some d =>
      obtain ⟨inside,highest⟩ := ih others best
      simp only [best] at found
      split at found
      · rename_i less
        cases found
        refine ⟨List.mem_cons_self,fun a member other => ?_⟩
        have later : a ∈ rest := (List.mem_cons.mp member).resolve_left other
        by_cases same : a = d
        · exact .inl (same ▸ less)
        · exact above_trans (.inl less) (highest a later same)
      · rename_i notLess
        cases found
        refine ⟨List.mem_cons_of_mem _ inside,fun a member other => ?_⟩
        rcases List.mem_cons.mp member with here | later
        · rcases lt_or_eq_of_le (not_lt.mp notLess) with less | tied
          · exact .inl (here ▸ less)
          · exact .inr (here ▸ ⟨tied,first c inside⟩)
        · exact highest a later other

theorem argmin_lowest (found : l.argmin f = some c) : Lowest f place before l c := by
  induction l generalizing c with
  | nil => cases found
  | cons x rest ih =>
    obtain ⟨first,others⟩ := List.pairwise_cons.mp sorted
    rw [List.argmin_cons] at found
    cases best : rest.argmin f with
    | none =>
      have empty : rest = [] := List.argmin_eq_none.mp best
      simp only [best,Option.some.injEq] at found
      subst empty found
      exact ⟨List.mem_singleton_self x,fun a inside other => absurd (List.mem_singleton.mp inside) other⟩
    | some d =>
      obtain ⟨inside,lowest⟩ := ih others best
      simp only [best] at found
      split at found
      · rename_i less
        cases found
        refine ⟨List.mem_cons_of_mem _ inside,fun a member other => ?_⟩
        rcases List.mem_cons.mp member with here | later
        · exact .inl (here ▸ less)
        · exact lowest a later other
      · rename_i notLess
        cases found
        have under : Above f place before d x := by
          rcases lt_or_eq_of_le (not_lt.mp notLess) with less | tied
          · exact .inl less
          · exact .inr ⟨tied,first d inside⟩
        refine ⟨List.mem_cons_self,fun a member other => ?_⟩
        have later : a ∈ rest := (List.mem_cons.mp member).resolve_left other
        by_cases same : a = d
        · exact same ▸ under
        · exact above_trans (lowest a later same) under

theorem argmax_last (apart : ∀ i, ¬ before i i) :
    l.reverse.argmax f = some c ↔ Highest f place before l c := by
  refine ⟨argmax_highest sorted,fun highest => ?_⟩
  cases found : l.reverse.argmax f with
  | none =>
    have empty : l = [] := List.reverse_eq_nil_iff.mp (List.argmax_eq_none.mp found)
    rw [empty] at highest
    cases highest.1
  | some d =>
    obtain ⟨inside,best⟩ := argmax_highest sorted found
    refine congrArg some (Classical.byContradiction fun other => ?_)
    have up := best c highest.1 (Ne.symm other)
    exact above_irrefl apart (above_trans up (highest.2 d inside other))

theorem argmin_first (apart : ∀ i, ¬ before i i) : l.argmin f = some c ↔ Lowest f place before l c := by
  refine ⟨argmin_lowest sorted,fun lowest => ?_⟩
  cases found : l.argmin f with
  | none =>
    rw [List.argmin_eq_none.mp found] at lowest
    cases lowest.1
  | some d =>
    obtain ⟨inside,least⟩ := argmin_lowest sorted found
    refine congrArg some (Classical.byContradiction fun other => ?_)
    have up := least c lowest.1 (Ne.symm other)
    exact above_irrefl apart (above_trans up (lowest.2 d inside other))

omit trans in
theorem above_total (left : a ∈ l) (right : b ∈ l) (other : a ≠ b) :
    Above f place before a b ∨ Above f place before b a := by
  rcases lt_trichotomy (f a) (f b) with less | tied | more
  · exact .inr (.inl less)
  · have apart : before (place a) (place b) ∨ before (place b) (place a) :=
      List.Pairwise.forall_of_forall_of_flip (R := fun a b => a ≠ b → before (place a) (place b) ∨
        before (place b) (place a)) (fun x _ same => absurd rfl same)
        (sorted.imp fun first _ => .inl first) (sorted.imp fun first _ => .inr first) left right other
    rcases apart with first | last
    · exact .inr (.inr ⟨tied,first⟩)
    · exact .inl (.inr ⟨tied.symm,last⟩)
  · exact .inl (.inl more)

end

end VerifiableGit.Library
