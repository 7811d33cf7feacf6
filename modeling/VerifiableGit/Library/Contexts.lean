import Mathlib.Data.List.Basic

-- The places of a list, each with what stands before it and after it, and the
-- items chosen by their places.
namespace VerifiableGit.Library.Contexts

section
variable {α : Type}

def contexts : List α → List α → List (List α × α × List α)
  | _,[] => []
  | before,a :: after => (before,a,after) :: contexts (before ++ [a]) after

def select (chosen : List α → α → List α → Bool) (before after : List α) : List α :=
  ((contexts before after).filter fun place => chosen place.1 place.2.1 place.2.2).map fun place => place.2.1

theorem select_cons (chosen : List α → α → List α → Bool) (before : List α) (a : α) (after : List α) :
    select chosen before (a :: after) = if chosen before a after then a :: select chosen (before ++ [a]) after
      else select chosen (before ++ [a]) after := by
  cases here : chosen before a after <;> simp [select,contexts,here]

theorem mem_contexts {place : List α × α × List α} {before after : List α} : place ∈ contexts before after ↔
    ∃ front, place.1 = before ++ front ∧ after = front ++ place.2.1 :: place.2.2 := by
  induction after generalizing before with
  | nil => simp [contexts]
  | cons a after ih =>
    rw [contexts,List.mem_cons,ih]
    constructor
    · intro found
      rcases found with same | ⟨front,start,rest⟩
      · exact ⟨[],by simp [same],by simp [same]⟩
      · exact ⟨a :: front,by simp [start],by simp [rest]⟩
    · intro ⟨front,start,rest⟩
      cases front with
      | nil =>
        obtain ⟨one,two⟩ := List.cons.inj rest
        exact .inl (Prod.ext (by simpa using start) (Prod.ext one.symm two.symm))
      | cons b front =>
        obtain ⟨one,two⟩ := List.cons.inj rest
        exact .inr ⟨front,by simp [start,one],two⟩

theorem select_filter (chosen : List α → α → List α → Bool) (f : α → Bool) (before after : List α) :
    (select chosen before after).filter f = select (fun b a r => chosen b a r && f a) before after := by
  induction after generalizing before with
  | nil => rfl
  | cons a after ih =>
    rw [select_cons,select_cons]
    cases chosen before a after <;> cases here : f a <;> simp [here,ih]

theorem mem_select {chosen : List α → α → List α → Bool} {before after : List α} (member : a ∈ select chosen before after) :
    a ∈ after ∧ ∃ front back, chosen front a back = true := by
  obtain ⟨place,inside,same⟩ := List.mem_map.mp member
  obtain ⟨here,picked⟩ := List.mem_filter.mp inside
  obtain ⟨front,_,cut⟩ := mem_contexts.mp here
  subst same
  exact ⟨by rw [cut]; simp,place.1,place.2.2,picked⟩

-- What one choice has and another has too.
theorem select_sublist {p q : List α → α → List α → Bool} (more : ∀ b a r, p b a r = true → q b a r = true) (before after : List α) :
    (select p before after).Sublist (select q before after) :=
  (List.monotone_filter_right (contexts before after) fun place => more place.1 place.2.1 place.2.2).map _

-- Two choices, one of them the wider, agree when they are as long.
theorem select_same {p q : List α → α → List α → Bool} (more : ∀ b a r, p b a r = true → q b a r = true) (before after : List α) :
    (select q before after).length ≤ (select p before after).length ↔
    ∀ place ∈ contexts before after, q place.1 place.2.1 place.2.2 = true → p place.1 place.2.1 place.2.2 = true := by
  constructor
  · intro long place member wide
    have sub := List.monotone_filter_right (contexts before after) fun place => more place.1 place.2.1 place.2.2
    have same := sub.eq_of_length_le (by simpa [select] using long)
    have inside : place ∈ (contexts before after).filter fun place => p place.1 place.2.1 place.2.2 :=
      same ▸ List.mem_filter.mpr ⟨member,wide⟩
    exact (List.mem_filter.mp inside).2
  · intro all
    have same : select q before after = select p before after := by
      unfold select
      refine congrArg _ (List.filter_congr fun place member => Bool.eq_iff_iff.mpr ⟨all place member,more _ _ _⟩)
    exact Nat.le_of_eq (congrArg List.length same)

end
end VerifiableGit.Library.Contexts
