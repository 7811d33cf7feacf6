import Mathlib.Data.List.Basic
import Mathlib.Data.List.Infix
import Mathlib.Data.List.Flatten

-- How often a mark stands in a text.
namespace VerifiableGit.Library.Occurrences

section
variable {α : Type} [DecidableEq α] {mark : List α}

def occurrences (mark : List α) : List α → Nat
  | [] => 0
  | a :: rest => (if mark <+: a :: rest then 1 else 0) + occurrences mark rest

-- No mark can stand across the two.
def Apart (mark left right : List α) : Prop := (∀ a ∈ left.getLast?, a ∉ mark) ∨ ∀ b ∈ right.head?, b ∉ mark

omit [DecidableEq α] in
theorem apart_last {left right : List α} {a : α} (last : left.getLast? = some a) (other : a ∉ mark) : Apart mark left right := by
  refine .inl fun b here => ?_
  cases here.symm.trans last
  exact other

omit [DecidableEq α] in
theorem apart_first {left right : List α} {b : α} (first : right.head? = some b) (other : b ∉ mark) : Apart mark left right := by
  refine .inr fun c here => ?_
  cases here.symm.trans first
  exact other

omit [DecidableEq α] in
theorem prefix_apart {left right : List α} (some_ : left ≠ []) (apart : Apart mark left right) :
    mark <+: left ++ right ↔ mark <+: left := by
  constructor
  · intro whole
    rcases List.prefix_or_prefix_of_prefix whole (List.prefix_append left right) with inside | ⟨rest,same⟩
    · exact inside
    cases rest with
    | nil => exact ⟨[],by rw [← same,List.append_nil,List.append_nil]⟩
    | cons b rest =>
      rw [← same] at whole
      obtain ⟨more,tail⟩ := (List.prefix_append_right_inj left).mp whole
      rcases apart with last | first
      · refine absurd ?_ (last _ (List.getLast?_eq_some_getLast some_))
        rw [← same]
        exact List.mem_append_left _ (List.getLast_mem some_)
      · refine absurd ?_ (first b (by rw [← tail]; rfl))
        rw [← same]
        exact List.mem_append_right _ List.mem_cons_self
  · exact fun inside => inside.trans (List.prefix_append _ _)

omit [DecidableEq α] in
theorem apart_cons {a : α} {left right : List α} (apart : Apart mark (a :: left) right) : Apart mark left right := by
  refine apart.imp (fun last b here => ?_) id
  cases left with
  | nil => cases here
  | cons c left => exact last b (by rwa [List.getLast?_cons_cons])

theorem occurrences_append (left : List α) {right : List α} (apart : Apart mark left right) :
    occurrences mark (left ++ right) = occurrences mark left + occurrences mark right := by
  induction left with
  | nil => rw [List.nil_append,occurrences,Nat.zero_add]
  | cons a left ih =>
    have here : (mark <+: a :: (left ++ right)) = (mark <+: a :: left) :=
      propext (prefix_apart (List.cons_ne_nil a left) apart)
    rw [List.cons_append,occurrences,occurrences,ih (apart_cons apart),Nat.add_assoc]
    simp only [here]

theorem occurrences_zero (some_ : mark ≠ []) (s : List α) : occurrences mark s = 0 ↔ ¬ mark <:+: s := by
  induction s with
  | nil =>
    rw [List.infix_nil]
    exact ⟨fun _ => some_,fun _ => rfl⟩
  | cons a rest ih =>
    rw [occurrences,Nat.add_eq_zero_iff,ih,List.infix_cons_iff,not_or]
    refine and_congr_left' ?_
    split
    · rename_i here
      exact ⟨nofun,fun never => absurd here never⟩
    · rename_i never
      exact ⟨fun _ => never,fun _ => rfl⟩

theorem occurrences_absent {a : α} (member : a ∈ mark) {s : List α} (absent : a ∉ s) : occurrences mark s = 0 :=
  (occurrences_zero (List.ne_nil_of_mem member) s).mpr fun inside => absent (inside.subset member)

theorem occurrences_infix {part s : List α} (some_ : mark ≠ []) (inside : part <:+: s) (none_ : occurrences mark s = 0) :
    occurrences mark part = 0 :=
  (occurrences_zero some_ part).mpr fun here => (occurrences_zero some_ s).mp none_ (here.trans inside)

-- A rewriting that leaves the characters of the mark as they are, and writes others
-- for the others.
def Foreign (mark : List α) (f : α → List α) : Prop := ∀ c, f c = [c] ∨ c ∉ mark ∧ f c ≠ [] ∧ ∀ d ∈ f c, d ∉ mark

omit [DecidableEq α] in
theorem prefix_foreign {f : α → List α} (foreign : Foreign mark f) (s : List α) {part : List α} (inside : ∀ a ∈ part, a ∈ mark) :
    part <+: s.flatMap f ↔ part <+: s := by
  induction s generalizing part with
  | nil => rfl
  | cons c rest ih =>
    cases part with
    | nil => exact ⟨fun _ => List.nil_prefix,fun _ => List.nil_prefix⟩
    | cons m part =>
      rw [List.flatMap_cons]
      rcases foreign c with same | ⟨out,some_,others⟩
      · rw [same,List.singleton_append,List.cons_prefix_cons,List.cons_prefix_cons,
          ih fun a member => inside a (List.mem_cons_of_mem _ member)]
      · obtain ⟨d,ds,here⟩ := List.exists_cons_of_ne_nil some_
        have stands := inside m List.mem_cons_self
        rw [here,List.cons_append,List.cons_prefix_cons,List.cons_prefix_cons]
        constructor
        · rintro ⟨rfl,_⟩
          exact absurd stands (others m (by rw [here]; exact List.mem_cons_self))
        · rintro ⟨rfl,_⟩
          exact absurd stands out

theorem occurrences_foreign {f : α → List α} (some_ : mark ≠ []) (foreign : Foreign mark f) (s : List α) :
    occurrences mark (s.flatMap f) = occurrences mark s := by
  induction s with
  | nil => rfl
  | cons c rest ih =>
    have here : mark <+: (c :: rest).flatMap f ↔ mark <+: c :: rest := prefix_foreign foreign _ fun _ member => member
    rw [List.flatMap_cons] at here ⊢
    rcases foreign c with same | ⟨out,more,others⟩
    · rw [same,List.singleton_append] at here ⊢
      rw [occurrences,occurrences,ih]
      simp only [here]
    · have stand : occurrences mark (f c) = 0 := by
        obtain ⟨a,member⟩ := List.exists_mem_of_ne_nil mark some_
        exact occurrences_absent member fun inside => others a inside member
      have apart : Apart mark (f c) (rest.flatMap f) := .inl fun a last => others a (List.mem_of_getLast? last)
      have never : ¬ mark <+: c :: rest := by
        obtain ⟨m,ms,rfl⟩ := List.exists_cons_of_ne_nil some_
        rintro begins
        exact out ((List.cons_prefix_cons.mp begins).1 ▸ List.mem_cons_self)
      rw [occurrences_append _ apart,stand,Nat.zero_add,ih,occurrences,if_neg never,Nat.zero_add]

end

end VerifiableGit.Library.Occurrences
