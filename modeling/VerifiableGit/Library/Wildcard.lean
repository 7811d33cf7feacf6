import Mathlib.Data.List.Basic

-- Patterns in which one letter stands for any run of letters.
namespace VerifiableGit.Library.Wildcard
universe u

section
variable {α : Type u} (star : α)

-- The text is the pattern with each star replaced by some run.
inductive Expands : List α → List α → Prop
  | nil : Expands [] []
  | run (run : List α) (rest : Expands p t) : Expands (star :: p) (run ++ t)
  | letter (plain : c ≠ star) (rest : Expands p t) : Expands (c :: p) (c :: t)

def Plain (w : List α) : Prop := ∀ c ∈ w, c ≠ star

variable {star} {p q t u w : List α} {c x : α}

theorem expands_nil : Expands star [] t ↔ t = [] := by
  constructor
  · intro expands
    cases expands
    rfl
  · intro empty
    rw [empty]
    exact .nil

theorem expands_star : Expands star (star :: p) t ↔ ∃ run rest, t = run ++ rest ∧ Expands star p rest := by
  constructor
  · intro expands
    cases expands with
    | run run rest => exact ⟨run,_,rfl,rest⟩
    | letter plain rest => exact absurd rfl plain
  · intro cut
    obtain ⟨run,rest,same,expands⟩ := cut
    rw [same]
    exact .run run expands

theorem expands_letter (plain : c ≠ star) : Expands star (c :: p) t ↔ ∃ rest, t = c :: rest ∧ Expands star p rest := by
  constructor
  · intro expands
    cases expands with
    | run => exact absurd rfl plain
    | letter _ rest => exact ⟨_,rfl,rest⟩
  · intro cut
    obtain ⟨rest,same,expands⟩ := cut
    rw [same]
    exact .letter plain expands

-- A text with a letter takes it into the star's run, or leaves the run empty.
theorem expands_star_cons : Expands star (star :: p) (x :: t) ↔ Expands star p (x :: t) ∨ Expands star (star :: p) t := by
  rw [expands_star,expands_star]
  constructor
  · intro cut
    obtain ⟨run,rest,same,expands⟩ := cut
    cases run with
    | nil => exact .inl (same ▸ expands)
    | cons y run =>
      rw [List.cons_append,List.cons.injEq] at same
      exact .inr ⟨run,rest,same.2,expands⟩
  · intro either
    cases either with
    | inl expands => exact ⟨[],_,rfl,expands⟩
    | inr cut =>
      obtain ⟨run,rest,same,expands⟩ := cut
      exact ⟨x :: run,rest,by rw [same,List.cons_append],expands⟩

theorem expands_word (plain : Plain star w) : Expands star (w ++ p) t ↔ ∃ rest, t = w ++ rest ∧ Expands star p rest := by
  induction w generalizing t with
  | nil => simp
  | cons c w ih =>
    have other : c ≠ star := plain c List.mem_cons_self
    have tail : Plain star w := fun d member => plain d (List.mem_cons_of_mem c member)
    rw [List.cons_append,expands_letter other]
    constructor
    · intro cut
      obtain ⟨rest,same,expands⟩ := cut
      obtain ⟨last,same',expands'⟩ := (ih tail).mp expands
      exact ⟨last,by rw [same,same',List.cons_append],expands'⟩
    · intro cut
      obtain ⟨last,same,expands⟩ := cut
      exact ⟨w ++ last,same,(ih tail).mpr ⟨last,rfl,expands⟩⟩

theorem expands_same (plain : Plain star w) : Expands star (w ++ p) (w ++ t) ↔ Expands star p t := by
  rw [expands_word plain]
  constructor
  · intro cut
    obtain ⟨rest,same,expands⟩ := cut
    rw [List.append_cancel_left same]
    exact expands
  · exact fun expands => ⟨t,rfl,expands⟩

theorem expands_empty : Expands star p [] ↔ ∀ c ∈ p, c = star := by
  induction p with
  | nil => simp [expands_nil]
  | cons c p ih =>
    by_cases same : c = star
    · subst same
      rw [expands_star,List.forall_mem_cons,← ih]
      constructor
      · intro cut
        obtain ⟨run,rest,same,expands⟩ := cut
        obtain ⟨_,empty⟩ := List.append_eq_nil_iff.mp same.symm
        exact ⟨rfl,empty ▸ expands⟩
      · exact fun all => ⟨[],[],rfl,all.2⟩
    · rw [expands_letter same]
      constructor
      · intro cut
        obtain ⟨_,empty,_⟩ := cut
        cases empty
      · intro all
        exact absurd (all c List.mem_cons_self) same

-- Where a word has been found behind a star and the next star follows it, no
-- other place of the word has to be tried: its text can go to the later run.
theorem expands_next (plain : Plain star w) :
    Expands star (star :: (w ++ star :: p)) (w ++ t) ↔ Expands star (star :: p) t := by
  constructor
  · intro expands
    obtain ⟨run,rest,same,tail⟩ := expands_star.mp expands
    obtain ⟨last,same',tail'⟩ := (expands_word plain).mp tail
    obtain ⟨more,final,same'',expands'⟩ := expands_star.mp tail'
    have long : w.length ≤ (run ++ (w ++ more)).length := by simp only [List.length_append]; omega
    have whole : w ++ t = (run ++ (w ++ more)) ++ final := by rw [same,same',same'']; simp only [List.append_assoc]
    have left : t = (run ++ (w ++ more)).drop w.length ++ final := by
      have dropped := congrArg (List.drop w.length) whole
      rwa [List.drop_left,List.drop_append_of_le_length long] at dropped
    rw [left]
    exact .run _ expands'
  · intro expands
    exact .run [] ((expands_same plain).mpr expands)

-- Behind a word that ends the text nothing but stars can follow.
theorem expands_last (plain : Plain star w) : Expands star (star :: (w ++ p)) w ↔ Expands star p [] := by
  constructor
  · intro expands
    obtain ⟨run,rest,same,tail⟩ := expands_star.mp expands
    obtain ⟨last,same',tail'⟩ := (expands_word plain).mp tail
    have short := congrArg List.length same
    rw [same',List.length_append,List.length_append] at short
    have empty : last = [] := List.length_eq_zero_iff.mp (by omega)
    exact empty ▸ tail'
  · intro expands
    have whole := (expands_same (p := p) (t := []) plain).mpr expands
    rw [List.append_nil] at whole
    exact .run [] whole

-- Where the pattern breaks off behind the word, the star's run is longer.
theorem expands_longer (plain : Plain star w) (broken : ¬Expands star p (x :: t)) :
    Expands star (star :: (w ++ p)) (w ++ x :: t) ↔ Expands star (star :: (w ++ p)) (w ++ x :: t).tail := by
  have whole : ¬Expands star (w ++ p) (w ++ x :: t) := fun expands => broken ((expands_same plain).mp expands)
  cases text : w ++ x :: t with
  | nil => simp at text
  | cons y rest =>
    rw [text] at whole
    rw [expands_star_cons,List.tail_cons]
    exact ⟨fun either => either.resolve_left whole,.inr⟩

end

end VerifiableGit.Library.Wildcard
