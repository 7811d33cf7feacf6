-- A loop that fails, ends with a value or goes on, cut off after a number of turns.
namespace VerifiableGit.Library.Loop
universe u v w

inductive Turn (σ : Type u) (β : Type v) where
  | next (state : σ)
  | ends (value : β)

section
variable {σ : Type u} {β : Type v} {ε : Type w}

def loop (body : σ → Except ε (Turn σ β)) : Nat → σ → Option (Except ε β)
  | 0,_ => none
  | n + 1,s =>
    match body s with
    | .error e => some (.error e)
    | .ok (.ends value) => some (.ok value)
    | .ok (.next s') => loop body n s'

-- A turn from where the invariant holds goes on below, with the invariant, or
-- ends with what is wanted. It never fails.
def Sound (body : σ → Except ε (Turn σ β)) (inv : σ → Prop) (below : σ → σ → Prop) (post : β → Prop) : Prop :=
  ∀ s, inv s → (∃ s', body s = .ok (.next s') ∧ inv s' ∧ below s' s) ∨ ∃ value, body s = .ok (.ends value) ∧ post value

variable {body : σ → Except ε (Turn σ β)} {inv : σ → Prop} {below : σ → σ → Prop} {post : β → Prop}

theorem loop_ends (wf : WellFounded below) (sound : Sound body inv below post) (s : σ) (holds : inv s) :
    ∃ value, post value ∧ ∃ n, ∀ fuel ≥ n, loop body fuel s = some (.ok value) := by
  induction s using wf.induction with
  | h s ih =>
    cases sound s holds with
    | inl goes =>
      obtain ⟨s',turn,kept,lower⟩ := goes
      obtain ⟨value,wanted,n,runs⟩ := ih s' lower kept
      refine ⟨value,wanted,n + 1,fun fuel enough => ?_⟩
      obtain ⟨more,rfl⟩ := Nat.exists_eq_add_of_le' enough
      rw [← Nat.add_assoc,loop,turn]
      exact runs (more + n) (Nat.le_add_left n more)
    | inr ended =>
      obtain ⟨value,turn,wanted⟩ := ended
      refine ⟨value,wanted,1,fun fuel enough => ?_⟩
      obtain ⟨more,rfl⟩ := Nat.exists_eq_add_of_le' enough
      rw [loop,turn]

end

end VerifiableGit.Library.Loop
