import Mathlib.Order.FixedPoints
import Mathlib.Order.CompletePartialOrder
import Mathlib.Logic.Function.Iterate

-- Nodes judged in rounds. A round judges every open node by what was known
-- before it; a verdict once given stands.
namespace VerifiableGit.Library.Rounds

section
variable {α : Type u} {V : Type v} (judge : (α → Option V) → α → Option V)

def round (known : α → Option V) (x : α) : Option V := (known x).or (judge known x)

def after (n : Nat) : α → Option V := (round judge)^[n] fun _ => none

def Stable (known : α → Option V) : Prop := round judge known = known

theorem after_succ (n : Nat) : after judge (n + 1) = round judge (after judge n) :=
  Function.iterate_succ_apply' _ _ _

theorem stable_later (stable : Stable judge (after judge n)) (more : Nat) :
    after judge (n + more) = after judge n := by
  induction more with
  | zero => rfl
  | succ more ih => rw [← Nat.add_assoc,after_succ,ih,stable]

theorem stable_unique (one : Stable judge (after judge n)) (two : Stable judge (after judge m)) :
    after judge n = after judge m := by
  rcases Nat.le_total n m with below | below
  · obtain ⟨more,rfl⟩ := Nat.exists_eq_add_of_le below
    exact (stable_later judge one more).symm
  · obtain ⟨more,rfl⟩ := Nat.exists_eq_add_of_le below
    exact stable_later judge two more

theorem stable_open (stable : Stable judge known) (open_ : known x = none) : judge known x = none := by
  have same := congrFun stable x
  rwa [round,open_,Option.none_or] at same

end

section
variable {α : Type u} {V : Type v} {judge : (α → Option V) → α → Option V} {pass : V → Prop}

def passing (pass : V → Prop) (known : α → Option V) : Set α := {x | ∃ v, known x = some v ∧ pass v}

-- The judge decides a monotone rule: what it passes follows from what passed,
-- what it rejects is not in the least set as long as the verdicts agree with
-- it, and what it leaves open does not follow yet.
structure Decides (judge : (α → Option V) → α → Option V) (pass : V → Prop) (rule : Set α →o Set α) :
    Prop where
  sound : ∀ known x v, judge known x = some v → pass v → x ∈ rule (passing pass known)
  refutes : ∀ known x v, judge known x = some v → ¬ pass v →
    (∀ y w, known y = some w → y ∈ rule.lfp → pass w) → x ∉ rule.lfp
  waits : ∀ known x, judge known x = none → x ∉ rule (passing pass known)

variable {rule : Set α →o Set α}

theorem known_exact (decides : Decides judge pass rule) (n : Nat) (x : α) (v : V)
    (found : after judge n x = some v) : pass v ↔ x ∈ rule.lfp := by
  induction n generalizing x v with
  | zero => cases found
  | succ n ih =>
    rw [after_succ,round] at found
    cases old : after judge n x with
    | some w =>
      rw [old,Option.some_or] at found
      cases found
      exact ih x v old
    | none =>
      rw [old,Option.none_or] at found
      have passed : passing pass (after judge n) ⊆ rule.lfp := by
        rintro y ⟨w,known,good⟩
        exact (ih y w known).mp good
      constructor
      · intro good
        rw [← rule.map_lfp]
        exact rule.monotone passed (decides.sound _ x v found good)
      · intro inside
        by_contra bad
        exact decides.refutes _ x v found bad (fun y w known member => (ih y w known).mpr member) inside

theorem passing_below (decides : Decides judge pass rule) (n : Nat) :
    passing pass (after judge n) ⊆ rule.lfp := by
  rintro x ⟨v,found,good⟩
  exact (known_exact decides n x v found).mp good

theorem passing_exact (decides : Decides judge pass rule) (stable : Stable judge (after judge n)) :
    passing pass (after judge n) = rule.lfp := by
  refine Set.Subset.antisymm (passing_below decides n) (rule.lfp_le ?_)
  intro x follows
  cases found : after judge n x with
  | none => exact absurd follows (decides.waits _ x (stable_open judge stable found))
  | some v =>
    refine ⟨v,found,(known_exact decides n x v found).mpr ?_⟩
    rw [← rule.map_lfp]
    exact rule.monotone (passing_below decides n) follows

end

end VerifiableGit.Library.Rounds
