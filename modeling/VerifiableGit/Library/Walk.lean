import Mathlib.Data.List.Basic
import Mathlib.Data.List.Nodup

-- A walk that follows one step from a place to the next, until it arrives or
-- fails, and is cut off after a number of steps.
namespace VerifiableGit.Library.Walk

variable {α : Type u} {ε : Type v}

def walk (step : α → Except ε (Option α)) (cut : ε) : Nat → α → Except ε Unit
  | 0,_ => .error cut
  | n + 1,place =>
    match step place with
    | .error e => .error e
    | .ok none => .ok ()
    | .ok (some next) => walk step cut n next

-- `place` is so many steps before the arrival.
inductive Leads (step : α → Except ε (Option α)) : Nat → α → Prop
  | here (arrived : step place = .ok none) : Leads step 0 place
  | next (moved : step place = .ok (some after)) (leads : Leads step n after) : Leads step (n + 1) place

variable {step : α → Except ε (Option α)} {cut : ε}

theorem walk_leads (n : Nat) (place : α) : walk step cut n place = .ok () ↔ ∃ k < n, Leads step k place := by
  induction n generalizing place with
  | zero =>
    constructor
    · intro arrived
      cases arrived
    · rintro ⟨k,below,_⟩
      exact absurd below (Nat.not_lt_zero k)
  | succ n ih =>
    unfold walk
    cases moved : step place with
    | error e =>
      constructor
      · intro arrived
        cases arrived
      · rintro ⟨k,_,leads⟩
        cases leads <;> simp_all
    | ok next =>
      cases next with
      | none => exact ⟨fun _ => ⟨0,Nat.succ_pos n,.here moved⟩,fun _ => rfl⟩
      | some after =>
        refine (ih after).trans ⟨?_,?_⟩
        · rintro ⟨k,below,leads⟩
          exact ⟨k + 1,Nat.succ_lt_succ below,.next moved leads⟩
        · rintro ⟨k,below,leads⟩
          cases leads with
          | here arrived => rw [moved] at arrived; cases arrived
          | next moved' leads =>
            rw [moved] at moved'
            cases moved'
            exact ⟨_,Nat.lt_of_succ_lt_succ below,leads⟩

theorem leads_unique (one : Leads step n place) (two : Leads step m place) : n = m := by
  induction one generalizing m with
  | here arrived =>
    cases two with
    | here => rfl
    | next moved => rw [arrived] at moved; cases moved
  | next moved _ ih =>
    cases two with
    | here arrived => rw [moved] at arrived; cases arrived
    | next moved' leads =>
      rw [moved] at moved'
      cases moved'
      rw [ih leads]

-- No place comes twice: each is its own number of steps away.
theorem visited (leads : Leads step n place) :
    ∃ places : List α, places.length = n + 1 ∧ places.Nodup ∧ ∀ x ∈ places, ∃ k ≤ n, Leads step k x := by
  induction leads with
  | @here place arrived => exact ⟨[place],rfl,List.nodup_singleton place,fun x member =>
      ⟨0,Nat.le_refl 0,List.mem_singleton.mp member ▸ .here arrived⟩⟩
  | @next place after n moved leads ih =>
    obtain ⟨places,length,nodup,below⟩ := ih
    refine ⟨place :: places,by rw [List.length_cons,length],List.nodup_cons.mpr ⟨?_,nodup⟩,?_⟩
    · intro again
      obtain ⟨k,least,sooner⟩ := below place again
      have same := leads_unique sooner (.next moved leads)
      omega
    · intro x member
      rcases List.mem_cons.mp member with rfl | member
      · exact ⟨n + 1,Nat.le_refl _,.next moved leads⟩
      · obtain ⟨k,least,sooner⟩ := below x member
        exact ⟨k,Nat.le_succ_of_le least,sooner⟩

theorem leads_bounded (sources : List α) (known : ∀ place result, step place = .ok result → place ∈ sources)
    (leads : Leads step n place) : n < sources.length := by
  obtain ⟨places,length,nodup,below⟩ := visited leads
  have inside : places ⊆ sources := by
    intro x member
    obtain ⟨_,_,sooner⟩ := below x member
    cases sooner with
    | here arrived => exact known x _ arrived
    | next moved _ => exact known x _ moved
  have short := nodup.length_le_of_subset inside
  omega

-- With more steps than there are places to step from, the cut is never felt.
theorem walk_arrives (sources : List α) (known : ∀ place result, step place = .ok result → place ∈ sources)
    (n : Nat) (enough : sources.length ≤ n) (place : α) :
    walk step cut n place = .ok () ↔ ∃ k, Leads step k place := by
  rw [walk_leads]
  constructor
  · rintro ⟨k,_,leads⟩
    exact ⟨k,leads⟩
  · rintro ⟨k,leads⟩
    exact ⟨k,Nat.lt_of_lt_of_le (leads_bounded sources known leads) enough,leads⟩

end VerifiableGit.Library.Walk
