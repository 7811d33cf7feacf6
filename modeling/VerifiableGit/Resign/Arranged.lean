import VerifiableGit.Library.Walk
import VerifiableGit.Resign.Ledger

-- The verdict over a branch against the set of pushes recorded for it.
namespace VerifiableGit.Resign
open Text Library
open Walk (Leads)

section
variable (login : Bytes) (id : Nat)

def BranchLedger.Allowed (l : BranchLedger) : Prop := ∀ p ∈ l.pushes, p.byDependabot login id = true ∨ l.isOwn p = true

-- From a creation of Dependabot's through recorded and own pushes.
inductive Path (l : BranchLedger) : Bytes → Prop
  | created (member : p ∈ l.pushes) (first : p.created = true) (author : p.byDependabot login id = true) : Path l p.after
  | pushed (member : p ∈ l.pushes) (path : Path l p.before) : Path l p.after
  | own (member : o ∈ l.own) (path : Path l o.before) : Path l o.after

-- Whichever record of a head is taken, it leads to the creation. The bridge's
-- own record of a head counts where no push delivery made it.
inductive AllLead (l : BranchLedger) : Bytes → Prop
  | pushed (some_ : ∃ p ∈ l.pushes, p.after = cur)
      (created : ∀ p ∈ l.pushes, p.after = cur → p.created = true → p.byDependabot login id = true)
      (headed : ∀ p ∈ l.pushes, p.after = cur → p.created = false → p.before ≠ zeroSha)
      (each : ∀ p ∈ l.pushes, p.after = cur → p.created = false → AllLead l p.before) : AllLead l cur
  | own (missed : ∀ p ∈ l.pushes, p.after ≠ cur) (some_ : ∃ o ∈ l.own, o.after = cur)
      (each : ∀ o ∈ l.own, o.after = cur → AllLead l o.before) : AllLead l cur

def cut : Bytes := ascii "the recorded pushes do not lead back to the branch's creation"

def pushedStep (p : PushRecord) : Except Bytes (Option Bytes) :=
  if p.created then
    if p.byDependabot login id then .ok none else .error (ascii "the branch was not created by Dependabot")
  else if p.before = zeroSha then .error (ascii "a push with no previous head is not marked as the creation")
  else .ok (some p.before)

-- One round of the loop.
def backStep (l : BranchLedger) (cur : Bytes) : Except Bytes (Option Bytes) :=
  match l.pushes.find? fun p => p.after = cur with
  | some p => pushedStep login id p
  | none =>
    match l.own.find? fun o => o.after = cur with
    | some o => .ok (some o.before)
    | none => .error (ascii "the bridge has no record of the push that made " ++ short cur ++
        ascii " the head (it may have been down when it happened)")

theorem walk_steps (l : BranchLedger) (n : Nat) (cur : Bytes) :
    walk login id l n cur = Walk.walk (backStep login id l) cut n cur := by
  induction n generalizing cur with
  | zero => rfl
  | succ n ih =>
    simp only [walk,Walk.walk,backStep,pushedStep]
    cases l.pushes.find? fun p => p.after = cur with
    | none =>
      cases l.own.find? fun o => o.after = cur with
      | none => rfl
      | some o => exact ih o.before
    | some p =>
      dsimp only
      split
      · split <;> rfl
      · split
        · rfl
        · exact ih p.before

theorem pushed_arrives (p : PushRecord) : pushedStep login id p = .ok none ↔
    p.created = true ∧ p.byDependabot login id = true := by
  unfold pushedStep
  cases p.created <;> cases p.byDependabot login id <;> simp <;> split <;> simp

theorem pushed_moves (p : PushRecord) (before : Bytes) : pushedStep login id p = .ok (some before) ↔
    p.created = false ∧ p.before ≠ zeroSha ∧ p.before = before := by
  unfold pushedStep
  cases p.created <;> cases p.byDependabot login id <;> simp <;> split <;> simp_all

section
variable {login : Bytes} {id : Nat} {l : BranchLedger}

theorem find_push {p : PushRecord} (found : (l.pushes.find? fun p => p.after = cur) = some p) :
    p ∈ l.pushes ∧ p.after = cur :=
  ⟨List.mem_of_find?_eq_some found,
    of_decide_eq_true (List.find?_some (p := fun p : PushRecord => decide (p.after = cur)) found)⟩

theorem find_own {o : OwnPush} (found : (l.own.find? fun o => o.after = cur) = some o) : o ∈ l.own ∧ o.after = cur :=
  ⟨List.mem_of_find?_eq_some found,
    of_decide_eq_true (List.find?_some (p := fun o : OwnPush => decide (o.after = cur)) found)⟩

theorem back_known (cur : Bytes) (result : Option Bytes) (moved : backStep login id l cur = .ok result) :
    cur ∈ l.pushes.map (·.after) ++ l.own.map (·.after) := by
  unfold backStep at moved
  cases found : l.pushes.find? fun p => p.after = cur with
  | some p =>
    obtain ⟨member,rfl⟩ := find_push found
    exact List.mem_append_left _ (List.mem_map_of_mem member)
  | none =>
    cases mine : l.own.find? fun o => o.after = cur with
    | some o =>
      obtain ⟨member,rfl⟩ := find_own mine
      exact List.mem_append_right _ (List.mem_map_of_mem member)
    | none =>
      rw [found,mine] at moved
      cases moved

theorem walk_exact (cur : Bytes) : walk login id l (l.pushes.length + l.own.length + 1) cur = .ok () ↔
    ∃ k, Leads (backStep login id l) k cur := by
  rw [walk_steps]
  refine Walk.walk_arrives _ back_known _ ?_ cur
  simp

theorem clean_parts (complete : l.overflow = false) (head : Bytes) : isClean login id l head = .ok () ↔
    l.Allowed login id ∧ ∃ k, Leads (backStep login id l) k head := by
  rw [← walk_exact]
  unfold isClean
  rw [complete,if_neg Bool.false_ne_true]
  cases foreign : l.pushes.find? fun p => !p.byDependabot login id && !l.isOwn p with
  | some p =>
    have bad := List.find?_some foreign
    have member := List.mem_of_find?_eq_some foreign
    constructor
    · intro clean
      cases clean
    · rintro ⟨allowed,_⟩
      rcases allowed p member with author | own
      · simp [author] at bad
      · simp [own] at bad
  | none =>
    have allowed : l.Allowed login id := by
      intro p member
      have fine := List.find?_eq_none.mp foreign p member
      by_cases author : p.byDependabot login id = true
      · exact .inl author
      · exact .inr (by simpa [author] using fine)
    exact ⟨fun walked => ⟨allowed,walked⟩,fun both => both.2⟩

-- What the walk follows is a path.
theorem leads_path (leads : Leads (backStep login id l) k cur) : Path login id l cur := by
  induction leads with
  | @here cur arrived =>
    unfold backStep at arrived
    cases found : l.pushes.find? fun p => p.after = cur with
    | some p =>
      obtain ⟨member,rfl⟩ := find_push found
      rw [found] at arrived
      obtain ⟨first,author⟩ := (pushed_arrives login id p).mp arrived
      exact .created member first author
    | none =>
      rw [found] at arrived
      cases mine : l.own.find? fun o => o.after = cur with
      | some o => rw [mine] at arrived; cases arrived
      | none => rw [mine] at arrived; cases arrived
  | @next cur before _ moved _ path =>
    unfold backStep at moved
    cases found : l.pushes.find? fun p => p.after = cur with
    | some p =>
      obtain ⟨member,rfl⟩ := find_push found
      rw [found] at moved
      obtain ⟨_,_,rfl⟩ := (pushed_moves login id p before).mp moved
      exact .pushed member path
    | none =>
      rw [found] at moved
      cases mine : l.own.find? fun o => o.after = cur with
      | some o =>
        obtain ⟨member,rfl⟩ := find_own mine
        rw [mine] at moved
        cases moved
        exact .own member path
      | none => rw [mine] at moved; cases moved

-- A verdict of clean is always right.
theorem clean_sound (complete : l.overflow = false) (head : Bytes) (clean : isClean login id l head = .ok ()) :
    l.Allowed login id ∧ Path login id l head := by
  obtain ⟨allowed,_,leads⟩ := (clean_parts complete head).mp clean
  exact ⟨allowed,leads_path leads⟩

theorem first_push {pushes : List PushRecord} (some_ : ∃ p ∈ pushes, p.after = cur) :
    ∃ p, (pushes.find? fun p => p.after = cur) = some p := by
  cases found : pushes.find? fun p => p.after = cur with
  | some p => exact ⟨p,rfl⟩
  | none =>
    obtain ⟨p,member,same⟩ := some_
    exact absurd (decide_eq_true same) (List.find?_eq_none.mp found p member)

theorem no_push {pushes : List PushRecord} (missed : ∀ p ∈ pushes, p.after ≠ cur) :
    (pushes.find? fun p => p.after = cur) = none :=
  List.find?_eq_none.mpr fun p member same => missed p member (of_decide_eq_true same)

theorem first_own {own : List OwnPush} (some_ : ∃ o ∈ own, o.after = cur) :
    ∃ o, (own.find? fun o => o.after = cur) = some o := by
  cases found : own.find? fun o => o.after = cur with
  | some o => exact ⟨o,rfl⟩
  | none =>
    obtain ⟨o,member,same⟩ := some_
    exact absurd (decide_eq_true same) (List.find?_eq_none.mp found o member)

theorem all_lead (lead : AllLead login id l cur) : ∃ k, Leads (backStep login id l) k cur := by
  induction lead with
  | @pushed cur some_ created headed _ ih =>
    obtain ⟨p,found⟩ := first_push some_
    obtain ⟨member,same⟩ := find_push found
    have step : backStep login id l cur = pushedStep login id p := by rw [backStep,found]
    cases first : p.created with
    | true =>
      exact ⟨0,.here (step.trans ((pushed_arrives login id p).mpr ⟨first,created p member same first⟩))⟩
    | false =>
      obtain ⟨k,leads⟩ := ih p member same first
      exact ⟨k + 1,.next (step.trans ((pushed_moves login id p p.before).mpr
        ⟨first,headed p member same first,rfl⟩)) leads⟩
  | @own cur missed some_ _ ih =>
    obtain ⟨o,found⟩ := first_own some_
    obtain ⟨member,same⟩ := find_own found
    obtain ⟨k,leads⟩ := ih o member same
    exact ⟨k + 1,.next (by rw [backStep,no_push missed,found]) leads⟩

/-! Arrangements of the same records -/

def BranchLedger.arranged (l : BranchLedger) (pushes : List PushRecord) (own : List OwnPush) : BranchLedger :=
  { l with pushes := pushes, own := own }

theorem all_lead_arranged {pushes : List PushRecord} {own : List OwnPush} (samePushes : pushes.Perm l.pushes)
    (sameOwn : own.Perm l.own) (lead : AllLead login id l cur) : AllLead login id (l.arranged pushes own) cur := by
  induction lead with
  | pushed some_ created headed _ ih =>
    obtain ⟨p,member,same⟩ := some_
    exact .pushed ⟨p,samePushes.mem_iff.mpr member,same⟩ (fun p member => created p (samePushes.mem_iff.mp member))
      (fun p member => headed p (samePushes.mem_iff.mp member)) (fun p member => ih p (samePushes.mem_iff.mp member))
  | own missed some_ _ ih =>
    obtain ⟨o,member,same⟩ := some_
    exact .own (fun p member => missed p (samePushes.mem_iff.mp member)) ⟨o,sameOwn.mem_iff.mpr member,same⟩
      (fun o member => ih o (sameOwn.mem_iff.mp member))

theorem allowed_arranged {pushes : List PushRecord} {own : List OwnPush} (samePushes : pushes.Perm l.pushes)
    (sameOwn : own.Perm l.own) : (l.arranged pushes own).Allowed login id ↔ l.Allowed login id := by
  have listed (p : PushRecord) : (l.arranged pushes own).isOwn p = l.isOwn p :=
    sameOwn.any_eq
  unfold BranchLedger.Allowed
  simp only [listed]
  exact forall_congr' fun p => imp_congr_left samePushes.mem_iff

theorem path_arranged {pushes : List PushRecord} {own : List OwnPush} (samePushes : pushes.Perm l.pushes)
    (sameOwn : own.Perm l.own) (path : Path login id (l.arranged pushes own) cur) : Path login id l cur := by
  induction path with
  | created member first author => exact .created (samePushes.mem_iff.mp member) first author
  | pushed member _ ih => exact .pushed (samePushes.mem_iff.mp member) ih
  | own member _ ih => exact .own (sameOwn.mem_iff.mp member) ih

end

-- Records that do not lead anywhere, from where they stand.
def StrayPush (l : BranchLedger) (p : PushRecord) : Prop :=
  (p.created = true ∧ p.byDependabot login id = false) ∨
    (p.created = false ∧ (p.before = zeroSha ∨ ¬AllLead login id l p.before))

def StrayOwn (l : BranchLedger) (o : OwnPush) : Prop := ¬AllLead login id l o.before

open Classical in
noncomputable def strayFirst {α : Type} (stray : α → Prop) (records : List α) : List α :=
  records.filter (fun r => decide (stray r)) ++ records.filter (fun r => !decide (stray r))

end

theorem stray_first_perm {α : Type} (stray : α → Prop) (records : List α) :
    (strayFirst stray records).Perm records := List.filter_append_perm _ _

-- The first of them is stray where one is.
theorem stray_first_find {α : Type} (stray : α → Prop) (records : List α) (at_ : α → Bool) (r : α)
    (found : (strayFirst stray records).find? at_ = some r) (straight : ¬stray r) :
    ∀ other ∈ records, at_ other = true → ¬stray other := by
  classical
  intro other member here bad
  rw [strayFirst,List.find?_append] at found
  have inside : other ∈ records.filter fun r => decide (stray r) := List.mem_filter.mpr ⟨member,decide_eq_true bad⟩
  cases first : (records.filter fun r => decide (stray r)).find? at_ with
  | none => exact absurd here (List.find?_eq_none.mp first other inside)
  | some x =>
    rw [first,Option.some_or] at found
    cases found
    exact straight (of_decide_eq_true (List.mem_filter.mp (List.mem_of_find?_eq_some first)).2)

section
variable (login : Bytes) (id : Nat)

-- The arrangement of the same records that leads astray wherever one does.
noncomputable def worst (l : BranchLedger) : BranchLedger :=
  l.arranged (strayFirst (StrayPush login id l) l.pushes) (strayFirst (StrayOwn login id l) l.own)

end

section
variable {login : Bytes} {id : Nat} {l : BranchLedger}

theorem straight_lead (some_ : ∃ p ∈ l.pushes, p.after = cur)
    (straight : ∀ p ∈ l.pushes, p.after = cur → ¬StrayPush login id l p) : AllLead login id l cur := by
  refine .pushed some_ (fun p member same first => ?_) (fun p member same first zero => ?_)
    (fun p member same first => ?_)
  · by_contra foreign
    exact straight p member same (.inl ⟨first,Bool.eq_false_iff.mpr foreign⟩)
  · exact straight p member same (.inr ⟨first,.inl zero⟩)
  · by_contra astray
    exact straight p member same (.inr ⟨first,.inr astray⟩)

theorem worst_push {p : PushRecord} (found : ((worst login id l).pushes.find? fun p => p.after = cur) = some p)
    (straight : ¬StrayPush login id l p) : AllLead login id l cur := by
  obtain ⟨member,same⟩ := find_push found
  refine straight_lead ⟨p,(stray_first_perm _ _).mem_iff.mp member,same⟩ fun other inside here => ?_
  exact stray_first_find (StrayPush login id l) l.pushes (fun p => p.after = cur) p found straight other inside
    (decide_eq_true here)

theorem worst_leads (leads : Leads (backStep login id (worst login id l)) k cur) : AllLead login id l cur := by
  induction leads with
  | @here cur arrived =>
    unfold backStep at arrived
    cases found : (worst login id l).pushes.find? fun p => p.after = cur with
    | some p =>
      rw [found] at arrived
      obtain ⟨first,author⟩ := (pushed_arrives login id p).mp arrived
      refine worst_push found ?_
      rintro (⟨_,foreign⟩ | ⟨later,_⟩)
      · rw [author] at foreign; cases foreign
      · rw [first] at later; cases later
    | none =>
      rw [found] at arrived
      cases mine : (worst login id l).own.find? fun o => o.after = cur with
      | some o => rw [mine] at arrived; cases arrived
      | none => rw [mine] at arrived; cases arrived
  | @next cur before _ moved _ lead =>
    unfold backStep at moved
    cases found : (worst login id l).pushes.find? fun p => p.after = cur with
    | some p =>
      rw [found] at moved
      obtain ⟨later,headed,rfl⟩ := (pushed_moves login id p before).mp moved
      refine worst_push found ?_
      rintro (⟨first,_⟩ | ⟨_,zero | astray⟩)
      · rw [later] at first; cases first
      · exact headed zero
      · exact astray lead
    | none =>
      rw [found] at moved
      cases mine : (worst login id l).own.find? fun o => o.after = cur with
      | some o =>
        obtain ⟨member,same⟩ := find_own mine
        rw [mine] at moved
        cases moved
        refine .own (fun p member here => ?_) ⟨o,(stray_first_perm _ _).mem_iff.mp member,same⟩
          (fun other inside here => ?_)
        · exact List.find?_eq_none.mp found p ((stray_first_perm _ _).mem_iff.mpr member) (decide_eq_true here)
        · by_contra astray
          exact stray_first_find (StrayOwn login id l) l.own (fun o => o.after = cur) o mine (fun bad => bad lead)
            other inside (decide_eq_true here) astray
      | none => rw [mine] at moved; cases moved

end

-- The verdict over every arrangement of the same records is that of the set
-- exactly when no record of a head on the way leads astray.
theorem is_clean_exact (login : Bytes) (id : Nat) (l : BranchLedger) (head : Bytes) (complete : l.overflow = false) :
    (∀ pushes own, pushes.Perm l.pushes → own.Perm l.own →
      (isClean login id (l.arranged pushes own) head = .ok () ↔ l.Allowed login id ∧ Path login id l head)) ↔
    (l.Allowed login id → Path login id l head → AllLead login id l head) := by
  constructor
  · intro verdict allowed path
    have clean := (verdict _ _ (stray_first_perm (StrayPush login id l) l.pushes)
      (stray_first_perm (StrayOwn login id l) l.own)).mpr ⟨allowed,path⟩
    obtain ⟨_,_,leads⟩ := (clean_parts (l := worst login id l) complete head).mp clean
    exact worst_leads leads
  · intro lead pushes own samePushes sameOwn
    constructor
    · intro clean
      obtain ⟨allowed,path⟩ := clean_sound (l := l.arranged pushes own) complete head clean
      exact ⟨(allowed_arranged samePushes sameOwn).mp allowed,path_arranged samePushes sameOwn path⟩
    · rintro ⟨allowed,path⟩
      refine (clean_parts (l := l.arranged pushes own) complete head).mpr ⟨?_,?_⟩
      · exact (allowed_arranged samePushes sameOwn).mpr allowed
      · exact all_lead (all_lead_arranged samePushes sameOwn (lead allowed path))

namespace Forced

def dependabot : Bytes := [100]

def shaOf (c : UInt8) : Bytes := List.replicate 40 c

def pushOf (before after : Bytes) (created : Bool) : PushRecord := ⟨before,after,dependabot,1,created,none,0⟩

-- `a` created, pushed on to `b`, and forced back to `a`.
def creation : PushRecord := pushOf zeroSha (shaOf 97) true
def onward : PushRecord := pushOf (shaOf 97) (shaOf 98) false
def forced : PushRecord := pushOf (shaOf 98) (shaOf 97) false

def forcedLast : BranchLedger := { pushes := [creation,onward,forced] }
def forcedFirst : BranchLedger := { pushes := [forced,creation,onward] }

-- The same pushes in another order: clean in one, not in the other.
theorem order_decides : isClean dependabot 1 forcedLast (shaOf 97) = .ok () ∧
    isClean dependabot 1 forcedFirst (shaOf 97) ≠ .ok () ∧ forcedFirst.pushes.Perm forcedLast.pushes ∧
    forcedFirst.Allowed dependabot 1 ∧ Path dependabot 1 forcedFirst (shaOf 97) ∧ forcedFirst.overflow = false := by
  refine ⟨by decide,by decide,by decide,by unfold BranchLedger.Allowed; decide,?_,rfl⟩
  exact .created (p := creation) (by decide) rfl (by decide)

def straight : BranchLedger := { pushes := [onward,creation] }

theorem straight_exact : straight.overflow = false ∧ ∀ pushes own, pushes.Perm straight.pushes → own.Perm straight.own →
    (isClean dependabot 1 (straight.arranged pushes own) (shaOf 98) = .ok () ↔
      straight.Allowed dependabot 1 ∧ Path dependabot 1 straight (shaOf 98)) := by
  refine ⟨rfl,(is_clean_exact dependabot 1 straight (shaOf 98) rfl).mpr fun _ _ => ?_⟩
  have created : ∀ p ∈ straight.pushes, p.after = shaOf 97 → p.created ≠ false := by decide
  have first : AllLead dependabot 1 straight (shaOf 97) :=
    .pushed ⟨creation,by decide⟩ (by decide) (by decide) fun p member same later => absurd later (created p member same)
  refine .pushed ⟨onward,by decide⟩ (by decide) (by decide) fun p member same later => ?_
  have only : p = onward := by
    revert p
    decide
  exact only ▸ first

end Forced

end VerifiableGit.Resign
