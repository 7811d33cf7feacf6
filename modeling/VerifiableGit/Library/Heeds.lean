import VerifiableGit.Library.Crew

-- What a program asks and comes to, given that every answer it has had is a true
-- one. What is true of an answer must not depend on when it is given.
namespace VerifiableGit.Library.Interaction

section
variable {Q : Type} {R : Q → Type} {α β : Type}

def Prog.Heeds (told : (q : Q) → R q → Prop) (allowed : History Q R → Q → Prop) (post : History Q R → α → Prop) :
    History Q R → Prog Q R α → Prop
  | seen,.done a => post seen a
  | seen,.call q next => allowed seen q ∧ ∀ r, told q r → Heeds told allowed post (⟨q,r⟩ :: seen) (next r)

-- Every answer so far is a true one.
def Told (told : (q : Q) → R q → Prop) (seen : History Q R) : Prop := ∀ q r, ⟨q,r⟩ ∈ seen → told q r

variable {told : (q : Q) → R q → Prop} {allowed : History Q R → Q → Prop} {post : History Q R → α → Prop}

theorem told_cons {q : Q} {r : R q} (all : Told told (⟨q,r⟩ :: seen)) : told q r ∧ Told told seen :=
  ⟨all q r List.mem_cons_self,fun q' r' inside => all q' r' (List.mem_cons_of_mem _ inside)⟩

theorem heeds_follows (p : Prog Q R α) (heeds : p.Heeds told allowed post seen) :
    p.Follows (fun seen q => Told told seen → allowed seen q) (fun seen a => Told told seen → post seen a) seen := by
  suffices under : ∀ (seen : History Q R), (Told told seen → p.Heeds told allowed post seen) →
      p.Follows (fun seen q => Told told seen → allowed seen q) (fun seen a => Told told seen → post seen a) seen from
    under seen fun _ => heeds
  clear heeds
  induction p with
  | done a => exact fun seen heeds => heeds
  | call q next ih =>
    intro seen heeds
    refine ⟨fun all => (heeds all).1,fun r => ih r _ fun all => ?_⟩
    obtain ⟨here,before⟩ := told_cons all
    exact (heeds before).2 r here

theorem heeds_ask {q : Q} {post : History Q R → R q → Prop} (here : allowed seen q)
    (last : ∀ r, told q r → post (⟨q,r⟩ :: seen) r) : (ask q : Prog Q R (R q)).Heeds told allowed post seen :=
  ⟨here,last⟩

theorem heeds_next {q : Q} {post : History Q R → β → Prop} (f : R q → Prog Q R β) (here : allowed seen q)
    (rest : ∀ r, told q r → (f r).Heeds told allowed post (⟨q,r⟩ :: seen)) :
    ((ask q : Prog Q R (R q)) >>= f).Heeds told allowed post seen := ⟨here,rest⟩

theorem heeds_weaken {other : History Q R → α → Prop} (p : Prog Q R α) (heeds : p.Heeds told allowed post seen)
    (weaker : ∀ after a, seen <:+ after → post after a → other after a) : p.Heeds told allowed other seen := by
  induction p generalizing seen with
  | done a => exact weaker seen a List.suffix_rfl heeds
  | call q next ih =>
    refine ⟨heeds.1,fun r here => ih r (heeds.2 r here) fun after a later reached => ?_⟩
    exact weaker after a ((List.suffix_cons _ _).trans later) reached

theorem heeds_bind {M : History Q R → α → Prop} {post : History Q R → β → Prop} (p : Prog Q R α)
    (f : α → Prog Q R β) (first : p.Heeds told allowed M seen)
    (rest : ∀ after a, seen <:+ after → M after a → (f a).Heeds told allowed post after) :
    (p >>= f).Heeds told allowed post seen := by
  induction p generalizing seen with
  | done a => exact rest seen a List.suffix_rfl first
  | call q next ih =>
    refine ⟨first.1,fun r here => ih r (first.2 r here) fun after a later reached => ?_⟩
    exact rest after a ((List.suffix_cons _ _).trans later) reached

-- A program that may fail: what it does next is only done after it succeeds.
theorem heeds_fallible {ε : Type} {M : History Q R → Except ε α → Prop} {post : History Q R → Except ε β → Prop}
    (p : ExceptT ε (Prog Q R) α) (f : α → ExceptT ε (Prog Q R) β) (first : p.run.Heeds told allowed M seen)
    (onOk : ∀ after a, seen <:+ after → M after (.ok a) → (f a).run.Heeds told allowed post after)
    (onError : ∀ after e, seen <:+ after → M after (.error e) → post after (.error e)) :
    (p >>= f).run.Heeds told allowed post seen := by
  refine heeds_bind p.run _ first fun after result later reached => ?_
  cases result with
  | ok a => exact onOk after a later reached
  | error e => exact onError after e later reached

-- What is done with no error of its own, as far as errors do not matter.
def onOk {ε : Type} (post : History Q R → α → Prop) (seen : History Q R) : Except ε α → Prop
  | .ok a => post seen a
  | .error _ => True

theorem heeds_then {ε : Type} {M : History Q R → α → Prop} {post : History Q R → β → Prop} (p : ExceptT ε (Prog Q R) α)
    (f : α → ExceptT ε (Prog Q R) β) (first : p.run.Heeds told allowed (onOk M) seen)
    (rest : ∀ after a, seen <:+ after → M after a → (f a).run.Heeds told allowed (onOk post) after) :
    (p >>= f).run.Heeds told allowed (onOk post) seen :=
  heeds_fallible p f first (fun after a later reached => rest after a later reached) fun _ _ _ _ => trivial

-- A program that cannot fail, in one that can.
theorem heeds_lift {ε : Type} {M : History Q R → α → Prop} {post : History Q R → Except ε β → Prop} (p : Prog Q R α)
    (f : α → ExceptT ε (Prog Q R) β) (first : p.Heeds told allowed M seen)
    (rest : ∀ after a, seen <:+ after → M after a → (f a).run.Heeds told allowed post after) :
    ((ExceptT.lift p : ExceptT ε (Prog Q R) α) >>= f).run.Heeds told allowed post seen := by
  refine heeds_fallible _ _ (M := fun after result => ∃ a, result = .ok a ∧ M after a) ?_ ?_ ?_
  · exact heeds_bind p _ first fun _ a _ reached => ⟨a,rfl,reached⟩
  · intro after a later reached
    obtain ⟨_,same,here⟩ := reached
    cases same
    exact rest after a later here
  · intro _ _ _ reached
    obtain ⟨_,bad,_⟩ := reached
    cases bad

end

-- A run on its own where an answer may depend on all that was asked before.
section
variable {Q : Type} {R : Q → Type} {α : Type}

def logged (oracle : History Q R → (q : Q) → R q) (q : Q) (seen : History Q R) : Option (R q × History Q R) :=
  some (oracle seen q,⟨q,oracle seen q⟩ :: seen)

theorem logged_told {told : (q : Q) → R q → Prop} {oracle : History Q R → (q : Q) → R q} (true_ : ∀ seen q, told q (oracle seen q)) (n : Nat)
    (p : Prog Q R α) (before : Told told seen) (ran : p.advance (logged oracle) n seen = some (after,rest)) : Told told after := by
  induction n generalizing p seen with
  | zero =>
    cases ran
    exact before
  | succ n ih =>
    cases p with
    | done a =>
      cases ran
      exact before
    | call q next =>
      refine ih (next (oracle seen q)) (fun q' r inside => ?_) ran
      rcases List.mem_cons.mp inside with here | earlier
      · cases here
        exact true_ seen q
      · exact before q' r earlier

theorem heeds_logged {told : (q : Q) → R q → Prop} {allowed : History Q R → Q → Prop} {post : History Q R → α → Prop}
    {oracle : History Q R → (q : Q) → R q} (true_ : ∀ seen q, told q (oracle seen q)) (n : Nat) (p : Prog Q R α)
    (heeds : p.Heeds told allowed post seen) (ran : p.advance (logged oracle) n seen = some (after,rest)) :
    rest.Heeds told allowed post after := by
  induction n generalizing p seen with
  | zero =>
    cases ran
    exact heeds
  | succ n ih =>
    cases p with
    | done a =>
      cases ran
      exact heeds
    | call q next => exact ih (next (oracle seen q)) (heeds.2 _ (true_ seen q)) ran

end

-- A program as part of one that may ask more.
section
variable {Q Q' : Type} {R : Q → Type} {R' : Q' → Type} {α : Type} (inj : Q → Q') (back : (q : Q) → R' (inj q) → R q)

def Prog.within : Prog Q R α → Prog Q' R' α
  | .done a => .done a
  | .call q next => .call (inj q) fun r => (next (back q r)).within

theorem heeds_within {told : (q : Q) → R q → Prop} {told' : (q : Q') → R' q → Prop} {kind : Q → Prop}
    {allowed : History Q' R' → Q' → Prop} {post : α → Prop} (true_ : ∀ q r, told' (inj q) r → told q (back q r))
    (asks : ∀ seen q, kind q → allowed seen (inj q)) (p : Prog Q R α)
    (heeds : p.Heeds told (fun _ => kind) (fun _ => post) start) : (p.within inj back).Heeds told' allowed (fun _ => post) seen := by
  induction p generalizing start seen with
  | done a => exact heeds
  | call q next ih => exact ⟨asks seen q heeds.1,fun r here => ih _ (heeds.2 _ (true_ q r here))⟩

end

-- What every answer is when it is given, every answer any task has had is.
theorem run_told {H Q : Type} {R : Q → Type} {S : Type} {crew : Crew H Q R S} {kind : Config H Q R S → Act H Q R → Prop}
    {c d : Config H Q R S} (told : (q : Q) → R q → Prop) (served : ∀ q s r t, crew.serve q s r t → told q r)
    (run : crew.Run kind c d) (start : ∀ i, Told told (c.2 i).seen) : ∀ i, Told told (d.2 i).seen := by
  induction run with
  | refl => exact start
  | tail _ last ih =>
    obtain ⟨act,_,step⟩ := last
    refine noted_step (P := fun _ => told) step (fun _ _ here => here) ?_ ih
    intro i q r asked
    subst asked
    cases step with
    | asked _ _ answered => exact served _ _ _ _ answered

-- What each task's answers come to, one step on.
section
variable {H Q : Type} {R : Q → Type} {S γ : Type} {crew : Crew H Q R S} (note : (q : Q) → R q → γ → γ) (start : γ)

def gathered (c : Config H Q R S) (i : Nat) : γ := gather note start (c.2 i).seen

theorem gathered_none {c : Config H Q R S} (gone : (c.2 i).seen = []) : gathered note start c i = start := by
  rw [gathered,gone]
  rfl

theorem gathered_asked {c d : Config H Q R S} {q : Q} {r : R q} (step : crew.Step c (.asked i q r) d) :
    gathered note start d = Function.update (gathered note start c) i (note q r (gathered note start c i)) := by
  funext j
  by_cases same : j = i
  · subst same
    rw [Function.update_self,gathered,(seen_asked step).1]
    rfl
  · rw [Function.update_of_ne same,gathered,task_other step same,gathered]

theorem gathered_entered {tasks : Nat → Task H Q R} (s t : S) (empty : gathered note start (s,tasks) i = start) :
    gathered note start (t,Function.update tasks i ⟨h,[],p⟩) = gathered note start (s,tasks) := by
  funext j
  by_cases here : j = i
  · subst here
    rw [empty]
    exact gathered_none note start (by simp only [Function.update_self])
  · simp only [gathered,Function.update_of_ne here]

end

end VerifiableGit.Library.Interaction
