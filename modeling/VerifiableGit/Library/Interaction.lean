import Mathlib.Logic.Relation
import Mathlib.Logic.Function.Basic

-- Programs that ask their surroundings questions, and what such a program keeps
-- true while others act between any two of its questions.
namespace VerifiableGit.Library.Interaction

inductive Prog (Q : Type) (R : Q → Type) (α : Type) where
  | done (value : α)
  | call (query : Q) (next : R query → Prog Q R α)

section
variable {Q : Type} {R : Q → Type} {α β : Type}

def Prog.bind : Prog Q R α → (α → Prog Q R β) → Prog Q R β
  | .done a,f => f a
  | .call q next,f => .call q fun r => (next r).bind f

instance : Monad (Prog Q R) where
  pure := .done
  bind := .bind

def ask (q : Q) : Prog Q R (R q) := .call q .done

-- Every question the program can ask is of this kind.
def Prog.Asks (kind : Q → Prop) : Prog Q R α → Prop
  | .done _ => True
  | .call q next => kind q ∧ ∀ r, (next r).Asks kind

@[simp] theorem pure_done (a : α) : (pure a : Prog Q R α) = .done a := rfl

theorem ask_bind (q : Q) (f : R q → Prog Q R β) : (ask q : Prog Q R (R q)) >>= f = .call q f := rfl

theorem asks_call {kind : Q → Prop} {next : R q → Prog Q R α} (here : kind q)
    (rest : ∀ r, (next r).Asks kind) : (Prog.call q next).Asks kind := ⟨here,rest⟩

theorem asks_weaken {kind other : Q → Prop} (wider : ∀ q, kind q → other q) (p : Prog Q R α)
    (asks : p.Asks kind) : p.Asks other := by
  induction p with
  | done a => trivial
  | call q next ih => exact asks_call (wider q asks.1) fun r => ih r (asks.2 r)

theorem asks_bind {kind : Q → Prop} (p : Prog Q R α) (f : α → Prog Q R β) (first : p.Asks kind)
    (rest : ∀ a, (f a).Asks kind) : (p >>= f).Asks kind := by
  induction p with
  | done a => exact rest a
  | call q next ih => exact ⟨first.1,fun r => ih r (first.2 r)⟩

theorem asks_fallible {ε : Type} {kind : Q → Prop} (p : ExceptT ε (Prog Q R) α)
    (f : α → ExceptT ε (Prog Q R) β) (first : p.run.Asks kind) (rest : ∀ a, (f a).run.Asks kind) :
    (p >>= f).run.Asks kind := by
  refine asks_bind p.run _ first fun result => ?_
  cases result with
  | ok a => exact rest a
  | error e => trivial

theorem asks_optional {kind : Q → Prop} (p : OptionT (Prog Q R) α) (f : α → OptionT (Prog Q R) β)
    (first : p.run.Asks kind) (rest : ∀ a, (f a).run.Asks kind) : (p >>= f).run.Asks kind := by
  refine asks_bind p.run _ first fun result => ?_
  cases result with
  | some a => exact rest a
  | none => trivial

end

-- `serve` is how a question is answered, with its effect; `rely` is one act of
-- somebody else, `guarantee` what one answer to a question may do to them, and
-- `always` what has to be true of every state.
structure Setting (Q : Type) (R : Q → Type) (S : Type) where
  serve : (q : Q) → S → R q → S → Prop
  rely : S → S → Prop
  guarantee : Q → S → S → Prop
  always : S → Prop

section
variable {Q : Type} {R : Q → Type} {S : Type} {α β : Type} (w : Setting Q R S)

def Setting.Later : S → S → Prop := Relation.ReflTransGen w.rely

def Setting.Stable (P : S → Prop) : Prop := ∀ ⦃s t⦄, w.rely s t → P s → P t

-- From `s` on, whatever the others do before each answer, the program keeps
-- `always` and its guarantee, and `post` of its value once it is done.
def Setting.Holds (post : α → S → Prop) : Prog Q R α → S → Prop
  | .done a,s => ∀ t, w.Later s t → w.always t ∧ post a t
  | .call q next,s => ∀ t, w.Later s t → w.always t ∧
      ∀ r u, w.serve q t r u → w.guarantee q t u ∧ Holds post (next r) u

-- One step of the program among the others.
inductive Setting.Step : S × Prog Q R α → S × Prog Q R α → Prop
  | own {q : Q} {r : R q} {next : R q → Prog Q R α} (answered : w.serve q s r t) : Step (s,.call q next) (t,next r)
  | other (act : w.rely s t) : Step (s,p) (t,p)

variable {w} {P : S → Prop} {post : α → S → Prop}

theorem stable_later (stable : w.Stable P) (later : w.Later s t) (here : P s) : P t := by
  induction later with
  | refl => exact here
  | tail _ act ih => exact stable act ih

theorem stable_and {P₁ P₂ : S → Prop} (left : w.Stable P₁) (right : w.Stable P₂) :
    w.Stable fun s => P₁ s ∧ P₂ s :=
  fun _ _ act both => ⟨left act both.1,right act both.2⟩

theorem holds_done (stable : w.Stable P) (kept : ∀ s, P s → w.always s)
    (last : ∀ s, P s → post a s) (here : P s) : w.Holds post (.done a) s := by
  intro t later
  have there := stable_later stable later here
  exact ⟨kept t there,last t there⟩

theorem holds_call (stable : w.Stable P) (kept : ∀ s, P s → w.always s)
    (answered : ∀ s r t, P s → w.serve q s r t → w.guarantee q s t ∧ w.Holds post (next r) t)
    (here : P s) : w.Holds post (.call q next) s := by
  intro t later
  have there := stable_later stable later here
  exact ⟨kept t there,fun r u served => answered t r u there served⟩

theorem holds_later (p : Prog Q R α) (holds : w.Holds post p s) (later : w.Later s t) :
    w.Holds post p t := by
  cases p with
  | done a => exact fun u further => holds u (later.trans further)
  | call q next => exact fun u further => holds u (later.trans further)

theorem holds_always (p : Prog Q R α) (holds : w.Holds post p s) : w.always s := by
  cases p with
  | done a => exact (holds s .refl).1
  | call q next => exact (holds s .refl).1

theorem holds_value (holds : w.Holds post (.done a) s) : post a s := (holds s .refl).2

theorem holds_bind {mid : α → S → Prop} {post : β → S → Prop} (p : Prog Q R α)
    (f : α → Prog Q R β) (first : w.Holds mid p s)
    (rest : ∀ a t, mid a t → w.Holds post (f a) t) : w.Holds post (p >>= f) s := by
  induction p generalizing s with
  | done a => exact rest a s (holds_value first)
  | call q next ih =>
    intro t later
    obtain ⟨kept,answered⟩ := first t later
    refine ⟨kept,fun r u served => ?_⟩
    obtain ⟨promised,further⟩ := answered r u served
    exact ⟨promised,ih r further⟩

theorem holds_weaken {other : α → S → Prop} (p : Prog Q R α) (holds : w.Holds post p s)
    (weaker : ∀ a t, post a t → other a t) : w.Holds other p s := by
  induction p generalizing s with
  | done a => exact fun t later => ⟨(holds t later).1,weaker a t (holds t later).2⟩
  | call q next ih =>
    intro t later
    obtain ⟨kept,answered⟩ := holds t later
    exact ⟨kept,fun r u served => ⟨(answered r u served).1,ih r (answered r u served).2⟩⟩

-- What no question of a kind breaks, a program of such questions keeps.
theorem holds_asks {kind : Q → Prop} (stable : w.Stable P) (kept : ∀ s, P s → w.always s)
    (served : ∀ q s r t, kind q → P s → w.serve q s r t → w.guarantee q s t ∧ P t)
    (p : Prog Q R α) (asks : p.Asks kind) (here : P s) : w.Holds (fun _ t => P t) p s := by
  induction p generalizing s with
  | done a => exact holds_done stable kept (fun _ there => there) here
  | call q next ih =>
    refine holds_call stable kept (fun s r t there answered => ?_) here
    obtain ⟨promised,after⟩ := served q s r t asks.1 there answered
    exact ⟨promised,ih r (asks.2 r) after⟩

theorem step_holds {here there : S × Prog Q R α} (step : w.Step here there)
    (holds : w.Holds post here.2 here.1) : w.Holds post there.2 there.1 := by
  cases step with
  | own answered => exact ((holds _ .refl).2 _ _ answered).2
  | other act => exact holds_later _ holds (.single act)

theorem steps_holds {here there : S × Prog Q R α} (steps : Relation.ReflTransGen w.Step here there)
    (holds : w.Holds post here.2 here.1) : w.Holds post there.2 there.1 := by
  induction steps with
  | refl => exact holds
  | tail _ step ih => exact step_holds step ih

-- A program that may fail: what it does next is only done after it succeeds.
theorem holds_fallible {ε : Type} {mid : Except ε α → S → Prop} {post : Except ε β → S → Prop}
    (p : ExceptT ε (Prog Q R) α) (f : α → ExceptT ε (Prog Q R) β) (first : w.Holds mid p.run s)
    (onOk : ∀ a t, mid (.ok a) t → w.Holds post (f a).run t)
    (onError : ∀ e t, mid (.error e) t → w.Holds post (.done (.error e)) t) :
    w.Holds post (p >>= f).run s := by
  refine holds_bind p.run _ first fun result t reached => ?_
  cases result with
  | ok a => exact onOk a t reached
  | error e => exact onError e t reached

-- A program that may give up: what it does next is only done if it has not.
theorem holds_optional {mid : Option α → S → Prop} {post : Option β → S → Prop} (p : OptionT (Prog Q R) α)
    (f : α → OptionT (Prog Q R) β) (first : w.Holds mid p.run s)
    (onSome : ∀ a t, mid (some a) t → w.Holds post (f a).run t)
    (onNone : ∀ t, mid none t → w.Holds post (.done none) t) : w.Holds post (p >>= f).run s := by
  refine holds_bind p.run _ first fun result t reached => ?_
  cases result with
  | some a => exact onSome a t reached
  | none => exact onNone t reached

-- A run on its own, each question answered by a function where it can be.
def Prog.run (answer : (q : Q) → S → Option (R q × S)) : Prog Q R α → S → Option (α × S)
  | .done a,s => some (a,s)
  | .call q next,s =>
    match answer q s with
    | some (r,t) => (next r).run answer t
    | none => none

theorem run_steps {answer : (q : Q) → S → Option (R q × S)}
    (answers : ∀ q s r t, answer q s = some (r,t) → w.serve q s r t) (p : Prog Q R α)
    (ran : p.run answer s = some (a,t)) : Relation.ReflTransGen w.Step (s,p) (t,.done a) := by
  induction p generalizing s with
  | done b =>
    cases ran
    exact .refl
  | call q next ih =>
    simp only [Prog.run] at ran
    cases found : answer q s with
    | none =>
      rw [found] at ran
      cases ran
    | some there =>
      rw [found] at ran
      exact .head (.own (answers q s there.1 there.2 found)) (ih there.1 ran)

-- The same for so many questions, with what is left to do.
def Prog.advance (answer : (q : Q) → S → Option (R q × S)) : Nat → Prog Q R α → S → Option (S × Prog Q R α)
  | 0,p,s => some (s,p)
  | _ + 1,.done a,s => some (s,.done a)
  | n + 1,.call q next,s =>
    match answer q s with
    | some (r,t) => (next r).advance answer n t
    | none => none

theorem advance_steps {answer : (q : Q) → S → Option (R q × S)}
    (answers : ∀ q s r t, answer q s = some (r,t) → w.serve q s r t) (n : Nat) (p : Prog Q R α)
    (ran : p.advance answer n s = some there) : Relation.ReflTransGen w.Step (s,p) there := by
  induction n generalizing p s with
  | zero =>
    cases ran
    exact .refl
  | succ n ih =>
    cases p with
    | done a =>
      cases ran
      exact .refl
    | call q next =>
      simp only [Prog.advance] at ran
      cases found : answer q s with
      | none =>
        rw [found] at ran
        cases ran
      | some here =>
        rw [found] at ran
        exact .head (.own (answers q s here.1 here.2 found)) (ih _ ran)

theorem run_kept {answer : (q : Q) → S → Option (R q × S)} {K : S → Prop}
    (kept : ∀ q s r t, answer q s = some (r,t) → K s → K t) (p : Prog Q R α)
    (ran : p.run answer s = some (a,t)) (here : K s) : K t := by
  induction p generalizing s with
  | done b =>
    cases ran
    exact here
  | call q next ih =>
    simp only [Prog.run] at ran
    cases found : answer q s with
    | none =>
      rw [found] at ran
      cases ran
    | some there =>
      rw [found] at ran
      exact ih there.1 ran (kept q s there.1 there.2 found here)

-- A program that nobody acts beside.
def Setting.Solitary (w : Setting Q R S) : Prop := ∀ s t, ¬w.rely s t

theorem solitary_stable (solitary : w.Solitary) (P : S → Prop) : w.Stable P :=
  fun s t act => absurd act (solitary s t)

theorem solitary_done (solitary : w.Solitary) (kept : w.always s) (here : post a s) : w.Holds post (.done a) s := by
  refine holds_done (P := fun t => w.always t ∧ post a t) (solitary_stable solitary _) ?_ ?_ ⟨kept,here⟩
  · exact fun _ there => there.1
  · exact fun _ there => there.2

theorem solitary_call (solitary : w.Solitary) (kept : w.always s)
    (answered : ∀ r t, w.serve q s r t → w.guarantee q s t ∧ w.Holds post (next r) t) :
    w.Holds post (.call q next) s := by
  refine holds_call (P := (· = s)) (solitary_stable solitary _) ?_ ?_ rfl
  · rintro _ rfl
    exact kept
  · rintro _ r t rfl served
    exact answered r t served

theorem step_guarantee {q : Q} {r : R q} {next : R q → Prog Q R α}
    (holds : w.Holds post (.call q next) s) (answered : w.serve q s r t) : w.guarantee q s t :=
  ((holds _ .refl).2 _ _ answered).1

end

-- One program after another over one state: `again` starts the next, `crash`
-- drops whatever runs.
section
variable {Q : Type} {R : Q → Type} {S : Type} {α : Type} (w : Setting Q R S)
variable (again crash : S → S × Prog Q R α → Prop)

inductive Setting.Session : S × Prog Q R α → S × Prog Q R α → Prop
  | step (step : w.Step here there) : Session here there
  | again (next : again s there) : Session (s,.done a) there
  | crash (down : crash s there) : Session (s,p) there

variable {w} {again crash} {post : α → S → Prop}

theorem session_step {here there : S × Prog Q R α} (step : w.Session again crash here there)
    (onAgain : ∀ a there, post a here.1 → again here.1 there → w.Holds post there.2 there.1)
    (onCrash : ∀ there, crash here.1 there → w.Holds post there.2 there.1)
    (holds : w.Holds post here.2 here.1) : w.Holds post there.2 there.1 := by
  cases step with
  | step step => exact step_holds step holds
  | again next => exact onAgain _ _ (holds_value holds) next
  | crash down => exact onCrash _ down

theorem session_steps {here there : S × Prog Q R α} (steps : Relation.ReflTransGen w.Step here there) :
    Relation.ReflTransGen (w.Session again crash) here there := by
  induction steps with
  | refl => exact .refl
  | tail _ step ih => exact .tail ih (.step step)

-- What is asked of a run does not matter to what can happen in it.
theorem session_mono {v : Setting Q R S} {here there : S × Prog Q R α}
    (serve : ∀ q s r t, w.serve q s r t → v.serve q s r t) (rely : ∀ s t, w.rely s t → v.rely s t)
    (run : Relation.ReflTransGen (w.Session again crash) here there) :
    Relation.ReflTransGen (v.Session again crash) here there := by
  induction run with
  | refl => exact .refl
  | tail _ step ih =>
    refine .tail ih ?_
    cases step with
    | step step =>
      cases step with
      | own answered => exact .step (.own (serve _ _ _ _ answered))
      | other act => exact .step (.other (rely _ _ act))
    | again next => exact .again next
    | crash down => exact .crash down

-- `K` is what every step keeps, whatever program runs.
theorem session_run {K : S → Prop}
    (onAgain : ∀ a s there, K s → post a s → again s there → w.Holds post there.2 there.1)
    (onCrash : ∀ s there, K s → w.always s → crash s there → w.Holds post there.2 there.1)
    (onStep : ∀ here there : S × Prog Q R α, w.Session again crash here there → K here.1 → K there.1)
    {here there : S × Prog Q R α} (run : Relation.ReflTransGen (w.Session again crash) here there)
    (start : K here.1) (holds : w.Holds post here.2 here.1) :
    K there.1 ∧ w.Holds post there.2 there.1 := by
  induction run with
  | refl => exact ⟨start,holds⟩
  | tail _ step ih =>
    refine ⟨onStep _ _ step ih.1,session_step step ?_ ?_ ih.2⟩
    · exact fun a there finished next => onAgain a _ there ih.1 finished next
    · exact fun there down => onCrash _ there ih.1 (holds_always _ ih.2) down

end

-- Several programs over one state: each one's guarantee is what the others rely
-- on, and a program that is done may be followed by another.
section
variable {ι Q : Type} {R : Q → Type} {S : Type} {α : Type}

structure Team (ι Q : Type) (R : Q → Type) (S α : Type) where
  member : ι → Setting Q R S
  starts : ι → Prog Q R α → Prop
  post : ι → α → S → Prop

inductive Team.Step [DecidableEq ι] (team : Team ι Q R S α) :
    S × (ι → Prog Q R α) → S × (ι → Prog Q R α) → Prop
  | own {q : Q} {r : R q} {next : R q → Prog Q R α} (i : ι) (asks : progs i = .call q next)
      (answered : (team.member i).serve q s r t) :
      Step team (s,progs) (t,Function.update progs i (next r))
  | start (i : ι) (idle : progs i = .done a) (first : team.starts i p) :
      Step team (s,progs) (s,Function.update progs i p)

structure Team.Fits (team : Team ι Q R S α) : Prop where
  relies : ∀ i j q s t, i ≠ j → (team.member i).guarantee q s t → (team.member j).rely s t
  starts : ∀ i p a s, team.starts i p → team.post i a s → (team.member i).Holds (team.post i) p s

variable [DecidableEq ι] {team : Team ι Q R S α}

theorem team_step (fits : team.Fits) {here there : S × (ι → Prog Q R α)}
    (step : team.Step here there)
    (holds : ∀ i, (team.member i).Holds (team.post i) (here.2 i) here.1) :
    ∀ i, (team.member i).Holds (team.post i) (there.2 i) there.1 := by
  intro j
  cases step with
  | own i asks answered =>
    have mine := holds i
    simp only [asks] at mine
    by_cases same : j = i
    · subst same
      simp only [Function.update_self]
      exact ((mine _ .refl).2 _ _ answered).2
    · simp only [Function.update_of_ne same]
      have act := fits.relies i j _ _ _ (Ne.symm same) (step_guarantee mine answered)
      exact holds_later _ (holds j) (.single act)
  | start i idle first =>
    by_cases same : j = i
    · subst same
      simp only [Function.update_self]
      have mine := holds j
      simp only [idle] at mine
      exact fits.starts _ _ _ _ first (holds_value mine)
    · simpa only [Function.update_of_ne same] using holds j

theorem team_lift {answer : (q : Q) → S → Option (R q × S)} (i : ι)
    (answers : ∀ q s r t, answer q s = some (r,t) → (team.member i).serve q s r t) (p : Prog Q R α)
    (ran : p.run answer s = some (a,t)) (progs : ι → Prog Q R α) (own : progs i = p) :
    Relation.ReflTransGen team.Step (s,progs) (t,Function.update progs i (.done a)) := by
  induction p generalizing s progs with
  | done b =>
    cases ran
    rw [← own,Function.update_eq_self]
  | call q next ih =>
    simp only [Prog.run] at ran
    cases found : answer q s with
    | none =>
      rw [found] at ran
      cases ran
    | some there =>
      rw [found] at ran
      refine .head (.own i own (answers q s there.1 there.2 found)) ?_
      have rest := ih there.1 ran (Function.update progs i (next there.1)) (Function.update_self _ _ _)
      rwa [Function.update_idem] at rest

theorem team_run (fits : team.Fits) {here there : S × (ι → Prog Q R α)}
    (run : Relation.ReflTransGen team.Step here there)
    (holds : ∀ i, (team.member i).Holds (team.post i) (here.2 i) here.1) :
    ∀ i, (team.member i).Holds (team.post i) (there.2 i) there.1 := by
  induction run with
  | refl => exact holds
  | tail _ step ih => exact team_step fits step ih

end

end VerifiableGit.Library.Interaction
