import VerifiableGit.Library.Interaction
import Mathlib.Data.List.Basic

-- Tasks that come and go over one state, each a program with the answers it has
-- had so far. What a program may ask is said of those answers alone, once and
-- for all; what the whole crew keeps is then shown question by question.
namespace VerifiableGit.Library.Interaction

section
variable {Q : Type} {R : Q → Type} {α β : Type}

-- The questions answered so far, the latest first.
abbrev History (Q : Type) (R : Q → Type) := List (Σ q : Q,R q)

def Prog.Follows (allowed : History Q R → Q → Prop) (post : History Q R → α → Prop) :
    History Q R → Prog Q R α → Prop
  | seen,.done a => post seen a
  | seen,.call q next => allowed seen q ∧ ∀ r, Follows allowed post (⟨q,r⟩ :: seen) (next r)

def Prog.fold (f : β → α → Prog Q R β) (b : β) : List α → Prog Q R β
  | [] => .done b
  | a :: rest => f b a >>= fun b => fold f b rest

def Prog.each (f : α → Prog Q R Unit) (items : List α) : Prog Q R Unit := .fold (fun _ a => f a) () items

-- What is computed from a history one answer at a time.
def gather {γ : Type} (note : (q : Q) → R q → γ → γ) (start : γ) (seen : History Q R) : γ :=
  seen.foldr (fun e found => note e.1 e.2 found) start

variable {allowed : History Q R → Q → Prop} {post : History Q R → α → Prop}

@[simp] theorem gather_cons {γ : Type} (note : (q : Q) → R q → γ → γ) (start : γ) (q : Q) (r : R q)
    (seen : History Q R) : gather note start (⟨q,r⟩ :: seen) = note q r (gather note start seen) := rfl

theorem follows_done {a : α} (here : post seen a) : (Prog.done a : Prog Q R α).Follows allowed post seen := here

theorem follows_weaken {other : History Q R → α → Prop} (p : Prog Q R α) (follows : p.Follows allowed post seen)
    (weaker : ∀ seen a, post seen a → other seen a) : p.Follows allowed other seen := by
  induction p generalizing seen with
  | done a => exact weaker seen a follows
  | call q next ih => exact ⟨follows.1,fun r => ih r (follows.2 r)⟩

theorem follows_wider {wider : History Q R → Q → Prop} (p : Prog Q R α) (follows : p.Follows allowed post seen)
    (weaker : ∀ seen q, allowed seen q → wider seen q) : p.Follows wider post seen := by
  induction p generalizing seen with
  | done a => exact follows
  | call q next ih => exact ⟨weaker seen q follows.1,fun r => ih r (follows.2 r)⟩

-- Where every question is allowed.
theorem follows_free (p : Prog Q R α) (free : ∀ seen q, allowed seen q) (last : ∀ seen a, post seen a) :
    p.Follows allowed post seen := by
  induction p generalizing seen with
  | done a => exact last seen a
  | call q next ih => exact ⟨free seen q,fun r => ih r⟩

-- What is asked by one rule, and what is known at the end by another.
theorem follows_ends {other : History Q R → Q → Prop} {end_ : History Q R → α → Prop} (p : Prog Q R α)
    (one : p.Follows allowed post seen) (two : p.Follows other end_ seen) : p.Follows allowed end_ seen := by
  induction p generalizing seen with
  | done a => exact two
  | call q next ih => exact ⟨one.1,fun r => ih r (one.2 r) (two.2 r)⟩

theorem follows_bind {mid : History Q R → α → Prop} {post : History Q R → β → Prop} (p : Prog Q R α)
    (f : α → Prog Q R β) (first : p.Follows allowed mid seen)
    (rest : ∀ seen a, mid seen a → (f a).Follows allowed post seen) : (p >>= f).Follows allowed post seen := by
  induction p generalizing seen with
  | done a => exact rest seen a first
  | call q next ih => exact ⟨first.1,fun r => ih r (first.2 r)⟩

theorem follows_suffix (p : Prog Q R α) (follows : p.Follows allowed post seen) :
    p.Follows allowed (fun after a => post after a ∧ seen <:+ after) seen := by
  induction p generalizing seen with
  | done a => exact ⟨follows,List.suffix_rfl⟩
  | call q next ih =>
    refine ⟨follows.1,fun r => follows_weaken _ (ih r (follows.2 r)) ?_⟩
    exact fun after a both => ⟨both.1,(List.suffix_cons _ _).trans both.2⟩

-- `inv` is told of what is still to do.
theorem follows_fold (inv : List α → History Q R → β → Prop) (f : β → α → Prog Q R β) (items : List α) (b : β)
    (step : ∀ a rest seen b, inv (a :: rest) seen b → (f b a).Follows allowed (inv rest) seen)
    (here : inv items seen b) : (Prog.fold f b items).Follows allowed (inv []) seen := by
  induction items generalizing seen b with
  | nil => exact here
  | cons a rest ih => exact follows_bind _ _ (step a rest seen b here) fun seen b there => ih b there

theorem follows_each (inv : List α → History Q R → Prop) (f : α → Prog Q R Unit) (items : List α)
    (step : ∀ a rest seen, inv (a :: rest) seen → (f a).Follows allowed (fun seen _ => inv rest seen) seen)
    (here : inv items seen) : (Prog.each f items).Follows allowed (fun seen _ => inv [] seen) seen :=
  follows_fold (fun rest seen _ => inv rest seen) (fun _ a => f a) items ()
    (fun a rest seen _ inside => step a rest seen inside) here

end

-- The same in a setting where nobody else acts.
section
variable {Q : Type} {R : Q → Type} {S : Type} {α β : Type} {w : Setting Q R S}

theorem holds_fold (solitary : w.Solitary) (inv : List α → β → S → Prop) (f : β → α → Prog Q R β) (items : List α) (b : β)
    (kept : ∀ rest b s, inv rest b s → w.always s)
    (step : ∀ a rest b s, inv (a :: rest) b s → w.Holds (inv rest) (f b a) s)
    (here : inv items b s) : w.Holds (inv []) (Prog.fold f b items) s := by
  induction items generalizing s b with
  | nil => exact solitary_done solitary (kept [] b s here) here
  | cons a rest ih => exact holds_bind _ _ (step a rest b s here) fun b t there => ih b there

theorem holds_each (solitary : w.Solitary) (inv : List α → S → Prop) (f : α → Prog Q R Unit) (items : List α)
    (kept : ∀ rest s, inv rest s → w.always s)
    (step : ∀ a rest s, inv (a :: rest) s → w.Holds (fun _ t => inv rest t) (f a) s)
    (here : inv items s) : w.Holds (fun _ t => inv [] t) (Prog.each f items) s :=
  holds_fold solitary (fun rest _ s => inv rest s) (fun _ a => f a) items () (fun rest _ s => kept rest s)
    (fun a rest _ s inside => step a rest s inside) here

end

-- `enter` is what the start of a task does to the state, `crash` what the loss of
-- all of them does. A task may also be lost alone, where it awaits an answer and
-- whoever asked for it has gone.
structure Crew (H Q : Type) (R : Q → Type) (S : Type) where
  code : H → Prog Q R Unit
  serve : (q : Q) → S → R q → S → Prop
  enter : H → S → S → Prop
  crash : S → S → Prop
  awaited : H → Q → Prop := fun _ _ => False

structure Task (H Q : Type) (R : Q → Type) where
  handler : H
  seen : History Q R
  prog : Prog Q R Unit

inductive Act (H Q : Type) (R : Q → Type) where
  | asked (i : Nat) (q : Q) (r : R q)
  | entered (i : Nat) (h : H)
  | abandoned (i : Nat)
  | crashed

section
variable {H Q : Type} {R : Q → Type} {S : Type}

abbrev Config (H Q : Type) (R : Q → Type) (S : Type) := S × (Nat → Task H Q R)

def Task.answered (task : Task H Q R) (q : Q) (r : R q) (rest : Prog Q R Unit) : Task H Q R :=
  { task with seen := ⟨q,r⟩ :: task.seen, prog := rest }

def Task.dropped (task : Task H Q R) : Task H Q R := { task with seen := [], prog := .done () }

-- It waits for such an answer, what it asked for not done yet or done already.
def Task.waits (awaited : Q → Prop) (task : Task H Q R) : Prop :=
  (∃ q next, task.prog = .call q next ∧ awaited q) ∨ ∃ e before, task.seen = e :: before ∧ awaited e.1

inductive Crew.Step (crew : Crew H Q R S) : Config H Q R S → Act H Q R → Config H Q R S → Prop
  | asked {q : Q} {r : R q} {next : R q → Prog Q R Unit} (i : Nat) (asks : (tasks i).prog = .call q next)
      (served : crew.serve q s r t) :
      Step crew (s,tasks) (.asked i q r) (t,Function.update tasks i ((tasks i).answered q r (next r)))
  | entered (i : Nat) (idle : (tasks i).prog = .done ()) (enters : crew.enter h s t) :
      Step crew (s,tasks) (.entered i h) (t,Function.update tasks i ⟨h,[],crew.code h⟩)
  | abandoned (i : Nat) (waits : (tasks i).waits (crew.awaited (tasks i).handler)) :
      Step crew (s,tasks) (.abandoned i) (s,Function.update tasks i (tasks i).dropped)
  | crashed (down : crew.crash s t) : Step crew (s,tasks) .crashed (t,fun i => (tasks i).dropped)

-- A run of steps that are all of one kind.
def Crew.Run (crew : Crew H Q R S) (kind : Config H Q R S → Act H Q R → Prop) :
    Config H Q R S → Config H Q R S → Prop :=
  Relation.ReflTransGen fun c d => ∃ act, kind c act ∧ crew.Step c act d

-- What each task may ask, given what it was answered, and what is true of the
-- answers once it is done.
structure Crew.Rules (crew : Crew H Q R S) where
  allowed : H → History Q R → Q → Prop
  post : H → History Q R → Prop
  idle : ∀ h, post h []
  follows : ∀ h, (crew.code h).Follows (allowed h) (fun seen _ => post h seen) []

theorem waits_never {task : Task H Q R} (waits : task.waits fun _ => False) : False := by
  rcases waits with ⟨_,_,_,never⟩ | ⟨_,_,_,never⟩
  · exact never
  · exact never

variable {crew : Crew H Q R S} (rules : crew.Rules)

def Crew.Rules.Ruled (tasks : Nat → Task H Q R) : Prop :=
  ∀ i, (tasks i).prog.Follows (rules.allowed (tasks i).handler) (fun seen _ => rules.post (tasks i).handler seen) (tasks i).seen

variable {rules} {kind other : Config H Q R S → Act H Q R → Prop}

theorem run_step {c d : Config H Q R S} {act : Act H Q R} (fits : kind c act) (step : crew.Step c act d) :
    crew.Run kind c d := .single ⟨act,fits,step⟩

theorem run_weaken {c d : Config H Q R S} (wider : ∀ c act, kind c act → other c act) (run : crew.Run kind c d) :
    crew.Run other c d :=
  Relation.ReflTransGen.mono (fun _ _ ⟨act,fits,step⟩ => ⟨act,wider _ act fits,step⟩) _ _ run

theorem ruled_asks (ruled : rules.Ruled tasks) {q : Q} {next : R q → Prog Q R Unit} (i : Nat)
    (asks : (tasks i).prog = .call q next) : rules.allowed (tasks i).handler (tasks i).seen q := by
  have mine := ruled i
  simp only [asks] at mine
  exact mine.1

theorem ruled_idle (ruled : rules.Ruled tasks) (i : Nat) (idle : (tasks i).prog = .done ()) :
    rules.post (tasks i).handler (tasks i).seen := by
  have mine := ruled i
  simp only [idle] at mine
  exact mine

theorem ruled_step {c d : Config H Q R S} {act : Act H Q R} (step : crew.Step c act d) (ruled : rules.Ruled c.2) :
    rules.Ruled d.2 := by
  intro j
  cases step with
  | asked i asks served =>
    by_cases same : j = i
    · subst same
      have mine := ruled j
      simp only [asks] at mine
      simp only [Function.update_self,Task.answered]
      exact mine.2 _
    · simpa only [Function.update_of_ne same] using ruled j
  | entered i idle enters =>
    by_cases same : j = i
    · subst same
      simp only [Function.update_self]
      exact rules.follows _
    · simpa only [Function.update_of_ne same] using ruled j
  | abandoned i waits =>
    by_cases same : j = i
    · subst same
      simp only [Function.update_self]
      exact rules.idle _
    · simpa only [Function.update_of_ne same] using ruled j
  | crashed down => exact rules.idle _

-- What every step of the run keeps, every state of it has.
theorem run_keeps (rules : crew.Rules) {I : Config H Q R S → Prop} {c d : Config H Q R S}
    (kept : ∀ c act d, rules.Ruled c.2 → kind c act → crew.Step c act d → I c → I d)
    (run : crew.Run kind c d) (ruled : rules.Ruled c.2) (start : I c) : rules.Ruled d.2 ∧ I d := by
  induction run with
  | refl => exact ⟨ruled,start⟩
  | tail _ last ih =>
    obtain ⟨act,fits,step⟩ := last
    exact ⟨ruled_step step ih.1,kept _ act _ ih.1 fits step ih.2⟩

end

-- What is true of every answer any task has had.
section
variable {H Q : Type} {R : Q → Type} {S : Type} {crew : Crew H Q R S}

def Noted (P : S → (q : Q) → R q → Prop) (c : Config H Q R S) : Prop :=
  ∀ i q r, ⟨q,r⟩ ∈ (c.2 i).seen → P c.1 q r

-- The answers of a task after a step: one more, all gone, or the same.
theorem step_seen {c d : Config H Q R S} {act : Act H Q R} (step : crew.Step c act d) (j : Nat) :
    (∃ q r, act = .asked j q r ∧ (d.2 j).seen = ⟨q,r⟩ :: (c.2 j).seen ∧ (d.2 j).handler = (c.2 j).handler) ∨
    (d.2 j).seen = [] ∨ d.2 j = c.2 j := by
  cases step with
  | asked i asks served =>
    by_cases same : j = i
    · subst same
      refine .inl ⟨_,_,rfl,?_,?_⟩
      · simp only [Function.update_self,Task.answered]
      · simp only [Function.update_self,Task.answered]
    · exact .inr (.inr (Function.update_of_ne same _ _))
  | entered i idle enters =>
    by_cases same : j = i
    · subst same
      refine .inr (.inl ?_)
      simp only [Function.update_self]
    · exact .inr (.inr (Function.update_of_ne same _ _))
  | abandoned i waits =>
    by_cases same : j = i
    · subst same
      refine .inr (.inl ?_)
      simp only [Function.update_self,Task.dropped]
    · exact .inr (.inr (Function.update_of_ne same _ _))
  | crashed down => exact .inr (.inl rfl)

theorem seen_asked {c d : Config H Q R S} {i : Nat} {q : Q} {r : R q} (step : crew.Step c (.asked i q r) d) :
    (d.2 i).seen = ⟨q,r⟩ :: (c.2 i).seen ∧ (d.2 i).handler = (c.2 i).handler := by
  cases step with
  | asked _ _ _ => simp only [Function.update_self,Task.answered,and_self]

theorem task_other {c d : Config H Q R S} {i j : Nat} {q : Q} {r : R q} (step : crew.Step c (.asked i q r) d)
    (other : j ≠ i) : d.2 j = c.2 j := by
  cases step with
  | asked _ _ _ => exact Function.update_of_ne other _ _

theorem noted_step {P : S → (q : Q) → R q → Prop} {c d : Config H Q R S} {act : Act H Q R}
    (step : crew.Step c act d) (kept : ∀ q r, P c.1 q r → P d.1 q r)
    (told : ∀ i q r, act = .asked i q r → P d.1 q r) (noted : Noted P c) : Noted P d := by
  intro j q r heard
  rcases step_seen step j with ⟨q',r',asked,seen,_⟩ | gone | same
  · rw [seen] at heard
    cases heard with
    | head => exact told j q r asked
    | tail _ before => exact kept q r (noted j q r before)
  · simp [gone] at heard
  · rw [same] at heard
    exact kept q r (noted j q r heard)

end

-- Only tasks below `n` act.
def Act.below (n : Nat) : Act H Q R → Bool
  | .asked i _ _ | .entered i _ | .abandoned i => i < n
  | .crashed => true

-- A task nobody starts stays as it is.
def Idle (h : H) (n : Nat) (c : Config H Q R S) : Prop := ∀ i, n ≤ i → c.2 i = ⟨h,[],.done ()⟩

theorem idle_step {H Q : Type} {R : Q → Type} {S : Type} {crew : Crew H Q R S} {h : H} {n : Nat} {c d : Config H Q R S}
    {act : Act H Q R} (below : act.below n) (step : crew.Step c act d) (idle : Idle h n c) : Idle h n d := by
  intro i above
  cases step with
  | asked j _ _ | entered j _ _ | abandoned j _ =>
    have other : i ≠ j := by
      simp only [Act.below,decide_eq_true_eq] at below
      omega
    simpa only [Function.update_of_ne other] using idle i above
  | crashed _ =>
    have same := idle i above
    simp only at same
    simp only [Task.dropped,same]

-- What a run keeps may be asked of its steps.
theorem run_under {H Q : Type} {R : Q → Type} {S : Type} {crew : Crew H Q R S} {kind other : Config H Q R S → Act H Q R → Prop}
    {I : Config H Q R S → Prop} {c d : Config H Q R S}
    (kept : ∀ c act d, kind c act → crew.Step c act d → I c → I d) (better : ∀ c act, I c → kind c act → other c act)
    (run : crew.Run kind c d) (start : I c) : crew.Run other c d ∧ I d := by
  induction run with
  | refl => exact ⟨.refl,start⟩
  | tail _ last ih =>
    obtain ⟨act,fits,step⟩ := last
    obtain ⟨before,here⟩ := ih
    exact ⟨before.tail ⟨act,better _ act here fits,step⟩,kept _ act _ fits step here⟩

-- A run by a function, where questions are answered and tasks started by one.
section
variable {H Q : Type} {R : Q → Type} {S : Type}

inductive Move (H O : Type) where
  | enter (i : Nat) (h : H)
  | ask (i : Nat) (outside : O)
  | finish (i : Nat) (fuel : Nat) (outside : O)
  | crash

variable {O : Type} (code : H → Prog Q R Unit) (answer : O → (q : Q) → S → Option (R q × S))
variable (enter : H → S → Option S) (crash : S → S) (ok : Config H Q R S → Act H Q R → Bool)

def askOne (c : Config H Q R S) (i : Nat) (outside : O) : Option (Config H Q R S) :=
  match (c.2 i).prog with
  | .done _ => none
  | .call q next =>
    match answer outside q c.1 with
    | some (r,t) => if ok c (.asked i q r) then some (t,Function.update c.2 i ((c.2 i).answered q r (next r))) else none
    | none => none

-- Asks until there is nothing left to ask.
def askAll (i : Nat) (outside : O) : Nat → Config H Q R S → Option (Config H Q R S)
  | 0,c => some c
  | fuel + 1,c =>
    match (c.2 i).prog with
    | .done _ => some c
    | .call _ _ =>
      match askOne answer ok c i outside with
      | some d => askAll i outside fuel d
      | none => none

def play (c : Config H Q R S) : Move H O → Option (Config H Q R S)
  | .enter i h =>
    match (c.2 i).prog,enter h c.1 with
    | .done _,some t => if ok c (.entered i h) then some (t,Function.update c.2 i ⟨h,[],code h⟩) else none
    | _,_ => none
  | .ask i outside => askOne answer ok c i outside
  | .finish i fuel outside => askAll answer ok i outside fuel c
  | .crash => if ok c .crashed then some (crash c.1,fun i => (c.2 i).dropped) else none

def playAll (c : Config H Q R S) : List (Move H O) → Option (Config H Q R S)
  | [] => some c
  | move :: rest =>
    match play code answer enter crash ok c move with
    | some d => playAll d rest
    | none => none

structure Plays (crew : Crew H Q R S) : Prop where
  code : crew.code = code
  serve : ∀ outside q s r t, answer outside q s = some (r,t) → crew.serve q s r t
  enter : ∀ h s t, enter h s = some t → crew.enter h s t
  crash : ∀ s, crew.crash s (crash s)

variable {code answer enter crash ok} {crew : Crew H Q R S}

theorem askOne_step (plays : Plays code answer enter crash crew) {outside : O} (i : Nat)
    (asked : askOne answer ok c i outside = some d) :
    ∃ q r, ok c (.asked i q r) = true ∧ crew.Step c (.asked i q r) d := by
  unfold askOne at asked
  split at asked
  · cases asked
  · rename_i q next found
    cases served : answer outside q c.1 with
    | none =>
      simp only [served] at asked
      cases asked
    | some there =>
      simp only [served] at asked
      split at asked
      · rename_i fine
        cases asked
        exact ⟨q,there.1,fine,.asked i found (plays.serve outside q c.1 there.1 there.2 served)⟩
      · cases asked

theorem askOne_run (plays : Plays code answer enter crash crew) {outside : O} (i : Nat)
    (asked : askOne answer ok c i outside = some d) : crew.Run (fun c act => ok c act) c d := by
  obtain ⟨q,r,fine,step⟩ := askOne_step plays i asked
  exact run_step fine step

theorem askAll_run (plays : Plays code answer enter crash crew) {outside : O} (fuel : Nat) (i : Nat)
    (asked : askAll answer ok i outside fuel c = some d) : crew.Run (fun c act => ok c act) c d := by
  induction fuel generalizing c with
  | zero =>
    cases asked
    exact .refl
  | succ fuel ih =>
    unfold askAll at asked
    split at asked
    · cases asked
      exact .refl
    · split at asked
      · rename_i between one
        exact (askOne_run plays i one).trans (ih asked)
      · cases asked

theorem play_run (plays : Plays code answer enter crash crew) {c d : Config H Q R S} (move : Move H O)
    (played : play code answer enter crash ok c move = some d) : crew.Run (fun c act => ok c act) c d := by
  cases move with
  | enter i h =>
    simp only [play] at played
    split at played
    · rename_i idle entered
      split at played
      · rename_i fine
        cases played
        simp only [← plays.code]
        exact run_step fine (.entered i idle (plays.enter h c.1 _ entered))
      · cases played
    · cases played
  | ask i outside => exact askOne_run plays i played
  | finish i fuel outside => exact askAll_run plays fuel i played
  | crash =>
    simp only [play] at played
    split at played
    · rename_i fine
      cases played
      exact run_step fine (.crashed (plays.crash c.1))
    · cases played

theorem playAll_run (plays : Plays code answer enter crash crew) {c d : Config H Q R S} (moves : List (Move H O))
    (played : playAll code answer enter crash ok c moves = some d) : crew.Run (fun c act => ok c act) c d := by
  induction moves generalizing c with
  | nil =>
    cases played
    exact .refl
  | cons move rest ih =>
    simp only [playAll] at played
    split at played
    · rename_i between one
      exact (play_run plays move one).trans (ih played)
    · cases played

-- What a played run comes to, as far as `see` looks.
theorem played {γ : Type} (plays : Plays code answer enter crash crew) (ok : Config H Q R S → Act H Q R → Bool)
    (c : Config H Q R S) (moves : List (Move H O)) (see : Config H Q R S → γ) (seen : γ) (shown : (playAll code answer enter crash ok c moves).map see = some seen) :
    ∃ d, crew.Run (fun c act => ok c act) c d ∧ see d = seen := by
  obtain ⟨d,there,same⟩ := Option.map_eq_some_iff.mp shown
  exact ⟨d,playAll_run plays moves there,same⟩

-- And what a second run from there comes to.
theorem played_on {γ δ : Type} (plays : Plays code answer enter crash crew) (ok further : Config H Q R S → Act H Q R → Bool)
    (c : Config H Q R S) (moves more : List (Move H O)) (see : Config H Q R S → γ) (look : Config H Q R S → δ)
    (seen : γ × δ) (shown : (playAll code answer enter crash ok c moves).bind (fun d =>
      (playAll code answer enter crash further d more).map fun e => (see d,look e)) = some seen) :
    ∃ d e, crew.Run (fun c act => ok c act) c d ∧ crew.Run (fun c act => further c act) d e ∧
      see d = seen.1 ∧ look e = seen.2 := by
  obtain ⟨d,there,rest⟩ := Option.bind_eq_some_iff.mp shown
  obtain ⟨e,last,same⟩ := Option.map_eq_some_iff.mp rest
  exact ⟨d,e,playAll_run plays moves there,playAll_run plays more last,congrArg Prod.fst same,congrArg Prod.snd same⟩

-- And what one more question of task `i` does then.
theorem played_step {γ δ : Type} (plays : Plays code answer enter crash crew)
    (ok : Config H Q R S → Act H Q R → Bool) (c : Config H Q R S) (moves : List (Move H O)) (i : Nat) (outside : O) (see : Config H Q R S → γ) (look : Config H Q R S → δ) (seen : γ × δ)
    (shown : (playAll code answer enter crash ok c moves).bind (fun d =>
      (askOne answer ok d i outside).map fun e => (see d,look e)) = some seen) :
    ∃ d q r e, crew.Run (fun c act => ok c act) c d ∧ ok d (.asked i q r) = true ∧
      crew.Step d (.asked i q r) e ∧ see d = seen.1 ∧ look e = seen.2 := by
  obtain ⟨d,there,last⟩ := Option.bind_eq_some_iff.mp shown
  obtain ⟨e,asked,same⟩ := Option.map_eq_some_iff.mp last
  obtain ⟨q,r,fine,step⟩ := askOne_step plays i asked
  exact ⟨d,q,r,e,playAll_run plays moves there,fine,step,congrArg Prod.fst same,congrArg Prod.snd same⟩

end

end VerifiableGit.Library.Interaction
