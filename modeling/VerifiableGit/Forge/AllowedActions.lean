import Mathlib.Data.Prod.Lex
import VerifiableGit.Library.Loop
import VerifiableGit.Library.Wildcard
import VerifiableGit.Workflow.Lines

-- Whether the allowed-actions policy lets the check run its actions
-- (vgi-forge-github, forge/guard.rs).
namespace VerifiableGit.Allowed
open Qualified (Str text quoted)
open Workflow (trim)
open Library.Loop Library.Wildcard

inductive Panic where
  | index
  | slice
deriving DecidableEq

def charAt (s : Str) (i : Nat) : Except Panic Char :=
  match s[i]? with
  | some c => .ok c
  | none => .error .index

structure Cursor where
  pi : Nat
  ti : Nat
  star : Option Nat
  mark : Nat
deriving DecidableEq

def isStar (p : Str) (pi : Nat) : Except Panic Bool :=
  if pi < p.length then do return (← charAt p pi) = '*' else return false

def isSame (p t : Str) (pi ti : Nat) : Except Panic Bool :=
  if pi < p.length then do return (← charAt p pi) = (← charAt t ti) else return false

def globTurn (p t : Str) (c : Cursor) : Except Panic (Turn Cursor Bool) :=
  if c.ti < t.length then do
    if ← isStar p c.pi then
      return .next { c with star := some c.pi, mark := c.ti, pi := c.pi + 1 }
    else if ← isSame p t c.pi c.ti then
      return .next { c with pi := c.pi + 1, ti := c.ti + 1 }
    else match c.star with
      | some s => return .next { c with pi := s + 1, mark := c.mark + 1, ti := c.mark + 1 }
      | none => return .ends false
  else if c.pi ≤ p.length then .ok (.ends ((p.drop c.pi).all (· = '*')))
  else .error .slice

section
variable (toLowercase : Str → Str)

def globMatch (fuel : Nat) (pattern candidate : Str) : Option (Except Panic Bool) :=
  loop (globTurn (toLowercase (trim pattern)) (toLowercase candidate)) fuel ⟨0,0,none,0⟩

-- `iter().any`: the patterns behind one that matches are not tried.
def anyMatch (fuel : Nat) (patterns : List Str) (candidate : Str) : Option (Except Panic Bool) :=
  match patterns with
  | [] => some (.ok false)
  | pattern :: rest =>
    match globMatch toLowercase fuel pattern candidate with
    | some (.ok false) => anyMatch fuel rest candidate
    | other => other

structure ActionsPermissions where
  enabled : Bool
  allowedActions : Option Str
deriving DecidableEq

structure SelectedActions where
  githubOwnedAllowed : Bool
  patternsAllowed : List Str
deriving DecidableEq

def allowed (fuel : Nat) (selected : Option SelectedActions) (candidate : Str) : Option (Except Panic Bool) :=
  match selected with
  | some s => anyMatch toLowercase fuel s.patternsAllowed candidate
  | none => some (.ok false)

def unreadable : Str := text "the repository's Actions settings could not be read"
def disabled : Str := text "GitHub Actions is disabled"
def localOnly : Str :=
  text "Actions may only use actions from this repository's owner; the check needs actions/checkout and the verify-trust action"
def noCheckout : Str := text "the allowed-actions policy does not allow actions/checkout"
def noAction (action : Str) : Str := text "the allowed-actions policy does not allow " ++ quoted action

def placeholder : Str :=
  text "OpenVTC/verifiable-git-infrastructure/.github/actions/verify-trust@0000000000000000000000000000000000000000"

-- The gaps under a policy of selected actions; GitHub's own are allowed by a
-- switch beside the patterns.
def selectedGaps (fuel : Nat) (selected : Option SelectedActions) (checkoutAction : Str) (verifyTrustAction : Option Str) :
    Option (Except Panic (List Str)) :=
  let action := verifyTrustAction.getD placeholder
  let checkoutOk :=
    if selected.any (·.githubOwnedAllowed) then some (.ok true) else allowed toLowercase fuel selected checkoutAction
  match checkoutOk with
  | none => none
  | some (.error e) => some (.error e)
  | some (.ok checkout) =>
    match allowed toLowercase fuel selected action with
    | none => none
    | some (.error e) => some (.error e)
    | some (.ok verify) => some (.ok ((if checkout then [] else [noCheckout]) ++ if verify then [] else [noAction action]))

def inspectActionsPolicy (fuel : Nat) (permissions : Option ActionsPermissions) (selected : Option SelectedActions)
    (checkoutAction : Str) (verifyTrustAction : Option Str) : Option (Except Panic (List Str)) :=
  match permissions with
  | none => some (.ok [unreadable])
  | some a =>
    if !a.enabled then some (.ok [disabled])
    else if a.allowedActions = some (text "local_only") then some (.ok [localOnly])
    else if a.allowedActions = some (text "selected") then selectedGaps toLowercase fuel selected checkoutAction verifyTrustAction
    else some (.ok [])

end

/-! One turn of the loop -/

section
variable {p t q u w : Str} {x : Char} {c : Cursor}

theorem charAt_drop {s : Str} {i : Nat} (rest : s.drop i = x :: q) : charAt s i = .ok x := by
  have here : s[i]? = some x := by
    have head : (s.drop i)[0]? = s[i + 0]? := List.getElem?_drop
    rw [rest] at head
    exact head.symm
  rw [charAt,here]

theorem drop_inside {s : Str} {i : Nat} (rest : s.drop i = x :: q) : i < s.length := by
  by_contra outside
  rw [List.drop_eq_nil_of_le (Nat.le_of_not_lt outside)] at rest
  cases rest

theorem drop_next {s : Str} {i : Nat} (rest : s.drop i = x :: q) : s.drop (i + 1) = q := by
  rw [← List.tail_drop,rest,List.tail_cons]

theorem drop_end {s : Str} {i : Nat} (rest : s.drop i = []) : s.length ≤ i := List.drop_eq_nil_iff.mp rest

theorem isStar_drop (p : Str) (pi : Nat) : isStar p pi = .ok ((p.drop pi).head? = some '*') := by
  cases rest : p.drop pi with
  | nil => rw [isStar,if_neg (Nat.not_lt.mpr (drop_end rest))]; rfl
  | cons x q =>
    rw [isStar,if_pos (drop_inside rest),charAt_drop rest]
    simp only [bind,Except.bind,pure,Except.pure,List.head?_cons,Option.some.injEq]

theorem isSame_drop (text_ : t.drop ti = x :: u) : isSame p t pi ti = .ok ((p.drop pi).head? = some x) := by
  cases rest : p.drop pi with
  | nil => rw [isSame,if_neg (Nat.not_lt.mpr (drop_end rest))]; rfl
  | cons y q =>
    rw [isSame,if_pos (drop_inside rest),charAt_drop rest,charAt_drop text_]
    simp only [bind,Except.bind,pure,Except.pure,List.head?_cons,Option.some.injEq]

-- What a turn does, by what is left of the pattern and of the text.
theorem turn_cases (inside : c.pi ≤ p.length) :
    (t.drop c.ti = [] ∧ globTurn p t c = .ok (.ends ((p.drop c.pi).all (· = '*')))) ∨
    ∃ x u, t.drop c.ti = x :: u ∧
      ((∃ q, p.drop c.pi = '*' :: q ∧ globTurn p t c = .ok (.next { c with star := some c.pi, mark := c.ti, pi := c.pi + 1 })) ∨
        (∃ q, x ≠ '*' ∧ p.drop c.pi = x :: q ∧ globTurn p t c = .ok (.next { c with pi := c.pi + 1, ti := c.ti + 1 })) ∨
        ((∀ y ∈ (p.drop c.pi).head?, y ≠ '*' ∧ y ≠ x) ∧
          ((c.star = none ∧ globTurn p t c = .ok (.ends false)) ∨
            ∃ s, c.star = some s ∧ globTurn p t c = .ok (.next { c with pi := s + 1, mark := c.mark + 1, ti := c.mark + 1 })))) := by
  cases rest : t.drop c.ti with
  | nil =>
    refine .inl ⟨rfl,?_⟩
    rw [globTurn,if_neg (Nat.not_lt.mpr (drop_end rest)),if_pos inside]
  | cons x u =>
    refine .inr ⟨x,u,rfl,?_⟩
    have turn : globTurn p t c =
        if (p.drop c.pi).head? = some '*' then .ok (.next { c with star := some c.pi, mark := c.ti, pi := c.pi + 1 })
        else if (p.drop c.pi).head? = some x then .ok (.next { c with pi := c.pi + 1, ti := c.ti + 1 })
        else match c.star with
          | some s => .ok (.next { c with pi := s + 1, mark := c.mark + 1, ti := c.mark + 1 })
          | none => .ok (.ends false) := by
      rw [globTurn,if_pos (drop_inside rest),isStar_drop,isSame_drop rest]
      simp only [bind,Except.bind,pure,Except.pure,decide_eq_true_eq]
    rw [turn]
    cases left : p.drop c.pi with
    | nil =>
      refine .inr (.inr ⟨fun y none_ => (by cases none_),?_⟩)
      cases star : c.star with
      | none => exact .inl ⟨rfl,rfl⟩
      | some s => exact .inr ⟨s,rfl,rfl⟩
    | cons y q =>
      simp only [List.head?_cons,Option.some.injEq]
      by_cases wild : y = '*'
      · exact .inl ⟨q,by rw [wild],if_pos wild⟩
      · rw [if_neg wild]
        by_cases same : y = x
        · exact .inr (.inl ⟨q,same ▸ wild,by rw [same],if_pos same⟩)
        · rw [if_neg same]
          refine .inr (.inr ⟨fun z first => ?_,?_⟩)
          · cases first
            exact ⟨wild,same⟩
          · cases star : c.star with
            | none => exact .inl ⟨rfl,rfl⟩
            | some s => exact .inr ⟨s,rfl,rfl⟩

end

/-! The run of the loop -/

-- How far the loop has come: the mark first, then the star, then the text.
def rank (p t : Str) (c : Cursor) : Nat ×ₗ Nat ×ₗ Nat :=
  toLex (t.length - c.mark,toLex (p.length - (c.star.map (· + 1)).getD 0,t.length - c.ti))

-- What is found so far decides nothing: the text matches just when it does from
-- the last star and its mark. Behind the star stands a word that the text has.
def Open (p t : Str) (c : Cursor) : Prop :=
  match c.star with
  | none => Expands '*' p t ↔ Expands '*' (p.drop c.pi) (t.drop c.ti)
  | some s => s < c.pi ∧ ∃ w, Plain '*' w ∧ p.drop (s + 1) = w ++ p.drop c.pi ∧ t.drop c.mark = w ++ t.drop c.ti ∧
    (Expands '*' p t ↔ Expands '*' ('*' :: p.drop (s + 1)) (t.drop c.mark))

structure Reads (p t : Str) (c : Cursor) : Prop where
  pattern : c.pi ≤ p.length
  text : c.ti ≤ t.length
  marked : c.mark ≤ c.ti
  exact_ : Open p t c

theorem reads_start (p t : Str) : Reads p t ⟨0,0,none,0⟩ := ⟨Nat.zero_le _,Nat.zero_le _,Nat.le_refl _,Iff.rfl⟩

section
variable {p t q u : Str} {x : Char} {c : Cursor}

theorem all_stars (p : Str) : p.all (· = '*') = true ↔ Expands '*' p [] := by
  rw [expands_empty,List.all_eq_true]
  exact forall₂_congr fun _ _ => decide_eq_true_iff

theorem reads_end (reads : Reads p t c) (done : t.drop c.ti = []) :
    (p.drop c.pi).all (· = '*') = true ↔ Expands '*' p t := by
  rw [all_stars]
  have found := reads.exact_
  unfold Open at found
  cases star : c.star with
  | none =>
    rw [star,done] at found
    exact found.symm
  | some s =>
    rw [star,done] at found
    obtain ⟨_,w,plain,pattern,marked,found⟩ := found
    rw [found,pattern,marked,List.append_nil,expands_last plain]

theorem reads_star (reads : Reads p t c) (left : p.drop c.pi = '*' :: q) :
    Reads p t { c with star := some c.pi, mark := c.ti, pi := c.pi + 1 } where
  pattern := drop_inside left
  text := reads.text
  marked := Nat.le_refl _
  exact_ := by
    have next := drop_next left
    refine ⟨Nat.lt_succ_self _,[],fun _ none_ => (by cases none_),rfl,rfl,?_⟩
    have found := reads.exact_
    unfold Open at found
    cases star : c.star with
    | none =>
      rw [star,left] at found
      rw [next]
      exact found
    | some s =>
      rw [star] at found
      obtain ⟨_,w,plain,pattern,marked,found⟩ := found
      rw [next,found,pattern,marked,left,expands_next plain]

theorem reads_letter (reads : Reads p t c) (plain : x ≠ '*') (left : p.drop c.pi = x :: q) (right : t.drop c.ti = x :: u) :
    Reads p t { c with pi := c.pi + 1, ti := c.ti + 1 } where
  pattern := drop_inside left
  text := drop_inside right
  marked := Nat.le_succ_of_le reads.marked
  exact_ := by
    have next := drop_next left
    have later := drop_next right
    have found := reads.exact_
    unfold Open at found ⊢
    cases star : c.star with
    | none =>
      rw [star,left,right,expands_letter plain] at found
      simp only [next,later]
      refine Iff.trans found ⟨fun cut => ?_,fun expands => ⟨u,rfl,expands⟩⟩
      obtain ⟨rest,same,expands⟩ := cut
      cases same
      exact expands
    | some s =>
      rw [star] at found
      obtain ⟨before,w,word,pattern,marked,found⟩ := found
      refine ⟨Nat.lt_succ_of_lt before,w ++ [x],?_,?_,?_,found⟩
      · intro d member
        cases List.mem_append.mp member with
        | inl inside => exact word d inside
        | inr last => exact List.mem_singleton.mp last ▸ plain
      · rw [pattern,left,next,List.append_assoc,List.singleton_append]
      · rw [marked,right,later,List.append_assoc,List.singleton_append]

-- Where the pattern ends or names another letter, it does not match from here.
theorem breaks_off (broken : ∀ y ∈ (p.drop c.pi).head?, y ≠ '*' ∧ y ≠ x) : ¬Expands '*' (p.drop c.pi) (x :: u) := by
  intro expands
  cases left : p.drop c.pi with
  | nil =>
    rw [left,expands_nil] at expands
    cases expands
  | cons y q =>
    rw [left] at expands broken
    obtain ⟨plain,other⟩ := broken y rfl
    obtain ⟨_,same,_⟩ := (expands_letter plain).mp expands
    cases same
    exact other rfl

theorem reads_false (reads : Reads p t c) (none_ : c.star = none) (broken : ∀ y ∈ (p.drop c.pi).head?, y ≠ '*' ∧ y ≠ x)
    (right : t.drop c.ti = x :: u) : ¬Expands '*' p t := by
  have found := reads.exact_
  rw [Open,none_,right] at found
  exact fun expands => breaks_off broken (found.mp expands)

theorem reads_back (reads : Reads p t c) (star : c.star = some s) (broken : ∀ y ∈ (p.drop c.pi).head?, y ≠ '*' ∧ y ≠ x)
    (right : t.drop c.ti = x :: u) : Reads p t { c with pi := s + 1, mark := c.mark + 1, ti := c.mark + 1 } := by
  have found := reads.exact_
  rw [Open,star] at found
  obtain ⟨before,w,plain,pattern,marked,found⟩ := found
  refine ⟨Nat.le_trans before reads.pattern,Nat.succ_le_of_lt (Nat.lt_of_le_of_lt reads.marked (drop_inside right)),Nat.le_refl _,?_⟩
  rw [Open,star]
  refine ⟨Nat.lt_succ_self _,[],fun _ none_ => (by cases none_),rfl,rfl,?_⟩
  rw [found,pattern,marked,right,expands_longer plain (breaks_off broken),← right,← marked,List.tail_drop]

theorem star_before (reads : Reads p t c) : (c.star.map (· + 1)).getD 0 ≤ c.pi := by
  have found := reads.exact_
  unfold Open at found
  cases star : c.star with
  | none => exact Nat.zero_le _
  | some s =>
    rw [star] at found
    exact found.1

theorem rank_mark {c' : Cursor} (further : c.mark < c'.mark) (inside : c'.mark ≤ t.length) : rank p t c' < rank p t c :=
  Prod.Lex.toLex_lt_toLex.mpr (.inl (by simp only; omega))

theorem rank_star (reads : Reads p t c) (left : p.drop c.pi = '*' :: q) :
    rank p t { c with star := some c.pi, mark := c.ti, pi := c.pi + 1 } < rank p t c := by
  have pattern := drop_inside left
  have before := star_before reads
  have marked := reads.marked
  refine Prod.Lex.toLex_lt_toLex'.mpr ⟨by simp only; omega,fun _ => ?_⟩
  exact Prod.Lex.toLex_lt_toLex.mpr (.inl (by simp only [Option.map_some,Option.getD_some]; omega))

theorem rank_letter (right : t.drop c.ti = x :: u) : rank p t { c with pi := c.pi + 1, ti := c.ti + 1 } < rank p t c := by
  have inside := drop_inside right
  refine Prod.Lex.toLex_lt_toLex'.mpr ⟨Nat.le_refl _,fun _ => ?_⟩
  exact Prod.Lex.toLex_lt_toLex'.mpr ⟨Nat.le_refl _,fun _ => by simp only; omega⟩

-- No turn reads outside, and each comes nearer to the end.
theorem turn_sound (p t : Str) : Sound (globTurn p t) (Reads p t) (InvImage (· < ·) (rank p t)) fun b => b = true ↔ Expands '*' p t := by
  intro c reads
  obtain ⟨done,turn⟩ | ⟨x,u,right,⟨q,left,turn⟩ | ⟨q,plain,left,turn⟩ | ⟨broken,⟨none_,turn⟩ | ⟨s,star,turn⟩⟩⟩ := turn_cases reads.pattern
  · exact .inr ⟨_,turn,reads_end reads done⟩
  · refine .inl ⟨_,turn,reads_star reads left,?_⟩
    exact rank_star reads left
  · refine .inl ⟨_,turn,reads_letter reads plain left right,?_⟩
    exact rank_letter right
  · refine .inr ⟨false,turn,?_⟩
    exact ⟨fun wrong => (by cases wrong),fun expands => absurd expands (reads_false reads none_ broken right)⟩
  · refine .inl ⟨_,turn,reads_back reads star broken right,?_⟩
    exact rank_mark (Nat.lt_succ_self _) (reads_back reads star broken right).text

end

theorem loop_exact (p t : Str) : ∃ matched : Bool, (matched = true ↔ Expands '*' p t) ∧
    ∃ n, ∀ fuel ≥ n, loop (globTurn p t) fuel ⟨0,0,none,0⟩ = some (.ok matched) :=
  loop_ends (InvImage.wf _ wellFounded_lt) (turn_sound p t) _ (reads_start p t)

section
variable (toLowercase : Str → Str)

theorem glob_exact (pattern candidate : Str) : ∃ matched : Bool,
    (matched = true ↔ Expands '*' (toLowercase (trim pattern)) (toLowercase candidate)) ∧
      ∃ n, ∀ fuel ≥ n, globMatch toLowercase fuel pattern candidate = some (.ok matched) :=
  loop_exact _ _

-- The test's patterns; the action's name is shortened.
example : globMatch id 99 (text "openvtc/* ") (text "openvtc/.github/verify-trust@abc") = some (.ok true) := by decide
example : globMatch id 99 (text "*a*ab") (text "aaxab") = some (.ok true) := by decide
example : globMatch id 99 (text "actions/*") (text "openvtc/.github/verify-trust@abc") = some (.ok false) := by decide

def Allows (selected : Option SelectedActions) (candidate : Str) : Prop :=
  ∃ s ∈ selected, ∃ pattern ∈ s.patternsAllowed, Expands '*' (toLowercase (trim pattern)) (toLowercase candidate)

theorem any_exact (patterns : List Str) (candidate : Str) : ∃ found : Bool,
    (found = true ↔ ∃ pattern ∈ patterns, Expands '*' (toLowercase (trim pattern)) (toLowercase candidate)) ∧
      ∃ n, ∀ fuel ≥ n, anyMatch toLowercase fuel patterns candidate = some (.ok found) := by
  induction patterns with
  | nil => exact ⟨false,by simp,0,fun _ _ => rfl⟩
  | cons pattern rest ih =>
    obtain ⟨matched,wanted,n,runs⟩ := loop_exact (toLowercase (trim pattern)) (toLowercase candidate)
    obtain ⟨found,later,m,runs'⟩ := ih
    cases matched with
    | true =>
      refine ⟨true,⟨fun _ => ⟨pattern,List.mem_cons_self,wanted.mp rfl⟩,fun _ => rfl⟩,n,fun fuel enough => ?_⟩
      have turn : globMatch toLowercase fuel pattern candidate = some (.ok true) := runs fuel enough
      rw [anyMatch,turn]
    | false =>
      refine ⟨found,?_,max n m,fun fuel enough => ?_⟩
      · rw [later]
        refine ⟨fun some_ => ?_,fun some_ => ?_⟩
        · obtain ⟨other,member,expands⟩ := some_
          exact ⟨other,List.mem_cons_of_mem _ member,expands⟩
        · obtain ⟨other,member,expands⟩ := some_
          cases List.mem_cons.mp member with
          | inl same => exact absurd (wanted.mpr (same ▸ expands)) Bool.false_ne_true
          | inr member => exact ⟨other,member,expands⟩
      · have turn : globMatch toLowercase fuel pattern candidate = some (.ok false) := runs fuel ((le_max_left n m).trans enough)
        rw [anyMatch,turn]
        exact runs' fuel ((le_max_right n m).trans enough)

theorem allowed_exact (selected : Option SelectedActions) (candidate : Str) : ∃ found : Bool,
    (found = true ↔ Allows toLowercase selected candidate) ∧
      ∃ n, ∀ fuel ≥ n, allowed toLowercase fuel selected candidate = some (.ok found) := by
  cases selected with
  | none => exact ⟨false,by simp [Allows],0,fun _ _ => rfl⟩
  | some s =>
    obtain ⟨found,wanted,runs⟩ := any_exact toLowercase s.patternsAllowed candidate
    exact ⟨found,by simpa [Allows] using wanted,runs⟩

-- Selected actions that leave no gap: GitHub's own or a pattern for the checkout,
-- and a pattern for the action.
def Selects (selected : Option SelectedActions) (checkoutAction action : Str) : Prop :=
  ((∃ s ∈ selected, s.githubOwnedAllowed = true) ∨ Allows toLowercase selected checkoutAction) ∧ Allows toLowercase selected action

theorem selected_exact (selected : Option SelectedActions) (checkoutAction : Str) (verifyTrustAction : Option Str) : ∃ gaps,
    (gaps = [] ↔ Selects toLowercase selected checkoutAction (verifyTrustAction.getD placeholder)) ∧
      ∃ n, ∀ fuel ≥ n, selectedGaps toLowercase fuel selected checkoutAction verifyTrustAction = some (.ok gaps) := by
  obtain ⟨checkout,open_,n,runs⟩ := allowed_exact toLowercase selected checkoutAction
  obtain ⟨verify,wanted,m,runs'⟩ := allowed_exact toLowercase selected (verifyTrustAction.getD placeholder)
  have owned : selected.any (·.githubOwnedAllowed) = true ↔ ∃ s ∈ selected, s.githubOwnedAllowed = true := by
    cases selected <;> simp
  refine ⟨(if selected.any (·.githubOwnedAllowed) || checkout then [] else [noCheckout]) ++
    if verify then [] else [noAction (verifyTrustAction.getD placeholder)],?_,max n m,fun fuel enough => ?_⟩
  · rw [Selects,← open_,← wanted,← owned,List.append_eq_nil_iff,← Bool.or_eq_true]
    exact and_congr (by split <;> simp [*]) (by split <;> simp [*])
  · have first := runs fuel ((le_max_left n m).trans enough)
    have second := runs' fuel ((le_max_right n m).trans enough)
    cases switch : selected.any (·.githubOwnedAllowed) with
    | true => simp only [selectedGaps,switch,second,Bool.true_or,if_true]
    | false => simp only [selectedGaps,switch,first,second,Bool.false_or,Bool.false_eq_true,if_false]

-- No gap is reported just when the repository runs the check's actions.
theorem policy_exact (permissions : Option ActionsPermissions) (selected : Option SelectedActions) (checkoutAction : Str)
    (verifyTrustAction : Option Str) : ∃ gaps,
    (gaps = [] ↔ ∃ a ∈ permissions, a.enabled = true ∧ a.allowedActions ≠ some (text "local_only") ∧
      (a.allowedActions = some (text "selected") → Selects toLowercase selected checkoutAction (verifyTrustAction.getD placeholder))) ∧
      ∃ n, ∀ fuel ≥ n, inspectActionsPolicy toLowercase fuel permissions selected checkoutAction verifyTrustAction = some (.ok gaps) := by
  cases permissions with
  | none => exact ⟨[unreadable],by simp,0,fun _ _ => rfl⟩
  | some a =>
    cases enabled : a.enabled with
    | false => exact ⟨[disabled],by simp [enabled],0,fun _ _ => by simp [inspectActionsPolicy,enabled]⟩
    | true =>
      by_cases owner : a.allowedActions = some (text "local_only")
      · exact ⟨[localOnly],by simp [owner],0,fun _ _ => by simp [inspectActionsPolicy,enabled,owner]⟩
      · by_cases some_ : a.allowedActions = some (text "selected")
        · obtain ⟨gaps,wanted,n,runs⟩ := selected_exact toLowercase selected checkoutAction verifyTrustAction
          refine ⟨gaps,?_,n,fun fuel enough => ?_⟩
          · rw [wanted]
            constructor
            · exact fun selects => ⟨a,rfl,enabled,owner,fun _ => selects⟩
            · intro whole
              obtain ⟨_,same,_,_,selects⟩ := whole
              cases same
              exact selects some_
          · rw [inspectActionsPolicy,enabled,if_neg (by simp),if_neg owner,if_pos some_]
            exact runs fuel enough
        · refine ⟨[],⟨fun _ => ⟨a,rfl,enabled,owner,fun same => absurd same some_⟩,fun _ => rfl⟩,0,fun _ _ => ?_⟩
          rw [inspectActionsPolicy,enabled,if_neg (by simp),if_neg owner,if_neg some_]

end

end VerifiableGit.Allowed
