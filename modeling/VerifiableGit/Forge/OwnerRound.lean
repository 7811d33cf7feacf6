import VerifiableGit.Forge.OwnerBlock
import VerifiableGit.Qualified.Grammar

-- Exactly when rendering and reading a `CODEOWNERS` file are inverse and keep
-- the community's rules.
namespace VerifiableGit.OwnerRules
open Qualified (Str text isWhitespace mem_intercalate)
open Workflow
open Library.Contexts

-- What stands in a rule as one word: a path, a login.
structure Word (w : Str) : Prop where
  some_ : w ≠ []
  plain : ∀ c ∈ w, isWhitespace c = false
  hashless : '#' ∉ w

theorem word_owner (word : Word login) : Word ('@' :: login) where
  some_ := List.cons_ne_nil _ _
  plain c member := by
    cases List.mem_cons.mp member with
    | inl same => rw [same]; decide
    | inr inside => exact word.plain c inside
  hashless member := by
    cases List.mem_cons.mp member with
    | inl same => exact absurd same (by decide)
    | inr inside => exact word.hashless inside

section
variable {words : List Str} (each : ∀ w ∈ words, Word w) (some_ : words ≠ [])
include each some_

theorem words_trimmed : Trimmed ([' '].intercalate words) := by
  induction words with
  | nil => exact absurd rfl some_
  | cons w more ih =>
    have first := each w List.mem_cons_self
    have visible : ∀ c ∈ w.head?, isWhitespace c = false := fun c here => first.plain c (List.mem_of_mem_head? here)
    cases more with
    | nil =>
      rw [List.intercalate_singleton]
      exact ⟨visible,fun c here => first.plain c (List.mem_of_mem_getLast? here)⟩
    | cons next more =>
      obtain ⟨starts,ends⟩ := ih (fun w member => each w (List.mem_cons_of_mem _ member)) (List.cons_ne_nil _ _)
      rw [List.intercalate_cons_of_ne_nil (List.cons_ne_nil _ _)]
      have full : [' '].intercalate (next :: more) ≠ [] := by
        have second := (each next (by simp)).some_
        cases more <;> simp [second]
      refine ⟨fun c here => visible c ?_,fun c here => ends c ?_⟩
      · cases w with
        | nil => exact absurd rfl first.some_
        | cons d w => exact here
      · rwa [List.getLast?_append_of_ne_nil _ full] at here

theorem words_split : ([' '].intercalate words).splitOnP isWhitespace = words := by
  induction words with
  | nil => exact absurd rfl some_
  | cons w more ih =>
    have first := each w List.mem_cons_self
    cases more with
    | nil =>
      rw [List.intercalate_singleton]
      exact List.splitOnP_eq_singleton first.plain
    | cons next more =>
      have later := ih (fun w member => each w (List.mem_cons_of_mem _ member)) (List.cons_ne_nil _ _)
      have blank : isWhitespace ' ' = true := by decide
      rw [List.intercalate_cons_of_ne_nil (List.cons_ne_nil _ _),List.append_assoc,List.singleton_append,
        List.splitOnP_append_cons_of_forall_mem first.plain ' ' blank,later]

omit some_ in
theorem words_hashless : '#' ∉ [' '].intercalate words := by
  intro member
  cases mem_intercalate member with
  | inl same => exact absurd same (by decide)
  | inr inside =>
    obtain ⟨w,here,hash⟩ := inside
    exact (each w here).hashless hash

omit some_ in
theorem words_line : newline ∉ [' '].intercalate words := by
  intro member
  cases mem_intercalate member with
  | inl same => exact absurd same (by decide)
  | inr inside =>
    obtain ⟨w,here,break_⟩ := inside
    simpa [blank_newline] using (each w here).plain newline break_

end

-- A line of the block that is read as neither of its markers.
structure Inner (line : Str) : Prop where
  opens : trim line ≠ managedBegin
  closes : trim line ≠ managedEnd
  newline : newline ∉ line
  ends : line.getLast? ≠ some carriageReturn

theorem preamble_inner : ∀ line ∈ preamble, Inner line ∧ isRule line = false := by
  have opens : ∀ line ∈ preamble, trim line ≠ managedBegin := by decide +kernel
  have closes : ∀ line ∈ preamble, trim line ≠ managedEnd := by decide +kernel
  have line : ∀ line ∈ preamble, newline ∉ line := by decide +kernel
  have ends : ∀ line ∈ preamble, line.getLast? ≠ some carriageReturn := by decide +kernel
  have quiet : ∀ line ∈ preamble, isRule line = false := by decide
  exact fun l member => ⟨⟨opens l member,closes l member,line l member,ends l member⟩,quiet l member⟩

theorem trimmed_return (trimmed : Trimmed s) : s.getLast? ≠ some carriageReturn := fun ends => by
  simpa [blank_return] using trimmed.2 _ ends

section
variable {path : Str} {owners : List Str} (word : Word path) (each : ∀ o ∈ owners, Word o) (some_ : owners ≠ [])
include word each some_

omit word each in
theorem ruleLine_words : ruleLine owners path = [' '].intercalate (path :: owners) := by
  rw [List.intercalate_cons_of_ne_nil some_]
  simp [ruleLine]

omit some_ in
theorem words_all : ∀ w ∈ path :: owners, Word w := by
  intro w member
  cases List.mem_cons.mp member with
  | inl same => exact same ▸ word
  | inr inside => exact each w inside

theorem ruleLine_trim : Trimmed (ruleLine owners path) :=
  ruleLine_words some_ ▸ words_trimmed (words_all word each) (List.cons_ne_nil _ _)

theorem ruleLine_hashless : '#' ∉ ruleLine owners path :=
  ruleLine_words some_ ▸ words_hashless (words_all word each)

theorem ruleLine_inner : Inner (ruleLine owners path) where
  opens same := by
    have hash : '#' ∈ managedBegin := by decide
    rw [← same,trim_self (ruleLine_trim word each some_)] at hash
    exact ruleLine_hashless word each some_ hash
  closes same := by
    have hash : '#' ∈ managedEnd := by decide
    rw [← same,trim_self (ruleLine_trim word each some_)] at hash
    exact ruleLine_hashless word each some_ hash
  newline := ruleLine_words some_ ▸ words_line (words_all word each)
  ends := trimmed_return (ruleLine_trim word each some_)

theorem ruleLine_rule : isRule (ruleLine owners path) = true := by
  have whole := trim_self (ruleLine_trim word each some_)
  have hash : (ruleLine owners path).head? ≠ some '#' :=
    fun here => ruleLine_hashless word each some_ (List.mem_of_mem_head? here)
  have full : ruleLine owners path ≠ [] := by simp [ruleLine]
  simp [isRule,Managed.isRule,whole,hash,full]

theorem ruleLine_read : ruleOf (ruleLine owners path) = ⟨path,owners⟩ := by
  have whole : (ruleLine owners path).takeWhile (· ≠ '#') = ruleLine owners path := by
    rw [List.takeWhile_eq_self_iff]
    intro c member
    exact decide_eq_true fun same => ruleLine_hashless word each some_ (same ▸ member)
  have full : (path :: owners).filter (· ≠ []) = path :: owners := by
    rw [List.filter_eq_self]
    exact fun w member => decide_eq_true (words_all word each w member).some_
  have words := words_split (words_all word each) (List.cons_ne_nil _ _)
  rw [ruleOf,whole,ruleLine_words some_,splitWhitespace,words,full,Managed.ruleOf]

end

-- The rules in their order, numbered from a line on.
def numbered (owners : List Str) : Nat → List Str → List (Rule × Nat)
  | _,[] => []
  | line,path :: paths => (⟨path,owners⟩,line) :: numbered owners (line+1) paths

theorem rules_numbered {owners : List Str} (each : ∀ o ∈ owners, Word o) (some_ : owners ≠ []) {paths : List Str}
    (all : ∀ p ∈ paths, Word p) (first place : Nat) :
    ((((paths.map (ruleLine owners)).zipIdx place).filter fun row => isRule row.1).map fun row =>
      (ruleOf row.1,first + row.2)) = numbered owners (first + place) paths := by
  induction paths generalizing place with
  | nil => rfl
  | cons path paths ih =>
    have word := all path List.mem_cons_self
    have later := ih (fun p member => all p (List.mem_cons_of_mem _ member)) (place+1)
    have kept := ruleLine_rule word each some_
    rw [List.map_cons,List.zipIdx_cons,List.filter_cons,kept,if_pos rfl,List.map_cons,later,numbered,Nat.add_assoc]
    dsimp only
    rw [ruleLine_read word each some_]

-- A text that ends in a block with these body lines.
theorem managed_block {body : List Str} (each : ∀ line ∈ body, Inner line) {s : Str} {front : List Str}
    (lines : linesOf s = front ++ managedBegin :: body ++ [managedEnd]) :
    managedRules s = some ((body.zipIdx.filter fun row => isRule row.1).map fun row => (ruleOf row.1,front.length + 2 + row.2)) := by
  have closes : trim managedEnd = managedEnd := by decide
  have opens : trim managedBegin = managedBegin := by decide
  rw [managedRules,lines]
  exact Managed.managed_ends opens closes (by decide) (fun line member => ⟨(each line member).opens,(each line member).closes⟩) front

-- The lines of a text that holds one line after another.
theorem linesOf_printed {lines : List Str} (each : ∀ line ∈ lines, newline ∉ line) (rest : Str) :
    linesOf (lines.flatMap (· ++ [newline]) ++ rest) = lines.map unreturned ++ linesOf rest := by
  induction lines with
  | nil => rfl
  | cons line more ih =>
    have later := ih fun l member => each l (List.mem_cons_of_mem _ member)
    rw [List.flatMap_cons,List.append_assoc,List.append_assoc,List.singleton_append,linesOf_line (each line List.mem_cons_self),
      later]
    rfl

section
variable {paths logins : List Str} (allPaths : ∀ p ∈ paths, Word p) (allLogins : ∀ l ∈ logins, Word l) (some_ : logins ≠ [])
include allPaths allLogins some_

omit allPaths in
theorem owners_words : (∀ o ∈ ownersOf logins, Word o) ∧ ownersOf logins ≠ [] := by
  refine ⟨fun o member => ?_,by simpa [ownersOf] using some_⟩
  obtain ⟨login,inside,same⟩ := List.mem_map.mp member
  exact same ▸ word_owner (allLogins login inside)

theorem inner_lines : ∀ line ∈ preamble ++ paths.map (ruleLine (ownersOf logins)), Inner line := by
  obtain ⟨each,full⟩ := owners_words allLogins some_
  intro line member
  cases List.mem_append.mp member with
  | inl comment => exact (preamble_inner line comment).1
  | inr rule =>
    obtain ⟨path,inside,same⟩ := List.mem_map.mp rule
    exact same ▸ ruleLine_inner (allPaths path inside) each full

theorem block_plain : (∀ line ∈ blockLines paths logins, newline ∉ line) ∧
    (blockLines paths logins).map unreturned = blockLines paths logins := by
  have body := inner_lines allPaths allLogins some_
  have each : ∀ line ∈ blockLines paths logins, newline ∉ line ∧ line.getLast? ≠ some carriageReturn := by
    intro line member
    unfold blockLines at member
    cases List.mem_append.mp member with
    | inl first =>
      cases List.mem_cons.mp first with
      | inl same => rw [same]; decide
      | inr inside => exact ⟨(body line inside).newline,(body line inside).ends⟩
    | inr last => rw [List.mem_singleton.mp last]; decide
  refine ⟨fun line member => (each line member).1,?_⟩
  exact (List.map_congr_left fun line member => unreturned_self (each line member).2).trans (List.map_id _)

-- The lines ahead of the block.
def front (s : Str) : List Str :=
  let kept := body (outsideLines (linesOf s))
  if kept = [] then [] else kept.map unreturned ++ [[]]

omit allPaths allLogins some_ in
theorem strip_trimmed (s : Str) : trimEnd (stripManaged s) = joined (body (outsideLines (linesOf s))) := by
  have out : trimEnd (joined (outsideLines (linesOf s))) = joined (body (outsideLines (linesOf s))) := trimEnd_joined _
  rw [stripManaged,keep_lines]
  split
  · exact out
  · have feed : Blank [newline] := fun c member => List.mem_singleton.mp member ▸ blank_newline
    rw [trimEnd_append feed,out]

omit allPaths allLogins some_ in
theorem render_parts (s : Str) : renderCodeowners s paths logins =
    (if body (outsideLines (linesOf s)) = [] then [] else joined (body (outsideLines (linesOf s))) ++ [newline,newline]) ++
      (blockLines paths logins).flatMap (· ++ [newline]) := by
  have blank : trim (stripManaged s) = [] ↔ body (outsideLines (linesOf s)) = [] := by
    rw [trim_nil,← trimEnd_nil,strip_trimmed,joined_body]
  rw [renderCodeowners,strip_trimmed]
  by_cases empty : body (outsideLines (linesOf s)) = []
  · rw [if_pos empty,if_pos (blank.mpr empty)]
  · rw [if_neg empty,if_neg (mt blank.mp empty)]

omit allPaths allLogins some_ in
theorem outside_newline (s : Str) : ∀ line ∈ outsideLines (linesOf s), newline ∉ line :=
  fun line member => linesOf_each s line (mem_select member).1

theorem render_lines (s : Str) : linesOf (renderCodeowners s paths logins) = front s ++ blockLines paths logins := by
  obtain ⟨each,same⟩ := block_plain allPaths allLogins some_
  have block : linesOf ((blockLines paths logins).flatMap (· ++ [newline])) = blockLines paths logins := by
    have printed := linesOf_printed each []
    rwa [List.append_nil,same,show linesOf [] = [] from rfl,List.append_nil] at printed
  rw [render_parts,front]
  split
  · exact block
  · rename_i full
    have kept := body_newline (outside_newline s)
    rw [List.append_assoc,show [newline,newline] ++ (blockLines paths logins).flatMap (· ++ [newline]) =
      newline :: newline :: (blockLines paths logins).flatMap (· ++ [newline]) from rfl,linesOf_joined kept full]
    simp [linesOf,block]

theorem render_read (s : Str) : managedRules (renderCodeowners s paths logins) =
    some (numbered (ownersOf logins) ((front s).length + 5) paths) := by
  obtain ⟨each,full⟩ := owners_words allLogins some_
  have body := inner_lines allPaths allLogins some_
  have lines : linesOf (renderCodeowners s paths logins) =
      front s ++ managedBegin :: (preamble ++ paths.map (ruleLine (ownersOf logins))) ++ [managedEnd] := by
    rw [render_lines allPaths allLogins some_,blockLines]
    simp
  have quiet : (preamble.zipIdx.filter fun row => isRule row.1) = [] := by
    rw [List.filter_eq_nil_iff]
    intro row member
    have here := List.fst_mem_of_mem_zipIdx member
    simp [(preamble_inner row.1 here).2]
  rw [managed_block body lines,List.zipIdx_append,List.filter_append,quiet,List.nil_append,rules_numbered each full allPaths]
  rfl

end

end VerifiableGit.OwnerRules
