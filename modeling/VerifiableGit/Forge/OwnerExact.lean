import VerifiableGit.Forge.OwnerRound

-- The round trip of `CODEOWNERS` and the texts it holds for.
namespace VerifiableGit.OwnerRules
open Qualified (Str text isWhitespace)
open Workflow
open Library.Contexts

-- The rules among some lines, up to blanks at their ends.
def rulesOf (lines : List Str) : List Str := (lines.filter isRule).map trimEnd

theorem isRule_trimEnd (line : Str) : isRule (trimEnd line) = isRule line := by simp only [isRule,Managed.isRule,trim_trimEnd]
theorem isRule_unreturned (line : Str) : isRule (unreturned line) = isRule line := by simp only [isRule,Managed.isRule,trim_unreturned]

theorem rule_unmarked (rule : isRule line = true) : trim line ≠ managedBegin := by
  intro same
  have quiet : isRule line = false := by
    simp only [isRule,Managed.isRule,same]
    decide
  simp [quiet] at rule

theorem rulesOf_append (left right : List Str) : rulesOf (left ++ right) = rulesOf left ++ rulesOf right := by
  simp [rulesOf]

theorem rulesOf_trimmed (lines : List Str) : (lines.map trimEnd).filter isRule = rulesOf lines := by
  have same : (isRule ∘ trimEnd) = isRule := funext isRule_trimEnd
  rw [List.filter_map,same,rulesOf]

theorem rulesOf_unreturned (lines : List Str) : rulesOf (lines.map unreturned) = rulesOf lines := by
  have same : (isRule ∘ unreturned) = isRule := funext isRule_unreturned
  rw [rulesOf,List.filter_map,same,List.map_map,rulesOf]
  exact List.map_congr_left fun line _ => trimEnd_unreturned line

theorem rulesOf_body (lines : List Str) : rulesOf (body lines) = rulesOf lines := by
  induction lines using List.reverseRecOn with
  | nil => rfl
  | append_singleton lines line ih =>
    by_cases blank : trimEnd line = []
    · have none_ : trim line = [] := (trim_nil line).mpr ((trimEnd_nil line).mp blank)
      have quiet : rulesOf [line] = [] := by simp [rulesOf,isRule,Managed.isRule,none_]
      rw [body_blank blank,ih,rulesOf_append,quiet,List.append_nil]
    · have same : rulesOf [trimEnd line] = rulesOf [line] := by
        have twice : trimEnd (trimEnd line) = trimEnd line := trimEnd_self (trimEnd_last line)
        cases here : isRule line <;> simp [rulesOf,isRule_trimEnd,here,twice]
      rw [body_full blank,rulesOf_append,rulesOf_append,same]

theorem front_rules (s : Str) : rulesOf (front s) = rulesOf (outsideLines (linesOf s)) := by
  have quiet : rulesOf [[]] = [] := by decide
  rw [front]
  split
  · rename_i empty
    rw [← rulesOf_body (outsideLines (linesOf s)),empty]
  · rw [rulesOf_append,quiet,List.append_nil,rulesOf_unreturned,rulesOf_body]

-- No rule follows a begin marker that is never closed.
def Closed (lines : List Str) : Prop := ∀ place ∈ contexts [] lines,
  isRule place.2.1 = true → withinBlock place.1 = true → ∃ closing ∈ place.2.2, trim closing = managedEnd

theorem kept_rules (s : Str) : ((communityRules (linesOf s)).map trimEnd).Sublist ((front s).map trimEnd) ↔ Closed (linesOf s) := by
  let lines := linesOf s
  let scanned : List Str → Str → List Str → Bool := fun before line _ =>
    !withinBlock before && decide (trim line ≠ managedBegin) && isRule line
  let wanted : List Str → Str → List Str → Bool := fun before line after => isRule line && !between before after
  have kept : (outsideLines lines).filter isRule = select scanned [] lines := select_filter _ _ _ _
  have wider : ∀ before line after, scanned before line after = true → wanted before line after = true := by
    intro before line after here
    simp only [scanned,Bool.and_eq_true,Bool.not_eq_true'] at here
    simp [wanted,between,here.1.1,here.2]
  have closed : (∀ place ∈ contexts [] lines, wanted place.1 place.2.1 place.2.2 = true → scanned place.1 place.2.1 place.2.2 = true) ↔
      Closed lines := by
    refine forall₂_congr fun place _ => ?_
    cases rule : isRule place.2.1 with
    | false => simp [wanted,rule]
    | true => cases inside : withinBlock place.1 <;> simp [wanted,scanned,between,rule,inside,rule_unmarked rule]
  have rules : ∀ line ∈ (communityRules lines).map trimEnd, isRule line = true := by
    intro line member
    obtain ⟨origin,place,same⟩ := List.mem_map.mp member
    obtain ⟨_,before,after,chosen⟩ := mem_select place
    rw [← same,isRule_trimEnd]
    exact (Bool.and_eq_true _ _ ▸ chosen).1
  rw [← closed,← select_same wider]
  constructor
  · intro sub
    have ruled := sub.filter isRule
    rw [List.filter_eq_self.mpr rules,rulesOf_trimmed,front_rules] at ruled
    have long := ruled.length_le
    rw [rulesOf,List.length_map,List.length_map,kept] at long
    exact long
  · intro long
    have same : (communityRules lines) = (outsideLines lines).filter isRule :=
      ((select_sublist wider [] lines).eq_of_length_le long).symm.trans kept.symm
    have ahead : (communityRules lines).map trimEnd = rulesOf (front s) := by
      rw [front_rules,same]
      rfl
    rw [ahead,← rulesOf_trimmed]
    exact List.filter_sublist

theorem keep_front (free : ∀ line ∈ ahead, trim line ≠ managedBegin) (rest : List Str) :
    keep false (ahead ++ rest) = ahead ++ keep false rest := by
  induction ahead with
  | nil => rfl
  | cons line more ih =>
    have later := ih fun l member => free l (List.mem_cons_of_mem _ member)
    rw [List.cons_append,keep,if_neg (free line List.mem_cons_self)]
    simp [later]

theorem keep_block (each : ∀ line ∈ middle, Inner line) : keep false (managedBegin :: middle ++ [managedEnd]) = [] := by
  have opens : trim managedBegin = managedBegin := by decide
  have closes : trim managedEnd = managedEnd := by decide
  have within : keep true (middle ++ [managedEnd]) = [] := by
    induction middle with
    | nil => simp [keep,closes,begin_open.symm]
    | cons line more ih =>
      have later := ih fun l member => each l (List.mem_cons_of_mem _ member)
      have here := each line List.mem_cons_self
      simp [keep,here.opens,here.closes,later]
  rw [List.cons_append,keep,if_pos opens,within]

theorem outside_unmarked (lines : List Str) : ∀ line ∈ outsideLines lines, trim line ≠ managedBegin := by
  intro line member
  obtain ⟨_,before,after,chosen⟩ := mem_select member
  simp only [Bool.and_eq_true,decide_eq_true_eq] at chosen
  exact chosen.2

theorem front_unmarked (s : Str) : ∀ line ∈ front s, trim line ≠ managedBegin := by
  intro line member
  rw [front] at member
  split at member
  · cases member
  · cases List.mem_append.mp member with
    | inl inside =>
      obtain ⟨kept,here,same⟩ := List.mem_map.mp inside
      obtain ⟨origin,outside,trimmed⟩ := trim_body here
      rw [← same,trim_unreturned,trimmed]
      exact outside_unmarked _ origin outside
    | inr last => rw [List.mem_singleton.mp last]; decide

section
variable {paths logins : List Str} (allPaths : ∀ p ∈ paths, Word p) (allLogins : ∀ l ∈ logins, Word l) (some_ : logins ≠ [])
include allPaths allLogins some_

theorem render_outside (s : Str) : outsideLines (linesOf (renderCodeowners s paths logins)) = front s := by
  have block : keep false (blockLines paths logins) = [] := by
    have body := keep_block (inner_lines allPaths allLogins some_)
    rwa [blockLines]
  rw [← keep_lines,render_lines allPaths allLogins some_,keep_front (front_unmarked s),block,List.append_nil]

omit allPaths allLogins some_ in
theorem front_body (s : Str) : body (front s) = (body (outsideLines (linesOf s))).map unreturned := by
  rw [front]
  split
  · rename_i empty
    rw [empty]
    rfl
  · rename_i full
    rw [body_blank rfl,body_again full]

theorem render_again (s : Str) : renderCodeowners (renderCodeowners s paths logins) paths logins = renderCodeowners s paths logins ↔
    (outsideLines (linesOf s)).Pairwise Paired := by
  have outside := render_outside allPaths allLogins some_ s
  rw [render_parts (renderCodeowners s paths logins),outside,front_body,render_parts s,List.append_cancel_right_eq,
    ← body_returns]
  let kept := body (outsideLines (linesOf s))
  have lines : ∀ line ∈ kept, newline ∉ line := body_newline (outside_newline s)
  have shorter : ∀ line ∈ kept.map unreturned, newline ∉ line := by
    intro line member
    obtain ⟨origin,inside,same⟩ := List.mem_map.mp member
    obtain ⟨run,_,cut⟩ := unreturned_cut origin
    rw [← same]
    exact fun here => lines origin inside (by rw [cut]; exact List.mem_append_left _ here)
  by_cases empty : kept = []
  · simp [kept] at empty
    simp [empty]
  · have full : kept.map unreturned ≠ [] := by simpa using empty
    rw [if_neg empty,if_neg full,List.append_cancel_right_eq]
    exact ⟨fun same => joined_inj shorter lines full empty same,fun same => congrArg joined same⟩

end

-- Where a numbered rule stands.
theorem numbered_line (owners : List Str) (ahead paths : List Str) (more : List Str) (line : Nat) (start : ahead.length + 1 = line) :
    ∀ row ∈ numbered owners line paths,
      (ahead ++ paths.map (ruleLine owners) ++ more)[row.2-1]? = some (ruleLine row.1.owners row.1.pattern) := by
  induction paths generalizing ahead line with
  | nil => nofun
  | cons path paths ih =>
    intro row member
    cases List.mem_cons.mp member with
    | inl same =>
      subst same start
      simp
    | inr later =>
      have next := ih (ahead ++ [ruleLine owners path]) (line+1) (by simp [start]) row later
      simpa using next

-- What the file promises after rendering: the block reads back with its lines'
-- numbers, the community's rules stand before it, and rendering again changes nothing.
def RoundTrip (s : Str) (paths logins : List Str) : Prop :=
  let out := renderCodeowners s paths logins
  ∃ ahead, linesOf out = ahead ++ blockLines paths logins ∧
    managedRules out = some (numbered (ownersOf logins) (ahead.length+5) paths) ∧
    (∀ row ∈ numbered (ownersOf logins) (ahead.length+5) paths,
      (linesOf out)[row.2-1]? = some (ruleLine row.1.owners row.1.pattern)) ∧
    ((communityRules (linesOf s)).map trimEnd).Sublist (ahead.map trimEnd) ∧
    renderCodeowners out paths logins = out

theorem roundTrip_closed {paths logins : List Str} (allPaths : ∀ p ∈ paths, Word p) (allLogins : ∀ l ∈ logins, Word l)
    (some_ : logins ≠ []) (holds : RoundTrip s paths logins) : Closed (linesOf s) := by
  obtain ⟨ahead,parts,_,_,kept,_⟩ := holds
  cases List.append_cancel_right (parts.symm.trans (render_lines allPaths allLogins some_ s))
  exact (kept_rules s).mp kept

theorem codeowners_exact {paths logins : List Str} (allPaths : ∀ p ∈ paths, Word p) (allLogins : ∀ l ∈ logins, Word l)
    (some_ : logins ≠ []) (s : Str) :
    RoundTrip s paths logins ↔ Closed (linesOf s) ∧ (outsideLines (linesOf s)).Pairwise Paired := by
  constructor
  · intro holds
    have closed := roundTrip_closed allPaths allLogins some_ holds
    obtain ⟨ahead,_,_,_,_,again⟩ := holds
    exact ⟨closed,(render_again allPaths allLogins some_ s).mp again⟩
  · intro ⟨closed,paired⟩
    have lines := render_lines allPaths allLogins some_ s
    refine ⟨front s,lines,render_read allPaths allLogins some_ s,?_,(kept_rules s).mpr closed,
      (render_again allPaths allLogins some_ s).mpr paired⟩
    have placed := numbered_line (ownersOf logins) (front s ++ managedBegin :: preamble) paths [managedEnd]
      ((front s).length+5) (by simp [preamble])
    rw [lines,blockLines]
    simpa using placed

namespace Sample

def paths : List Str := [text "/.github/"]
def logins : List Str := [text "alice",text "bob"]

theorem word {w : Str} (some_ : w ≠ []) (plain : w.any isWhitespace = false) (hashless : '#' ∉ w) : Word w where
  some_ := some_
  plain c member := by simpa using List.any_eq_false.mp plain c member
  hashless := hashless

theorem paths_words : ∀ p ∈ paths, Word p := by
  intro p member
  rw [List.mem_singleton.mp member]
  exact word (by decide) (by decide) (by decide)

theorem logins_words : ∀ l ∈ logins, Word l := by
  intro l member
  simp only [logins,List.mem_cons,List.not_mem_nil,or_false] at member
  cases member with
  | inl same => subst same; exact word (by decide) (by decide) (by decide)
  | inr same => subst same; exact word (by decide) (by decide) (by decide)

-- A begin marker that nothing closes, and a rule after it.
def opened : Str := text "# BEGIN VGI managed owner rules\n* @acme/owners\n"

theorem opened_lost : ¬ Closed (linesOf opened) := by
  unfold Closed
  decide

end Sample

theorem codeowners_sample : RoundTrip (text "* @acme/owners\n") Sample.paths Sample.logins ↔
    Closed (linesOf (text "* @acme/owners\n")) ∧ (outsideLines (linesOf (text "* @acme/owners\n"))).Pairwise Paired :=
  codeowners_exact Sample.paths_words Sample.logins_words (by decide) _

-- The rule after the open marker is gone.
theorem codeowners_lost : ¬ ∀ (s : Str) (paths logins : List Str), (∀ p ∈ paths, Word p) → (∀ l ∈ logins, Word l) → logins ≠ [] →
    RoundTrip s paths logins :=
  fun always => Sample.opened_lost (roundTrip_closed Sample.paths_words Sample.logins_words (by decide)
    (always Sample.opened Sample.paths Sample.logins Sample.paths_words Sample.logins_words (by decide)))

end VerifiableGit.OwnerRules
