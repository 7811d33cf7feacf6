import VerifiableGit.Forge.OwnerRules

-- Rendering over a text keeps the rules the scanner keeps, and reads back.
namespace VerifiableGit.OwnerRules
open Qualified (Str text isWhitespace)
open Workflow
open Library.Contexts

-- The lines up to the last that is not blank, that one trimmed.
def bodyRev : List Str → List Str
  | [] => []
  | line :: more => if trimEnd line = [] then bodyRev more else trimEnd line :: more

def body (lines : List Str) : List Str := (bodyRev lines.reverse).reverse

theorem body_blank (blank : trimEnd line = []) (lines : List Str) : body (lines ++ [line]) = body lines := by
  simp [body,bodyRev,blank]

theorem body_full (full : trimEnd line ≠ []) (lines : List Str) : body (lines ++ [line]) = lines ++ [trimEnd line] := by
  simp [body,bodyRev,full]

theorem blank_break {s : Str} (blank : Blank s) : Blank (newline :: s) := by
  intro c member
  cases List.mem_cons.mp member with
  | inl same => exact same ▸ blank_newline
  | inr later => exact blank c later

theorem trimEnd_joined (lines : List Str) : trimEnd (joined lines) = joined (body lines) := by
  induction lines using List.reverseRecOn with
  | nil => rfl
  | append_singleton lines line ih =>
    by_cases blank : trimEnd line = []
    · rw [body_blank blank]
      by_cases empty : lines = []
      · subst empty
        have single : joined ([] ++ [line]) = line := by simp [joined]
        rw [single]
        exact blank
      · rw [joined_concat empty,trimEnd_append (blank_break ((trimEnd_nil line).mp blank)),ih]
    · rw [body_full blank]
      by_cases empty : lines = []
      · subst empty
        simp [joined]
      · have full : trimEnd (newline :: line) = newline :: trimEnd line := trimEnd_more blank [newline]
        rw [joined_concat empty,joined_concat empty,trimEnd_more (by simp [full]),full]

theorem body_last (some_ : body lines ≠ []) : ∃ init last, body lines = init ++ [last] ∧ trimEnd last = last ∧ last ≠ [] := by
  induction lines using List.reverseRecOn with
  | nil => exact absurd rfl some_
  | append_singleton lines line ih =>
    by_cases blank : trimEnd line = []
    · rw [body_blank blank] at some_ ⊢
      exact ih some_
    · exact ⟨lines,trimEnd line,body_full blank lines,trimEnd_self (trimEnd_last line),blank⟩

theorem joined_body (lines : List Str) : joined (body lines) = [] ↔ body lines = [] := by
  constructor
  · intro none_
    by_contra some_
    obtain ⟨init,last,cut,_,full⟩ := body_last some_
    rw [cut] at none_
    by_cases empty : init = []
    · subst empty
      exact full (by simpa [joined] using none_)
    · rw [joined_concat empty] at none_
      simp at none_
  · intro empty
    rw [empty]
    rfl

theorem mem_body (member : line ∈ body lines) : ∃ origin ∈ lines, line = origin ∨ line = trimEnd origin := by
  induction lines using List.reverseRecOn with
  | nil => cases member
  | append_singleton lines last ih =>
    by_cases blank : trimEnd last = []
    · rw [body_blank blank] at member
      obtain ⟨origin,inside,same⟩ := ih member
      exact ⟨origin,List.mem_append_left _ inside,same⟩
    · rw [body_full blank] at member
      cases List.mem_append.mp member with
      | inl inside => exact ⟨line,List.mem_append_left _ inside,.inl rfl⟩
      | inr here => exact ⟨last,by simp,.inr (List.mem_singleton.mp here)⟩

theorem trim_body (member : line ∈ body lines) : ∃ origin ∈ lines, trim line = trim origin := by
  obtain ⟨origin,inside,same⟩ := mem_body member
  refine ⟨origin,inside,?_⟩
  cases same with
  | inl same => rw [same]
  | inr same => rw [same,trim_trimEnd]

theorem body_newline (each : ∀ line ∈ lines, newline ∉ line) : ∀ line ∈ body lines, newline ∉ line := by
  intro line member
  obtain ⟨origin,inside,same⟩ := mem_body member
  cases same with
  | inl same => exact same ▸ each origin inside
  | inr same =>
    rw [same]
    exact fun here => each origin inside ((List.rdropWhile_prefix isWhitespace origin).subset here)

-- A body ends where it ends.
theorem body_again (some_ : body lines ≠ []) : body ((body lines).map unreturned) = (body lines).map unreturned := by
  obtain ⟨init,last,cut,fixed,full⟩ := body_last some_
  have visible : unreturned last = last := unreturned_visible (fixed ▸ trimEnd_last last)
  rw [cut,List.map_append,List.map_singleton,visible,body_full (by rw [fixed]; exact full),fixed]

-- A carriage return is left in the body by a line that something visible follows.
def Paired (line later : Str) : Prop := line.getLast? = some carriageReturn → Blank later

theorem body_returns (lines : List Str) : (body lines).map unreturned = body lines ↔ lines.Pairwise Paired := by
  have each (lines : List Str) : lines.map unreturned = lines ↔ ∀ line ∈ lines, line.getLast? ≠ some carriageReturn := by
    have plain : lines.map unreturned = lines ↔ lines.map unreturned = lines.map id := by rw [List.map_id]
    rw [plain,List.map_inj_left]
    exact forall₂_congr fun line _ => unreturned_fixed line
  rw [each]
  induction lines using List.reverseRecOn with
  | nil => exact ⟨fun _ => List.Pairwise.nil,fun _ => nofun⟩
  | append_singleton lines line ih =>
    by_cases blank : trimEnd line = []
    · rw [body_blank blank,List.pairwise_append]
      refine ih.trans ⟨fun all => ⟨all,List.pairwise_singleton _ _,?_⟩,And.left⟩
      intro earlier _ later here _
      rw [List.mem_singleton.mp here]
      exact (trimEnd_nil line).mp blank
    · rw [body_full blank,List.pairwise_append]
      constructor
      · intro all
        have none_ : ∀ l ∈ lines, l.getLast? ≠ some carriageReturn := fun l inside => all l (List.mem_append_left _ inside)
        refine ⟨List.pairwise_of_forall_mem_list fun l inside _ _ ends => absurd ends (none_ l inside),
          List.pairwise_singleton _ _,fun l inside _ _ ends => absurd ends (none_ l inside)⟩
      · intro ⟨_,_,follows⟩ l member ends
        cases List.mem_append.mp member with
        | inl inside => exact blank ((trimEnd_nil line).mpr (follows l inside line (by simp) ends))
        | inr here =>
          rw [List.mem_singleton.mp here] at ends
          simpa [blank_return] using trimEnd_last line _ ends

end VerifiableGit.OwnerRules
