import Mathlib.Data.List.TakeDrop

-- The managed block of a `CODEOWNERS` file (vgi-forge-github, plan.rs), in texts
-- that are lists of bytes, or of characters where they are read as such.
namespace VerifiableGit.Managed

def beginMarker : String := "# BEGIN VGI managed owner rules"
def endMarker : String := "# END VGI managed owner rules"

structure Rule (α : Type) where
  pattern : List α
  owners : List (List α)
deriving DecidableEq

section
variable {α : Type} [DecidableEq α] (trim : List α → List α)

-- Neither blank nor a comment.
def isRule (hash : α) (line : List α) : Bool :=
  let t := trim line
  !t.isEmpty && t.head? ≠ some hash

def ruleOf : List (List α) → Rule α
  | [] => ⟨[],[]⟩
  | pattern :: owners => ⟨pattern,owners⟩

-- The rules of the last managed block that only comments follow, each with its
-- line number in the file.
def managedRules (opening closing : List α) (counts : List α → Bool) (read : List α → Rule α)
    (lines : List (List α)) : Option (List (Rule α × Nat)) :=
  match lines.reverse.span fun l => trim l ≠ opening with
  | (_,[]) => none
  | (afterRev,_ :: beforeRev) =>
    match afterRev.reverse.span fun l => trim l ≠ closing with
    | (_,[]) => none
    | (block,_ :: rest) =>
      if rest.any counts then none
      else some ((block.zipIdx.filter fun row => counts row.1).map fun row => (read row.1,beforeRev.length + 2 + row.2))

end

section
variable {β : Type}

theorem span_some {p : β → Bool} {ls before after : List β} {l : β}
    (split : ls.span p = (before,l :: after)) : ls = before ++ l :: after ∧ p l = false := by
  rw [List.span_eq_takeWhile_dropWhile] at split
  obtain ⟨front,back⟩ := Prod.mk.inj split
  have stops := List.head?_dropWhile_not p ls
  rw [back] at stops
  refine ⟨?_,by simpa using stops⟩
  rw [← front,← back,List.takeWhile_append_dropWhile]

theorem span_at {p : β → Bool} {before : List β} {line : β} (front : ∀ l ∈ before, p l = true)
    (here : p line = false) (after : List β) : (before ++ line :: after).span p = (before,line :: after) := by
  rw [List.span_eq_takeWhile_dropWhile,List.takeWhile_append_of_pos front,List.dropWhile_append_of_pos front]
  simp [here]

end

section
variable {α : Type} [DecidableEq α] {trim : List α → List α} {opening closing : List α} {counts : List α → Bool} {read : List α → Rule α}

omit [DecidableEq α] in
theorem numbered_rules (block : List (List α)) (line : Nat) :
    (((block.zipIdx.filter fun row => counts row.1).map fun row => (read row.1,line + row.2)).map Prod.fst) =
      (block.filter counts).map read := by
  have plain : block.zipIdx.map Prod.fst = block := List.zipIdx_map_fst 0 block
  have kept : (block.zipIdx.filter fun row => counts row.1).map Prod.fst = block.filter counts := by
    rw [← plain,List.filter_map,plain]
    rfl
  rw [← kept,List.map_map,List.map_map]
  rfl

-- The rules of the block are the last of the file.
theorem managed_last (comment : ∀ l, trim l = closing → counts l = false) {lines : List (List α)}
    {rules : List (Rule α × Nat)} (managed : managedRules trim opening closing counts read lines = some rules) :
    ∃ front, (lines.filter counts).map read = front ++ rules.map Prod.fst := by
  unfold managedRules at managed
  split at managed
  · cases managed
  · rename_i afterRev first beforeRev begun
    have whole : lines = beforeRev.reverse ++ first :: afterRev.reverse := by
      have split := congrArg List.reverse (span_some begun).1
      simpa using split
    split at managed
    · cases managed
    · rename_i block last rest ended
      obtain ⟨inside,closes⟩ := span_some ended
      split at managed
      · cases managed
      · rename_i trailing
        cases managed
        have quiet : rest.filter counts = [] :=
          List.filter_eq_nil_iff.mpr fun l place rule => trailing (List.any_eq_true.mpr ⟨l,place,rule⟩)
        refine ⟨((beforeRev.reverse ++ [first]).filter counts).map read,?_⟩
        have parts : lines = ((beforeRev.reverse ++ [first]) ++ block) ++ last :: rest := by
          rw [whole,inside]
          simp
        have tail : (last :: rest).filter counts = [] := by
          rw [List.filter_cons_of_neg (Bool.eq_false_iff.mp (comment last (by simpa using closes))),quiet]
        rw [numbered_rules,parts,List.filter_append,tail,List.append_nil,List.filter_append,List.map_append]

-- Lines that end in a block with this body.
theorem managed_ends (opens : trim opening = opening) (closes : trim closing = closing) (apart : closing ≠ opening)
    {body : List (List α)} (each : ∀ line ∈ body, trim line ≠ opening ∧ trim line ≠ closing) (front : List (List α)) :
    managedRules trim opening closing counts read (front ++ opening :: body ++ [closing]) =
      some ((body.zipIdx.filter fun row => counts row.1).map fun row => (read row.1,front.length + 2 + row.2)) := by
  have reversed : (front ++ opening :: body ++ [closing]).reverse = (closing :: body.reverse) ++ opening :: front.reverse := by
    simp
  have after : ∀ l ∈ closing :: body.reverse, decide (trim l ≠ opening) = true := by
    intro l member
    cases List.mem_cons.mp member with
    | inl same => rw [same,closes]; exact decide_eq_true apart
    | inr inside => exact decide_eq_true (each l (List.mem_reverse.mp inside)).1
  have inside : ∀ l ∈ body, decide (trim l ≠ closing) = true := fun l member => decide_eq_true (each l member).2
  unfold managedRules
  rw [reversed,span_at after (by simp [opens])]
  dsimp only
  rw [List.reverse_cons,List.reverse_reverse,span_at inside (by simp [closes])]
  simp

end

end VerifiableGit.Managed
