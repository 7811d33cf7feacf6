import Mathlib.Data.List.Basic
import VerifiableGit.Workflow.Render

-- A text as its lines, and the blanks around a line.
namespace VerifiableGit.Workflow
open Qualified (Str isWhitespace)

-- `str::trim_end`, `str::trim`
def trimEnd (s : Str) : Str := s.rdropWhile isWhitespace
def trim (s : Str) : Str := trimEnd (s.dropWhile isWhitespace)

def Blank (s : Str) : Prop := ∀ c ∈ s, isWhitespace c = true
def Trimmed (s : Str) : Prop := (∀ c ∈ s.head?, isWhitespace c = false) ∧ ∀ c ∈ s.getLast?, isWhitespace c = false

theorem trimmed_ends {s : Str} {c d : Char} (first : s.head? = some c) (last : s.getLast? = some d) (visible : isWhitespace c = false)
    (seen : isWhitespace d = false) : Trimmed s := by
  constructor
  · intro a here
    cases here.symm.trans first
    exact visible
  · intro a here
    cases here.symm.trans last
    exact seen

theorem blank_newline : isWhitespace newline = true := by decide
theorem blank_return : isWhitespace carriageReturn = true := by decide

theorem trimEnd_append {run : Str} (blank : Blank run) (s : Str) : trimEnd (s ++ run) = trimEnd s := by
  have back : ∀ c ∈ run.reverse, isWhitespace c = true := fun c member => blank c (List.mem_reverse.mp member)
  rw [trimEnd,trimEnd,List.rdropWhile,List.rdropWhile,List.reverse_append,List.dropWhile_append_of_pos back]

theorem trimEnd_last (s : Str) : ∀ c ∈ (trimEnd s).getLast?, isWhitespace c = false := by
  intro c last
  have some_ : trimEnd s ≠ [] := fun empty => by simp [empty] at last
  have visible := List.rdropWhile_last_not isWhitespace s some_
  rw [List.getLast?_eq_some_getLast some_] at last
  cases last
  exact Bool.eq_false_iff.mpr visible

theorem trimEnd_self (last : ∀ c ∈ s.getLast?, isWhitespace c = false) : trimEnd s = s := by
  rw [trimEnd,List.rdropWhile_eq_self_iff]
  intro full
  exact Bool.eq_false_iff.mp (last _ (List.getLast?_eq_some_getLast full))

theorem trimEnd_nil (s : Str) : trimEnd s = [] ↔ Blank s := List.rdropWhile_eq_nil_iff

theorem trimEnd_cut (s : Str) : ∃ run, Blank run ∧ s = trimEnd s ++ run :=
  ⟨s.rtakeWhile isWhitespace,fun _ member => List.mem_rtakeWhile_imp member,
    List.rdropWhile_append_rtakeWhile.symm⟩

theorem trimEnd_more (full : trimEnd s ≠ []) (front : Str) : trimEnd (front ++ s) = front ++ trimEnd s := by
  obtain ⟨run,blank,cut⟩ := trimEnd_cut s
  have last : ∀ c ∈ (front ++ trimEnd s).getLast?, isWhitespace c = false := by
    rw [List.getLast?_append_of_ne_nil _ full]
    exact trimEnd_last s
  calc trimEnd (front ++ s) = trimEnd ((front ++ trimEnd s) ++ run) := by rw [List.append_assoc,← cut]
    _ = front ++ trimEnd s := by rw [trimEnd_append blank,trimEnd_self last]

theorem trim_append {run : Str} (blank : Blank run) (s : Str) : trim (s ++ run) = trim s := by
  rw [trim,trim,List.dropWhile_append]
  split
  · rename_i empty
    have rest : Blank (run.dropWhile isWhitespace) :=
      fun c member => blank c ((List.dropWhile_suffix isWhitespace).subset member)
    rw [List.isEmpty_iff.mp empty]
    exact trimEnd_append rest []
  · exact trimEnd_append blank _

theorem trim_trimEnd (s : Str) : trim (trimEnd s) = trim s := by
  obtain ⟨run,blank,cut⟩ := trimEnd_cut s
  conv_rhs => rw [cut]
  exact (trim_append blank (trimEnd s)).symm

theorem trim_nil (s : Str) : trim s = [] ↔ Blank s := by
  rw [trim,trimEnd_nil]
  constructor
  · intro rest c member
    cases after : s.dropWhile isWhitespace with
    | nil => exact List.dropWhile_eq_nil_iff.mp after c member
    | cons d more =>
      have head := List.head?_dropWhile_not isWhitespace s
      rw [after] at head rest
      exact absurd (rest d List.mem_cons_self) (by simpa using head)
  · exact fun all c member => all c ((List.dropWhile_suffix isWhitespace).subset member)

theorem trim_trimmed (s : Str) : Trimmed (trim s) := by
  refine ⟨fun c first => ?_,trimEnd_last _⟩
  obtain ⟨run,_,cut⟩ := trimEnd_cut (s.dropWhile isWhitespace)
  have head : (s.dropWhile isWhitespace).head? = some c := by
    rw [cut,List.head?_append,show (trimEnd (s.dropWhile isWhitespace)).head? = some c from first]
    rfl
  have visible := List.head?_dropWhile_not isWhitespace s
  rw [head] at visible
  simpa using visible

theorem trim_self (trimmed : Trimmed s) : trim s = s := by
  have front : s.dropWhile isWhitespace = s := by
    cases s with
    | nil => rfl
    | cons c s => simp [trimmed.1 c rfl]
  rw [trim,front,trimEnd_self trimmed.2]

theorem trim_trim (s : Str) : trim (trim s) = trim s := trim_self (trim_trimmed s)

-- A line without the carriage return it may end in.
def unreturned (line : Str) : Str := if line.getLast? = some carriageReturn then line.dropLast else line

theorem unreturned_cut (line : Str) : ∃ run, Blank run ∧ line = unreturned line ++ run := by
  unfold unreturned
  split
  · rename_i ends
    exact ⟨[carriageReturn],fun c member => List.mem_singleton.mp member ▸ blank_return,
      (List.dropLast_append_getLast? _ ends).symm⟩
  · exact ⟨[],nofun,(List.append_nil line).symm⟩

theorem trim_unreturned (line : Str) : trim (unreturned line) = trim line := by
  obtain ⟨run,blank,cut⟩ := unreturned_cut line
  conv_rhs => rw [cut]
  exact (trim_append blank _).symm

theorem trimEnd_unreturned (line : Str) : trimEnd (unreturned line) = trimEnd line := by
  obtain ⟨run,blank,cut⟩ := unreturned_cut line
  conv_rhs => rw [cut]
  exact (trimEnd_append blank _).symm

theorem unreturned_self (last : line.getLast? ≠ some carriageReturn) : unreturned line = line := if_neg last

theorem unreturned_visible (last : ∀ c ∈ line.getLast?, isWhitespace c = false) : unreturned line = line :=
  unreturned_self fun ends => by simpa [blank_return] using last _ ends

theorem unreturned_fixed (line : Str) : unreturned line = line ↔ line.getLast? ≠ some carriageReturn := by
  refine ⟨fun same ends => ?_,unreturned_self⟩
  have shorter : (unreturned line).length < line.length := by
    have some_ : line ≠ [] := fun empty => by simp [empty] at ends
    rw [unreturned,if_pos ends,List.length_dropLast]
    exact Nat.sub_lt (List.length_pos_of_ne_nil some_) Nat.one_pos
  exact absurd (congrArg List.length same) (Nat.ne_of_lt shorter)

theorem linesOf_last (some_ : v ≠ []) (line : newline ∉ v) : linesOf v = [v] := by
  induction v with
  | nil => exact absurd rfl some_
  | cons c v ih =>
    obtain ⟨here,later⟩ := not_or.mp (mt List.mem_cons.mpr line)
    have unpaired : ¬ (c = carriageReturn ∧ v.head? = some newline) :=
      fun paired => later (List.mem_of_mem_head? paired.2)
    rw [linesOf,if_neg (Ne.symm here),if_neg unpaired]
    cases v with
    | nil => rfl
    | cons d v => rw [ih (List.cons_ne_nil d v) later]

theorem linesOf_line (line : newline ∉ v) (rest : Str) : linesOf (v ++ newline :: rest) = unreturned v :: linesOf rest := by
  induction v with
  | nil => simp [linesOf,unreturned]
  | cons c v ih =>
    obtain ⟨here,later⟩ := not_or.mp (mt List.mem_cons.mpr line)
    rw [List.cons_append,linesOf,if_neg (Ne.symm here),ih later]
    cases v with
    | nil =>
      by_cases cr : c = carriageReturn
      · simp [cr,unreturned]
      · simp [cr,unreturned]
    | cons d v =>
      have unpaired : ¬ (c = carriageReturn ∧ (d :: v ++ newline :: rest).head? = some newline) :=
        fun paired => later (by cases paired.2; exact List.mem_cons_self)
      have grown : unreturned (c :: d :: v) = c :: unreturned (d :: v) := by
        unfold unreturned
        rw [List.getLast?_cons_cons]
        split <;> simp
      rw [if_neg unpaired,grown]

theorem linesOf_each (s : Str) : ∀ line ∈ linesOf s, newline ∉ line := by
  induction s with
  | nil => nofun
  | cons c s ih =>
    rw [linesOf]
    split
    · intro line member
      cases List.mem_cons.mp member with
      | inl same => exact same ▸ List.not_mem_nil
      | inr later => exact ih line later
    · split
      · exact ih
      · rename_i other _
        cases lines : linesOf s with
        | nil => simpa using Ne.symm other
        | cons first more =>
          rw [lines] at ih
          intro line member
          cases List.mem_cons.mp member with
          | inl same =>
            rw [same,List.mem_cons,not_or]
            exact ⟨Ne.symm other,ih first List.mem_cons_self⟩
          | inr later => exact ih line (List.mem_cons_of_mem _ later)

-- `join("\n")`
def joined (lines : List Str) : Str := [newline].intercalate lines

theorem joined_cons (line : Str) (some_ : lines ≠ []) : joined (line :: lines) = line ++ newline :: joined lines := by
  rw [joined,List.intercalate_cons_of_ne_nil some_]
  simp [joined]

theorem joined_concat (some_ : lines ≠ []) (line : Str) : joined (lines ++ [line]) = joined lines ++ newline :: line := by
  induction lines with
  | nil => exact absurd rfl some_
  | cons first more ih =>
    cases more with
    | nil => simp [joined]
    | cons next more =>
      rw [List.cons_append,joined_cons first (by simp),ih (List.cons_ne_nil _ _),joined_cons first (List.cons_ne_nil _ _)]
      simp

theorem linesOf_joined (each : ∀ line ∈ lines, newline ∉ line) (some_ : lines ≠ []) (rest : Str) :
    linesOf (joined lines ++ newline :: rest) = lines.map unreturned ++ linesOf rest := by
  induction lines with
  | nil => exact absurd rfl some_
  | cons line more ih =>
    have first := each line List.mem_cons_self
    cases more with
    | nil => simpa [joined] using linesOf_line first rest
    | cons next more =>
      have later := ih (fun l member => each l (List.mem_cons_of_mem _ member)) (List.cons_ne_nil _ _)
      rw [joined_cons line (List.cons_ne_nil _ _),List.append_assoc,List.cons_append,linesOf_line first,later]
      simp

theorem joined_inj {left right : List Str} (l : ∀ line ∈ left, newline ∉ line) (r : ∀ line ∈ right, newline ∉ line)
    (some_ : left ≠ []) (more : right ≠ []) (same : joined left = joined right) : left = right := by
  rw [← List.splitOn_intercalate newline l some_,← List.splitOn_intercalate newline r more]
  exact congrArg (List.splitOn newline) same

end VerifiableGit.Workflow
