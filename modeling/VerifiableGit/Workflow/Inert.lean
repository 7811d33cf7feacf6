import VerifiableGit.Workflow.Plan
import VerifiableGit.Library.Occurrences

-- A file that is its template's own but for what the values read as: no expression,
-- no line and no key but the template's.
namespace VerifiableGit.Workflow
open Qualified (Str text contains splitOnce splitOnce_parts contains_absent isControl backslash)
open Library.Occurrences

-- What YAML 1.2 takes for a line break. A reader of YAML 1.1 breaks a line at U+2028
-- and U+2029 as well, and an embedded keyring may hold these.
def isBreak (c : Char) : Bool := c = newline || c = carriageReturn

-- A scalar in quotes, a doubled one for one of its own; it ends with the line.
def unquoted : Str → Option Str
  | [] => none
  | [c] => if c = quote then some [] else none
  | c :: d :: rest =>
    if c = quote then if d = quote then (unquoted rest).map (quote :: ·) else none
    else (unquoted (d :: rest)).map (c :: ·)

-- No key begins in it, and no comment.
def keyless (s : Str) : Bool := !s.isEmpty && !contains (text ": ") s && !contains (text " #") s && s.getLast? ≠ some ':'

-- What a YAML reader reads to the end of the line.
def scalar : Style → Str → Option Str
  | .plain,s => if keyless s then some s else none
  | .single,s => if s.head? = some quote then unquoted s.tail else none
  | .double,s =>
    if s.head? = some doubleQuote ∧ s.tail.getLast? = some doubleQuote ∧
        s.tail.dropLast.all fun c => c ≠ doubleQuote && c ≠ backslash then
      some s.tail.dropLast
    else none

-- The value is read back, with what the template has after it.
def Line.Reads : Line → Prop
  | .filled _ style value after => scalar style (style.inlined value ++ after) = some (value ++ after)
  | _ => True

-- What is the template's of a line.
def Line.own : Line → Nat
  | .fixed line => occurrences expressionMark line
  | .filled before _ _ after => occurrences expressionMark before + occurrences expressionMark after
  | .embedded _ => 0

structure Inert (file : List Line) : Prop where
  lines : (print file).splitOnP isBreak = file.map Line.written ++ [[]]
  expressions : occurrences expressionMark (print file) = (file.map Line.own).sum
  keys : ∀ line ∈ file, line.Reads

-- What the values bring.
def Line.foreign : Line → Nat
  | .fixed _ => 0
  | .filled _ style value _ => occurrences expressionMark (style.inlined value)
  | .embedded line => occurrences expressionMark line

def Unbroken (s : Str) : Prop := ∀ c ∈ s, isBreak c = false

-- What is asked of a template.
def Line.fine : Line → Bool
  | .fixed line => !line.any isBreak
  | .filled before _ _ after => !before.any isBreak && !after.any isBreak && before.getLast? = some ' ' && after.head?.all (· = '/')
  | .embedded _ => true

-- What is asked of a value, its expressions apart.
def Line.Sound : Line → Prop
  | .fixed _ => True
  | .filled before style value after => Unbroken value ∧ Line.Reads (.filled before style value after)
  | .embedded line => Unbroken line

theorem unbroken_any {s : Str} (whole : s.any isBreak = false) : Unbroken s :=
  fun c member => by simpa using List.any_eq_false.mp whole c member

theorem unbroken_append {s t : Str} (left : Unbroken s) (right : Unbroken t) : Unbroken (s ++ t) := by
  intro c member
  rcases List.mem_append.mp member with inside | inside
  · exact left c inside
  · exact right c inside

theorem inlined_unbroken (style : Style) {value : Str} (whole : Unbroken value) : Unbroken (style.inlined value) := by
  have own : ∀ c ∈ [quote,doubleQuote], isBreak c = false := fun c member => by
    have none_ := List.any_eq_false.mp (by decide : [quote,doubleQuote].any isBreak = false) c member
    simpa using none_
  cases style with
  | plain => exact whole
  | single =>
    intro c member
    simp only [Style.inlined,yamlSingleQuoted,List.mem_append,List.mem_cons,List.mem_flatMap,List.not_mem_nil,or_false] at member
    rcases member with (rfl | ⟨d,inside,here⟩) | rfl
    · exact own _ List.mem_cons_self
    · split at here
      · rcases List.mem_pair.mp here with rfl | rfl <;> exact own _ List.mem_cons_self
      · exact List.mem_singleton.mp here ▸ whole d inside
    · exact own _ List.mem_cons_self
  | double =>
    intro c member
    simp only [Style.inlined,List.mem_append,List.mem_cons,List.not_mem_nil,or_false] at member
    rcases member with (rfl | inside) | rfl
    · exact own _ (List.mem_cons_of_mem _ List.mem_cons_self)
    · exact whole c inside
    · exact own _ (List.mem_cons_of_mem _ List.mem_cons_self)

theorem written_unbroken (line : Line) (fine : line.fine = true) (sound : line.Sound) : Unbroken line.written := by
  cases line with
  | fixed line =>
    simp only [Line.fine,Bool.not_eq_true'] at fine
    exact unbroken_any fine
  | filled before style value after =>
    simp only [Line.fine,Bool.and_eq_true,Bool.not_eq_true'] at fine
    obtain ⟨⟨⟨start,last⟩,_⟩,_⟩ := fine
    exact unbroken_append (unbroken_append (unbroken_any start) (inlined_unbroken style sound.1)) (unbroken_any last)
  | embedded line =>
    simp only [Line.written]
    split
    · exact fun c member => absurd member List.not_mem_nil
    · exact unbroken_append (unbroken_any (by decide)) sound

theorem print_lines (file : List Line) (each : ∀ line ∈ file, Unbroken line.written) :
    (print file).splitOnP isBreak = file.map Line.written ++ [[]] := by
  induction file with
  | nil => rfl
  | cons line rest ih =>
    have shape : print (line :: rest) = line.written ++ newline :: print rest := by
      simp [print]
    rw [shape,List.splitOnP_append_cons_of_forall_mem (each line List.mem_cons_self) newline (by decide) (print rest),
      ih fun l member => each l (List.mem_cons_of_mem _ member)]
    rfl

theorem mark_some : expressionMark ≠ [] := by decide

theorem written_occurrences (line : Line) (fine : line.fine = true) :
    occurrences expressionMark line.written = line.own + line.foreign := by
  cases line with
  | fixed line => rfl
  | filled before style value after =>
    simp only [Line.fine,Bool.and_eq_true,decide_eq_true_eq] at fine
    obtain ⟨⟨_,last⟩,first⟩ := fine
    have left : Apart expressionMark before (style.inlined value) := by
      refine .inl fun c here => ?_
      rw [last] at here
      cases here
      decide
    have right : Apart expressionMark (before ++ style.inlined value) after := by
      refine .inr fun c here => ?_
      rw [Option.mem_def.mp here] at first
      have slash : c = '/' := by simpa using first
      rw [slash]
      decide
    simp only [Line.written,Line.own,Line.foreign]
    rw [occurrences_append _ right,occurrences_append _ left]
    omega
  | embedded line =>
    have apart : Apart expressionMark indent line := apart_last (a := ' ') (by decide) (by decide)
    simp only [Line.written,Line.own,Line.foreign]
    split
    · rename_i empty
      rw [List.isEmpty_iff.mp empty]
      rfl
    · rw [occurrences_append _ apart]
      rfl

theorem print_occurrences (file : List Line) (fine : file.all Line.fine = true) :
    occurrences expressionMark (print file) = (file.map Line.own).sum + (file.map Line.foreign).sum := by
  induction file with
  | nil => rfl
  | cons line rest ih =>
    rw [List.all_cons,Bool.and_eq_true] at fine
    have shape : print (line :: rest) = (line.written ++ [newline]) ++ print rest := rfl
    have stop : newline ∉ expressionMark := by decide
    have inner : Apart expressionMark line.written [newline] := .inr fun c here => by cases here; exact stop
    have outer : Apart expressionMark (line.written ++ [newline]) (print rest) := by
      refine .inl fun c here => ?_
      rw [List.getLast?_append_cons] at here
      cases here
      exact stop
    rw [shape,occurrences_append _ outer,occurrences_append _ inner,ih fine.2,written_occurrences line fine.1]
    have blank : occurrences expressionMark [newline] = 0 := by decide
    simp only [List.map_cons,List.sum_cons]
    omega

theorem inert_exact (file : List Line) (fine : file.all Line.fine = true) (sound : ∀ line ∈ file, line.Sound) :
    Inert file ↔ ∀ line ∈ file, line.foreign = 0 := by
  have total := print_occurrences file fine
  have none_ : (file.map Line.foreign).sum = 0 ↔ ∀ line ∈ file, line.foreign = 0 := by
    rw [List.sum_eq_zero_iff_forall_eq_nat]
    simp only [List.mem_map,forall_exists_index,and_imp,forall_apply_eq_imp_iff₂]
  constructor
  · intro inert
    have own := inert.expressions
    exact none_.mp (by omega)
  · intro quiet
    have zero := none_.mpr quiet
    refine ⟨print_lines file fun line member => ?_,by omega,fun line member => ?_⟩
    · exact written_unbroken line (List.all_eq_true.mp fine line member) (sound line member)
    · have known := sound line member
      cases line with
      | fixed line => trivial
      | filled before style value after => exact known.2
      | embedded line => trivial

end VerifiableGit.Workflow
