import Mathlib.Algebra.Group.Int.Defs
import Mathlib.Algebra.GroupWithZero.Nat
import Mathlib.Data.List.Basic
import Mathlib.Data.List.TakeWhile
import Mathlib.Data.List.DropRight

-- Texts as the bytes they are stored as. Every operation the code applies to a
-- `&str` here looks at ASCII characters only, so it reads the same on the bytes
-- of a valid UTF-8 text as on its characters.
namespace VerifiableGit.Text

abbrev Bytes := List UInt8

instance lawfulBytes : LawfulBEq Bytes := inferInstance

def ascii (s : String) : Bytes := s.toList.map fun c => c.toNat.toUInt8

def newline : UInt8 := 10
def space : UInt8 := 32

def isUtf8 (text : Bytes) : Bool := text.toByteArray.validateUTF8

-- `str::split('\n')`: always at least one piece.
def lines (text : Bytes) : List Bytes := text.splitOn newline

def joinLines (ls : List Bytes) : Bytes := [newline].intercalate ls

def stripPrefix (start text : Bytes) : Option Bytes :=
  if start.isPrefixOf text then some (text.drop start.length) else none

-- `str::split_once("\n\n")`.
def splitBlank : Bytes → Option (Bytes × Bytes)
  | [] => none
  | b :: rest =>
    if b = newline ∧ rest.head? = some newline then some ([],rest.tail)
    else (splitBlank rest).map fun (before,after) => (b :: before,after)

-- A line of a text: whatever stands between two newlines.
def Line (l : Bytes) : Prop := newline ∉ l

instance : Decidable (Line l) := inferInstanceAs (Decidable (¬ _))

@[simp] theorem joinLines_singleton (l : Bytes) : joinLines [l] = l := by simp [joinLines]

theorem joinLines_cons (l : Bytes) (more : ls ≠ []) :
    joinLines (l :: ls) = l ++ newline :: joinLines ls := by
  simp [joinLines,List.intercalate_cons_of_ne_nil more]

theorem joinLines_append (left : List Bytes) (right : List Bytes) (l : left ≠ []) (r : right ≠ []) :
    joinLines (left ++ right) = joinLines left ++ newline :: joinLines right := by
  induction left with
  | nil => exact absurd rfl l
  | cons head tail ih =>
    cases tail with
    | nil => rw [List.singleton_append,joinLines_cons head r,joinLines_singleton]
    | cons next tail =>
      rw [List.cons_append,joinLines_cons head (by simp),ih (by simp),
        joinLines_cons head (List.cons_ne_nil _ _)]
      simp

theorem lines_ne_nil (text : Bytes) : lines text ≠ [] := List.splitOn_ne_nil _ _

theorem joinLines_lines (text : Bytes) : joinLines (lines text) = text :=
  List.intercalate_splitOn newline

theorem lines_joinLines (all : ∀ l ∈ ls, Line l) (some : ls ≠ []) : lines (joinLines ls) = ls :=
  List.splitOn_intercalate newline all some

-- No piece holds what the text was split at.
theorem split_free [DecidableEq α] (mark : α) (s : List α) : ∀ piece ∈ s.splitOn mark, mark ∉ piece := by
  induction s with
  | nil => simp
  | cons b rest ih =>
    intro piece member
    rw [List.splitOn_cons_eq_if_modifyHead] at member
    split at member
    · rcases List.mem_cons.mp member with rfl | later
      · exact List.not_mem_nil
      · exact ih piece later
    · rename_i other
      cases split : rest.splitOn mark with
      | nil => exact absurd split (List.splitOn_ne_nil _ _)
      | cons first more =>
        rw [split,List.modifyHead_cons] at member
        rcases List.mem_cons.mp member with rfl | later
        · have free := ih first (by rw [split]; simp)
          simp only [List.mem_cons,not_or]
          exact ⟨fun same => other (by simp [same]),free⟩
        · exact ih piece (by rw [split]; exact List.mem_cons_of_mem _ later)

theorem lines_are_lines (text : Bytes) : ∀ l ∈ lines text, Line l := split_free newline text

theorem lines_cons (b : UInt8) (rest : Bytes) : lines (b :: rest) =
    if b = newline then [] :: lines rest else (lines rest).modifyHead (b :: ·) := by
  simp [lines,List.splitOn_cons_eq_if_modifyHead]

theorem splitBlank_sound (cut : splitBlank text = some (before,after)) :
    text = before ++ newline :: newline :: after := by
  induction text generalizing before with
  | nil => simp [splitBlank] at cut
  | cons b rest ih =>
    unfold splitBlank at cut
    split at cut
    · rename_i blank
      cases Option.some.inj cut
      cases rest with
      | nil => simp at blank
      | cons next rest => simp at blank; simp [blank]
    · obtain ⟨⟨before',after'⟩,found,same⟩ := Option.map_eq_some_iff.mp cut
      cases same
      rw [ih found,List.cons_append]

-- What stands before the first blank line has no blank line of its own, past
-- its first line.
theorem splitBlank_tail (cut : splitBlank text = some (before,after)) :
    ∀ l ∈ (lines before).tail, l ≠ [] := by
  induction text generalizing before with
  | nil => simp [splitBlank] at cut
  | cons b rest ih =>
    unfold splitBlank at cut
    split at cut
    · cases Option.some.inj cut
      simp [lines]
    · rename_i single
      obtain ⟨⟨before',after'⟩,found,same⟩ := Option.map_eq_some_iff.mp cut
      cases same
      have shape := splitBlank_sound found
      rw [lines_cons]
      split
      · rename_i ended
        intro l member
        cases before' with
        | nil => exact absurd ⟨ended,by rw [shape]; rfl⟩ single
        | cons head before' =>
          have inner : head ≠ newline := by
            intro same
            exact single ⟨ended,by rw [shape,same]; rfl⟩
          rw [List.tail_cons,lines_cons,if_neg inner] at member
          have later := ih found
          rw [lines_cons,if_neg inner] at later
          cases split : lines before' with
          | nil => exact absurd split (lines_ne_nil before')
          | cons first more =>
            rw [split,List.modifyHead_cons] at member later
            rcases List.mem_cons.mp member with rfl | inside
            · exact List.cons_ne_nil _ _
            · exact later l inside
      · have later := ih found
        cases split : lines before' with
        | nil => exact absurd split (lines_ne_nil before')
        | cons first more => rw [split] at later; simpa using later

theorem splitBlank_lines (cut : splitBlank text = some (before,after))
    (start : text.head? ≠ some newline) : ∀ l ∈ lines before, l ≠ [] := by
  have shape := splitBlank_sound cut
  have tail := splitBlank_tail cut
  cases before with
  | nil => rw [shape] at start; simp at start
  | cons b before =>
    have inner : b ≠ newline := by rw [shape] at start; simpa using start
    rw [lines_cons,if_neg inner] at tail ⊢
    cases split : lines before with
    | nil => exact absurd split (lines_ne_nil before)
    | cons first more =>
      rw [split,List.modifyHead_cons,List.tail_cons] at tail
      rw [List.modifyHead_cons]
      intro l member
      rcases List.mem_cons.mp member with rfl | later
      · exact List.cons_ne_nil _ _
      · exact tail l later

theorem splitBlank_cons (other : ¬ (b = newline ∧ rest.head? = some newline))
    (found : splitBlank rest = some (before,after)) :
    splitBlank (b :: rest) = some (b :: before,after) := by
  rw [splitBlank,if_neg other,found]; rfl

theorem splitBlank_line (line : Line l) (after : Bytes) :
    splitBlank (l ++ newline :: newline :: after) = some (l,after) := by
  induction l with
  | nil => simp [splitBlank]
  | cons b l ih =>
    simp only [Line,List.mem_cons,not_or] at line
    exact splitBlank_cons (fun blank => line.1 blank.1.symm) (ih line.2)

theorem splitBlank_prepend (line : Line l) (start : rest.head? ≠ some newline)
    (found : splitBlank rest = some (before,after)) :
    splitBlank (l ++ newline :: rest) = some (l ++ newline :: before,after) := by
  induction l with
  | nil => exact splitBlank_cons (fun blank => start blank.2) found
  | cons b l ih =>
    simp only [Line,List.mem_cons,not_or] at line
    exact splitBlank_cons (fun blank => line.1 blank.1.symm) (ih line.2)

theorem joinLines_head (full : ∀ l ∈ ls, l ≠ []) (all : ∀ l ∈ ls, Line l) (more : ls ≠ [])
    (after : Bytes) : (joinLines ls ++ after).head? ≠ some newline := by
  cases ls with
  | nil => exact absurd rfl more
  | cons l ls =>
    cases l with
    | nil => exact absurd rfl (full [] (by simp))
    | cons b l =>
      have line := all (b :: l) (by simp)
      simp only [Line,List.mem_cons,not_or] at line
      have inner : b ≠ newline := fun same => line.1 same.symm
      cases ls with
      | nil => simpa using inner
      | cons next ls => rw [joinLines_cons _ (by simp)]; simpa using inner

theorem splitBlank_joinLines (full : ∀ l ∈ ls, l ≠ []) (all : ∀ l ∈ ls, Line l) (more : ls ≠ [])
    (after : Bytes) :
    splitBlank (joinLines ls ++ newline :: newline :: after) = some (joinLines ls,after) := by
  induction ls with
  | nil => exact absurd rfl more
  | cons l ls ih =>
    have line : Line l := all l (by simp)
    cases ls with
    | nil => simpa using splitBlank_line line after
    | cons next ls =>
      have full' : ∀ l ∈ next :: ls, l ≠ [] := fun l member => full l (List.mem_cons_of_mem _ member)
      have all' : ∀ l ∈ next :: ls, Line l := fun l member => all l (List.mem_cons_of_mem _ member)
      rw [joinLines_cons l (by simp),List.append_assoc,List.cons_append]
      exact splitBlank_prepend line (joinLines_head full' all' (by simp) _) (ih full' all' (by simp))

theorem prefix_newline {start line : Bytes} (free : newline ∉ start) :
    start.isPrefixOf (line ++ [newline]) = start.isPrefixOf line := by
  induction start generalizing line with
  | nil => simp
  | cons b start ih =>
    simp only [List.mem_cons,not_or] at free
    cases line with
    | nil => simpa [List.isPrefixOf] using fun same : b = newline => absurd same.symm free.1
    | cons c line => simp only [List.cons_append,List.isPrefixOf,ih free.2]

theorem stripPrefix_newline (free : newline ∉ start) :
    stripPrefix start (line ++ [newline]) = (stripPrefix start line).map (· ++ [newline]) := by
  unfold stripPrefix
  rw [prefix_newline free]
  split
  · rename_i found
    have fits : start.length ≤ line.length := (List.isPrefixOf_iff_prefix.mp found).length_le
    simp [List.drop_append_of_le_length fits]
  · rfl

theorem stripPrefix_append (start text : Bytes) : stripPrefix start (start ++ text) = some text := by
  simp [stripPrefix]

theorem stripPrefix_some {start text rest : Bytes} : stripPrefix start text = some rest ↔ text = start ++ rest := by
  constructor
  · intro found
    unfold stripPrefix at found
    split at found
    · rename_i starts
      cases found
      exact (List.prefix_iff_eq_append.mp (List.isPrefixOf_iff_prefix.mp starts)).symm
    · cases found
  · rintro rfl
    exact stripPrefix_append start rest

-- Pieces that keep their newline, as a scanner that steps with `memchr` reads
-- them; the last one may lack it.
def pieces : Bytes → List Bytes
  | [] => []
  | b :: rest =>
    if b = newline then [newline] :: pieces rest
    else match pieces rest with
      | [] => [[b]]
      | piece :: more => (b :: piece) :: more

theorem pieces_flatten (text : Bytes) : (pieces text).flatten = text := by
  induction text with
  | nil => rfl
  | cons b rest ih =>
    unfold pieces
    split
    · rename_i same; simp [ih,same]
    · split
      · rename_i none; rw [none] at ih; simp [← ih]
      · rename_i piece more cut; rw [cut] at ih; simpa using ih

theorem pieces_line (line : Line l) (rest : Bytes) :
    pieces (l ++ newline :: rest) = (l ++ [newline]) :: pieces rest := by
  induction l with
  | nil => simp [pieces]
  | cons b l ih =>
    simp only [Line,List.mem_cons,not_or] at line
    rw [List.cons_append,pieces,if_neg (fun same => line.1 same.symm),ih line.2]
    simp

theorem pieces_joinLines (all : ∀ l ∈ ls, Line l) (more : ls ≠ []) (rest : Bytes) :
    pieces (joinLines ls ++ newline :: rest) = ls.map (· ++ [newline]) ++ pieces rest := by
  induction ls with
  | nil => exact absurd rfl more
  | cons l ls ih =>
    have line : Line l := all l (by simp)
    cases ls with
    | nil => simpa using pieces_line line rest
    | cons next ls =>
      have tail := ih (fun l member => all l (List.mem_cons_of_mem _ member)) (by simp)
      rw [joinLines_cons l (by simp),List.append_assoc,List.cons_append,pieces_line line,tail]
      simp

section
variable (blank : UInt8 → Bool)

def trimStart (text : Bytes) : Bytes := text.dropWhile blank
def trimEnd (text : Bytes) : Bytes := text.rdropWhile blank
def trim (text : Bytes) : Bytes := trimEnd blank (trimStart blank text)

end

theorem trimEnd_append {blank : UInt8 → Bool} (all : ∀ b ∈ run, blank b = true) (text : Bytes) :
    trimEnd blank (text ++ run) = trimEnd blank text := by
  simp only [trimEnd,List.rdropWhile,List.reverse_append]
  rw [List.dropWhile_append_of_pos (by simpa using all)]

theorem trim_append {blank : UInt8 → Bool} (all : ∀ b ∈ run, blank b = true) (text : Bytes) :
    trim blank (text ++ run) = trim blank text := by
  rw [trim,trim,trimStart,trimStart,List.dropWhile_append]
  split
  · rename_i empty
    have rest : ∀ b ∈ run.dropWhile blank, blank b = true :=
      fun b member => all b ((List.dropWhile_suffix blank).subset member)
    rw [List.isEmpty_iff.mp empty]
    exact trimEnd_append rest []
  · exact trimEnd_append all _

theorem trim_empty {blank : UInt8 → Bool} : trim blank text = [] ↔ ∀ b ∈ text, blank b = true := by
  rw [trim,trimEnd,List.rdropWhile_eq_nil_iff,trimStart]
  constructor
  · intro empty
    cases rest : text.dropWhile blank with
    | nil => exact List.dropWhile_eq_nil_iff.mp rest
    | cons b after =>
      have head := List.head?_dropWhile_not blank text
      rw [rest] at head empty
      exact absurd (empty b (by simp)) (by simpa using head)
  · intro all b member
    exact all b ((List.dropWhile_suffix blank).subset member)

-- A newline stands for itself in UTF-8, so a text is one exactly when the parts
-- on both sides of it are.
theorem newline_first {c : Char} {before after : Bytes}
    (inside : String.utf8EncodeChar c = before ++ newline :: after) : before = [] := by
  have short : before.length < (String.utf8EncodeChar c).length := by simp [inside]
  have byte : (String.utf8EncodeChar c)[before.length] = newline := by simp [inside]
  have first : (String.utf8EncodeChar c)[before.length].IsUTF8FirstByte := by
    rw [byte]
    exact .inl (by decide)
  exact List.length_eq_zero_iff.mp (UInt8.isUTF8FirstByte_getElem_utf8EncodeChar.mp first)

theorem utf8_bytes : isUtf8 text = true ↔ ∃ chars : List Char, text = chars.flatMap String.utf8EncodeChar := by
  rw [isUtf8,ByteArray.validateUTF8_eq_true_iff]
  constructor
  · intro valid
    obtain ⟨chars,same⟩ := valid
    exact ⟨chars,by simpa [List.utf8Encode] using congrArg (fun b => b.data.toList) same⟩
  · intro some_
    obtain ⟨chars,same⟩ := some_
    exact ⟨chars,by rw [same]; rfl⟩

theorem utf8_append (left : isUtf8 a = true) (right : isUtf8 b = true) : isUtf8 (a ++ b) = true := by
  obtain ⟨xs,first⟩ := utf8_bytes.mp left
  obtain ⟨ys,second⟩ := utf8_bytes.mp right
  exact utf8_bytes.mpr ⟨xs ++ ys,by rw [first,second,List.flatMap_append]⟩

theorem utf8_feed (valid : isUtf8 (newline :: b) = true) : isUtf8 b = true := by
  have split : (newline :: b).toByteArray = ['\n'].utf8Encode ++ b.toByteArray := by
    rw [← List.singleton_append,List.toByteArray_append]
    rfl
  rw [isUtf8,ByteArray.validateUTF8_eq_true_iff,split] at valid
  rw [isUtf8,ByteArray.validateUTF8_eq_true_iff]
  exact ByteArray.isValidUTF8_utf8Encode_singleton_append_iff.mp valid

theorem utf8_newline : isUtf8 (a ++ newline :: b) = true ↔ isUtf8 a = true ∧ isUtf8 b = true := by
  constructor
  · intro valid
    obtain ⟨chars,same⟩ := utf8_bytes.mp valid
    induction chars generalizing a with
    | nil => exact absurd same (by simp)
    | cons c chars ih =>
      rw [List.flatMap_cons] at same
      have one : isUtf8 (String.utf8EncodeChar c) = true := utf8_bytes.mpr ⟨[c],by simp⟩
      rcases List.append_eq_append_iff.mp same with ⟨inner,left,right⟩ | ⟨inner,left,right⟩
      · cases inner with
        | nil =>
          have after : isUtf8 (newline :: b) = true := utf8_bytes.mpr ⟨chars,by simpa using right⟩
          rw [List.append_nil] at left
          exact ⟨left ▸ one,utf8_feed after⟩
        | cons first more =>
          -- Inside a character no newline has anything before it.
          obtain ⟨here,_⟩ := List.cons.inj right
          have empty : a = [] := newline_first (left.trans (by rw [← here]))
          subst empty
          exact ⟨utf8_bytes.mpr ⟨[],rfl⟩,utf8_feed valid⟩
      · have rest : isUtf8 (inner ++ newline :: b) = true := utf8_bytes.mpr ⟨chars,right.symm⟩
        obtain ⟨before,after⟩ := ih rest right.symm
        exact ⟨left ▸ utf8_append one before,after⟩
  · intro both
    have feed : isUtf8 [newline] = true := utf8_bytes.mpr ⟨['\n'],by decide⟩
    exact utf8_append both.1 (utf8_append feed both.2)

theorem utf8_joinLines (ls : List Bytes) : isUtf8 (joinLines ls) = true ↔ ∀ l ∈ ls, isUtf8 l = true := by
  induction ls with
  | nil => exact iff_of_true (utf8_bytes.mpr ⟨[],rfl⟩) (List.forall_mem_nil _)
  | cons l ls ih =>
    cases ls with
    | nil => simp
    | cons next ls =>
      rw [joinLines_cons l (by simp),utf8_newline,ih]
      exact (List.forall_mem_cons (p := fun l => isUtf8 l = true)).symm

-- A number in decimal.
theorem ascii_digits (n : Nat) : ascii (toString n) = (Nat.toDigits 10 n).map fun c => c.toNat.toUInt8 := by
  show ascii (Nat.repr n) = _
  rw [ascii,Nat.toList_repr]

theorem digit_byte (n : Nat) (c : Char) (h : c ∈ Nat.toDigits 10 n) : 48 ≤ c.toNat ∧ c.toNat ≤ 57 := by
  have digit := Nat.isDigit_of_mem_toDigits (by decide) (by decide) h
  simp only [Char.isDigit,Bool.and_eq_true,decide_eq_true_eq,ge_iff_le,UInt32.le_iff_toNat_le] at digit
  exact digit

theorem digits_back (n : Nat) :
    ((ascii (toString n)).map fun b => Char.ofNat b.toNat) = Nat.toDigits 10 n := by
  rw [ascii_digits,List.map_map]
  refine (List.map_congr_left fun c member => ?_).trans (List.map_id _)
  have bounds := digit_byte n c member
  have small : c.toNat % 256 = c.toNat := Nat.mod_eq_of_lt (by omega)
  simp only [Function.comp,Nat.toUInt8_eq,UInt8.toNat_ofNat',small,Char.ofNat_toNat,id]

theorem digits_injective (m n : Nat) (h : ascii (toString m) = ascii (toString n)) : m = n := by
  have same : Nat.toDigits 10 m = Nat.toDigits 10 n := by
    rw [← digits_back m,← digits_back n,h]
  have back := congrArg (fun digits => Nat.ofDigitChars 10 digits 0) same
  simpa only [Nat.ofDigitChars_ten_toDigits] using back

end VerifiableGit.Text
