import Mathlib.Data.List.Forall2
import VerifiableGit.Commit.GitTrailer

-- The two trailer readers on one message: with the same white space, and no
-- more than comment and blank lines cut off, they read the same block and the
-- same value.
namespace VerifiableGit.Commit
open Text

-- The piece of a line: the line with its newline, or the last line without.
def Reads (piece line : Bytes) : Prop :=
  Line line ∧ (piece = line ++ [newline] ∨ piece = line ∧ line ≠ [])

inductive Pieces : List Bytes → List Bytes → Prop where
  | nil : Pieces [] []
  | last : Line l → l ≠ [] → Pieces [l] [l]
  | more : Line l → Pieces ps ls → Pieces ((l ++ [newline]) :: ps) (l :: ls)

theorem pieces_reads (read : Pieces ps ls) : List.Forall₂ Reads ps ls := by
  induction read with
  | nil => exact .nil
  | last line more => exact .cons ⟨line,.inr ⟨rfl,more⟩⟩ .nil
  | more line rest ih => exact .cons ⟨line,.inl rfl⟩ ih

theorem pieces_drop (read : Pieces ps ls) (n : Nat) : Pieces (ps.drop n) (ls.drop n) := by
  induction read generalizing n with
  | nil => simpa using Pieces.nil
  | last line more =>
    cases n with
    | zero => exact .last line more
    | succ n => simpa using Pieces.nil
  | more line rest ih =>
    cases n with
    | zero => exact .more line rest
    | succ n => exact ih n

theorem pieces_take (read : Pieces ps ls) (n : Nat) : Pieces (ps.take n) (ls.take n) := by
  induction read generalizing n with
  | nil => simpa using Pieces.nil
  | last line more =>
    cases n with
    | zero => exact .nil
    | succ n => simpa using Pieces.last line more
  | more line rest ih =>
    cases n with
    | zero => exact .nil
    | succ n => exact .more line (ih n)

theorem messageLines_newline (rest : Bytes) : messageLines (newline :: rest) = [] :: messageLines rest := by
  rw [messageLines,messageLines,lines_cons,if_pos rfl]
  cases split : lines rest with
  | nil => exact absurd split (lines_ne_nil rest)
  | cons first more =>
    simp only [List.getLast?_cons_cons]
    split <;> rfl

theorem messageLines_cons (other : b ≠ newline) : messageLines (b :: rest) =
    match messageLines rest with
    | [] => [[b]]
    | first :: more => (b :: first) :: more := by
  rw [messageLines,messageLines,lines_cons,if_neg other]
  cases split : lines rest with
  | nil => exact absurd split (lines_ne_nil rest)
  | cons first more =>
    cases more with
    | nil => cases first <;> simp
    | cons next more =>
      simp only [List.modifyHead_cons,List.getLast?_cons_cons]
      split <;> simp [List.dropLast]

theorem pieces_messageLines (text : Bytes) : Pieces (pieces text) (messageLines text) := by
  induction text with
  | nil => exact .nil
  | cons b rest ih =>
    unfold pieces
    split
    · rename_i same
      rw [same,messageLines_newline]
      exact .more (l := []) (by simp [Line]) ih
    · rename_i other
      have inner : newline ≠ b := fun same => other same.symm
      rw [messageLines_cons other]
      generalize pieces rest = ps at ih ⊢
      generalize messageLines rest = ls at ih ⊢
      cases ih with
      | nil => exact .last (by simpa [Line] using inner) (by simp)
      | last line more => exact .last (by simpa [Line,inner] using line) (by simp)
      | more line rest => exact .more (l := b :: _) (by simpa [Line,inner] using line) rest

theorem isBlank_exact : isBlank ws line = line.all ws := by
  rw [Bool.eq_iff_iff,isBlank,List.isEmpty_iff,trim_empty,List.all_eq_true]

theorem reads_head (read : Reads piece line) :
    piece.head? = line.head? ∨ piece = [newline] ∧ line = [] := by
  obtain ⟨_,rfl | ⟨rfl,_⟩⟩ := read
  · cases line with
    | nil => exact .inr ⟨rfl,rfl⟩
    | cons b line => exact .inl rfl
  · exact .inl rfl

theorem reads_comment (read : Reads piece line) : isComment piece = isComment line := by
  rcases reads_head read with same | ⟨rfl,rfl⟩
  · rw [isComment,isComment,same]
  · rfl

theorem reads_generated (read : Reads piece line) : isGenerated piece = isGenerated line := by
  obtain ⟨_,rfl | ⟨rfl,_⟩⟩ := read
  · have free : ∀ start ∈ gitGeneratedPrefixes, newline ∉ start := by decide
    rw [isGenerated,isGenerated,Bool.eq_iff_iff,List.any_eq_true,List.any_eq_true]
    constructor
    · rintro ⟨start,member,found⟩
      exact ⟨start,member,by rwa [prefix_newline (free start member)] at found⟩
    · rintro ⟨start,member,found⟩
      exact ⟨start,member,by rwa [prefix_newline (free start member)]⟩
  · rfl

theorem blank_pieces (line : Line l) (ended : after = [] ∨ after = [newline]) :
    Git.isBlankLine (l ++ after) = l.all Git.isSpace := by
  induction l with
  | nil => rcases ended with rfl | rfl <;> rfl
  | cons b l ih =>
    simp only [Line,List.mem_cons,not_or] at line
    have other : b ≠ newline := fun same => line.1 same.symm
    have rest := ih line.2
    unfold Git.isBlankLine at rest ⊢
    rw [List.cons_append,List.all_cons]
    cases blank : Git.isSpace b with
    | true => rw [List.dropWhile_cons_of_pos (by simp [other,blank]),rest]; rfl
    | false => rw [List.dropWhile_cons_of_neg (by simp [blank])]; simp [other]

theorem reads_blank (read : Reads piece line) : Git.isBlankLine piece = isBlank Git.isSpace line := by
  obtain ⟨line,rfl | ⟨rfl,_⟩⟩ := read
  · rw [blank_pieces line (.inr rfl),isBlank_exact]
  · simpa [isBlank_exact] using blank_pieces line (.inl rfl)

theorem reads_space (read : Reads piece line) (full : isBlank Git.isSpace line = false) :
    piece.head?.any Git.isSpace = startsWithSpace Git.isSpace line := by
  rcases reads_head read with same | ⟨rfl,rfl⟩
  · rw [startsWithSpace,same]
  · cases full

theorem separator_pieces (l : Bytes) (offset : Nat) (found : Bool)
    (ended : after = [] ∨ after = [newline]) :
    (Git.findSeparatorFrom offset found (l ++ after)).filter (fun position => position ≥ 1) =
      separatorFrom offset found l := by
  induction l generalizing offset found with
  | nil =>
    rcases ended with rfl | rfl
    · rfl
    · simp [Git.findSeparatorFrom,separatorFrom,newline,colon,isAsciiAlphanumeric]
  | cons c l ih =>
    rw [List.cons_append,Git.findSeparatorFrom,separatorFrom]
    split
    · rw [Option.filter_some]; simp
    · split
      · exact ih _ _
      · split
        · exact ih _ _
        · rfl

theorem reads_separator (read : Reads piece line) : Git.findSeparator piece = separatorPos line := by
  obtain ⟨_,rfl | ⟨rfl,_⟩⟩ := read
  · exact separator_pieces line 0 false (.inr rfl)
  · have same := separator_pieces piece 0 false (.inl rfl)
    rwa [List.append_nil] at same

theorem separator_first (b : UInt8) (blank : Git.isSpace b = true) (line : Bytes) :
    separatorPos (b :: line) = none := by
  simp only [Git.isSpace,Bool.or_eq_true,decide_eq_true_eq] at blank
  rcases blank with ((rfl | rfl) | rfl) | rfl <;> rfl

theorem separator_unspaced (found : (separatorPos line).isSome = true) :
    startsWithSpace Git.isSpace line = false := by
  cases line with
  | nil => rfl
  | cons b line =>
    by_contra spaced
    have blank : Git.isSpace b = true := by simpa [startsWithSpace] using spaced
    rw [separator_first b blank] at found
    cases found

theorem scans_same (read : List.Forall₂ Reads ps ls) (endOfTitle len : Nat) (scan : BlockScan) :
    Git.blockStart endOfTitle len scan ps =
      (scanBlock Git.isSpace endOfTitle scan ls).getD len := by
  induction read generalizing scan with
  | nil => rfl
  | @cons piece line ps ls first rest ih =>
    rw [Git.blockStart,scanBlock,reads_comment first,reads_blank first,reads_generated first,
      reads_separator first,rest.length_eq]
    split
    · exact ih _
    · split
      · simp only [Nat.pos_iff_ne_zero]
        split
        · exact ih _
        · split
          · rfl
          · split <;> rfl
      · rename_i full
        rw [Bool.not_eq_true] at full
        rw [reads_space first full]
        split
        · exact ih _
        · by_cases found : (separatorPos line).isSome = true
          · rw [if_pos (by simp [found,separator_unspaced found]),if_pos found]
            exact ih _
          · rw [if_neg (by simp [found]),if_neg found]
            split
            · exact ih _
            · exact ih _

theorem title_exact (ends : Bytes → Bool) (ls : List Bytes) :
    (ls.takeWhile fun line => !ends line).length = (ls.findIdx? ends).getD ls.length := by
  induction ls with
  | nil => rfl
  | cons l ls ih =>
    rw [List.findIdx?_cons]
    cases found : ends l with
    | true => simp [found]
    | false =>
      simp only [List.takeWhile_cons,found,Bool.not_false,if_true,List.length_cons,ih]
      cases ls.findIdx? ends <;> simp

theorem takeWhile_reads (read : List.Forall₂ Reads ps ls) {left right : Bytes → Bool}
    (same : ∀ piece line, Reads piece line → left piece = right line) :
    (ps.takeWhile left).length = (ls.takeWhile right).length := by
  induction read with
  | nil => rfl
  | @cons piece line ps ls first rest ih =>
    rw [List.takeWhile_cons,List.takeWhile_cons,same piece line first]
    split
    · simp [ih]
    · rfl

theorem block_start_same (read : Pieces ps ls) :
    Git.findTrailerBlockStart ps = (trailerBlockStart Git.isSpace ls).getD ps.length := by
  have reads := pieces_reads read
  have title : (ps.takeWhile fun piece => isComment piece || !Git.isBlankLine piece).length =
      (ls.findIdx? fun line => !isComment line && isBlank Git.isSpace line).getD ls.length := by
    rw [← title_exact]
    apply takeWhile_reads reads
    intro piece line first
    rw [reads_comment first,reads_blank first,Bool.not_and,Bool.not_not]
  rw [Git.findTrailerBlockStart,title,trailerBlockStart]
  cases ls.findIdx? fun line => !isComment line && isBlank Git.isSpace line with
  | none => simp [← reads.length_eq,Git.blockStart]
  | some endOfTitle =>
    have rest := pieces_reads (pieces_drop read endOfTitle)
    exact scans_same (List.rel_reverse rest) endOfTitle _ _

-- Comment and blank lines: what git's cut may leave out without a difference.
def Idle (ws : UInt8 → Bool) (ls : List Bytes) : Prop :=
  ∀ line ∈ ls, isComment line = true ∨ isBlank ws line = true

theorem scan_idle (idle : Idle ws tail) (endOfTitle : Nat) (ls : List Bytes) :
    scanBlock ws endOfTitle .initial (tail ++ ls) = scanBlock ws endOfTitle .initial ls := by
  induction tail with
  | nil => rfl
  | cons line tail ih =>
    have rest := ih fun l member => idle l (List.mem_cons_of_mem _ member)
    rw [List.cons_append,scanBlock]
    split
    · exact rest
    · rename_i other
      rw [if_pos ((idle line (by simp)).resolve_left other)]
      exact rest

theorem scan_idle_none (idle : Idle ws tail) (endOfTitle : Nat) :
    scanBlock ws endOfTitle .initial tail.reverse = none := by
  have turned : Idle ws tail.reverse := fun l member => idle l (List.mem_reverse.mp member)
  have rest := scan_idle turned endOfTitle []
  rwa [List.append_nil] at rest

theorem block_start_idle (idle : Idle ws tail) (ls : List Bytes) :
    trailerBlockStart ws (ls ++ tail) = trailerBlockStart ws ls := by
  unfold trailerBlockStart
  rw [List.findIdx?_append]
  cases found : ls.findIdx? fun line => !isComment line && isBlank ws line with
  | some endOfTitle =>
    have inside : endOfTitle ≤ ls.length := (List.findIdx?_eq_some_iff_getElem.mp found).1.le
    simp only [Option.some_or]
    rw [List.drop_append_of_le_length inside,List.reverse_append,scan_idle]
    exact fun l member => idle l (List.mem_reverse.mp member)
  | none =>
    rw [Option.none_or]
    cases later : tail.findIdx? fun line => !isComment line && isBlank ws line with
    | none => rfl
    | some offset =>
      have cut : (ls ++ tail).drop (offset + ls.length) = tail.drop offset := by
        rw [List.drop_append]; simp
      simp only [Option.map_some,cut]
      exact scan_idle_none (fun l member => idle l (List.mem_of_mem_drop member)) _

theorem comment_unblank (comment : isComment line = true) : isBlank Git.isSpace line = false := by
  cases line with
  | nil => cases comment
  | cons b line =>
    obtain rfl : b = commentPrefix := by simpa [isComment] using comment
    rw [isBlank_exact,List.all_cons]
    rfl

-- What the scan has passed when it settles on a block: the lines of the block,
-- none of them blank, and under them comment and blank lines only.
def Passed (endOfTitle : Nat) (onlySpaces : Bool) (ls : List Bytes) (start : Nat) : Prop :=
  ∃ idle block blank before, ls = idle ++ block ++ blank :: before ∧
    start = endOfTitle + before.length + 1 ∧ (∀ l ∈ block, isBlank Git.isSpace l = false) ∧
    Idle Git.isSpace idle ∧ (onlySpaces = false → idle = [])

theorem passed_block (passed : Passed endOfTitle false ls start)
    (full : isBlank Git.isSpace line = false) : Passed endOfTitle onlySpaces (line :: ls) start := by
  obtain ⟨idle,block,blank,before,rfl,same,clean,_,none⟩ := passed
  obtain rfl := none rfl
  exact ⟨[],line :: block,blank,before,rfl,same,List.forall_mem_cons.mpr ⟨full,clean⟩,by simp [Idle],
    fun _ => rfl⟩

theorem passed_idle (passed : Passed endOfTitle onlySpaces ls start)
    (idles : isComment line = true ∨ isBlank Git.isSpace line = true) :
    Passed endOfTitle true (line :: ls) start := by
  obtain ⟨idle,block,blank,before,rfl,same,clean,rest,_⟩ := passed
  exact ⟨line :: idle,block,blank,before,rfl,same,clean,List.forall_mem_cons.mpr ⟨idles,rest⟩,by simp⟩

theorem scan_passed (settled : scanBlock Git.isSpace endOfTitle scan ls = some start) :
    Passed endOfTitle scan.onlySpaces ls start := by
  induction ls generalizing scan with
  | nil => cases settled
  | cons line ls ih =>
    rw [scanBlock] at settled
    split at settled
    · rename_i comment
      have rest := ih settled
      cases begun : scan.onlySpaces with
      | true => exact passed_idle rest (.inl comment)
      | false => exact passed_block (by simpa [begun] using rest) (comment_unblank comment)
    · split at settled
      · rename_i blank
        split at settled
        · rename_i begun
          rw [begun]
          exact passed_idle (ih settled) (.inr blank)
        · have stop : start = endOfTitle + ls.length + 1 := by
            simp only at settled
            split at settled
            · exact (Option.some.inj settled).symm
            · split at settled
              · exact (Option.some.inj settled).symm
              · cases settled
          exact ⟨[],[],line,ls,rfl,stop,by simp,by simp [Idle],fun _ => rfl⟩
      · rename_i full
        rw [Bool.not_eq_true] at full
        split at settled
        · exact passed_block (ih settled) full
        · split at settled
          · exact passed_block (ih settled) full
          · split at settled
            · exact passed_block (ih settled) full
            · exact passed_block (ih settled) full

theorem block_shape (settled : trailerBlockStart Git.isSpace ls = some start) :
    start ≤ ls.length ∧ ∃ block idle, ls.drop start = block ++ idle ∧
      (∀ l ∈ block, isBlank Git.isSpace l = false) ∧ Idle Git.isSpace idle := by
  unfold trailerBlockStart at settled
  split at settled
  · cases settled
  · rename_i endOfTitle found
    obtain ⟨idle,block,blank,before,turned,rfl,clean,rest,_⟩ := scan_passed settled
    have shape : ls.drop endOfTitle =
        (before.reverse ++ [blank]) ++ (block.reverse ++ idle.reverse) := by
      rw [← List.reverse_reverse (ls.drop endOfTitle),turned]
      simp
    refine ⟨?_,block.reverse,idle.reverse,?_,?_,?_⟩
    · have long := congrArg List.length shape
      simp only [List.length_drop,List.length_append,List.length_reverse,List.length_singleton] at long
      omega
    · rw [Nat.add_assoc,← List.drop_drop,shape]
      exact List.drop_left' (by simp)
    · exact fun l member => clean l (List.mem_reverse.mp member)
    · exact fun l member => rest l (List.mem_reverse.mp member)

theorem separator_inside (found : Git.findSeparatorFrom offset spaced entry = some position)
    (more : Bytes) : Git.findSeparatorFrom offset spaced (entry ++ more) = some position ∧
      position < offset + entry.length := by
  induction entry generalizing offset spaced with
  | nil => cases found
  | cons c entry ih =>
    rw [Git.findSeparatorFrom] at found
    rw [List.cons_append,Git.findSeparatorFrom,List.length_cons]
    split at found
    · obtain rfl := Option.some.inj found
      rename_i same
      rw [if_pos same]
      exact ⟨rfl,by omega⟩
    · rename_i other
      rw [if_neg other]
      split at found
      · rename_i key
        rw [if_pos key]
        have rest := ih found
        exact ⟨rest.1,by omega⟩
      · rename_i outside
        rw [if_neg outside]
        split at found
        · rename_i gap
          rw [if_pos gap]
          have rest := ih found
          exact ⟨rest.1,by omega⟩
        · cases found

theorem separator_append (found : Git.findSeparator entry = some position) (more : Bytes) :
    Git.findSeparator (entry ++ more) = some position ∧ position < entry.length := by
  obtain ⟨inner,large⟩ := Option.filter_eq_some_iff.mp found
  have rest := separator_inside inner more
  exact ⟨Option.filter_eq_some_iff.mpr ⟨rest.1,large⟩,by simpa using rest.2⟩

theorem separator_uncommented (found : Git.findSeparator entry = some position) :
    isComment entry = false := by
  by_contra comment
  rw [Bool.not_eq_false] at comment
  cases entry with
  | nil => cases comment
  | cons b entry =>
    obtain rfl : b = commentPrefix := by simpa [isComment] using comment
    cases found

theorem trailerValue_unseparated (unseparated : Git.findSeparator entry = none) :
    Git.trailerValue key entry = none := by
  rw [Git.trailerValue,unseparated]
  split <;> rfl

-- A continuation extends the raw value of the entry and nothing else.
theorem trailerValue_append (key : Bytes) (found : Git.findSeparator entry = some position) (more : Bytes) :
    Git.trailerValue key (entry ++ more) =
      if eqIgnoreAsciiCase (trim Git.isSpace (entry.take position)) key then
        some (Git.unfoldValue (trim Git.isSpace (entry.drop (position + 1) ++ more)))
      else none := by
  obtain ⟨same,inside⟩ := separator_append found more
  rw [Git.trailerValue,separator_uncommented same,same]
  simp only [Bool.false_eq_true,if_false]
  rw [List.take_append_of_le_length inside.le,List.drop_append_of_le_length inside]

theorem trailerValue_found (found : Git.findSeparator entry = some position) :
    Git.trailerValue key entry =
      if eqIgnoreAsciiCase (trim Git.isSpace (entry.take position)) key then
        some (Git.unfoldValue (trim Git.isSpace (entry.drop (position + 1))))
      else none := by
  simpa using trailerValue_append key found []

-- The entries read one piece after the other: the value found so far and the
-- entry still open.
def gitRun (key : Bytes) (found last : Option Bytes) (ps : List Bytes) : Option Bytes :=
  ((Git.trailerStrings last ps).filterMap (Git.trailerValue key)).getLast?.or found

theorem gitRun_nil : gitRun key found last [] = (last.bind (Git.trailerValue key)).or found := by
  cases last with
  | none => rfl
  | some entry =>
    simp only [gitRun,Git.trailerStrings,Option.toList,Option.bind_some]
    cases value : Git.trailerValue key entry <;> simp [value]

theorem gitRun_continue (spaced : piece.head?.any Git.isSpace = true) :
    gitRun key found (some entry) (piece :: ps) = gitRun key found (some (entry ++ piece)) ps := by
  simp [gitRun,Git.trailerStrings,spaced]

theorem gitRun_emit (entry : Bytes) (entries : List Bytes) (found : Option Bytes) :
    (((entry :: entries).filterMap (Git.trailerValue key)).getLast?).or found =
      ((entries.filterMap (Git.trailerValue key)).getLast?).or ((Git.trailerValue key entry).or found) := by
  cases value : Git.trailerValue key entry with
  | none => simp [value]
  | some first =>
    rw [List.filterMap_cons_some value,List.getLast?_cons]
    cases (entries.filterMap (Git.trailerValue key)).getLast? <;> simp

theorem gitRun_open (fresh : last.isSome = true → piece.head?.any Git.isSpace = false) :
    gitRun key found last (piece :: ps) =
      gitRun key ((last.bind (Git.trailerValue key)).or found)
        (if (Git.findSeparator piece).isSome then some piece else none) ps := by
  have next : ∀ found, (((if (Git.findSeparator piece).isSome then Git.trailerStrings (some piece) ps
        else piece :: Git.trailerStrings none ps).filterMap (Git.trailerValue key)).getLast?).or found =
      gitRun key found (if (Git.findSeparator piece).isSome then some piece else none) ps := by
    intro found
    split
    · rfl
    · rename_i unseparated
      rw [gitRun_emit,trailerValue_unseparated (by simpa using unseparated),Option.none_or,gitRun]
  cases last with
  | none => simpa [gitRun,Git.trailerStrings] using next found
  | some entry =>
    have unspaced := fresh rfl
    rw [gitRun,Git.trailerStrings]
    simp only [unspaced,Bool.false_eq_true,if_false,Option.bind_some]
    rw [gitRun_emit,next]

theorem unfold_plain (c : UInt8) (rest : Bytes) : Git.unfoldFrom false (c :: rest) =
    if c = newline then space :: Git.unfoldFrom true rest else c :: Git.unfoldFrom false rest := by
  simp [Git.unfoldFrom]

theorem skip_exact (value : Bytes) :
    Git.unfoldFrom true value = Git.unfoldFrom false (trimStart Git.isSpace value) := by
  induction value with
  | nil => rfl
  | cons c rest ih =>
    rw [trimStart]
    cases blank : Git.isSpace c with
    | true => rw [List.dropWhile_cons_of_pos blank,Git.unfoldFrom,if_pos (by simp [blank]),ih,trimStart]
    | false =>
      rw [List.dropWhile_cons_of_neg (by simp [blank]),unfold_plain,Git.unfoldFrom,if_neg (by simp [blank])]

theorem unfold_same (value : Bytes) : unfold Git.isSpace value = Git.unfoldValue value := by
  rw [unfold,Git.unfoldValue]
  congr 1
  induction value using unfoldFrom.induct Git.isSpace with
  | case1 => simp [unfoldFrom,Git.unfoldFrom]
  | case2 rest ih => rw [unfoldFrom,unfold_plain,if_pos rfl,if_pos rfl,skip_exact,ih]
  | case3 b rest other ih => rw [unfoldFrom,unfold_plain,if_neg other,if_neg other,ih]

def finish (value : Bytes) : Bytes := Git.unfoldValue (trim Git.isSpace value)

-- The two readers at one point of the block. `ended` is what the last piece
-- read had behind its line.
inductive Follows (key ended : Bytes) :
    Option Bytes → Option Bool → Option Bytes → Option Bytes → Prop where
  | closed : value.map finish = found → Follows key ended value none found none
  | other {entry : Bytes} {position : Nat} : value.map finish = found → Git.findSeparator entry = some position →
      eqIgnoreAsciiCase (trim Git.isSpace (entry.take position)) key = false →
      Follows key ended value (some false) found (some entry)
  | named {entry value : Bytes} {position : Nat} : Git.findSeparator entry = some position →
      eqIgnoreAsciiCase (trim Git.isSpace (entry.take position)) key = true →
      entry.drop (position + 1) = value ++ ended →
      Follows key ended (some value) (some true) found (some entry)

def Ending (ended : Bytes) : Prop := ended = [] ∨ ended = [newline]

theorem newline_blank : ∀ b ∈ [newline], Git.isSpace b = true := by
  intro b member
  cases List.mem_singleton.mp member
  rfl

theorem ending_blank (ending : Ending ended) : ∀ b ∈ ended, Git.isSpace b = true := by
  rcases ending with rfl | rfl
  · exact fun _ member => nomatch member
  · exact newline_blank

theorem follows_end (follows : Follows key ended value opened found last) (ending : Ending ended) :
    (last.bind (Git.trailerValue key)).or found = value.map finish := by
  cases follows with
  | closed same => simp [same]
  | other same separated unnamed => simp [trailerValue_found separated,unnamed,same]
  | named separated named shape =>
    simp only [Option.bind_some,trailerValue_found separated,named,if_true,shape,Option.some_or,
      Option.map_some,finish]
    rw [trim_append (ending_blank ending)]

-- One line that is not blank, read by both.
theorem follows_step (follows : Follows key [newline] value opened found last)
    (read : Reads (l ++ ended) l) (full : isBlank Git.isSpace l = false) :
    ∃ value' opened' found' last', Follows key ended value' opened' found' last' ∧
      (∀ rest, collectTrailer Git.isSpace key value opened (l :: rest) =
        collectTrailer Git.isSpace key value' opened' rest) ∧
      ∀ rest, gitRun key found last ((l ++ ended) :: rest) = gitRun key found' last' rest := by
  have space := reads_space read full
  have separator := reads_separator read
  by_cases continued : opened.isSome = true ∧ startsWithSpace Git.isSpace l = true
  · obtain ⟨isOpen,spaced⟩ := continued
    rw [spaced] at space
    cases follows with
    | closed same => cases isOpen
    | @other _ _ entry position same separated unnamed =>
      have kept := separator_append separated (l ++ ended)
      refine ⟨value,some false,found,some (entry ++ (l ++ ended)),.other same kept.1 ?_,?_,?_⟩
      · rwa [List.take_append_of_le_length kept.2.le]
      · intro rest; simp [collectTrailer,spaced]
      · intro rest; exact gitRun_continue space
    | @named _ entry value position separated named shape =>
      have kept := separator_append separated (l ++ ended)
      refine ⟨some (value ++ newline :: l),some true,found,some (entry ++ (l ++ ended)),
        .named kept.1 ?_ ?_,?_,?_⟩
      · rwa [List.take_append_of_le_length kept.2.le]
      · rw [List.drop_append_of_le_length kept.2,shape]; simp
      · intro rest; simp [collectTrailer,spaced]
      · intro rest; exact gitRun_continue space
  · have fresh : last.isSome = true → (l ++ ended).head?.any Git.isSpace = false := by
      intro isOpen
      have opens : opened.isSome = true := by cases follows <;> simp_all
      rw [space,← Bool.not_eq_true]
      exact fun spaced => continued ⟨opens,spaced⟩
    have settled := follows_end follows (.inr rfl)
    have collects : ∀ rest, collectTrailer Git.isSpace key value opened (l :: rest) =
        collectTrailer Git.isSpace key value none (l :: rest) := by
      intro rest
      rw [collectTrailer,collectTrailer,if_neg (by simpa using continued)]
      rfl
    cases at_ : separatorPos l with
    | none =>
      refine ⟨value,none,_,none,.closed settled.symm,?_,?_⟩
      · intro rest; rw [collects,collectTrailer,at_]; rfl
      · intro rest; rw [gitRun_open fresh,separator,at_]; rfl
    | some position =>
      have alone : Git.findSeparator l = some position := by
        have same := separator_pieces l 0 false (.inl rfl)
        rw [List.append_nil] at same
        exact same.trans at_
      have inside := (separator_append alone ended).2
      have opens : ∀ rest, gitRun key found last ((l ++ ended) :: rest) =
          gitRun key (value.map finish) (some (l ++ ended)) rest := by
        intro rest
        rw [gitRun_open fresh,separator,at_,settled]
        rfl
      rw [at_] at separator
      have key_ : (l ++ ended).take position = l.take position := List.take_append_of_le_length inside.le
      cases matched : eqIgnoreAsciiCase (trim Git.isSpace (l.take position)) key with
      | true =>
        refine ⟨some (l.drop (position + 1)),some true,_,_,.named separator ?_ ?_,?_,opens⟩
        · rwa [key_]
        · exact List.drop_append_of_le_length inside
        · intro rest; rw [collects,collectTrailer,at_]; simp [matched]
      | false =>
        refine ⟨value,some false,_,_,.other rfl separator ?_,?_,opens⟩
        · rwa [key_]
        · intro rest; rw [collects,collectTrailer,at_]; simp [matched]

theorem idle_unseparated (idle : isComment l = true ∨ isBlank Git.isSpace l = true) :
    separatorPos l = none := by
  cases l with
  | nil => rfl
  | cons b l =>
    rcases idle with comment | blank
    · obtain rfl : b = commentPrefix := by simpa [isComment] using comment
      rfl
    · rw [isBlank_exact,List.all_cons,Bool.and_eq_true] at blank
      exact separator_first b blank.1 l

theorem comment_unspaced (comment : isComment l = true) : startsWithSpace Git.isSpace l = false := by
  cases l with
  | nil => rfl
  | cons b l =>
    obtain rfl : b = commentPrefix := by simpa [isComment] using comment
    rfl

theorem finish_blank (blank : isBlank Git.isSpace l = true) (value : Bytes) :
    finish (value ++ newline :: l) = finish value := by
  rw [isBlank_exact,List.all_eq_true] at blank
  rw [finish,finish,trim_append (List.forall_mem_cons.mpr ⟨rfl,blank⟩)]

-- Comment and blank lines behind the entries change neither value.
theorem collect_idle (idle : Idle Git.isSpace ls) (value : Option Bytes) (opened : Option Bool) :
    (collectTrailer Git.isSpace key value opened ls).map finish = value.map finish := by
  induction ls generalizing value opened with
  | nil => rfl
  | cons l ls ih =>
    have first : isComment l = true ∨ isBlank Git.isSpace l = true := idle l (by simp)
    have rest := ih fun l member => idle l (List.mem_cons_of_mem _ member)
    rw [collectTrailer]
    split
    · rename_i continued
      have blank : isBlank Git.isSpace l = true := by
        refine first.resolve_left fun comment => ?_
        simp [comment_unspaced comment] at continued
      rw [rest]
      split
      · cases value with
        | none => rfl
        | some value => exact congrArg some (finish_blank blank value)
      · rfl
    · rw [idle_unseparated first]
      exact rest _ _

theorem reads_blank_all (read : Reads piece line) (blank : isBlank Git.isSpace line = true) :
    (∀ b ∈ piece, Git.isSpace b = true) ∧ piece.head?.any Git.isSpace = true := by
  rw [isBlank_exact,List.all_eq_true] at blank
  have all : ∀ b ∈ piece, Git.isSpace b = true := by
    rcases read.2 with rfl | ⟨rfl,_⟩
    · exact List.forall_mem_append.mpr ⟨blank,newline_blank⟩
    · exact blank
  refine ⟨all,?_⟩
  cases piece with
  | nil =>
    rcases read.2 with ended | ⟨same,full⟩
    · exact absurd ended (by simp)
    · exact absurd same.symm full
  | cons b piece => exact all b (by simp)

theorem gitRun_idle (reads : List.Forall₂ Reads ps ls) (idle : Idle Git.isSpace ls)
    (found last : Option Bytes)
    (opens : ∀ entry, last = some entry → (Git.findSeparator entry).isSome = true) :
    gitRun key found last ps = (last.bind (Git.trailerValue key)).or found := by
  induction reads generalizing found last with
  | nil => exact gitRun_nil
  | @cons piece line ps ls read rest ih =>
    have later : Idle Git.isSpace ls := fun l member => idle l (List.mem_cons_of_mem _ member)
    have first := idle line (by simp)
    have separator := (reads_separator read).trans (idle_unseparated first)
    have emits : (last.isSome = true → piece.head?.any Git.isSpace = false) →
        gitRun key found last (piece :: ps) = (last.bind (Git.trailerValue key)).or found := by
      intro fresh
      rw [gitRun_open fresh,separator]
      simpa using ih later ((last.bind (Git.trailerValue key)).or found) none (by simp)
    cases comment : isComment line with
    | true =>
      apply emits
      rw [reads_space read (comment_unblank comment),comment_unspaced comment]
      simp
    | false =>
      obtain ⟨all,spaced⟩ := reads_blank_all read (first.resolve_left (by simp [comment]))
      cases last with
      | none => exact emits (by simp)
      | some entry =>
        obtain ⟨position,found'⟩ := Option.isSome_iff_exists.mp (opens entry rfl)
        have kept := (separator_append found' piece).1
        rw [gitRun_continue spaced,ih later found (some (entry ++ piece)) (by simp [kept])]
        simp only [Option.bind_some,trailerValue_append key found',trailerValue_found found']
        rw [trim_append all]

theorem follows_opens (follows : Follows key ended value opened found last) :
    ∀ entry, last = some entry → (Git.findSeparator entry).isSome = true := by
  intro entry same
  cases follows with
  | closed => cases same
  | other _ separated => cases same; simp [separated]
  | named separated => cases same; simp [separated]

theorem follows_idle (follows : Follows key ended value opened found last) (ending : Ending ended)
    (reads : List.Forall₂ Reads ps ls) (idle : Idle Git.isSpace ls) :
    gitRun key found last ps = (collectTrailer Git.isSpace key value opened ls).map finish := by
  rw [collect_idle idle,gitRun_idle reads idle _ _ (follows_opens follows),follows_end follows ending]

theorem follows_run (read : Pieces ps (block ++ idle))
    (follows : Follows key [newline] value opened found last)
    (full : ∀ l ∈ block, isBlank Git.isSpace l = false) (rest : Idle Git.isSpace idle) :
    gitRun key found last ps =
      (collectTrailer Git.isSpace key value opened (block ++ idle)).map finish := by
  induction block generalizing ps value opened found last with
  | nil => exact follows_idle follows (.inr rfl) (pieces_reads read) rest
  | cons l block ih =>
    rw [List.forall_mem_cons] at full
    generalize same : l :: block ++ idle = ls at read
    cases read with
    | nil => cases same
    | last line more =>
      obtain ⟨rfl,none⟩ := List.cons.inj same
      have read : Reads (l ++ []) l := ⟨line,.inr ⟨by simp,more⟩⟩
      obtain ⟨value',opened',found',last',next,collects,runs⟩ := follows_step follows read full.1
      rw [collects []]
      have runs := runs []
      rw [List.append_nil] at runs
      rw [runs,follows_idle next (.inl rfl) .nil (by simp [Idle])]
    | more line read =>
      obtain ⟨rfl,rfl⟩ := List.cons.inj same
      obtain ⟨value',opened',found',last',next,collects,runs⟩ :=
        follows_step follows ⟨line,.inl rfl⟩ full.1
      rw [collects,runs]
      exact ih read next full.2

theorem block_value_same (key : Bytes) (read : Pieces ps ls) :
    blockValue Git.isSpace key ls =
      ((Git.trailerStrings none (ps.drop (Git.findTrailerBlockStart ps))).filterMap
        (Git.trailerValue key)).getLast? := by
  rw [block_start_same read,blockValue]
  cases settled : trailerBlockStart Git.isSpace ls with
  | none => simp [Git.trailerStrings]
  | some start =>
    obtain ⟨_,block,idle,shape,full,rest⟩ := block_shape settled
    have pieces := pieces_drop read start
    rw [shape] at pieces
    have initial : Follows key [newline] none none none none := .closed rfl
    have run := follows_run pieces initial full rest
    simp only [gitRun,Option.or_none] at run
    have finishes : (fun value => unfold Git.isSpace (trim Git.isSpace value)) = finish :=
      funext fun value => unfold_same _
    simp only [Option.getD_some,run,shape,finishes]

theorem collect_split (ws : UInt8 → Bool) (key : Bytes) (ls : List Bytes) (value : Option Bytes) (opened : Option Bool) :
    ∃ value' opened', ∀ rest, collectTrailer ws key value opened (ls ++ rest) =
      collectTrailer ws key value' opened' rest := by
  induction ls generalizing value opened with
  | nil => exact ⟨value,opened,fun _ => rfl⟩
  | cons l ls ih =>
    simp only [List.cons_append,collectTrailer]
    split
    · exact ih _ _
    · split
      · exact ih _ _
      · exact ih _ _

theorem block_value_idle (key : Bytes) (idle : Idle Git.isSpace tail) (ls : List Bytes) :
    blockValue Git.isSpace key (ls ++ tail) = blockValue Git.isSpace key ls := by
  have finishes : (fun value => unfold Git.isSpace (trim Git.isSpace value)) = finish :=
    funext fun value => unfold_same _
  rw [blockValue,blockValue,block_start_idle idle]
  cases settled : trailerBlockStart Git.isSpace ls with
  | none => rfl
  | some start =>
    obtain ⟨value,opened,split⟩ := collect_split Git.isSpace key (ls.drop start) none none
    have whole := split []
    rw [List.append_nil] at whole
    simp only [finishes]
    rw [List.drop_append_of_le_length (block_shape settled).1,split,whole,collect_idle idle]
    rfl

theorem block_value_all_idle (idle : Idle Git.isSpace tail) :
    blockValue Git.isSpace key tail = none := by
  simpa [blockValue,trailerBlockStart] using block_value_idle key idle []

theorem log_message_start (ps : List Bytes) : Git.logMessage ps <+: ps := by
  have located := List.takeWhile_prefix (l := ps) fun piece => decide (piece ≠ Git.cutLine)
  simp only [Git.logMessage]
  split
  · exact located
  · exact (List.take_prefix _ _).trans located

theorem drop_takeWhile (p : Bytes → Bool) (ls : List Bytes) :
    ls.drop (ls.takeWhile p).length = ls.dropWhile p := by
  induction ls with
  | nil => rfl
  | cons l ls ih => cases found : p l <;> simp [found,ih]

theorem pieces_dropWhile (read : Pieces ps ls) :
    Pieces (ps.dropWhile Git.isBlankLine) (ls.dropWhile (isBlank Git.isSpace)) := by
  have same : (ps.takeWhile Git.isBlankLine).length = (ls.takeWhile (isBlank Git.isSpace)).length :=
    takeWhile_reads (pieces_reads read) fun _ _ read => reads_blank read
  rw [← drop_takeWhile,← drop_takeWhile,same]
  exact pieces_drop read _

-- The lines of the message that git's cut leaves out.
def cutOff (message : Bytes) : List Bytes :=
  (messageLines message).drop (Git.logMessage (pieces message)).length

-- With one class of white space the readers agree wherever no more than
-- comment and blank lines are cut off.
theorem last_trailer_same (idle : Idle Git.isSpace (cutOff message)) :
    lastTrailerValueBy Git.isSpace message key = Git.lastTrailer message key := by
  let n := (Git.logMessage (pieces message)).length
  have taken : (pieces message).take n = Git.logMessage (pieces message) :=
    (List.prefix_iff_eq_take.mp (log_message_start (pieces message))).symm
  have kept := pieces_take (pieces_messageLines message) n
  rw [taken] at kept
  have git := block_value_same key (pieces_dropWhile kept)
  have split : messageLines message = (messageLines message).take n ++ cutOff message :=
    (List.take_append_drop n _).symm
  simp only [lastTrailerValueBy,Git.lastTrailer]
  rw [← git,drop_takeWhile]
  conv_lhs => rw [split]
  rw [List.dropWhile_append]
  split
  · rename_i empty
    rw [List.isEmpty_iff.mp empty]
    have rest : Idle Git.isSpace ((cutOff message).dropWhile (isBlank Git.isSpace)) :=
      fun l member => idle l ((List.dropWhile_suffix _).subset member)
    rw [block_value_all_idle rest]
    rfl
  · exact block_value_idle key idle _

end VerifiableGit.Commit
