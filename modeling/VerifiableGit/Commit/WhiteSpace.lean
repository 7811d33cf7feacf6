import VerifiableGit.Commit.TrailersAgree

-- The code's white space has one byte git's lacks, the form feed. The reader
-- does not notice unless one stands where it tests or trims for white space.
namespace VerifiableGit.Commit
open Text

def formFeed : UInt8 := 12

def RunFree (text : Bytes) : Prop := formFeed ∉ text.takeWhile isAsciiWhitespace

instance : Decidable (RunFree text) := inferInstanceAs (Decidable (¬ _))

theorem space_ascii (b : UInt8) : isAsciiWhitespace b = true ↔ Git.isSpace b = true ∨ b = formFeed := by
  simp only [isAsciiWhitespace,Git.isSpace,formFeed,Bool.or_eq_true,decide_eq_true_eq]
  tauto

theorem space_differs (other : b ≠ formFeed) : isAsciiWhitespace b = Git.isSpace b := by
  rw [Bool.eq_iff_iff,space_ascii]
  simp [other]

theorem runFree_cons (blank : isAsciiWhitespace b = true) :
    RunFree (b :: text) ↔ b ≠ formFeed ∧ RunFree text := by
  rw [RunFree,RunFree,List.takeWhile_cons_of_pos blank,List.mem_cons,not_or]
  exact and_congr_left' ne_comm

theorem runFree_stop (full : isAsciiWhitespace b = false) : RunFree (b :: text) := by
  rw [RunFree,List.takeWhile_cons_of_neg (by simp [full])]
  simp

theorem runFree_prefix (text : Bytes) (whole : RunFree (start ++ text)) : RunFree start := by
  induction start with
  | nil => simp [RunFree]
  | cons b start ih =>
    cases blank : isAsciiWhitespace b with
    | true =>
      rw [List.cons_append,runFree_cons blank] at whole
      exact (runFree_cons blank).mpr ⟨whole.1,ih whole.2⟩
    | false => exact runFree_stop blank

theorem runFree_absent (absent : formFeed ∉ text) : RunFree text :=
  fun member => absent ((List.takeWhile_prefix _).subset member)

theorem trimStart_same (free : RunFree text) :
    trimStart isAsciiWhitespace text = trimStart Git.isSpace text := by
  induction text with
  | nil => rfl
  | cons b text ih =>
    cases blank : isAsciiWhitespace b with
    | true =>
      obtain ⟨other,rest⟩ := (runFree_cons blank).mp free
      rw [trimStart,trimStart,List.dropWhile_cons_of_pos blank,
        List.dropWhile_cons_of_pos (by rwa [← space_differs other])]
      exact ih rest
    | false =>
      have unspaced : ¬ Git.isSpace b = true := by
        intro spaced
        rw [(space_ascii b).mpr (.inl spaced)] at blank
        cases blank
      rw [trimStart,trimStart,List.dropWhile_cons_of_neg (by simp [blank]),
        List.dropWhile_cons_of_neg unspaced]

theorem trimEnd_same (free : RunFree text.reverse) :
    trimEnd isAsciiWhitespace text = trimEnd Git.isSpace text :=
  congrArg List.reverse (trimStart_same free)

theorem trim_same (left : RunFree text) (right : RunFree text.reverse) :
    trim isAsciiWhitespace text = trim Git.isSpace text := by
  obtain ⟨run,split⟩ := List.dropWhile_suffix (l := text) Git.isSpace
  have rest : RunFree (trimStart Git.isSpace text).reverse := by
    rw [← split,List.reverse_append] at right
    exact runFree_prefix _ right
  rw [trim,trim,trimStart_same left,trimEnd_same rest]

-- What the two readers ask about a line.
def Alike (line : Bytes) : Prop :=
  isBlank isAsciiWhitespace line = isBlank Git.isSpace line ∧
    startsWithSpace isAsciiWhitespace line = startsWithSpace Git.isSpace line

theorem blank_ascii (blank : isBlank Git.isSpace line = true) : isBlank isAsciiWhitespace line = true := by
  rw [isBlank_exact,List.all_eq_true] at blank ⊢
  exact fun b member => (space_ascii b).mpr (.inl (blank b member))

theorem absent_alike (absent : formFeed ∉ line) : Alike line := by
  refine ⟨by rw [isBlank,isBlank,trim_same (runFree_absent absent) (runFree_absent (by simpa using absent))],?_⟩
  cases line with
  | nil => rfl
  | cons b line =>
    have other : b ≠ formFeed := fun same => absent (by simp [same])
    simpa [startsWithSpace] using space_differs other

-- The scan stops inside these lines, read last line first: they end with a
-- blank line that has content under it.
def Stops (onlySpaces : Bool) (passed : List Bytes) : Prop :=
  ∃ content blank, passed = content ++ [blank] ∧ isBlank Git.isSpace blank = true ∧
    (onlySpaces = false ∨ ∃ l ∈ content, isComment l = false ∧ isBlank Git.isSpace l = false)

theorem stops_comment (stops : Stops onlySpaces (line :: passed)) (comment : isComment line = true) :
    Stops onlySpaces passed := by
  obtain ⟨content,blank,shape,empty,some⟩ := stops
  cases content with
  | nil =>
    obtain ⟨rfl,rfl⟩ := List.cons.inj shape
    rw [comment_unblank comment] at empty
    cases empty
  | cons first content =>
    obtain ⟨rfl,rfl⟩ := List.cons.inj shape
    refine ⟨content,blank,rfl,empty,some.imp id ?_⟩
    rintro ⟨l,member,plain,full⟩
    rcases List.mem_cons.mp member with rfl | later
    · rw [comment] at plain; cases plain
    · exact ⟨l,later,plain,full⟩

theorem stops_blank (stops : Stops true (line :: passed)) (empty : isBlank Git.isSpace line = true) :
    Stops true passed := by
  obtain ⟨content,blank,shape,ended,some⟩ := stops
  obtain ⟨l,member,plain,full⟩ := some.resolve_left (by simp)
  cases content with
  | nil => cases member
  | cons first content =>
    obtain ⟨rfl,rfl⟩ := List.cons.inj shape
    refine ⟨content,blank,rfl,ended,.inr ⟨l,?_,plain,full⟩⟩
    rcases List.mem_cons.mp member with rfl | later
    · rw [empty] at full; cases full
    · exact later

theorem stops_content (stops : Stops onlySpaces (line :: passed))
    (full : isBlank Git.isSpace line = false) : Stops false passed := by
  obtain ⟨content,blank,shape,ended,some⟩ := stops
  cases content with
  | nil =>
    obtain ⟨rfl,rfl⟩ := List.cons.inj shape
    rw [full] at ended
    cases ended
  | cons first content =>
    obtain ⟨rfl,rfl⟩ := List.cons.inj shape
    exact ⟨content,blank,rfl,ended,.inl rfl⟩

theorem scan_alike (endOfTitle : Nat) (scan : BlockScan) (before : List Bytes)
    (alike : ∀ l ∈ passed, Alike l)
    (stops : before = [] ∨ Stops scan.onlySpaces passed) :
    scanBlock isAsciiWhitespace endOfTitle scan (passed ++ before) =
        scanBlock Git.isSpace endOfTitle scan (passed ++ before) ∧
      ∀ start, scanBlock Git.isSpace endOfTitle scan (passed ++ before) = some start →
        endOfTitle + before.length + 1 ≤ start := by
  induction passed generalizing scan with
  | nil =>
    rcases stops with rfl | ⟨content,blank,shape,_⟩
    · exact ⟨rfl,fun _ none => by cases none⟩
    · simp at shape
  | cons line passed ih =>
    rw [List.forall_mem_cons] at alike
    rw [List.cons_append,scanBlock,scanBlock,alike.1.1,alike.1.2]
    split
    · rename_i comment
      exact ih _ alike.2 (stops.imp id fun stops => stops_comment stops comment)
    · split
      · rename_i blank
        split
        · rename_i begun
          refine ih _ alike.2 (stops.imp id fun stops => ?_)
          rw [begun] at stops ⊢
          exact stops_blank stops blank
        · refine ⟨rfl,fun start settled => ?_⟩
          simp only at settled
          have here : endOfTitle + (passed ++ before).length + 1 = start := by
            split at settled
            · exact Option.some.inj settled
            · split at settled
              · exact Option.some.inj settled
              · cases settled
          rw [List.length_append] at here
          omega
      · rename_i full
        rw [Bool.not_eq_true] at full
        have later : before = [] ∨ Stops false passed := stops.imp id fun stops => stops_content stops full
        split
        · exact ih _ alike.2 later
        · split
          · exact ih _ alike.2 later
          · split
            · exact ih _ alike.2 later
            · exact ih _ alike.2 later

theorem key_absent (found : separatorFrom offset spaced line = some position) :
    formFeed ∉ line.take (position - offset) ∧ offset ≤ position := by
  induction line generalizing offset spaced with
  | nil => cases found
  | cons c line ih =>
    have further : ∀ spaced, separatorFrom (offset + 1) spaced line = some position →
        formFeed ≠ c → formFeed ∉ (c :: line).take (position - offset) ∧ offset ≤ position := by
      intro spaced found other
      obtain ⟨absent,below⟩ := ih found
      have step : position - offset = (position - (offset + 1)) + 1 := by omega
      rw [step,List.take_succ_cons,List.mem_cons,not_or]
      exact ⟨⟨other,absent⟩,by omega⟩
    rw [separatorFrom] at found
    split at found
    · split at found
      · obtain rfl := Option.some.inj found
        simp
      · cases found
    · split at found
      · rename_i key
        exact further _ found (by rintro rfl; simp [isAsciiAlphanumeric,formFeed] at key)
      · split at found
        · rename_i gap
          exact further _ found (by rintro rfl; simp [formFeed] at gap)
        · cases found

theorem key_same (found : separatorPos line = some position) :
    trim isAsciiWhitespace (line.take position) = trim Git.isSpace (line.take position) := by
  have absent := (key_absent found).1
  rw [Nat.sub_zero] at absent
  exact trim_same (runFree_absent absent) (runFree_absent (by simpa using absent))

-- The text of a value with its continuation lines: no form feed in the white
-- space at its ends or behind one of its newlines.
structure Tidy (value : Bytes) : Prop where
  start : RunFree value
  finish : RunFree value.reverse
  folds : ∀ before after, value = before ++ newline :: after → RunFree after

theorem tidy_absent (absent : formFeed ∉ value) : Tidy value := by
  refine ⟨runFree_absent absent,runFree_absent (by simpa using absent),fun before after split => ?_⟩
  refine runFree_absent fun member => absent ?_
  rw [split]
  exact List.mem_append_right _ (List.mem_cons_of_mem _ member)

theorem collect_alike (key : Bytes) (value : Option Bytes) (opened : Option Bool)
    (alike : ∀ l ∈ ls, startsWithSpace isAsciiWhitespace l = startsWithSpace Git.isSpace l) :
    collectTrailer isAsciiWhitespace key value opened ls = collectTrailer Git.isSpace key value opened ls := by
  induction ls generalizing value opened with
  | nil => rfl
  | cons l ls ih =>
    rw [List.forall_mem_cons] at alike
    rw [collectTrailer,collectTrailer,alike.1]
    split
    · exact ih _ _ alike.2
    · split
      · rename_i position found
        rw [key_same found]
        exact ih _ _ alike.2
      · exact ih _ _ alike.2

def Named (key line : Bytes) : Prop :=
  ∃ position, separatorPos line = some position ∧ eqIgnoreAsciiCase (trim Git.isSpace (line.take position)) key = true

-- The last entry of a block under the key: the line that opens it, its
-- separator's place in that line, and the lines that continue it.
structure LastEntry (key : Bytes) (block : List Bytes) (line : Bytes) (position : Nat) (continuations : List Bytes) : Prop where
  separated : separatorPos line = some position
  named : eqIgnoreAsciiCase (trim Git.isSpace (line.take position)) key = true
  continued : ∀ l ∈ continuations, startsWithSpace Git.isSpace l = true
  place : ∃ before after, block = before ++ line :: (continuations ++ after) ∧ (∀ l ∈ after, ¬ Named key l) ∧
    ∀ l ∈ after.head?, startsWithSpace Git.isSpace l = false

-- The text of its value, as it stands in the message.
def entryText (line : Bytes) (position : Nat) (continuations : List Bytes) : Bytes :=
  joinLines (line.drop (position + 1) :: continuations)

theorem last_cons (entry : LastEntry key block line position continuations) (l : Bytes) :
    LastEntry key (l :: block) line position continuations := by
  obtain ⟨before,after,shape,unnamed,ended⟩ := entry.place
  exact { entry with place := ⟨l :: before,after,by rw [shape]; rfl,unnamed,ended⟩ }

theorem spaced_unnamed (spaced : startsWithSpace Git.isSpace line = true) : ¬ Named key line := by
  rintro ⟨position,separated,_⟩
  rw [separator_unspaced (by simp [separated])] at spaced
  cases spaced

theorem joinLines_open (first l : Bytes) (rest : List Bytes) :
    joinLines ((first ++ newline :: l) :: rest) = joinLines (first :: l :: rest) := by
  rw [joinLines_cons first (List.cons_ne_nil l rest)]
  cases rest with
  | nil => simp
  | cons next rest =>
    rw [joinLines_cons _ (List.cons_ne_nil next rest),joinLines_cons _ (List.cons_ne_nil next rest)]
    simp

-- What stands open in front of some lines is continued by the first of them
-- that start with a space, and no entry under the key comes behind.
def Carried (key : Bytes) (before : Option Bytes) (opened : Option Bool) (ls : List Bytes) (value : Bytes) : Prop :=
  (∀ l ∈ ls, ¬ Named key l) ∧ ∃ first continuations after, before = some first ∧ ls = continuations ++ after ∧
    value = joinLines (first :: continuations) ∧ (∀ l ∈ continuations, startsWithSpace Git.isSpace l = true) ∧
    (opened = some true → ∀ l ∈ after.head?, startsWithSpace Git.isSpace l = false) ∧
    (opened ≠ some true → continuations = [])

theorem carried_closed (carried : Carried key before (some false) ls value ∨ Carried key before none ls value)
    (unnamed : ¬ Named key l) (closed : opened = some true → startsWithSpace Git.isSpace l = false) :
    Carried key before opened (l :: ls) value := by
  have rest : (∀ l ∈ ls, ¬ Named key l) ∧ ∃ first, before = some first ∧ value = first := by
    rcases carried with ⟨clear,first,continuations,_,same,_,text,_,_,none⟩ | ⟨clear,first,continuations,_,same,_,text,_,_,none⟩
    all_goals
      cases none (by simp)
      exact ⟨clear,first,same,by rw [text,joinLines_singleton]⟩
  obtain ⟨clear,first,same,rfl⟩ := rest
  refine ⟨List.forall_mem_cons.mpr ⟨unnamed,clear⟩,_,[],l :: ls,same,rfl,(joinLines_singleton _).symm,by simp,?_,fun _ => rfl⟩
  intro isOpen m member
  cases Option.some.inj member
  exact closed isOpen

theorem collect_last (found : collectTrailer Git.isSpace key before opened ls = some value) :
    (∃ line position continuations, LastEntry key ls line position continuations ∧ value = entryText line position continuations) ∨
      Carried key before opened ls value := by
  induction ls generalizing before opened with
  | nil => exact .inr ⟨by simp,value,[],[],found,rfl,(joinLines_singleton _).symm,by simp,by simp,fun _ => rfl⟩
  | cons l ls ih =>
    rw [collectTrailer] at found
    split at found
    · rename_i continued
      have spaced : startsWithSpace Git.isSpace l = true := by simp_all
      rcases ih found with ⟨line,position,continuations,entry,text⟩ | ⟨clear,first,continuations,after,same,shape,text,all,ended,none⟩
      · exact .inl ⟨line,position,continuations,last_cons entry l,text⟩
      refine .inr ⟨List.forall_mem_cons.mpr ⟨spaced_unnamed spaced,clear⟩,?_⟩
      by_cases isOpen : opened = some true
      · rw [if_pos isOpen] at same
        obtain ⟨held,here,rfl⟩ := Option.map_eq_some_iff.mp same
        exact ⟨held,l :: continuations,after,here,by rw [shape]; rfl,by rw [text,joinLines_open],
          List.forall_mem_cons.mpr ⟨spaced,all⟩,ended,fun other => absurd isOpen other⟩
      · rw [if_neg isOpen] at same
        cases none isOpen
        exact ⟨first,[],l :: ls,same,rfl,text,by simp,fun here => absurd here isOpen,fun _ => rfl⟩
    · rename_i fresh
      have closed : opened = some true → startsWithSpace Git.isSpace l = false := by
        intro isOpen
        simpa [isOpen] using fresh
      split at found
      · rename_i position separated
        cases named : eqIgnoreAsciiCase (trim Git.isSpace (l.take position)) key with
        | true =>
          simp only [named,if_true] at found
          rcases ih found with ⟨line,position,continuations,entry,text⟩ | ⟨clear,first,continuations,after,same,shape,text,all,ended,_⟩
          · exact .inl ⟨line,position,continuations,last_cons entry l,text⟩
          cases same
          exact .inl ⟨l,position,continuations,⟨separated,named,all,[],after,by rw [shape]; rfl,
            fun m member => clear m (by rw [shape]; exact List.mem_append_right _ member),ended rfl⟩,text⟩
        | false =>
          simp only [named,Bool.false_eq_true,if_false] at found
          have unnamed : ¬ Named key l := by
            rintro ⟨other,again,same⟩
            cases separated.symm.trans again
            rw [named] at same
            cases same
          rcases ih found with ⟨line,position,continuations,entry,text⟩ | carried
          · exact .inl ⟨line,position,continuations,last_cons entry l,text⟩
          · exact .inr (carried_closed (.inl carried) unnamed closed)
      · rename_i separated
        have unnamed : ¬ Named key l := by
          rintro ⟨other,again,_⟩
          rw [separated] at again
          cases again
        rcases ih found with ⟨line,position,continuations,entry,text⟩ | carried
        · exact .inl ⟨line,position,continuations,last_cons entry l,text⟩
        · exact .inr (carried_closed (.inr carried) unnamed closed)

theorem folds_same (folds : ∀ before after, value = before ++ newline :: after → RunFree after) :
    unfoldFrom isAsciiWhitespace value = unfoldFrom Git.isSpace value := by
  induction value using unfoldFrom.induct Git.isSpace with
  | case1 => simp [unfoldFrom]
  | case2 rest ih =>
    have run : RunFree rest := folds [] rest rfl
    obtain ⟨skipped,split⟩ := List.dropWhile_suffix (l := rest) Git.isSpace
    rw [unfoldFrom,unfoldFrom,if_pos rfl,if_pos rfl,trimStart_same run,ih]
    intro before after cut
    refine folds (newline :: skipped ++ before) after ?_
    rw [← split,show List.dropWhile Git.isSpace rest = before ++ newline :: after from cut]
    simp
  | case3 b rest other ih =>
    rw [unfoldFrom,unfoldFrom,if_neg other,if_neg other,ih]
    intro before after cut
    exact folds (b :: before) after (by rw [cut]; rfl)

theorem trimStart_last (full : Git.isSpace b = false) (text : Bytes) :
    ∃ rest, trimStart Git.isSpace (text ++ [b]) = rest ++ [b] := by
  rw [trimStart,List.dropWhile_append]
  split
  · exact ⟨[],by simp [full]⟩
  · exact ⟨_,rfl⟩

theorem unfold_last (full : Git.isSpace b = false) (before : Bytes) (last : value = before ++ [b]) :
    ∃ rest, unfoldFrom Git.isSpace value = rest ++ [b] := by
  induction value using unfoldFrom.induct Git.isSpace generalizing before with
  | case1 => simp at last
  | case2 rest ih =>
    rw [unfoldFrom,if_pos rfl]
    cases before with
    | nil =>
      obtain ⟨rfl,_⟩ := List.cons.inj last
      cases full
    | cons c before =>
      obtain ⟨rfl,rfl⟩ := List.cons.inj last
      obtain ⟨trimmed,same⟩ := trimStart_last full before
      obtain ⟨inner,unfolded⟩ := ih trimmed same
      exact ⟨space :: inner,by rw [unfolded]; rfl⟩
  | case3 c rest other ih =>
    rw [unfoldFrom,if_neg other]
    cases before with
    | nil =>
      obtain ⟨rfl,rfl⟩ := List.cons.inj last
      exact ⟨[],by simp [unfoldFrom]⟩
    | cons d before =>
      obtain ⟨rfl,rfl⟩ := List.cons.inj last
      obtain ⟨inner,unfolded⟩ := ih before rfl
      exact ⟨c :: inner,by rw [unfolded]; rfl⟩

theorem trim_start (some : trim isAsciiWhitespace value = b :: rest) : isAsciiWhitespace b = false := by
  obtain ⟨after,split⟩ := List.rdropWhile_prefix isAsciiWhitespace (trimStart isAsciiWhitespace value)
  rw [← trimEnd,← trim,some,trimStart] at split
  have head := List.head?_dropWhile_not isAsciiWhitespace value
  rw [← split] at head
  exact head

theorem trim_end (some : trim isAsciiWhitespace value = before ++ [b]) : isAsciiWhitespace b = false := by
  have last := List.rdropWhile_last_not isAsciiWhitespace (trimStart isAsciiWhitespace value)
  rw [← trimEnd,← trim,some] at last
  simpa using last (by simp)

theorem finish_same (tidy : Tidy value) :
    unfold isAsciiWhitespace (trim isAsciiWhitespace value) =
      unfold Git.isSpace (trim Git.isSpace value) := by
  rw [← trim_same tidy.start tidy.finish]
  obtain ⟨left,cut⟩ := List.dropWhile_suffix (l := value) isAsciiWhitespace
  obtain ⟨right,cut'⟩ := List.rdropWhile_prefix isAsciiWhitespace (trimStart isAsciiWhitespace value)
  have inner : value = left ++ (trim isAsciiWhitespace value ++ right) := by
    rw [trim,trimEnd,cut',trimStart,cut]
  have folds : ∀ before after, trim isAsciiWhitespace value = before ++ newline :: after →
      RunFree after := by
    intro before after split
    refine runFree_prefix right (tidy.folds (left ++ before) (after ++ right) ?_)
    rw [split] at inner
    simpa using inner
  rw [unfold,unfold,folds_same folds]
  apply trim_same
  · cases shape : trim isAsciiWhitespace value with
    | nil => simp [unfoldFrom,RunFree]
    | cons b rest =>
      have full := trim_start shape
      have other : b ≠ newline := by rintro rfl; cases full
      rw [unfoldFrom,if_neg other]
      exact runFree_stop full
  · rcases List.eq_nil_or_concat (trim isAsciiWhitespace value) with none | ⟨before,b,shape⟩
    · simp [none,unfoldFrom,RunFree]
    · rw [List.concat_eq_append] at shape
      have full := trim_end shape
      have unspaced : Git.isSpace b = false := by
        rw [← Bool.not_eq_true]
        intro spaced
        rw [(space_ascii b).mpr (.inl spaced)] at full
        cases full
      obtain ⟨rest,unfolded⟩ := unfold_last unspaced before shape
      rw [unfolded,List.reverse_append]
      exact runFree_stop full

def titleEnd (ws : UInt8 → Bool) (line : Bytes) : Bool := !isComment line && isBlank ws line

-- The message from its title on, the title, and the line that ends it with
-- everything below.
def fromTitle (ls : List Bytes) : List Bytes := ls.dropWhile (isBlank Git.isSpace)

def titleOf (ls : List Bytes) : List Bytes := (fromTitle ls).takeWhile fun l => !titleEnd Git.isSpace l

def belowTitle (ls : List Bytes) : List Bytes := (fromTitle ls).dropWhile fun l => !titleEnd Git.isSpace l

theorem title_alike {ls : List Bytes}
    (alike : ∀ l ∈ ls.takeWhile (fun l => !titleEnd Git.isSpace l), isBlank isAsciiWhitespace l = isBlank Git.isSpace l) :
    ls.findIdx? (titleEnd isAsciiWhitespace) = ls.findIdx? (titleEnd Git.isSpace) := by
  induction ls with
  | nil => rfl
  | cons l ls ih =>
    rw [List.findIdx?_cons,List.findIdx?_cons]
    cases ends : titleEnd Git.isSpace l with
    | true =>
      have parts := ends
      rw [titleEnd,Bool.and_eq_true] at parts
      rw [titleEnd,parts.1,blank_ascii parts.2]
      rfl
    | false =>
      rw [List.takeWhile_cons,if_pos (by simp [ends]),List.forall_mem_cons] at alike
      have same : titleEnd isAsciiWhitespace l = false := by rw [titleEnd,alike.1,← titleEnd,ends]
      rw [same,ih alike.2]

theorem dropWhile_alike {ls : List Bytes}
    (alike : ∀ l ∈ (fromTitle ls).head?, isBlank isAsciiWhitespace l = isBlank Git.isSpace l) :
    ls.dropWhile (isBlank isAsciiWhitespace) = fromTitle ls := by
  induction ls with
  | nil => rfl
  | cons l ls ih =>
    rw [fromTitle,List.dropWhile_cons] at alike ⊢
    rw [List.dropWhile_cons]
    cases blank : isBlank Git.isSpace l with
    | true =>
      simp only [blank,if_true] at alike ⊢
      rw [if_pos (blank_ascii blank)]
      exact ih alike
    | false =>
      simp only [blank,Bool.false_eq_true,if_false] at alike ⊢
      rw [if_neg (by rw [alike l rfl,blank]; simp)]

theorem title_first (ls : List Bytes) (member : l ∈ (fromTitle ls).head?) : l ∈ titleOf ls := by
  have full := List.head?_dropWhile_not (isBlank Git.isSpace) ls
  rw [titleOf]
  rw [← fromTitle] at full
  cases shape : fromTitle ls with
  | nil => rw [shape] at member; cases member
  | cons first rest =>
    rw [shape] at member full
    cases Option.some.inj member
    have other : isBlank Git.isSpace l = false := full
    rw [List.takeWhile_cons,if_pos (by simp [titleEnd,other])]
    exact List.mem_cons_self

-- The last paragraph, from the blank line above it.
def LastParagraph (ls : List Bytes) : Prop :=
  ∃ blank rest, ls = blank :: rest ∧ isBlank Git.isSpace blank = true ∧
    ∃ l ∈ rest, isComment l = false ∧ isBlank Git.isSpace l = false

theorem paragraph_stops (last : LastParagraph ls) : Stops true ls.reverse := by
  obtain ⟨blank,rest,rfl,empty,l,member,content⟩ := last
  exact ⟨rest.reverse,blank,by simp,empty,.inr ⟨l,by simpa using member,content⟩⟩

theorem start_alike {ls : List Bytes} (split : ls.dropWhile (fun l => !titleEnd Git.isSpace l) = middle ++ last)
    (title : ∀ l ∈ ls.takeWhile (fun l => !titleEnd Git.isSpace l), isBlank isAsciiWhitespace l = isBlank Git.isSpace l)
    (alike : ∀ l ∈ last, Alike l) (settled : middle = [] ∨ LastParagraph last) :
    trailerBlockStart isAsciiWhitespace ls = trailerBlockStart Git.isSpace ls ∧
      ∀ start, trailerBlockStart Git.isSpace ls = some start → ∀ l ∈ ls.drop start, l ∈ last := by
  have same := title_alike title
  have whole := title_exact (titleEnd Git.isSpace) ls
  unfold titleEnd at same
  rw [trailerBlockStart,trailerBlockStart,same]
  split
  · exact ⟨rfl,fun _ none => by cases none⟩
  rename_i endOfTitle found
  have cut : ls.drop endOfTitle = middle ++ last := by
    unfold titleEnd at whole split
    rw [found,Option.getD_some] at whole
    rw [← split,← drop_takeWhile,whole]
  have behind : ∀ l ∈ last.reverse, Alike l := fun l member => alike l (List.mem_reverse.mp member)
  have scans := scan_alike endOfTitle .initial middle.reverse behind
    (settled.imp (fun none => by rw [none]; rfl) paragraph_stops)
  rw [cut,List.reverse_append]
  refine ⟨scans.1,fun start passed l member => ?_⟩
  have bound := scans.2 start passed
  rw [List.length_reverse] at bound
  obtain ⟨more,rfl⟩ := Nat.exists_eq_add_of_le (show endOfTitle + middle.length ≤ start by omega)
  rw [← List.drop_drop,← List.drop_drop,cut,List.drop_left] at member
  exact List.mem_of_mem_drop member

-- No form feed stands where the reader's class of white space counts: in the
-- title and in the last paragraph none that makes a line blank or starts one,
-- and none where the value of the block's last entry under the key is trimmed.
-- What stands elsewhere may be any text.
structure FormFeedFree (key : Bytes) (ls : List Bytes) : Prop where
  title : ∀ l ∈ titleOf ls, isBlank isAsciiWhitespace l = isBlank Git.isSpace l
  paragraph : ∃ middle last, belowTitle ls = middle ++ last ∧ (∀ l ∈ last, Alike l) ∧ (middle = [] ∨ LastParagraph last)
  entry : ∀ start, trailerBlockStart Git.isSpace (fromTitle ls) = some start → ∀ line position continuations,
    LastEntry key ((fromTitle ls).drop start) line position continuations → Tidy (entryText line position continuations)

theorem entry_absent (absent : ∀ l ∈ block, formFeed ∉ l) (entry : LastEntry key block line position continuations) :
    formFeed ∉ entryText line position continuations := by
  obtain ⟨before,after,shape,_⟩ := entry.place
  have inside : ∀ l ∈ line.drop (position + 1) :: continuations, formFeed ∉ l := by
    rw [List.forall_mem_cons]
    exact ⟨fun member => absent line (by simp [shape]) (List.mem_of_mem_drop member),
      fun l member => absent l (by simp [shape,member])⟩
  rw [entryText]
  generalize line.drop (position + 1) :: continuations = ls at inside
  induction ls with
  | nil => simp [joinLines]
  | cons l ls ih =>
    rw [List.forall_mem_cons] at inside
    cases ls with
    | nil => simpa using inside.1
    | cons next ls =>
      rw [joinLines_cons l (List.cons_ne_nil next ls),List.mem_append,List.mem_cons]
      rintro (here | same | later)
      · exact inside.1 here
      · cases same
      · exact ih inside.2 later

theorem absent_free {ls : List Bytes} (absent : ∀ l ∈ ls, formFeed ∉ l) : FormFeedFree key ls where
  title l member :=
    (absent_alike (absent l ((List.dropWhile_suffix _).subset ((List.takeWhile_prefix _).subset member)))).1
  paragraph := ⟨[],belowTitle ls,rfl,fun l member =>
    absent_alike (absent l ((List.dropWhile_suffix _).subset ((List.dropWhile_suffix _).subset member))),.inl rfl⟩
  entry _ _ _ _ _ entry :=
    tidy_absent (entry_absent (fun l member => absent l ((List.dropWhile_suffix _).subset (List.mem_of_mem_drop member))) entry)

theorem white_space_same (free : FormFeedFree key (messageLines message)) :
    lastTrailerValue message key = lastTrailerValueBy Git.isSpace message key := by
  obtain ⟨middle,last,split,alike,settled⟩ := free.paragraph
  obtain ⟨start,block⟩ := start_alike split free.title alike settled
  simp only [lastTrailerValue,lastTrailerValueBy,drop_takeWhile]
  rw [dropWhile_alike fun l member => free.title l (title_first _ member),← fromTitle,blockValue,blockValue,start]
  split
  · rfl
  rename_i start settled
  rw [collect_alike key none none fun l member => (alike l (block start settled l member)).2]
  cases value : collectTrailer Git.isSpace key none none ((fromTitle (messageLines message)).drop start) with
  | none => rfl
  | some text =>
    rcases collect_last value with ⟨line,position,continuations,entry,rfl⟩ | ⟨_,_,_,_,none,_⟩
    · exact congrArg some (finish_same (free.entry start settled line position continuations entry))
    · cases none

theorem last_trailer_value_exact (message key : Bytes)
    (free : FormFeedFree key (messageLines message)) (idle : Idle Git.isSpace (cutOff message)) :
    lastTrailerValue message key = Git.lastTrailer message key :=
  (white_space_same free).trans (last_trailer_same idle)

-- The form feed behind the other entry's separator is never asked about.
theorem last_trailer_value_sample :
    lastTrailerValue (ascii "t\n\nReviewed-by:\x0cx\nSigned-by-DID: did:a\n") signerDidKey = some (ascii "did:a") := by
  have free : FormFeedFree signerDidKey (messageLines (ascii "t\n\nReviewed-by:\x0cx\nSigned-by-DID: did:a\n")) := by
    refine ⟨by decide,⟨[],_,rfl,by unfold Alike; decide,.inl rfl⟩,fun start settled line position continuations entry => ?_⟩
    cases settled.symm.trans (show _ = some 2 by decide)
    have block : (fromTitle (messageLines (ascii "t\n\nReviewed-by:\x0cx\nSigned-by-DID: did:a\n"))).drop 2 =
        [ascii "Reviewed-by:\x0cx",ascii "Signed-by-DID: did:a"] := by decide
    have unspaced : ∀ l ∈ [ascii "Reviewed-by:\x0cx",ascii "Signed-by-DID: did:a"], startsWithSpace Git.isSpace l = false := by
      decide
    rw [block] at entry
    obtain ⟨before,after,shape,_⟩ := entry.place
    have inside : line ∈ [ascii "Reviewed-by:\x0cx",ascii "Signed-by-DID: did:a"] := by rw [shape]; simp
    have alone : continuations = [] := by
      refine List.eq_nil_iff_forall_not_mem.mpr fun l member => ?_
      have plain := unspaced l (by rw [shape]; simp [member])
      rw [entry.continued l member] at plain
      cases plain
    rw [alone]
    rcases List.mem_pair.mp inside with rfl | rfl
    · cases entry.separated.symm.trans (show _ = some 11 by decide)
      exact absurd entry.named (by decide)
    · cases entry.separated.symm.trans (show _ = some 13 by decide)
      exact tidy_absent (by decide)
  rw [last_trailer_value_exact _ signerDidKey free (by unfold Idle; decide)]
  decide

theorem unfold_single (line : Line value) : unfoldFrom ws value = value := by
  induction value with
  | nil => rw [unfoldFrom]
  | cons b value ih =>
    simp only [Line,List.mem_cons,not_or] at line
    rw [unfoldFrom,if_neg fun same => line.1 same.symm,ih line.2]

theorem value_single (message key value : Bytes) (n : Nat)
    (start : trailerBlockStart isAsciiWhitespace
      ((messageLines message).dropWhile (isBlank isAsciiWhitespace)) = some n)
    (found : collectTrailer isAsciiWhitespace key none none
      (((messageLines message).dropWhile (isBlank isAsciiWhitespace)).drop n) = some value)
    (line : Line (trim isAsciiWhitespace value)) :
    lastTrailerValue message key =
      some (trim isAsciiWhitespace (trim isAsciiWhitespace value)) := by
  simp only [lastTrailerValue,lastTrailerValueBy,drop_takeWhile,blockValue,start,found,Option.map_some,
    unfold,unfold_single line]

-- Below a scissors line, and behind a form feed that git does not take for a
-- blank line, the code reads a trailer that git does not show.
theorem last_trailer_value_differs :
    (lastTrailerValue (ascii ("t\n\nSigned-by-DID: did:a\n" ++
          "# ------------------------ >8 ------------------------\n\nSigned-by-DID: did:b\n"))
        signerDidKey = some (ascii "did:b") ∧
      Git.lastTrailer (ascii ("t\n\nSigned-by-DID: did:a\n" ++
          "# ------------------------ >8 ------------------------\n\nSigned-by-DID: did:b\n"))
        signerDidKey = some (ascii "did:a")) ∧
    lastTrailerValue (ascii "t\n\x0c\nSigned-by-DID: did:a\n") signerDidKey = some (ascii "did:a") ∧
    Git.lastTrailer (ascii "t\n\x0c\nSigned-by-DID: did:a\n") signerDidKey = none := by
  refine ⟨⟨?_,by decide⟩,?_,by decide⟩
  · exact (value_single _ signerDidKey (ascii " did:b") 5 (by decide) (by decide) (by decide)).trans
      (by decide)
  · exact (value_single _ signerDidKey (ascii " did:a") 2 (by decide) (by decide) (by decide)).trans
      (by decide)

end VerifiableGit.Commit
