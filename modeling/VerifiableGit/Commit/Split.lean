import VerifiableGit.Text

-- `split_signed_commit` (vgi-core, commit.rs) beside the scan git itself makes
-- of a signed commit, and what an inserted signature block leaves behind.
namespace VerifiableGit.Commit
open Text

inductive Header where
  | signature
  | otherSignature
  | kept
deriving DecidableEq

-- The header loop: the lines kept, and the lines of the signature. A
-- continuation line is tried before any header name.
def scanHeaders (current : Header) : List Bytes → List Bytes × List Bytes
  | [] => ([],[])
  | line :: rest =>
    match (if current = .signature then stripPrefix [space] line else none) with
    | some continuation =>
      let (kept,signature) := scanHeaders .signature rest
      (kept,continuation :: signature)
    | none =>
      match stripPrefix (ascii "gpgsig ") line with
      | some first =>
        let (kept,signature) := scanHeaders .signature rest
        (kept,first :: signature)
      | none =>
        if (ascii "gpgsig").isPrefixOf line = true ∨
            (current = .otherSignature ∧ [space].isPrefixOf line = true) then
          scanHeaders .otherSignature rest
        else
          let (kept,signature) := scanHeaders .kept rest
          (line :: kept,signature)

def splitSignedCommit (raw : Bytes) : Except String (Option (Bytes × Bytes)) :=
  if isUtf8 raw then
    match splitBlank raw with
    | none => .error "malformed commit object: no header/body separator"
    | some (headers,body) =>
      let (kept,signature) := scanHeaders .kept (lines headers)
      if signature.isEmpty then .ok none
      else .ok (some (joinLines kept ++ ascii "\n\n" ++ body,joinLines signature ++ [newline]))
  else .error "commit object is not UTF-8"

-- The reference: `parse_buffer_signed_by_header` of git's commit.c in a SHA-1
-- repository, one piece (a line with its newline) for each turn of its loop.
structure SignedBuffer where
  payload : Bytes
  signature : Bytes
  sawSignature : Bool

def gpgsigValue (line : Bytes) : Option Bytes :=
  match stripPrefix (ascii "gpgsig") line with
  | some (c :: value) => if c = space then some value else none
  | _ => none

def parseBuffer (inSignature otherSignature : Bool) : List Bytes → SignedBuffer
  | [] => ⟨[],[],false⟩
  | line :: rest =>
    if inSignature = true ∧ line.head? = some space then
      let after := parseBuffer true otherSignature rest
      ⟨after.payload,line.tail ++ after.signature,true⟩
    else match gpgsigValue line with
      | some value =>
        let after := parseBuffer true false rest
        ⟨after.payload,value ++ after.signature,true⟩
      | none =>
        let other :=
          if (ascii "gpgsig").isPrefixOf line then true
          else if otherSignature = true ∧ line.head? ≠ some space then false
          else otherSignature
        -- A blank line: the whole remainder is payload.
        if line.head? = some newline then
          ⟨if other then [] else (line :: rest).flatten,[],false⟩
        else
          let after := parseBuffer false other rest
          ⟨if other then after.payload else line ++ after.payload,after.signature,after.sawSignature⟩

def gitSplit (raw : Bytes) : Option (Bytes × Bytes) :=
  let buffer := parseBuffer false false (pieces raw)
  if buffer.sawSignature then some (buffer.payload,buffer.signature) else none

theorem gpgsigValue_strip (line : Bytes) : gpgsigValue line = stripPrefix (ascii "gpgsig ") line := by
  have split : ascii "gpgsig " = ascii "gpgsig" ++ [space] := by decide
  unfold gpgsigValue
  rw [split]
  unfold stripPrefix
  by_cases named : (ascii "gpgsig").isPrefixOf line = true
  · obtain ⟨value,rfl⟩ := List.isPrefixOf_iff_prefix.mp named
    rw [if_pos named,List.drop_left]
    cases value with
    | nil =>
      have short : ¬ (ascii "gpgsig" ++ [space]).isPrefixOf (ascii "gpgsig" ++ []) = true := by
        rw [List.isPrefixOf_iff_prefix,List.prefix_append_right_inj]
        exact fun longer => by simpa using longer.length_le
      rw [if_neg short]
    | cons c value =>
      by_cases spaced : c = space
      · subst c
        have full : (ascii "gpgsig" ++ [space]).isPrefixOf (ascii "gpgsig" ++ space :: value) = true := by
          rw [List.isPrefixOf_iff_prefix]
          exact ⟨value,by simp⟩
        rw [if_pos full]
        simp [List.drop_append]
      · have other : ¬ (ascii "gpgsig" ++ [space]).isPrefixOf (ascii "gpgsig" ++ c :: value) = true := by
          rw [List.isPrefixOf_iff_prefix,List.prefix_append_right_inj]
          intro spaced'
          simp only [List.cons_prefix_cons,List.nil_prefix,and_true] at spaced'
          exact spaced spaced'.symm
        rw [if_neg other]
        simp [spaced]
  · have other : ¬ (ascii "gpgsig" ++ [space]).isPrefixOf line = true := by
      rw [List.isPrefixOf_iff_prefix] at named ⊢
      exact fun longer => named ((List.prefix_append _ _).trans longer)
    rw [if_neg named,if_neg other]

theorem head_space (line : Bytes) : (line.head? = some space) ↔ [space].isPrefixOf line = true := by
  cases line with
  | nil => simp [List.isPrefixOf]
  | cons b line => simpa [List.isPrefixOf] using eq_comm

theorem strip_space (line : Bytes) :
    stripPrefix [space] line = if line.head? = some space then some line.tail else none := by
  simp only [stripPrefix,head_space]
  cases line <;> rfl

-- What one turn of the header loop does, by the four branches of the source.
theorem scan_continuation (head : line.head? = some space) : scanHeaders .signature (line :: rest) =
    ((scanHeaders .signature rest).1,line.tail :: (scanHeaders .signature rest).2) := by
  simp [scanHeaders,strip_space,head]

theorem scan_signature (other : ¬ (current = .signature ∧ line.head? = some space))
    (found : stripPrefix (ascii "gpgsig ") line = some first) : scanHeaders current (line :: rest) =
    ((scanHeaders .signature rest).1,first :: (scanHeaders .signature rest).2) := by
  have none : (if current = .signature then stripPrefix [space] line else none) = none := by
    by_cases open_ : current = .signature
    · rw [if_pos open_,strip_space,if_neg fun head => other ⟨open_,head⟩]
    · rw [if_neg open_]
  simp [scanHeaders,none,found]

theorem scan_other (other : ¬ (current = .signature ∧ line.head? = some space))
    (missing : stripPrefix (ascii "gpgsig ") line = none)
    (dropped : (ascii "gpgsig").isPrefixOf line = true ∨
      (current = .otherSignature ∧ line.head? = some space)) :
    scanHeaders current (line :: rest) = scanHeaders .otherSignature rest := by
  have none : (if current = .signature then stripPrefix [space] line else none) = none := by
    by_cases open_ : current = .signature
    · rw [if_pos open_,strip_space,if_neg fun head => other ⟨open_,head⟩]
    · rw [if_neg open_]
  rw [head_space] at dropped
  simp only [scanHeaders,none,missing,if_pos dropped]

theorem scan_kept (other : ¬ (current = .signature ∧ line.head? = some space))
    (missing : stripPrefix (ascii "gpgsig ") line = none)
    (kept : ¬ ((ascii "gpgsig").isPrefixOf line = true ∨
      (current = .otherSignature ∧ line.head? = some space))) : scanHeaders current (line :: rest) =
    (line :: (scanHeaders .kept rest).1,(scanHeaders .kept rest).2) := by
  have none : (if current = .signature then stripPrefix [space] line else none) = none := by
    by_cases open_ : current = .signature
    · rw [if_pos open_,strip_space,if_neg fun head => other ⟨open_,head⟩]
    · rw [if_neg open_]
  rw [head_space] at kept
  simp only [scanHeaders,none,missing,if_neg kept]

def endLines (ls : List Bytes) : Bytes := (ls.map (· ++ [newline])).flatten

theorem endLines_joinLines (more : ls ≠ []) : endLines ls = joinLines ls ++ [newline] := by
  induction ls with
  | nil => exact absurd rfl more
  | cons l ls ih =>
    cases ls with
    | nil => simp [endLines]
    | cons next ls =>
      have tail := ih (by simp)
      rw [joinLines_cons l (by simp),List.append_assoc,List.cons_append,← tail]
      simp [endLines]

-- The two scans, turn by turn: the state of one is the pair of flags of the
-- other, and git's buffers are the collected lines with their newlines.
theorem scans_agree (current : Header) (full : ∀ l ∈ ls, l ≠ []) (all : ∀ l ∈ ls, Line l) (after : List Bytes) :
    parseBuffer (current = .signature) (current = .otherSignature)
        (ls.map (· ++ [newline]) ++ [newline] :: after) =
      ⟨endLines (scanHeaders current ls).1 ++ newline :: after.flatten,
        endLines (scanHeaders current ls).2,!(scanHeaders current ls).2.isEmpty⟩ := by
  induction ls generalizing current with
  | nil =>
    have blank : gpgsigValue [newline] = none := by decide
    have unnamed : (ascii "gpgsig").isPrefixOf [newline] = false := by decide
    have unspaced : ([newline] : Bytes).head? ≠ some space := by decide
    rw [List.map_nil,List.nil_append,parseBuffer,if_neg fun flag => unspaced flag.2,blank]
    have differ : newline ≠ space := by decide
    cases current <;> simp [unnamed,differ,scanHeaders,endLines]
  | cons l ls ih =>
    have tailFull : ∀ l ∈ ls, l ≠ [] := fun l member => full l (List.mem_cons_of_mem _ member)
    have tailAll : ∀ l ∈ ls, Line l := fun l member => all l (List.mem_cons_of_mem _ member)
    have recur := fun current => ih current tailFull tailAll
    have head : (l ++ [newline]).head? = l.head? := by
      cases l with
      | nil => exact absurd rfl (full [] (by simp))
      | cons b l => rfl
    have inner : l.head? ≠ some newline := by
      intro same
      have member : newline ∈ l := List.mem_of_mem_head? same
      exact all l (by simp) member
    have tail : (l ++ [newline]).tail = l.tail ++ [newline] := by
      cases l with
      | nil => exact absurd rfl (full [] (by simp))
      | cons b l => rfl
    rw [List.map_cons,List.cons_append,parseBuffer,head]
    by_cases continued : current = .signature ∧ l.head? = some space
    · obtain ⟨rfl,spaced⟩ := continued
      have after := recur .signature
      simp only [decide_true,reduceCtorEq,decide_false] at after
      simp [scan_continuation spaced,spaced,after,tail,endLines]
    · have flag : ¬ (decide (current = .signature) = true ∧ l.head? = some space) := by
        simpa using continued
      rw [if_neg flag,gpgsigValue_strip,stripPrefix_newline (by decide)]
      cases found : stripPrefix (ascii "gpgsig ") l with
      | some first =>
        have after := recur .signature
        simp only [decide_true,reduceCtorEq,decide_false] at after
        simp [scan_signature continued found,after,endLines]
      | none =>
        simp only [Option.map_none,if_neg inner,prefix_newline (show newline ∉ ascii "gpgsig" by decide)]
        by_cases dropped : (ascii "gpgsig").isPrefixOf l = true ∨
            (current = .otherSignature ∧ l.head? = some space)
        · have after := recur .otherSignature
          simp only [decide_true,reduceCtorEq,decide_false] at after
          rw [scan_other continued found dropped]
          rcases dropped with named | ⟨rfl,spaced⟩
          · simp [named,after]
          · simp [spaced,after]
        · have after := recur .kept
          simp only [reduceCtorEq,decide_false] at after
          have flags : ((ascii "gpgsig").isPrefixOf l = true) = False ∧
              ¬ (decide (current = .otherSignature) = true ∧ l.head? = some space) := by
            simpa using dropped
          rw [scan_kept continued found dropped]
          by_cases open_ : current = .otherSignature
          · have spaced : l.head? ≠ some space := fun spaced => dropped (.inr ⟨open_,spaced⟩)
            simp [flags.1,open_,spaced,after,endLines]
          · simp [flags.1,open_,after,endLines]

def NamedSignature (l : Bytes) : Prop := (ascii "gpgsig").isPrefixOf l = true

instance : Decidable (NamedSignature l) := inferInstanceAs (Decidable (_ = true))

theorem signature_named (found : stripPrefix (ascii "gpgsig ") l = some first) : NamedSignature l := by
  rw [← gpgsigValue_strip] at found
  by_contra other
  have none : stripPrefix (ascii "gpgsig") l = none := if_neg other
  simp [gpgsigValue,none] at found

theorem named_unspaced (named : NamedSignature l) : l.head? ≠ some space := by
  intro spaced
  cases l with
  | nil => simp at spaced
  | cons b l =>
    obtain rfl : b = space := by simpa using spaced
    exact absurd named (by simp [NamedSignature,List.isPrefixOf,show ascii "gpgsig" = 103 :: ascii "pgsig" by decide,space])

-- Under an open header every line goes that is named like a signature or
-- continues one; the first ordinary line is kept.
theorem kept_nil_open (opened : current ≠ .kept) : (scanHeaders current ls).1 = [] ↔
    ∀ l ∈ ls, NamedSignature l ∨ l.head? = some space := by
  induction ls generalizing current with
  | nil => simp [scanHeaders]
  | cons l ls ih =>
    have signed : Header.signature ≠ .kept := by decide
    have othered : Header.otherSignature ≠ .kept := by decide
    rw [List.forall_mem_cons]
    by_cases continued : current = .signature ∧ l.head? = some space
    · obtain ⟨rfl,spaced⟩ := continued
      rw [scan_continuation spaced,ih signed]
      simp [spaced]
    · cases found : stripPrefix (ascii "gpgsig ") l with
      | some first =>
        rw [scan_signature continued found,ih signed]
        simp [signature_named found]
      | none =>
        by_cases dropped : (ascii "gpgsig").isPrefixOf l = true ∨
            (current = .otherSignature ∧ l.head? = some space)
        · rw [scan_other continued found dropped,ih othered]
          have gone : NamedSignature l ∨ l.head? = some space := dropped.imp id And.right
          simp [gone]
        · rw [scan_kept continued found dropped]
          have stays : ¬ (NamedSignature l ∨ l.head? = some space) := by
            rintro (named | spaced)
            · exact dropped (.inl named)
            · cases current with
              | signature => exact continued ⟨rfl,spaced⟩
              | otherSignature => exact dropped (.inr ⟨rfl,spaced⟩)
              | kept => exact opened rfl
          simp [stays]

theorem kept_nil (more : ls ≠ []) : (scanHeaders .kept ls).1 = [] ↔
    (∀ l ∈ ls.head?, NamedSignature l) ∧ ∀ l ∈ ls, NamedSignature l ∨ l.head? = some space := by
  cases ls with
  | nil => exact absurd rfl more
  | cons l ls =>
    have closed : ¬ (Header.kept = .signature ∧ l.head? = some space) := by simp
    rw [List.forall_mem_cons]
    cases found : stripPrefix (ascii "gpgsig ") l with
    | some first =>
      rw [scan_signature closed found,kept_nil_open (by decide)]
      simp [signature_named found]
    | none =>
      by_cases named : NamedSignature l
      · rw [scan_other closed found (.inl named),kept_nil_open (by decide)]
        simp [named]
      · rw [scan_kept closed found (by rintro (same | ⟨same,_⟩) <;> [exact named same; cases same])]
        simp [named]

theorem signature_nil (current : Header) (closed : current ≠ .signature) : (scanHeaders current ls).2 = [] ↔
    ∀ l ∈ ls, stripPrefix (ascii "gpgsig ") l = none := by
  induction ls generalizing current with
  | nil => simp [scanHeaders]
  | cons l ls ih =>
    have other : ¬ (current = .signature ∧ l.head? = some space) := fun both => closed both.1
    rw [List.forall_mem_cons]
    cases found : stripPrefix (ascii "gpgsig ") l with
    | some first => simp [scan_signature other found]
    | none =>
      by_cases dropped : (ascii "gpgsig").isPrefixOf l = true ∨
          (current = .otherSignature ∧ l.head? = some space)
      · rw [scan_other other found dropped,ih _ (by decide)]; simp
      · rw [scan_kept other found dropped]
        simpa using ih .kept (by decide)

-- A header block with nothing in it but signatures. No commit git writes has
-- one, since `tree` comes first; the splitter does not ask.
def OnlySignatures (headers : List Bytes) : Prop :=
  (∃ l ∈ headers, (ascii "gpgsig ").isPrefixOf l = true) ∧
    (∀ l ∈ headers.head?, NamedSignature l) ∧
    ∀ l ∈ headers, NamedSignature l ∨ l.head? = some space

theorem only_signatures (headers : Bytes) : OnlySignatures (lines headers) ↔
    (scanHeaders .kept (lines headers)).2 ≠ [] ∧ (scanHeaders .kept (lines headers)).1 = [] := by
  rw [Ne,signature_nil .kept (by decide),kept_nil (lines_ne_nil headers),OnlySignatures]
  simp [stripPrefix]

theorem split_cut (utf8 : isUtf8 raw = true) (cut : splitBlank raw = some (headers,body)) :
    splitSignedCommit raw = .ok (if (scanHeaders .kept (lines headers)).2 = [] then none else
      some (joinLines (scanHeaders .kept (lines headers)).1 ++ ascii "\n\n" ++ body,
        endLines (scanHeaders .kept (lines headers)).2)) := by
  simp only [splitSignedCommit,utf8,cut,if_true]
  split
  · rename_i empty; rw [if_pos (List.isEmpty_iff.mp empty)]
  · rename_i some
    rw [List.isEmpty_iff] at some
    rw [if_neg some,endLines_joinLines some]

theorem git_cut (cut : splitBlank raw = some (headers,body)) (start : raw.head? ≠ some newline) :
    gitSplit raw = if (scanHeaders .kept (lines headers)).2 = [] then none else
      some (endLines (scanHeaders .kept (lines headers)).1 ++ newline :: body,
        endLines (scanHeaders .kept (lines headers)).2) := by
  have shape : pieces raw = (lines headers).map (· ++ [newline]) ++ [newline] :: pieces body := by
    rw [splitBlank_sound cut]
    conv_lhs => rw [← joinLines_lines headers]
    rw [pieces_joinLines (lines_are_lines headers) (lines_ne_nil headers)]
    simp [pieces]
  have agree := scans_agree .kept (splitBlank_lines cut start) (lines_are_lines headers)
    (pieces body)
  simp only [reduceCtorEq,decide_false] at agree
  simp only [gitSplit,shape,agree,pieces_flatten]
  by_cases empty : (scanHeaders .kept (lines headers)).2 = [] <;> simp [empty]

theorem split_exact (utf8 : isUtf8 raw = true) (cut : splitBlank raw = some (headers,body))
    (start : raw.head? ≠ some newline) :
    splitSignedCommit raw = .ok (gitSplit raw) ↔ ¬ OnlySignatures (lines headers) := by
  rw [split_cut utf8 cut,git_cut cut start,only_signatures]
  by_cases empty : (scanHeaders .kept (lines headers)).2 = []
  · simp [empty]
  · have blank : ascii "\n\n" = [newline,newline] := by decide
    by_cases bare : (scanHeaders .kept (lines headers)).1 = []
    · simp [empty,bare,blank,endLines,joinLines]
    · simp [empty,bare,blank,endLines_joinLines bare]

-- A commit object from its header lines.
def object (headers : List Bytes) (message : Bytes) : Bytes :=
  joinLines headers ++ newline :: newline :: message

-- The next line starts a header of its own, so what stands before it does not
-- take it for a continuation.
def HeaderStart (ls : List Bytes) : Prop := ∀ next ∈ ls.head?, next.head? ≠ some space

-- Header lines with signature blocks put in where a header may start: one
-- `gpgsig` block (the armor) and any number of others that share its prefix.
inductive Woven : List Bytes → Option (List Bytes) → List Bytes → Prop where
  | nil : Woven [] none []
  | header : Woven original armor woven → Woven (l :: original) armor (l :: woven)
  | gpgsig {first : Bytes} {more : List Bytes} : Woven original none woven → HeaderStart woven →
      Woven original (some (first :: more))
        ((ascii "gpgsig " ++ first) :: more.map (space :: ·) ++ woven)
  | other {name : Bytes} {more : List Bytes} : Woven original armor woven → HeaderStart woven →
      NamedSignature name → stripPrefix (ascii "gpgsig ") name = none →
      (∀ l ∈ name :: more, Line l) →
      Woven original armor (name :: more.map (space :: ·) ++ woven)

theorem scan_continued (more : List Bytes) (ls : List Bytes) :
    scanHeaders .signature (more.map (space :: ·) ++ ls) =
      ((scanHeaders .signature ls).1,more ++ (scanHeaders .signature ls).2) := by
  induction more with
  | nil => rfl
  | cons l more ih => rw [List.map_cons,List.cons_append,scan_continuation rfl,ih]; rfl

theorem unnamed_unsigned (other : ¬ NamedSignature l) : stripPrefix (ascii "gpgsig ") l = none := by
  by_contra some
  obtain ⟨first,found⟩ := Option.ne_none_iff_exists'.mp some
  exact other (signature_named found)

theorem scan_other_continued (more : List Bytes) (ls : List Bytes) :
    scanHeaders .otherSignature (more.map (space :: ·) ++ ls) = scanHeaders .otherSignature ls := by
  induction more with
  | nil => rfl
  | cons l more ih =>
    have unnamed := unnamed_unsigned fun named => named_unspaced (l := space :: l) named rfl
    rw [List.map_cons,List.cons_append,scan_other (by simp) unnamed (.inr ⟨rfl,rfl⟩),ih]

-- The scan takes the blocks out again, whatever header it comes from, as long
-- as no original line continues that header.
theorem scan_woven (woven : Woven original armor ls) (plain : ∀ l ∈ original, ¬ NamedSignature l)
    (start : current = .kept ∨ HeaderStart ls) :
    scanHeaders current ls = (original,armor.getD []) := by
  induction woven generalizing current with
  | nil => simp [scanHeaders]
  | @header original armor woven l inner ih =>
    have stays := plain l (by simp)
    have fresh : current = .kept ∨ l.head? ≠ some space := start.imp id fun head => head l (by simp)
    have kept : ¬ ((ascii "gpgsig").isPrefixOf l = true ∨
        (current = .otherSignature ∧ l.head? = some space)) := by
      rintro (named | ⟨rfl,spaced⟩)
      · exact stays named
      · exact fresh.elim (by simp) fun other => other spaced
    have closed : ¬ (current = .signature ∧ l.head? = some space) := by
      rintro ⟨rfl,spaced⟩
      exact fresh.elim (by simp) fun other => other spaced
    rw [scan_kept closed (unnamed_unsigned stays) kept,
      ih (fun l member => plain l (List.mem_cons_of_mem _ member)) (.inl rfl)]
  | @gpgsig original woven first more inner boundary ih =>
    have found := stripPrefix_append (ascii "gpgsig ") first
    have unspaced := named_unspaced (signature_named found)
    rw [List.cons_append,scan_signature (fun both => unspaced both.2) found,scan_continued,
      ih plain (.inr boundary)]
    simp
  | @other original armor woven name more inner boundary named unsigned broken ih =>
    have unspaced := named_unspaced named
    rw [List.cons_append,scan_other (fun both => unspaced both.2) unsigned (.inl named),
      scan_other_continued,ih plain (.inr boundary)]

theorem named_full (named : NamedSignature l) : l ≠ [] := by
  rintro rfl
  exact absurd named (by decide)

theorem spaced_line (line : Line l) : Line (space :: l) := by
  simpa [Line,newline,space] using line

theorem woven_lines (woven : Woven original armor ls)
    (whole : ∀ l ∈ original, l ≠ [] ∧ Line l) (armored : ∀ l ∈ armor.getD [], Line l) :
    ∀ l ∈ ls, l ≠ [] ∧ Line l := by
  induction woven with
  | nil => simp
  | header inner ih =>
    rw [List.forall_mem_cons] at whole ⊢
    exact ⟨whole.1,ih whole.2 armored⟩
  | @gpgsig original woven first more inner boundary ih =>
    simp only [Option.getD_some,List.forall_mem_cons] at armored
    have name : Line (ascii "gpgsig " ++ first) := by
      have plain : newline ∉ ascii "gpgsig " := by decide
      simpa [Line,plain] using armored.1
    intro l member
    rcases List.mem_append.mp member with block | rest
    · rcases List.mem_cons.mp block with rfl | continued
      · exact ⟨named_full (signature_named (stripPrefix_append _ first)),name⟩
      · obtain ⟨text,inside,rfl⟩ := List.mem_map.mp continued
        exact ⟨List.cons_ne_nil _ _,spaced_line (armored.2 text inside)⟩
    · exact ih whole (by simp) l rest
  | @other original armor woven name more inner boundary named unsigned broken ih =>
    intro l member
    rcases List.mem_append.mp member with block | rest
    · rcases List.mem_cons.mp block with rfl | continued
      · exact ⟨named_full named,broken _ (by simp)⟩
      · obtain ⟨text,inside,rfl⟩ := List.mem_map.mp continued
        exact ⟨List.cons_ne_nil _ _,spaced_line (broken text (List.mem_cons_of_mem _ inside))⟩
    · exact ih whole armored l rest

theorem woven_more (woven : Woven original armor ls) (more : original ≠ []) : ls ≠ [] := by
  cases woven with
  | nil => exact absurd rfl more
  | header inner => simp
  | gpgsig inner boundary => simp
  | other inner boundary named unsigned broken => simp

theorem woven_armor (woven : Woven original (some armor) ls) : armor ≠ [] := by
  generalize same : some armor = block at woven
  induction woven with
  | nil => cases same
  | header inner ih => exact ih same
  | gpgsig inner boundary => cases same; simp
  | other inner boundary named unsigned broken ih => exact ih same

theorem object_cut (whole : ∀ l ∈ ls, l ≠ [] ∧ Line l) (more : ls ≠ []) (message : Bytes) :
    splitBlank (object ls message) = some (joinLines ls,message) :=
  splitBlank_joinLines (fun l member => (whole l member).1) (fun l member => (whole l member).2) more
    message

theorem split_woven (woven : Woven original (some armor) ls) (more : original ≠ [])
    (whole : ∀ l ∈ original, l ≠ [] ∧ Line l) (plain : ∀ l ∈ original, ¬ NamedSignature l)
    (armored : ∀ l ∈ armor, Line l) (utf8 : isUtf8 (object ls message) = true) :
    splitSignedCommit (object ls message) = .ok (some (object original message,endLines armor)) := by
  have parts := woven_lines woven whole armored
  have some := woven_more woven more
  rw [split_cut utf8 (object_cut parts some message),
    lines_joinLines (fun l member => (parts l member).2) some,
    scan_woven woven plain (.inl rfl)]
  simp [woven_armor woven,object,show ascii "\n\n" = [newline,newline] by decide]

-- The message goes to the payload whole, and another message under the same
-- headers leaves the same signature.
theorem split_message (utf8 : isUtf8 raw = true) (start : raw.head? ≠ some newline)
    (cut : splitBlank raw = some (headers,message))
    (signed : splitSignedCommit raw = .ok (some (payload,armor))) :
    ∃ kept, payload = kept ++ ascii "\n\n" ++ message ∧
      ∀ other, isUtf8 (headers ++ ascii "\n\n" ++ other) = true →
        splitSignedCommit (headers ++ ascii "\n\n" ++ other) =
          .ok (some (kept ++ ascii "\n\n" ++ other,armor)) := by
  rw [split_cut utf8 cut] at signed
  by_cases empty : (scanHeaders .kept (lines headers)).2 = []
  · simp [empty] at signed
  · rw [if_neg empty] at signed
    cases Option.some.inj (Except.ok.inj signed)
    refine ⟨_,rfl,fun other valid => ?_⟩
    have parts : splitBlank (headers ++ ascii "\n\n" ++ other) = some (headers,other) := by
      have again := splitBlank_joinLines (splitBlank_lines cut start) (lines_are_lines headers)
        (lines_ne_nil headers) other
      rw [joinLines_lines] at again
      simpa [show ascii "\n\n" = [newline,newline] by decide] using again
    rw [split_cut valid parts,if_neg empty]

-- `resign_commit` (vgi-bridge, resign.rs): the block goes after the last header.
def signedObject (headers : List Bytes) (armored : List Bytes) (message : Bytes) : Bytes :=
  joinLines headers ++ newline :: joinLines
    (match armored with
      | [] => [ascii "gpgsig"]
      | first :: more => (ascii "gpgsig " ++ first) :: more.map (space :: ·)) ++
    newline :: newline :: message

theorem woven_last (headers : List Bytes) (first : Bytes) (more : List Bytes) :
    Woven headers (some (first :: more))
      (headers ++ (ascii "gpgsig " ++ first) :: more.map (space :: ·)) := by
  induction headers with
  | nil =>
    have block : Woven [] (some (first :: more))
        ((ascii "gpgsig " ++ first) :: more.map (space :: ·) ++ []) := .gpgsig .nil (by simp [HeaderStart])
    simpa using block
  | cons l headers ih => exact .header ih

theorem split_signed_commit_exact (raw : Bytes) :
    (∀ headers body, isUtf8 raw = true → raw.head? ≠ some newline →
      splitBlank raw = some (headers,body) →
      (splitSignedCommit raw = .ok (gitSplit raw) ↔ ¬ OnlySignatures (lines headers))) ∧
    (∀ original armor woven message, Woven original (some armor) woven → original ≠ [] →
      (∀ l ∈ original, l ≠ [] ∧ Line l) → (∀ l ∈ original, ¬ NamedSignature l) →
      (∀ l ∈ armor, Line l) → isUtf8 (object woven message) = true →
      splitSignedCommit (object woven message) =
        .ok (some (object original message,endLines armor))) ∧
    (∀ headers body payload armor, isUtf8 raw = true → raw.head? ≠ some newline →
      splitBlank raw = some (headers,body) →
      splitSignedCommit raw = .ok (some (payload,armor)) →
      ∃ kept, payload = kept ++ ascii "\n\n" ++ body ∧
        ∀ other, isUtf8 (headers ++ ascii "\n\n" ++ other) = true →
          splitSignedCommit (headers ++ ascii "\n\n" ++ other) =
            .ok (some (kept ++ ascii "\n\n" ++ other,armor))) :=
  ⟨fun _ _ utf8 start cut => split_exact utf8 cut start,
    fun _ _ _ _ woven more whole plain armored utf8 => split_woven woven more whole plain armored utf8,
    fun _ _ _ _ utf8 start cut signed => split_message utf8 start cut signed⟩

theorem split_signed_commit_sample :
    splitSignedCommit (ascii "tree t\ngpgsig a\n b\n\nm") = .ok (gitSplit (ascii "tree t\ngpgsig a\n b\n\nm")) ∧
    splitSignedCommit (object [ascii "tree t",ascii "gpgsig a",ascii " b"] (ascii "m")) =
      .ok (some (object [ascii "tree t"] (ascii "m"),endLines [ascii "a",ascii "b"])) ∧
    ∃ kept, ascii "tree t\n\nm" = kept ++ ascii "\n\n" ++ ascii "m" := by
  refine ⟨?_,?_,?_⟩
  · refine ((split_signed_commit_exact _).1 (ascii "tree t\ngpgsig a\n b") (ascii "m") (by decide)
      (by decide) (by decide)).mpr ?_
    intro only
    exact absurd (only.2.1 (ascii "tree t") (by decide)) (by decide)
  · exact (split_signed_commit_exact []).2.1 _ _ _ _
      (woven_last [ascii "tree t"] (ascii "a") [ascii "b"]) (by decide) (by decide)
      (by decide) (by decide) (by decide)
  · obtain ⟨kept,same,_⟩ := (split_signed_commit_exact (ascii "tree t\ngpgsig a\n b\n\nm")).2.2
      (ascii "tree t\ngpgsig a\n b") (ascii "m") (ascii "tree t\n\nm") (ascii "a\nb\n") (by decide)
      (by decide) (by decide) (by decide)
    exact ⟨kept,same⟩

-- With nothing but signatures in the header the separator keeps a newline that
-- git takes with the last of them.
theorem split_only_signatures :
    isUtf8 (ascii "gpgsig x\n\nbody") = true ∧ (ascii "gpgsig x\n\nbody").head? ≠ some newline ∧
      splitBlank (ascii "gpgsig x\n\nbody") = some (ascii "gpgsig x",ascii "body") ∧
      splitSignedCommit (ascii "gpgsig x\n\nbody") = .ok (some (ascii "\n\nbody",ascii "x\n")) ∧
      gitSplit (ascii "gpgsig x\n\nbody") = some (ascii "\nbody",ascii "x\n") ∧
      splitSignedCommit (ascii "gpgsig x\n\nbody") ≠ .ok (gitSplit (ascii "gpgsig x\n\nbody")) := by
  decide

end VerifiableGit.Commit
