import VerifiableGit.Qualified.Resource

-- The grammar of a resource, and that the check accepts it and nothing else.
namespace VerifiableGit.Qualified

structure Label (l : Str) : Prop where
  nonempty : l ≠ []
  short : l.length ≤ 63
  first : l.head? ≠ some '-'
  last : l.getLast? ≠ some '-'
  plain : ∀ c ∈ l, isLabelChar c = true

-- `localhost`, or a name of at least two labels.
inductive Host : Str → Prop
  | localhost : Host (text "localhost")
  | dotted (labels : List Str) (two : 2 ≤ labels.length) (each : ∀ l ∈ labels, Label l)
      (short : (['.'].intercalate labels).length ≤ 253) : Host (['.'].intercalate labels)

structure Segment (s : Str) : Prop where
  nonempty : s ≠ []
  named : s ≠ text "." ∧ s ≠ text ".."
  plain : ∀ c ∈ s, isSegmentChar c = true

structure Grammar (depth : Nat) (s : Str) : Prop where
  ascii : ∀ c ∈ s, c.toNat < 128
  short : byteLength s ≤ 512
  parts : ∃ host path, Host host ∧ path ≠ [] ∧ path.length ≤ depth ∧ (∀ segment ∈ path, Segment segment) ∧
    s = ['/'].intercalate (host :: path)

theorem splitOnce_parts {mark s before after : Str} (cut : splitOnce mark s = some (before,after)) :
    s = before ++ mark ++ after := by
  induction s generalizing before with
  | nil =>
    unfold splitOnce at cut
    split at cut
    · rename_i none_
      cases cut
      simpa using none_
    · cases cut
  | cons c rest ih =>
    unfold splitOnce at cut
    split at cut
    · rename_i here
      cases cut
      obtain ⟨tail,same⟩ := List.isPrefixOf_iff_prefix.mp here
      rw [← same,List.drop_left]
      rfl
    · obtain ⟨parts,found,same⟩ := Option.map_eq_some_iff.mp cut
      cases same
      rw [ih found]
      rfl

-- A text without one of the characters of the mark does not contain it.
theorem contains_absent {mark s : Str} (member : c ∈ mark) (absent : c ∉ s) : splitOnce mark s = none := by
  cases cut : splitOnce mark s with
  | none => rfl
  | some parts =>
    refine absurd ?_ absent
    rw [splitOnce_parts cut]
    exact List.mem_append_left _ (List.mem_append_right _ member)

/-! Characters -/

theorem lower_cases (c : Char) : (65 ≤ c.toNat ∧ c.toNat ≤ 90 ∧ c.toLower.toNat = c.toNat + 32) ∨ c.toLower = c := by
  unfold Char.toLower
  split
  · rename_i upper
    simp only [UInt32.le_iff_toNat_le,Char.reduceVal,UInt32.reduceToNat,ge_iff_le] at upper
    have low : 65 ≤ c.toNat := upper.1
    have high : c.toNat ≤ 90 := upper.2
    refine .inl ⟨low,high,?_⟩
    show (c.val + 32).toNat = c.val.toNat + 32
    rw [UInt32.toNat_add]
    exact Nat.mod_eq_of_lt (by show c.toNat + 32 < 2 ^ 32; omega)
  · exact .inr rfl

theorem isLower_nat (c : Char) : c.isLower = true ↔ 97 ≤ c.toNat ∧ c.toNat ≤ 122 := by
  have lower : c.isLower = (decide (c.val ≥ 'a'.val) && decide (c.val ≤ 'z'.val)) := rfl
  simp only [lower,Bool.and_eq_true,decide_eq_true_eq,ge_iff_le,UInt32.le_iff_toNat_le]
  exact Iff.rfl

theorem isDigit_nat (c : Char) : c.isDigit = true ↔ 48 ≤ c.toNat ∧ c.toNat ≤ 57 := by
  simp only [Char.isDigit,Bool.and_eq_true,decide_eq_true_eq,ge_iff_le,UInt32.le_iff_toNat_le]
  exact Iff.rfl

theorem char_nat (c d : Char) : c = d ↔ c.toNat = d.toNat := Char.toNat_inj.symm

theorem segmentChar_nat (c : Char) : isSegmentChar c = true ↔ (97 ≤ c.toNat ∧ c.toNat ≤ 122) ∨
    (48 ≤ c.toNat ∧ c.toNat ≤ 57) ∨ c.toNat = 46 ∨ c.toNat = 95 ∨ c.toNat = 45 := by
  simp only [isSegmentChar,Bool.or_eq_true,decide_eq_true_eq,isLower_nat,isDigit_nat,char_nat,or_assoc]
  exact Iff.rfl

theorem labelChar_nat (c : Char) : isLabelChar c = true ↔ (97 ≤ c.toNat ∧ c.toNat ≤ 122) ∨
    (48 ≤ c.toNat ∧ c.toNat ≤ 57) ∨ c.toNat = 45 := by
  simp only [isLabelChar,Bool.or_eq_true,decide_eq_true_eq,isLower_nat,isDigit_nat,char_nat,or_assoc]
  exact Iff.rfl

theorem label_segment (c : Char) (plain : isLabelChar c = true) : isSegmentChar c = true := by
  rw [labelChar_nat] at plain
  rw [segmentChar_nat]
  omega

-- A character of a normalised text.
def Plain (c : Char) : Prop := isSegmentChar c = true ∨ c = '/'

theorem plain_nat (c : Char) : Plain c ↔ (97 ≤ c.toNat ∧ c.toNat ≤ 122) ∨ (45 ≤ c.toNat ∧ c.toNat ≤ 57) ∨
    c.toNat = 95 := by
  rw [Plain,segmentChar_nat,char_nat]
  have slash : '/'.toNat = 47 := rfl
  omega

theorem plain_printed (c : Char) (plain : Plain c.toLower) : 45 ≤ c.toNat ∧ c.toNat ≤ 122 ∧ c.toNat ≠ 58 := by
  rw [plain_nat] at plain
  rcases lower_cases c with ⟨low,high,same⟩ | same
  · omega
  · rw [same] at plain
    omega

theorem printed_visible (c : Char) (low : 33 ≤ c.toNat) (high : c.toNat < 127) :
    isWhitespace c = false ∧ isControl c = false := by
  constructor
  · simp only [isWhitespace,Bool.or_eq_false_iff,Bool.and_eq_false_iff,decide_eq_false_iff_not]
    omega
  · simp only [isControl,Bool.or_eq_false_iff,Bool.and_eq_false_iff,decide_eq_false_iff_not]
    omega

theorem lower_plain (c : Char) (plain : Plain c) : c.toLower = c := by
  rw [plain_nat] at plain
  rcases lower_cases c with ⟨low,high,_⟩ | same
  · omega
  · exact same

theorem utf8Size_ascii (c : Char) (ascii : c.toNat < 128) : c.utf8Size = 1 :=
  Char.utf8Size_eq_one_iff.mpr (UInt32.le_iff_toNat_le.mpr (Nat.le_of_lt_succ ascii))

theorem byteLength_ascii (s : Str) (ascii : ∀ c ∈ s, c.toNat < 128) : byteLength s = s.length := by
  unfold byteLength
  induction s with
  | nil => rfl
  | cons c rest ih =>
    rw [List.map_cons,List.sum_cons,utf8Size_ascii c (ascii c List.mem_cons_self),
      ih fun d member => ascii d (List.mem_cons_of_mem c member),List.length_cons,Nat.add_comm]

theorem byteLength_lower (s : Str) : byteLength (lower s) = byteLength s := by
  unfold byteLength lower
  rw [List.map_map]
  congr 1
  refine List.map_congr_left fun c _ => ?_
  rcases lower_cases c with ⟨low,high,same⟩ | same
  · rw [Function.comp,utf8Size_ascii _ (by omega),utf8Size_ascii _ (by omega)]
  · rw [Function.comp,same]

theorem ascii_lower (s : Str) : (∀ c ∈ lower s, c.toNat < 128) ↔ ∀ c ∈ s, c.toNat < 128 := by
  unfold lower
  rw [List.forall_mem_map]
  refine forall₂_congr fun c _ => ?_
  rcases lower_cases c with ⟨low,high,same⟩ | same
  · omega
  · rw [same]

theorem mem_intercalate {mark : Char} {parts : List Str} (member : c ∈ [mark].intercalate parts) :
    c = mark ∨ ∃ part ∈ parts, c ∈ part := by
  induction parts with
  | nil => cases member
  | cons part rest ih =>
    cases rest with
    | nil => exact .inr ⟨part,List.mem_cons_self,by simpa using member⟩
    | cons next rest =>
      rw [List.intercalate_cons_cons] at member
      rcases List.mem_append.mp member with first | later
      · rcases List.mem_append.mp first with first | first
        · exact .inr ⟨part,List.mem_cons_self,first⟩
        · exact .inl (List.mem_singleton.mp first)
      · rcases ih later with same | ⟨part,inside,here⟩
        · exact .inl same
        · exact .inr ⟨part,List.mem_cons_of_mem _ inside,here⟩

/-! The three checks -/

theorem text_ok (raw : Str) (nonempty : raw ≠ []) (short : byteLength raw ≤ 512)
    (plain : ∀ c ∈ raw, Plain c.toLower) : checkText raw = .ok () := by
  have printed (c : Char) (member : c ∈ raw) := plain_printed c (plain c member)
  have visible (c : Char) (member : c ∈ raw) : isWhitespace c = false ∧ isControl c = false := by
    obtain ⟨low,high,_⟩ := printed c member
    exact printed_visible c (by omega) (by omega)
  have some_ : raw.all isWhitespace = false := by
    obtain ⟨c,rest,rfl⟩ := List.exists_cons_of_ne_nil nonempty
    rw [List.all_cons,(visible c List.mem_cons_self).1,Bool.false_and]
  have fits : ¬maxResourceLen < byteLength raw := Nat.not_lt.mpr short
  have none_ : (raw.any fun c => isWhitespace c || isControl c) = false := by
    refine List.any_eq_false.mpr fun c member => ?_
    rw [(visible c member).1,(visible c member).2]
    exact Bool.false_ne_true
  have ascii : isAscii raw = true := by
    refine List.all_eq_true.mpr fun c member => decide_eq_true ?_
    obtain ⟨_,high,_⟩ := printed c member
    omega
  have bare : contains (text "://") raw = false := by
    have absent : ':' ∉ raw := fun member => (printed _ member).2.2 rfl
    rw [contains,contains_absent (by decide) absent]
    rfl
  simp only [checkText,some_,fits,none_,ascii,bare,Bool.false_eq_true,if_false,Bool.not_true]

theorem text_sound (raw : Str) (ok : checkText raw = .ok ()) : byteLength raw ≤ 512 ∧ ∀ c ∈ raw, c.toNat < 128 := by
  unfold checkText at ok
  split at ok
  · cases ok
  · split at ok
    · cases ok
    · rename_i fits
      split at ok
      · cases ok
      · split at ok
        · cases ok
        · rename_i ascii
          refine ⟨Nat.le_of_not_lt fits,fun c member => ?_⟩
          have all : isAscii raw = true := by simpa using ascii
          exact of_decide_eq_true (List.all_eq_true.mp all c member)

theorem label_exact (l : Str) : isValidLabel l = true ↔ Label l := by
  have count (plain : ∀ c ∈ l, isLabelChar c = true) : byteLength l = l.length := by
    refine byteLength_ascii l fun c member => ?_
    have bounds := (labelChar_nat c).mp (plain c member)
    omega
  simp only [isValidLabel,Bool.and_eq_true,Bool.not_eq_true',List.isEmpty_eq_false_iff,decide_eq_true_eq,
    List.all_eq_true]
  constructor
  · rintro ⟨⟨⟨⟨nonempty,short⟩,first⟩,last⟩,plain⟩
    exact ⟨nonempty,count plain ▸ short,first,last,plain⟩
  · rintro ⟨nonempty,short,first,last,plain⟩
    exact ⟨⟨⟨⟨nonempty,(count plain).symm ▸ short⟩,first⟩,last⟩,plain⟩

theorem label_dotless (label : Label l) : '.' ∉ l := by
  intro member
  have plain := label.plain '.' member
  exact absurd plain (by decide)

theorem dotted_plain {labels : List Str} (each : ∀ l ∈ labels, Label l) (c : Char)
    (member : c ∈ ['.'].intercalate labels) : isSegmentChar c = true := by
  rcases mem_intercalate member with rfl | ⟨l,inside,here⟩
  · rfl
  · exact label_segment c ((each l inside).plain c here)

theorem host_plain (named : Host host) (c : Char) (member : c ∈ host) : isSegmentChar c = true := by
  cases named with
  | localhost =>
    have all : (text "localhost").all isSegmentChar = true := by decide
    exact List.all_eq_true.mp all c member
  | dotted labels two each short => exact dotted_plain each c member

theorem segment_ascii (s : Str) (plain : ∀ c ∈ s, isSegmentChar c = true) : byteLength s = s.length := by
  refine byteLength_ascii s fun c member => ?_
  have bounds := (segmentChar_nat c).mp (plain c member)
  omega

theorem two_labels (host : Str) (dotted : '.' ∈ host) : 2 ≤ (host.splitOn '.').length := by
  obtain ⟨before,after,rfl⟩ := List.append_of_mem dotted
  rw [List.splitOn_append_cons_self,List.length_append]
  have left := List.length_pos_iff.mpr (List.splitOn_ne_nil '.' before)
  have right := List.length_pos_iff.mpr (List.splitOn_ne_nil '.' after)
  omega

theorem dotted_mem {labels : List Str} (two : 2 ≤ labels.length) : '.' ∈ ['.'].intercalate labels := by
  rcases labels with _ | ⟨first,_ | ⟨second,rest⟩⟩
  · cases two
  · exact absurd two (by simp)
  · rw [List.intercalate_cons_cons]
    simp

theorem host_exact (host : Str) (next : Option Str) : checkHost host next = .ok () ↔ Host host := by
  constructor
  · intro ok
    unfold checkHost at ok
    split at ok
    · cases ok
    · split at ok
      · cases ok
      · split at ok
        · cases ok
        · rename_i looks
          split at ok
          · cases ok
          · rename_i valid
            have named : looksLikeHost host = true := by simpa using looks
            have right : isValidHost host = true := by simpa using valid
            rw [looksLikeHost,Bool.or_eq_true,decide_eq_true_eq,List.contains_iff_mem] at named
            rcases named with dotted | rfl
            · rw [isValidHost,Bool.and_eq_true,decide_eq_true_eq,List.all_eq_true] at right
              have each : ∀ l ∈ host.splitOn '.', Label l := fun l member => (label_exact l).mp (right.2 l member)
              have parts : ['.'].intercalate (host.splitOn '.') = host := List.intercalate_splitOn '.'
              have plain := dotted_plain each
              rw [← parts]
              refine .dotted _ (two_labels host dotted) each ?_
              rw [← segment_ascii _ plain,parts]
              exact right.1
            · exact .localhost
  · intro named
    have colon : ':' ∉ host := fun member => absurd (host_plain named _ member) (by decide)
    have uncut : splitOnce [':'] host = none := contains_absent (List.mem_singleton_self ':') colon
    cases named with
    | localhost => rfl
    | dotted labels two each short =>
      have dot := dotted_mem two
      have nonempty : ['.'].intercalate labels ≠ [] := List.ne_nil_of_mem dot
      have looks : looksLikeHost (['.'].intercalate labels) = true := by
        rw [looksLikeHost,List.contains_iff_mem.mpr dot,Bool.true_or]
      have some_ : labels ≠ [] := by
        rintro rfl
        cases two
      have back : (['.'].intercalate labels).splitOn '.' = labels :=
        List.splitOn_intercalate '.' (fun l member => label_dotless (each l member)) some_
      have valid : isValidHost (['.'].intercalate labels) = true := by
        rw [isValidHost,back,segment_ascii _ (dotted_plain each),Bool.and_eq_true,decide_eq_true_eq,List.all_eq_true]
        exact ⟨short,fun l member => (label_exact l).mpr (each l member)⟩
      rw [checkHost,if_neg nonempty,uncut]
      simp only [looks,valid,Bool.not_true,Bool.false_eq_true,if_false]

theorem path_exact (path : List Str) (depth : Nat) : checkPath path depth = .ok () ↔
    path ≠ [] ∧ path.length ≤ depth ∧ ∀ s ∈ path, Segment s := by
  constructor
  · intro ok
    unfold checkPath at ok
    split at ok
    · cases ok
    · rename_i owner
      split at ok
      · cases ok
      · rename_i full
        split at ok
        · cases ok
        · rename_i named
          split at ok
          · cases ok
          · rename_i plain
            split at ok
            · cases ok
            · rename_i short
              refine ⟨fun none_ => owner (.inl none_),Nat.le_of_not_lt short,fun s member => ⟨?_,?_,fun c here => ?_⟩⟩
              · rintro rfl
                exact full (List.any_eq_true.mpr ⟨[],member,decide_eq_true rfl⟩)
              · constructor
                · rintro rfl
                  exact named (List.any_eq_true.mpr ⟨_,member,rfl⟩)
                · rintro rfl
                  exact named (List.any_eq_true.mpr ⟨_,member,rfl⟩)
              · have fine := List.find?_eq_none.mp plain c (List.mem_flatten.mpr ⟨s,member,here⟩)
                simpa using fine
  · rintro ⟨some_,short,each⟩
    have owner : ¬(path = [] ∨ path = [[]]) := by
      rintro (none_ | rfl)
      · exact some_ none_
      · exact (each [] (List.mem_singleton_self [])).nonempty rfl
    have full : path.any (· = []) = false := List.any_eq_false.mpr fun s member empty =>
      (each s member).nonempty (of_decide_eq_true empty)
    have named : (path.any fun s => s = text "." || s = text "..") = false := by
      refine List.any_eq_false.mpr fun s member dots => ?_
      rw [Bool.or_eq_true,decide_eq_true_eq,decide_eq_true_eq] at dots
      exact dots.elim (each s member).named.1 (each s member).named.2
    have plain : (path.flatten.find? fun c => !isSegmentChar c) = none := by
      refine List.find?_eq_none.mpr fun c member => ?_
      obtain ⟨s,inside,here⟩ := List.mem_flatten.mp member
      rw [(each s inside).plain c here]
      exact Bool.false_ne_true
    rw [checkPath,if_neg owner,full,named,plain]
    simp only [Bool.false_eq_true,if_false,if_neg (Nat.not_lt.mpr short)]

/-! The whole -/

theorem grammar_plain (grammar : Grammar depth s) (c : Char) (member : c ∈ s) : Plain c := by
  obtain ⟨host,path,named,_,_,each,rfl⟩ := grammar.parts
  rcases mem_intercalate member with slash | ⟨part,inside,here⟩
  · exact .inr slash
  · rcases List.mem_cons.mp inside with rfl | inside
    · exact .inl (host_plain named c here)
    · exact .inl ((each part inside).plain c here)

theorem grammar_nonempty (grammar : Grammar depth s) : s ≠ [] := by
  obtain ⟨host,path,named,some_,_,_,rfl⟩ := grammar.parts
  obtain ⟨first,rest,rfl⟩ := List.exists_cons_of_ne_nil some_
  rw [List.intercalate_cons_cons]
  simp

theorem slashless {part : Str} (plain : ∀ c ∈ part, isSegmentChar c = true) : '/' ∉ part :=
  fun member => absurd (plain '/' member) (by decide)

theorem split_parts {host : Str} {path : List Str} (named : Host host) (each : ∀ s ∈ path, Segment s) :
    (['/'].intercalate (host :: path)).splitOn '/' = host :: path := by
  refine List.splitOn_intercalate '/' (fun part member => ?_) (List.cons_ne_nil host path)
  rcases List.mem_cons.mp member with rfl | inside
  · exact slashless (host_plain named)
  · exact slashless (each part inside).plain

theorem check_then {first : Except ε Unit} {rest : Unit → Except ε α} :
    (first >>= rest) = .ok a ↔ first = .ok () ∧ rest () = .ok a := by
  cases first with
  | error e => exact ⟨fun ok => (nomatch ok),fun both => (nomatch both.1)⟩
  | ok _ => exact ⟨fun ok => ⟨rfl,ok⟩,fun both => both.2⟩

theorem checked_ok (raw : Str) (depth : Nat) (c : Str) : checked raw depth = .ok c ↔
    checkText raw = .ok () ∧ checkHost (((lower raw).splitOn '/').headD []) ((lower raw).splitOn '/')[1]? = .ok () ∧
      checkPath ((lower raw).splitOn '/').tail depth = .ok () ∧ c = lower raw := by
  unfold checked
  simp only [check_then]
  refine and_congr_right fun _ => and_congr_right fun _ => and_congr_right fun _ => ?_
  exact ⟨fun same => (Except.ok.inj same).symm,fun same => congrArg Except.ok same.symm⟩

theorem normalize_ok (raw : Str) (depth : Nat) (c : Str) : normalizeResourceWithDepth raw depth = .ok c ↔
    checked raw depth = .ok c := by
  unfold normalizeResourceWithDepth
  cases checked raw depth with
  | error e => exact ⟨fun ok => (nomatch ok),fun ok => (nomatch ok)⟩
  | ok found => exact ⟨fun ok => congrArg Except.ok (Except.ok.inj ok),fun ok => congrArg Except.ok (Except.ok.inj ok)⟩

theorem normalize_exact (raw : Str) (depth : Nat) (c : Str) : normalizeResourceWithDepth raw depth = .ok c ↔
    c = lower raw ∧ Grammar depth (lower raw) := by
  rw [normalize_ok,checked_ok]
  constructor
  · rintro ⟨textual,hosted,pathed,same⟩
    obtain ⟨short,ascii⟩ := text_sound raw textual
    obtain ⟨host,path,cut⟩ := List.exists_cons_of_ne_nil (List.splitOn_ne_nil '/' (lower raw))
    rw [cut] at hosted pathed
    obtain ⟨some_,fits,each⟩ := (path_exact path depth).mp pathed
    have parts : ['/'].intercalate (host :: path) = lower raw := cut ▸ List.intercalate_splitOn '/'
    refine ⟨same,(ascii_lower raw).mpr ascii,(byteLength_lower raw).symm ▸ short,host,path,?_,some_,fits,each,parts.symm⟩
    exact (host_exact host _).mp hosted
  · rintro ⟨same,grammar⟩
    have plain (c : Char) (member : c ∈ raw) : Plain c.toLower :=
      grammar_plain grammar _ (List.mem_map_of_mem member)
    have nonempty : raw ≠ [] := by
      rintro rfl
      exact grammar_nonempty grammar rfl
    obtain ⟨host,path,named,some_,fits,each,parts⟩ := grammar.parts
    have cut := split_parts named each
    rw [← parts] at cut
    rw [cut]
    refine ⟨text_ok raw nonempty (byteLength_lower raw ▸ grammar.short) plain,(host_exact host _).mpr named,?_,same⟩
    exact (path_exact path depth).mpr ⟨some_,fits,each⟩

-- A normalised text is its own.
theorem lower_grammar (grammar : Grammar depth s) : lower s = s := by
  unfold lower
  refine (List.map_congr_left fun c member => ?_).trans (List.map_id s)
  exact lower_plain c (grammar_plain grammar c member)

theorem normalize_again (grammar : Grammar depth s) : normalizeResourceWithDepth s depth = .ok s :=
  (normalize_exact s depth s).mpr ⟨(lower_grammar grammar).symm,(lower_grammar grammar).symm ▸ grammar⟩

end VerifiableGit.Qualified
