import VerifiableGit.Library.Base64
import VerifiableGit.Verify.Signature

-- The sshsig encoding (vgi-core, sshsig.rs), and what the armor of one is
-- normalised to however its body is wrapped.
namespace VerifiableGit.Verify
open Text
open Library.Base64 (be32 be32_inj IsText encode encode_inj encode_text text_plain)

def sshsigMagic : Bytes := ascii "SSHSIG"

def writeSshString (data : Bytes) : Bytes := be32 data.length ++ data

-- The bytes a signature is made over.
def sshsigSignedData (ns : Bytes) (messageHash : {hash : Bytes // hash.length = 64}) : Bytes :=
  sshsigMagic ++ writeSshString ns ++ writeSshString [] ++ writeSshString (ascii "sha512") ++
    writeSshString messageHash.val

def encodeSshEd25519Pubkey (key : {key : Bytes // key.length = 32}) : Bytes :=
  writeSshString (ascii "ssh-ed25519") ++ writeSshString key.val

def encodeSshEd25519Signature (sig : {sig : Bytes // sig.length = 64}) : Bytes :=
  writeSshString (ascii "ssh-ed25519") ++ writeSshString sig.val

def sshsigBlob (verifyingKey : {key : Bytes // key.length = 32}) (ns : Bytes)
    (sig : {sig : Bytes // sig.length = 64}) : Bytes :=
  sshsigMagic ++ be32 1 ++ writeSshString (encodeSshEd25519Pubkey verifyingKey) ++ writeSshString ns ++
    writeSshString [] ++ writeSshString (ascii "sha512") ++ writeSshString (encodeSshEd25519Signature sig)

-- A body in lines of 70 columns.
def armored (body : Bytes) : Bytes :=
  ascii "-----BEGIN SSH SIGNATURE-----\n" ++ ((chunks 70 body.length body).map (· ++ [newline])).flatten ++
    ascii "-----END SSH SIGNATURE-----\n"

def armorSshSignature (verifyingKey : {key : Bytes // key.length = 32}) (ns : Bytes)
    (sig : {sig : Bytes // sig.length = 64}) : Bytes :=
  armored (encode (sshsigBlob verifyingKey ns sig))

/-! Armors of one body -/

-- One character of white space, other than a newline. A carriage return before
-- the newline is one.
def IsPad (e : Bytes) : Prop := e ∈ unicodeSpaces ∧ e ≠ [newline]

structure BodyLine where
  before : List Bytes
  piece : Bytes
  after : List Bytes
  padded : ∀ e ∈ before ++ after, IsPad e
  plain : ∀ b ∈ piece, IsText b

inductive ArmorLine where
  | marker (rest : Bytes) (line : Line rest)
  | body (line : BodyLine)

def ArmorLine.text : ArmorLine → Bytes
  | .marker rest _ => ascii "-----" ++ rest
  | .body line => line.before.flatten ++ line.piece ++ line.after.flatten

def ArmorLine.piece : ArmorLine → Bytes
  | .marker _ _ => []
  | .body line => line.piece

-- Any number of lines, and perhaps one more that no newline ends.
structure Armor where
  lines : List ArmorLine
  last : Option ArmorLine := none

def Armor.text (armor : Armor) : Bytes :=
  (armor.lines.map fun line => line.text ++ [newline]).flatten ++ (armor.last.map ArmorLine.text).getD []

def Armor.body (armor : Armor) : Bytes :=
  (armor.lines.map ArmorLine.piece).flatten ++ (armor.last.map ArmorLine.piece).getD []

/-! White space around a piece -/

theorem spaces_apart : ∀ e ∈ unicodeSpaces, ∀ f ∈ unicodeSpaces, e.isPrefixOf f = true → e = f := by decide

theorem backward_apart : ∀ e ∈ unicodeSpaces.map List.reverse, ∀ f ∈ unicodeSpaces.map List.reverse,
    e.isPrefixOf f = true → e = f := by decide

-- Of encodings none of which starts another, the one that a text starts with is found.
theorem space_found {spaces : List Bytes} (apart : ∀ e ∈ spaces, ∀ f ∈ spaces, e.isPrefixOf f = true → e = f)
    (member : e ∈ spaces) (rest : Bytes) :
    spaces.findSome? (fun encoding => stripPrefix encoding (e ++ rest)) = some rest := by
  cases found : spaces.findSome? fun encoding => stripPrefix encoding (e ++ rest) with
  | none =>
    have missed := List.findSome?_eq_none_iff.mp found e member
    rw [stripPrefix_append] at missed
    cases missed
  | some tail =>
    obtain ⟨f,inside,cut⟩ := List.exists_of_findSome?_eq_some found
    unfold stripPrefix at cut
    split at cut
    · rename_i starts
      cases cut
      have one : f <+: e ++ rest := List.isPrefixOf_iff_prefix.mp starts
      have two : e <+: e ++ rest := List.prefix_append e rest
      have same : e = f := by
        rcases Nat.le_total f.length e.length with short | short
        · exact (apart f inside e member (List.isPrefixOf_iff_prefix.mpr
            (List.prefix_of_prefix_length_le one two short))).symm
        · exact apart e member f inside (List.isPrefixOf_iff_prefix.mpr
            (List.prefix_of_prefix_length_le two one short))
      rw [← same,List.drop_left]
    · cases cut

-- A text that no encoding starts stays as it is.
def Bare (spaces : List Bytes) (text : Bytes) : Prop := ∀ e ∈ spaces, e.isPrefixOf text = false

theorem bare_strip {spaces : List Bytes} (bare : Bare spaces text) (fuel : Nat) :
    stripSpaces spaces fuel text = text := by
  cases fuel with
  | zero => rfl
  | succ fuel =>
    have none_ : spaces.findSome? (fun encoding => stripPrefix encoding text) = none := by
      refine List.findSome?_eq_none_iff.mpr fun e member => ?_
      rw [stripPrefix,bare e member]
      rfl
    rw [stripSpaces,none_]

theorem strip_pads {spaces : List Bytes} (apart : ∀ e ∈ spaces, ∀ f ∈ spaces, e.isPrefixOf f = true → e = f)
    (pads : List Bytes) (padded : ∀ e ∈ pads, e ∈ spaces) (bare : Bare spaces text) (fuel : Nat)
    (enough : pads.length ≤ fuel) : stripSpaces spaces fuel (pads.flatten ++ text) = text := by
  induction pads generalizing fuel with
  | nil => exact bare_strip bare fuel
  | cons e rest ih =>
    obtain ⟨member,later⟩ := List.forall_mem_cons.mp padded
    cases fuel with
    | zero => cases enough
    | succ fuel =>
      rw [List.flatten_cons,List.append_assoc,stripSpaces,space_found apart member]
      exact ih later fuel (Nat.le_of_succ_le_succ enough)

theorem space_heads : ∀ e ∈ unicodeSpaces ++ unicodeSpaces.map List.reverse,
    (e.head?.any fun b => b < 43 || 128 ≤ b) = true := by decide

theorem space_bytes : ∀ e ∈ unicodeSpaces, 45 ∉ e ∧ (newline ∈ e → e = [newline]) ∧ (e.getLast? = some 13 → e = [13]) := by
  decide

theorem plain_bare {b : UInt8} {rest : Bytes} (low : 43 ≤ b) (high : b < 128) :
    Bare (unicodeSpaces ++ unicodeSpaces.map List.reverse) (b :: rest) := by
  intro e member
  have head := space_heads e member
  cases e with
  | nil => cases head
  | cons first more =>
    refine Bool.eq_false_iff.mpr fun starts => ?_
    have same : first = b := (List.cons_prefix_cons.mp (List.isPrefixOf_iff_prefix.mp starts)).1
    simp only [List.head?_cons,Option.any_some,Bool.or_eq_true,decide_eq_true_eq,same] at head
    rcases head with under | above
    · exact absurd low (UInt8.not_le.mpr under)
    · exact absurd high (UInt8.not_lt.mpr above)

theorem text_bare {b : UInt8} {rest : Bytes} (text : IsText b) :
    Bare (unicodeSpaces ++ unicodeSpaces.map List.reverse) (b :: rest) := by
  obtain ⟨low,high,_⟩ := text_plain b text
  exact plain_bare low high

theorem empty_bare : Bare (unicodeSpaces ++ unicodeSpaces.map List.reverse) [] := by
  intro e member
  cases e with
  | nil => exact absurd (space_heads [] member) (by decide)
  | cons first more => rfl

theorem pads_length {pads : List Bytes} (padded : ∀ e ∈ pads, e ∈ unicodeSpaces) : pads.length ≤ pads.flatten.length := by
  have full : ∀ e ∈ unicodeSpaces, 0 < e.length := by decide
  induction pads with
  | nil => exact Nat.le_refl 0
  | cons e rest ih =>
    obtain ⟨member,later⟩ := List.forall_mem_cons.mp padded
    have one := full e member
    have more := ih later
    rw [List.flatten_cons,List.length_append,List.length_cons]
    omega

theorem strip_forward (pads : List Bytes) (padded : ∀ e ∈ pads, e ∈ unicodeSpaces)
    (bare : Bare (unicodeSpaces ++ unicodeSpaces.map List.reverse) text) :
    stripSpaces unicodeSpaces (pads.flatten ++ text).length (pads.flatten ++ text) = text := by
  refine strip_pads spaces_apart pads padded (fun e member => bare e (List.mem_append_left _ member)) _ ?_
  have short := pads_length padded
  rw [List.length_append]
  omega

theorem strip_backward (pads : List Bytes) (padded : ∀ e ∈ pads, e ∈ unicodeSpaces)
    (bare : Bare (unicodeSpaces ++ unicodeSpaces.map List.reverse) text.reverse) :
    stripSpaces (unicodeSpaces.map List.reverse) (text ++ pads.flatten).length (text ++ pads.flatten).reverse =
      text.reverse := by
  have turned : (text ++ pads.flatten).reverse = (pads.map List.reverse).reverse.flatten ++ text.reverse := by
    rw [List.reverse_append,List.reverse_flatten]
  have each : ∀ e ∈ (pads.map List.reverse).reverse, e ∈ unicodeSpaces.map List.reverse := by
    intro e member
    obtain ⟨f,inside,rfl⟩ := List.mem_map.mp (List.mem_reverse.mp member)
    exact List.mem_map_of_mem (padded f inside)
  rw [turned]
  refine strip_pads backward_apart _ each (fun e member => bare e (List.mem_append_right _ member)) _ ?_
  have short := pads_length padded
  rw [List.length_append,List.length_reverse,List.length_map]
  omega

theorem trim_padded (before after : List Bytes) (piece : Bytes) (padded : ∀ e ∈ before ++ after, e ∈ unicodeSpaces)
    (plain : ∀ b ∈ piece, IsText b) : unicodeTrim (before.flatten ++ piece ++ after.flatten) = piece := by
  unfold unicodeTrim
  cases piece with
  | nil =>
    have gone := strip_forward (before ++ after) padded empty_bare
    rw [List.append_nil,List.flatten_append] at gone
    rw [List.append_nil,gone]
    rfl
  | cons b rest =>
    have first : ∀ e ∈ before, e ∈ unicodeSpaces := fun e member => padded e (List.mem_append_left _ member)
    have later : ∀ e ∈ after, e ∈ unicodeSpaces := fun e member => padded e (List.mem_append_right _ member)
    have start : stripSpaces unicodeSpaces (before.flatten ++ (b :: rest ++ after.flatten)).length
        (before.flatten ++ (b :: rest ++ after.flatten)) = b :: rest ++ after.flatten :=
      strip_forward before first (text_bare (plain b List.mem_cons_self))
    have ended : Bare (unicodeSpaces ++ unicodeSpaces.map List.reverse) (b :: rest).reverse := by
      cases turned : (b :: rest).reverse with
      | nil => exact empty_bare
      | cons last more =>
        refine text_bare (plain last ?_)
        rw [← List.mem_reverse,turned]
        exact List.mem_cons_self
    have back := strip_backward after later ended
    rw [List.append_assoc,start]
    dsimp only
    rw [back,List.reverse_reverse]

/-! The lines of an armor -/

def BodyLine.text (line : BodyLine) : Bytes := line.before.flatten ++ line.piece ++ line.after.flatten

theorem body_trim (line : BodyLine) : unicodeTrim line.text = line.piece :=
  trim_padded line.before line.after line.piece (fun e member => (line.padded e member).1) line.plain

theorem body_bytes (line : BodyLine) : newline ∉ line.text ∧ 45 ∉ line.text := by
  have pads (pads : List Bytes) (padded : ∀ e ∈ pads, IsPad e) : newline ∉ pads.flatten ∧ 45 ∉ pads.flatten := by
    constructor
    · intro member
      obtain ⟨e,inside,here⟩ := List.mem_flatten.mp member
      exact (padded e inside).2 ((space_bytes e (padded e inside).1).2.1 here)
    · intro member
      obtain ⟨e,inside,here⟩ := List.mem_flatten.mp member
      exact (space_bytes e (padded e inside).1).1 here
  have before := pads line.before fun e member => line.padded e (List.mem_append_left _ member)
  have after := pads line.after fun e member => line.padded e (List.mem_append_right _ member)
  have piece : newline ∉ line.piece ∧ 45 ∉ line.piece :=
    ⟨fun member => absurd (text_plain _ (line.plain _ member)) (by decide),
      fun member => absurd (text_plain _ (line.plain _ member)) (by decide)⟩
  unfold BodyLine.text
  simp only [List.mem_append,not_or]
  exact ⟨⟨⟨before.1,piece.1⟩,after.1⟩,⟨⟨before.2,piece.2⟩,after.2⟩⟩

-- Only white space ends in a carriage return.
theorem pads_return {pads : List Bytes} {text : Bytes} (padded : ∀ e ∈ pads, IsPad e) (some_ : pads ≠ [])
    (ended : (text ++ pads.flatten).getLast? = some 13) : ∃ fewer : List Bytes, (∀ e ∈ fewer, IsPad e) ∧
      (text ++ pads.flatten).dropLast = text ++ fewer.flatten := by
  rcases List.eq_nil_or_concat' pads with none_ | ⟨fewer,e,rfl⟩
  · exact absurd none_ some_
  · have inside := padded e (List.mem_append_right _ (List.mem_singleton_self e))
    have full : e ≠ [] := by
      rintro rfl
      exact absurd inside.1 (by decide)
    have shape : text ++ (fewer ++ [e]).flatten = text ++ fewer.flatten ++ e := by
      rw [List.flatten_append,List.flatten_singleton,List.append_assoc]
    rw [shape,List.getLast?_append_of_ne_nil _ full] at ended
    have only := (space_bytes e inside.1).2.2 ended
    refine ⟨fewer,fun f member => padded f (List.mem_append_left _ member),?_⟩
    rw [shape,only,List.dropLast_concat]

def chomped (line : Bytes) : Bytes := if line.getLast? = some 13 then line.dropLast else line

theorem body_chomped (line : BodyLine) : ∃ other : BodyLine, other.piece = line.piece ∧ chomped line.text = other.text := by
  have before : ∀ e ∈ line.before, IsPad e := fun e member => line.padded e (List.mem_append_left _ member)
  have after : ∀ e ∈ line.after, IsPad e := fun e member => line.padded e (List.mem_append_right _ member)
  by_cases ended : line.text.getLast? = some 13
  · rw [chomped,if_pos ended]
    by_cases tail : line.after = []
    · by_cases empty : line.piece = []
      · have shape : line.text = [] ++ line.before.flatten := by
          rw [BodyLine.text,tail,empty,List.flatten_nil,List.append_nil,List.append_nil,List.nil_append]
        rw [shape] at ended ⊢
        have some_ : line.before ≠ [] := by
          intro none_
          rw [none_] at ended
          cases ended
        obtain ⟨fewer,padded,same⟩ := pads_return before some_ ended
        refine ⟨⟨fewer,[],[],by simpa using padded,fun b member => nomatch member⟩,empty.symm,?_⟩
        rw [same]
        simp [BodyLine.text]
      · have shape : line.text = line.before.flatten ++ line.piece := by
          rw [BodyLine.text,tail,List.flatten_nil,List.append_nil]
        rw [shape,List.getLast?_append_of_ne_nil _ empty] at ended
        have last := text_plain 13 (line.plain 13 (List.mem_of_getLast? ended))
        exact absurd last (by decide)
    · obtain ⟨fewer,padded,same⟩ := pads_return after tail ended
      refine ⟨⟨line.before,line.piece,fewer,?_,line.plain⟩,rfl,same⟩
      intro e member
      exact (List.mem_append.mp member).elim (before e) (padded e)
  · rw [chomped,if_neg ended]
    exact ⟨line,rfl,rfl⟩

-- What a line gives to the body.
def given (line : Bytes) : Bytes := if (ascii "-----").isPrefixOf line then [] else unicodeTrim line

theorem given_body (line : BodyLine) : given line.text = line.piece := by
  have unmarked : (ascii "-----").isPrefixOf line.text = false := by
    refine Bool.eq_false_iff.mpr fun starts => ?_
    obtain ⟨rest,same⟩ := List.isPrefixOf_iff_prefix.mp starts
    refine (body_bytes line).2 (same ▸ List.mem_append_left rest ?_)
    decide
  rw [given,unmarked]
  exact body_trim line

theorem given_marker (rest : Bytes) : given (ascii "-----" ++ rest) = [] := by
  rw [given,List.isPrefixOf_iff_prefix.mpr (List.prefix_append _ rest)]
  rfl

theorem marker_chomped (rest : Bytes) : ∃ other, chomped (ascii "-----" ++ rest) = ascii "-----" ++ other := by
  unfold chomped
  split
  · rename_i ended
    cases rest with
    | nil => exact absurd ended (by decide)
    | cons b more => exact ⟨(b :: more).dropLast,List.dropLast_append_of_ne_nil (List.cons_ne_nil b more)⟩
  · exact ⟨rest,rfl⟩

theorem line_given (line : ArmorLine) : given line.text = line.piece ∧ given (chomped line.text) = line.piece := by
  cases line with
  | marker rest plain =>
    obtain ⟨other,same⟩ := marker_chomped rest
    exact ⟨given_marker rest,(congrArg given same).trans (given_marker other)⟩
  | body line =>
    obtain ⟨other,piece,same⟩ := body_chomped line
    exact ⟨given_body line,(congrArg given same).trans ((given_body other).trans piece)⟩

theorem line_text (line : ArmorLine) : Line line.text := by
  cases line with
  | marker rest plain =>
    intro member
    rcases List.mem_append.mp member with dashes | inside
    · exact absurd dashes (by decide)
    · exact plain inside
  | body line => exact (body_bytes line).1

theorem textLines_line (line : Line l) (rest : Bytes) :
    textLines (l ++ newline :: rest) = chomped l :: textLines rest := by
  rw [textLines,pieces_line line,List.map_cons,List.getLast?_concat,if_pos rfl,List.dropLast_concat]
  rfl

theorem pieces_open (line : Line l) (some_ : l ≠ []) : pieces l = [l] := by
  induction l with
  | nil => exact absurd rfl some_
  | cons b rest ih =>
    simp only [Line,List.mem_cons,not_or] at line
    rw [pieces,if_neg fun same => line.1 same.symm]
    cases rest with
    | nil => rfl
    | cons c rest => rw [ih line.2 (List.cons_ne_nil c rest)]

theorem textLines_last (line : Line l) : (textLines l).flatMap given = if l = [] then [] else given l := by
  by_cases empty : l = []
  · rw [if_pos empty,empty]
    rfl
  · have open_ : l.getLast? ≠ some newline := fun ended => line (List.mem_of_getLast? ended)
    have one : pieces l = [l] := pieces_open line empty
    rw [if_neg empty,textLines,one,List.map_singleton,if_neg open_,List.flatMap_singleton]

-- The body of an armor is what its lines give.
theorem armor_given (lines : List ArmorLine) (last : Option ArmorLine) :
    (textLines (Armor.text ⟨lines,last⟩)).flatMap given = Armor.body ⟨lines,last⟩ := by
  induction lines with
  | nil =>
    cases last with
    | none => rfl
    | some line =>
      simp only [Armor.text,Armor.body,List.map_nil,List.flatten_nil,List.nil_append,Option.map_some,Option.getD_some]
      rw [textLines_last (line_text line)]
      split
      · rename_i empty
        rw [← (line_given line).1,empty]
        rfl
      · exact (line_given line).1
  | cons line rest ih =>
    simp only [Armor.text,Armor.body,List.map_cons,List.flatten_cons,List.append_assoc,List.singleton_append] at ih ⊢
    rw [List.cons_append,textLines_line (line_text line),List.flatMap_cons,(line_given line).2]
    exact congrArg _ ih

theorem filter_given (ls : List Bytes) :
    ((ls.filter fun line => !(ascii "-----").isPrefixOf line).map unicodeTrim).flatten = ls.flatMap given := by
  induction ls with
  | nil => rfl
  | cons line rest ih =>
    rw [List.flatMap_cons,← ih,given]
    cases marked : (ascii "-----").isPrefixOf line with
    | true => simp [marked]
    | false => simp [marked]

theorem lossy_ascii (text : Bytes) (ascii_ : ∀ b ∈ text, b < 128) : fromUtf8Lossy text.length text = text := by
  induction text with
  | nil => rfl
  | cons b rest ih =>
    obtain ⟨small,later⟩ := List.forall_mem_cons.mp ascii_
    have none_ : followRanges b = some [] := if_pos small
    rw [List.length_cons,fromUtf8Lossy,none_]
    simp only [followed,List.length_nil,if_true,List.take_zero,List.drop_zero,List.singleton_append,ih later]

theorem chunk_bytes {fuel : Nat} {body chunk : Bytes} (member : chunk ∈ chunks 70 fuel body) : ∀ b ∈ chunk, b ∈ body := by
  induction fuel generalizing body with
  | zero => cases member
  | succ fuel ih =>
    cases body with
    | nil => cases member
    | cons b rest =>
      rw [chunks] at member
      · rcases List.mem_cons.mp member with rfl | later
        · exact fun c inside => List.mem_of_mem_take inside
        · exact fun c inside => List.mem_of_mem_drop (ih later c inside)
      · exact List.cons_ne_nil b rest

theorem chunks_flatten (fuel : Nat) (body : Bytes) (enough : body.length ≤ fuel) : (chunks 70 fuel body).flatten = body := by
  induction fuel generalizing body with
  | zero => rw [List.length_eq_zero_iff.mp (Nat.le_zero.mp enough)]; rfl
  | succ fuel ih =>
    cases body with
    | nil => rfl
    | cons b rest =>
      have fewer : ((b :: rest).drop 70).length ≤ fuel := by
        rw [List.length_drop]
        rw [List.length_cons] at enough ⊢
        omega
      rw [chunks,List.flatten_cons,ih _ fewer,List.take_append_drop]
      exact List.cons_ne_nil b rest

-- However it is wrapped, the armor of a body is normalised to one text.
theorem normalize_armor (armor : Armor) (plain : ∀ b ∈ armor.body, IsText b) :
    normalizeSshsigArmor armor.text = armored armor.body := by
  have body : (((textLines armor.text).filter fun line => !(ascii "-----").isPrefixOf line).map unicodeTrim).flatten =
      armor.body := (filter_given _).trans (armor_given armor.lines armor.last)
  rw [normalizeSshsigArmor,body,armored]
  have same : (chunks 70 armor.body.length armor.body).map (fun chunk => fromUtf8Lossy chunk.length chunk ++ [newline]) =
      (chunks 70 armor.body.length armor.body).map (· ++ [newline]) := by
    refine List.map_congr_left fun chunk member => ?_
    rw [lossy_ascii chunk fun b inside => (text_plain b (plain b (chunk_bytes member b inside))).2.1]
  rw [same]

theorem chunk_plain {body : Bytes} (plain : ∀ b ∈ body, IsText b) :
    ∀ chunk ∈ chunks 70 body.length body, ∀ b ∈ chunk, IsText b :=
  fun _ member b inside => plain b (chunk_bytes member b inside)

theorem chunk_lines (parts : List Bytes) (plain : ∀ part ∈ parts, ∀ b ∈ part, IsText b) : ∃ lines : List ArmorLine,
    lines.map (fun line => line.text ++ [newline]) = parts.map (· ++ [newline]) ∧ lines.map ArmorLine.piece = parts := by
  induction parts with
  | nil => exact ⟨[],rfl,rfl⟩
  | cons part rest ih =>
    obtain ⟨first,later⟩ := List.forall_mem_cons.mp plain
    obtain ⟨lines,texts,pieces⟩ := ih later
    refine ⟨.body ⟨[],part,[],fun e member => (nomatch member),first⟩ :: lines,?_,?_⟩
    · rw [List.map_cons,List.map_cons,texts]
      simp [ArmorLine.text]
    · rw [List.map_cons,pieces]
      rfl

-- The normal form is an armor of its body itself.
theorem armored_armor (body : Bytes) (plain : ∀ b ∈ body, IsText b) :
    ∃ armor : Armor, armor.text = armored body ∧ armor.body = body := by
  obtain ⟨lines,texts,pieces⟩ := chunk_lines _ (chunk_plain plain)
  have whole : (chunks 70 body.length body).flatten = body := chunks_flatten _ body (Nat.le_refl _)
  have begins : ascii "-----BEGIN SSH SIGNATURE-----\n" = ascii "-----" ++ ascii "BEGIN SSH SIGNATURE-----" ++ [newline] := by
    decide
  have ends : ascii "-----END SSH SIGNATURE-----\n" = ascii "-----" ++ ascii "END SSH SIGNATURE-----" ++ [newline] := by
    decide
  have marker (rest : Bytes) (line : Line rest) : (ArmorLine.marker rest line).text = ascii "-----" ++ rest := rfl
  refine ⟨⟨.marker (ascii "BEGIN SSH SIGNATURE-----") (by unfold Line; decide) ::
    (lines ++ [.marker (ascii "END SSH SIGNATURE-----") (by unfold Line; decide)]),none⟩,?_,?_⟩
  · simp only [Armor.text,List.map_cons,List.map_append,texts,List.map_nil,List.flatten_cons,List.flatten_append,
      List.flatten_nil,marker,Option.map_none,Option.getD_none,List.append_nil,armored,begins,ends,List.append_assoc]
  · simp only [Armor.body,List.map_cons,List.map_append,pieces,List.map_nil,List.flatten_cons,List.flatten_append,
      List.flatten_nil,ArmorLine.piece,Option.map_none,Option.getD_none,List.append_nil,List.nil_append,whole]

theorem armored_normal (body : Bytes) (plain : ∀ b ∈ body, IsText b) :
    normalizeSshsigArmor (armored body) = armored body := by
  obtain ⟨armor,text,same⟩ := armored_armor body plain
  have normal := normalize_armor armor (same ▸ plain)
  rwa [text,same] at normal

theorem armored_inj {body other : Bytes} (plain : ∀ b ∈ body, IsText b) (plain' : ∀ b ∈ other, IsText b)
    (same : armored body = armored other) : body = other := by
  obtain ⟨one,text,carried⟩ := armored_armor body plain
  obtain ⟨two,text',carried'⟩ := armored_armor other plain'
  have left := armor_given one.lines one.last
  have right := armor_given two.lines two.last
  have texts : one.text = two.text := text.trans (same.trans text'.symm)
  rw [← carried,← carried']
  exact left.symm.trans ((congrArg (fun text => (textLines text).flatMap given) texts).trans right)

/-! The signed data -/

theorem string_inj {a b rest rest' : Bytes} (short : a.length < 2 ^ 32) (short' : b.length < 2 ^ 32)
    (same : writeSshString a ++ rest = writeSshString b ++ rest') : a = b ∧ rest = rest' := by
  unfold writeSshString at same
  rw [List.append_assoc,List.append_assoc] at same
  obtain ⟨lengths,tails⟩ := List.append_inj same rfl
  exact List.append_inj tails (be32_inj short short' lengths)

theorem signedData_inj {ns other : Bytes} {hash hash' : {hash : Bytes // hash.length = 64}} (short : ns.length < 2 ^ 32)
    (short' : other.length < 2 ^ 32) (same : sshsigSignedData ns hash = sshsigSignedData other hash') :
    ns = other ∧ hash = hash' := by
  unfold sshsigSignedData at same
  simp only [List.append_assoc] at same
  have tails := List.append_cancel_left same
  obtain ⟨names,rest⟩ := string_inj short short' tails
  have hashes := List.append_cancel_left (List.append_cancel_left rest)
  rw [← List.append_nil (writeSshString hash.val),← List.append_nil (writeSshString hash'.val)] at hashes
  have small (hash : {hash : Bytes // hash.length = 64}) : hash.val.length < 2 ^ 32 := by
    rw [hash.property]
    decide
  exact ⟨names,Subtype.ext (string_inj (small hash) (small hash') hashes).1⟩

-- What an armor of a blob is normalised to, and what a signature is made over.
structure ArmorLaws : Prop where
  canonical : ∀ (blob : Bytes) (armor : Armor), armor.body = encode blob →
    normalizeSshsigArmor armor.text = armored (encode blob)
  idempotent : ∀ (blob : Bytes) (armor : Armor), armor.body = encode blob →
    normalizeSshsigArmor (normalizeSshsigArmor armor.text) = normalizeSshsigArmor armor.text
  produced : ∀ key ns sig, normalizeSshsigArmor (armorSshSignature key ns sig) = armorSshSignature key ns sig
  faithful : ∀ (blob other : Bytes) (armor armor' : Armor), armor.body = encode blob → armor'.body = encode other →
    (normalizeSshsigArmor armor.text = normalizeSshsigArmor armor'.text ↔ blob = other)
  signed : ∀ (ns other : Bytes) hash hash', ns.length < 2 ^ 32 → other.length < 2 ^ 32 →
    sshsigSignedData ns hash = sshsigSignedData other hash' → ns = other ∧ hash = hash'

theorem normalize_blob (blob : Bytes) (armor : Armor) (carried : armor.body = encode blob) :
    normalizeSshsigArmor armor.text = armored (encode blob) := by
  have normal := normalize_armor armor (carried ▸ encode_text blob)
  rwa [carried] at normal

theorem armor_laws : ArmorLaws where
  canonical := normalize_blob
  idempotent := fun blob armor carried => by
    rw [normalize_blob blob armor carried]
    exact armored_normal _ (encode_text blob)
  produced := fun key ns sig => armored_normal _ (encode_text _)
  faithful := fun blob other armor armor' carried carried' => by
    rw [normalize_blob blob armor carried,normalize_blob other armor' carried']
    constructor
    · exact fun same => encode_inj blob other (armored_inj (encode_text blob) (encode_text other) same)
    · exact fun same => congrArg (fun blob => armored (encode blob)) same
  signed := fun _ _ _ _ => signedData_inj

end VerifiableGit.Verify
