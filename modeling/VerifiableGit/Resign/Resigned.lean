import Mathlib.Data.FinEnum
import VerifiableGit.Commit.Unsigned
import VerifiableGit.Verify.SshSig
import VerifiableGit.Verify.SignGuard

-- The commit object a re-sign writes (vgi-bridge, resign.rs), and how the
-- parsers that meet it later read it.
namespace VerifiableGit.Resigned
open Text Commit Verify
open Library.Base64 (encode)

-- The signing library. A signature is a function of the key and the bytes.
structure Ed25519 (Key : Type) where
  verifyingKey : Key → {key : Bytes // key.length = 32}
  sign : Key → Bytes → {sig : Bytes // sig.length = 64}
  sha512 : Bytes → {hash : Bytes // hash.length = 64}

structure GitSigningKey (Key : Type) where
  key : Key
  verificationMethod : Bytes

def GitSigningKey.did (signing : GitSigningKey Key) : Bytes := splitFirst [35] signing.verificationMethod

structure Commit where
  tree : Bytes
  parent : Bytes
  parents : Nat
  author : Bytes
  unexpected : List Bytes
  message : Bytes
deriving DecidableEq

def checkSha (sha : Bytes) : Except Bytes Unit :=
  if (sha.length = 40 ∨ sha.length = 64) ∧ ∀ b ∈ sha, (48 ≤ b ∧ b ≤ 57) ∨ (97 ≤ b ∧ b ≤ 102) then .ok ()
  else .error (ascii "unexpected forge response: `" ++ sha ++ ascii "` is not a commit id")

-- What the header loop has seen.
structure Seen where
  tree : Option Bytes := none
  parent : Option Bytes := none
  author : Option Bytes := none
  parents : Nat := 0
  unexpected : List Bytes := []

def Seen.line (seen : Seen) (line : Bytes) : Seen :=
  -- A continuation of the header before.
  if line.head? = some space then seen
  else
    let name := line.takeWhile (· ≠ space)
    let value := (line.dropWhile (· ≠ space)).tail
    if name = ascii "tree" then { seen with tree := some value }
    else if name = ascii "parent" then { seen with parents := seen.parents + 1, parent := some value }
    else if name = ascii "author" then { seen with author := some value }
    else if name = ascii "committer" ∨ name = ascii "gpgsig" then seen
    else { seen with unexpected := seen.unexpected ++ [name] }

def Commit.parse (raw : Bytes) : Except Bytes Commit :=
  if isUtf8 raw = false then .error (ascii "not UTF-8")
  else match splitBlank raw with
  | none => .error (ascii "no blank line after the headers")
  | some (headers,message) =>
    let seen := (lines headers).foldl Seen.line {}
    match seen.tree with
    | none => .error (ascii "no tree")
    | some tree => do
      checkSha tree
      let parent := seen.parent.getD []
      if seen.parents = 1 then checkSha parent
      match seen.author with
      | none => .error (ascii "no author")
      | some author => .ok ⟨tree,parent,seen.parents,author,seen.unexpected,message⟩

def trimEnd (text : Bytes) : Bytes :=
  (stripSpaces (unicodeSpaces.map List.reverse) text.length text.reverse).reverse

section
variable (ed : Ed25519 Key) (scid : Scid)

def createSshSignature (key : Key) (ns message : Bytes) : Bytes :=
  armorSshSignature (ed.verifyingKey key) ns (ed.sign key (sshsigSignedData ns (ed.sha512 message)))

def headersOf (c : Commit) (parent committer : Bytes) : Bytes :=
  ascii "tree " ++ c.tree ++ ascii "\nparent " ++ parent ++ ascii "\nauthor " ++ c.author ++ ascii "\ncommitter " ++
    committer

def unsignedOf (c : Commit) (parent committer message : Bytes) : Bytes :=
  headersOf c parent committer ++ ascii "\n\n" ++ message

-- The armor as one header: the first line behind the name, the others behind a space.
def signatureHeader (armored : Bytes) : Bytes :=
  ascii "gpgsig" ++
    ((lines (trimEnd armored)).mapIdx fun i line => (if i = 0 then ascii " " else ascii "\n ") ++ line).flatten

def namesSigner (signing : GitSigningKey Key) (data : Bytes) : Bool :=
  (signerDid scid data).any fun claimed => sameSigner scid claimed signing.did

def resignCommit (c : Commit) (parent committer message : Bytes) (signing : GitSigningKey Key) : Except Bytes Bytes :=
  let unsigned := unsignedOf c parent committer message
  if namesSigner scid signing unsigned = false ∨ (conflictingSignerDids scid unsigned).isSome then
    .error (ascii ("the message's trailers do not name the bridge's DID as the signer (the message already carries a " ++
      "`Signed-by-DID:` trailer?)"))
  else
    let armored := createSshSignature ed signing.key gitSshsigNamespace unsigned
    let signed := headersOf c parent committer ++ ascii "\n" ++ signatureHeader armored ++ ascii "\n\n" ++ message
    match splitSignedCommit signed with
    | .error e => .error (ascii e)
    | .ok none => .error (ascii "the signature did not attach")
    | .ok (some (payload,_)) =>
      if payload = unsigned then .ok signed
      else .error (ascii "the signed commit does not split back into what was signed")

def signedBy (raw : Bytes) (signing : GitSigningKey Key) : Except Bytes Bool :=
  match splitSignedCommit raw with
  | .error e => .error (ascii e)
  | .ok none => .ok false
  | .ok (some (payload,pem)) =>
    if namesSigner scid signing payload = false then .ok false
    else
      let ours := createSshSignature ed signing.key gitSshsigNamespace payload
      .ok (normalizeSshsigArmor pem = normalizeSshsigArmor ours)

-- Every commit of the range signed: nothing is left to re-sign.
def alreadyResigned (raws : List Bytes) (signing : GitSigningKey Key) : Bool :=
  raws.all fun raw => (signedBy ed scid raw signing).toOption.getD false

end

/-! Plain text -/

theorem ascii_utf8 {text : Bytes} (plain : ∀ b ∈ text, b < 128) : isUtf8 text = true := by
  have one : ∀ n < 128, String.utf8EncodeChar (Char.ofNat n) = [UInt8.ofNat n] := by decide
  refine utf8_bytes.mpr ⟨text.map fun b => Char.ofNat b.toNat,?_⟩
  induction text with
  | nil => rfl
  | cons b rest ih =>
    obtain ⟨first,later⟩ := List.forall_mem_cons.mp plain
    rw [List.map_cons,List.flatMap_cons,one b.toNat (UInt8.lt_iff_toNat_lt.mp first),UInt8.ofNat_toNat,← ih later]
    rfl

theorem ascii_all {text : Bytes} (plain : (text.all fun b => decide (b < 128)) = true) : isUtf8 text = true :=
  ascii_utf8 fun b member => of_decide_eq_true (List.all_eq_true.mp plain b member)

-- To evaluate by: the decoder walks the text from its start for every byte of it.
theorem utf8_bytewise : isUtf8 = fun text => (text.all fun b => decide (b < 128)) || isUtf8 text := by
  funext text
  cases plain : text.all fun b => decide (b < 128) with
  | true => rw [ascii_all plain,Bool.true_or]
  | false => rw [Bool.false_or]

/-! The armor as a header -/

def blockOf : List Bytes → List Bytes
  | [] => []
  | first :: more => (ascii "gpgsig " ++ first) :: more.map (space :: ·)

theorem continued_flatten (ls : List Bytes) :
    (ls.map fun line => ascii "\n " ++ line).flatten = (ls.map fun line => newline :: space :: line).flatten := by
  have shape : ascii "\n " = [newline,space] := by decide
  rw [shape]
  rfl

theorem joinLines_flatten (first : Bytes) (more : List Bytes) :
    joinLines (first :: more) = first ++ (more.map (newline :: ·)).flatten := by
  induction more generalizing first with
  | nil => simp
  | cons next rest ih =>
    rw [joinLines_cons first (List.cons_ne_nil next rest),ih next]
    simp

theorem signatureHeader_block (armored : Bytes) : signatureHeader armored = joinLines (blockOf (lines (trimEnd armored))) := by
  cases split : lines (trimEnd armored) with
  | nil => exact absurd split (lines_ne_nil _)
  | cons first more =>
    have name : ascii "gpgsig " = ascii "gpgsig" ++ ascii " " := by decide
    have later : (more.mapIdx fun i line => (if i + 1 = 0 then ascii " " else ascii "\n ") ++ line).flatten =
        (more.map fun line => newline :: space :: line).flatten := by
      rw [← continued_flatten]
      refine congrArg List.flatten (List.mapIdx_eq_iff.mpr fun i => ?_)
      rw [List.getElem?_map]
      rfl
    rw [signatureHeader,split,blockOf,joinLines_flatten,List.mapIdx_cons,List.flatten_cons,if_pos rfl,later,name,List.map_map]
    simp only [List.append_assoc]
    rfl

theorem armored_end (body : Bytes) : ∃ text, armored body = text ++ [45] ++ [newline] := by
  have tail : ascii "-----END SSH SIGNATURE-----\n" = ascii "-----END SSH SIGNATURE----" ++ [45] ++ [newline] := by decide
  refine ⟨ascii "-----BEGIN SSH SIGNATURE-----\n" ++
    ((chunks 70 body.length body).map (· ++ [newline])).flatten ++ ascii "-----END SSH SIGNATURE----",?_⟩
  rw [armored,tail]
  simp only [List.append_assoc]

-- Only the last newline is white space.
theorem armored_trim (body : Bytes) : trimEnd (armored body) ++ [newline] = armored body := by
  obtain ⟨text,same⟩ := armored_end body
  have pad : ∀ e ∈ [[newline]], e ∈ unicodeSpaces := by decide
  have bare : Bare (unicodeSpaces ++ unicodeSpaces.map List.reverse) (text ++ [45]).reverse := by
    rw [List.reverse_append]
    exact plain_bare (by decide) (by decide)
  have cut := strip_backward [[newline]] pad bare
  rw [List.flatten_singleton] at cut
  rw [trimEnd,same,cut,List.reverse_reverse]

/-! The header split -/

-- No blank line stands at the end of the headers or before it.
theorem splitBlank_before {before rest : Bytes} (none_ : splitBlank (before ++ [newline]) = none)
    (start : rest.head? ≠ some newline) (cut : splitBlank rest = some (a,b)) :
    splitBlank (before ++ newline :: rest) = some (before ++ newline :: a,b) := by
  induction before with
  | nil =>
    exact splitBlank_cons (fun both => start both.2) cut
  | cons c before ih =>
    rw [List.cons_append] at none_ ⊢
    have other : ¬ (c = newline ∧ (before ++ [newline]).head? = some newline) := by
      intro both
      rw [splitBlank,if_pos both] at none_
      cases none_
    have heads : (before ++ newline :: rest).head? = (before ++ [newline]).head? := by
      cases before <;> rfl
    rw [splitBlank,if_neg other] at none_
    exact splitBlank_cons (heads ▸ other) (ih (Option.map_eq_none_iff.mp none_))

theorem splitBlank_append {text before after : Bytes} (cut : splitBlank text = some (before,after)) (more : Bytes) :
    splitBlank (text ++ more) = some (before,after ++ more) := by
  induction text generalizing before with
  | nil => cases cut
  | cons c text ih =>
    rw [List.cons_append]
    by_cases blank : c = newline ∧ text.head? = some newline
    · rw [splitBlank,if_pos blank] at cut
      obtain ⟨rest,rfl⟩ := List.head?_eq_some_iff.mp blank.2
      rw [List.cons_append,splitBlank,if_pos ⟨blank.1,rfl⟩]
      cases cut
      rfl
    · rw [splitBlank,if_neg blank] at cut
      have heads : text ≠ [] := by
        rintro rfl
        cases cut
      have same : (text ++ more).head? = text.head? := by
        cases text with
        | nil => exact absurd rfl heads
        | cons d text => rfl
      obtain ⟨parts,inner,shape⟩ := Option.map_eq_some_iff.mp cut
      cases shape
      exact splitBlank_cons (same ▸ blank) (ih inner)

theorem lines_cut (before rest : Bytes) : lines (before ++ newline :: rest) = lines before ++ lines rest :=
  List.splitOn_append_cons_self before rest

theorem scan_lengths (current : Header) (ls : List Bytes) :
    (scanHeaders current ls).1.length + (scanHeaders current ls).2.length ≤ ls.length := by
  induction ls generalizing current with
  | nil => exact Nat.le_refl 0
  | cons l ls ih =>
    rw [List.length_cons]
    by_cases continued : current = .signature ∧ l.head? = some space
    · obtain ⟨rfl,spaced⟩ := continued
      have rest := ih .signature
      rw [scan_continuation spaced]
      dsimp only [List.length_cons]
      omega
    · cases found : stripPrefix (ascii "gpgsig ") l with
      | some first =>
        have rest := ih .signature
        rw [scan_signature continued found]
        dsimp only [List.length_cons]
        omega
      | none =>
        by_cases dropped : (ascii "gpgsig").isPrefixOf l = true ∨ (current = .otherSignature ∧ l.head? = some space)
        · have rest := ih .otherSignature
          rw [scan_other continued found dropped]
          omega
        · have rest := ih .kept
          rw [scan_kept continued found dropped]
          dsimp only [List.length_cons]
          omega

theorem scan_whole {current : Header} (every : (scanHeaders current ls).1 = ls) : (scanHeaders current ls).2 = [] := by
  have lengths := scan_lengths current ls
  rw [every] at lengths
  exact List.length_eq_zero_iff.mp (by omega)

-- Behind any headers, in any state, the block is taken out as it was put in.
theorem scan_block (current : Header) (ls : List Bytes) (first : Bytes) (more : List Bytes) :
    scanHeaders current (ls ++ blockOf (first :: more)) =
      ((scanHeaders current ls).1,(scanHeaders current ls).2 ++ first :: more) := by
  induction ls generalizing current with
  | nil =>
    have found := stripPrefix_append (ascii "gpgsig ") first
    have tail := scan_continued more []
    have unspaced := named_unspaced (signature_named found)
    rw [List.append_nil] at tail
    rw [List.nil_append,blockOf,scan_signature (fun both => unspaced both.2) found,tail]
    simp [scanHeaders]
  | cons l ls ih =>
    rw [List.cons_append]
    by_cases continued : current = .signature ∧ l.head? = some space
    · obtain ⟨rfl,spaced⟩ := continued
      rw [scan_continuation spaced,scan_continuation spaced,ih .signature]
      rfl
    · cases found : stripPrefix (ascii "gpgsig ") l with
      | some name =>
        rw [scan_signature continued found,scan_signature continued found,ih .signature]
        rfl
      | none =>
        by_cases dropped : (ascii "gpgsig").isPrefixOf l = true ∨ (current = .otherSignature ∧ l.head? = some space)
        · rw [scan_other continued found dropped,scan_other continued found dropped,ih .otherSignature]
        · rw [scan_kept continued found dropped,scan_kept continued found dropped,ih .kept]

theorem block_full {first : Bytes} {more : List Bytes} (lined : ∀ l ∈ first :: more, Line l) :
    (∀ l ∈ blockOf (first :: more), l ≠ []) ∧ ∀ l ∈ blockOf (first :: more), Line l :=
  ⟨fun l member => (block_lines lined l member).1,fun l member => (block_lines lined l member).2⟩

-- A split that gives back the headers and the message took out the block, all of it.
theorem attached {headers message payload pem first : Bytes} {more : List Bytes} (some_ : headers ≠ [])
    (lined : ∀ l ∈ first :: more, Line l)
    (split : splitSignedCommit (headers ++ newline :: (joinLines (blockOf (first :: more)) ++ newline :: newline :: message)) =
      .ok (some (payload,pem)))
    (same : payload = headers ++ newline :: newline :: message) : pem = endLines (first :: more) := by
  obtain ⟨full,blocked⟩ := block_full lined
  have filled : blockOf (first :: more) ≠ [] := List.cons_ne_nil _ _
  obtain ⟨cut,body,kept,stripped⟩ := split_parts split
  have whole := stripped.cut
  cases early : splitBlank (headers ++ [newline]) with
  | some parts =>
    -- A blank line inside the headers: the two bodies differ in length.
    obtain ⟨before,after⟩ := parts
    have signed := splitBlank_append early (joinLines (blockOf (first :: more)) ++ newline :: newline :: message)
    have unsigned := splitBlank_append early (newline :: message)
    have back := stripped_cut stripped
    rw [List.append_assoc,List.singleton_append] at signed unsigned
    rw [signed] at whole
    rw [same,unsigned] at back
    cases whole
    have lengths := congrArg (fun parts => parts.2.length) (Option.some.inj back)
    simp only [List.length_append,List.length_cons] at lengths
    omega
  | none =>
    have start := joinLines_head full blocked filled (newline :: newline :: message)
    have signed := splitBlank_before early start (splitBlank_joinLines full blocked filled message)
    rw [signed] at whole
    obtain ⟨rfl,rfl⟩ := Prod.mk.inj (Option.some.inj whole)
    have text : lines (headers ++ newline :: joinLines (blockOf (first :: more))) = lines headers ++ blockOf (first :: more) := by
      rw [lines_cut,lines_joinLines blocked filled]
    have scanned := scan_block .kept (lines headers) first more
    -- What is kept are the header lines, every one, so no line of theirs was a signature.
    have bare : joinLines kept = headers := by
      have shape := stripped.payload.symm.trans same
      rw [blank_bytes,List.append_assoc] at shape
      exact List.append_cancel_right shape
    have every : (scanHeaders .kept (lines headers)).1 = lines headers := by
      have taken : kept = (scanHeaders .kept (lines headers)).1 := by rw [stripped.scanned,text,scanned]
      have some' : kept ≠ [] := fun none_ => some_ (by rw [← bare,none_]; rfl)
      rw [← taken,← bare,lines_joinLines (stripped_lines stripped).2 some']
    have given := split_cut stripped.utf8 signed
    rw [split,text,scanned,scan_whole every,List.nil_append,if_neg (List.cons_ne_nil first more)] at given
    cases given
    rfl

theorem headersOf_some (c : Commit) (parent committer : Bytes) : headersOf c parent committer ≠ [] := by
  have start : ascii "tree " ≠ [] := by decide
  unfold headersOf
  simp [start]

/-! Reading a re-signed commit -/

theorem named_value (name value : Bytes) (plain : space ∉ name) :
    (name ++ space :: value).takeWhile (· ≠ space) = name ∧
      ((name ++ space :: value).dropWhile (· ≠ space)).tail = value := by
  have other : ∀ b ∈ name, decide (b ≠ space) = true := fun b member => decide_eq_true fun same => plain (same ▸ member)
  constructor
  · rw [List.takeWhile_append_of_pos other,List.takeWhile_cons_of_neg (by simp),List.append_nil]
  · rw [List.dropWhile_append_of_pos other,List.dropWhile_cons_of_neg (by simp)]
    rfl

theorem seen_named (seen : Seen) (name value : Bytes) (plain : space ∉ name) (some_ : name ≠ []) :
    seen.line (name ++ space :: value) =
      if name = ascii "tree" then { seen with tree := some value }
      else if name = ascii "parent" then { seen with parents := seen.parents + 1, parent := some value }
      else if name = ascii "author" then { seen with author := some value }
      else if name = ascii "committer" ∨ name = ascii "gpgsig" then seen
      else { seen with unexpected := seen.unexpected ++ [name] } := by
  obtain ⟨named,valued⟩ := named_value name value plain
  have fresh : (name ++ space :: value).head? ≠ some space := by
    cases name with
    | nil => exact absurd rfl some_
    | cons b name => exact fun same => plain (Option.some.inj same ▸ List.mem_cons_self)
  rw [Seen.line,if_neg fresh,named,valued]

-- The block is a header the loop passes by.
theorem seen_block (seen : Seen) (first : Bytes) (more : List Bytes) :
    (blockOf (first :: more)).foldl Seen.line seen = seen := by
  have name : ascii "gpgsig " ++ first = ascii "gpgsig" ++ space :: first := by
    have shape : ascii "gpgsig " = ascii "gpgsig" ++ [space] := by decide
    rw [shape,List.append_assoc,List.singleton_append]
  have begun : seen.line (ascii "gpgsig " ++ first) = seen := by
    rw [name,seen_named seen _ _ (by decide) (by decide)]
    rfl
  have later (ls : List Bytes) : (ls.map (space :: ·)).foldl Seen.line seen = seen := by
    induction ls with
    | nil => rfl
    | cons l ls ih => exact ih
  rw [blockOf,List.foldl_cons,begun,later]

theorem checkSha_line (sha : Bytes) (checked : checkSha sha = .ok ()) : Line sha := by
  unfold checkSha at checked
  split at checked
  · rename_i both
    exact fun member => absurd (both.2 newline member) (by decide)
  · cases checked

theorem headersOf_join (c : Commit) (parent committer : Bytes) : headersOf c parent committer = joinLines
    [ascii "tree " ++ c.tree,ascii "parent " ++ parent,ascii "author " ++ c.author,ascii "committer " ++ committer] := by
  have parent_ : ascii "\nparent " = newline :: ascii "parent " := by decide
  have author_ : ascii "\nauthor " = newline :: ascii "author " := by decide
  have committer_ : ascii "\ncommitter " = newline :: ascii "committer " := by decide
  rw [headersOf,parent_,author_,committer_,joinLines_flatten]
  simp

section
variable {c : Commit} {parent committer : Bytes} (tree : Line c.tree) (parent_ : Line parent) (author : Line c.author)
  (committer_ : Line committer)
include tree parent_ author committer_

theorem headersOf_whole : ∀ l ∈ [ascii "tree " ++ c.tree,ascii "parent " ++ parent,ascii "author " ++ c.author,
    ascii "committer " ++ committer], l ≠ [] ∧ Line l := by
  have named (name value : Bytes) (some_ : name ≠ []) (plain : Line name) (line : Line value) :
      name ++ value ≠ [] ∧ Line (name ++ value) :=
    ⟨List.append_ne_nil_of_left_ne_nil some_ value,fun member => (List.mem_append.mp member).elim plain line⟩
  simp only [List.forall_mem_cons]
  exact ⟨named _ _ (by decide) (by decide) tree,named _ _ (by decide) (by decide) parent_,
    named _ _ (by decide) (by decide) author,named _ _ (by decide) (by decide) committer_,List.forall_mem_nil _⟩

theorem headersOf_lines : lines (headersOf c parent committer) =
    [ascii "tree " ++ c.tree,ascii "parent " ++ parent,ascii "author " ++ c.author,ascii "committer " ++ committer] := by
  rw [headersOf_join,lines_joinLines _ (List.cons_ne_nil _ _)]
  exact fun l member => (headersOf_whole tree parent_ author committer_ l member).2

theorem headersOf_seen : (lines (headersOf c parent committer)).foldl Seen.line {} =
    ⟨some c.tree,some parent,some c.author,1,[]⟩ := by
  have spaced (name : String) (value : Bytes) (shape : ascii (name ++ " ") = ascii name ++ [space]) :
      ascii (name ++ " ") ++ value = ascii name ++ space :: value := by
    rw [shape,List.append_assoc,List.singleton_append]
  have tree_ := spaced "tree" c.tree (by decide)
  have parents := spaced "parent" parent (by decide)
  have authored := spaced "author" c.author (by decide)
  have committed := spaced "committer" committer (by decide)
  rw [headersOf_lines tree parent_ author committer_]
  simp only [List.foldl_cons,List.foldl_nil]
  erw [tree_,parents,authored,committed]
  rw [seen_named _ _ _ (by decide) (by decide),seen_named _ _ _ (by decide) (by decide),
    seen_named _ _ _ (by decide) (by decide),seen_named _ _ _ (by decide) (by decide)]
  rfl

end

-- The fields the loop collects are parts of lines.
structure Seen.Lined (seen : Seen) : Prop where
  author : ∀ value ∈ seen.author, Line value

theorem lined_step (seen : Seen) (lined : seen.Lined) (line : Line l) : (seen.line l).Lined := by
  have value : Line (l.dropWhile (· ≠ space)).tail := fun member =>
    line ((List.dropWhile_suffix _).subset (List.mem_of_mem_tail member))
  unfold Seen.line
  split
  · exact lined
  · dsimp only
    split
    · exact ⟨lined.author⟩
    · split
      · exact ⟨lined.author⟩
      · split
        · refine ⟨fun other same => ?_⟩
          cases same
          exact value
        · split
          · exact lined
          · exact ⟨lined.author⟩

theorem lined_run (ls : List Bytes) (all : ∀ l ∈ ls, Line l) (seen : Seen) (lined : seen.Lined) :
    (ls.foldl Seen.line seen).Lined := by
  induction ls generalizing seen with
  | nil => exact lined
  | cons l ls ih =>
    obtain ⟨line,later⟩ := List.forall_mem_cons.mp all
    exact ih later _ (lined_step seen lined line)

-- What is left once the tree is checked.
theorem parse_end (seen : Seen) {tree message : Bytes} {c : Commit}
    (parsed : ((do
      let _ ← Except.ok ()
      if seen.parents = 1 then checkSha (seen.parent.getD [])
      match seen.author with
      | none => .error (ascii "no author")
      | some author => .ok ⟨tree,seen.parent.getD [],seen.parents,author,seen.unexpected,message⟩ :
        Except Bytes Commit)) = .ok c) :
    ∃ author, seen.author = some author ∧ c.tree = tree ∧ c.author = author := by
  have named : ((match seen.author with
      | none => .error (ascii "no author")
      | some author => .ok ⟨tree,seen.parent.getD [],seen.parents,author,seen.unexpected,message⟩ :
        Except Bytes Commit)) = .ok c := by
    by_cases one : seen.parents = 1
    · cases checked : checkSha (seen.parent.getD []) with
      | error e =>
        simp only [if_pos one,checked] at parsed
        cases parsed
      | ok _ =>
        simp only [if_pos one,checked] at parsed
        exact parsed
    · simp only [if_neg one] at parsed
      exact parsed
  cases found : seen.author with
  | none =>
    rw [found] at named
    cases named
  | some author =>
    rw [found] at named
    cases named
    exact ⟨author,rfl,rfl,rfl⟩

theorem parse_fields {original : Bytes} {c : Commit} (parsed : Commit.parse original = .ok c) :
    checkSha c.tree = .ok () ∧ Line c.author := by
  unfold Commit.parse at parsed
  split at parsed
  · cases parsed
  · split at parsed
    · cases parsed
    · rename_i headers message cut
      dsimp only at parsed
      have lined : ((lines headers).foldl Seen.line {}).Lined :=
        lined_run _ (lines_are_lines headers) {} ⟨fun value same => nomatch same⟩
      split at parsed
      · cases parsed
      · rename_i tree found
        cases checked : checkSha tree with
        | error e =>
          rw [checked] at parsed
          cases parsed
        | ok _ =>
          rw [checked] at parsed
          obtain ⟨author,named,same,same'⟩ := parse_end _ parsed
          rw [same,same']
          exact ⟨checked,lined.author author named⟩

-- An object under the headers of a re-sign, with or without the signature.
theorem parse_object {c : Commit} {parent message headers object : Bytes} (utf8 : isUtf8 object = true)
    (cut : splitBlank object = some (headers,message)) (tree : checkSha c.tree = .ok ()) (sha : checkSha parent = .ok ())
    (seen : (lines headers).foldl Seen.line {} = ⟨some c.tree,some parent,some c.author,1,[]⟩) :
    Commit.parse object = .ok ⟨c.tree,parent,1,c.author,[],message⟩ := by
  have differ : ¬ isUtf8 object = false := by rw [utf8]; decide
  rw [Commit.parse,if_neg differ,cut]
  dsimp only
  rw [seen]
  dsimp only
  rw [tree,Option.getD_some,if_pos rfl,sha]
  rfl

/-! The re-sign -/

section
variable (ed : Ed25519 Key) (scid : Scid)

-- What every parser finds in the object a re-sign gives back.
structure Fixpoint (c : Commit) (parent committer message : Bytes) (signing : GitSigningKey Key) (raw : Bytes) : Prop where
  split : splitSignedCommit raw = .ok (some (unsignedOf c parent committer message,
    createSshSignature ed signing.key gitSshsigNamespace (unsignedOf c parent committer message)))
  claims : ∃ claimed, signerDid scid (unsignedOf c parent committer message) = some claimed ∧
    signerDid scid raw = some claimed ∧ sameSigner scid claimed signing.did = true
  agreed : conflictingSignerDids scid (unsignedOf c parent committer message) = none ∧
    conflictingSignerDids scid raw = none
  own : signedBy ed scid raw signing = .ok true
  parsed : ∀ original, Commit.parse original = .ok c → checkSha parent = .ok () → Line committer →
    Commit.parse raw = .ok ⟨c.tree,parent,1,c.author,[],message⟩ ∧
    Commit.parse (unsignedOf c parent committer message) = .ok ⟨c.tree,parent,1,c.author,[],message⟩

variable {c : Commit} {parent committer message : Bytes} {signing : GitSigningKey Key} {raw : Bytes}

theorem named_claim (data : Bytes) (named : namesSigner scid signing data = true) :
    ∃ claimed, signerDid scid data = some claimed ∧ sameSigner scid claimed signing.did = true := by
  unfold namesSigner at named
  cases found : signerDid scid data with
  | none =>
    rw [found] at named
    cases named
  | some claimed =>
    rw [found] at named
    exact ⟨claimed,rfl,named⟩

theorem resign_split (resigned : resignCommit ed scid c parent committer message signing = .ok raw) :
    namesSigner scid signing (unsignedOf c parent committer message) = true ∧
    conflictingSignerDids scid (unsignedOf c parent committer message) = none ∧
    (∃ first more, (∀ l ∈ first :: more, Line l) ∧
      raw = headersOf c parent committer ++ newline ::
        (joinLines (blockOf (first :: more)) ++ newline :: newline :: message)) ∧
    splitSignedCommit raw = .ok (some (unsignedOf c parent committer message,
      createSshSignature ed signing.key gitSshsigNamespace (unsignedOf c parent committer message))) := by
  unfold resignCommit at resigned
  dsimp only at resigned
  split at resigned
  · cases resigned
  · rename_i clear
    simp only [not_or,Bool.not_eq_false,Option.not_isSome_iff_eq_none] at clear
    refine ⟨clear.1,clear.2,?_⟩
    generalize text : unsignedOf c parent committer message = unsigned at resigned ⊢
    generalize body : encode (sshsigBlob (ed.verifyingKey signing.key) gitSshsigNamespace
      (ed.sign signing.key (sshsigSignedData gitSshsigNamespace (ed.sha512 unsigned)))) = coded
    have armor : createSshSignature ed signing.key gitSshsigNamespace unsigned = armored coded := by
      rw [← body]
      rfl
    obtain ⟨first,more,block⟩ := List.exists_cons_of_ne_nil (lines_ne_nil (trimEnd (armored coded)))
    have lined : ∀ l ∈ first :: more, Line l := block ▸ lines_are_lines (trimEnd (armored coded))
    have line_ : ascii "\n" = [newline] := by decide
    have shape : headersOf c parent committer ++ ascii "\n" ++ signatureHeader (armored coded) ++ ascii "\n\n" ++ message =
        headersOf c parent committer ++ newline ::
          (joinLines (blockOf (first :: more)) ++ newline :: newline :: message) := by
      rw [signatureHeader_block,block,blank_bytes,line_]
      simp only [List.append_assoc,List.cons_append,List.nil_append]
    rw [armor,shape] at resigned
    rw [armor]
    have whole : unsigned = headersOf c parent committer ++ newline :: newline :: message := by
      rw [← text,unsignedOf,blank_bytes,List.append_assoc]
      rfl
    split at resigned
    · cases resigned
    · cases resigned
    · rename_i payload pem found
      split at resigned
      · rename_i same
        cases resigned
        have taken := attached (headersOf_some c parent committer) lined found (same.trans whole)
        have back : endLines (first :: more) = armored coded := by
          rw [endLines_joinLines (List.cons_ne_nil first more),← block,joinLines_lines,armored_trim]
        exact ⟨⟨first,more,lined,rfl⟩,by rw [found,same,taken,back]⟩
      · cases resigned

theorem resign_own (resigned : resignCommit ed scid c parent committer message signing = .ok raw) :
    signedBy ed scid raw signing = .ok true := by
  obtain ⟨named,_,_,split⟩ := resign_split ed scid resigned
  rw [signedBy,split]
  dsimp only
  rw [if_neg (by rw [named]; decide),decide_eq_true rfl]

theorem resign_parsed (resigned : resignCommit ed scid c parent committer message signing = .ok raw) {original : Bytes}
    (parsed : Commit.parse original = .ok c) (sha : checkSha parent = .ok ()) (committer_ : Line committer) :
    Commit.parse raw = .ok ⟨c.tree,parent,1,c.author,[],message⟩ ∧
      Commit.parse (unsignedOf c parent committer message) = .ok ⟨c.tree,parent,1,c.author,[],message⟩ := by
  obtain ⟨_,_,⟨first,more,lined,rfl⟩,split⟩ := resign_split ed scid resigned
  obtain ⟨tree,author⟩ := parse_fields parsed
  obtain ⟨headers,body,kept,stripped⟩ := split_parts split
  have whole := headersOf_whole (checkSha_line c.tree tree) (checkSha_line parent sha) author committer_
  have seen := headersOf_seen (checkSha_line c.tree tree) (checkSha_line parent sha) author committer_
  obtain ⟨full,blocked⟩ := block_full lined
  have filled : blockOf (first :: more) ≠ [] := List.cons_ne_nil _ _
  constructor
  · have cut : splitBlank (headersOf c parent committer ++ newline ::
        (joinLines (blockOf (first :: more)) ++ newline :: newline :: message)) =
        some (headersOf c parent committer ++ newline :: joinLines (blockOf (first :: more)),message) := by
      have joined := splitBlank_joinLines
        (fun l member => (List.mem_append.mp member).elim (fun there => (whole l there).1) (full l))
        (fun l member => (List.mem_append.mp member).elim (fun there => (whole l there).2) (blocked l))
        (List.append_ne_nil_of_right_ne_nil _ filled) message
      rw [joinLines_append _ _ (List.cons_ne_nil _ _) filled,← headersOf_join,List.append_assoc] at joined
      exact joined
    refine parse_object stripped.utf8 cut tree sha ?_
    rw [lines_cut,lines_joinLines blocked filled,List.foldl_append,seen,seen_block]
  · have cut : splitBlank (unsignedOf c parent committer message) = some (headersOf c parent committer,message) := by
      rw [unsignedOf,blank_bytes,List.append_assoc,headersOf_join]
      exact splitBlank_joinLines (fun l member => (whole l member).1) (fun l member => (whole l member).2)
        (List.cons_ne_nil _ _) message
    exact parse_object (stripped_utf8 stripped) cut tree sha seen

theorem resigned_fixpoint (resigned : resignCommit ed scid c parent committer message signing = .ok raw) :
    Fixpoint ed scid c parent committer message signing raw := by
  obtain ⟨named,agreed,_,split⟩ := resign_split ed scid resigned
  obtain ⟨claimed,found,same⟩ := named_claim scid _ named
  obtain ⟨signer,conflict⟩ := split_claims scid split
  exact {
    split := split
    claims := ⟨claimed,found,signer.trans found,same⟩
    agreed := ⟨agreed,conflict.trans agreed⟩
    own := resign_own ed scid resigned
    parsed := fun _ parsed sha line => resign_parsed ed scid resigned parsed sha line }

theorem resign_signs (signing : GitSigningKey Key) {c : Commit} {parent committer message pem : Bytes}
    (named : namesSigner scid signing (unsignedOf c parent committer message) = true)
    (clear : conflictingSignerDids scid (unsignedOf c parent committer message) = none)
    (split : splitSignedCommit (headersOf c parent committer ++ ascii "\n" ++
      signatureHeader (createSshSignature ed signing.key gitSshsigNamespace (unsignedOf c parent committer message)) ++
        ascii "\n\n" ++ message) = .ok (some (unsignedOf c parent committer message,pem))) :
    resignCommit ed scid c parent committer message signing = .ok (headersOf c parent committer ++ ascii "\n" ++
      signatureHeader (createSshSignature ed signing.key gitSshsigNamespace (unsignedOf c parent committer message)) ++
        ascii "\n\n" ++ message) := by
  have open_ : ¬(namesSigner scid signing (unsignedOf c parent committer message) = false ∨
      (conflictingSignerDids scid (unsignedOf c parent committer message)).isSome = true) := by
    rw [named,clear]
    decide
  refine (if_neg open_).trans ?_
  rw [split]
  exact if_pos rfl

-- The object a re-sign gives back is the given one with its signature, to every
-- parser, and a range of such objects is left alone.
theorem resign_fixpoint (signing : GitSigningKey Key) :
    (∀ c parent committer message raw, resignCommit ed scid c parent committer message signing = .ok raw →
      Fixpoint ed scid c parent committer message signing raw) ∧
    ∀ raws : List Bytes, (∀ raw ∈ raws, ∃ c parent committer message,
      resignCommit ed scid c parent committer message signing = .ok raw) →
      alreadyResigned ed scid raws signing = true := by
  refine ⟨fun _ _ _ _ _ resigned => resigned_fixpoint ed scid resigned,fun raws all => ?_⟩
  refine List.all_eq_true.mpr fun raw member => ?_
  obtain ⟨_,_,_,_,resigned⟩ := all raw member
  rw [resign_own ed scid resigned]
  rfl

end

namespace Sample

theorem key_long : (List.replicate 32 (7 : UInt8)).length = 32 := List.length_replicate

def key : {key : Bytes // key.length = 32} := ⟨List.replicate 32 7,key_long⟩

-- A signature that depends on what is signed.
def ed : Ed25519 Unit where
  verifyingKey := fun _ => key
  sign := fun _ data => ⟨List.replicate 64 (data.foldl (· + ·) 0),List.length_replicate⟩
  sha512 := fun data => ⟨List.replicate 64 (data.foldl (· + ·) 0),List.length_replicate⟩

def signing : GitSigningKey Unit := ⟨(),ascii "did:web:a#key-0"⟩

def sha (b : UInt8) : Bytes := List.replicate 40 b

-- An author that looks like a header, and a message with one more header in it.
def bumped : Commit := ⟨sha 49,sha 50,1,ascii "gpgsig dep <d@e> 1 +0000",[],ascii "Bump x\n\n"⟩

def message : Bytes := ascii "Bump x\n\ngpgsig y\n\nSigned-by-DID: did:web:a#key-0\n"

end Sample

theorem resign_fixpoint_sample : ∃ raw,
    resignCommit Sample.ed Verify.Sample.scid Sample.bumped (Sample.sha 51) (ascii "B <b@e> 5 +0000") Sample.message
      Sample.signing = .ok raw ∧
    Fixpoint Sample.ed Verify.Sample.scid Sample.bumped (Sample.sha 51) (ascii "B <b@e> 5 +0000") Sample.message
      Sample.signing raw ∧ alreadyResigned Sample.ed Verify.Sample.scid [raw] Sample.signing = true := by
  let unsigned := unsignedOf Sample.bumped (Sample.sha 51) (ascii "B <b@e> 5 +0000") Sample.message
  let armored := createSshSignature Sample.ed Sample.signing.key gitSshsigNamespace unsigned
  let signed := headersOf Sample.bumped (Sample.sha 51) (ascii "B <b@e> 5 +0000") ++ ascii "\n" ++ signatureHeader armored ++
    ascii "\n\n" ++ Sample.message
  have plain : isUtf8 unsigned = true := utf8_bytes.mpr ⟨unsigned.map fun b => Char.ofNat b.toNat,by decide +kernel⟩
  have plain' : isUtf8 signed = true := utf8_bytes.mpr ⟨signed.map fun b => Char.ofNat b.toNat,by decide +kernel⟩
  have trailer : trailerDid Verify.Sample.scid unsigned = some (ascii "did:web:a") := by
    rw [trailerDid,if_pos plain]
    decide +kernel
  have committer : committerDid Verify.Sample.scid unsigned = none := by
    rw [committerDid,committerIdentity,if_pos plain]
    decide +kernel
  have named : namesSigner Verify.Sample.scid Sample.signing unsigned = true := by
    rw [namesSigner,signerDid,trailer]
    decide
  have clear : conflictingSignerDids Verify.Sample.scid unsigned = none := by
    rw [conflictingSignerDids,trailer,committer]
  have split : ∃ pem, splitSignedCommit signed = .ok (some (unsigned,pem)) := by
    rw [splitSignedCommit,if_pos plain']
    exact ⟨armored,by decide +kernel⟩
  have resigned : resignCommit Sample.ed Verify.Sample.scid Sample.bumped (Sample.sha 51) (ascii "B <b@e> 5 +0000") Sample.message
      Sample.signing = .ok signed := by
    obtain ⟨pem,split⟩ := split
    exact resign_signs Sample.ed Verify.Sample.scid Sample.signing named clear split
  obtain ⟨each,range⟩ := resign_fixpoint Sample.ed Verify.Sample.scid Sample.signing
  refine ⟨signed,resigned,each _ _ _ _ signed resigned,range [signed] fun other member => ?_⟩
  rw [List.mem_singleton.mp member]
  exact ⟨_,_,_,_,resigned⟩
end VerifiableGit.Resigned
