import VerifiableGit.Verify.Report

-- What did-git-sign asks of a commit before it signs it (did-git-sign, sign.rs),
-- against what the verifier asks of the signed commit.
namespace VerifiableGit.Verify
open Text Commit

inductive KeySource where
  | env
  | gitConfig
  | configFile
deriving DecidableEq

def KeySource.text : KeySource → Bytes
  | .env => ascii "the DID_GIT_SIGN_KEY environment variable"
  | .gitConfig => ascii "git config did-git-sign.key"
  | .configFile => ascii "the did-git-sign config file"

def bareDid (didKeyId : Bytes) : Bytes := splitFirst [35,63,47] didKeyId

-- The dash of an error text, in UTF-8.
def emDash : Bytes := [0xE2,0x80,0x94]

section
variable (scid : Scid)

def checkCommitterMatchesKey (data didKeyId : Bytes) (source : KeySource) : Except Bytes Unit :=
  let signingDid := bareDid didKeyId
  match conflictingSignerDids scid data with
  | some (trailer,committer) =>
    .error (ascii "did-git-sign: Signed-by-DID trailer claims '" ++ trailer ++
      ascii "' but committer claims '" ++ committer ++
      ascii "'. Remove one claim or make them match before signing.")
  | none =>
    match signerDid scid data with
    | some claimed =>
      if sameSigner scid claimed signingDid then .ok ()
      else .error (ascii "did-git-sign: this commit claims signer '" ++ claimed ++
        ascii "' but would be signed with a key held by '" ++ signingDid ++ ascii "' (selected via " ++
        source.text ++ ascii "), so it would fail verification as unknownKey. Point the claim at " ++
        ascii "the signing key " ++ emDash ++ ascii " `git config did-git-sign.key '" ++ didKeyId ++
        ascii "'` for the Signed-by-DID trailer, or `git config user.email` for a legacy DID " ++
        ascii "committer " ++ emDash ++ ascii " or select the persona matching the claim.")
    | none =>
      if (committerIdentity data).isNone then .ok ()
      else .error (ascii "did-git-sign: no Signed-by-DID trailer and user.email is not a DID, so the " ++
        ascii "commit would state no signer identity and fail verification as noSignerDid. Run " ++
        ascii "'did-git-sign init' to install the commit-msg hook, or set user.email to '" ++
        didKeyId ++ ascii "'.")

-- The DID whose keys a check was about, where it came to look any up.
def SignatureCheck.lookedUp : SignatureCheck → Option Bytes
  | .unresolvedSigner did _ => some did
  | .unknownKey did _ => some did
  | .badSignature did => some did
  | .valid did => some did
  | _ => none

end

-- git puts the header where `signedObject` does, behind the last one, so the
-- verifier's payload is what was signed. Only the first header line may be empty.
section
variable {data headers message : Bytes} {armored : List Bytes}

theorem block_lines {first : Bytes} {more : List Bytes} (lined : ∀ l ∈ first :: more, Line l) :
    ∀ l ∈ (ascii "gpgsig " ++ first) :: more.map (space :: ·), l ≠ [] ∧ Line l := by
  obtain ⟨head,rest⟩ := List.forall_mem_cons.mp lined
  intro l inside
  rcases List.mem_cons.mp inside with here | later
  · have plain : newline ∉ ascii "gpgsig " := by decide
    have named : NamedSignature l := signature_named (here ▸ stripPrefix_append (ascii "gpgsig ") first)
    refine ⟨named_full named,?_⟩
    rw [here]
    simpa [Line,plain] using head
  · obtain ⟨text,member,same⟩ := List.mem_map.mp later
    exact ⟨same ▸ List.cons_ne_nil _ _,same ▸ spaced_line (rest text member)⟩

theorem block_utf8 {first : Bytes} {more : List Bytes} (valid : ∀ l ∈ first :: more, isUtf8 l = true) :
    ∀ l ∈ (ascii "gpgsig " ++ first) :: more.map (space :: ·), isUtf8 l = true := by
  obtain ⟨head,rest⟩ := List.forall_mem_cons.mp valid
  have name : isUtf8 (ascii "gpgsig ") = true := utf8_bytes.mpr ⟨"gpgsig ".toList,by decide⟩
  have blank : isUtf8 [space] = true := utf8_bytes.mpr ⟨[' '],by decide⟩
  intro l inside
  rcases List.mem_cons.mp inside with here | later
  · exact here ▸ utf8_append name head
  · obtain ⟨text,member,same⟩ := List.mem_map.mp later
    exact same ▸ utf8_append blank (rest text member)

theorem cut_behind {block : List Bytes} (cut : splitBlank data = some (headers,message))
    (whole : ∀ l ∈ block, l ≠ [] ∧ Line l) (some_ : block ≠ []) :
    splitBlank (object (lines headers ++ block) message) = some (joinLines (lines headers ++ block),message) := by
  have tail := splitBlank_tail cut
  have all := lines_are_lines headers
  cases split : lines headers with
  | nil => exact absurd split (lines_ne_nil headers)
  | cons first more =>
    rw [split] at tail all
    obtain ⟨line,rest⟩ := List.forall_mem_cons.mp all
    have full : ∀ l ∈ more ++ block, l ≠ [] := fun l inside =>
      (List.mem_append.mp inside).elim (tail l) fun there => (whole l there).1
    have lined : ∀ l ∈ more ++ block, Line l := fun l inside =>
      (List.mem_append.mp inside).elim (rest l) fun there => (whole l there).2
    have more_ : more ++ block ≠ [] := List.append_ne_nil_of_right_ne_nil more some_
    rw [object,List.cons_append,joinLines_cons first more_,List.append_assoc,List.cons_append]
    exact splitBlank_prepend line (joinLines_head full lined more_ _)
      (splitBlank_joinLines full lined more_ message)

theorem signed_splits (utf8 : isUtf8 data = true) (cut : splitBlank data = some (headers,message))
    (plain : ∀ l ∈ lines headers, ¬ NamedSignature l) (signed : armored ≠ [])
    (lined : ∀ l ∈ armored, Line l) (valid : ∀ l ∈ armored, isUtf8 l = true) :
    splitSignedCommit (signedObject (lines headers) armored message) =
      .ok (some (data,endLines armored)) := by
  cases armored with
  | nil => exact absurd rfl signed
  | cons first more =>
    generalize block_ : (ascii "gpgsig " ++ first) :: more.map (space :: ·) = block
    have whole := block_ ▸ block_lines lined
    have texts := block_ ▸ block_utf8 valid
    have some_ : block ≠ [] := by rw [← block_]; exact List.cons_ne_nil _ _
    have shape : signedObject (lines headers) (first :: more) message =
        object (lines headers ++ block) message := by
      rw [object,joinLines_append _ _ (lines_ne_nil headers) some_]
      simp [signedObject,block_]
    have same := splitBlank_sound cut
    rw [same,utf8_newline,← List.nil_append (newline :: message),utf8_newline] at utf8
    obtain ⟨before,_,after⟩ := utf8
    have whole_utf8 : isUtf8 (object (lines headers ++ block) message) = true := by
      rw [object,utf8_newline,← List.nil_append (newline :: message),utf8_newline,utf8_joinLines]
      refine ⟨fun l inside => ?_,(utf8_joinLines []).mpr (List.forall_mem_nil _),after⟩
      rcases List.mem_append.mp inside with old | new
      · exact (utf8_joinLines (lines headers)).mp ((joinLines_lines headers).symm ▸ before) l old
      · exact texts l new
    rw [shape,split_cut whole_utf8 (cut_behind cut whole some_),
      lines_joinLines _ (List.append_ne_nil_of_right_ne_nil _ some_),
      scan_woven (block_ ▸ woven_last (lines headers) first more) plain (.inl rfl)]
    · simp [joinLines_lines,same,show ascii "\n\n" = [newline,newline] by decide]
    · intro l inside
      rcases List.mem_append.mp inside with old | new
      · exact lines_are_lines headers l old
      · exact (whole l new).2

variable (ssh : SshKey) (debug : Bytes → Bytes) (scid : Scid) (signers : ResolvedSigners Name)
  (exempt : Option ExemptKeyring)

-- Where an SSH signature is read, the keys looked up are those of the claimed
-- signer, if the claims agree.
theorem looked_up {raw payload pem : Bytes} {sig : SshSig} {key : PublishedKey}
    (split : splitSignedCommit raw = .ok (some (payload,pem)))
    (plain : ¬ (ascii "-----BEGIN PGP SIGNATURE-----").isPrefixOf pem = true)
    (parsed : ssh.fromPem (normalizeSshsigArmor pem) = .ok sig) (keyed : signingKey ssh debug sig = .ok key) :
    (checkCommitSignature ssh debug scid signers exempt raw).lookedUp =
      match conflictingSignerDids scid payload with
      | some _ => none
      | none => signerDid scid payload := by
  simp only [checkCommitSignature,split,plain,parsed,keyed,Bool.false_eq_true,if_false]
  cases conflictingSignerDids scid payload with
  | some claims => rfl
  | none =>
    cases signerDid scid payload with
    | none => rfl
    | some claimed =>
      cases resolved : signers.keys claimed with
      | none => simp only [resolved,SignatureCheck.lookedUp]
      | some published =>
        simp only [resolved]
        by_cases member : key ∈ published
        · simp only [if_pos member]
          split <;> rfl
        · simp only [if_neg member,SignatureCheck.lookedUp]

-- The guard signs what states one signer, the key's own.
theorem guard_accepts {didKeyId : Bytes} {source : KeySource} (committer : (committerIdentity data).isSome) :
    checkCommitterMatchesKey scid data didKeyId source = .ok () ↔
      conflictingSignerDids scid data = none ∧
        ∃ claimed, signerDid scid data = some claimed ∧ sameSigner scid claimed (bareDid didKeyId) = true := by
  simp only [checkCommitterMatchesKey]
  cases conflictingSignerDids scid data with
  | some claims => simp
  | none =>
    cases signerDid scid data with
    | none =>
      obtain ⟨identity,found⟩ := Option.isSome_iff_exists.mp committer
      simp [found]
    | some claimed =>
      cases same : sameSigner scid claimed (bareDid didKeyId) with
      | true => simp [same]
      | false => simp [same]

-- The guard accepts a commit exactly when the identity step of the verifier, on
-- the commit signed, finds the signer whose key signs: no conflict, a claimed
-- DID, and that DID the key's. An SSH signature then has that DID's keys looked
-- up, and a commit refused would have had none, or another's.
theorem sign_guard_agrees {didKeyId : Bytes} {source : KeySource} (utf8 : isUtf8 data = true)
    (cut : splitBlank data = some (headers,message)) (plain : ∀ l ∈ lines headers, ¬ NamedSignature l)
    (committer : (committerIdentity data).isSome) (signed : armored ≠ [])
    (lined : ∀ l ∈ armored, Line l) (valid : ∀ l ∈ armored, isUtf8 l = true) :
    let raw := signedObject (lines headers) armored message
    (checkCommitterMatchesKey scid data didKeyId source = .ok () ↔
      ∃ payload pem, splitSignedCommit raw = .ok (some (payload,pem)) ∧
        conflictingSignerDids scid payload = none ∧
        ∃ claimed, signerDid scid payload = some claimed ∧
          sameSigner scid claimed (bareDid didKeyId) = true) ∧
    ∀ sig key, ¬ (ascii "-----BEGIN PGP SIGNATURE-----").isPrefixOf (endLines armored) = true →
      ssh.fromPem (normalizeSshsigArmor (endLines armored)) = .ok sig →
      signingKey ssh debug sig = .ok key →
      (checkCommitterMatchesKey scid data didKeyId source = .ok () ↔
        ∃ did, (checkCommitSignature ssh debug scid signers exempt raw).lookedUp = some did ∧
          sameSigner scid did (bareDid didKeyId) = true) := by
  intro raw
  have split : splitSignedCommit raw = .ok (some (data,endLines armored)) :=
    signed_splits utf8 cut plain signed lined valid
  have accepts : checkCommitterMatchesKey scid data didKeyId source = .ok () ↔ conflictingSignerDids scid data = none ∧
      ∃ claimed, signerDid scid data = some claimed ∧ sameSigner scid claimed (bareDid didKeyId) = true :=
    guard_accepts scid committer
  refine ⟨accepts.trans ⟨fun found => ⟨data,endLines armored,split,found⟩,fun some_ => ?_⟩,?_⟩
  · obtain ⟨payload,pem,again,found⟩ := some_
    rw [split] at again
    cases again
    exact found
  · intro sig key armor parsed keyed
    rw [accepts,looked_up ssh debug scid signers exempt split armor parsed keyed]
    cases conflictingSignerDids scid data with
    | some claims => simp
    | none => simp

end

def Sample.header : Bytes := ascii "tree t\ncommitter A <did:web:a#key-0> 1 +0000"

theorem sign_guard_agrees_sample : ∃ did,
    (checkCommitSignature (Sample.ssh Sample.software) id Sample.scid Sample.signers none
      (signedObject (lines Sample.header) [ascii "s"] (ascii "m"))).lookedUp = some did ∧
    sameSigner Sample.scid did (bareDid (ascii "did:web:a#key-1")) = true := by
  have utf8 : isUtf8 Sample.payload = true := by decide
  have cut : splitBlank Sample.payload = some (Sample.header,ascii "m") := by decide
  have plain : ∀ l ∈ lines Sample.header, ¬ NamedSignature l := by decide
  have lined : ∀ l ∈ [ascii "s"], Line l := by decide
  have valid : ∀ l ∈ [ascii "s"], isUtf8 l = true := by decide
  have signs : checkCommitterMatchesKey Sample.scid Sample.payload (ascii "did:web:a#key-1") .configFile =
      .ok () := by decide
  exact ((sign_guard_agrees (Sample.ssh Sample.software) id Sample.scid Sample.signers none utf8 cut plain
    (by decide) (by decide) lined valid).2 Sample.software (.ed25519 Sample.key) (by decide) (by decide)
    (by decide)).mp signs

end VerifiableGit.Verify
