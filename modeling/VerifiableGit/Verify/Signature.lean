import VerifiableGit.Commit.Split
import VerifiableGit.Commit.Signer
import VerifiableGit.Verify.Status

-- The signature layer of verify-trust: what one commit proves by itself.
namespace VerifiableGit.Verify
open Text Commit

inductive PublishedKey where
  | ed25519 (key : {key : Bytes // key.length = 32})
  | p256 (key : {key : Bytes // key.length = 33})
deriving DecidableEq

def PublishedKey.asBytes : PublishedKey → Bytes
  | .ed25519 key => key.val
  | .p256 key => key.val

inductive EcdsaPublicKey where
  | nistP256 (point : Bytes)
  | other (algorithm : Bytes)
deriving DecidableEq

inductive KeyData where
  | ed25519 (key : {key : Bytes // key.length = 32})
  | ecdsa (key : EcdsaPublicKey)
  | skEd25519 (key : {key : Bytes // key.length = 32}) (application : Bytes)
  | skEcdsaSha2NistP256 (point application : Bytes)
  | other
deriving DecidableEq

structure SshSig where
  publicKey : KeyData
  algorithm : Bytes
  signatureBytes : Bytes
deriving DecidableEq

-- The ssh-key crate: parsing, point compression, and the check of a signature
-- in a namespace.
structure SshKey where
  fromPem : Bytes → Except Bytes SshSig
  compress : Bytes → Bytes
  verify : KeyData → Bytes → Bytes → SshSig → Bool

structure ResolvedSigners (Name : Type) where
  keys : Bytes → Option (List PublishedKey)
  unresolved : List (Bytes × Bytes)
  names : Bytes → Option Name

-- `ExemptKeyring::verify`: a fingerprint, or why not.
abbrev ExemptKeyring := Bytes → Bytes → Except Bytes Bytes

inductive SignatureCheck where
  | unsigned
  | malformed (detail : Bytes)
  | noSignerDid (committer : Bytes)
  | conflictingSignerDids (trailer committer : Bytes)
  | unresolvedSigner (did error : Bytes)
  | unknownKey (did fingerprint : Bytes)
  | badSignature (signerDid : Bytes)
  | pgpRejected (detail : Bytes)
  | exempt (fingerprint : Bytes)
  | valid (signerDid : Bytes)
deriving DecidableEq

-- `str::trim` strips any Unicode white space; these are its encodings.
def unicodeSpaces : List Bytes :=
  [[9],[10],[11],[12],[13],[32],[0xC2,0x85],[0xC2,0xA0],[0xE1,0x9A,0x80],[0xE2,0x80,0x80],
    [0xE2,0x80,0x81],[0xE2,0x80,0x82],[0xE2,0x80,0x83],[0xE2,0x80,0x84],[0xE2,0x80,0x85],
    [0xE2,0x80,0x86],[0xE2,0x80,0x87],[0xE2,0x80,0x88],[0xE2,0x80,0x89],[0xE2,0x80,0x8A],
    [0xE2,0x80,0xA8],[0xE2,0x80,0xA9],[0xE2,0x80,0xAF],[0xE2,0x81,0x9F],[0xE3,0x80,0x80]]

-- Each turn takes at least one byte off, so the length is fuel enough.
def stripSpaces (spaces : List Bytes) : Nat → Bytes → Bytes
  | 0,text => text
  | fuel + 1,text =>
    match spaces.findSome? fun encoding => stripPrefix encoding text with
    | some rest => stripSpaces spaces fuel rest
    | none => text

def unicodeTrim (text : Bytes) : Bytes :=
  let start := stripSpaces unicodeSpaces text.length text
  (stripSpaces (unicodeSpaces.map List.reverse) start.length start.reverse).reverse

-- The ranges the bytes after a lead byte must lie in.
def followRanges (lead : UInt8) : Option (List (UInt8 × UInt8)) :=
  if lead < 0x80 then some []
  else if 0xC2 ≤ lead ∧ lead ≤ 0xDF then some [(0x80,0xBF)]
  else if lead = 0xE0 then some [(0xA0,0xBF),(0x80,0xBF)]
  else if lead = 0xED then some [(0x80,0x9F),(0x80,0xBF)]
  else if 0xE1 ≤ lead ∧ lead ≤ 0xEF then some [(0x80,0xBF),(0x80,0xBF)]
  else if lead = 0xF0 then some [(0x90,0xBF),(0x80,0xBF),(0x80,0xBF)]
  else if 0xF1 ≤ lead ∧ lead ≤ 0xF3 then some [(0x80,0xBF),(0x80,0xBF),(0x80,0xBF)]
  else if lead = 0xF4 then some [(0x80,0x8F),(0x80,0xBF),(0x80,0xBF)]
  else none

def followed : List (UInt8 × UInt8) → Bytes → Nat
  | (low,high) :: ranges,b :: rest => if low ≤ b ∧ b ≤ high then followed ranges rest + 1 else 0
  | _,_ => 0

def replacement : Bytes := [0xEF,0xBF,0xBD]

-- `String::from_utf8_lossy`: every maximal broken piece becomes U+FFFD.
def fromUtf8Lossy : Nat → Bytes → Bytes
  | 0,_ => []
  | _,[] => []
  | fuel + 1,b :: rest =>
    match followRanges b with
    | none => replacement ++ fromUtf8Lossy fuel rest
    | some ranges =>
      let found := followed ranges rest
      if found = ranges.length then b :: rest.take found ++ fromUtf8Lossy fuel (rest.drop found)
      else replacement ++ fromUtf8Lossy fuel (rest.drop found)

-- `str::lines`: without the newline, and without one carriage return before it.
def textLines (text : Bytes) : List Bytes :=
  (pieces text).map fun piece =>
    if piece.getLast? = some newline then
      let line := piece.dropLast
      if line.getLast? = some 13 then line.dropLast else line
    else piece

def chunks (size : Nat) : Nat → Bytes → List Bytes
  | 0,_ => []
  | _,[] => []
  | fuel + 1,text => text.take size :: chunks size fuel (text.drop size)

def normalizeSshsigArmor (pem : Bytes) : Bytes :=
  let body := (((textLines pem).filter fun line => !(ascii "-----").isPrefixOf line).map unicodeTrim).flatten
  ascii "-----BEGIN SSH SIGNATURE-----\n" ++
    ((chunks 70 body.length body).map fun chunk => fromUtf8Lossy chunk.length chunk ++ [newline]).flatten ++
    ascii "-----END SSH SIGNATURE-----\n"

def hexDigit (n : UInt8) : UInt8 := if n < 10 then 48 + n else 87 + n
def hexEncode (bytes : Bytes) : Bytes := bytes.flatMap fun b => [hexDigit (b / 16),hexDigit (b % 16)]

def fidoSshApplication : Bytes := ascii "ssh:"
def fidoUserPresent : UInt8 := 1
def gitSshsigNamespace : Bytes := ascii "git"

-- `debug` is the quoted form of a string in an error text.
section
variable (ssh : SshKey) (debug : Bytes → Bytes)

def p256Key : EcdsaPublicKey → Except Bytes PublishedKey
  | .nistP256 point =>
    if long : (ssh.compress point).length = 33 then .ok (.p256 ⟨ssh.compress point,long⟩)
    else .error (ascii "P-256 public key is not a curve point")
  | .other algorithm => .error (ascii "unsupported signature algorithm: " ++ algorithm)

-- A FIDO key signs only under the `ssh:` application, and only with a touch:
-- the flags stand before the four bytes of the counter.
def fidoGate (sig : SshSig) (application : Bytes) (key : PublishedKey) : Except Bytes PublishedKey :=
  if application ≠ fidoSshApplication then
    .error (ascii "FIDO key enrolled under application " ++ debug application ++ ascii ", not " ++
      debug fidoSshApplication)
  else if sig.signatureBytes.length < 5 then .error (ascii "FIDO signature is truncated")
  else
    let flags := sig.signatureBytes.getD (sig.signatureBytes.length - 5) 0
    if flags &&& fidoUserPresent = 0 then
      .error (ascii "FIDO signature was made without user presence (no touch)")
    else .ok key

def signingKey (sig : SshSig) : Except Bytes PublishedKey :=
  match sig.publicKey with
  | .ed25519 key => .ok (.ed25519 key)
  | .ecdsa key => p256Key ssh key
  | .skEd25519 key application => fidoGate debug sig application (.ed25519 key)
  | .skEcdsaSha2NistP256 point application =>
    match p256Key ssh (.nistP256 point) with
    | .error detail => .error detail
    | .ok key => fidoGate debug sig application key
  | .other => .error (ascii "unsupported signature algorithm: " ++ sig.algorithm)

variable (scid : Scid) (signers : ResolvedSigners Name) (exempt : Option ExemptKeyring)

def checkCommitSignature (raw : Bytes) : SignatureCheck :=
  match splitSignedCommit raw with
  | .error e => .malformed (ascii e)
  | .ok none => .unsigned
  | .ok (some (payload,pem)) =>
    if (ascii "-----BEGIN PGP SIGNATURE-----").isPrefixOf pem then
      match exempt with
      | none => .pgpRejected (ascii "PGP-signed commit, but no exempt keyring is configured")
      | some keyring =>
        match keyring pem payload with
        | .ok fingerprint => .exempt fingerprint
        | .error detail => .pgpRejected detail
    else
      match ssh.fromPem (normalizeSshsigArmor pem) with
      | .error e => .malformed (ascii "sshsig did not parse: " ++ e)
      | .ok sig =>
        match signingKey ssh debug sig with
        | .error detail => .malformed detail
        | .ok key =>
          match conflictingSignerDids scid payload with
          | some (trailer,committer) => .conflictingSignerDids trailer committer
          | none =>
            match signerDid scid payload with
            | none => .noSignerDid ((committerIdentity payload).getD (ascii "(absent)"))
            | some claimed =>
              match signers.keys claimed with
              | none => .unresolvedSigner claimed
                  ((signers.unresolved.lookup claimed).getD (ascii "not resolved"))
              | some published =>
                if key ∈ published then
                  if ssh.verify sig.publicKey gitSshsigNamespace payload sig then .valid claimed
                  else .badSignature claimed
                else .unknownKey claimed (hexEncode key.asBytes)

-- What stands behind a signature that counts for `did`.
structure SignedBy (raw did payload pem : Bytes) (sig : SshSig) (key : PublishedKey) : Prop where
  split : splitSignedCommit raw = .ok (some (payload,pem))
  plain : ¬ (ascii "-----BEGIN PGP SIGNATURE-----").isPrefixOf pem = true
  parsed : ssh.fromPem (normalizeSshsigArmor pem) = .ok sig
  keyed : signingKey ssh debug sig = .ok key
  agreed : conflictingSignerDids scid payload = none
  claimed : signerDid scid payload = some did
  published : ∃ keys, signers.keys did = some keys ∧ key ∈ keys
  verified : ssh.verify sig.publicKey gitSshsigNamespace payload sig = true

theorem valid_signed (valid : checkCommitSignature ssh debug scid signers exempt raw = .valid did) :
    ∃ payload pem sig key, SignedBy ssh debug scid signers raw did payload pem sig key := by
  unfold checkCommitSignature at valid
  split at valid
  · cases valid
  · cases valid
  · rename_i payload pem split
    split at valid
    · split at valid
      · cases valid
      · split at valid <;> cases valid
    · rename_i plain
      split at valid
      · cases valid
      · rename_i sig parsed
        split at valid
        · cases valid
        · rename_i key keyed
          split at valid
          · cases valid
          · rename_i agreed
            split at valid
            · cases valid
            · rename_i claimed found
              split at valid
              · cases valid
              · rename_i keys resolved
                split at valid
                · rename_i member
                  split at valid
                  · rename_i verified
                    cases valid
                    exact ⟨payload,pem,sig,key,split,plain,parsed,keyed,agreed,found,⟨keys,resolved,member⟩,
                      verified⟩
                  · cases valid
                · cases valid

theorem signed_valid (signed : SignedBy ssh debug scid signers raw did payload pem sig key) :
    checkCommitSignature ssh debug scid signers exempt raw = .valid did := by
  obtain ⟨keys,resolved,member⟩ := signed.published
  simp only [checkCommitSignature,signed.split,signed.plain,signed.parsed,signed.keyed,signed.agreed,
    signed.claimed,resolved,member,signed.verified,if_true,Bool.false_eq_true,if_false]

theorem valid_exact (raw did : Bytes) :
    checkCommitSignature ssh debug scid signers exempt raw = .valid did ↔
      ∃ payload pem sig key, SignedBy ssh debug scid signers raw did payload pem sig key := by
  constructor
  · exact valid_signed ssh debug scid signers exempt
  · rintro ⟨payload,pem,sig,key,signed⟩
    exact signed_valid ssh debug scid signers exempt signed

end

end VerifiableGit.Verify
