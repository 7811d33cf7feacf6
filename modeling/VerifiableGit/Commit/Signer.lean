import VerifiableGit.Commit.Trailer

-- Whom a commit claims as its signer (vgi-core, commit.rs).
namespace VerifiableGit.Commit
open Text

-- The reading of `did:scid` references comes with the DID library.
structure Scid where
  scidSrc : Bytes → Option Bytes
  sameReference : Bytes → Bytes → Bool
  stripScidSrc : Bytes → Bytes

def splitFirst (stops : List UInt8) (text : Bytes) : Bytes := text.takeWhile fun b => b ∉ stops

-- `rfind('<')`, and the first `>` behind it.
def angleField (line : Bytes) : Option Bytes :=
  if 60 ∈ line then
    let inner := (line.reverse.takeWhile (· ≠ 60)).reverse
    if 62 ∈ inner then some (inner.takeWhile (· ≠ 62)) else none
  else none

def committerIdentity (commit : Bytes) : Option Bytes :=
  if isUtf8 commit then
    let headers := match splitBlank commit with
      | some (headers,_) => headers
      | none => commit
    match (lines headers).findSome? (stripPrefix (ascii "committer ")) with
    | some line => angleField line
    | none => none
  else none

section
variable (scid : Scid)

def claimedDid (value : Bytes) : Bytes :=
  let reference := splitFirst [35] value
  if (scid.scidSrc reference).isSome then reference else splitFirst [35,63,47] value

def committerDid (commit : Bytes) : Option Bytes :=
  match committerIdentity commit with
  | none => none
  | some identity =>
    if (ascii "did:").isPrefixOf identity then
      let did := claimedDid scid identity
      if did.isEmpty then none else some did
    else none

def trailerDid (commit : Bytes) : Option Bytes :=
  if isUtf8 commit then
    match splitBlank commit with
    | none => none
    | some (_,message) =>
      match lastTrailerValue message signerDidKey with
      | none => none
      | some value =>
        let value := trim isAsciiWhitespace value
        if (ascii "did:").isPrefixOf value then some (claimedDid scid value) else none
  else none

def signerDid (commit : Bytes) : Option Bytes :=
  (trailerDid scid commit).or (committerDid scid commit)

def sameSigner (a b : Bytes) : Bool := scid.sameReference a b

def conflictingSignerDids (commit : Bytes) : Option (Bytes × Bytes) :=
  match trailerDid scid commit,committerDid scid commit with
  | some trailer,some committer =>
    if sameSigner scid trailer committer then none else some (trailer,committer)
  | _,_ => none

def signerIdentity (did : Bytes) : Bytes := scid.stripScidSrc (splitFirst [35] did)

end

end VerifiableGit.Commit
