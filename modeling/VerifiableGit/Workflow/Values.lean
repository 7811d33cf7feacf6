import VerifiableGit.Qualified.Grammar

-- What a bootstrap plan accepts into a workflow (vgi-forge-github and
-- vgi-forge-forgejo, plan.rs). A text is the list of its characters.
namespace VerifiableGit.Workflow
open Qualified (Str text byteLength contains splitOnce stripPrefix trimEndMatches isWhitespace isControl backslash quoted)

-- The errors a plan can end in.
inductive ForgeError where
  | invalidResource (e : Qualified.ResourceError)
  | wrongResource (resource expected : Str)
  | config (why : Str)
deriving DecidableEq

abbrev Result := Except ForgeError

-- `std::str::from_utf8`
def fromUtf8 (bytes : List UInt8) : Option Str := (String.fromUTF8? bytes.toByteArray).map String.toList

-- What starts an Actions expression.
def expressionMark : Str := text "$\x7b\x7b"

def newline : Char := Char.ofNat 10
def carriageReturn : Char := Char.ofNat 13
def doubleQuote : Char := Char.ofNat 34
def quote : Char := Char.ofNat 39

def rsplitOnce (mark : Char) (s : Str) : Option (Str × Str) :=
  (splitOnce [mark] s.reverse).map fun parts => (parts.2.reverse,parts.1.reverse)

def isHexDigit (c : Char) : Bool := c.isDigit || (97 ≤ c.toNat && c.toNat ≤ 102) || (65 ≤ c.toNat && c.toNat ≤ 70)

def isGraphic (c : Char) : Bool := 33 ≤ c.toNat && c.toNat ≤ 126

def isPathChar (c : Char) : Bool := c.isAlphanum || c = '-' || c = '_' || c = '.'

-- `owner/repo[/path]@<40 hex>`
def isPinnedPath (reference : Str) : Bool :=
  (rsplitOnce '@' reference).any fun (path,sha) =>
    byteLength sha = 40 && sha.all isHexDigit && 2 ≤ (path.splitOn '/').length &&
      (path.splitOn '/').all fun s => !s.isEmpty && s ≠ text ".." && s.all isPathChar

-- A label, a tag: letters, digits, `-`, `_` or `.`.
def isLabel (most : Nat) (s : Str) : Bool := !s.isEmpty && byteLength s ≤ most && s.all isPathChar

def isDid (did : Str) : Bool :=
  (text "did:").isPrefixOf did && byteLength did ≤ 2048 && did.all fun c => isGraphic c && c ≠ quote && c ≠ doubleQuote

def notDid (field did : Str) : ForgeError :=
  .config (field ++ text " " ++ quoted did ++ text " is not a DID (expected `did:<method>:…`, no spaces or quotes)")

-- A check name that is not printable, or no name at all, or an expression.
def badName (most : Nat) (name : Str) : Bool :=
  name.all isWhitespace || most < byteLength name || name.any isControl || contains expressionMark name

def checkArmor (missing : Str) (bytes : List UInt8) : Result Unit :=
  match fromUtf8 bytes with
  | none => .error (.config (text "platform keyring is not ASCII armor"))
  | some armored =>
    if contains (text "PRIVATE KEY") armored then
      .error (.config (text "platform keyring contains a PRIVATE key block; supply the public key only"))
    else if contains (text "-----BEGIN PGP PUBLIC KEY BLOCK-----") armored then .ok ()
    else .error (.config missing)

namespace GitHub

def checkDid (field did : Str) : Result Unit :=
  if !contains expressionMark did && isDid did then .ok () else .error (notDid field did)

def checkPinned (what reference : Str) : Result Unit :=
  if isPinnedPath reference then .ok ()
  else .error (.config (what ++ text " " ++ quoted reference ++
    text " must be pinned to a commit: `owner/repo[/path]@<40-hex sha>`"))

def checkVersion (v : Str) : Result Unit :=
  if isLabel 64 v then .ok ()
  else .error (.config (text "verify-trust version " ++ quoted v ++ text " must be a release tag like `v0.5.0` or `latest`"))

def checkCheckName (name : Str) : Result Unit :=
  if badName 100 name then
    .error (.config (text "required check name " ++ quoted name ++ text " must be 1–100 printable characters"))
  else .ok ()

def checkKeyring (bytes : List UInt8) : Result Unit :=
  checkArmor (text "platform keyring is not an armored PGP public key block") bytes

-- A `\r` that no `\n` follows: a line break in YAML, not for `lines()`.
def loneCr : Str → Bool
  | [] => false
  | c :: rest => (c = carriageReturn && rest.head? ≠ some newline) || loneCr rest

def checkEmbeddableKeyring (bytes : List UInt8) : Result Unit :=
  match fromUtf8 bytes with
  | none => .error (.config (text "platform keyring is not ASCII armor"))
  | some armored =>
    if contains expressionMark armored || loneCr armored || armored.any fun c => isControl c && c ≠ newline && c ≠ carriageReturn then
      .error (.config (text "platform keyring holds characters that cannot be embedded in the required workflow"))
    else .ok ()

end GitHub

namespace Forgejo

-- The same as GitHub's, but for the expression.
def checkDid (field did : Str) : Result Unit := if isDid did then .ok () else .error (notDid field did)

def isFullUrlPin (reference : Str) : Bool :=
  ((stripPrefix (text "https://") reference).bind (splitOnce ['/'])).any fun (host,path) =>
    !host.isEmpty && host.all (fun c => c.isAlphanum || c = '.' || c = '-' || c = ':') && isPinnedPath path

def checkFullUrlPin (what reference : Str) : Result Unit :=
  if isFullUrlPin reference then .ok ()
  else .error (.config (what ++ text " " ++ quoted reference ++
    text " must be a full URL pinned to a commit: `https://<host>/owner/repo[/path]@<40-hex sha>`"))

def resolveAction (reference base : Str) : Result Str :=
  if (text "https://").isPrefixOf reference then do
    checkFullUrlPin (text "verify-trust action") reference
    pure reference
  else if !isPinnedPath reference then
    .error (.config (text "verify-trust action " ++ quoted reference ++
      text " must be pinned to a commit: `[https://<host>/]owner/repo[/path]@<40-hex sha>`"))
  else do
    let full := trimEndMatches '/' base ++ text "/" ++ reference
    checkFullUrlPin (text "verify-trust action") full
    pure full

def checkVersion (v : Str) : Result Unit :=
  if v ≠ text "latest" && isLabel 64 v then .ok ()
  else .error (.config (text "verify-trust version " ++ quoted v ++
    text " must be a release tag like `v0.5.0` — pinned, not `latest`, since the checksum is pinned with it"))

def checkSha256 (s : Str) : Result Unit :=
  if byteLength s = 64 && s.all fun c => c.isDigit || (97 ≤ c.toNat && c.toNat ≤ 102) then .ok ()
  else .error (.config (text "verify_trust_sha256 " ++ quoted s ++ text " must be 64 lowercase hex digits"))

def isGlob (name : Str) : Bool := name.any fun c => c ∈ text "*?[]\x7b\x7d" || c = backslash

def checkCheckName (name : Str) : Result Unit :=
  if isGlob name then
    .error (.config (text "check name " ++ quoted name ++ text " contains a glob character (`*?[]\x7b\x7d" ++ [backslash] ++
      text "`); Forgejo would read the required context as a pattern"))
  else if badName 200 name then
    .error (.config (text "check name " ++ quoted name ++ text " must be 1–200 printable characters"))
  else .ok ()

def checkRunsOn (label : Str) : Result Unit :=
  if isLabel 100 label then .ok ()
  else .error (.config (text "runner label " ++ quoted label ++ text " must be letters, digits, `-`, `_` or `.`"))

def checkKeyring (bytes : List UInt8) : Result Unit :=
  checkArmor (text ("the instance's signing key is not an armored PGP public key block — does the " ++
    "instance sign merges (`[repository.signing]`)?")) bytes

end Forgejo

def validateRepoPath (path : Str) : Result Unit :=
  if path.isEmpty || path.head? = some '/' || path.contains backslash ||
      (path.splitOn '/').any fun s => s.isEmpty || s = text "." || s = text ".." || s.any isControl then
    .error (.config (quoted path ++
      text " is not a clean repository-relative path (no leading `/`, no empty, `.` or `..` segments)"))
  else .ok ()

end VerifiableGit.Workflow
