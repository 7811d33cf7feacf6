import Mathlib.Algebra.GroupWithZero.Nat
import Mathlib.Data.List.Basic
import Mathlib.Data.List.Infix
import Mathlib.Data.List.TakeWhile
import Mathlib.Data.List.DropRight

-- Forge-qualified resources: the check of one, and containment of two (vgi-core,
-- resource.rs). A text is the list of its characters.
namespace VerifiableGit.Qualified

abbrev Str := List Char

def text (s : String) : Str := s.toList

def byteLength (s : Str) : Nat := (s.map Char.utf8Size).sum

-- `char::is_whitespace` and `char::is_control`.
def isWhitespace (c : Char) : Bool :=
  (9 ≤ c.toNat && c.toNat ≤ 13) || c.toNat = 32 || c.toNat = 0x85 || c.toNat = 0xA0 || c.toNat = 0x1680 ||
    (0x2000 ≤ c.toNat && c.toNat ≤ 0x200A) || c.toNat = 0x2028 || c.toNat = 0x2029 || c.toNat = 0x202F ||
    c.toNat = 0x205F || c.toNat = 0x3000

def isControl (c : Char) : Bool := c.toNat < 32 || (127 ≤ c.toNat && c.toNat ≤ 159)

def isAscii (s : Str) : Bool := s.all fun c => c.toNat < 128

def lower (s : Str) : Str := s.map Char.toLower

def stripPrefix (start s : Str) : Option Str := if start.isPrefixOf s then some (s.drop start.length) else none

def splitOnce (mark : Str) : Str → Option (Str × Str)
  | [] => if mark.isEmpty then some ([],[]) else none
  | c :: rest =>
    if mark.isPrefixOf (c :: rest) then some ([],(c :: rest).drop mark.length)
    else (splitOnce mark rest).map fun parts => (c :: parts.1,parts.2)

def contains (mark s : Str) : Bool := (splitOnce mark s).isSome

def trimEndMatches (c : Char) (s : Str) : Str := s.rdropWhile (· = c)

def trimMatches (c : Char) (s : Str) : Str := trimEndMatches c (s.dropWhile (· = c))

def maxResourceLen : Nat := 512
def maxPathSegments : Nat := 21

inductive ResourceErrorKind where
  | empty
  | tooLong
  | whitespace
  | nonAscii
  | hasScheme
  | missingForgeHost
  | invalidHost
  | hasPort
  | missingOwner
  | emptySegment
  | dotSegment
  | invalidCharacter (c : Char)
  | tooManySegments (max : Nat)
deriving DecidableEq

structure ResourceError where
  input : Str
  kind : ResourceErrorKind
deriving DecidableEq

-- As many characters as fit whole into so many bytes.
def takeBytes : Nat → Str → Str
  | _,[] => []
  | n,c :: rest => if c.utf8Size ≤ n then c :: takeBytes (n - c.utf8Size) rest else []

def ResourceError.new (input : Str) (kind : ResourceErrorKind) : ResourceError :=
  ⟨if 80 < byteLength input then takeBytes 80 input ++ text "…" else input,kind⟩

def suggestWithoutScheme (input : Str) : Str :=
  let rest := ((splitOnce (text "://") input).map (·.2)).getD input
  let rest := trimEndMatches '/' rest
  let git := text ".git"
  lower (if git.isSuffixOf rest then rest.take (rest.length - git.length) else rest)

def suggestWithoutPort (input : Str) : Str :=
  let lowered := lower input
  match splitOnce (text "/") lowered with
  | some (host,rest) => ((splitOnce (text ":") host).map (·.1)).getD host ++ '/' :: rest
  | none => lowered

def suggestCollapsed (input : Str) : Str :=
  ['/'].intercalate (((lower input).splitOn '/').filter (· ≠ []))

def hexDigits (n : Nat) : Str := Nat.toDigits 16 n

def backslash : Char := Char.ofNat 92

-- `char::escape_default`.
def escapeDefault (c : Char) : Str :=
  if c.toNat = 9 then [backslash,'t']
  else if c.toNat = 10 then [backslash,'n']
  else if c.toNat = 13 then [backslash,'r']
  else if c.toNat = 34 ∨ c.toNat = 39 ∨ c = backslash then [backslash,c]
  else if 32 ≤ c.toNat ∧ c.toNat < 127 then [c]
  else [backslash,'u',Char.ofNat 123] ++ hexDigits c.toNat ++ [Char.ofNat 125]

def shape : Str := text "`<forge-host>/<owner>[/<repo>]`"

def quoted (s : Str) : Str := text "`" ++ s ++ text "`"

-- The message, naming the value.
def ResourceError.describe (e : ResourceError) (what : Str) : Str :=
  match e.kind with
  | .empty => what ++ text " is empty; expected " ++ shape ++ text ", e.g. `github.com/acme/widgets`"
  | .tooLong => what ++ text " " ++ quoted e.input ++ text " is longer than " ++ text (toString maxResourceLen) ++
      text " bytes"
  | .whitespace => what ++ text " " ++ quoted e.input ++
      text " contains whitespace or a control character; a resource is " ++ shape ++ text " with no spaces"
  | .nonAscii => what ++ text " " ++ quoted e.input ++
      text " contains a non-ASCII character; forge hosts are written in punycode and owner/repo names are ASCII"
  | .hasScheme => what ++ text " " ++ quoted e.input ++ text " is a URL, not a resource; did you mean " ++
      quoted (suggestWithoutScheme e.input) ++ text "?"
  | .missingForgeHost =>
    let bare := lower (trimMatches '/' e.input)
    what ++ text " " ++ quoted e.input ++ text " is not forge-qualified (expected " ++ shape ++
      text "); prefix the forge host, e.g. " ++ quoted (text "github.com/" ++ bare) ++ text " or " ++
      quoted (text "codeberg.org/" ++ bare)
  | .invalidHost => what ++ text " " ++ quoted e.input ++
      text (" starts with an invalid forge host; a host is dot-separated labels of [a-z0-9-] (e.g. `github.com`, " ++
        "`git.example.org`) or `localhost`")
  | .hasPort => what ++ text " " ++ quoted e.input ++
      text " carries a port; a resource names the forge by host alone — did you mean " ++
      quoted (suggestWithoutPort e.input) ++ text "?"
  | .missingOwner =>
    let host := lower (trimEndMatches '/' e.input)
    what ++ text " " ++ quoted e.input ++ text " names a forge but no owner; e.g. " ++
      quoted (host ++ text "/acme") ++ text " or " ++ quoted (host ++ text "/acme/widgets")
  | .emptySegment => what ++ text " " ++ quoted e.input ++
      text " has an empty path segment (a doubled, leading or trailing `/`); did you mean " ++
      quoted (suggestCollapsed e.input) ++ text "?"
  | .dotSegment => what ++ text " " ++ quoted e.input ++
      text " has a `.` or `..` segment; name the owner and repo directly"
  | .invalidCharacter c => what ++ text " " ++ quoted e.input ++ text " contains " ++ quoted (escapeDefault c) ++
      text "; owner and repo segments may only contain letters, digits, `.`, `_` and `-`"
  | .tooManySegments max => what ++ text " " ++ quoted e.input ++
      text " has too many segments for this forge: at most " ++ text (toString max) ++
      text " after the host (`<forge-host>/<owner>/<repo>`)"

def looksLikeHost (segment : Str) : Bool := segment.contains '.' || segment = text "localhost"

def isLabelChar (c : Char) : Bool := c.isLower || c.isDigit || c = '-'

def isValidLabel (label : Str) : Bool :=
  !label.isEmpty && byteLength label ≤ 63 && label.head? ≠ some '-' && label.getLast? ≠ some '-' &&
    label.all isLabelChar

def isValidHost (host : Str) : Bool := byteLength host ≤ 253 && (host.splitOn '.').all isValidLabel

def isSegmentChar (c : Char) : Bool := c.isLower || c.isDigit || c = '.' || c = '_' || c = '-'

def checkText (raw : Str) : Except ResourceErrorKind Unit :=
  if raw.all isWhitespace then .error .empty
  else if maxResourceLen < byteLength raw then .error .tooLong
  else if raw.any fun c => isWhitespace c || isControl c then .error .whitespace
  else if !isAscii raw then .error .nonAscii
  else if contains (text "://") raw then .error .hasScheme
  else .ok ()

-- The host decides first whether this is the `owner/repo` form.
def checkHost (host : Str) (next : Option Str) : Except ResourceErrorKind Unit :=
  if host = [] then
    .error (if next.any fun next => next ≠ [] && !looksLikeHost next then .missingForgeHost else .emptySegment)
  else
    match splitOnce [':'] host with
    | some (name,_) => .error (if looksLikeHost name then .hasPort else .invalidHost)
    | none =>
      if !looksLikeHost host then .error .missingForgeHost
      else if !isValidHost host then .error .invalidHost
      else .ok ()

def checkPath (path : List Str) (maxPathSegments : Nat) : Except ResourceErrorKind Unit :=
  if path = [] ∨ path = [[]] then .error .missingOwner
  else if path.any (· = []) then .error .emptySegment
  else if path.any fun s => s = text "." || s = text ".." then .error .dotSegment
  else
    match path.flatten.find? fun c => !isSegmentChar c with
    | some c => .error (.invalidCharacter c)
    | none =>
      if maxPathSegments < path.length then .error (.tooManySegments maxPathSegments)
      else .ok ()

def checked (raw : Str) (maxPathSegments : Nat) : Except ResourceErrorKind Str := do
  checkText raw
  let lowered := lower raw
  let segments := lowered.splitOn '/'
  checkHost (segments.headD []) segments[1]?
  checkPath segments.tail maxPathSegments
  pure lowered

def normalizeResourceWithDepth (raw : Str) (maxPathSegments : Nat) : Except ResourceError Str :=
  (checked raw maxPathSegments).mapError (ResourceError.new raw)

def normalizeResource (raw : Str) : Except ResourceError Str := normalizeResourceWithDepth raw maxPathSegments

def resourceContains (scope_ resource : Str) : Bool :=
  match stripPrefix scope_ resource with
  | some rest => rest.isEmpty || rest.head? = some '/'
  | none => false

end VerifiableGit.Qualified
