import VerifiableGit.Text

-- The trailer reader of vgi-core (commit.rs). `ws` is the class of bytes it
-- takes for white space; the code's own is `isAsciiWhitespace`.
namespace VerifiableGit.Commit
open Text

def isAsciiWhitespace (b : UInt8) : Bool := b = 32 || b = 9 || b = 10 || b = 12 || b = 13

def isAsciiAlphanumeric (b : UInt8) : Bool :=
  (48 ≤ b && b ≤ 57) || (65 ≤ b && b ≤ 90) || (97 ≤ b && b ≤ 122)

def toAsciiLowercase (b : UInt8) : UInt8 := if 65 ≤ b && b ≤ 90 then b + 32 else b

def eqIgnoreAsciiCase (left right : Bytes) : Bool :=
  left.map toAsciiLowercase = right.map toAsciiLowercase

def colon : UInt8 := 58
def commentPrefix : UInt8 := 35

def signerDidKey : Bytes := ascii "Signed-by-DID"

def gitGeneratedPrefixes : List Bytes :=
  [ascii "Signed-off-by: ",ascii "(cherry picked from commit "]

def isComment (line : Bytes) : Bool := line.head? = some commentPrefix

def isGenerated (line : Bytes) : Bool := gitGeneratedPrefixes.any fun start => start.isPrefixOf line

def separatorFrom (offset : Nat) (whitespaceFound : Bool) : Bytes → Option Nat
  | [] => none
  | c :: rest =>
    if c = colon then (if offset ≥ 1 then some offset else none)
    else if !whitespaceFound && (isAsciiAlphanumeric c || c = 45) then
      separatorFrom (offset + 1) whitespaceFound rest
    else if offset ≠ 0 ∧ (c = 32 ∨ c = 9) then separatorFrom (offset + 1) true rest
    else none

def separatorPos (line : Bytes) : Option Nat := separatorFrom 0 false line

-- `message.split('\n')`, less the empty last line of a message that ends in a
-- newline.
def messageLines (message : Bytes) : List Bytes :=
  let ls := lines message
  if ls.getLast? = some [] then ls.dropLast else ls

structure BlockScan where
  recognizedPrefix : Bool
  trailerLines : Nat
  nonTrailerLines : Nat
  possibleContinuationLines : Nat
  onlySpaces : Bool

def BlockScan.initial : BlockScan := ⟨false,0,0,0,true⟩

section
variable (ws : UInt8 → Bool)

def isBlank (line : Bytes) : Bool := (trim ws line).isEmpty

def startsWithSpace (line : Bytes) : Bool := line.head?.any ws

def unfoldFrom (value : Bytes) : Bytes :=
  match value with
  | [] => []
  | b :: rest => if b = newline then space :: unfoldFrom (trimStart ws rest) else b :: unfoldFrom rest
termination_by value.length
decreasing_by
  · have := (List.dropWhile_suffix ws (l := rest)).length_le
    simp only [trimStart,List.length_cons]
    omega
  · simp

def unfold (value : Bytes) : Bytes := trim ws (unfoldFrom ws value)

-- The backward scan over the lines from the end of the title on, last line
-- first; the index of a line is what stands before it.
def scanBlock (endOfTitle : Nat) (scan : BlockScan) : List Bytes → Option Nat
  | [] => none
  | line :: before =>
    if isComment line then
      scanBlock endOfTitle { scan with
        nonTrailerLines := scan.nonTrailerLines + scan.possibleContinuationLines
        possibleContinuationLines := 0 } before
    else if isBlank ws line then
      if scan.onlySpaces then scanBlock endOfTitle scan before
      else
        let nonTrailerLines := scan.nonTrailerLines + scan.possibleContinuationLines
        if scan.recognizedPrefix ∧ scan.trailerLines * 3 ≥ nonTrailerLines then
          some (endOfTitle + before.length + 1)
        else if scan.trailerLines > 0 ∧ nonTrailerLines = 0 then some (endOfTitle + before.length + 1)
        else none
    else if isGenerated line then
      scanBlock endOfTitle { scan with
        onlySpaces := false
        trailerLines := scan.trailerLines + 1
        possibleContinuationLines := 0
        recognizedPrefix := true } before
    else if (separatorPos line).isSome then
      scanBlock endOfTitle { scan with
        onlySpaces := false
        trailerLines := scan.trailerLines + 1
        possibleContinuationLines := 0 } before
    else if startsWithSpace ws line then
      scanBlock endOfTitle { scan with
        onlySpaces := false
        possibleContinuationLines := scan.possibleContinuationLines + 1 } before
    else
      scanBlock endOfTitle { scan with
        onlySpaces := false
        nonTrailerLines := scan.nonTrailerLines + 1 + scan.possibleContinuationLines
        possibleContinuationLines := 0 } before

def trailerBlockStart (ls : List Bytes) : Option Nat :=
  match ls.findIdx? fun line => !isComment line && isBlank ws line with
  | none => none
  | some endOfTitle => scanBlock ws endOfTitle .initial (ls.drop endOfTitle).reverse

-- The entries of the block: the value of the last one named `key`, and whether
-- an entry is open for continuation lines and is the one looked for.
def collectTrailer (key : Bytes) (value : Option Bytes) (opened : Option Bool) :
    List Bytes → Option Bytes
  | [] => value
  | line :: rest =>
    if opened.isSome && startsWithSpace ws line then
      collectTrailer key
        (if opened = some true then value.map fun value => value ++ newline :: line else value)
        opened rest
    else match separatorPos line with
      | some position =>
        let matched := eqIgnoreAsciiCase (trim ws (line.take position)) key
        collectTrailer key (if matched then some (line.drop (position + 1)) else value)
          (some matched) rest
      | none => collectTrailer key value none rest

def blockValue (key : Bytes) (ls : List Bytes) : Option Bytes :=
  match trailerBlockStart ws ls with
  | none => none
  | some start =>
    (collectTrailer ws key none none (ls.drop start)).map fun value => unfold ws (trim ws value)

def lastTrailerValueBy (message key : Bytes) : Option Bytes :=
  let ls := messageLines message
  let beforeSubject := (ls.takeWhile (isBlank ws)).length
  blockValue ws key (ls.drop beforeSubject)

end

def lastTrailerValue (message key : Bytes) : Option Bytes :=
  lastTrailerValueBy isAsciiWhitespace message key

end VerifiableGit.Commit
