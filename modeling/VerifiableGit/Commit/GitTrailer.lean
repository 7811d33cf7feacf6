import VerifiableGit.Commit.Trailer

-- The reference: git's own trailer reader (trailer.c, commit.c, wt-status.c)
-- in its default configuration, on the pieces of a message.
namespace VerifiableGit.Commit.Git
open Text

-- `sane_ctype`: neither form feed nor vertical tab is a space.
def isSpace (b : UInt8) : Bool := b = 32 || b = 9 || b = 10 || b = 13

def cutLine : Bytes := ascii "# ------------------------ >8 ------------------------\n"

-- `ignored_log_message_bytes`. Offset 0 doubles as "no run of comments yet".
def tailStart (bol boc : Nat) (inOldConflictsBlock : Bool) : List Bytes → Nat
  | [] => boc
  | piece :: rest =>
    let first := if boc = 0 then bol else boc
    if isComment piece || piece.head? = some newline then tailStart (bol + 1) first inOldConflictsBlock rest
    else if (ascii "Conflicts:\n").isPrefixOf piece then tailStart (bol + 1) first true rest
    else if inOldConflictsBlock && piece.head? = some 9 then
      tailStart (bol + 1) boc inOldConflictsBlock rest
    else if boc ≠ 0 then tailStart (bol + 1) 0 false rest
    else tailStart (bol + 1) boc inOldConflictsBlock rest

def logMessage (ps : List Bytes) : List Bytes :=
  let located := ps.takeWhile fun piece => piece ≠ cutLine
  let boc := tailStart 0 0 false located
  if boc = 0 then located else located.take boc

def isBlankLine (piece : Bytes) : Bool :=
  match piece.dropWhile fun b => b ≠ newline && isSpace b with
  | [] => true
  | b :: _ => b = newline

def findSeparatorFrom (offset : Nat) (whitespaceFound : Bool) : Bytes → Option Nat
  | [] => none
  | c :: rest =>
    if c = colon then some offset
    else if !whitespaceFound && (isAsciiAlphanumeric c || c = 45) then
      findSeparatorFrom (offset + 1) whitespaceFound rest
    else if offset ≠ 0 ∧ (c = 32 ∨ c = 9) then findSeparatorFrom (offset + 1) true rest
    else none

-- `find_separator(…) >= 1`: the offset of the separator of a trailer line.
def findSeparator (piece : Bytes) : Option Nat :=
  (findSeparatorFrom 0 false piece).filter fun position => position ≥ 1

def blockStart (endOfTitle len : Nat) (scan : BlockScan) : List Bytes → Nat
  | [] => len
  | piece :: before =>
    if isComment piece then
      blockStart endOfTitle len { scan with
        nonTrailerLines := scan.nonTrailerLines + scan.possibleContinuationLines
        possibleContinuationLines := 0 } before
    else if isBlankLine piece then
      if scan.onlySpaces then blockStart endOfTitle len scan before
      else
        let nonTrailerLines := scan.nonTrailerLines + scan.possibleContinuationLines
        if scan.recognizedPrefix ∧ scan.trailerLines * 3 ≥ nonTrailerLines then
          endOfTitle + before.length + 1
        else if scan.trailerLines ≠ 0 ∧ nonTrailerLines = 0 then endOfTitle + before.length + 1
        else len
    else if isGenerated piece then
      blockStart endOfTitle len { scan with
        onlySpaces := false
        trailerLines := scan.trailerLines + 1
        possibleContinuationLines := 0
        recognizedPrefix := true } before
    else if (findSeparator piece).isSome && !piece.head?.any isSpace then
      blockStart endOfTitle len { scan with
        onlySpaces := false
        trailerLines := scan.trailerLines + 1
        possibleContinuationLines := 0 } before
    else if piece.head?.any isSpace then
      blockStart endOfTitle len { scan with
        onlySpaces := false
        possibleContinuationLines := scan.possibleContinuationLines + 1 } before
    else
      blockStart endOfTitle len { scan with
        onlySpaces := false
        nonTrailerLines := scan.nonTrailerLines + 1 + scan.possibleContinuationLines
        possibleContinuationLines := 0 } before

def findTrailerBlockStart (ps : List Bytes) : Nat :=
  let endOfTitle := (ps.takeWhile fun piece => isComment piece || !isBlankLine piece).length
  blockStart endOfTitle ps.length .initial (ps.drop endOfTitle).reverse

-- `trailer_block_get`: the entries of the block, each with its continuations.
def trailerStrings (last : Option Bytes) : List Bytes → List Bytes
  | [] => last.toList
  | piece :: rest =>
    match last with
    | some entry =>
      if piece.head?.any isSpace then trailerStrings (some (entry ++ piece)) rest
      else entry ::
        (if (findSeparator piece).isSome then trailerStrings (some piece) rest
        else piece :: trailerStrings none rest)
    | none =>
      if (findSeparator piece).isSome then trailerStrings (some piece) rest
      else piece :: trailerStrings none rest

def unfoldFrom (skipping : Bool) : Bytes → Bytes
  | [] => []
  | c :: rest =>
    if skipping && isSpace c then unfoldFrom true rest
    else if c = newline then space :: unfoldFrom true rest
    else c :: unfoldFrom false rest

def unfoldValue (value : Bytes) : Bytes := trim isSpace (unfoldFrom false value)

-- `parse_trailers` with the key filter of `%(trailers:key=…,unfold)`.
def trailerValue (key entry : Bytes) : Option Bytes :=
  if isComment entry then none
  else match findSeparator entry with
    | none => none
    | some position =>
      if eqIgnoreAsciiCase (trim isSpace (entry.take position)) key then
        some (unfoldValue (trim isSpace (entry.drop (position + 1))))
      else none

def lastTrailer (message key : Bytes) : Option Bytes :=
  let ps := (logMessage (pieces message)).dropWhile isBlankLine
  ((trailerStrings none (ps.drop (findTrailerBlockStart ps))).filterMap (trailerValue key)).getLast?

end VerifiableGit.Commit.Git
