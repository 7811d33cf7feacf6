import VerifiableGit.Verify.Status
import VerifiableGit.Library.Rounds

-- `apply_platform_merge_policy` (verify-trust, lib.rs).
namespace VerifiableGit.Verify
open Text

inductive MergeOutcome where
  | clean (tree : Bytes)
  | conflict
  | unavailable (why : Bytes)
deriving DecidableEq

structure MergeFacts where
  boundary : List Bytes
  merges : Bytes → Option MergeOutcome

-- Git's answers are what the checkout says; facts come from the caller.
inductive MergeSource where
  | git (rangeBoundary : Except Bytes (List Bytes)) (requireAttrSource : Except Bytes Unit)
      (recomputeMerge : Bytes → Bytes → MergeOutcome)
  | facts (given : MergeFacts)

def MergeSource.boundary : MergeSource → Except Bytes (List Bytes)
  | .git rangeBoundary _ _ => rangeBoundary
  | .facts given => .ok given.boundary

def MergeSource.requireAttrSource : MergeSource → Except Bytes Unit
  | .git _ requireAttrSource _ => requireAttrSource
  | .facts _ => .ok ()

def MergeSource.recompute (source : MergeSource) (sha ours theirs : Bytes) : MergeOutcome :=
  match source with
  | .git _ _ recomputeMerge => recomputeMerge ours theirs
  | .facts given =>
    (given.merges sha).getD (.unavailable (ascii "the merge was not recomputed for this check"))

def commitHeaders (raw : Bytes) : List Bytes :=
  let block := match splitBlank raw with
    | some (headers,_) => headers
    | none => raw
  (lines block).filter fun line => !([space].isPrefixOf line) && isUtf8 line

def commitParents (raw : Bytes) : List Bytes :=
  (commitHeaders raw).filterMap (stripPrefix (ascii "parent "))

def commitTree (raw : Bytes) : Option Bytes :=
  (commitHeaders raw).findSome? (stripPrefix (ascii "tree "))

def cleanMergeMismatch (raw : Bytes) (parents : List Bytes) (recompute : Bytes → Bytes → MergeOutcome) :
    Option Bytes :=
  match parents with
  | [ours,theirs] =>
    match commitTree raw with
    | none => some (ascii "commit has no tree header")
    | some tree =>
      match recompute ours theirs with
      | .clean merged =>
        if merged = tree then none
        else some (ascii "tree " ++ tree ++ ascii " is not the clean merge of its parents (" ++ merged ++
          ascii "); the merge added content of its own")
      | .conflict => some (ascii ("its parents do not merge cleanly, so the conflicts were resolved by hand " ++
          "(e.g. in the web UI) and that resolution is unsigned content"))
      | .unavailable why => some (ascii "could not recompute the merge: " ++ why)
  | _ => some (ascii (toString parents.length) ++
      ascii "-parent merge; the platform creates only two-parent merges")

-- A commit with its verdict. The source keeps the undecided ones as a set of
-- indices; here each carries the flag.
structure Row where
  commit : RangeCommit
  status : CommitStatus
  undecided : Bool

-- `position`: of two commits with one id the later.
def lookup (rows : List Row) (sha : Bytes) : Option Row :=
  rows.reverse.find? fun row => row.commit.sha = sha

section
variable (source : MergeSource) (position : Bytes → Option Row)

-- The parents in order, up to the first that fails.
def scanParents (waiting : Bool) : List Bytes → Except Bytes (Option Bytes × Bool)
  | [] => .ok (none,waiting)
  | parent :: rest =>
    match position parent with
    | some row =>
      if row.undecided then scanParents true rest
      else if row.status.passes then scanParents waiting rest
      else .ok (some parent,waiting)
    | none => do
      let boundary ← source.boundary
      if parent ∈ boundary then scanParents waiting rest else .ok (some parent,waiting)

def settleRow (row : Row) : Except Bytes (Option CommitStatus) :=
  if row.undecided then
    match row.status with
    | .exempt fingerprint =>
      let parents := commitParents row.commit.raw
      if parents.length < 2 then .ok (some (.platformSignedEdit fingerprint))
      else do
        let (failed,waiting) ← scanParents source position false parents
        match failed with
        | some parent => .ok (some (.platformMergeUnverifiedParent fingerprint parent))
        | none =>
          if waiting then .ok none
          else do
            source.requireAttrSource
            match cleanMergeMismatch row.commit.raw parents (source.recompute row.commit.sha) with
            | none => .ok (some (.exempt fingerprint))
            | some detail => .ok (some (.platformMergeAltered fingerprint detail))
    | _ => .ok none
  else .ok none

def Row.settle (row : Row) : Option CommitStatus → Row
  | none => row
  | some status => { row with status := status, undecided := false }

-- One round: every verdict is found from the rows as they stood before it. The
-- flag says whether any row was settled.
def settleAll : List Row → Except Bytes (List Row × Bool)
  | [] => .ok ([],false)
  | row :: rest => do
    let status ← settleRow source position row
    let (rest,settled) ← settleAll rest
    .ok (row.settle status :: rest,status.isSome || settled)

end

def Row.cyclic (row : Row) : Row :=
  match row.undecided,row.status with
  | true,.exempt fingerprint =>
    { row with status := .platformMergeUnverifiedParent fingerprint (ascii "(cyclic parent chain)") }
  | _,_ => row

def undecidedCount (rows : List Row) : Nat := rows.countP (·.undecided)

theorem settleRow_undecided (settled : settleRow source position row = .ok (some status)) :
    row.undecided = true := by
  by_contra decided
  rw [settleRow,if_neg decided] at settled
  cases settled

theorem settleAll_counts (settled : settleAll source position rows = .ok (next,any)) :
    undecidedCount next + any.toNat ≤ undecidedCount rows ∧ (any = false → next = rows) := by
  induction rows generalizing next any with
  | nil =>
    cases settled
    simp [undecidedCount]
  | cons row rest ih =>
    rw [settleAll] at settled
    cases first : settleRow source position row with
    | error why => rw [first] at settled; cases settled
    | ok status =>
      cases others : settleAll source position rest with
      | error why => rw [first,others] at settled; cases settled
      | ok result =>
        obtain ⟨rest',any'⟩ := result
        rw [first,others] at settled
        cases settled
        obtain ⟨fewer,same⟩ := ih others
        cases status with
        | none =>
          refine ⟨?_,fun none => by simp [Row.settle,same none]⟩
          simp only [undecidedCount,List.countP_cons,Row.settle,Option.isSome_none,Bool.false_or] at fewer ⊢
          omega
        | some status =>
          have open_ := settleRow_undecided first
          refine ⟨?_,by simp⟩
          simp only [undecidedCount,List.countP_cons,Row.settle,open_,Option.isSome_some,Bool.true_or,
            Bool.toNat_true,if_true,Bool.false_eq_true,if_false] at fewer ⊢
          omega

def settleRounds (source : MergeSource) (rows : List Row) : Except Bytes (List Row) :=
  if rows.any (·.undecided) then
    match _round : settleAll source (lookup rows) rows with
    | .error why => .error why
    -- Unreachable for a real commit graph; such a verdict must not stay a pass.
    | .ok (_,false) => .ok (rows.map Row.cyclic)
    | .ok (next,true) => settleRounds source next
  else .ok rows
termination_by undecidedCount rows
decreasing_by
  have := (settleAll_counts _round).1
  simp only [Bool.toNat_true] at this
  omega

theorem settleRounds_step (source : MergeSource) (rows : List Row) : settleRounds source rows =
    if rows.any (·.undecided) then
      match settleAll source (lookup rows) rows with
      | .error why => .error why
      | .ok (_,false) => .ok (rows.map Row.cyclic)
      | .ok (next,true) => settleRounds source next
    else .ok rows := by
  rw [settleRounds]
  split
  · split <;> rename_i found <;> simp only [found]
  · rfl

theorem settleRounds_settled (source : MergeSource) (rows : List Row)
    (settled : rows.any (·.undecided) = false) :
    settleRounds source rows = .ok rows := by
  rw [settleRounds_step,if_neg (by simp [settled])]

def provisional (commits : List RangeCommit) (verdicts : List CommitVerdict) : List Row :=
  List.zipWith (fun commit verdict => ⟨commit,verdict.status,verdict.status.isExempt⟩) commits verdicts

def applyPlatformMergePolicy (source : MergeSource) (commits : List RangeCommit)
    (verdicts : List CommitVerdict) : Except Bytes (List CommitVerdict) := do
  let rows ← settleRounds source (provisional commits verdicts)
  .ok (List.zipWith (fun verdict row => { verdict with status := row.status }) verdicts rows)

end VerifiableGit.Verify
