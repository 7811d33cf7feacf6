import VerifiableGit.Verify.MergePolicy

-- Two sources of merge facts that answer alike about the commits still open
-- settle them alike, round by round.
namespace VerifiableGit.Verify
open Text

-- What a source tells of a boundary it has and a git that is new enough.
structure MergeSource.Tells (source : MergeSource) (boundary : List Bytes) : Prop where
  boundary : source.boundary = .ok boundary
  attrs : source.requireAttrSource = .ok ()

-- Alike about one commit of a range: its parents outside the range, and its merge.
structure Alike (one two : MergeSource) (first second : List Bytes) (listed : List Bytes)
    (commit : RangeCommit) : Prop where
  outside : ∀ parent ∈ commitParents commit.raw, parent ∉ listed → (parent ∈ first ↔ parent ∈ second)
  merge : ∀ ours theirs, commitParents commit.raw = [ours,theirs] →
    one.recompute commit.sha ours theirs = two.recompute commit.sha ours theirs

theorem cleanMergeMismatch_alike (raw : Bytes) (parents : List Bytes) {f g : Bytes → Bytes → MergeOutcome}
    (same : ∀ ours theirs, parents = [ours,theirs] → f ours theirs = g ours theirs) :
    cleanMergeMismatch raw parents f = cleanMergeMismatch raw parents g := by
  match parents with
  | [] => rfl
  | [_] => rfl
  | [ours,theirs] =>
    simp only [cleanMergeMismatch,same ours theirs rfl]
  | _ :: _ :: _ :: _ => rfl

section
variable {one two : MergeSource} {first second listed : List Bytes}
variable (tells : one.Tells first) (tells' : two.Tells second)

include tells tells'

theorem scanParents_alike (position : Bytes → Option Row) (parents : List Bytes) (waiting : Bool)
    (alike : ∀ parent ∈ parents, position parent = none → (parent ∈ first ↔ parent ∈ second)) :
    scanParents one position waiting parents = scanParents two position waiting parents := by
  induction parents generalizing waiting with
  | nil => rfl
  | cons parent rest ih =>
    have later (waiting : Bool) := ih waiting fun other inside => alike other (List.mem_cons_of_mem _ inside)
    simp only [scanParents,later,tells.boundary,tells'.boundary]
    cases found : position parent with
    | some row => rfl
    | none =>
      have same := alike parent List.mem_cons_self found
      by_cases inside : parent ∈ first
      · simp only [bind,Except.bind,inside,same.mp inside,if_true]
      · simp only [bind,Except.bind,inside,mt same.mpr inside,if_false]

theorem settleRow_alike {position : Bytes → Option Row} {row : Row}
    (known : ∀ parent, position parent = none → parent ∉ listed)
    (alike : row.undecided = true → Alike one two first second listed row.commit) :
    settleRow one position row = settleRow two position row := by
  unfold settleRow
  split
  · rename_i open_
    have alike := alike open_
    split
    · have scan := scanParents_alike tells tells' position (commitParents row.commit.raw) false
        fun parent inside absent => alike.outside parent inside (known parent absent)
      have merged := cleanMergeMismatch_alike row.commit.raw (commitParents row.commit.raw) alike.merge
      simp only [scan,tells.attrs,tells'.attrs,merged]
    · rfl
  · rfl

theorem settleAll_alike {position : Bytes → Option Row} {rows : List Row}
    (known : ∀ parent, position parent = none → parent ∉ listed)
    (alike : ∀ row ∈ rows, row.undecided = true → Alike one two first second listed row.commit) :
    settleAll one position rows = settleAll two position rows := by
  induction rows with
  | nil => rfl
  | cons row rest ih =>
    simp only [settleAll,settleRow_alike tells tells' known (alike row List.mem_cons_self),
      ih fun other inside => alike other (List.mem_cons_of_mem _ inside)]

end

theorem settle_commit (row : Row) (status : Option CommitStatus) : (row.settle status).commit = row.commit := by
  cases status <;> rfl

-- A round keeps the commits, and what it leaves open it leaves as it was.
theorem settleAll_keeps_open (settled : settleAll source position rows = .ok (next,any)) :
    next.map (·.commit) = rows.map (·.commit) ∧ ∀ row ∈ next, row.undecided = true → row ∈ rows := by
  induction rows generalizing next any with
  | nil =>
    cases settled
    exact ⟨rfl,fun _ absent => nomatch absent⟩
  | cons row rest ih =>
    rw [settleAll] at settled
    cases one : settleRow source position row with
    | error why => rw [one] at settled; cases settled
    | ok status =>
      cases others : settleAll source position rest with
      | error why => rw [one,others] at settled; cases settled
      | ok result =>
        rw [one,others] at settled
        cases settled
        obtain ⟨same,open_⟩ := ih others
        refine ⟨?_,fun other inside undecided => ?_⟩
        · simp only [List.map_cons,settle_commit,same]
        · rcases List.mem_cons.mp inside with rfl | later
          · cases status with
            | none => exact List.mem_cons_self
            | some status => cases undecided
          · exact List.mem_cons_of_mem _ (open_ other later undecided)

theorem listed_lookup {rows : List Row} (listed : rows.map (·.commit.sha) = shas) (absent : lookup rows parent = none) :
    parent ∉ shas := by
  rw [← listed]
  intro inside
  obtain ⟨row,member,same⟩ := List.mem_map.mp inside
  exact lookup_none.mp absent row member same

theorem settleRounds_alike {one two : MergeSource} {first second listed : List Bytes} (tells : one.Tells first)
    (tells' : two.Tells second) (rows : List Row) (shas : rows.map (·.commit.sha) = listed)
    (alike : ∀ row ∈ rows, row.undecided = true → Alike one two first second listed row.commit) :
    settleRounds one rows = settleRounds two rows := by
  induction size : undecidedCount rows using Nat.strongRecOn generalizing rows with
  | ind n ih =>
    have round : settleAll one (lookup rows) rows = settleAll two (lookup rows) rows :=
      settleAll_alike tells tells' (fun _ absent => listed_lookup shas absent) alike
    rw [settleRounds_step,settleRounds_step,← round]
    split
    · split
      · rfl
      · rfl
      · rename_i next moved
        obtain ⟨same,open_⟩ := settleAll_keeps_open moved
        have fewer := (settleAll_counts moved).1
        refine ih (undecidedCount next) ?_ next ?_ (fun row inside undecided => ?_) rfl
        · rw [← size]
          exact Nat.lt_of_succ_le fewer
        · have same := congrArg (List.map RangeCommit.sha) same
          simp only [List.map_map] at same
          exact same.trans shas
        · exact alike row (open_ row inside undecided) undecided
    · rfl

theorem policy_alike {one two : MergeSource} {first second : List Bytes} {commits : List RangeCommit}
    {verdicts : List CommitVerdict} (tells : one.Tells first) (tells' : two.Tells second)
    (aligned : commits.length = verdicts.length)
    (alike : ∀ commit verdict, (commit,verdict) ∈ commits.zip verdicts → verdict.status.isExempt = true →
      Alike one two first second (commits.map (·.sha)) commit) :
    applyPlatformMergePolicy one commits verdicts = applyPlatformMergePolicy two commits verdicts := by
  have rows : (provisional commits verdicts).map (·.commit.sha) = commits.map (·.sha) := by
    rw [provisional_map,List.map_map]
    conv_rhs => rw [← List.map_fst_zip (show commits.length ≤ verdicts.length by omega),List.map_map]
    rfl
  have same := settleRounds_alike tells tells' (provisional commits verdicts) rows fun row inside undecided => by
    rw [provisional_map] at inside
    obtain ⟨⟨commit,verdict⟩,member,rfl⟩ := List.mem_map.mp inside
    exact alike commit verdict member undecided
  simp only [applyPlatformMergePolicy,same]

end VerifiableGit.Verify
