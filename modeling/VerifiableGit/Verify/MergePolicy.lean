import Mathlib.Data.List.Nodup
import VerifiableGit.Verify.MergeRule

-- The rows of the code follow the rounds over the merge rule, so that the
-- policy settles on its least set, in any order of the commits.
namespace VerifiableGit.Verify
open Text Library

structure Provisional (rows : List Row) : Prop where
  distinct : (rows.map fun row => row.commit.sha).Nodup
  flags : ∀ row ∈ rows, row.undecided = row.status.isExempt

theorem lookup_exact (distinct : (rows.map fun row : Row => row.commit.sha).Nodup) :
    lookup rows sha = some row ↔ row ∈ rows ∧ row.commit.sha = sha := by
  constructor
  · intro found
    have member := List.mem_of_find?_eq_some found
    exact ⟨List.mem_reverse.mp member,by simpa using List.find?_some found⟩
  · rintro ⟨member,rfl⟩
    cases found : lookup rows row.commit.sha with
    | none =>
      have absent := List.find?_eq_none.mp found row (List.mem_reverse.mpr member)
      simp at absent
    | some other =>
      have inside := List.mem_reverse.mp (List.mem_of_find?_eq_some found)
      have same : other.commit.sha = row.commit.sha := by simpa using List.find?_some found
      exact congrArg some (List.inj_on_of_nodup_map distinct inside member same)

theorem lookup_none : lookup rows sha = none ↔ ∀ row ∈ rows, row.commit.sha ≠ sha := by
  simp [lookup]

theorem lookup_perm (same : rows.Perm rows')
    (distinct : (rows.map fun row : Row => row.commit.sha).Nodup) : lookup rows = lookup rows' := by
  funext sha
  have distinct' := (same.map fun row => row.commit.sha).nodup_iff.mp distinct
  cases found : lookup rows sha with
  | none =>
    refine (lookup_none.mpr fun row member => ?_).symm
    exact lookup_none.mp found row (same.mem_iff.mpr member)
  | some row =>
    obtain ⟨member,at_⟩ := (lookup_exact distinct).mp found
    exact ((lookup_exact distinct').mpr ⟨same.mem_iff.mp member,at_⟩).symm

-- A row as the verdicts known so far have left it.
def Row.known (known : Bytes → Option CommitStatus) (row : Row) : Row :=
  if row.undecided then row.settle (known row.commit.sha) else row

theorem known_sha (known : Bytes → Option CommitStatus) (row : Row) :
    (row.known known).commit = row.commit := by
  unfold Row.known
  split
  · cases known row.commit.sha <;> rfl
  · rfl

section
variable (given : MergeFacts) (position : Bytes → Option Row)

def current (known : Bytes → Option CommitStatus) (sha : Bytes) : Option Row :=
  (position sha).map (Row.known known)

def judge (known : Bytes → Option CommitStatus) (sha : Bytes) : Option CommitStatus :=
  match position sha with
  | none => none
  | some row =>
    match settleRow (.facts given) (current position known) row with
    | .ok status => status
    | .error _ => none

end

theorem lookup_known (rows : List Row) (known : Bytes → Option CommitStatus) :
    lookup (rows.map (Row.known known)) = current (lookup rows) known := by
  funext sha
  simp only [lookup,current,← List.map_reverse,List.find?_map,Function.comp_def,known_sha]

theorem least_exempt (given : MergeFacts) (inside : sha ∈ (mergeRule given rows).lfp) :
    ∃ row ∈ rows, row.commit.sha = sha ∧ Mergeable given rows (mergeRule given rows).lfp row := by
  rw [← (mergeRule given rows).map_lfp] at inside
  exact inside

theorem cyclic_settled {rows : List Row} (settled : rows.any (·.undecided) = false) :
    rows.map Row.cyclic = rows := by
  have same : rows.map Row.cyclic = rows.map id := by
    refine List.map_congr_left fun row member => ?_
    have closed : row.undecided = false := by simpa using List.any_eq_false.mp settled row member
    simp only [Row.cyclic,closed,id]
  rw [same,List.map_id]

theorem cyclic_passes {row : Row} (open_ : row.undecided = true) (exempt : row.status.isExempt = true) :
    row.cyclic.status.passes = false := by
  cases shape : row.status with
  | exempt fingerprint => simp only [Row.cyclic,open_,shape]; rfl
  | _ => rw [shape] at exempt; cases exempt

section
variable {rows : List Row} (valid : Provisional rows) (known : Bytes → Option CommitStatus)

include valid

theorem waits_exact (parent : Bytes) : Waits (current (lookup rows) known) parent ↔
    ∃ row ∈ rows, row.commit.sha = parent ∧ row.status.isExempt = true ∧ known parent = none := by
  simp only [Waits,current,Option.map_eq_some_iff]
  constructor
  · rintro ⟨after,⟨row,found,rfl⟩,open_⟩
    obtain ⟨member,rfl⟩ := (lookup_exact valid.distinct).mp found
    have flag := valid.flags row member
    unfold Row.known at open_
    split at open_
    · rename_i undecided
      cases found : known row.commit.sha with
      | none => exact ⟨row,member,rfl,by rw [← flag,undecided],rfl⟩
      | some status => rw [found] at open_; cases open_
    · rename_i decided; exact absurd open_ decided
  · rintro ⟨row,member,rfl,exempt,unknown⟩
    have flag : row.undecided = true := (valid.flags row member).trans exempt
    refine ⟨row.known known,⟨row,(lookup_exact valid.distinct).mpr ⟨member,rfl⟩,rfl⟩,?_⟩
    rw [Row.known,if_pos flag,unknown]
    exact flag

theorem passes_exact (given : MergeFacts) (parent : Bytes) :
    Passes given (current (lookup rows) known) parent ↔
      (∃ row ∈ rows, row.commit.sha = parent ∧ (row.status.isTrusted = true ∨
        row.status.isExempt = true ∧ ∃ status, known parent = some status ∧ status.passes = true)) ∨
      (∀ row ∈ rows, row.commit.sha ≠ parent) ∧ parent ∈ given.boundary := by
  simp only [Passes,current,Option.map_eq_some_iff,Option.map_eq_none_iff,lookup_none]
  refine or_congr ?_ Iff.rfl
  constructor
  · rintro ⟨after,⟨row,found,rfl⟩,settled,good⟩
    obtain ⟨member,rfl⟩ := (lookup_exact valid.distinct).mp found
    have flag := valid.flags row member
    unfold Row.known at settled good
    split at good
    · rename_i undecided
      rw [if_pos undecided] at settled
      cases found : known row.commit.sha with
      | none =>
        rw [found] at settled
        exact absurd undecided (Bool.not_eq_true _ ▸ settled)
      | some status =>
        rw [found] at good
        exact ⟨row,member,rfl,.inr ⟨by rw [← flag,undecided],status,rfl,good⟩⟩
    · rename_i decided
      rw [Bool.not_eq_true] at decided
      rw [CommitStatus.passes,← flag,decided,Bool.or_false] at good
      exact ⟨row,member,rfl,.inl good⟩
  · rintro ⟨row,member,rfl,kind⟩
    have flag := valid.flags row member
    refine ⟨row.known known,⟨row,(lookup_exact valid.distinct).mpr ⟨member,rfl⟩,rfl⟩,?_⟩
    rcases kind with trusted | ⟨exempt,status,found,good⟩
    · have decided : row.undecided = false := flag.trans (trusted_exempt trusted)
      rw [Row.known,if_neg (by simp [decided])]
      exact ⟨decided,by simp [CommitStatus.passes,trusted]⟩
    · rw [Row.known,if_pos (flag.trans exempt),found]
      exact ⟨rfl,good⟩

theorem judge_row (given : MergeFacts) (member : row ∈ rows) (exempt : row.status.isExempt = true) :
    settleRow (.facts given) (current (lookup rows) known) row =
        .ok (judge given (lookup rows) known row.commit.sha) ∧
      Judged given (current (lookup rows) known) row (judge given (lookup rows) known row.commit.sha) := by
  obtain ⟨status,settled,judged⟩ :=
    settleRow_judged given (current (lookup rows) known) row ((valid.flags row member).trans exempt) exempt
  have found := (lookup_exact valid.distinct).mpr ⟨member,rfl⟩
  have same : judge given (lookup rows) known row.commit.sha = status := by
    simp only [judge,found,settled]
  rw [same]
  exact ⟨settled,judged⟩

theorem judge_found (given : MergeFacts) (found : judge given (lookup rows) known sha = some status) :
    ∃ row ∈ rows, row.commit.sha = sha ∧ row.status.isExempt = true ∧
      Judged given (current (lookup rows) known) row (some status) := by
  cases at_ : lookup rows sha with
  | none => rw [judge,at_] at found; cases found
  | some row =>
    obtain ⟨member,rfl⟩ := (lookup_exact valid.distinct).mp at_
    have flag := valid.flags row member
    cases exempt : row.status.isExempt with
    | true =>
      have judged := (judge_row valid known given member exempt).2
      rw [found] at judged
      exact ⟨row,member,rfl,exempt,judged⟩
    | false =>
      rw [exempt] at flag
      simp only [judge,at_,settleRow,flag,Bool.false_eq_true,if_false] at found
      cases found

theorem passing_vouched (given : MergeFacts) (passes : Passes given (current (lookup rows) known) parent) :
    Vouched given rows (Rounds.passing (fun status => status.passes = true) known) parent := by
  rcases (passes_exact valid known given parent).mp passes with
    ⟨row,member,same,trusted | ⟨_,status,found,good⟩⟩ | outside
  · exact .inl ⟨row,member,same,.inl trusted⟩
  · exact .inl ⟨row,member,same,.inr ⟨status,found,good⟩⟩
  · exact .inr outside

-- A vouched parent is one the scan waits for or passes, while the verdicts
-- agree with the least set.
theorem vouched_parent (given : MergeFacts)
    (agrees : ∀ sha status, known sha = some status → sha ∈ (mergeRule given rows).lfp →
      status.passes = true)
    (vouched : Vouched given rows (mergeRule given rows).lfp parent) :
    Waits (current (lookup rows) known) parent ∨ Passes given (current (lookup rows) known) parent := by
  rcases vouched with ⟨row,member,same,trusted | inside⟩ | outside
  · exact .inr ((passes_exact valid known given parent).mpr (.inl ⟨row,member,same,.inl trusted⟩))
  · obtain ⟨row,member,same,exempt,_⟩ := least_exempt given inside
    cases found : known parent with
    | none => exact .inl ((waits_exact valid known parent).mpr ⟨row,member,same,exempt,found⟩)
    | some status =>
      have good := agrees parent status found inside
      exact .inr ((passes_exact valid known given parent).mpr
        (.inl ⟨row,member,same,.inr ⟨exempt,status,found,good⟩⟩))
  · exact .inr ((passes_exact valid known given parent).mpr (.inr outside))

theorem row_unique (one : row ∈ rows) (two : other ∈ rows) (same : row.commit.sha = other.commit.sha) :
    row = other := List.inj_on_of_nodup_map valid.distinct one two same

theorem judge_decides (given : MergeFacts) :
    Rounds.Decides (judge given (lookup rows)) (fun status => status.passes = true) (mergeRule given rows) where
  sound := by
    intro known sha status found good
    obtain ⟨row,member,rfl,exempt,judged⟩ := judge_found valid known given found
    cases judged with
    | kept pair one two clean =>
      exact ⟨row,member,rfl,exempt,⟨_,_,pair,passing_vouched valid known given one,
        passing_vouched valid known given two⟩,clean⟩
    | single few bad => rw [bad] at good; cases good
    | parent inside waits passes bad => rw [bad] at good; cases good
    | altered other bad => rw [bad] at good; cases good
  refutes := by
    intro known sha status found bad agrees inside
    obtain ⟨row,member,rfl,exempt,judged⟩ := judge_found valid known given found
    obtain ⟨other,member',same,_,⟨ours,theirs,pair,one,two⟩,clean⟩ := least_exempt given inside
    obtain rfl := row_unique valid member member' same.symm
    cases judged with
    | kept => exact bad (by simp [CommitStatus.passes,exempt])
    | single few => rw [pair] at few; simp at few
    | parent parents waits passes =>
      rw [pair] at parents
      have fine : ∀ parent, Vouched given rows (mergeRule given rows).lfp parent →
          Waits (current (lookup rows) known) parent ∨ Passes given (current (lookup rows) known) parent :=
        fun parent => vouched_parent valid known given agrees
      simp only [List.mem_cons,List.not_mem_nil,or_false] at parents
      rcases parents with rfl | rfl
      · exact (fine _ one).elim waits passes
      · exact (fine _ two).elim waits passes
    | altered unclean => exact unclean ours theirs pair clean
  waits := by
    rintro known sha open_ ⟨row,member,rfl,exempt,⟨ours,theirs,pair,one,two⟩,_⟩
    have judged := (judge_row valid known given member exempt).2
    rw [open_] at judged
    cases judged with
    | waits parents waiting =>
      obtain ⟨row',member',same,exempt',unknown⟩ := (waits_exact valid known _).mp waiting
      have blocked : ∀ parent, row'.commit.sha = parent → known parent = none →
          ¬ Vouched given rows (Rounds.passing (fun status => status.passes = true) known) parent := by
        rintro parent same unknown (⟨other,inside,at_,trusted | ⟨status,found,_⟩⟩ | ⟨outside,_⟩)
        · obtain rfl := row_unique valid member' inside (same.trans at_.symm)
          rw [trusted_exempt trusted] at exempt'
          cases exempt'
        · rw [unknown] at found; cases found
        · exact outside row' member' same
      rw [pair] at parents
      simp only [List.mem_cons,List.not_mem_nil,or_false] at parents
      rcases parents with rfl | rfl
      · exact blocked _ same unknown one
      · exact blocked _ same unknown two

-- One round of the code is one round over the rule.
theorem settleAll_round (given : MergeFacts) (part : List Row) (within : part ⊆ rows) :
    ∃ settled, settleAll (.facts given) (lookup (rows.map (Row.known known))) (part.map (Row.known known)) =
        .ok (part.map (Row.known (Rounds.round (judge given (lookup rows)) known)),settled) ∧
      (settled = false → ∀ row ∈ part, row.status.isExempt = true → known row.commit.sha = none →
        judge given (lookup rows) known row.commit.sha = none) := by
  rw [lookup_known]
  induction part with
  | nil => exact ⟨false,rfl,by simp⟩
  | cons row part ih =>
    obtain ⟨settled,rest,spec⟩ := ih fun other member => within (List.mem_cons_of_mem _ member)
    have member : row ∈ rows := within (List.mem_cons_self ..)
    have flag := valid.flags row member
    have step : ∃ status, settleRow (.facts given) (current (lookup rows) known) (row.known known) = .ok status ∧
        (row.known known).settle status = row.known (Rounds.round (judge given (lookup rows)) known) ∧
        (status = none → row.status.isExempt = true → known row.commit.sha = none →
          judge given (lookup rows) known row.commit.sha = none) := by
      cases exempt : row.status.isExempt with
      | false =>
        rw [exempt] at flag
        refine ⟨none,?_,?_,by simp⟩
        · simp [settleRow,Row.known,flag]
        · simp [Row.known,flag,Row.settle]
      | true =>
        rw [exempt] at flag
        cases found : known row.commit.sha with
        | some status =>
          refine ⟨none,?_,?_,by simp⟩
          · simp [settleRow,Row.known,flag,found,Row.settle]
          · simp [Row.known,flag,found,Row.settle,Rounds.round]
        | none =>
          have judged := (judge_row valid known given member exempt).1
          have same : row.known known = row := by simp [Row.known,flag,found,Row.settle]
          rw [same]
          exact ⟨_,judged,by simp [Row.known,flag,found,Rounds.round],fun unknown _ _ => unknown⟩
    obtain ⟨status,settles,next,unknown⟩ := step
    refine ⟨status.isSome || settled,?_,?_⟩
    · simp only [List.map_cons,settleAll,settles,rest,next,bind,Except.bind]
    · intro none
      rw [Bool.or_eq_false_iff,Option.isSome_eq_false_iff,Option.isNone_iff_eq_none] at none
      exact List.forall_mem_cons.mpr ⟨unknown none.1,spec none.2⟩

theorem judge_exempt (given : MergeFacts) (found : judge given (lookup rows) known sha = some status)
    (member : row ∈ rows) (same : row.commit.sha = sha) :
    row.status.isExempt = true ∧ (status = row.status ∨ status.passes = false) := by
  obtain ⟨other,member',same',exempt,judged⟩ := judge_found valid known given found
  obtain rfl := row_unique valid member member' (same.trans same'.symm)
  refine ⟨exempt,?_⟩
  cases judged with
  | kept => exact .inl rfl
  | single few bad => exact .inr bad
  | parent inside waits passes bad => exact .inr bad
  | altered other bad => exact .inr bad

theorem after_exempt (given : MergeFacts) (n : Nat)
    (found : Rounds.after (judge given (lookup rows)) n sha = some status) (member : row ∈ rows)
    (same : row.commit.sha = sha) :
    row.status.isExempt = true ∧ (status = row.status ∨ status.passes = false) := by
  induction n with
  | zero => cases found
  | succ n ih =>
    rw [Rounds.after_succ,Rounds.round] at found
    cases old : Rounds.after (judge given (lookup rows)) n sha with
    | some before =>
      rw [old,Option.some_or] at found
      exact ih (old.trans found)
    | none =>
      rw [old,Option.none_or] at found
      exact judge_exempt valid _ given found member same

theorem stable_exact (given : MergeFacts)
    (closed : ∀ row ∈ rows, row.status.isExempt = true → known row.commit.sha = none →
      judge given (lookup rows) known row.commit.sha = none) :
    Rounds.Stable (judge given (lookup rows)) known := by
  funext sha
  cases unknown : known sha with
  | some status => rw [Rounds.round,unknown,Option.some_or]
  | none =>
    rw [Rounds.round,unknown,Option.none_or]
    by_contra some
    obtain ⟨status,found⟩ := Option.ne_none_iff_exists'.mp some
    obtain ⟨row,member,rfl,exempt,_⟩ := judge_found valid known given found
    exact some (closed row member exempt unknown)

theorem known_undecided (settled : (rows.map (Row.known known)).any (·.undecided) = false) :
    ∀ row ∈ rows, row.status.isExempt = true → known row.commit.sha ≠ none := by
  intro row member exempt unknown
  rw [List.any_eq_false] at settled
  have flag := (valid.flags row member).trans exempt
  have open_ := settled (row.known known) (List.mem_map_of_mem member)
  rw [Row.known,if_pos flag,unknown] at open_
  exact open_ flag

-- The loop ends, and ends where the rounds are stable.
theorem settleRounds_stable (given : MergeFacts) (n : Nat) :
    ∃ m, Rounds.Stable (judge given (lookup rows)) (Rounds.after (judge given (lookup rows)) m) ∧
      settleRounds (.facts given) (rows.map (Row.known (Rounds.after (judge given (lookup rows)) n))) =
        .ok ((rows.map (Row.known (Rounds.after (judge given (lookup rows)) m))).map Row.cyclic) := by
  generalize size : undecidedCount (rows.map (Row.known (Rounds.after (judge given (lookup rows)) n))) = count
  induction count using Nat.strong_induction_on generalizing n with
  | _ count ih =>
    rw [settleRounds]
    cases open_ : (rows.map (Row.known (Rounds.after (judge given (lookup rows)) n))).any (·.undecided) with
    | false =>
      have known := known_undecided valid _ open_
      refine ⟨n,?_,?_⟩
      · exact stable_exact valid _ given fun row member exempt unknown => absurd unknown (known row member exempt)
      · rw [if_neg (by simp),cyclic_settled open_]
    | true =>
      obtain ⟨settled,round,spec⟩ := settleAll_round valid (Rounds.after (judge given (lookup rows)) n)
        given rows (List.Subset.refl rows)
      rw [if_pos rfl]
      split
      · rename_i why failed
        rw [round] at failed
        cases failed
      · rename_i next stuck
        rw [round] at stuck
        obtain ⟨_,rfl⟩ := Prod.mk.inj (Except.ok.inj stuck)
        exact ⟨n,stable_exact valid _ given (spec rfl),rfl⟩
      · rename_i next moved
        have fewer := (settleAll_counts moved).1
        rw [round] at moved
        obtain ⟨rfl,rfl⟩ := Prod.mk.inj (Except.ok.inj moved)
        rw [← Rounds.after_succ] at fewer ⊢
        refine ih _ ?_ (n + 1) rfl
        rw [← size]
        exact Nat.lt_of_succ_le fewer

def settledStatus (known : Bytes → Option CommitStatus) (row : Row) : CommitStatus :=
  (row.known known).cyclic.status

theorem settled_status (given : MergeFacts) (n : Nat)
    (stable : Rounds.Stable (judge given (lookup rows)) (Rounds.after (judge given (lookup rows)) n))
    (member : row ∈ rows) :
    (row.status.isExempt = false →
      settledStatus (Rounds.after (judge given (lookup rows)) n) row = row.status) ∧
    (row.status.isExempt = true →
      (row.commit.sha ∈ (mergeRule given rows).lfp →
        settledStatus (Rounds.after (judge given (lookup rows)) n) row = row.status) ∧
      (row.commit.sha ∉ (mergeRule given rows).lfp →
        (settledStatus (Rounds.after (judge given (lookup rows)) n) row).passes = false)) := by
  have flag := valid.flags row member
  have least := Rounds.passing_exact (judge_decides valid given) stable
  constructor
  · intro plain
    rw [plain] at flag
    simp only [settledStatus,Row.known,Row.cyclic,flag,Bool.false_eq_true,if_false]
  · intro exempt
    rw [exempt] at flag
    rw [← least]
    simp only [settledStatus,Row.known,flag,if_true]
    cases found : Rounds.after (judge given (lookup rows)) n row.commit.sha with
    | none =>
      constructor
      · rintro ⟨status,known,_⟩
        rw [found] at known
        cases known
      · intro _
        exact cyclic_passes flag exempt
    | some status =>
      have kind := (after_exempt valid given n found member rfl).2
      constructor
      · rintro ⟨status',known,good⟩
        rw [found] at known
        cases known
        exact kind.resolve_right (by simp [good])
      · intro outside
        rw [Row.settle,Row.cyclic]
        exact Bool.eq_false_iff.mpr fun good => outside ⟨status,found,good⟩

end

theorem provisional_map (commits : List RangeCommit) (verdicts : List CommitVerdict) :
    provisional commits verdicts = (commits.zip verdicts).map fun entry =>
      ⟨entry.1,entry.2.status,entry.2.status.isExempt⟩ := by
  rw [provisional,List.zip,List.map_zipWith]

theorem provisional_valid (commits : List RangeCommit) (verdicts : List CommitVerdict)
    (distinct : (commits.map (·.sha)).Nodup) (aligned : commits.length = verdicts.length) :
    Provisional (provisional commits verdicts) := by
  have firsts := List.map_fst_zip (show commits.length ≤ verdicts.length by omega)
  rw [provisional_map]
  constructor
  · have ids : ((commits.zip verdicts).map fun entry : RangeCommit × CommitVerdict =>
        (⟨entry.1,entry.2.status,entry.2.status.isExempt⟩ : Row)).map (fun row => row.commit.sha) =
          commits.map (·.sha) := by
      rw [List.map_map]
      conv_rhs => rw [← firsts,List.map_map]
      rfl
    rw [ids]
    exact distinct
  · intro row member
    obtain ⟨entry,_,rfl⟩ := List.mem_map.mp member
    rfl

-- The verdict a commit of the list ends with.
def settledVerdict (known : Bytes → Option CommitStatus) (entry : RangeCommit × CommitVerdict) :
    CommitVerdict :=
  { entry.2 with
    status := settledStatus known ⟨entry.1,entry.2.status,entry.2.status.isExempt⟩ }

theorem policy_stable (given : MergeFacts) (commits : List RangeCommit) (verdicts : List CommitVerdict)
    (distinct : (commits.map (·.sha)).Nodup) (aligned : commits.length = verdicts.length) :
    ∃ n, Rounds.Stable (judge given (lookup (provisional commits verdicts)))
        (Rounds.after (judge given (lookup (provisional commits verdicts))) n) ∧
      applyPlatformMergePolicy (.facts given) commits verdicts =
        .ok ((commits.zip verdicts).map (settledVerdict
          (Rounds.after (judge given (lookup (provisional commits verdicts))) n))) := by
  have valid := provisional_valid commits verdicts distinct aligned
  obtain ⟨n,stable,settles⟩ := settleRounds_stable valid given 0
  refine ⟨n,stable,?_⟩
  have start : (provisional commits verdicts).map
      (Row.known (Rounds.after (judge given (lookup (provisional commits verdicts))) 0)) =
        provisional commits verdicts := by
    conv_rhs => rw [← List.map_id (provisional commits verdicts)]
    refine List.map_congr_left fun row _ => ?_
    simp only [Row.known,Rounds.after,Function.iterate_zero,id,Row.settle,ite_self]
  rw [start] at settles
  simp only [applyPlatformMergePolicy,settles,bind,Except.bind,Except.ok.injEq]
  generalize Rounds.after (judge given (lookup (provisional commits verdicts))) n = known
  clear settles stable start valid distinct
  induction commits generalizing verdicts with
  | nil =>
    cases verdicts with
    | nil => rfl
    | cons verdict verdicts => cases aligned
  | cons commit commits ih =>
    cases verdicts with
    | nil => cases aligned
    | cons verdict verdicts =>
      have rest := ih verdicts (Nat.succ.inj aligned)
      simp only [provisional,List.zipWith_cons_cons,List.map_cons,List.zip_cons_cons] at rest ⊢
      rw [rest]
      rfl

theorem zip_map (commits : List RangeCommit) (verdicts : List CommitVerdict)
    (f : RangeCommit × CommitVerdict → β) :
    commits.zip ((commits.zip verdicts).map f) = (commits.zip verdicts).map fun entry => (entry.1,f entry) := by
  induction commits generalizing verdicts with
  | nil => rfl
  | cons commit commits ih =>
    cases verdicts with
    | nil => rfl
    | cons verdict verdicts => simp [ih]

theorem zip_map_mem (commits : List RangeCommit) (verdicts : List CommitVerdict)
    (f : RangeCommit × CommitVerdict → CommitVerdict)
    (member : (commit,before,final) ∈ commits.zip (verdicts.zip ((commits.zip verdicts).map f))) :
    (commit,before) ∈ commits.zip verdicts ∧ final = f (commit,before) := by
  induction commits generalizing verdicts with
  | nil => cases member
  | cons first commits ih =>
    cases verdicts with
    | nil => cases member
    | cons verdict verdicts =>
      simp only [List.zip_cons_cons,List.map_cons,List.mem_cons,Prod.mk.injEq] at member ⊢
      rcases member with ⟨rfl,rfl,rfl⟩ | later
      · exact ⟨.inl ⟨rfl,rfl⟩,rfl⟩
      · obtain ⟨inside,same⟩ := ih verdicts later
        exact ⟨.inr inside,same⟩

theorem apply_platform_merge_policy_least (given : MergeFacts) (commits : List RangeCommit)
    (verdicts : List CommitVerdict) (distinct : (commits.map (·.sha)).Nodup)
    (aligned : commits.length = verdicts.length) :
    ∃ final, applyPlatformMergePolicy (.facts given) commits verdicts = .ok final ∧
      final.length = commits.length ∧
      (∀ commit before after, (commit,before,after) ∈ commits.zip (verdicts.zip final) →
        after.sha = before.sha ∧
        (before.status.isExempt = false → after.status = before.status) ∧
        (before.status.isExempt = true →
          (commit.sha ∈ (mergeRule given (provisional commits verdicts)).lfp →
            after.status = before.status) ∧
          (commit.sha ∉ (mergeRule given (provisional commits verdicts)).lfp →
            after.status.passes = false))) ∧
      (∀ commits' verdicts', commits'.length = verdicts'.length →
        (commits'.zip verdicts').Perm (commits.zip verdicts) →
        ∃ final', applyPlatformMergePolicy (.facts given) commits' verdicts' = .ok final' ∧
          (commits'.zip final').Perm (commits.zip final)) := by
  have valid := provisional_valid commits verdicts distinct aligned
  obtain ⟨n,stable,settles⟩ := policy_stable given commits verdicts distinct aligned
  refine ⟨_,settles,?_,?_,?_⟩
  · rw [List.length_map,List.length_zip]
    omega
  · intro commit before after member
    obtain ⟨inside,rfl⟩ := zip_map_mem commits verdicts _ member
    have row : (⟨commit,before.status,before.status.isExempt⟩ : Row) ∈ provisional commits verdicts := by
      rw [provisional_map]
      exact List.mem_map_of_mem inside
    exact ⟨rfl,settled_status valid given n stable row⟩
  · intro commits' verdicts' aligned' perm
    have firsts := List.map_fst_zip (show commits.length ≤ verdicts.length by omega)
    have firsts' := List.map_fst_zip (show commits'.length ≤ verdicts'.length by omega)
    have ids := (perm.map Prod.fst).map (·.sha)
    rw [firsts,firsts'] at ids
    have distinct' := ids.nodup_iff.mpr distinct
    have rows : (provisional commits' verdicts').Perm (provisional commits verdicts) := by
      rw [provisional_map,provisional_map]
      exact perm.map _
    have same := lookup_perm rows (provisional_valid commits' verdicts' distinct' aligned').distinct
    obtain ⟨m,stable',settles'⟩ := policy_stable given commits' verdicts' distinct' aligned'
    rw [same] at stable' settles'
    rw [Rounds.stable_unique _ stable' stable] at settles'
    refine ⟨_,settles',?_⟩
    rw [zip_map,zip_map]
    exact perm.map _

theorem apply_platform_merge_policy_sample :
    let merge : RangeCommit := ⟨ascii "m",ascii "tree t\nparent a\nparent b\n\nmerge"⟩
    let commits : List RangeCommit := [merge,⟨ascii "a",[]⟩]
    let verdicts : List CommitVerdict :=
      [⟨ascii "m",.exempt (ascii "k")⟩,⟨ascii "a",.trusted (ascii "did:a") (ascii "r")⟩]
    let given : MergeFacts := ⟨[ascii "b"],fun sha => if sha = ascii "m" then some (.clean (ascii "t")) else none⟩
    ∃ final, applyPlatformMergePolicy (.facts given) commits verdicts = .ok final ∧
      ∀ before after, (merge,before,after) ∈ commits.zip (verdicts.zip final) →
        before.status = .exempt (ascii "k") → after.status = .exempt (ascii "k") := by
  intro merge commits verdicts given
  obtain ⟨final,settles,_,spec,_⟩ :=
    apply_platform_merge_policy_least given commits verdicts (by decide) rfl
  refine ⟨final,settles,fun before after member exempt => ?_⟩
  obtain ⟨_,_,keeps⟩ := spec merge before after member
  rw [exempt] at keeps
  refine (keeps rfl).1 ?_
  rw [← OrderHom.map_lfp]
  refine ⟨⟨merge,.exempt (ascii "k"),true⟩,by simp [provisional,commits,verdicts,CommitStatus.isExempt],
    rfl,rfl,⟨ascii "a",ascii "b",by decide,.inl ?_,.inr ⟨?_,by simp [given]⟩⟩,⟨ascii "t",by decide,rfl⟩⟩
  · exact ⟨⟨⟨ascii "a",[]⟩,.trusted (ascii "did:a") (ascii "r"),false⟩,
      by simp [provisional,commits,verdicts,CommitStatus.isExempt],rfl,.inl rfl⟩
  · intro row inside
    simp only [provisional,commits,verdicts,List.zipWith_cons_cons,List.zipWith_nil_left,List.mem_cons,
      List.not_mem_nil,or_false] at inside
    rcases inside with rfl | rfl <;> decide

end VerifiableGit.Verify
