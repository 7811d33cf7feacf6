import VerifiableGit.Verify.PlatformMerge

-- What the platform-merge policy is for, as the least set closed under one
-- rule, and the rounds of the code as rounds over that rule.
namespace VerifiableGit.Verify
open Text Library

section
variable (given : MergeFacts) (rows : List Row)

def Vouched (kept : Set Bytes) (parent : Bytes) : Prop :=
  (∃ row ∈ rows, row.commit.sha = parent ∧ (row.status.isTrusted = true ∨ parent ∈ kept)) ∨
    (∀ row ∈ rows, row.commit.sha ≠ parent) ∧ parent ∈ given.boundary

def CleanMerge (commit : RangeCommit) : Prop :=
  ∃ tree, commitTree commit.raw = some tree ∧ given.merges commit.sha = some (.clean tree)

def Mergeable (kept : Set Bytes) (row : Row) : Prop :=
  row.status.isExempt = true ∧
    (∃ ours theirs, commitParents row.commit.raw = [ours,theirs] ∧
      Vouched given rows kept ours ∧ Vouched given rows kept theirs) ∧
    CleanMerge given row.commit

theorem vouched_mono (below : kept ⊆ more) (vouched : Vouched given rows kept parent) :
    Vouched given rows more parent := by
  rcases vouched with ⟨row,member,same,trusted | inside⟩ | outside
  · exact .inl ⟨row,member,same,.inl trusted⟩
  · exact .inl ⟨row,member,same,.inr (below inside)⟩
  · exact .inr outside

def mergeRule : Set Bytes →o Set Bytes where
  toFun kept := {sha | ∃ row ∈ rows, row.commit.sha = sha ∧ Mergeable given rows kept row}
  monotone' := by
    rintro kept more below sha ⟨row,member,same,exempt,⟨ours,theirs,parents,one,two⟩,clean⟩
    exact ⟨row,member,same,exempt,⟨ours,theirs,parents,vouched_mono given rows below one,
      vouched_mono given rows below two⟩,clean⟩

end

-- How a parent stands in a round.
section
variable (given : MergeFacts) (position : Bytes → Option Row)

def Waits (parent : Bytes) : Prop := ∃ row, position parent = some row ∧ row.undecided = true

def Passes (parent : Bytes) : Prop :=
  (∃ row, position parent = some row ∧ row.undecided = false ∧ row.status.passes = true) ∨
    position parent = none ∧ parent ∈ given.boundary

theorem waits_or (parent : Bytes) (row : Row) (found : position parent = some row)
    (open_ : row.undecided = false) (bad : ¬ row.status.passes = true) :
    ¬ Waits position parent ∧ ¬ Passes given position parent := by
  simp [Waits,Passes,found,open_,bad]

-- A scan ends at the first parent that fails, or has none that does.
def Scanned (parents : List Bytes) (waiting : Bool) : Option Bytes × Bool → Prop
  | (some failing,_) => failing ∈ parents ∧ ¬ Waits position failing ∧ ¬ Passes given position failing
  | (none,waits) => (∀ parent ∈ parents, Waits position parent ∨ Passes given position parent) ∧
      (waits = true ↔ waiting = true ∨ ∃ parent ∈ parents, Waits position parent)

theorem scanned_cons (fine : Waits position parent ∨ Passes given position parent)
    (flag : later = true ↔ waiting = true ∨ Waits position parent)
    (scanned : Scanned given position rest later result) :
    Scanned given position (parent :: rest) waiting result := by
  obtain ⟨failed,waits⟩ := result
  cases failed with
  | some failing => exact ⟨List.mem_cons_of_mem _ scanned.1,scanned.2⟩
  | none =>
    refine ⟨List.forall_mem_cons.mpr ⟨fine,scanned.1⟩,?_⟩
    rw [scanned.2,flag,or_assoc]
    simp only [List.mem_cons,exists_eq_or_imp]

theorem scan_exact (parents : List Bytes) (waiting : Bool) :
    ∃ result, scanParents (.facts given) position waiting parents = .ok result ∧
      Scanned given position parents waiting result := by
  induction parents generalizing waiting with
  | nil => exact ⟨(none,waiting),rfl,by simp [Scanned]⟩
  | cons parent rest ih =>
    cases found : position parent with
    | none =>
      by_cases inside : parent ∈ given.boundary
      · obtain ⟨result,scanned,spec⟩ := ih waiting
        refine ⟨result,?_,scanned_cons given position (.inr (.inr ⟨found,inside⟩)) (by simp [Waits,found]) spec⟩
        simpa only [scanParents,found,MergeSource.boundary,bind,Except.bind,inside,if_true] using scanned
      · refine ⟨(some parent,waiting),?_,by simp,by simp [Waits,found],by simp [Passes,found,inside]⟩
        simp only [scanParents,found,MergeSource.boundary,bind,Except.bind,inside,if_false]
    | some row =>
      cases open_ : row.undecided with
      | true =>
        have waits : Waits position parent := ⟨row,found,open_⟩
        obtain ⟨result,scanned,spec⟩ := ih true
        refine ⟨result,?_,scanned_cons given position (.inl waits) (by simp [waits]) spec⟩
        simpa only [scanParents,found,open_,if_true] using scanned
      | false =>
        by_cases good : row.status.passes = true
        · obtain ⟨result,scanned,spec⟩ := ih waiting
          refine ⟨result,?_,scanned_cons given position (.inr (.inl ⟨row,found,open_,good⟩))
            (by simp [Waits,found,open_]) spec⟩
          simpa only [scanParents,found,open_,good,if_true,Bool.false_eq_true,if_false] using scanned
        · refine ⟨(some parent,waiting),?_,by simp,waits_or given position parent row found open_ good⟩
          simp only [scanParents,found,open_,good,Bool.false_eq_true,if_false]

theorem mismatch_exact (raw : Bytes) (parents : List Bytes) (recompute : Bytes → Bytes → MergeOutcome) :
    cleanMergeMismatch raw parents recompute = none ↔
      ∃ ours theirs tree, parents = [ours,theirs] ∧ commitTree raw = some tree ∧
        recompute ours theirs = .clean tree := by
  unfold cleanMergeMismatch
  split
  · rename_i ours theirs
    cases header : commitTree raw with
    | none => simp
    | some tree =>
      cases outcome : recompute ours theirs with
      | clean merged => by_cases same : merged = tree <;> simp [same,outcome]
      | conflict => simp [outcome]
      | unavailable why => simp [outcome]
  · rename_i other
    simp only [reduceCtorEq,false_iff]
    rintro ⟨ours,theirs,tree,rfl,_⟩
    exact other ours theirs rfl

theorem recompute_exact (sha ours theirs tree : Bytes) :
    MergeSource.recompute (.facts given) sha ours theirs = .clean tree ↔
      given.merges sha = some (.clean tree) := by
  simp only [MergeSource.recompute]
  cases given.merges sha <;> simp

-- What one round can say of an undecided commit.
inductive Judged (row : Row) : Option CommitStatus → Prop where
  | waits : parent ∈ commitParents row.commit.raw → Waits position parent → Judged row none
  | kept : commitParents row.commit.raw = [ours,theirs] → Passes given position ours →
      Passes given position theirs → CleanMerge given row.commit → Judged row (some row.status)
  | single : (commitParents row.commit.raw).length < 2 → status.passes = false → Judged row (some status)
  | parent : parent ∈ commitParents row.commit.raw → ¬ Waits position parent →
      ¬ Passes given position parent → status.passes = false → Judged row (some status)
  | altered : (∀ ours theirs, commitParents row.commit.raw = [ours,theirs] → ¬ CleanMerge given row.commit) →
      status.passes = false → Judged row (some status)

theorem settleRow_judged (row : Row) (open_ : row.undecided = true) (exempt : row.status.isExempt = true) :
    ∃ status, settleRow (.facts given) position row = .ok status ∧ Judged given position row status := by
  obtain ⟨fingerprint,same⟩ : ∃ fingerprint, row.status = .exempt fingerprint := by
    cases shape : row.status with
    | exempt fingerprint => exact ⟨fingerprint,rfl⟩
    | _ => rw [shape] at exempt; cases exempt
  simp only [settleRow,open_,same,if_true]
  by_cases few : (commitParents row.commit.raw).length < 2
  · rw [if_pos few]
    exact ⟨_,rfl,.single few rfl⟩
  · rw [if_neg few]
    obtain ⟨⟨failed,waits⟩,scanned,spec⟩ := scan_exact given position (commitParents row.commit.raw) false
    rw [scanned]
    cases failed with
    | some parent => exact ⟨_,rfl,.parent spec.1 spec.2.1 spec.2.2 rfl⟩
    | none =>
      cases waits with
      | true =>
        obtain ⟨parent,member,waiting⟩ := (spec.2.mp rfl).resolve_left (by simp)
        exact ⟨none,rfl,.waits member waiting⟩
      | false =>
        have settled : ∀ parent ∈ commitParents row.commit.raw, ¬ Waits position parent :=
          fun parent member waiting => Bool.false_ne_true (spec.2.mpr (.inr ⟨parent,member,waiting⟩))
        have passing := fun parent member => (spec.1 parent member).resolve_left (settled parent member)
        simp only [bind,Except.bind,MergeSource.requireAttrSource,Bool.false_eq_true,if_false]
        cases mismatch : cleanMergeMismatch row.commit.raw (commitParents row.commit.raw)
            (MergeSource.recompute (.facts given) row.commit.sha) with
        | none =>
          obtain ⟨ours,theirs,tree,pair,own,merged⟩ := (mismatch_exact _ _ _).mp mismatch
          have clean : CleanMerge given row.commit := ⟨tree,own,(recompute_exact given _ _ _ _).mp merged⟩
          refine ⟨_,rfl,?_⟩
          rw [← same]
          exact .kept pair (passing ours (by simp [pair])) (passing theirs (by simp [pair])) clean
        | some detail =>
          refine ⟨_,rfl,.altered ?_ rfl⟩
          rintro ours theirs pair ⟨tree,own,merged⟩
          have clean := (mismatch_exact row.commit.raw (commitParents row.commit.raw)
            (MergeSource.recompute (.facts given) row.commit.sha)).mpr
            ⟨ours,theirs,tree,pair,own,(recompute_exact given _ _ _ _).mpr merged⟩
          rw [mismatch] at clean
          cases clean

end

end VerifiableGit.Verify
