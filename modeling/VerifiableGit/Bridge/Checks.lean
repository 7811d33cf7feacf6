import Mathlib.Logic.Relation
import VerifiableGit.Verify.Signature
import VerifiableGit.Verify.Sources

-- The merge facts a check collects (checks.rs), against what git itself says
-- of the range.
namespace VerifiableGit.Bridge.Checks
open Text Commit Verify

def maxPlatformMerges : Nat := 8

def boundaryOf (commits : List RangeCommit) : List Bytes :=
  (commits.flatMap fun c => commitParents c.raw).filter fun parent => parent ∉ commits.map (·.sha)

-- A two-parent merge with a PGP signature, as `(merge,ours,theirs)`.
def candidate (c : RangeCommit) : Option (Bytes × Bytes × Bytes) :=
  match splitSignedCommit c.raw with
  | .ok (some (_,pem)) =>
    if (ascii "-----BEGIN PGP SIGNATURE-----").isPrefixOf pem then
      match commitParents c.raw with
      | [ours,theirs] => some (c.sha,ours,theirs)
      | _ => none
    else none
  | _ => none

def platformMergeCandidates (commits : List RangeCommit) : List (Bytes × Bytes × Bytes) :=
  commits.filterMap candidate

-- The forge's merge base of two commits, asked for a merge, and the
-- recomputation over it.
structure Recomputer where
  mergeBase : Bytes → Bytes → Bytes → Except Bytes Bytes
  recomputeMerge : Bytes → Bytes → Bytes → MergeOutcome

def Recomputer.answer (r : Recomputer) (merge ours theirs : Bytes) : MergeOutcome :=
  match r.mergeBase merge ours theirs with
  | .ok base => r.recomputeMerge ours theirs base
  | .error e => .unavailable (ascii "no merge base from the forge: " ++ e)

def tooMany : MergeOutcome :=
  .unavailable (ascii "more than " ++ ascii (toString maxPlatformMerges) ++
    ascii " platform-signed merges in one check")

section
variable (r : Recomputer) (most : Nat)

def outcome (n : Nat) : Bytes × Bytes × Bytes → MergeOutcome
  | (merge,ours,theirs) => if n ≥ most then tooMany else r.answer merge ours theirs

-- `facts.merges.insert`, in order, from the `n`th candidate on.
def collect (n : Nat) : List (Bytes × Bytes × Bytes) → Bytes → Option MergeOutcome
  | [],_ => none
  | c :: rest,sha =>
    (collect (n + 1) rest sha).or (if sha = c.1 then some (outcome r most n c) else none)

def cappedFacts (commits : List RangeCommit) : MergeFacts :=
  { boundary := boundaryOf commits, merges := collect r most 0 (platformMergeCandidates commits) }

end

def mergeFacts (commits : List RangeCommit) (recompute : Bool) (r : Recomputer) : MergeFacts :=
  if recompute then cappedFacts r maxPlatformMerges commits
  else { boundary := boundaryOf commits, merges := fun _ => none }

-- A commit graph with every parent in it. No order of the commits is needed,
-- so that the graph may even have cycles.
structure CommitGraph where
  commits : List RangeCommit
  distinct : (commits.map (·.sha)).Nodup
  closed : ∀ c ∈ commits, ∀ parent ∈ commitParents c.raw, parent ∈ commits.map (·.sha)

def CommitGraph.Parent (graph : CommitGraph) (commit parent : Bytes) : Prop :=
  ∃ c ∈ graph.commits, c.sha = commit ∧ parent ∈ commitParents c.raw

def CommitGraph.Ancestor (graph : CommitGraph) : Bytes → Bytes → Prop :=
  Relation.ReflTransGen graph.Parent

-- `base..head`: the ancestors of the head that are not ancestors of the base.
structure CommitGraph.Range (graph : CommitGraph) (base head : Bytes) (commits : List RangeCommit) :
    Prop where
  distinct : (commits.map (·.sha)).Nodup
  listed : ∀ c, c ∈ commits ↔
    c ∈ graph.commits ∧ graph.Ancestor head c.sha ∧ ¬ graph.Ancestor base c.sha

-- `git rev-list --boundary base..head`.
def CommitGraph.Boundary (graph : CommitGraph) (base : Bytes) (commits : List RangeCommit)
    (boundary : List Bytes) : Prop :=
  ∀ parent, parent ∈ boundary ↔
    (∃ c ∈ commits, parent ∈ commitParents c.raw) ∧ graph.Ancestor base parent

section
variable {graph : CommitGraph} {base head : Bytes} {commits : List RangeCommit} {boundary : List Bytes}

-- A listed commit's parent is listed, or reachable from the base.
theorem range_parent (range : graph.Range base head commits) (inside : c ∈ commits)
    (parent : p ∈ commitParents c.raw) (outside : p ∉ commits.map (·.sha)) : graph.Ancestor base p := by
  obtain ⟨member,reached,_⟩ := (range.listed c).mp inside
  obtain ⟨other,there,same⟩ := List.mem_map.mp (graph.closed c member p parent)
  by_contra unreached
  refine outside (List.mem_map.mpr ⟨other,(range.listed other).mpr ⟨there,?_,?_⟩,same⟩)
  · rw [same]
    exact reached.tail ⟨c,member,rfl,parent⟩
  · rwa [same]

theorem boundary_same (range : graph.Range base head commits)
    (bounds : graph.Boundary base commits boundary) (inside : c ∈ commits)
    (parent : p ∈ commitParents c.raw) (outside : p ∉ commits.map (·.sha)) :
    p ∈ boundary ↔ p ∈ boundaryOf commits := by
  refine iff_of_true ?_ ?_
  · exact (bounds p).mpr ⟨⟨c,inside,parent⟩,range_parent range inside parent outside⟩
  · refine List.mem_filter.mpr ⟨List.mem_flatMap.mpr ⟨c,inside,parent⟩,?_⟩
    simpa using outside

end

section
variable {r : Recomputer} {most n : Nat} {candidates : List (Bytes × Bytes × Bytes)}

theorem collect_none (absent : sha ∉ candidates.map (·.1)) : collect r most n candidates sha = none := by
  induction candidates generalizing n with
  | nil => rfl
  | cons c rest ih =>
    simp only [List.map_cons,List.mem_cons,not_or] at absent
    rw [collect,ih absent.2,Option.none_or,if_neg absent.1]

-- Each candidate has its own answer, or none for being one too many.
theorem collect_found (r : Recomputer) (most n : Nat) (distinct : (candidates.map (·.1)).Nodup) (inside : c ∈ candidates) :
    ∃ m, n ≤ m ∧ m < n + candidates.length ∧ collect r most n candidates c.1 = some (outcome r most m c) := by
  induction candidates generalizing n with
  | nil => cases inside
  | cons first rest ih =>
    simp only [List.map_cons,List.nodup_cons] at distinct
    rw [collect]
    rcases List.mem_cons.mp inside with rfl | later
    · refine ⟨n,Nat.le_refl n,?_,?_⟩
      · simp only [List.length_cons]
        omega
      · rw [collect_none distinct.1,Option.none_or,if_pos rfl]
    · obtain ⟨m,above,below,found⟩ := ih (n + 1) distinct.2 later
      refine ⟨m,Nat.le_of_succ_le above,?_,?_⟩
      · simp only [List.length_cons]
        omega
      · rw [found,Option.some_or]

theorem candidate_sha (found : candidate c = some m) :
    m.1 = c.sha ∧ commitParents c.raw = [m.2.1,m.2.2] := by
  unfold candidate at found
  split at found
  · split at found
    · split at found
      · rename_i ours theirs parents
        cases found
        exact ⟨rfl,parents⟩
      · cases found
    · cases found
  · cases found

theorem candidates_distinct {commits : List RangeCommit} (distinct : (commits.map (·.sha)).Nodup) :
    ((platformMergeCandidates commits).map (·.1)).Nodup := by
  induction commits with
  | nil => exact List.nodup_nil
  | cons c rest ih =>
    simp only [List.map_cons,List.nodup_cons] at distinct
    unfold platformMergeCandidates
    cases found : candidate c with
    | none =>
      rw [List.filterMap_cons_none found]
      exact ih distinct.2
    | some m =>
      rw [List.filterMap_cons_some found,List.map_cons,List.nodup_cons]
      refine ⟨fun inside => ?_,ih distinct.2⟩
      obtain ⟨other,member,same⟩ := List.mem_map.mp inside
      obtain ⟨commit,there,other'⟩ := List.mem_filterMap.mp member
      refine distinct.1 (List.mem_map.mpr ⟨commit,there,?_⟩)
      rw [← (candidate_sha other').1,same,(candidate_sha found).1]

theorem collect_room (r : Recomputer) (room : n + candidates.length ≤ most) (room' : n + candidates.length ≤ most') :
    collect r most n candidates = collect r most' n candidates := by
  induction candidates generalizing n with
  | nil => rfl
  | cons c rest ih =>
    simp only [List.length_cons] at room room'
    have here : outcome r most n c = outcome r most' n c := by
      simp only [outcome,ge_iff_le,if_neg (show ¬ most ≤ n by omega),if_neg (show ¬ most' ≤ n by omega)]
    funext sha
    rw [collect,collect,ih (by omega) (by omega),here]

theorem outcome_clean (clean : outcome r most n c = .clean tree) (room : n' < most') :
    outcome r most' n' c = .clean tree := by
  simp only [outcome,ge_iff_le] at clean ⊢
  split at clean
  · cases clean
  · rwa [if_neg (Nat.not_le_of_lt room)]

-- A clean merge within the cap is one without it.
theorem collect_clean (distinct : (candidates.map (·.1)).Nodup)
    (clean : collect r most 0 candidates sha = some (.clean tree)) :
    collect r candidates.length 0 candidates sha = some (.clean tree) := by
  by_cases inside : sha ∈ candidates.map (·.1)
  · obtain ⟨c,member,rfl⟩ := List.mem_map.mp inside
    obtain ⟨m,_,_,found⟩ := collect_found r most 0 distinct member
    obtain ⟨m',_,below,found'⟩ := collect_found r candidates.length 0 distinct member
    rw [found] at clean
    rw [found',outcome_clean (Option.some.inj clean) (by omega)]
  · rw [collect_none inside] at clean
    cases clean

end

-- What a check that went through as a platform's says of its commit.
theorem exempt_candidate {scid : Scid} {signers : ResolvedSigners Name} {c : RangeCommit}
    (exempt : checkCommitSignature ssh debug scid signers keyring c.raw = .exempt fingerprint)
    (parents : commitParents c.raw = [ours,theirs]) : candidate c = some (c.sha,ours,theirs) := by
  unfold checkCommitSignature at exempt
  unfold candidate
  split at exempt
  · cases exempt
  · cases exempt
  · rename_i payload pem split_
    rw [split_]
    by_cases pgp : (ascii "-----BEGIN PGP SIGNATURE-----").isPrefixOf pem = true
    · simp only [pgp,if_true,parents]
    · rw [if_neg pgp] at exempt
      repeat (first | cases exempt | split at exempt)

section
variable {graph : CommitGraph} {base head : Bytes} {commits : List RangeCommit} {boundary : List Bytes}
variable {verdicts : List CommitVerdict} {r : Recomputer} {git : Bytes → Bytes → MergeOutcome}

-- Git's own answers are those of the facts with room for every candidate.
theorem git_facts (range : graph.Range base head commits) (bounds : graph.Boundary base commits boundary)
    (aligned : commits.length = verdicts.length)
    (same : ∀ merge ours theirs, (merge,ours,theirs) ∈ platformMergeCandidates commits →
      git ours theirs = r.answer merge ours theirs)
    (exempted : ∀ commit verdict, (commit,verdict) ∈ commits.zip verdicts → verdict.status.isExempt = true →
      ∀ ours theirs, commitParents commit.raw = [ours,theirs] →
        candidate commit = some (commit.sha,ours,theirs)) :
    applyPlatformMergePolicy (.git (.ok boundary) (.ok ()) git) commits verdicts =
      applyPlatformMergePolicy (.facts (cappedFacts r (platformMergeCandidates commits).length commits))
        commits verdicts := by
  refine policy_alike ⟨rfl,rfl⟩ ⟨rfl,rfl⟩ aligned fun commit verdict member exempt => ?_
  have inside := (List.of_mem_zip member).1
  refine ⟨fun parent => boundary_same range bounds inside,fun ours theirs parents => ?_⟩
  have candidate_ := exempted commit verdict member exempt ours theirs parents
  have listed : (commit.sha,ours,theirs) ∈ platformMergeCandidates commits :=
    List.mem_filterMap.mpr ⟨commit,inside,candidate_⟩
  obtain ⟨m,_,below,found⟩ := collect_found r (platformMergeCandidates commits).length 0
    (candidates_distinct range.distinct) listed
  simp only [MergeSource.recompute,cappedFacts,found,Option.getD_some,outcome]
  rw [if_neg (by omega)]
  exact same commit.sha ours theirs listed

end

theorem capped_below (distinct : (commits.map (·.sha)).Nodup) (r : Recomputer) (most : Nat) (rows : List Row) :
    (mergeRule (cappedFacts r most commits) rows).lfp ≤
      (mergeRule (cappedFacts r (platformMergeCandidates commits).length commits) rows).lfp := by
  refine OrderHom.lfp.monotone fun kept sha inside => ?_
  obtain ⟨row,member,same,exempt,⟨ours,theirs,parents,one,two⟩,tree,has,clean⟩ := inside
  exact ⟨row,member,same,exempt,⟨ours,theirs,parents,one,two⟩,tree,has,
    collect_clean (candidates_distinct distinct) clean⟩

-- A cap takes passes away and changes nothing that passes.
theorem capped_verdicts (distinct : (commits.map (·.sha)).Nodup) (aligned : commits.length = verdicts.length)
    (r : Recomputer) (most : Nat) : ∃ full capped,
      applyPlatformMergePolicy (.facts (cappedFacts r (platformMergeCandidates commits).length commits))
        commits verdicts = .ok full ∧
      applyPlatformMergePolicy (.facts (cappedFacts r most commits)) commits verdicts = .ok capped ∧
      ∀ commit one two, (commit,one,two) ∈ commits.zip (full.zip capped) →
        two = one ∨ two.status.passes = false := by
  have valid := provisional_valid commits verdicts distinct aligned
  obtain ⟨n,stable,settles⟩ :=
    policy_stable (cappedFacts r (platformMergeCandidates commits).length commits) commits verdicts distinct aligned
  obtain ⟨m,stable',settles'⟩ := policy_stable (cappedFacts r most commits) commits verdicts distinct aligned
  refine ⟨_,_,settles,settles',fun commit one two member => ?_⟩
  rw [List.zip_map',zip_map] at member
  obtain ⟨⟨c,before⟩,inside,same⟩ := List.mem_map.mp member
  cases same
  have listed : (⟨c,before.status,before.status.isExempt⟩ : Row) ∈ provisional commits verdicts := by
    rw [provisional_map]
    exact List.mem_map.mpr ⟨(c,before),inside,rfl⟩
  obtain ⟨plain,exempt⟩ := settled_status valid _ n stable listed
  obtain ⟨plain',exempt'⟩ := settled_status valid _ m stable' listed
  simp only [settledVerdict]
  cases kind : before.status.isExempt with
  | false =>
    left
    rw [kind] at plain plain'
    rw [plain rfl,plain' rfl]
  | true =>
    rw [kind] at exempt exempt'
    by_cases kept : c.sha ∈ (mergeRule (cappedFacts r most commits) (provisional commits verdicts)).lfp
    · left
      rw [(exempt' rfl).1 kept,(exempt rfl).1 (capped_below distinct r most _ kept)]
    · right
      exact (exempt' rfl).2 kept

theorem bridge_agrees_with_git (graph : CommitGraph) (base head : Bytes) (commits : List RangeCommit)
    (boundary : List Bytes) (verdicts : List CommitVerdict) (ssh : SshKey) (debug : Bytes → Bytes)
    (scid : Scid) (signers : ResolvedSigners Name) (keyring : Option ExemptKeyring) (r : Recomputer)
    (git : Bytes → Bytes → MergeOutcome) (range : graph.Range base head commits)
    (bounds : graph.Boundary base commits boundary) (aligned : commits.length = verdicts.length)
    (checked : ∀ commit verdict fingerprint, (commit,verdict) ∈ commits.zip verdicts →
      verdict.status = .exempt fingerprint →
        checkCommitSignature ssh debug scid signers keyring commit.raw = .exempt fingerprint)
    (same : ∀ merge ours theirs, (merge,ours,theirs) ∈ platformMergeCandidates commits →
      git ours theirs = r.answer merge ours theirs) :
    (∀ commit fingerprint ours theirs, commit ∈ commits →
      checkCommitSignature ssh debug scid signers keyring commit.raw = .exempt fingerprint →
      commitParents commit.raw = [ours,theirs] →
        (commit.sha,ours,theirs) ∈ platformMergeCandidates commits) ∧
    ∃ overGit onBridge,
      applyPlatformMergePolicy (.git (.ok boundary) (.ok ()) git) commits verdicts = .ok overGit ∧
      applyPlatformMergePolicy (.facts (mergeFacts commits true r)) commits verdicts = .ok onBridge ∧
      ((platformMergeCandidates commits).length ≤ maxPlatformMerges → onBridge = overGit) ∧
      ∀ commit one two, (commit,one,two) ∈ commits.zip (overGit.zip onBridge) →
        two = one ∨ two.status.passes = false := by
  refine ⟨fun commit fingerprint ours theirs inside exempt parents =>
    List.mem_filterMap.mpr ⟨commit,inside,exempt_candidate exempt parents⟩,?_⟩
  have overGit := git_facts range bounds aligned same fun commit verdict member exempt ours theirs parents => by
    cases status : verdict.status with
    | exempt fingerprint => exact exempt_candidate (checked commit verdict fingerprint member status) parents
    | _ => rw [status] at exempt; cases exempt
  obtain ⟨full,capped,settles,settles',agree⟩ := capped_verdicts range.distinct aligned r maxPlatformMerges
  refine ⟨full,capped,overGit.trans settles,settles',fun few => ?_,agree⟩
  have facts : cappedFacts r maxPlatformMerges commits =
      cappedFacts r (platformMergeCandidates commits).length commits := by
    have within : 0 + (platformMergeCandidates commits).length ≤ maxPlatformMerges := by omega
    have whole : 0 + (platformMergeCandidates commits).length ≤ (platformMergeCandidates commits).length := by omega
    simp only [cappedFacts,collect_room r within whole]
  rw [facts] at settles'
  exact Except.ok.inj (settles'.symm.trans settles)

namespace Sample

def root : RangeCommit := ⟨ascii "r",ascii "tree t\n\nm"⟩
def trunk : RangeCommit := ⟨ascii "b",ascii "tree t\nparent r\n\nm"⟩

def graph (top : List RangeCommit) (distinct : ((top ++ [trunk,root]).map (·.sha)).Nodup)
    (closed : ∀ c ∈ top ++ [trunk,root], ∀ parent ∈ commitParents c.raw,
      parent ∈ (top ++ [trunk,root]).map (·.sha)) : CommitGraph := ⟨top ++ [trunk,root],distinct,closed⟩

variable {top : List RangeCommit} {distinct : ((top ++ [trunk,root]).map (·.sha)).Nodup}
variable {closed : ∀ c ∈ top ++ [trunk,root], ∀ parent ∈ commitParents c.raw,
  parent ∈ (top ++ [trunk,root]).map (·.sha)}

theorem below_trunk (apart : ∀ c ∈ top, c.sha ≠ ascii "b" ∧ c.sha ≠ ascii "r")
    (reached : (graph top distinct closed).Ancestor (ascii "b") sha) : sha = ascii "b" ∨ sha = ascii "r" := by
  induction reached with
  | refl => exact .inl rfl
  | tail _ parent ih =>
    obtain ⟨c,inside,same,parent⟩ := parent
    rcases List.mem_append.mp inside with above | below
    · rw [← same] at ih
      exact (ih.elim (apart c above).1 (apart c above).2).elim
    · simp only [List.mem_cons,List.not_mem_nil,or_false] at below
      rcases below with rfl | rfl
      · right
        simpa [show commitParents trunk.raw = [ascii "r"] by decide] using parent
      · simp [show commitParents root.raw = [] by decide] at parent

theorem trunk_root : (graph top distinct closed).Ancestor (ascii "b") (ascii "r") :=
  .single ⟨trunk,List.mem_append_right _ List.mem_cons_self,rfl,by decide⟩

theorem graph_range (apart : ∀ c ∈ top, c.sha ≠ ascii "b" ∧ c.sha ≠ ascii "r") (head : RangeCommit)
    (first : head ∈ top) (reach : ∀ c ∈ top, c.sha = head.sha ∨ c.sha ∈ commitParents head.raw) :
    (graph top distinct closed).Range (ascii "b") head.sha top := by
  refine ⟨?_,fun c => ⟨fun inside => ⟨List.mem_append_left _ inside,?_,fun below => ?_⟩,?_⟩⟩
  · have distinct := distinct
    rw [List.map_append] at distinct
    exact (List.nodup_append.mp distinct).1
  · rcases reach c inside with same | parent
    · rw [same]
      exact .refl
    · exact .single ⟨head,List.mem_append_left _ first,rfl,parent⟩
  · exact (below_trunk apart below).elim (apart c inside).1 (apart c inside).2
  · rintro ⟨inside,_,unreached⟩
    rcases List.mem_append.mp inside with above | below
    · exact above
    · simp only [List.mem_cons,List.not_mem_nil,or_false] at below
      rcases below with rfl | rfl
      · exact absurd .refl unreached
      · exact absurd trunk_root unreached

theorem graph_boundary (apart : ∀ c ∈ top, c.sha ≠ ascii "b" ∧ c.sha ≠ ascii "r")
    (uses : ∃ c ∈ top, ascii "b" ∈ commitParents c.raw ∧ ascii "r" ∈ commitParents c.raw) :
    (graph top distinct closed).Boundary (ascii "b") top [ascii "b",ascii "r"] := by
  obtain ⟨c,inside,one,two⟩ := uses
  refine fun parent => ⟨fun member => ?_,fun ⟨_,below⟩ => ?_⟩
  · simp only [List.mem_cons,List.not_mem_nil,or_false] at member
    rcases member with rfl | rfl
    · exact ⟨⟨c,inside,one⟩,.refl⟩
    · exact ⟨⟨c,inside,two⟩,trunk_root⟩
  · simpa using below_trunk apart below

def merge (id : String) : RangeCommit :=
  ⟨ascii id,ascii "tree t\nparent b\nparent r\ngpgsig -----BEGIN PGP SIGNATURE-----\n\nm"⟩

def ssh : SshKey := ⟨fun _ => .error [],id,fun _ _ _ _ => false⟩

def exempt (commits : List RangeCommit) : List CommitVerdict := commits.map fun c => ⟨c.sha,.exempt (ascii "f")⟩

def clean : Recomputer := ⟨fun _ _ _ => .ok (ascii "r"),fun _ _ _ => .clean (ascii "t")⟩

def anyone : ResolvedSigners Unit := ⟨fun _ => none,[],fun _ => none⟩

def keyring : ExemptKeyring := fun _ _ => .ok (ascii "f")

theorem bridge_agrees_with_git_sample :
    ∃ final,
      applyPlatformMergePolicy (.git (.ok [ascii "b",ascii "r"]) (.ok ()) fun _ _ => .clean (ascii "t"))
        [merge "1"] (exempt [merge "1"]) = .ok final ∧
      applyPlatformMergePolicy (.facts (mergeFacts [merge "1"] true clean)) [merge "1"] (exempt [merge "1"]) =
        .ok final := by
  have apart : ∀ c ∈ [merge "1"], c.sha ≠ ascii "b" ∧ c.sha ≠ ascii "r" := by decide
  have checked : ∀ commit verdict fingerprint, (commit,verdict) ∈ [merge "1"].zip (exempt [merge "1"]) →
      verdict.status = .exempt fingerprint →
      checkCommitSignature ssh id ⟨fun _ => none,fun a b => a = b,id⟩ anyone (some keyring) commit.raw =
        .exempt fingerprint := by
    intro commit verdict fingerprint member status
    obtain ⟨rfl,rfl⟩ : commit = merge "1" ∧ verdict = ⟨ascii "1",.exempt (ascii "f")⟩ :=
      Prod.mk.inj (List.mem_singleton.mp member)
    cases status
    decide
  obtain ⟨_,overGit,onBridge,git,bridge,same,_⟩ :=
    bridge_agrees_with_git (graph [merge "1"] (by decide) (by decide)) (ascii "b") (ascii "1")
      [merge "1"] [ascii "b",ascii "r"] (exempt [merge "1"]) ssh id _ anyone (some keyring) clean
      (fun _ _ => .clean (ascii "t")) (graph_range apart (merge "1") List.mem_cons_self (by decide))
      (graph_boundary apart (by decide)) rfl checked (fun _ _ _ _ => rfl)
  have same := same (by decide)
  rw [same] at bridge
  exact ⟨overGit,git,bridge⟩

-- Nine conflicting merges under one head, one more than the bridge recomputes.
def merges : List RangeCommit := ["1","2","3","4","5","6","7","8","9"].map merge

def tip : RangeCommit := ⟨ascii "h",ascii ("tree t\nparent 1\nparent 2\nparent 3\nparent 4\nparent 5\nparent 6\n" ++
  "parent 7\nparent 8\nparent 9\n\nm")⟩

def handed : Recomputer := ⟨fun _ _ _ => .ok (ascii "r"),fun _ _ _ => .conflict⟩

-- A merge no one signed, given out as exempt.
def plain : RangeCommit := ⟨ascii "1",ascii "tree t\nparent b\nparent r\n\nm"⟩

def results (source : MergeSource) (commits : List RangeCommit) (verdicts : List CommitVerdict) :
    List CommitStatus :=
  match applyPlatformMergePolicy source commits verdicts with
  | .ok final => final.map (·.status)
  | .error _ => []

-- Over the cap the ninth merge fails on both sides, for other reasons; and a
-- verdict no check gave out passes over git alone, under the cap.
theorem bridge_differs_from_git :
    (∃ closed distinct,
      (graph (tip :: merges) distinct closed).Range (ascii "b") (ascii "h") (tip :: merges) ∧
      (graph (tip :: merges) distinct closed).Boundary (ascii "b") (tip :: merges) [ascii "b",ascii "r"]) ∧
    (results (.git (.ok [ascii "b",ascii "r"]) (.ok ()) fun _ _ => .conflict) (tip :: merges)
        (⟨ascii "h",.unsigned⟩ :: exempt merges)).getLast? =
      some (.platformMergeAltered (ascii "f") (ascii ("its parents do not merge cleanly, so the conflicts " ++
        "were resolved by hand (e.g. in the web UI) and that resolution is unsigned content"))) ∧
    (results (.facts (mergeFacts (tip :: merges) true handed)) (tip :: merges)
        (⟨ascii "h",.unsigned⟩ :: exempt merges)).getLast? =
      some (.platformMergeAltered (ascii "f") (ascii ("could not recompute the merge: " ++
        "more than 8 platform-signed merges in one check"))) ∧
    (∃ closed distinct,
      (graph [plain] distinct closed).Range (ascii "b") (ascii "1") [plain] ∧
      (graph [plain] distinct closed).Boundary (ascii "b") [plain] [ascii "b",ascii "r"]) ∧
    results (.git (.ok [ascii "b",ascii "r"]) (.ok ()) fun _ _ => .clean (ascii "t")) [plain] (exempt [plain]) =
      [.exempt (ascii "f")] ∧
    results (.facts (mergeFacts [plain] true clean)) [plain] (exempt [plain]) =
      [.platformMergeAltered (ascii "f") (ascii ("could not recompute the merge: " ++
        "the merge was not recomputed for this check"))] := by
  refine ⟨⟨?_,?_,?_,?_⟩,by decide +kernel,by decide +kernel,⟨?_,?_,?_,?_⟩,by decide +kernel,by decide +kernel⟩
  · decide
  · decide
  · exact graph_range (by decide +kernel) tip List.mem_cons_self (by decide +kernel)
  · exact graph_boundary (by decide) (by decide)
  · decide
  · decide
  · exact graph_range (by decide) plain List.mem_cons_self (by decide)
  · exact graph_boundary (by decide) (by decide)

end Sample

end VerifiableGit.Bridge.Checks
