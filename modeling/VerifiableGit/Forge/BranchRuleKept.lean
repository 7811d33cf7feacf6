import VerifiableGit.Forge.BranchRule
import VerifiableGit.Forge.RulesetAgrees
import VerifiableGit.Workflow.Exact

-- What a request leaves of a rule, and what the drift report says of a rule
-- that satisfies a spec.
namespace VerifiableGit.BranchRule
open Text (split_free)
open Qualified (Str text lower lower_cases isWhitespace char_nat)
open Workflow (ProtectionSpec intoBytes trim trim_trim)
open Ruleset (approvalsNeeded)
open Governance (ProtectionGap ProtectionState MergeMethod Projection RepoState)
open Diff (Drift)

-- The protection a Forgejo plan asks for; its approvals are a `u8`.
structure Planned (spec : ProtectionSpec) : Prop where
  pullRequest : spec.requirePullRequest = true
  paths : spec.protectedPaths = Workflow.Forgejo.protectedPaths
  approvals : spec.requiredApprovals < 2 ^ 8

/-! Pattern lists -/

theorem lower_blank (c : Char) : isWhitespace c.toLower = isWhitespace c := by
  rcases lower_cases c with ⟨low,high,up⟩ | same
  · have upper : isWhitespace c = false := by
      unfold isWhitespace
      simp only [Bool.or_eq_false_iff,Bool.and_eq_false_iff,decide_eq_false_iff_not]
      omega
    have lowered : isWhitespace c.toLower = false := by
      unfold isWhitespace
      simp only [Bool.or_eq_false_iff,Bool.and_eq_false_iff,decide_eq_false_iff_not,up]
      omega
    rw [upper,lowered]
  · rw [same]

theorem lower_twice (c : Char) : c.toLower.toLower = c.toLower := by
  rcases lower_cases c with ⟨low,high,up⟩ | same
  · rcases lower_cases c.toLower with ⟨_,high',_⟩ | same
    · omega
    · exact same
  · rw [same,same]

theorem lower_mark (c : Char) (lowered : c.toLower = ';') : c = ';' := by
  rcases lower_cases c with ⟨low,high,up⟩ | same
  · have mark : c.toLower.toNat = 59 := congrArg Char.toNat lowered
    omega
  · exact same.symm.trans lowered

theorem blank_lowered : isWhitespace ∘ Char.toLower = isWhitespace := funext lower_blank

theorem lower_lower (s : Str) : lower (lower s) = lower s := by
  rw [lower,lower,List.map_map]
  exact List.map_congr_left fun c _ => lower_twice c

theorem trim_lower (s : Str) : trim (lower s) = lower (trim s) := by
  simp only [trim,Workflow.trimEnd,List.rdropWhile,lower,List.dropWhile_map,← List.map_reverse,blank_lowered]

structure Fine (p : Str) : Prop where
  some_ : p ≠ []
  free : ';' ∉ p
  kept : lower (trim p) = p

theorem patterns_fine (s : Str) : ∀ p ∈ patterns s, Fine p := by
  intro p member
  obtain ⟨inside,some_⟩ := List.mem_filter.mp member
  obtain ⟨q,piece,same⟩ := List.mem_map.mp inside
  subst same
  refine ⟨of_decide_eq_true some_,fun mark => ?_,?_⟩
  · obtain ⟨c,there,lowered⟩ := List.mem_map.mp mark
    have within : c ∈ q := (List.dropWhile_suffix isWhitespace).subset ((List.rdropWhile_prefix isWhitespace _).subset there)
    exact split_free ';' s q piece (lower_mark c lowered ▸ within)
  · rw [trim_lower,lower_lower,trim_trim]

theorem patterns_join {paths : List Str} (fine : ∀ p ∈ paths, Fine p) : patterns (join paths) = paths := by
  by_cases empty : paths = []
  · subst empty
    decide
  · have split : (join paths).splitOn ';' = paths := List.splitOn_intercalate ';' (fun p member => (fine p member).free) empty
    have kept : paths.map (fun p => lower (trim p)) = paths :=
      (List.map_congr_left fun p member => (fine p member).kept).trans (List.map_id _)
    rw [patterns,Api.patterns,split,kept]
    exact List.filter_eq_self.mpr fun p member => decide_eq_true (fine p member).some_

theorem planned_fine : ∀ p ∈ Workflow.Forgejo.protectedPaths, Fine p ∧ lower p = p := by
  have checked : Workflow.Forgejo.protectedPaths.all (fun p => p ≠ [] && !p.contains ';' && lower (trim p) = p && lower p = p) =
      true := by decide
  intro p member
  have all := List.all_eq_true.mp checked p member
  simp only [Bool.and_eq_true,decide_eq_true_eq,Bool.not_eq_true',List.contains_eq_mem,decide_eq_false_iff_not] at all
  exact ⟨⟨all.1.1.1,all.1.1.2,all.1.2⟩,all.2⟩

theorem addPath_mem (paths : List Str) (p q : Str) : q ∈ addPath paths p ↔ q ∈ paths ∨ q = lower p := by
  unfold addPath
  split
  · rename_i there
    refine ⟨.inl,fun either => either.elim id fun same => ?_⟩
    rw [same]
    exact List.contains_iff_mem.mp there
  · rw [List.mem_append,List.mem_singleton]

theorem addPaths_mem (more paths : List Str) (q : Str) :
    q ∈ more.foldl addPath paths ↔ q ∈ paths ∨ ∃ p ∈ more, q = lower p := by
  induction more generalizing paths with
  | nil => simp
  | cons p more ih =>
    rw [List.foldl_cons,ih,addPath_mem]
    simp only [List.exists_mem_cons_iff,or_assoc]

/-! What a request leaves -/

structure Satisfied (rule : ProtectionJson) (spec : ProtectionSpec) : Prop where
  push : rule.enablePush = false
  check : rule.enableStatusCheck = true
  context : spec.requiredCheck ∈ rule.statusCheckContexts
  merge : rule.enableMergeWhitelist = true
  teams : rule.mergeWhitelistTeams = []
  unprotected : patterns rule.unprotectedFilePatterns = []
  admins : rule.applyToAdmins ≠ some false
  forced : rule.enableForcePush ≠ some true
  approvals : approvalsNeeded spec ≤ (approvalsOf rule).toNat
  paths : ∀ p ∈ spec.protectedPaths, lower p ∈ patterns rule.protectedFilePatterns

theorem satisfied_exact {spec : ProtectionSpec} (planned : Planned spec) (rule : ProtectionJson) :
    satisfiesProtection rule spec = true ↔ Satisfied rule spec := by
  constructor
  · intro satisfied
    simp only [satisfiesProtection,Bool.and_eq_true,planned.pullRequest,Bool.not_true,Bool.false_or,Bool.not_eq_true',
      List.isEmpty_iff,decide_eq_true_eq,List.all_eq_true,List.contains_iff_mem] at satisfied
    obtain ⟨⟨⟨⟨⟨⟨⟨⟨⟨push,check⟩,context⟩,merge⟩,teams⟩,unprotected⟩,admins⟩,forced⟩,approvals⟩,paths⟩ := satisfied
    exact ⟨push,check,context,merge,teams,unprotected,admins,forced,approvals,paths⟩
  · rintro ⟨push,check,context,merge,teams,unprotected,admins,forced,approvals,paths⟩
    simp only [satisfiesProtection,Bool.and_eq_true,planned.pullRequest,Bool.not_true,Bool.false_or,Bool.not_eq_true',
      List.isEmpty_iff,decide_eq_true_eq,List.all_eq_true,List.contains_iff_mem]
    exact ⟨⟨⟨⟨⟨⟨⟨⟨⟨push,check⟩,context⟩,merge⟩,teams⟩,unprotected⟩,admins⟩,forced⟩,approvals⟩,paths⟩

section
variable {spec : ProtectionSpec} (planned : Planned spec) (existing : Option ProtectionJson)
include planned

theorem requested_patterns : patterns (join (requestedPaths existing spec)) = requestedPaths existing spec := by
  refine patterns_join fun p member => ?_
  rcases (addPaths_mem _ _ p).mp member with there | ⟨q,asked,same⟩
  · cases existing with
    | none => cases there
    | some rule => exact patterns_fine _ p there
  · obtain ⟨fine,kept⟩ := planned_fine q (planned.paths ▸ asked)
    rw [same,kept]
    exact fine

theorem approvals_sent (rule : ProtectionJson) (sent : rule.requiredApprovals = some (approvalsNeeded spec : Int))
    (dismissed : rule.dismissStaleApprovals = some true) : approvalsNeeded spec ≤ (approvalsOf rule).toNat := by
  have few : approvalsNeeded spec < 256 := by
    have small := planned.approvals
    unfold approvalsNeeded
    split <;> omega
  have counted : approvalsOf rule = (approvalsNeeded spec).toUInt8 := by
    rw [approvalsOf,if_neg (not_not_intro dismissed),sent,Option.map_some,Option.getD_some,saturated,Int.toNat_natCast,
      if_pos few]
  rw [counted,Nat.toUInt8_eq,UInt8.toNat_ofNat',Nat.mod_eq_of_lt few]

-- A patched rule is what was asked for, unless it allows force-pushes.
theorem patched_satisfies (rule : ProtectionJson) (admins : List Str) :
    satisfiesProtection (rule.patched (protectionRequest (some rule) admins spec)) spec = true ↔
      rule.enableForcePush ≠ some true := by
  rw [satisfied_exact planned]
  refine ⟨fun satisfied => satisfied.forced,fun unforced => ?_⟩
  have push : (!spec.requirePullRequest) = false := by rw [planned.pullRequest]; rfl
  have context : spec.requiredCheck ∈ requestedContexts (some rule) spec := by
    unfold requestedContexts
    dsimp only
    split
    · rename_i there
      exact List.contains_iff_mem.mp there
    · exact List.mem_append_right _ (List.mem_singleton.mpr rfl)
  have approvals : approvalsNeeded spec ≤
      (approvalsOf (rule.patched (protectionRequest (some rule) admins spec))).toNat := by
    by_cases some_ : approvalsNeeded spec > 0
    · refine approvals_sent planned _ ?_ ?_
      · simp only [ProtectionJson.patched,protectionRequest,if_pos some_,Option.map_some,Option.some_or]
      · simp only [ProtectionJson.patched,protectionRequest,if_pos some_,Option.map_some,Option.some_or]
    · exact (Nat.le_of_not_gt some_).trans (Nat.zero_le _)
  have bare : patterns [] = [] := by decide
  have applied : some true ≠ some false := by decide
  refine ⟨push,rfl,context,rfl,rfl,bare,applied,unforced,approvals,fun p asked => ?_⟩
  have whole := requested_patterns planned (some rule)
  show lower p ∈ patterns (join (requestedPaths (some rule) spec))
  rw [whole]
  exact (addPaths_mem _ _ _).mpr (.inr ⟨p,asked,rfl⟩)

end

/-! The drift of a rule that satisfies -/

-- All it says is that admins may pass an instance without the setting.
def adminGap (rule : ProtectionJson) : List ProtectionGap :=
  if rule.applyToAdmins = some true then [] else [.bypassActors [intoBytes adminsBypass]]

theorem satisfied_bypass {spec : ProtectionSpec} {rule : ProtectionJson} (satisfied : Satisfied rule spec) :
    rule.bypassActors = if rule.applyToAdmins = some true then [] else [adminsBypass] := by
  have push : pushActors rule = [] := if_neg (by rw [satisfied.push]; exact Bool.false_ne_true)
  rw [ProtectionJson.bypassActors,push,satisfied.unprotected,satisfied.merge,satisfied.teams]
  by_cases applied : rule.applyToAdmins = some true <;> simp [applied]

section
variable {spec : ProtectionSpec} {rule : ProtectionJson} (satisfied : Satisfied rule spec) (settings : RepoSettings)
include satisfied

theorem satisfied_gaps :
    Diff.protectionGaps (protectionState (some rule) [] settings).state (intoBytes spec.requiredCheck) = adminGap rule := by
  have bypass := satisfied_bypass satisfied
  have there : intoBytes spec.requiredCheck ∈ rule.statusCheckContexts.map intoBytes := List.mem_map_of_mem satisfied.context
  simp only [protectionState,Diff.protectionGaps,adminGap,satisfied.push,satisfied.check,bypass,List.map_nil,List.append_nil]
  by_cases applied : rule.applyToAdmins = some true
  · simp [applied,there,satisfied.forced]
  · simp [applied,there,satisfied.forced]

theorem satisfied_drift (desired : Projection) (check : desired.requiredCheck = some (intoBytes spec.requiredCheck))
    (asked : desired.requiredApprovals.toNat ≤ approvalsNeeded spec) :
    Diff.protectionDrift (protectionState (some rule) [] settings).state desired =
      if adminGap rule = [] then [] else [.protectionWeakened (adminGap rule)] := by
  have enough : Diff.approvalGap (protectionState (some rule) [] settings).state desired.requiredApprovals = [] := by
    refine if_neg fun short => UInt8.not_lt.mpr ?_ short.2
    exact UInt8.le_iff_toNat_le.mpr (asked.trans satisfied.approvals)
  unfold Diff.protectionDrift
  rw [check]
  dsimp only
  rw [satisfied_gaps satisfied settings,enough,List.append_nil]

theorem satisfied_paths (planned : Planned spec) : pathGaps (protectionState (some rule) [] settings) = [] := by
  have kept : Workflow.Forgejo.protectedPaths.filter
      (fun want => !(patterns rule.protectedFilePatterns).any (· = want)) = [] := by
    refine List.filter_eq_nil_iff.mpr fun p member => ?_
    have there := satisfied.paths p (planned.paths.symm ▸ member)
    rw [(planned_fine p member).2] at there
    simpa using there
  exact if_neg fun missing => missing.2 kept

end

theorem extend_gaps (extra : List ProtectionGap) (drift : List Drift) (gaps : List ProtectionGap)
    (member : .protectionWeakened gaps ∈ extend extra drift) (gap : ProtectionGap) (inside : gap ∈ gaps) :
    gap ∈ extra ∨ ∃ found, .protectionWeakened found ∈ drift ∧ gap ∈ found := by
  induction drift with
  | nil =>
    cases List.mem_singleton.mp member
    exact .inl inside
  | cons d rest ih =>
    have later (there : .protectionWeakened gaps ∈ rest) :
        gap ∈ extra ∨ ∃ found, .protectionWeakened found ∈ d :: rest ∧ gap ∈ found :=
      .inr ⟨gaps,List.mem_cons_of_mem _ there,inside⟩
    have deeper (there : .protectionWeakened gaps ∈ extend extra rest) :
        gap ∈ extra ∨ ∃ found, .protectionWeakened found ∈ d :: rest ∧ gap ∈ found :=
      (ih there).imp_right fun ⟨found,listed,held⟩ => ⟨found,List.mem_cons_of_mem _ listed,held⟩
    cases d with
    | protectionWeakened before =>
      rcases List.mem_cons.mp member with here | there
      · cases here
        rcases List.mem_append.mp inside with old | new
        · exact .inr ⟨before,List.mem_cons_self,old⟩
        · split at new
          · exact .inl (List.mem_of_mem_filter new)
          · exact .inl new
      · exact later there
    | _ =>
      rcases List.mem_cons.mp member with here | there
      · cases here
      · exact deeper there

-- A gap the report shows is one of the settings or one of the rule.
theorem diff_gap (check : Str → Str) (allowed : List MergeMethod) (repo : RepoState) (o : Observed) (desired : Projection)
    (required : Option Str) (gaps : List ProtectionGap) (member : .protectionWeakened gaps ∈ diff check allowed repo o desired required)
    (gap : ProtectionGap) (inside : gap ∈ gaps) : gap ∈ forgejoGaps allowed o ∨
      ∃ found, .protectionWeakened found ∈ Diff.protectionDrift o.state
        { desired with requiredCheck := required.map fun c => intoBytes (check c) } ∧ gap ∈ found := by
  have plain (there : .protectionWeakened gaps ∈ Diff.defaultDiff { repo with protection := o.state }
      { desired with requiredCheck := required.map fun c => intoBytes (check c) }) :=
    Ruleset.defaultDiff_weakened _ _ gaps there
  unfold diff at member
  dsimp only at member
  split at member
  · exact .inr ⟨gaps,plain member,inside⟩
  · split at member
    · exact .inr ⟨gaps,plain member,inside⟩
    · rcases extend_gaps _ _ gaps member gap inside with extra | ⟨found,there,held⟩
      · exact .inl extra
      · exact .inr ⟨found,Ruleset.defaultDiff_weakened _ _ found there,held⟩

-- A rule that forbids force-pushes is patched to one that satisfies, and of one
-- that satisfies nothing is reported but the settings of the repository and
-- admins an instance cannot bind.
theorem protection_kept (spec : ProtectionSpec) (planned : Planned spec) :
    (∀ (rule : ProtectionJson) (admins : List Str), rule.enableForcePush ≠ some true →
      satisfiesProtection (rule.patched (protectionRequest (some rule) admins spec)) spec = true ∧
      ∀ others answer, protect spec others (some (rule.patched (protectionRequest (some rule) admins spec))) [] answer =
        (.unchanged,none)) ∧
    (∀ rule, satisfiesProtection rule spec = true →
      ∀ check required allowed repo settings desired, check required = spec.requiredCheck →
        desired.requiredApprovals.toNat ≤ approvalsNeeded spec → ∀ gaps, .protectionWeakened gaps ∈
          diff check allowed repo (protectionState (some rule) [] settings) desired (some required) →
        ∀ gap ∈ gaps, gap ∈ settingGaps allowed (protectionState (some rule) [] settings) ∨
          rule.applyToAdmins = none ∧ gap = .bypassActors [intoBytes adminsBypass]) := by
  constructor
  · intro rule admins unforced
    have satisfied := (patched_satisfies planned rule admins).mpr unforced
    refine ⟨satisfied,fun others answer => ?_⟩
    rw [protect,if_neg (not_not_intro rfl),Option.any_some,if_pos satisfied]
  · intro rule held check required allowed repo settings desired context asked gaps member gap inside
    have satisfied := (satisfied_exact planned rule).mp held
    rcases diff_gap check allowed repo _ desired (some required) gaps member gap inside with extra | ⟨found,there,held⟩
    · rw [forgejoGaps,satisfied_paths satisfied settings planned,List.nil_append] at extra
      exact .inl extra
    · right
      rw [Option.map_some] at there
      rw [satisfied_drift satisfied settings { desired with requiredCheck := some (intoBytes (check required)) }
        (congrArg (fun c => some (intoBytes c)) context) asked] at there
      split at there
      · cases there
      · cases List.mem_singleton.mp there
        unfold adminGap at held
        split at held
        · cases held
        · rename_i unapplied
          refine ⟨?_,List.mem_singleton.mp held⟩
          cases shape : rule.applyToAdmins with
          | none => rfl
          | some value =>
            cases value with
            | true => exact absurd shape unapplied
            | false => exact absurd shape satisfied.admins

-- A plan asks for such a protection, last.
theorem plan_protects {repo : Workflow.Resource} {cfg : Workflow.VgiConfig} {opts : Workflow.Forgejo.PlanOptions}
    {steps : List Workflow.BootstrapStep} (ok : Workflow.Forgejo.forgejoPlan repo cfg opts = .ok steps)
    (few : cfg.requiredApprovals < 2 ^ 8) : ∃ spec, Planned spec ∧ spec.requiredCheck = opts.statusContext ∧
      steps.getLast? = some ⟨text "protection",.requiredCheck,.protectDefaultBranch spec⟩ := by
  let spec : ProtectionSpec :=
    { requiredCheck := opts.statusContext
      protectedPaths := Workflow.Forgejo.protectedPaths
      requiredApprovals := cfg.requiredApprovals }
  refine ⟨spec,⟨rfl,rfl,few⟩,rfl,?_⟩
  unfold Workflow.Forgejo.forgejoPlan at ok
  simp only [Qualified.check_then] at ok
  obtain ⟨_,_,_,_,ok⟩ := ok
  obtain ⟨_,_,ok⟩ := Workflow.ok_bind.mp ok
  obtain ⟨_,ok⟩ := Qualified.check_then.mp ok
  obtain ⟨_,_,ok⟩ := Workflow.ok_bind.mp ok
  simp only [Qualified.check_then] at ok
  obtain ⟨_,_,_,_,_,ok⟩ := ok
  obtain ⟨extra,_,same⟩ := Workflow.ok_bind.mp ok
  cases same
  exact List.getLast?_concat

namespace Sample

def spec : ProtectionSpec := { requiredCheck := ['c'], protectedPaths := Workflow.Forgejo.protectedPaths }

theorem planned : Planned spec := ⟨rfl,rfl,by decide⟩

def repo : RepoState := { resource := Diff.Sample.repo, forgeId := 7 }
def desired : Projection := { resource := Diff.Sample.repo }
def settings : RepoSettings := ⟨[.fastForward],some true⟩

-- The rule a run leaves where there was none but what it forces.
def asked (forced : Option Bool) : ProtectionJson :=
  ProtectionJson.patched { enableForcePush := forced } (protectionRequest none [] spec)

def older : ProtectionJson := { asked none with applyToAdmins := none }

theorem older_satisfied : Satisfied older spec := by
  refine (satisfied_exact planned older).mp ?_
  decide

-- A rule that allows force-pushes is never converged, and an instance without
-- `apply_to_admins` satisfies and is reported.
theorem protection_lost :
    satisfiesProtection ((asked (some true)).patched (protectionRequest (some (asked (some true))) [] spec)) spec = false ∧
    satisfiesProtection older spec = true ∧ .protectionWeakened [.bypassActors [intoBytes adminsBypass]] ∈
      diff id [.fastForward] repo (protectionState (some older) [] settings) desired (some ['c']) := by
  refine ⟨?_,(satisfied_exact planned older).mpr older_satisfied,?_⟩
  · refine Bool.eq_false_iff.mpr fun satisfied => ?_
    exact (patched_satisfies planned (asked (some true)) []).mp satisfied rfl
  · have drift := satisfied_drift older_satisfied settings { desired with requiredCheck := some (intoBytes ['c']) } rfl
      (by decide)
    have gaps : forgejoGaps [.fastForward] (protectionState (some older) [] settings) = [] := by
      rw [forgejoGaps,satisfied_paths older_satisfied settings planned]
      decide
    have within : .protectionWeakened [.bypassActors [intoBytes adminsBypass]] ∈ Diff.defaultDiff
        { repo with protection := (protectionState (some older) [] settings).state }
        { desired with requiredCheck := some (intoBytes ['c']) } := by
      simp only [Diff.defaultDiff,drift]
      simp [adminGap,older,desired,repo,Diff.roleDrift]
    unfold diff
    dsimp only
    rw [gaps]
    split
    · exact within
    · exact within

def left : ProtectionJson := (asked none).patched (protectionRequest (some (asked none)) [] spec)

theorem protection_kept_sample : satisfiesProtection left spec = true ∧ ∀ gaps, .protectionWeakened gaps ∈
    diff id [.fastForward] repo (protectionState (some left) [] settings) desired (some ['c']) → gaps = [] := by
  obtain ⟨converges,reports⟩ := protection_kept spec planned
  have satisfied := (converges (asked none) [] (by decide)).1
  have quiet : settingGaps [.fastForward] (protectionState (some left) [] settings) = [] := by decide
  refine ⟨satisfied,fun gaps member => List.eq_nil_iff_forall_not_mem.mpr fun gap inside => ?_⟩
  rcases reports left satisfied id ['c'] [.fastForward] repo settings desired rfl (by decide) gaps member gap inside with
    setting | ⟨none_,_⟩
  · rw [quiet] at setting
    cases setting
  · cases none_

end Sample

end VerifiableGit.BranchRule
