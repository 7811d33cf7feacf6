import VerifiableGit.Forge.Ruleset

-- The body asked for, the test of what is there, and the drift reported read a
-- ruleset in one way.
namespace VerifiableGit.Ruleset
open Text Json
open Did (Value)
open Diff (Drift)
open Governance (StepOutcome ProtectionState Projection RepoState ProtectionGap)
open Workflow (ProtectionSpec intoBytes)

-- The check and the standard blocks, and approvals that fit a `u8`.
structure Standard (spec : ProtectionSpec) : Prop where
  statusCheck : spec.requireStatusCheck = true
  pullRequest : spec.requirePullRequest = true
  forcePush : spec.blockForcePush = true
  deletion : spec.blockDeletion = true
  approvals : spec.requiredApprovals < 2 ^ 8

-- What GitHub gives for a body it was sent: an id, members of its own, and
-- that the account asking has no bypass.
structure ReadBack (written read : Value) : Prop where
  kept : Kept written read
  id : ∃ id, (read.get (ascii "id")).bind asU64 = some id
  noBypass : ∃ mode, optional Value.asStr (read.get (ascii "current_user_can_bypass")) = some mode ∧
    mode.filter (· ≠ ascii "never") = none

-- The projection of a repository that `spec` protects.
structure Asks (spec : ProtectionSpec) (desired : Projection) : Prop where
  check : desired.requiredCheck = some (intoBytes spec.requiredCheck)
  approvals : desired.requiredApprovals.toNat ≤ approvalsNeeded spec

theorem kinds_distinct : [pullRequest,nonFastForward,deletion,requiredStatusChecks].Nodup := by decide

/-! What a run over the rules leaves -/

section
variable (actionsId : Option UInt64)

theorem readRule_cases (p : ProtectionState) (rule : RuleJson) :
    (rule.kind = pullRequest ∧ readRule actionsId p rule =
      { p with requiresPullRequest := true, requiredApprovals := (approvalsOf rule).getD p.requiredApprovals }) ∨
    (rule.kind = nonFastForward ∧ readRule actionsId p rule = { p with blocksForcePush := true }) ∨
    (rule.kind = deletion ∧ readRule actionsId p rule = { p with blocksDeletion := true }) ∨
    (rule.kind = requiredStatusChecks ∧
      readRule actionsId p rule = { p with requiredChecks := p.requiredChecks ++ checksOf actionsId rule }) ∨
    (rule.kind ∉ [pullRequest,nonFastForward,deletion,requiredStatusChecks] ∧ readRule actionsId p rule = p) := by
  unfold readRule
  by_cases pull : rule.kind = pullRequest
  · exact .inl ⟨pull,if_pos pull⟩
  by_cases force : rule.kind = nonFastForward
  · exact .inr (.inl ⟨force,by rw [if_neg pull,if_pos force]⟩)
  by_cases delete : rule.kind = deletion
  · exact .inr (.inr (.inl ⟨delete,by rw [if_neg pull,if_neg force,if_pos delete]⟩))
  by_cases status : rule.kind = requiredStatusChecks
  · exact .inr (.inr (.inr (.inl ⟨status,by rw [if_neg pull,if_neg force,if_neg delete,if_pos status]⟩)))
  · refine .inr (.inr (.inr (.inr ⟨?_,?_⟩)))
    · simp [pull,force,delete,status]
    · rw [if_neg pull,if_neg force,if_neg delete,if_neg status]

-- What no rule changes.
structure Same (p q : ProtectionState) : Prop where
  present : q.present = p.present
  enforced : q.enforced = p.enforced
  covers : q.coversDefaultBranch = p.coversDefaultBranch
  otherGaps : q.otherGaps = p.otherGaps

theorem same_trans (first : Same p q) (second : Same q r) : Same p r :=
  ⟨second.present.trans first.present,second.enforced.trans first.enforced,second.covers.trans first.covers,
    second.otherGaps.trans first.otherGaps⟩

theorem readRule_same (p : ProtectionState) (rule : RuleJson) : Same p (readRule actionsId p rule) := by
  rcases readRule_cases actionsId p rule with ⟨_,read⟩ | ⟨_,read⟩ | ⟨_,read⟩ | ⟨_,read⟩ | ⟨_,read⟩
  all_goals
    rw [read]
    exact ⟨rfl,rfl,rfl,rfl⟩

theorem rules_same (rules : List RuleJson) (p : ProtectionState) : Same p (rules.foldl (readRule actionsId) p) := by
  induction rules generalizing p with
  | nil => exact ⟨rfl,rfl,rfl,rfl⟩
  | cons rule rules ih => exact same_trans (readRule_same actionsId p rule) (ih _)

theorem readRule_approvals (p : ProtectionState) (rule : RuleJson) (other : rule.kind ≠ pullRequest) :
    (readRule actionsId p rule).requiredApprovals = p.requiredApprovals := by
  rcases readRule_cases actionsId p rule with ⟨pull,_⟩ | ⟨_,read⟩ | ⟨_,read⟩ | ⟨_,read⟩ | ⟨_,read⟩
  · exact absurd pull other
  all_goals rw [read]

theorem rules_approvals (rules : List RuleJson) (p : ProtectionState) (other : ∀ rule ∈ rules, rule.kind ≠ pullRequest) :
    (rules.foldl (readRule actionsId) p).requiredApprovals = p.requiredApprovals := by
  induction rules generalizing p with
  | nil => rfl
  | cons rule rules ih =>
    obtain ⟨first,rest⟩ := List.forall_mem_cons.mp other
    exact (ih _ rest).trans (readRule_approvals actionsId p rule first)

-- Of rules of different types, the one for pull requests sets the approvals.
theorem approvals_exact (rules : List RuleJson) (p : ProtectionState) (distinct : (rules.map (·.kind)).Nodup)
    (member : rule ∈ rules) (pull : rule.kind = pullRequest) :
    (rules.foldl (readRule actionsId) p).requiredApprovals = (approvalsOf rule).getD p.requiredApprovals := by
  obtain ⟨before,after,split⟩ := List.append_of_mem member
  rw [split,List.map_append,List.map_cons,List.nodup_append,List.nodup_cons] at distinct
  have earlier : ∀ other ∈ before, other.kind ≠ pullRequest := fun other present same =>
    distinct.2.2 other.kind (List.mem_map_of_mem present) rule.kind List.mem_cons_self (same.trans pull.symm)
  have later : ∀ other ∈ after, other.kind ≠ pullRequest := fun other present same =>
    distinct.2.1.1 (List.mem_map.mpr ⟨other,present,same.trans pull.symm⟩)
  rw [split,List.foldl_append,List.foldl_cons,rules_approvals actionsId after _ later]
  have here (q : ProtectionState) :
      (readRule actionsId q rule).requiredApprovals = (approvalsOf rule).getD q.requiredApprovals := by
    unfold readRule
    rw [if_pos pull]
  rw [here,rules_approvals actionsId before p earlier]

end

/-! The drift of a ruleset that satisfies -/

theorem saturated_least (n : UInt64) (count : UInt8) (least : count.toNat ≤ n.toNat) : count ≤ saturated n := by
  unfold saturated
  rw [UInt8.le_iff_toNat_le]
  split
  · rename_i small
    rw [UInt64.toNat_toUInt8,Nat.mod_eq_of_lt small]
    exact least
  · exact Nat.le_of_lt_succ count.toNat_lt

theorem flag_on (rule : RuleJson) (key : Bytes) : flag rule key = on rule key := by
  unfold flag on
  cases (rule.param key).bind asBool with
  | none => rfl
  | some value => cases value <;> rfl

theorem matching_approvals (spec : ProtectionSpec) (rule : RuleJson) (matches_ : pullRequestMatches spec rule = true)
    (count : UInt8) (asked : count.toNat ≤ approvalsNeeded spec) (p : ProtectionState) :
    count ≤ (approvalsOf rule).getD p.requiredApprovals ∨ count = 0 := by
  simp only [pullRequestMatches,Bool.and_eq_true,decide_eq_true_eq,flag_on] at matches_
  obtain ⟨⟨⟨⟨_,counted⟩,_⟩,dismissed⟩,lastPush⟩ := matches_
  by_cases some_ : approvalsNeeded spec > 0
  · left
    have both : on rule dismissStaleReviews ∧ on rule lastPushApproval := by
      rw [dismissed,lastPush]
      exact ⟨decide_eq_true some_,decide_eq_true some_⟩
    rw [approvalsOf,if_pos both,Option.getD_some]
    cases read : (rule.param approvingReviewCount).bind asU64 with
    | none =>
      rw [read] at counted
      exact absurd counted.symm (Nat.pos_iff_ne_zero.mp some_)
    | some n =>
      rw [read] at counted
      exact saturated_least n count (asked.trans_eq counted.symm)
  · right
    exact UInt8.toNat.inj (Nat.le_zero.mp (asked.trans (Nat.le_of_not_gt some_)))

theorem drift_empty (spec : ProtectionSpec) (standard : Standard spec) (rs : RulesetJson)
    (defaultBranch : Option Bytes) (actionsId : Option UInt64) (distinct : (rs.rules.map (·.kind)).Nodup)
    (held : holds rs defaultBranch actionsId spec = true) (desired : Projection) (asks : Asks spec desired) :
    Diff.protectionDrift (protectionOf rs defaultBranch actionsId) desired = [] := by
  simp only [holds,satisfies,rulesMatch,Bool.and_eq_true,standard.statusCheck,standard.pullRequest,
    standard.forcePush,standard.deletion,Bool.not_true,Bool.false_or,decide_eq_true_eq] at held
  obtain ⟨⟨⟨⟨⟨⟨⟨⟨present,enforced⟩,covers⟩,unbypassed⟩,check⟩,pull⟩,force⟩,delete⟩,_,matched⟩ := held
  obtain ⟨rule,member,matches_⟩ := List.any_eq_true.mp matched
  have pullRule : rule.kind = pullRequest := by
    simp only [pullRequestMatches,Bool.and_eq_true,decide_eq_true_eq] at matches_
    exact matches_.1.1.1.1
  have other : (protectionOf rs defaultBranch actionsId).otherGaps = [] := (rules_same actionsId rs.rules _).otherGaps
  have gaps : Diff.protectionGaps (protectionOf rs defaultBranch actionsId) (intoBytes spec.requiredCheck) = [] := by
    unfold Diff.protectionGaps
    rw [if_pos present,if_pos enforced,if_pos covers,if_pos pull,if_pos (List.contains_iff_mem.mp check),if_pos force,
      if_pos delete,if_pos (List.isEmpty_iff.mp unbypassed),other]
    rfl
  have enough : Diff.approvalGap (protectionOf rs defaultBranch actionsId) desired.requiredApprovals = [] := by
    refine if_neg fun short => ?_
    have counted : (protectionOf rs defaultBranch actionsId).requiredApprovals = (approvalsOf rule).getD 0 :=
      approvals_exact actionsId rs.rules _ distinct member pullRule
    rw [counted] at short
    rcases matching_approvals spec rule matches_ desired.requiredApprovals asks.approvals {} with least | none_
    · exact absurd short.2 (UInt8.not_lt.mpr least)
    · rw [none_] at short
      exact absurd short.2 (UInt8.not_lt.mpr (UInt8.zero_le))
  unfold Diff.protectionDrift
  rw [asks.check]
  dsimp only
  rw [gaps,enough]
  rfl

theorem roleDrift_unweakened (collaborators : List Governance.Collaborator) (desired : List Governance.RoleAssignment)
    (gaps : List ProtectionGap) : .protectionWeakened gaps ∉ Diff.roleDrift collaborators desired := by
  intro member
  rcases List.mem_append.mp member with wanted | unlisted
  · obtain ⟨want,_,found⟩ := List.mem_flatMap.mp wanted
    unfold Diff.wantedDrift at found
    split at found
    · split at found <;> simp at found
    · split at found
      · simp at found
      · split at found <;> simp at found
  · obtain ⟨c,_,found⟩ := List.mem_flatMap.mp unlisted
    unfold Diff.unlistedDrift at found
    split at found <;> simp at found

theorem defaultDiff_weakened (observed : RepoState) (desired : Projection) (gaps : List ProtectionGap)
    (member : .protectionWeakened gaps ∈ Diff.defaultDiff observed desired) :
    .protectionWeakened gaps ∈ Diff.protectionDrift observed.protection desired := by
  unfold Diff.defaultDiff at member
  split at member
  · simp at member
  · rcases List.mem_append.mp member with earlier | roles
    · rcases List.mem_append.mp earlier with before | weakened
      · rcases List.mem_append.mp before with shown | visibility
        · rcases List.mem_append.mp shown with renamed | archived
          · split at renamed <;> simp at renamed
          · split at archived <;> simp at archived
        · split at visibility <;> simp at visibility
      · exact weakened
    · exact absurd roles (roleDrift_unweakened _ _ gaps)

/-! What is read back of a body -/

-- A rule as it was written: its type, and the parameters if it has any.
inductive Sent : Value → RuleJson → Prop where
  | bare (kind : rule.kind = k) : Sent (ruleBody k) rule
  | given (kind : rule.kind = k) (parameters : rule.parameters = some p) (kept : Kept (.object fields) p) :
      Sent (ruleWith k fields) rule

theorem optional_any (value : Option Value) : ∃ p, optional some value = some p := by
  cases value with
  | none => exact ⟨none,rfl⟩
  | some value => cases value <;> exact ⟨_,rfl⟩

theorem rule_bare (kept : Kept (ruleBody k) other) : ∃ rule, ruleJson other = some rule ∧ Sent (ruleBody k) rule := by
  obtain ⟨kind,typed,text⟩ := kept_member (ascii "type") kept rfl
  rw [kept_string text] at typed
  obtain ⟨p,parameters⟩ := optional_any (other.get (ascii "parameters"))
  refine ⟨⟨k,p⟩,?_,.bare rfl⟩
  unfold ruleJson
  rw [kept_members kept,Option.bind_eq_bind,Option.bind_some,typed,parameters]
  rfl

theorem rule_given (kept : Kept (ruleWith k fields) other) :
    ∃ rule, ruleJson other = some rule ∧ Sent (ruleWith k fields) rule := by
  obtain ⟨kind,typed,text⟩ := kept_member (ascii "type") kept rfl
  rw [kept_string text] at typed
  obtain ⟨p,parameters,same⟩ := kept_member (ascii "parameters") kept rfl
  obtain ⟨more,object⟩ := kept_object same
  refine ⟨⟨k,some p⟩,?_,.given rfl rfl same⟩
  unfold ruleJson
  rw [kept_members kept,Option.bind_eq_bind,Option.bind_some,typed,parameters,object]
  rfl

theorem standard_rules (standard : Standard spec) (integration : UInt64) : rulesBody spec (some integration) =
    [ruleBody deletion,ruleBody nonFastForward,pullRequestBody spec,statusChecksBody spec integration] := by
  simp [rulesBody,standard.statusCheck,standard.pullRequest,standard.forcePush,standard.deletion]

theorem rules_read (standard : Standard spec) (kept : Kept (.array (rulesBody spec (some integration))) value) :
    ∃ rules, readAll ruleJson value = some rules ∧ List.Forall₂ Sent (rulesBody spec (some integration)) rules := by
  obtain ⟨others,same,each⟩ := kept_array kept
  subst same
  refine readAll_kept ruleJson Sent (fun item member other kept => ?_) each
  rw [standard_rules standard] at member
  simp only [List.mem_cons,List.not_mem_nil,or_false] at member
  rcases member with rfl | rfl | rfl | rfl
  · exact rule_bare kept
  · exact rule_bare kept
  · exact rule_given kept
  · exact rule_given kept

structure Given (spec : ProtectionSpec) (integration : UInt64) (rs : RulesetJson) : Prop where
  target : rs.target = some (ascii "branch")
  enforcement : rs.enforcement = ascii "active"
  bypass : bypassTexts rs = []
  included : refs rs (ascii "include") = [ascii "~DEFAULT_BRANCH"]
  excluded : refs rs (ascii "exclude") = []
  rules : List.Forall₂ Sent (rulesBody spec (some integration)) rs.rules

theorem body_read {read : Value} (standard : Standard spec) (back : ReadBack (rulesetBody spec (some integration)) read) :
    ∃ rs, rulesetJson read = some rs ∧ Given spec integration rs := by
  obtain ⟨id,numbered⟩ := back.id
  obtain ⟨mode,asking,never⟩ := back.noBypass
  have kept := back.kept
  obtain ⟨_,target,text⟩ := kept_member (ascii "target") kept rfl
  rw [kept_string text] at target
  obtain ⟨_,enforcement,text⟩ := kept_member (ascii "enforcement") kept rfl
  rw [kept_string text] at enforcement
  obtain ⟨_,bypass,text⟩ := kept_member (ascii "bypass_actors") kept rfl
  obtain ⟨_,same,none_⟩ := kept_array text
  cases none_
  rw [same] at bypass
  obtain ⟨conditions,conditioned,keptConditions⟩ := kept_member (ascii "conditions") kept rfl
  obtain ⟨more,object⟩ := kept_object keptConditions
  obtain ⟨names,named,keptNames⟩ := kept_member (ascii "ref_name") keptConditions rfl
  obtain ⟨_,included,text⟩ := kept_member (ascii "include") keptNames rfl
  obtain ⟨_,same,first⟩ := kept_array text
  cases first with
  | cons first rest =>
    cases rest
    rw [kept_string first] at same
    rw [same] at included
    obtain ⟨_,excluded,text⟩ := kept_member (ascii "exclude") keptNames rfl
    obtain ⟨_,same,none_⟩ := kept_array text
    cases none_
    rw [same] at excluded
    obtain ⟨_,ruled,text⟩ := kept_member (ascii "rules") kept rfl
    obtain ⟨rules,found,sent⟩ := rules_read standard text
    refine ⟨⟨id,some (ascii "branch"),ascii "active",some [],mode,some conditions,rules⟩,?_,rfl,rfl,?_,?_,?_,sent⟩
    · unfold rulesetJson
      rw [kept_members kept,Option.bind_eq_bind,Option.bind_some]
      simp only [required,numbered,target,enforcement,bypass,asking,conditioned,ruled,object,rulesJson,found]
      rfl
    · simp only [bypassTexts,never]
      rfl
    · simp only [refs,named,included,Option.bind_some]
      rfl
    · simp only [refs,named,excluded,Option.bind_some]
      rfl

theorem sent_kind (sent : Sent (ruleBody k) rule) : rule.kind = k := by
  generalize item : ruleBody k = written at sent
  cases sent with
  | bare kind =>
    simp only [ruleBody,Value.object.injEq,List.cons.injEq,Prod.mk.injEq,Value.string.injEq,true_and,and_true] at item
    exact kind.trans item.symm
  | given => simp [ruleBody,ruleWith] at item

theorem sent_given (sent : Sent (ruleWith k fields) rule) :
    rule.kind = k ∧ ∃ p, rule.parameters = some p ∧ Kept (.object fields) p := by
  generalize item : ruleWith k fields = written at sent
  cases sent with
  | bare => simp [ruleBody,ruleWith] at item
  | given kind parameters kept =>
    simp only [ruleWith,Value.object.injEq,List.cons.injEq,Prod.mk.injEq,Value.string.injEq,true_and,and_true] at item
    obtain ⟨kind',fields'⟩ := item
    subst fields'
    exact ⟨kind.trans kind'.symm,_,parameters,kept⟩

theorem param_kept {rule : RuleJson} (key : Bytes) (given : rule.parameters = some p) (kept : Kept (.object fields) p)
    (written : (Value.object fields).get key = some value) : ∃ other, rule.param key = some other ∧ Kept value other := by
  obtain ⟨other,found,same⟩ := kept_member key kept written
  exact ⟨other,by rw [RuleJson.param,given,Option.bind_some,found],same⟩

theorem approvals_small (standard : Standard spec) : approvalsNeeded spec < 2 ^ 64 := by
  have few := standard.approvals
  unfold approvalsNeeded
  split <;> omega

theorem pullRequest_matches (standard : Standard spec) (sent : Sent (pullRequestBody spec) rule) :
    pullRequestMatches spec rule = true := by
  obtain ⟨kind,p,given,kept⟩ := sent_given sent
  obtain ⟨_,count,same⟩ := param_kept approvingReviewCount given kept rfl
  rw [kept_number same] at count
  obtain ⟨_,dismiss,same⟩ := param_kept dismissStaleReviews given kept rfl
  rw [kept_bool same] at dismiss
  obtain ⟨_,owners,same⟩ := param_kept codeOwnerReview given kept rfl
  rw [kept_bool same] at owners
  obtain ⟨_,last,same⟩ := param_kept lastPushApproval given kept rfl
  rw [kept_bool same] at last
  have counted : (rule.param approvingReviewCount).bind asU64 = some (UInt64.ofNat (approvalsNeeded spec)) := by
    rw [count,Option.bind_some]
    exact asU64_natural _ (approvals_small standard)
  have back : (UInt64.ofNat (approvalsNeeded spec)).toNat = approvalsNeeded spec :=
    UInt64.toNat_ofNat_of_lt' (approvals_small standard)
  simp only [pullRequestMatches,flag,kind,counted,dismiss,owners,last,Option.getD_some,back,Option.bind_some,asBool,
    decide_true,Bool.and_self]

theorem checks_pinned (sent : Sent (statusChecksBody spec integration) rule) :
    checksOf (some integration) rule = [intoBytes spec.requiredCheck] := by
  obtain ⟨_,p,given,kept⟩ := sent_given sent
  obtain ⟨_,checks,same⟩ := param_kept requiredStatusChecks given kept rfl
  obtain ⟨_,array,each⟩ := kept_array same
  rw [array] at checks
  cases each with
  | cons first rest =>
    cases rest
    obtain ⟨_,context,same⟩ := kept_member (ascii "context") first rfl
    rw [kept_string same] at context
    obtain ⟨_,pinned,same⟩ := kept_member (ascii "integration_id") first rfl
    rw [kept_number same] at pinned
    have id := asU64_id integration
    simp only [natural] at id
    simp only [checksOf,checks,Option.bind_some,Value.asArray,Option.getD_some,List.filterMap_cons,List.filterMap_nil,
      pinnedCheck,pinned,id,context,Value.asStr,Option.isSome_some,true_and,if_true]

theorem given_holds (standard : Standard spec) (given : Given spec integration rs) (defaultBranch : Option Bytes) :
    holds rs defaultBranch (some integration) spec = true := by
  have sent := given.rules
  rw [standard_rules standard] at sent
  obtain ⟨target,enforcement,bypass,included,excluded,_⟩ := given
  generalize listed : rs.rules = rules at sent
  cases sent with
  | cons first sent => cases sent with
    | cons second sent => cases sent with
      | cons third sent => cases sent with
        | cons fourth sent =>
          cases sent
          have delete := sent_kind first
          have force := sent_kind second
          have pull := (sent_given third).1
          have status := (sent_given fourth).1
          have pinned := checks_pinned fourth
          have matched := pullRequest_matches standard third
          have covers : coversDefault rs defaultBranch = true := by
            simp [coversDefault,target,included,excluded,defaultNames]
          obtain ⟨⟨pf,pd,ps⟩,⟨fd,fs⟩,ds⟩ : (pullRequest ≠ nonFastForward ∧ pullRequest ≠ deletion ∧
              pullRequest ≠ requiredStatusChecks) ∧ (nonFastForward ≠ deletion ∧ nonFastForward ≠ requiredStatusChecks) ∧
              deletion ≠ requiredStatusChecks := by
            simpa [List.nodup_cons] using kinds_distinct
          simp [holds,satisfies,rulesMatch,protectionOf,listed,readRule,delete,force,pull,status,pinned,matched,covers,
            enforcement,bypass,standard.statusCheck,standard.pullRequest,standard.forcePush,standard.deletion,
            ps,fs,ds,pf.symm,pd.symm,ps.symm,fd.symm,fs.symm,ds.symm]

theorem body_satisfies {read : Value} (standard : Standard spec) (back : ReadBack (rulesetBody spec (some integration)) read)
    (defaultBranch : Option Bytes) : rulesetSatisfies read defaultBranch (some integration) spec = some true := by
  obtain ⟨rs,found,given⟩ := body_read standard back
  rw [rulesetSatisfies,found]
  exact congrArg some (given_holds standard given defaultBranch)

/-! A second run -/

-- GitHub after a request: `keep` is what it gives of a body sent under an id.
def answered (keep : UInt64 → Value → Value) (fresh : UInt64) (rulesets : List Stored) : Request → List Stored
  | .put id body => rulesets.map fun r => if r.id = id then { r with document := keep id body } else r
  | .post body => rulesets ++ [⟨fresh,rulesetName,keep fresh body⟩]

-- The document of a ruleset carries the id it is listed under.
def Identified (rulesets : List Stored) : Prop :=
  ∀ r ∈ rulesets, ∀ rs, rulesetJson r.document = some rs → rs.id = r.id

theorem protect_kept (standard : Standard spec) {rulesets : List Stored} {held : Stored}
    (managed : managedRuleset rulesets = some held)
    (back : ReadBack (rulesetBody spec (some integration)) held.document) (defaultBranch : Option Bytes) :
    protectWith spec integration defaultBranch rulesets = some (.unchanged,none) := by
  obtain ⟨rs,found,given⟩ := body_read standard back
  have held_ := given_holds standard given defaultBranch
  unfold protectWith
  simp only [managed,found,standard.statusCheck,if_true,Option.map_some,held_]

theorem managed_put (rulesets : List Stored) (keep : UInt64 → Value → Value) (fresh : UInt64) (body : Value) {held : Stored}
    (managed : managedRuleset rulesets = some held) :
    managedRuleset (answered keep fresh rulesets (.put held.id body)) = some { held with document := keep held.id body } := by
  have same : (fun r : Stored => decide ((if r.id = held.id then { r with document := keep held.id body } else r).name =
      rulesetName)) = fun r => decide (r.name = rulesetName) := by
    funext r
    split <;> rfl
  unfold managedRuleset answered
  rw [List.find?_map,Function.comp_def,same]
  have found : (rulesets.find? fun r => r.name = rulesetName) = some held := managed
  rw [found,Option.map_some,if_pos rfl]

theorem protect_twice (standard : Standard spec) (keep : UInt64 → Value → Value) (fresh : UInt64)
    (keeps : ∀ id, ReadBack (rulesetBody spec (some integration)) (keep id (rulesetBody spec (some integration))))
    (identified : Identified rulesets)
    (ran : protectWith spec integration defaultBranch rulesets = some (outcome,request)) :
    protectWith spec integration defaultBranch (request.elim rulesets (answered keep fresh rulesets)) =
      some (.unchanged,none) := by
  cases managed : managedRuleset rulesets with
  | none =>
    simp only [protectWith,managed,standard.statusCheck,if_true,Option.some.injEq,Prod.mk.injEq] at ran
    obtain ⟨_,posted⟩ := ran
    subst posted
    have none_ : (rulesets.find? fun r => r.name = rulesetName) = none := managed
    have added : managedRuleset (rulesets ++ [⟨fresh,rulesetName,keep fresh (rulesetBody spec (some integration))⟩]) =
        some ⟨fresh,rulesetName,keep fresh (rulesetBody spec (some integration))⟩ := by
      unfold managedRuleset
      rw [List.find?_append,none_,Option.none_or]
      exact List.find?_cons_of_pos (decide_eq_true rfl)
    exact protect_kept standard added (keeps fresh) defaultBranch
  | some held =>
    have before := ran
    simp only [protectWith,managed,standard.statusCheck,if_true,Option.map_eq_some_iff] at ran
    obtain ⟨rs,found,outcome_⟩ := ran
    split at outcome_
    · cases outcome_
      exact before
    · cases outcome_
      have member := List.mem_of_find?_eq_some managed
      rw [identified held member rs found]
      exact protect_kept standard (managed_put rulesets keep fresh _ managed) (keeps held.id) defaultBranch

-- The three readings agree: a body read back satisfies, a second run changes
-- nothing, and a ruleset that satisfies is never reported as weakened.
theorem ruleset_agrees (spec : ProtectionSpec) (standard : Standard spec) :
    (∀ integration defaultBranch read, ReadBack (rulesetBody spec (some integration)) read →
      rulesetSatisfies read defaultBranch (some integration) spec = some true) ∧
    (∀ integration defaultBranch keep fresh rulesets outcome request,
      (∀ id, ReadBack (rulesetBody spec (some integration)) (keep id (rulesetBody spec (some integration)))) →
      Identified rulesets → protectWith spec integration defaultBranch rulesets = some (outcome,request) →
      protectWith spec integration defaultBranch (request.elim rulesets (answered keep fresh rulesets)) =
        some (.unchanged,none)) ∧
    (∀ read defaultBranch actionsId rs, rulesetJson read = some rs → (rs.rules.map (·.kind)).Nodup →
      rulesetSatisfies read defaultBranch actionsId spec = some true →
      ∀ observed desired, observed.protection = protectionOf rs defaultBranch actionsId → Asks spec desired →
        ∀ gaps, .protectionWeakened gaps ∉ Diff.defaultDiff observed desired) := by
  refine ⟨fun integration defaultBranch read back => body_satisfies standard back defaultBranch,?_,?_⟩
  · intro integration defaultBranch keep fresh rulesets outcome request keeps identified ran
    exact protect_twice standard keep fresh keeps identified ran
  · intro read defaultBranch actionsId rs found distinct satisfied observed desired shown asks gaps member
    rw [rulesetSatisfies,found] at satisfied
    have empty := drift_empty spec standard rs defaultBranch actionsId distinct (Option.some.inj satisfied) desired asks
    have weakened := defaultDiff_weakened observed desired gaps member
    rw [shown,empty] at weakened
    exact List.not_mem_nil weakened

namespace Sample

def spec : ProtectionSpec := { requiredCheck := ['c'], requiredApprovals := 2 }

theorem standard : Standard spec := ⟨rfl,rfl,rfl,rfl,by decide⟩

def body : Value := rulesetBody spec (some 15368)

def read (id : UInt64) : Value → Value
  | .object fields => .object ((ascii "id",natural id.toNat) :: fields)
  | other => other

theorem read_back (id : UInt64) : ReadBack body (read id body) :=
  ⟨kept_added _ _ _ rfl,⟨id,asU64_id id⟩,⟨none,rfl,rfl⟩⟩

theorem kinds_read : (rulesetJson (read 1 body)).map (fun rs => rs.rules.map (·.kind)) =
    some [deletion,nonFastForward,pullRequest,requiredStatusChecks] := by decide

def repo : Governance.Resource := Diff.Sample.repo

def desired : Projection := { resource := repo, requiredCheck := some (intoBytes spec.requiredCheck), requiredApprovals := 2 }

theorem ruleset_agrees_two : rulesetSatisfies (read 1 body) none (some 15368) spec = some true ∧
    protectWith spec 15368 none [⟨1,rulesetName,read 1 body⟩] = some (.unchanged,none) ∧
    ∃ rs, rulesetJson (read 1 body) = some rs ∧ ∀ gaps, .protectionWeakened gaps ∉
      Diff.defaultDiff { resource := repo, forgeId := 7, protection := protectionOf rs none (some 15368) } desired := by
  obtain ⟨written,twice,drift⟩ := ruleset_agrees spec standard
  have satisfied := written 15368 none (read 1 body) (read_back 1)
  refine ⟨satisfied,?_,?_⟩
  · exact twice 15368 none read 1 [] .created (some (.post body)) read_back (fun r member => absurd member List.not_mem_nil) rfl
  · obtain ⟨rs,found,_⟩ := Option.map_eq_some_iff.mp satisfied
    have kinds := kinds_read
    rw [found,Option.map_some] at kinds
    refine ⟨rs,found,drift (read 1 body) none (some 15368) rs found ?_ satisfied _ desired rfl ⟨rfl,by decide⟩⟩
    rw [Option.some.inj kinds]
    have distinct := kinds_distinct
    simp only [List.nodup_cons,List.mem_cons,List.not_mem_nil,or_false,not_or] at distinct ⊢
    obtain ⟨⟨pf,pd,ps⟩,⟨fd,fs⟩,ds,_⟩ := distinct
    exact ⟨⟨Ne.symm fd,Ne.symm pd,ds⟩,⟨Ne.symm pf,fs⟩,ps,not_false,List.nodup_nil⟩

end Sample

end VerifiableGit.Ruleset
