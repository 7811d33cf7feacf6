import VerifiableGit.Forge.Json
import VerifiableGit.Governance.Drift
import VerifiableGit.Governance.Records
import VerifiableGit.Workflow.Plan

-- The managed ruleset of a GitHub repository (vgi-forge-github, forge.rs).
namespace VerifiableGit.Ruleset
open Text Json
open Did (Value)
open Governance (StepOutcome ProtectionState Projection RepoState)
open Workflow (ProtectionSpec intoBytes)

structure BypassJson where
  actorId : Option UInt64
  actorType : Bytes
  bypassMode : Option Bytes

structure RuleJson where
  kind : Bytes
  parameters : Option Value

structure RulesetJson where
  id : UInt64
  target : Option Bytes
  enforcement : Bytes
  bypassActors : Option (List BypassJson)
  currentUserCanBypass : Option Bytes
  conditions : Option Value
  rules : List RuleJson

def bypassJson (value : Value) : Option BypassJson := do
  let member ← members [ascii "actor_id",ascii "actor_type",ascii "bypass_mode"] value
  let actorId ← optional asU64 (member (ascii "actor_id"))
  let actorType ← required Value.asStr (member (ascii "actor_type"))
  let bypassMode ← optional Value.asStr (member (ascii "bypass_mode"))
  some ⟨actorId,actorType,bypassMode⟩

def ruleJson (value : Value) : Option RuleJson := do
  let member ← members [ascii "type",ascii "parameters"] value
  let kind ← required Value.asStr (member (ascii "type"))
  let parameters ← optional some (member (ascii "parameters"))
  some ⟨kind,parameters⟩

-- An absent list of rules is an empty one, and `null` is none.
def rulesJson : Option Value → Option (List RuleJson)
  | none => some []
  | some value => readAll ruleJson value

def rulesetMembers : List Bytes :=
  [ascii "id",ascii "target",ascii "enforcement",ascii "bypass_actors",ascii "current_user_can_bypass",
    ascii "conditions",ascii "rules"]

-- `serde_json::from_value`, less the text of its error.
def rulesetJson (value : Value) : Option RulesetJson := do
  let member ← members rulesetMembers value
  let id ← required asU64 (member (ascii "id"))
  let target ← optional Value.asStr (member (ascii "target"))
  let enforcement ← required Value.asStr (member (ascii "enforcement"))
  let bypassActors ← optional (readAll bypassJson) (member (ascii "bypass_actors"))
  let currentUserCanBypass ← optional Value.asStr (member (ascii "current_user_can_bypass"))
  let conditions ← optional some (member (ascii "conditions"))
  let rules ← rulesJson (member (ascii "rules"))
  some ⟨id,target,enforcement,bypassActors,currentUserCanBypass,conditions,rules⟩

def RuleJson.param (rule : RuleJson) (key : Bytes) : Option Value := rule.parameters.bind (·.get key)

def approvingReviewCount : Bytes := ascii "required_approving_review_count"
def dismissStaleReviews : Bytes := ascii "dismiss_stale_reviews_on_push"
def codeOwnerReview : Bytes := ascii "require_code_owner_review"
def lastPushApproval : Bytes := ascii "require_last_push_approval"
def threadResolution : Bytes := ascii "required_review_thread_resolution"
def strictPolicy : Bytes := ascii "strict_required_status_checks_policy"

def pullRequest : Bytes := ascii "pull_request"
def nonFastForward : Bytes := ascii "non_fast_forward"
def deletion : Bytes := ascii "deletion"
def requiredStatusChecks : Bytes := ascii "required_status_checks"

def refs (rs : RulesetJson) (key : Bytes) : List Bytes :=
  (((((rs.conditions.bind (·.get (ascii "ref_name"))).bind (·.get key)).bind Value.asArray).map
    fun items => items.filterMap Value.asStr)).getD []

def defaultNames (defaultBranch : Option Bytes) : List Bytes :=
  [ascii "~DEFAULT_BRANCH",ascii "~ALL"] ++ (defaultBranch.map fun b => ascii "refs/heads/" ++ b).toList

def coversDefault (rs : RulesetJson) (defaultBranch : Option Bytes) : Bool :=
  rs.target.getD (ascii "branch") = ascii "branch" &&
    (refs rs (ascii "include")).any (fun r => r ∈ defaultNames defaultBranch) &&
    (refs rs (ascii "exclude")).isEmpty

-- `u8::try_from(n).unwrap_or(u8::MAX)`
def saturated (n : UInt64) : UInt8 := if n.toNat < 256 then n.toUInt8 else 255

def on (rule : RuleJson) (key : Bytes) : Bool := (rule.param key).bind asBool = some true

-- Approvals count only when a later push dismisses them and none is the last pusher's.
def approvalsOf (rule : RuleJson) : Option UInt8 :=
  if on rule dismissStaleReviews ∧ on rule lastPushApproval then
    some ((((rule.param approvingReviewCount).bind asU64).map saturated).getD 0)
  else none

-- Only a check pinned to `actionsId` counts.
def pinnedCheck (actionsId : Option UInt64) (check : Value) : Option Bytes :=
  if actionsId.isSome ∧ (check.get (ascii "integration_id")).bind asU64 = actionsId then
    (check.get (ascii "context")).bind Value.asStr
  else none

def checksOf (actionsId : Option UInt64) (rule : RuleJson) : List Bytes :=
  (((rule.param requiredStatusChecks).bind Value.asArray).getD []).filterMap (pinnedCheck actionsId)

def readRule (actionsId : Option UInt64) (p : ProtectionState) (rule : RuleJson) : ProtectionState :=
  if rule.kind = pullRequest then
    { p with requiresPullRequest := true, requiredApprovals := (approvalsOf rule).getD p.requiredApprovals }
  else if rule.kind = nonFastForward then { p with blocksForcePush := true }
  else if rule.kind = deletion then { p with blocksDeletion := true }
  else if rule.kind = requiredStatusChecks then { p with requiredChecks := p.requiredChecks ++ checksOf actionsId rule }
  else p

def actorText (a : BypassJson) : Bytes :=
  a.actorType ++ ascii ":" ++ (a.actorId.map fun id => ascii (toString id.toNat)).getD (ascii "-") ++ ascii ":" ++
    a.bypassMode.getD (ascii "always")

def bypassTexts (rs : RulesetJson) : List Bytes :=
  (match rs.bypassActors with
    | some actors => actors.map actorText
    | none => [ascii "<bypass actors not visible to the bridge>"]) ++
  ((rs.currentUserCanBypass.filter (· ≠ ascii "never")).map fun mode => ascii "bridge-app:" ++ mode).toList

def protectionOf (rs : RulesetJson) (defaultBranch : Option Bytes) (actionsId : Option UInt64) : ProtectionState :=
  let p : ProtectionState :=
    { present := true
      enforced := rs.enforcement = ascii "active"
      coversDefaultBranch := coversDefault rs defaultBranch }
  { rs.rules.foldl (readRule actionsId) p with bypassActors := bypassTexts rs }

def approvalsNeeded (spec : ProtectionSpec) : Nat := max spec.requiredApprovals (if spec.requireCodeOwnerReview then 1 else 0)

def rulesetName : Bytes := ascii "VGI commit trust"

def ruleBody (kind : Bytes) : Value := .object [(ascii "type",.string kind)]

def ruleWith (kind : Bytes) (parameters : List (Bytes × Value)) : Value :=
  .object [(ascii "type",.string kind),(ascii "parameters",.object parameters)]

def pullRequestBody (spec : ProtectionSpec) : Value :=
  ruleWith pullRequest
    [(approvingReviewCount,natural (approvalsNeeded spec)),
      (dismissStaleReviews,.bool (approvalsNeeded spec > 0)),
      (codeOwnerReview,.bool spec.requireCodeOwnerReview),
      (lastPushApproval,.bool (approvalsNeeded spec > 0)),
      (threadResolution,.bool false)]

def statusChecksBody (spec : ProtectionSpec) (actionsId : UInt64) : Value :=
  ruleWith requiredStatusChecks
    [(strictPolicy,.bool false),
      (requiredStatusChecks,.array
        [.object [(ascii "context",.string (intoBytes spec.requiredCheck)),(ascii "integration_id",natural actionsId.toNat)]])]

def rulesBody (spec : ProtectionSpec) (actionsId : Option UInt64) : List Value :=
  (if spec.blockDeletion then [ruleBody deletion] else []) ++
  (if spec.blockForcePush then [ruleBody nonFastForward] else []) ++
  (if spec.requirePullRequest then [pullRequestBody spec] else []) ++
  (if spec.requireStatusCheck then (actionsId.map (statusChecksBody spec)).toList else [])

def rulesetBody (spec : ProtectionSpec) (actionsId : Option UInt64) : Value :=
  .object
    [(ascii "name",.string rulesetName),
      (ascii "target",.string (ascii "branch")),
      (ascii "enforcement",.string (ascii "active")),
      (ascii "bypass_actors",.array []),
      (ascii "conditions",.object [(ascii "ref_name",.object
        [(ascii "include",.array [.string (ascii "~DEFAULT_BRANCH")]),(ascii "exclude",.array [])])]),
      (ascii "rules",.array (rulesBody spec actionsId))]

def flag (rule : RuleJson) (key : Bytes) : Bool := ((rule.param key).bind asBool).getD false

def pullRequestMatches (spec : ProtectionSpec) (rule : RuleJson) : Bool :=
  rule.kind = pullRequest &&
  ((((rule.param approvingReviewCount).bind asU64).getD 0).toNat = approvalsNeeded spec : Bool) &&
  flag rule codeOwnerReview = spec.requireCodeOwnerReview &&
  flag rule dismissStaleReviews = decide (approvalsNeeded spec > 0) &&
  flag rule lastPushApproval = decide (approvalsNeeded spec > 0)

def rulesMatch (rs : RulesetJson) (spec : ProtectionSpec) : Bool :=
  rs.rules.any (fun r => r.kind = requiredStatusChecks) = spec.requireStatusCheck &&
  (!spec.requirePullRequest || rs.rules.any (pullRequestMatches spec))

def satisfies (observed : ProtectionState) (spec : ProtectionSpec) : Bool :=
  observed.present && observed.enforced && observed.coversDefaultBranch && observed.bypassActors.isEmpty &&
  (!spec.requireStatusCheck || observed.requiredChecks.contains (intoBytes spec.requiredCheck)) &&
  (!spec.requirePullRequest || observed.requiresPullRequest) &&
  (!spec.blockForcePush || observed.blocksForcePush) &&
  (!spec.blockDeletion || observed.blocksDeletion)

def holds (rs : RulesetJson) (defaultBranch : Option Bytes) (actionsId : Option UInt64) (spec : ProtectionSpec) : Bool :=
  satisfies (protectionOf rs defaultBranch actionsId) spec && rulesMatch rs spec

def rulesetSatisfies (ruleset : Value) (defaultBranch : Option Bytes) (actionsId : Option UInt64) (spec : ProtectionSpec) :
    Option Bool := (rulesetJson ruleset).map fun rs => holds rs defaultBranch actionsId spec

-- A ruleset of the repository: its line in the list, and its own document.
structure Stored where
  id : UInt64
  name : Bytes
  document : Value

inductive Request where
  | put (id : UInt64) (body : Value)
  | post (body : Value)

def managedRuleset (rulesets : List Stored) : Option Stored := rulesets.find? fun r => r.name = rulesetName

-- `integration` is the app the check is pinned to, looked up when the rule carries it.
def protectWith (spec : ProtectionSpec) (integration : UInt64) (defaultBranch : Option Bytes) (rulesets : List Stored) :
    Option (StepOutcome × Option Request) :=
  let actionsId := if spec.requireStatusCheck then some integration else none
  let body := rulesetBody spec actionsId
  match managedRuleset rulesets with
  | some summary => (rulesetJson summary.document).map fun rs =>
    if holds rs defaultBranch actionsId spec then (.unchanged,none) else (.updated,some (.put rs.id body))
  | none => some (.created,some (.post body))

end VerifiableGit.Ruleset
