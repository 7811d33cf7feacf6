import VerifiableGit.Forge.Protection
import VerifiableGit.Forge.Ruleset
import VerifiableGit.Workflow.Lines

-- The branch protection rule of a Forgejo repository (vgi-forge-forgejo, forge.rs).
namespace VerifiableGit.BranchRule
open Text (split_free)
open Qualified (Str text lower)
open Workflow (ProtectionSpec intoBytes trim)
open Ruleset (approvalsNeeded)
open Governance (ProtectionGap ProtectionState MergeMethod Projection RepoState)
open Diff (Drift)

abbrev ProtectionJson := Api.ProtectionJson Char

def containsLogin (list : List Str) (login : Str) : Bool := list.any fun l => lower l = lower login

def patterns : Str → List Str := Api.patterns ';' fun p => lower (trim p)

def join (paths : List Str) : Str := [';'].intercalate paths

-- `u8::try_from(n.max(0)).unwrap_or(u8::MAX)`
def saturated (n : Int) : UInt8 := if n.toNat < 256 then n.toNat.toUInt8 else 255

def approvalsOf (rule : ProtectionJson) : UInt8 :=
  if rule.dismissStaleApprovals ≠ some true then 0 else (rule.requiredApprovals.map saturated).getD 0

def adminsBypass : Str := text "repository admins (the rule does not apply to admins)"

def pushActors (rule : ProtectionJson) : List Str :=
  if rule.enablePush then
    if rule.enablePushWhitelist then
      rule.pushWhitelistUsernames.map (text "push:" ++ ·) ++ rule.pushWhitelistTeams.map (text "push-team:" ++ ·) ++
        if rule.pushWhitelistDeployKeys then [text "push:deploy-keys"] else []
    else [text "push: everyone with write access"]
  else []

def ProtectionJson.bypassActors (rule : ProtectionJson) : List Str :=
  (if rule.applyToAdmins ≠ some true then [adminsBypass] else []) ++ pushActors rule ++
  (if patterns rule.unprotectedFilePatterns ≠ [] then
    [text "unprotected-files:" ++ join (patterns rule.unprotectedFilePatterns)] else []) ++
  (if rule.enableMergeWhitelist then [] else [text "merge: everyone with write access"]) ++
  rule.mergeWhitelistTeams.map (text "merge-team:" ++ ·)

def satisfiesProtection (rule : ProtectionJson) (spec : ProtectionSpec) : Bool :=
  (!spec.requirePullRequest || !rule.enablePush) &&
  rule.enableStatusCheck &&
  rule.statusCheckContexts.contains spec.requiredCheck &&
  rule.enableMergeWhitelist &&
  rule.mergeWhitelistTeams.isEmpty &&
  (patterns rule.unprotectedFilePatterns).isEmpty &&
  rule.applyToAdmins ≠ some false &&
  rule.enableForcePush ≠ some true &&
  decide (approvalsNeeded spec ≤ (approvalsOf rule).toNat) &&
  spec.protectedPaths.all fun p => (patterns rule.protectedFilePatterns).contains (lower p)

-- The approvals of a request, sent only when the spec asks for some.
structure ApprovalsRequest where
  requiredApprovals : Nat
  enableApprovalsWhitelist : Bool
  dismissStaleApprovals : Bool

structure ProtectionRequest where
  enablePush : Bool
  enablePushWhitelist : Bool
  pushWhitelistUsernames : List Str
  pushWhitelistTeams : List Str
  pushWhitelistDeployKeys : Bool
  enableMergeWhitelist : Bool
  mergeWhitelistUsernames : List Str
  mergeWhitelistTeams : List Str
  enableStatusCheck : Bool
  statusCheckContexts : List Str
  protectedFilePatterns : Str
  unprotectedFilePatterns : Str
  applyToAdmins : Bool
  approvals : Option ApprovalsRequest

def mergeAllowed (existing : Option ProtectionJson) (admins : List Str) : List Str :=
  let allow := ((existing.filter (·.enableMergeWhitelist)).map (·.mergeWhitelistUsernames)).getD []
  admins.foldl (fun allow login => if containsLogin allow login then allow else allow ++ [login]) allow

def requestedContexts (existing : Option ProtectionJson) (spec : ProtectionSpec) : List Str :=
  let contexts := (existing.map (·.statusCheckContexts)).getD []
  if contexts.contains spec.requiredCheck then contexts else contexts ++ [spec.requiredCheck]

def addPath (paths : List Str) (p : Str) : List Str := if paths.contains (lower p) then paths else paths ++ [lower p]

def requestedPaths (existing : Option ProtectionJson) (spec : ProtectionSpec) : List Str :=
  spec.protectedPaths.foldl addPath ((existing.map fun r => patterns r.protectedFilePatterns).getD [])

def protectionRequest (existing : Option ProtectionJson) (admins : List Str) (spec : ProtectionSpec) : ProtectionRequest where
  enablePush := !spec.requirePullRequest
  enablePushWhitelist := false
  pushWhitelistUsernames := []
  pushWhitelistTeams := []
  pushWhitelistDeployKeys := false
  enableMergeWhitelist := true
  mergeWhitelistUsernames := mergeAllowed existing admins
  mergeWhitelistTeams := []
  enableStatusCheck := true
  statusCheckContexts := requestedContexts existing spec
  protectedFilePatterns := join (requestedPaths existing spec)
  unprotectedFilePatterns := []
  applyToAdmins := true
  approvals := if approvalsNeeded spec > 0 then some ⟨approvalsNeeded spec,false,true⟩ else none

-- What a `PATCH` leaves of a rule: its fields replace the rule's, the others stay.
def ProtectionJson.patched (rule : ProtectionJson) (body : ProtectionRequest) : ProtectionJson where
  ruleName := rule.ruleName
  branchName := rule.branchName
  enablePush := body.enablePush
  enablePushWhitelist := body.enablePushWhitelist
  pushWhitelistUsernames := body.pushWhitelistUsernames
  pushWhitelistTeams := body.pushWhitelistTeams
  pushWhitelistDeployKeys := body.pushWhitelistDeployKeys
  enableMergeWhitelist := body.enableMergeWhitelist
  mergeWhitelistUsernames := body.mergeWhitelistUsernames
  mergeWhitelistTeams := body.mergeWhitelistTeams
  enableStatusCheck := body.enableStatusCheck
  statusCheckContexts := body.statusCheckContexts
  protectedFilePatterns := body.protectedFilePatterns
  unprotectedFilePatterns := body.unprotectedFilePatterns
  applyToAdmins := some body.applyToAdmins
  enableForcePush := rule.enableForcePush
  requiredApprovals := (body.approvals.map fun a => (a.requiredApprovals : Int)).or rule.requiredApprovals
  dismissStaleApprovals := (body.approvals.map (·.dismissStaleApprovals)).or rule.dismissStaleApprovals

inductive Outcome where
  | unchanged | updated | created
  -- The names of the rules that may apply in the managed one's place.
  | shadowed (names : List Str)
  | notReadBack

-- `protect`, from the rules found on; `answer` is the rule Forgejo returns for a request.
def protect (spec : ProtectionSpec) (admins : List Str) (existing : Option ProtectionJson) (shadowing : List Str)
    (answer : ProtectionRequest → ProtectionJson) : Outcome × Option ProtectionRequest :=
  if shadowing ≠ [] then (.shadowed shadowing,none)
  else if existing.any (satisfiesProtection · spec) then (.unchanged,none)
  else
    let body := protectionRequest existing admins spec
    let done := if existing.isSome then .updated else .created
    (if satisfiesProtection (answer body) spec then done else .notReadBack,some body)

/-! The drift report -/

-- The settings of the repository itself.
structure RepoSettings where
  mergeMethods : List MergeMethod
  hasActions : Option Bool

structure Observed where
  state : ProtectionState := {}
  mergeMethods : Option (List MergeMethod)
  ciEnabled : Option Bool
  protectedPaths : List Str := []

def protectionState (rule : Option ProtectionJson) (shadowing : List Str) (repo : RepoSettings) : Observed :=
  match rule with
  | none => { mergeMethods := some repo.mergeMethods, ciEnabled := repo.hasActions }
  | some rule =>
    { mergeMethods := some repo.mergeMethods
      ciEnabled := repo.hasActions
      protectedPaths := patterns rule.protectedFilePatterns
      state :=
        { present := true
          enforced := true
          coversDefaultBranch := shadowing.isEmpty
          requiresPullRequest := !rule.enablePush
          requiredChecks := if rule.enableStatusCheck then rule.statusCheckContexts.map intoBytes else []
          blocksForcePush := rule.enableForcePush ≠ some true
          blocksDeletion := true
          requiredApprovals := approvalsOf rule
          bypassActors := (rule.bypassActors ++ shadowing.map (text "shadowing-rule:" ++ ·)).map intoBytes } }

def pathGaps (o : Observed) : List ProtectionGap :=
  let missing := Workflow.Forgejo.protectedPaths.filter fun want => !o.protectedPaths.any (· = want)
  if o.state.present ∧ missing ≠ [] then [.unprotectedPaths (missing.map intoBytes)] else []

def settingGaps (allowed : List MergeMethod) (o : Observed) : List ProtectionGap :=
  ((o.mergeMethods.getD []).filter fun m => m ∉ allowed).map .mergeMethodAllowed ++
    if o.ciEnabled = some false then [.ciDisabled] else []

def forgejoGaps (allowed : List MergeMethod) (o : Observed) : List ProtectionGap := pathGaps o ++ settingGaps allowed o

def isUnprotectedPaths : ProtectionGap → Bool
  | .unprotectedPaths _ => true
  | _ => false

-- `extra` joins the gaps of the first weakening, or makes one.
def extend (extra : List ProtectionGap) : List Drift → List Drift
  | [] => [.protectionWeakened extra]
  | .protectionWeakened gaps :: rest =>
    .protectionWeakened (gaps ++ if .missing ∈ gaps then extra.filter (!isUnprotectedPaths ·) else extra) :: rest
  | d :: rest => d :: extend extra rest

def isReplaced : Drift → Bool
  | .replaced _ _ => true
  | _ => false

-- `check` names the status context of a check.
def diff (check : Str → Str) (allowed : List MergeMethod) (repo : RepoState) (o : Observed) (desired : Projection)
    (required : Option Str) : List Drift :=
  let observed := { repo with protection := o.state }
  let drift := Diff.defaultDiff observed { desired with requiredCheck := required.map fun c => intoBytes (check c) }
  if required = none ∨ drift.any isReplaced then drift
  else if forgejoGaps allowed o = [] then drift
  else extend (forgejoGaps allowed o) drift

end VerifiableGit.BranchRule
