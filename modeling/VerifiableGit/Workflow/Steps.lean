import VerifiableGit.Forge.OwnerRules
import VerifiableGit.Forge.Refresh
import VerifiableGit.Forge.Ruleset

-- The steps of a bootstrap as they run against a GitHub repository
-- (vgi-forge-github, forge.rs and forge/guard.rs), and the job that runs a plan
-- of them (vgi-bridge, jobs.rs and mapping.rs).
namespace VerifiableGit.Bootstrap
open Text Library.Interaction
open Qualified (Str text)
open Governance (ForgeError StepOutcome StepStatus)
open Workflow (StepAction BootstrapStep BootstrapComponent ProtectionSpec ForgeAccount intoBytes)
open Forge (Entry)

instance lawfulStr : LawfulBEq Str := inferInstance

inductive Failure where
  | forge (e : ForgeError)
  | plan (e : Workflow.ForgeError)
  | unsupported (step : StepAction) (hint : Bytes)
  | capabilityChanged (capability : Bytes) (available : Bool) (reason : Bytes)
  | other (code message : Bytes)

inductive Permissions where
  | metadata | contents | variables | admin
deriving DecidableEq

inductive Query where
  | plan
  | token (perms : Permissions)
  | content (path : Str)
  | putContent (path : Str) (sha : Option Bytes) (contents : Bytes) (message : Str)
  | deleteContent (path : Str) (sha : Bytes) (message : Str)
  | getVariable (name : Str)
  | patchVariable (name value : Str)
  | postVariable (name value : Str)
  | deleteVariable (name : Str)
  | actionsApp
  | repository
  | rulesets
  | ruleset (id : UInt64)
  | writeRuleset (request : Ruleset.Request)
  | user (id : Nat)
  | namespaceWorkflow (contents : Bytes) (check message : Str)
  | capabilityChanged (capability : Bytes) (available : Bool)

abbrev Query.Answer : Query → Type
  | .plan => Workflow.Result (List BootstrapStep)
  | .token _ => Except ForgeError Unit
  | .content _ => Except ForgeError (Option Entry)
  | .putContent _ _ _ _ | .deleteContent _ _ _ => Except ForgeError Unit
  | .getVariable _ => Except ForgeError (Option Str)
  | .patchVariable _ _ | .postVariable _ _ | .deleteVariable _ => Except ForgeError Unit
  | .actionsApp => Except ForgeError UInt64
  | .repository => Except ForgeError (Option Bytes)
  | .rulesets => Except ForgeError (List (UInt64 × Bytes))
  | .ruleset _ => Except ForgeError (Option Ruleset.RulesetJson)
  | .writeRuleset _ => Except ForgeError Unit
  | .user _ => Except ForgeError (Nat × Str)
  | .namespaceWorkflow _ _ _ => Except Failure StepOutcome
  | .capabilityChanged _ _ => Unit

abbrev Code := Prog Query Query.Answer
abbrev Step (α : Type) := ExceptT Failure Code α

def said (e : Except ForgeError α) : Except Failure α := e.mapError .forge

def token (perms : Permissions) : Step Unit := ExceptT.mk do
  let answer : Except ForgeError Unit ← ask (Query.token perms)
  pure (said answer)

def content (path : Str) : Step (Option Entry) := ExceptT.mk do
  let answer : Except ForgeError (Option Entry) ← ask (Query.content path)
  pure (said answer)

def settled (r : Except Failure α) : Step α := ExceptT.mk (pure r)

def checkPath (path : Str) : Step Unit := settled ((Workflow.validateRepoPath path).mapError .plan)

def dash : Bytes := [32,0xE2,0x80,0x94,32]

-- A refusal, with what a protected branch has to do with it.
def hinted (hint : Bytes) : ForgeError → ForgeError
  | .rejected status message => .rejected status (message ++ dash ++ hint)
  | e => e

def writeHint : Bytes := ascii ("if the default branch is already protected, this file can " ++
  "only change through a pull request (the ruleset has no bypass actors, " ++ "by design)")

def removeHint : Bytes := ascii ("the default branch is protected, so this clean-up has to " ++ "land through a pull request")

def notAFile (path : Str) (kind : Bytes) : Failure :=
  .forge (.rejected 409 (ascii "`" ++ intoBytes path ++ ascii "` exists and is a " ++ kind ++ ascii ", not a file"))

def putContent (path : Str) (sha : Option Bytes) (contents : Bytes) (message : Str) : Step Unit := ExceptT.mk do
  let answer : Except ForgeError Unit ← ask (Query.putContent path sha contents message)
  pure (said (answer.mapError (hinted writeHint)))

def writeFileWith (path : Str) (contents : Bytes) (message : Str) : Step StepOutcome := do
  checkPath path
  let existing ← content path
  match existing with
  | some .directory => throw (notAFile path (ascii "directory"))
  | some (.other kind) => throw (notAFile path kind)
  | some (.file sha held) => do
    let held ← settled (said held)
    if held = contents then pure .unchanged
    else do
      putContent path (some sha) contents message
      pure .updated
  | none => do
    putContent path none contents message
    pure .created

def writeFile (path : Str) (contents : Bytes) (message : Str) : Step StepOutcome := do
  checkPath path
  token .contents
  writeFileWith path contents message

def checkVariableName (name : Str) : Except Failure Unit :=
  if name.isEmpty || !name.all fun c => c.isUpper || c.isDigit || c = '_' then
    .error (.forge (.config (ascii "variable name `" ++ intoBytes name ++ ascii "` must be [A-Z0-9_]")))
  else .ok ()

def getVariable (name : Str) : Step (Option Str) := ExceptT.mk do
  let answer : Except ForgeError (Option Str) ← ask (Query.getVariable name)
  pure (said answer)

def patchVariable (name value : Str) : Step Unit := ExceptT.mk do
  let answer : Except ForgeError Unit ← ask (Query.patchVariable name value)
  pure (said answer)

def postVariable (name value : Str) : Step Unit := ExceptT.mk do
  let answer : Except ForgeError Unit ← ask (Query.postVariable name value)
  pure (said answer)

def deleteVariable (name : Str) : Step Unit := ExceptT.mk do
  let answer : Except ForgeError Unit ← ask (Query.deleteVariable name)
  pure (said answer)

def setVariable (name value : Str) : Step StepOutcome := do
  settled (checkVariableName name)
  token .variables
  let existing ← getVariable name
  match existing with
  | some held =>
    if held = value then pure .unchanged
    else do
      patchVariable name value
      pure .updated
  | none => do
    postVariable name value
    pure .created

def removeVariable (name : Str) : Step StepOutcome := do
  settled (checkVariableName name)
  token .variables
  let existing ← getVariable name
  if existing.isNone then pure .unchanged
  else do
    deleteVariable name
    pure .updated

-- `check` is the app a check is pinned to where the bridge posts it itself;
-- `unread` is what serde says of a directory's listing read as a file.
structure Adapter where
  appId : UInt64
  bridgePosted : Bool
  unread : Bytes

section
variable (adapter : Adapter)

def checkIntegrationId : Step UInt64 := ExceptT.mk do
  if adapter.bridgePosted then pure (.ok adapter.appId)
  else do
    let answer : Except ForgeError UInt64 ← ask Query.actionsApp
    pure (said answer)

def defaultBranch : Step (Option Bytes) := ExceptT.mk do
  let answer : Except ForgeError (Option Bytes) ← ask Query.repository
  pure (said answer)

def listRulesets : Step (List (UInt64 × Bytes)) := ExceptT.mk do
  let answer : Except ForgeError (List (UInt64 × Bytes)) ← ask Query.rulesets
  pure (said answer)

def getRuleset (id : UInt64) : Step (Option Ruleset.RulesetJson) := ExceptT.mk do
  let answer : Except ForgeError (Option Ruleset.RulesetJson) ← ask (Query.ruleset id)
  pure (said answer)

def writeRuleset (request : Ruleset.Request) : Step Unit := ExceptT.mk do
  let answer : Except ForgeError Unit ← ask (Query.writeRuleset request)
  pure (said answer)

def managedRuleset : Step (Option Ruleset.RulesetJson) := do
  let listed ← listRulesets
  match listed.find? fun r => r.2 = Ruleset.rulesetName with
  | none => pure none
  | some summary => getRuleset summary.1

-- Looked up only where the rule carries the check.
def requiredApp (spec : ProtectionSpec) : Step (Option UInt64) :=
  if spec.requireStatusCheck then do
    let app ← checkIntegrationId adapter
    pure (some app)
  else pure none

def protectWith (spec : ProtectionSpec) : Step StepOutcome := do
  let actionsId ← requiredApp adapter spec
  let branch ← defaultBranch
  let managed ← managedRuleset
  match managed with
  | some rs =>
    if Ruleset.holds rs branch actionsId spec then pure .unchanged
    else do
      writeRuleset (.put rs.id (Ruleset.rulesetBody spec actionsId))
      pure .updated
  | none => do
    writeRuleset (.post (Ruleset.rulesetBody spec actionsId))
    pure .created

def protect (spec : ProtectionSpec) : Step StepOutcome := do
  token .admin
  protectWith adapter spec

-- The contents and the blob of a file, on the default branch.
def fileAt (path : Str) : Step (Option (Bytes × Bytes)) := do
  let existing ← content path
  match existing with
  | none => pure none
  | some .directory =>
    throw (.forge (.protocol (intoBytes path ++ ascii ": not a file (" ++ adapter.unread ++ ascii ")")))
  | some (.other kind) => throw (notAFile path kind)
  | some (.file sha held) => do
    let held ← settled (said held)
    pure (some (held,sha))

def deleteContent (path : Str) (sha : Bytes) (message : Str) : Step Unit := ExceptT.mk do
  let answer : Except ForgeError Unit ← ask (Query.deleteContent path sha message)
  pure (said (answer.mapError (hinted removeHint)))

def removeFile (path message : Str) : Step StepOutcome := do
  checkPath path
  token .contents
  let existing ← fileAt adapter path
  match existing with
  | none => pure .unchanged
  | some (_,sha) => do
    deleteContent path sha message
    pure .updated

-- The first of the locations that exists, with its text.
def findCodeowners : List Str → Step (Option (Str × Str))
  | [] => pure none
  | path :: rest => do
    let existing ← fileAt adapter path
    match existing with
    | none => findCodeowners rest
    | some (bytes,_) =>
      match Workflow.fromUtf8 bytes with
      | some s => pure (some (path,s))
      | none => throw (.forge (.protocol (ascii "`" ++ intoBytes path ++ ascii "` is not UTF-8")))

def loginFor (account : Nat) : Step Str := ExceptT.mk do
  let answer : Except ForgeError (Nat × Str) ← ask (Query.user account)
  match answer with
  | .error e => pure (.error (.forge e))
  | .ok user =>
    if user.1 = account then pure (.ok user.2)
    else pure (.error (.forge (.protocol (ascii "asked for user " ++ ascii (toString account) ++
      ascii ", GitHub answered with " ++ ascii (toString user.1)))))

-- The owners' logins as they are now, each once.
def loginsFor : List Str → List ForgeAccount → Step (List Str)
  | logins,[] => pure logins
  | logins,owner :: rest => do
    let login ← loginFor owner.id
    loginsFor (if login ∈ logins then logins else logins ++ [login]) rest

def slashless (path : Str) : Str := (path.dropWhile (· = '/')).rdropWhile (· = '/')

def checkPaths : List Str → Step Unit
  | [] => pure ()
  | path :: rest => do
    checkPath (slashless path)
    checkPaths rest

def codeownersPath : Str := text ".github/CODEOWNERS"

-- Written anywhere but in `.github/`, the file guards itself as well.
def guardedWith (paths : List Str) (target : Str) : List Str :=
  if (text ".github/").isPrefixOf target then paths else paths ++ ['/' :: target]

def plannedRules (communityRules : Bytes) : Except Failure Str :=
  match Workflow.fromUtf8 communityRules with
  | some planned => .ok planned
  | none => .error (.forge (.config (ascii "community CODEOWNERS is not UTF-8")))

def requireOwnerReview (paths : List Str) (owners : List ForgeAccount) (communityRules : Bytes) (message : Str) :
    Step StepOutcome := do
  if owners.length < 2 then
    throw (.forge (.config (ascii "owner review needs at least two owners (one owner is a solo repository)")))
  else do
    checkPaths paths
    let planned ← settled (plannedRules communityRules)
    token .metadata
    let logins ← loginsFor [] owners
    token .contents
    let found ← findCodeowners adapter Workflow.GitHub.codeownersLocations
    let (target,community) := found.getD (codeownersPath,planned)
    let contents := OwnerRules.renderCodeowners community (guardedWith paths target) logins
    writeFileWith target (intoBytes contents) message

def requireNamespaceWorkflow (contents : Bytes) (check message : Str) : Step StepOutcome := ExceptT.mk do
  let answer : Except Failure StepOutcome ← ask (Query.namespaceWorkflow contents check message)
  pure answer

def runStep : StepAction → Step StepOutcome
  | .writeFile path contents message => writeFile path contents message
  | .setVariable name value => setVariable name value
  | .protectDefaultBranch spec => protect adapter spec
  | .requireNamespaceWorkflow contents check message => requireNamespaceWorkflow contents check message
  | .requireOwnerReview paths owners communityRules message => requireOwnerReview adapter paths owners communityRules message
  | .removeFile path message => removeFile adapter path message
  | .removeVariable name => removeVariable name
  | .configureRepo methods enableCi => throw (.unsupported (.configureRepo methods enableCi)
      (ascii "this GitHub adapter does not know that step"))

end

/-! The job's report, and its plan step by step -/

def statusOf : StepOutcome → StepStatus
  | .unchanged => .unchanged
  | _ => .applied

def camelNext (out : Str) (upper : Bool) (c : Char) : Str × Bool :=
  if c.isAlphanum then
    if out.isEmpty then (if c.isAlpha then [c.toLower] else [],false)
    else (out ++ [if upper then c.toUpper else c],false)
  else (out,true)

def camel (s : Str) : Str :=
  let out := (s.foldl (fun state c => camelNext state.1 state.2 c) ([],false)).1
  if out.isEmpty then text "step" else out

def stepName (id : Str) : BootstrapComponent → Str
  | .workflow => text "workflow"
  | .keyring => text "keyring"
  | .variables => text "variables"
  | .requiredCheck => text "requiredCheck"
  | .extra => camel ((id.splitOn ':').headD id)

def BootstrapStep.name (step : BootstrapStep) : Str := stepName step.id step.component

abbrev Line := Governance.StepLine Str Failure

abbrev Report := Governance.StepReport Str Failure Failure

def skip (r : Report) : List BootstrapStep → Report
  | [] => r
  | step :: rest => skip (r.step (BootstrapStep.name step) .skipped none) rest

-- How the steps of one plan end.
inductive Ended where
  | done | failed | replan
deriving DecidableEq

def runSteps (adapter : Adapter) (attempt : Nat) : Report → List BootstrapStep → Code (Ended × Report)
  | report,[] => pure (.done,report)
  | report,step :: rest => do
    let result ← (runStep adapter step.action).run
    match result with
    | .ok outcome => runSteps adapter attempt (report.step (BootstrapStep.name step) (statusOf outcome) none) rest
    | .error (.capabilityChanged capability available reason) =>
      if attempt = 0 then do
        ask (Query.capabilityChanged capability available)
        pure (.replan,report)
      else
        let failure := Failure.capabilityChanged capability available reason
        pure (.failed,skip ((report.step (BootstrapStep.name step) .failed (some failure)).failed failure) rest)
    | .error failure =>
      pure (.failed,skip ((report.step (BootstrapStep.name step) .failed (some failure)).failed failure) rest)

def chosen (only : Option (List Str)) (steps : List BootstrapStep) : List BootstrapStep :=
  steps.filter fun step => only.all fun names => BootstrapStep.name step ∈ names

-- One of the attempts of `run_bootstrap`; `before` lines were reported when it began.
def runAttempt (adapter : Adapter) (only : Option (List Str)) (before attempt : Nat) (report : Report) : Code (Ended × Report) := do
  let planned : Workflow.Result (List BootstrapStep) ← ask Query.plan
  match planned with
  | .error e => pure (.failed,report.failed (.plan e))
  | .ok plan => do
    let (ended,report) ← runSteps adapter attempt report (chosen only plan)
    pure (ended,if ended = .replan then { report with steps := report.steps.take before } else report)

def unconfigured : Failure := .other (ascii "forgeError") (ascii "no bootstrap configuration for this forge")

def restless : Failure := .other (ascii "forgeError") (ascii "the adapter kept changing its capabilities")

def runBootstrap (adapter : Adapter) (configured : Bool) (only : Option (List Str)) (report : Report) : Code (Bool × Report) :=
  if configured then do
    let before := report.steps.length
    let (first,report) ← runAttempt adapter only before 0 report
    match first with
    | .done => pure (true,report)
    | .failed => pure (false,report)
    | .replan => do
      let (second,report) ← runAttempt adapter only before 1 report
      match second with
      | .done => pure (true,report)
      | .failed => pure (false,report)
      | .replan => pure (false,report.failed restless)
  else pure (false,report.failed unconfigured)

end VerifiableGit.Bootstrap
