import VerifiableGit.Governance.Model
import VerifiableGit.Workflow.Render

-- The bootstrap plans of the two adapters (`github_plan`, `forgejo_plan`).
namespace VerifiableGit.Workflow
open Qualified (Str text quoted)
open Governance (MergeMethod)

inductive BootstrapComponent where
  | workflow | keyring | variables | requiredCheck | extra
deriving DecidableEq

structure ProtectionSpec where
  requiredCheck : Str
  requirePullRequest : Bool := true
  blockForcePush : Bool := true
  blockDeletion : Bool := true
  requireStatusCheck : Bool := true
  requireCodeOwnerReview : Bool := false
  requiredApprovals : Nat := 0
  protectedPaths : List Str := []

structure ForgeAccount where
  id : Nat
  login : Str
deriving DecidableEq

inductive StepAction where
  | writeFile (path : Str) (contents : List UInt8) (message : Str)
  | setVariable (name value : Str)
  | protectDefaultBranch (spec : ProtectionSpec)
  | requireNamespaceWorkflow (contents : List UInt8) (check message : Str)
  | requireOwnerReview (paths : List Str) (owners : List ForgeAccount) (communityRules : List UInt8) (message : Str)
  | removeFile (path message : Str)
  | removeVariable (name : Str)
  | configureRepo (mergeMethods : List MergeMethod) (enableCi : Bool)

structure BootstrapStep where
  id : Str
  component : BootstrapComponent
  action : StepAction

-- `String::into_bytes`
def intoBytes (s : Str) : List UInt8 := (String.ofList s).toUTF8.toList

def varRegistry : Str := text "TRUST_REGISTRY_DID"
def varVtc : Str := text "VTC_DID"

def fileStep (id : Str) (component : BootstrapComponent) (path : Str) (contents : List UInt8) (message : Str) : BootstrapStep :=
  ⟨id,component,.writeFile path contents message⟩

def extraStep (file : ExtraFile) : BootstrapStep :=
  fileStep (text "file:" ++ file.path) .extra file.path file.contents (text "chore: add " ++ file.path)

def overwrites (path : Str) : ForgeError :=
  .config (text "extra file " ++ quoted path ++ text " would overwrite a file the bootstrap manages")

namespace GitHub

def codeownersLocations : List Str := [text ".github/CODEOWNERS",text "CODEOWNERS",text "docs/CODEOWNERS"]
def guardedPath : Str := text "/.github/"

inductive CheckGuard where
  | requiredWorkflow
  | ownerReview (owners : List ForgeAccount)
  | soloOwner
  | bridgePosted

def CheckGuard.reviews : CheckGuard → Bool
  | .ownerReview _ => true
  | _ => false

-- The repository holds the workflow.
def CheckGuard.commits : CheckGuard → Bool
  | .ownerReview _ | .soloOwner => true
  | _ => false

def checkKeyringFor (keyring : Option (List UInt8)) (how : CheckGuard) : Result (List UInt8) :=
  match keyring,how with
  | some k,_ => do
    checkKeyring k
    pure k
  | none,.bridgePosted => .ok []
  | none,_ => .error (.config (text ("no platform keyring: GitHub web-UI merges are signed by `web-flow`, and without " ++
      "                 its key in the exempt keyring every merge commit fails the check. Supply it in " ++
      "                 the config (for github.com, the contents of https://github.com/web-flow.gpg)")))

-- The community's files, its `CODEOWNERS` taken out under owner review.
def extraSteps (how : CheckGuard) (community : Option (List UInt8)) :
    List ExtraFile → Result (List BootstrapStep × Option (List UInt8))
  | [] => .ok ([],community)
  | file :: rest => do
    validateRepoPath file.path
    if file.path = workflowPath ∨ file.path = keyringPath then .error (overwrites file.path)
    else if how.reviews ∧ file.path ∈ codeownersLocations then
      if community.isSome then
        .error (.config (text "more than one CODEOWNERS among the extra files; GitHub would use only one"))
      else extraSteps how (some file.contents) rest
    else do
      let more ← extraSteps how community rest
      pure (extraStep file :: more.1,more.2)

def committedSteps (repo : Resource) (cfg : VgiConfig) (checkout : Str) (keyring : List UInt8) : List BootstrapStep := [
  fileStep (text "workflow") .workflow workflowPath (intoBytes (renderWorkflow cfg checkout repo))
    (text "ci: add the VGI commit-trust check"),
  fileStep (text "keyring") .keyring keyringPath keyring
    (text "ci: add the exempt platform keyring for web-flow merges")]

def cleanupVariables : List BootstrapStep := [varRegistry,varVtc].map fun name =>
  ⟨text "cleanup:variable:" ++ name,.variables,.removeVariable name⟩

def rulesetStep (spec : ProtectionSpec) : BootstrapStep := ⟨text "ruleset",.requiredCheck,.protectDefaultBranch spec⟩

def guardSteps (repo : Resource) (cfg : VgiConfig) (checkout : Str) (keyring : List UInt8) (community : Option (List UInt8)) :
    CheckGuard → Result (List BootstrapStep)
  | .requiredWorkflow => do
    checkEmbeddableKeyring keyring
    let contents ← renderRequiredWorkflow cfg checkout repo keyring
    let removed := text "ci: the VGI check now runs as the org's required workflow"
    pure ([⟨text "required-workflow",.workflow,.requireNamespaceWorkflow (intoBytes contents) cfg.requiredCheck
        (text "ci: pin the VGI commit-trust check")⟩,
      rulesetStep { requiredCheck := cfg.requiredCheck, requireStatusCheck := false, requiredApprovals := cfg.requiredApprovals }] ++
      cleanupVariables ++ [
      ⟨text "cleanup:workflow",.extra,.removeFile workflowPath removed⟩,
      ⟨text "cleanup:keyring",.extra,.removeFile keyringPath removed⟩])
  | .ownerReview owners =>
    if owners.length < 2 then
      .error (.config (quoted repo.path ++ text (": owner review needs at least two owners with linked GitHub accounts " ++
        "(one owner is a solo repository, none cannot be planned)")))
    else
      let rules := community.getD []
      if (fromUtf8 rules).isNone then .error (.config (text "community CODEOWNERS is not UTF-8"))
      else pure ([⟨text "codeowners",.workflow,.requireOwnerReview [guardedPath] owners rules
          (text "ci: require an owner's review for workflow changes")⟩,
        rulesetStep { requiredCheck := cfg.requiredCheck, requireCodeOwnerReview := true,
                      requiredApprovals := cfg.requiredApprovals }] ++ cleanupVariables)
  | .soloOwner =>
    pure (rulesetStep { requiredCheck := cfg.requiredCheck, requiredApprovals := cfg.requiredApprovals } :: cleanupVariables)
  | .bridgePosted =>
    pure (rulesetStep { requiredCheck := cfg.requiredCheck, requiredApprovals := cfg.requiredApprovals } ::
      cleanupVariables ++ [⟨text "cleanup:workflow",.extra,
        .removeFile workflowPath (text "ci: the VGI check is now posted by the community's bridge")⟩])

def checkRepository (repo : Resource) : Result Unit :=
  if repo.isNamespace then .error (.wrongResource repo.path (text "a repository, not a namespace")) else .ok ()

def githubPlan (repo : Resource) (cfg : VgiConfig) (checkout : Str) (how : CheckGuard) : Result (List BootstrapStep) := do
  checkRepository repo
  checkDid (text "trust_registry_did") cfg.trustRegistryDid
  checkDid (text "vtc_did") cfg.vtcDid
  checkPinned (text "checkout action") checkout
  checkPinned (text "verify-trust action") cfg.verifyTrustAction
  checkVersion cfg.verifyTrustVersion
  checkCheckName cfg.requiredCheck
  let keyring ← checkKeyringFor cfg.platformKeyring how
  let extra ← extraSteps how none cfg.extraFiles
  let last ← guardSteps repo cfg checkout keyring extra.2 how
  pure ((if how.commits then committedSteps repo cfg checkout keyring else []) ++ extra.1 ++ last)

end GitHub

namespace Forgejo

def protectedPaths : List Str :=
  [text ".forgejo/workflows/**",text ".gitea/workflows/**",text ".github/workflows/**",keyringPath]

def MergePlan.methods : MergePlan → List MergeMethod
  | .fastForwardOnly => [.fastForward]
  | .signingKey _ => [.mergeCommit]

-- `Resource::require_owner_repo`
def requireOwnerRepo (repo : Resource) : Result Unit :=
  match Qualified.normalizeResourceWithDepth repo.path 2 with
  | .error e => .error (.invalidResource e)
  | .ok canonical =>
    let git := text ".git"
    if git.isSuffixOf canonical ∧ canonical.count '/' = 2 then
      .error (.wrongResource canonical (text "a repository name without `.git`: " ++
        quoted (canonical.take (canonical.length - git.length))))
    else if repo.isNamespace then
      .error (.wrongResource repo.path (text "a repository (`<host>/<owner>/<repo>`), not a namespace"))
    else .ok ()

def requiredSha256 (cfg : VgiConfig) : Result Str :=
  match cfg.verifyTrustSha256 with
  | some sha256 => .ok sha256
  | none => .error (.config (text ("no verify_trust_sha256: a Forgejo runner cannot verify the release's build " ++
      "attestation, so the tarball's SHA-256 must be pinned in the workflow (see the " ++
      "runbook's Forgejo Actions runners section for how to take it)")))

def checkMerges : MergePlan → Result Unit
  | .signingKey key => checkKeyring key
  | .fastForwardOnly => .ok ()

def extraSteps : List ExtraFile → Result (List BootstrapStep)
  | [] => .ok []
  | file :: rest => do
    validateRepoPath file.path
    if file.path = workflowPath ∨ file.path = keyringPath then .error (overwrites file.path)
    else do
      let more ← extraSteps rest
      pure (extraStep file :: more)

def keyringSteps : MergePlan → List BootstrapStep
  | .signingKey key => [fileStep (text "keyring") .keyring keyringPath key
      (text "ci: add the instance signing key as the exempt keyring")]
  | .fastForwardOnly => []

def variableSteps (cfg : VgiConfig) (opts : PlanOptions) : List BootstrapStep :=
  if opts.inlineVariables then []
  else [(varRegistry,cfg.trustRegistryDid),(varVtc,cfg.vtcDid)].map fun (name,value) =>
    ⟨text "variable:" ++ name,.variables,.setVariable name value⟩

def forgejoPlan (repo : Resource) (cfg : VgiConfig) (opts : PlanOptions) : Result (List BootstrapStep) := do
  requireOwnerRepo repo
  checkDid (text "trust_registry_did") cfg.trustRegistryDid
  checkDid (text "vtc_did") cfg.vtcDid
  checkFullUrlPin (text "checkout action") opts.checkoutAction
  let action ← resolveAction cfg.verifyTrustAction opts.actionsBase
  checkVersion cfg.verifyTrustVersion
  let sha256 ← requiredSha256 cfg
  checkSha256 sha256
  checkCheckName cfg.requiredCheck
  checkCheckName opts.statusContext
  checkRunsOn opts.runsOn
  checkMerges opts.merges
  let extra ← extraSteps cfg.extraFiles
  pure (⟨text "merge-styles",.keyring,.configureRepo opts.merges.methods true⟩ ::
    fileStep (text "workflow") .workflow workflowPath (intoBytes (renderWorkflow cfg opts repo action sha256))
      (text "ci: add the VGI commit-trust check") ::
    keyringSteps opts.merges ++ extra ++ variableSteps cfg opts ++ [
    ⟨text "protection",.requiredCheck,.protectDefaultBranch
      { requiredCheck := opts.statusContext, protectedPaths := protectedPaths, requiredApprovals := cfg.requiredApprovals }⟩])

end Forgejo

end VerifiableGit.Workflow
