import VerifiableGit.Guard.Requests

-- The adapter's steps that change what it manages (vgi-forge-github, forge.rs and
-- forge/guard.rs), and the jobs that run them (jobs.rs, flows.rs).
namespace VerifiableGit.Guard
open Text Library Library.Interaction
open Governance (Resource Namespace Pin NamespaceRecord RepoRecord RepoKey ForgeAccount RoleAssignment ForgeError StepOutcome StepStatus Report)
open Governance.NamespaceRecord (takeOver)

-- A call that may fail.
abbrev Method (α : Type) := ExceptT Failure Code α

def send (request : Request) : Method request.Value :=
  ExceptT.mk do
    let answer : Except ForgeError request.Value ← ask (Query.forge request)
    pure (answer.mapError .forge)

def run (q : Query) : Method q.Answer := ExceptT.mk do
  let answer : q.Answer ← ask q
  pure (.ok answer)

-- The commit the ruleset pins, as long as its workflow is the wanted one.
def keptCommit (existing : Option OrgRuleset) (central : Nat) (contents : Bytes) : Method (Option Bytes) :=
  match existing.bind (·.pinnedSha central) with
  | none => pure none
  | some sha => do
    let file : Option (Bytes × Bytes) ← send (.fileAt sha)
    pure (if file.any (·.1 = contents) then some sha else none)

-- A commit that holds the workflow, and whether it was written for that.
def placedCommit (branch contents message : Bytes) : Method (Bytes × Bool) := do
  let head : Bytes ← send (.headCommit branch)
  let file : Option (Bytes × Bytes) ← send (.fileAt head)
  if file.any (·.1 = contents) then pure (head,false)
  else do
    let sha : Bytes ← send (.putWorkflow branch (file.map (·.2)) contents message)
    pure (sha,true)

def commitFor (branch contents message : Bytes) : Option Bytes → Method (Bytes × Bool)
  | some sha => pure (sha,false)
  | none => placedCommit branch contents message

def isSha (text : Bytes) : Bool :=
  text.length = 40 && text.all fun b => (48 ≤ b && b ≤ 57) || (97 ≤ b && b ≤ 102) || (65 ≤ b && b ≤ 70)

def inPlace (existing : Option OrgRuleset) (central : Nat) (sha : Bytes) (target : Nat) (ids : Finset Nat) : Bool :=
  existing.any fun rs => (rs.gaps central sha target).isEmpty && rs.byRepositoryId &&
    rs.coveredRepositoryIds = ids.sort (· ≤ ·)

def rulesetLost : Failure := .forge (.unavailable (ascii
  "the org ruleset changed while the bridge was writing it (a concurrent edit?); run the step again"))

-- Writes the ruleset for `ids` and reads it back.
def coverRepositories (ns : Resource) (existing : Option OrgRuleset) (central : Nat) (sha branch : Bytes) (target : Nat)
    (ids : Finset Nat) : Method StepOutcome := do
  let written : Except Refusal Nat ← send (.writeRuleset (existing.map (·.id)) central sha branch ids)
  match written with
  | .error refusal => do
    run (.setRequiredWorkflow ns false)
    throw (.capabilityChanged ns.asStr (ascii "requiredWorkflow") false
      (ascii "GitHub refused the org ruleset's workflows rule (" ++ refusal.message ++
        ascii "); the namespace falls back to owner review"))
  | .ok id => do
    let after : Option OrgRuleset ← send (.rulesetById id)
    match after with
    | none => throw (.forge (.unavailable (ascii "the org ruleset vanished right after writing")))
    | some rs =>
      if target ∈ rs.coveredRepositoryIds ∧ rs.pinnedSha central = some sha then
        pure (if existing.isSome then .updated else .created)
      else throw rulesetLost

-- The workflow of the guard, and the check it posts.
structure RequiredWorkflow where
  contents : Bytes
  check : Bytes
  message : Bytes

-- The ruleset as it is, where it is as wanted.
def coverAsNeeded (ns : Resource) (existing : Option OrgRuleset) (central : Nat) (sha branch : Bytes) (target : Nat)
    (ids : Finset Nat) (changed : Bool) : Method StepOutcome :=
  if inPlace existing central sha target ids then pure (if changed then .updated else .unchanged)
  else coverRepositories ns existing central sha branch target ids

-- Pins the workflow and covers the managed repositories and `target`.
def pinAndCover (ns : Resource) (target : Nat) (managed : Finset Nat) (wanted : RequiredWorkflow) : Method StepOutcome := do
  let central : CentralRepo ← send .central
  send .token
  let existing : Option OrgRuleset ← send .orgRuleset
  let branch := central.defaultBranch.getD (ascii "main")
  let kept ← keptCommit existing central.id wanted.contents
  let (sha,wrote) ← commitFor branch wanted.contents wanted.message kept
  if isSha sha then do
    send .token
    let protected_ : StepOutcome ← send .protectCentral
    let outcome ← coverAsNeeded ns existing central.id sha branch target (insert target managed)
      (wrote || protected_ ≠ .unchanged)
    run (.addManaged ns target)
    run (.setPin ns ⟨central.id,sha,wanted.check⟩)
    pure outcome
  else throw (.forge (.protocol (ascii "`" ++ sha ++ ascii "` is not a commit sha")))

def managedUnknown (ns : Resource) : Failure := .forge (.config (ascii "the managed repositories of `" ++ ns.asStr ++
  ascii ("` are not known; call GitHubForge::set_managed_repositories from the bridge's store first " ++
    "(the org ruleset lists exactly them)")))

def notOrganisation : Failure := .unsupported (ascii "namespace required workflow")
  (ascii "only organisations have org rulesets; this namespace uses owner review")

-- `require_namespace_workflow`, given what the adapter holds for the namespace.
def requireFor (ns repo : Resource) (wanted : RequiredWorkflow) (m : Memory) : Method StepOutcome :=
  match m.registered,m.managed with
  | none,_ => throw (.notBound ns.asStr)
  | some registered,managed =>
    if registered.organization then
      match managed with
      | none => throw (managedUnknown ns)
      | some managed => do
        send .token
        let found : Nat × Bool ← send (.repository repo)
        pinAndCover ns found.1 managed wanted
    else throw notOrganisation

def requireNamespaceWorkflow (ns repo : Resource) (wanted : RequiredWorkflow) : Method StepOutcome := do
  let m : Memory ← run (.memory ns)
  requireFor ns repo wanted m

def archiveRepo (ns repo : Resource) : Method Unit := do
  send .token
  let found : Nat × Bool ← send (.repository repo)
  run (.dropManaged ns found.1)
  if found.2 then pure () else send (.patchArchived repo)

theorem archiveRepo_run (ns repo : Resource) : (archiveRepo ns repo).run =
    .call (.forge .token) fun (token : Except ForgeError Unit) =>
      match token with
      | .error e => .done (.error (.forge e))
      | .ok () => .call (.forge (.repository repo)) fun (found : Except ForgeError (Nat × Bool)) =>
        match found with
        | .error e => .done (.error (.forge e))
        | .ok found => .call (.dropManaged ns found.1) fun _ =>
          if found.2 then .done (.ok ())
          else .call (.forge (.patchArchived repo)) fun (done : Except ForgeError Unit) => .done (done.mapError .forge) := by
  unfold archiveRepo
  show Prog.call _ _ = _
  congr 1
  funext token
  cases token with
  | error e => rfl
  | ok _ =>
    show Prog.call _ _ = _
    congr 1
    funext found
    cases found <;> rfl

-- A step of a plan: the guard of the namespace, or anything else.
inductive StepAction where
  | requireNamespaceWorkflow (wanted : RequiredWorkflow)
  | other

structure BootstrapStep where
  name : Bytes
  action : StepAction

def runStep (ns repo : Resource) (step : BootstrapStep) : Method StepOutcome :=
  match step.action with
  | .requireNamespaceWorkflow wanted => requireNamespaceWorkflow ns repo wanted
  | .other => send (.step repo step.name)

-- What the bridge's configuration makes of a repository: the plan, given whether
-- the namespace can have a required workflow, and the check it requires.
structure Setup where
  plan : Bool → Resource → Except Failure (List BootstrapStep)
  requiredCheck : Option Bytes

-- `report.repo`: the repository the job is about, once it is known.
structure JobReport extends Governance.StepReport Bytes Bytes (Bytes × Bytes) where
  repo : Option (Resource × Nat) := none

def JobReport.step (r : JobReport) (name : Bytes) (status : StepStatus) (detail : Option Bytes) : JobReport :=
  { r with toStepReport := r.toStepReport.step name status detail }

def JobReport.failWith (r : JobReport) (code message : Bytes) : JobReport :=
  { r with toStepReport := r.toStepReport.failed (code,message) }

def JobReport.fail (r : JobReport) (e : Failure) : JobReport := r.failWith e.code e.text

def statusOf : StepOutcome → StepStatus
  | .unchanged => .unchanged
  | .created | .updated => .applied

-- A panic ends the job.
abbrev Job (α : Type) := OptionT Code α

def txn (q : Query) : Job q.Answer := OptionT.mk do
  let answer : q.Answer ← ask q
  pure (some answer)

-- An update that expects the namespace's record.
def expects (q : Query) (found : q.Answer → Bool) : Job q.Answer := OptionT.mk do
  let answer : q.Answer ← ask q
  pure (if found answer then some answer else none)

def attempt (m : Method α) : Job (Except Failure α) := OptionT.mk do
  let result ← m.run
  pure (some result)

section
variable (setup : Setup) (ctx : NamespaceRecord)

def repoKey (forgeId : Nat) : RepoKey := (ctx.resource.host,forgeId)

def manage (state : RepoState) (owners : List ForgeAccount) : Job Unit := do
  txn (.manageRepo ctx.id (repoKey ctx state.forgeId) state.resource owners)
  let managed ← expects (.manageNamespace ctx.id state.forgeId) Option.isSome
  txn (.setManaged ctx.resource (managed.getD ∅))

def persistAdapterState : Job Unit := do
  let first : Memory ← txn (.memory ctx.resource)
  let second : Memory ← txn (.memory ctx.resource)
  let _ ← expects (.persist ctx.id first.pin second.managed) id
  pure ()

-- The programs, request by request.
theorem manage_run (state : RepoState) (owners : List ForgeAccount) : (manage ctx state owners).run =
    .call (.manageRepo ctx.id (repoKey ctx state.forgeId) state.resource owners) fun _ =>
      .call (.manageNamespace ctx.id state.forgeId) fun (managed : Option (Finset Nat)) =>
        match managed with
        | some managed => .call (.setManaged ctx.resource managed) fun _ => .done (some ())
        | none => .done none := by
  unfold manage
  show Prog.call _ _ = _
  congr 1
  funext _
  show Prog.call _ _ = _
  congr 1
  funext managed
  cases managed <;> rfl

theorem persist_run : (persistAdapterState ctx).run =
    .call (.memory ctx.resource) fun (first : Memory) => .call (.memory ctx.resource) fun (second : Memory) =>
      .call (.persist ctx.id first.pin second.managed) fun (found : Bool) =>
        .done (if found then some () else none) := by
  unfold persistAdapterState
  show Prog.call _ _ = _
  congr 1
  funext first
  show Prog.call _ _ = _
  congr 1
  funext second
  show Prog.call _ _ = _
  congr 1
  funext found
  cases found <;> rfl

def capabilityChanged (capability : Bytes) (available : Bool) : Job Unit := do
  let _ ← expects (.changeCapability ctx.id capability available) id
  if capability = ascii "required_workflow" then txn (.setRequiredWorkflow ctx.resource available) else pure ()

-- How the steps of a plan went: all, up to a failure, or up to a capability that
-- changed.
inductive Ran where
  | through
  | failed
  | replan

def skipped (steps : List BootstrapStep) (report : JobReport) : JobReport :=
  steps.foldl (fun r s => r.step s.name .skipped none) report

def runSteps (repo : Resource) (first : Bool) : List BootstrapStep → JobReport → Job (Ran × JobReport)
  | [],report => pure (.through,report)
  | step :: rest,report => do
    let result ← attempt (runStep ctx.resource repo step)
    match result with
    | .ok outcome => runSteps repo first rest (report.step step.name (statusOf outcome) none)
    | .error (.capabilityChanged ns capability available reason) =>
      if first then do
        capabilityChanged ctx capability available
        pure (.replan,report)
      else
        let e := Failure.capabilityChanged ns capability available reason
        pure (.failed,skipped rest ((report.step step.name .failed (some e.text)).fail e))
    | .error e => pure (.failed,skipped rest ((report.step step.name .failed (some e.text)).fail e))

-- One attempt of `run_bootstrap`, unless it is to be planned again.
def attemptBootstrap (check : Bytes) (repo : Resource) (only : Option (List Bytes)) (first : Bool) (report : JobReport) :
    Job (Option (Bool × JobReport)) := do
  let m : Memory ← txn (.memory ctx.resource)
  match setup.plan ((m.registered.map m.capable).getD false) repo with
  | .error e => pure (some (false,report.fail e))
  | .ok plan => do
    let steps := plan.filter fun s => only.all fun names => s.name ∈ names
    let (ran,after) ← runSteps ctx repo first steps report
    match ran with
    | .replan => pure none
    | .failed => do
      persistAdapterState ctx
      pure (some (false,after))
    | .through => do
      persistAdapterState ctx
      txn (.recordCheck (repoKey ctx ((report.repo.map (·.2)).getD 0)) check)
      pure (some (true,after))

def runBootstrap (repo : Resource) (only : Option (List Bytes)) (report : JobReport) : Job (Bool × JobReport) :=
  match setup.requiredCheck with
  | none => pure (false,report.failWith (ascii "forgeError") (ascii "no bootstrap configuration for this forge"))
  | some check => do
    let first ← attemptBootstrap setup ctx check repo only true report
    match first with
    | some done => pure done
    | none => do
      let second ← attemptBootstrap setup ctx check repo only false report
      match second with
      | some done => pure done
      | none => pure (false,report.failWith (ascii "forgeError") (ascii "the adapter kept changing its capabilities"))

def refreshGuard (report : JobReport) : Job Unit :=
  match report.repo with
  | none => pure ()
  | some (resource,forgeId) => do
    let record : Option RepoRecord ← txn (.getRepo (repoKey ctx forgeId))
    match record with
    | none => pure ()
    | some _ => do
      let found : Except ForgeError RepoState ← txn (.forge (.inspect resource))
      match found with
      | .error _ => pure ()
      | .ok state => txn (.recordGuard (repoKey ctx forgeId) state.guard)

def applyRoles (repo : Resource) (forgeId : Nat) (desired : List RoleAssignment) (owners : List ForgeAccount)
    (report : JobReport) : Job JobReport := do
  let applied : Except ForgeError RolesApplied ← txn (.forge (.applyRoles repo desired))
  match applied with
  | .error e => pure ((report.step (ascii "roles") .failed (some e.text)).fail (.forge e))
  | .ok r => do
    txn (.recordRoles ctx.id (repoKey ctx forgeId) repo desired owners r.effective)
    pure (report.step (ascii "roles") r.status r.detail)

-- The repository created, or the namespace's own earlier attempt's.
def createdRepo (repo : Resource) : Job (Except Failure (RepoState × StepStatus)) := do
  let created : Except ForgeError RepoState ← txn (.forge (.create repo))
  match created with
  | .ok state => pure (.ok (state,.applied))
  | .error (.alreadyExists name (some forgeId)) => do
    let record : Option RepoRecord ← txn (.getRepo (repoKey ctx forgeId))
    if record.any (·.ns = ctx.id) then do
      let found : Except ForgeError RepoState ← txn (.forge (.inspect repo))
      pure ((found.mapError .forge).map fun state => (state,.unchanged))
    else pure (.error (.forge (.alreadyExists name (some forgeId))))
  | .error e => pure (.error (.forge e))

def createRepo (repo : Resource) (desired : List RoleAssignment) (owners : List ForgeAccount) : Job JobReport := do
  let created ← createdRepo ctx repo
  match created with
  | .error e => pure ((JobReport.step {} (ascii "create") .failed (some e.text)).fail e)
  | .ok (state,status) => do
    let report := { JobReport.step {} (ascii "create") status none with repo := some (state.resource,state.forgeId) }
    manage ctx state owners
    let (through,report) ← runBootstrap setup ctx repo none report
    if through then do
      let report ← applyRoles ctx state.resource state.forgeId desired owners report
      refreshGuard ctx report
      pure report
    else do
      refreshGuard ctx report
      pure (report.step (ascii "roles") .skipped none)

def bootstrap (repo : Resource) (only : Option (List Bytes)) : Job JobReport := do
  let found : Except ForgeError RepoState ← txn (.forge (.inspect repo))
  match found with
  | .error e => pure (JobReport.fail {} (.forge e))
  | .ok state => do
    let record : Option RepoRecord ← txn (.getRepo (repoKey ctx state.forgeId))
    manage ctx state ((record.map (·.owners)).getD [])
    let (_,report) ← runBootstrap setup ctx state.resource only { repo := some (state.resource,state.forgeId) }
    refreshGuard ctx report
    pure report

def archiveFailed (e : Failure) (report : JobReport) : JobReport :=
  (report.step (ascii "archive") .failed (some e.text)).fail e

def archive (repo : Resource) : Job JobReport := do
  let found : Except ForgeError RepoState ← txn (.forge (.inspect repo))
  match found with
  | .error e => pure (archiveFailed (.forge e) {})
  | .ok state => do
    let report : JobReport := { repo := some (state.resource,state.forgeId) }
    let archived ← attempt (archiveRepo ctx.resource repo)
    match archived with
    | .error e => pure (archiveFailed e report)
    | .ok () => do
      txn (.recordArchived (repoKey ctx state.forgeId))
      let _ ← expects (.unmanage ctx.id state.forgeId) id
      persistAdapterState ctx
      pure (report.step (ascii "archive") (if state.archived then .unchanged else .applied) none)

end

inductive JobKind where
  | createRepo (repo : Resource) (desired : List RoleAssignment) (owners : List ForgeAccount)
  | bootstrap (repo : Resource) (only : Option (List Bytes))
  | archive (repo : Resource)

def JobKind.repo : JobKind → Resource
  | .createRepo repo _ _ | .bootstrap repo _ | .archive repo => repo

def runKind (setup : Setup) (ctx : NamespaceRecord) : JobKind → Job JobReport
  | .createRepo repo desired owners => createRepo setup ctx repo desired owners
  | .bootstrap repo only => bootstrap setup ctx repo only
  | .archive repo => archive ctx repo

-- A job for a bound namespace and a repository in it; others are refused.
def runJob (setup : Setup) (ns : Bytes) (kind : JobKind) : Job (Option JobReport) := do
  let record : Option NamespaceRecord ← txn (.getNamespace ns)
  match record.filter fun n => n.isBound && n.resource.contains kind.repo && !kind.repo.isNamespace with
  | none => pure none
  | some ctx => do
    let report ← runKind setup ctx kind
    pure (some report)

-- The adapter's `complete_bind`, with what it can do for the namespace.
def completeBind (resource : Resource) : Method (Bound × Bool) := do
  let bound : Bound ← send (.completeBind resource)
  match bound.available with
  | some available => run (.setRequiredWorkflow resource available)
  | none => pure ()
  let m : Memory ← run (.memory resource)
  pure (bound,m.capable ⟨resource,bound.organization,bound.ownerId,bound.installationId⟩)

def boundRecord (record : NamespaceRecord) (resource : Resource) (bound : Bound) (capable : Bool) : NamespaceRecord :=
  { record with
    state := .bound
    requiredWorkflow := bound.available.map fun _ => capable
    capabilities := some capable
    binding := some ⟨resource,bound.organization,bound.ownerId,bound.installationId⟩ }

def moveRepos (old new : Bytes) : List (RepoKey × RepoRecord) → Job Unit
  | [] => pure ()
  | (key,r) :: rest =>
    if r.ns = old then do
      let _ ← txn (.moveRepo key new)
      moveRepos old new rest
    else moveRepos old new rest

def supersede : List NamespaceRecord → NamespaceRecord → Job NamespaceRecord
  | [],new => pure new
  | old :: rest,new => do
    txn (.retire old.id)
    let repos : List (RepoKey × RepoRecord) ← txn .listRepos
    moveRepos old.id new.id repos
    txn (.deleteNamespace old.id)
    supersede rest (takeOver new old)

-- Once the forge has proved the bind.
def storeBound (ns : Bytes) (resource : Resource) (bound : Bound) (capable : Bool) : Job Unit := do
  let existing : Option NamespaceRecord ← txn (.getNamespace ns)
  let new := boundRecord (existing.getD { id := ns, resource := resource }) resource bound capable
  let earlier : List NamespaceRecord ← txn (.sameOwner new)
  let new ← supersede earlier new
  txn (.putNamespace ns new)
  txn (.restore new)

def bindCallback (ns : Bytes) (resource : Resource) : Job Unit := do
  let outcome ← attempt (completeBind resource)
  match outcome with
  | .error _ => pure ()
  | .ok (bound,capable) => storeBound ns resource bound capable

end VerifiableGit.Guard
