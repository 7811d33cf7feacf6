import VerifiableGit.Governance.Events

-- The jobs that write repository records (jobs.rs).
namespace VerifiableGit.Governance
open Text Library

inductive JobKind where
  | projectRoles (repo : Resource) (desired : List RoleAssignment) (owners : List ForgeAccount) (removals : Removals)
  | createRepo (repo : Resource) (desired : List RoleAssignment) (owners : List ForgeAccount)
  | bootstrap (repo : Resource)
  | archive (repo : Resource)
  | inspect (repo : Resource)
  | sweep

-- What the forge answers while one job runs. `bootstrapped`: what the steps of
-- the plan are reported as, and the failure that ended them.
structure JobForge where
  inspect : Nat → Resource → Except ForgeError ForgeRepo
  create : Except ForgeError ForgeRepo
  archive : Except ForgeError Unit
  roles : RolesForge
  bootstrapped : List (StepLine Bytes Bytes) × Option (Bytes × Bytes)

-- What a job leaves: the tables, its report, the repositories it acted on, and
-- the records whose roles, owners or required check it went by.
structure JobDone where
  store : Store
  report : Report := {}
  acted : List RepoKey := []
  used : List RepoRecord := []

def StepReport.failWith (r : Report) (code message : Bytes) : Report := r.failed (code,message)

def StepReport.fail (r : Report) (e : ForgeError) : Report := r.failWith (errorCode e) e.text

def Store.recordByResource (s : Store) (r : Resource) : Option RepoRecord :=
  (s.repos.rows.map (·.2)).find? (·.resource = r)

def Store.manage (s : Store) (ctx : NamespaceRecord) (state : RepoState) (owners : List ForgeAccount) : Store :=
  { s with
    repos := s.repos.update (ctx.resource.host,state.forgeId) fun r =>
      some (managedRecord ctx.id state.resource state.forgeId owners r)
    namespaces := s.namespaces.update ctx.id (·.map fun n => { n with managed := insert state.forgeId n.managed }) }

-- After the plan went through, the check it put in place is recorded.
def Store.recordCheck (s : Store) (setup : Setup) (ctx : NamespaceRecord) (forgeId : Nat) : Store :=
  s.updateRecord (ctx.resource.host,forgeId) fun r =>
    { r with requiredCheck := (setup.vgi ctx.resource).map (·.requiredCheck) }

-- `run_bootstrap` of repository `forgeId`; with whether every step went through.
def JobDone.runBootstrap (d : JobDone) (setup : Setup) (ctx : NamespaceRecord) (forge : JobForge) (forgeId : Nat) :
    JobDone × Bool :=
  match setup.vgi ctx.resource with
  | none => ({ d with report := d.report.failWith (ascii "forgeError") (ascii "no bootstrap configuration for this forge") },false)
  | some _ =>
    let report := d.report.append forge.bootstrapped.1
    match forge.bootstrapped.2 with
    | some (code,message) => ({ d with report := report.failWith code message },false)
    | none => ({ d with store := d.store.recordCheck setup ctx forgeId, report := report },true)

-- `refresh_guard`: the guard the repository ended up with, against its record.
def JobDone.refreshGuard (d : JobDone) (setup : Setup) (ctx : NamespaceRecord) (forge : JobForge) (resource : Resource)
    (forgeId : Nat) : JobDone :=
  match d.store.record ctx.resource.host forgeId with
  | none => d
  | some r =>
    match forge.inspect 1 resource with
    | .error _ => d
    | .ok found =>
      let state := repoState ctx.resource found
      let proj := { projection setup ctx state (some r) with resource := state.resource }
      { d with
        store := d.store.recordGuard r.key (setup.judge state proj true).guard
        used := d.used ++ [r] }

-- The job's `apply_roles` on the record under the repository's key.
def JobDone.applyRoles (d : JobDone) (adapter : Adapter) (ctx : NamespaceRecord) (forge : JobForge) (job : RolesJob) : JobDone :=
  let key := (ctx.resource.host,job.forgeId)
  let done := Governance.applyRoles adapter forge.roles (d.store.repos.lookup key) job
  { d with
    store := { d.store with repos := d.store.repos.put key done.record }
    report := { d.report.append done.report.steps with failure := d.report.failure.or done.report.failure }
    used := d.used ++ (d.store.repos.lookup key).toList }

-- A new repository gets its roles once every step of the plan went through.
def rolesAfterPlan (adapter : Adapter) (ctx : NamespaceRecord) (forge : JobForge) (job : RolesJob)
    (planned : JobDone × Bool) : JobDone :=
  if planned.2 then planned.1.applyRoles adapter ctx forge job
  else { planned.1 with report := planned.1.report.step (ascii "roles") .skipped none }

-- The repository's forge id: from the record, or by inspecting it.
def Store.forgeIdOf (s : Store) (forge : JobForge) (repo : Resource) : Except ForgeError Nat :=
  match s.recordByResource repo with
  | some r => .ok r.forgeId
  | none => (forge.inspect 0 repo).map (·.id)

-- What `create_repo` works on: the repository created, or its own earlier
-- attempt's.
def Store.createdRepo (s : Store) (ctx : NamespaceRecord) (forge : JobForge) (repo : Resource) :
    Except ForgeError (ForgeRepo × StepStatus) :=
  match forge.create with
  | .ok found => .ok (found,.applied)
  | .error (.alreadyExists name (some forgeId)) =>
    if (s.record ctx.resource.host forgeId).any (·.ns = ctx.id) then
      (forge.inspect 0 repo).map fun found => (found,.unchanged)
    else .error (.alreadyExists name (some forgeId))
  | .error e => .error e

variable (setup : Setup) (adapter : Adapter) (roleMap : Option RoleMap) (ctx : NamespaceRecord) (forge : JobForge)

def projectRolesJob (s : Store) (repo : Resource) (desired : List RoleAssignment) (owners : List ForgeAccount)
    (removals : Removals) : JobDone :=
  match s.forgeIdOf forge repo with
  | .error e => { store := s, report := StepReport.fail {} e }
  | .ok forgeId =>
    JobDone.applyRoles { store := s, acted := [(ctx.resource.host,forgeId)] } adapter ctx forge
      { ns := ctx.id, repo := repo, forgeId := forgeId, desired := desired, owners := owners, removals := removals,
        effective := roleMap }

def createRepoJob (s : Store) (repo : Resource) (desired : List RoleAssignment) (owners : List ForgeAccount) : JobDone :=
  match s.createdRepo ctx forge repo with
  | .error e => { store := s, report := (StepReport.step {} (ascii "create") .failed (some e.text)).fail e }
  | .ok (found,status) =>
    let state := repoState ctx.resource found
    let started : JobDone := {
      store := s.manage ctx state owners
      report := StepReport.step {} (ascii "create") status none
      acted := [(ctx.resource.host,state.forgeId)] }
    let d := rolesAfterPlan adapter ctx forge
      { ns := ctx.id, repo := state.resource, forgeId := state.forgeId, desired := desired, owners := owners,
        effective := roleMap }
      (started.runBootstrap setup ctx forge state.forgeId)
    d.refreshGuard setup ctx forge state.resource state.forgeId

def bootstrapJob (s : Store) (repo : Resource) : JobDone :=
  match forge.inspect 0 repo with
  | .error e => { store := s, report := StepReport.fail {} e }
  | .ok found =>
    let state := repoState ctx.resource found
    let former := s.record ctx.resource.host state.forgeId
    -- The record's owners go into the plan.
    let started : JobDone := {
      store := s.manage ctx state ((former.map (·.owners)).getD [])
      acted := [(ctx.resource.host,state.forgeId)]
      used := former.toList }
    (started.runBootstrap setup ctx forge state.forgeId).1.refreshGuard setup ctx forge state.resource state.forgeId

def archiveJob (s : Store) (repo : Resource) : JobDone :=
  match forge.inspect 0 repo with
  | .error e => { store := s, report := (StepReport.step {} (ascii "archive") .failed (some e.text)).fail e }
  | .ok found =>
    let key := (ctx.resource.host,found.id)
    match forge.archive with
    | .error e => { store := s, report := (StepReport.step {} (ascii "archive") .failed (some e.text)).fail e, acted := [key] }
    | .ok () =>
      let s := s.updateRecord key fun r => { r with archived := true }
      { store := { s with namespaces := s.namespaces.update ctx.id (·.map (unmanage found.id)) }
        report := StepReport.step {} (ascii "archive") (if found.archived then .unchanged else .applied) none
        acted := [key] }

def inspectStep (compared : Compared) (report : Report) : Report :=
  if compared.record.isSome then
    report.step (ascii "requiredCheck") (if compared.enforced then .unchanged else .failed)
      (if compared.enforced then none else some (ascii "the forge does not require the verify-trust check"))
  else report

def inspectJob (s : Store) (repo : Resource) : JobDone :=
  match forge.inspect 0 repo with
  | .error e => { store := s, report := StepReport.fail {} e }
  | .ok found =>
    let (s,compared) := s.inspectRepo setup ctx true (repoState ctx.resource found)
    { store := s
      report := (compared.map fun c => inspectStep c {}).getD {}
      acted := [(ctx.resource.host,found.id)]
      used := (compared.bind (·.record)).toList }

def sweepActed (inspect : Nat → Resource → Except ForgeError ForgeRepo) : Nat → List RepoRecord → List RepoKey
  | _,[] => []
  | n,r :: rest =>
    match inspect n r.resource with
    | .error _ => sweepActed inspect (n + 1) rest
    | .ok found => (ctx.resource.host,found.id) :: sweepActed inspect (n + 1) rest

def sweepJob (s : Store) : JobDone :=
  let (t,compared,failures) := sweepFrom setup ctx true forge.inspect 0 (s.sweepList ctx.id) s
  { store := t
    report := if failures = [] then {} else StepReport.failWith {} (ascii "forgeError") ((ascii "; ").intercalate failures)
    acted := sweepActed ctx forge.inspect 0 (s.sweepList ctx.id)
    used := compared.filterMap (·.record) }

def runKind (s : Store) : JobKind → JobDone
  | .projectRoles repo desired owners removals => projectRolesJob adapter roleMap ctx forge s repo desired owners removals
  | .createRepo repo desired owners => createRepoJob setup adapter roleMap ctx forge s repo desired owners
  | .bootstrap repo => bootstrapJob setup ctx forge s repo
  | .archive repo => archiveJob ctx forge s repo
  | .inspect repo => inspectJob setup ctx forge s repo
  | .sweep => sweepJob setup ctx forge s

def unknownNamespace (ns : Bytes) : Bytes := ascii "no namespace `" ++ ns ++ ascii "` is bound to this bridge"

def notInNamespace (repo : Resource) (ctx : NamespaceRecord) : Bytes :=
  ascii "`" ++ repo.asStr ++ ascii "` is not in namespace `" ++ ctx.id ++ ascii "` (`" ++ ctx.resource.asStr ++ ascii "`)"

def JobKind.repo : JobKind → Option Resource
  | .projectRoles repo _ _ _ | .createRepo repo _ _ | .bootstrap repo | .archive repo | .inspect repo => some repo
  | .sweep => none

def JobKind.within (kind : JobKind) (ctx : NamespaceRecord) : Bool :=
  kind.repo.all fun repo => ctx.resource.contains repo && !repo.isNamespace

-- A job for namespace `ns`: admitted for a bound one and a repository in it
-- (bridge.rs, `admit`), then run.
def runJob (adapters : Resource → Adapter) (s : Store) (ns : Bytes) (kind : JobKind) : JobDone :=
  match s.load setup ns with
  | none => { store := s, report := StepReport.failWith {} (ascii "unknownNamespace") (unknownNamespace ns) }
  | some ctx =>
    if kind.within ctx then runKind setup (adapters ctx.resource) roleMap ctx forge s kind
    else { store := s, report := StepReport.failWith {} (ascii "unknownNamespace") (notInNamespace (kind.repo.getD ctx.resource) ctx) }

end VerifiableGit.Governance
