import VerifiableGit.Governance.Inspect

-- Forge webhooks (events.rs).
namespace VerifiableGit.Governance
open Text Library

inductive InstallationChange where
  | created | deleted | suspended | unsuspended | permissionsAccepted
deriving DecidableEq

inductive ForgeEventKind where
  | repoCreated (repo : Resource) (forgeId : Nat)
  | repoDeleted (repo : Resource) (forgeId : Nat)
  | repoRenamed (forgeId : Nat) (before after : Resource)
  | repoTransferred (forgeId : Nat) (fromNamespace : Option Resource) (after : Resource)
  | repoArchived (repo : Resource) (forgeId : Nat) (archived : Bool)
  | repoVisibilityChanged (repo : Resource) (forgeId : Nat)
  | collaboratorChanged (repo : Resource) (forgeId : Nat) (account : ForgeAccount)
  | orgMembershipChanged (ns : Resource) (account : ForgeAccount)
  | teamMembershipChanged (ns : Resource) (team : Bytes) (account : ForgeAccount)
  | protectionChanged (repo : Option Resource) (ns : Resource)
  | pullRequestOpened (repo : Resource) (forgeId : Nat) (number : Nat) (reopened : Bool)
  | installationChanged (ns : Resource) (installationId : Nat) (change : InstallationChange)

-- Every resource an event names lies in scope; of a transfer, one of its sides.
def Scope.admits (scope : Scope) : ForgeEventKind → Bool
  | .repoCreated repo _ | .repoDeleted repo _ | .repoArchived repo _ _ | .repoVisibilityChanged repo _
  | .collaboratorChanged repo _ _ | .pullRequestOpened repo _ _ _ => scope.covers repo
  | .repoRenamed _ before after => scope.covers before && scope.covers after
  | .repoTransferred _ fromNamespace after => scope.covers after || fromNamespace.any scope.covers
  | .orgMembershipChanged ns _ | .teamMembershipChanged ns _ _ | .installationChanged ns _ _ => scope.covers ns
  | .protectionChanged repo ns => scope.covers ns && repo.all scope.covers

def Store.admitsRepo (s : Store) (scope : Scope) (repo : Resource) (forgeId : Nat) (needRecord : Bool) : Bool :=
  scope.covers repo &&
    match s.record scope.host forgeId with
    | some r => scope.covers r.resource && (s.namespaceRecord r.ns).any fun n => scope.covers n.resource
    | none => !needRecord

-- `Ctx::load`
def Store.load (s : Store) (setup : Setup) (ns : Bytes) : Option NamespaceRecord :=
  (s.namespaceRecord ns).filter fun n => n.isBound && setup.serves n.resource

-- What the forge answers while one delivery is handled, in the order asked.
structure Answers where
  inspect : Nat → Resource → Except ForgeError ForgeRepo
  -- asked with the installation on the namespace
  repositoryById : Resource → Nat → Except ForgeError (Option ForgeRepo)

def Answers.movedTo (answers : Answers) (ns : Resource) (forgeId : Nat) : Except ForgeError (Option Resource) :=
  (answers.repositoryById ns forgeId).map fun found =>
    (found.filter (·.id = forgeId)).map (·.resource ns)

-- A repository another namespace records came into `toNs`: GitHub is asked
-- where `toNs`'s installation sees it now.
def Store.confirmTransferIn (s : Store) (setup : Setup) (answers : Answers) (toNs : NamespaceRecord)
    (forgeId : Nat) : Store :=
  match s.record toNs.resource.host forgeId with
  | none => s
  | some r =>
    if r.ns = toNs.id then s
    else
      match s.namespaceRecord r.ns with
      | none => s
      | some oldNs =>
        if setup.github toNs.resource then
          match answers.movedTo toNs.resource forgeId with
          | .ok (some now) =>
            if toNs.resource.contains now && !oldNs.resource.contains now then
              s.transferredOut oldNs r.resource now forgeId
            else s
          | _ => s
        else s

def Store.inspectIn (s : Store) (setup : Setup) (ns : NamespaceRecord) (found : Except ForgeError ForgeRepo) : Store :=
  match s.load setup ns.id,found with
  | some ctx,.ok repo => (s.inspectRepo setup ctx true (repoState ctx.resource repo)).1
  | _,_ => s

-- The record of a transferred repository, when it is this owner's.
def Store.ownRecord (s : Store) (scope : Scope) (host : Bytes) (forgeId : Nat) : Option RepoRecord :=
  (s.record host forgeId).filter fun r =>
    scope.covers r.resource && (s.namespaceRecord r.ns).any fun n => scope.covers n.resource

def Store.transferSource (s : Store) (scope : Scope) (forgeId : Nat) (fromNamespace : Option Resource)
    (after : Resource) : Option Resource :=
  ((s.ownRecord scope after.host forgeId).map (·.resource)).or
    ((fromNamespace.filter scope.covers).bind fun n => n.join (after.repoName.getD []))

def Store.renameRecord (s : Store) (ns : Bytes) (forgeId : Nat) (after : Resource) : Store :=
  s.updateRecord (after.host,forgeId) fun r => if r.ns = ns then { r with resource := after } else r

def Store.handle (s : Store) (setup : Setup) (answers : Answers) (scope : Scope) : ForgeEventKind → Store
  | .repoCreated repo forgeId =>
    match s.namespaceIn scope repo with
    | none => s
    | some ns => if namespaceRepo repo || (s.repoIn ns forgeId).isSome then s else s.reportUnmanaged ns repo forgeId
  | .repoDeleted repo forgeId =>
    match s.namespaceIn scope repo with
    | none => s
    | some ns =>
      if namespaceRepo repo then s
      else
        match s.detachFrom ns forgeId with
        | none => s
        | some s => s.report ns.id (.repoDeleted forgeId repo)
  | .repoRenamed forgeId before after =>
    match s.namespaceIn scope after with
    | none => s
    | some ns =>
      -- A rename stays with its owner.
      if !ns.resource.contains before || s.claimedElsewhere ns forgeId then s
      else ((s.detachReusedName ns.id after forgeId).renameRecord ns.id forgeId after).report ns.id
        (.repoRenamed forgeId before after)
  | .repoTransferred forgeId fromNamespace after =>
    let arrived :=
      match s.namespaceIn scope after with
      | some t => (s.confirmTransferIn setup answers t forgeId).reportUnmanaged t after forgeId
      | none => s
    match s.transferSource scope forgeId fromNamespace after with
    | none => arrived
    | some source =>
      match s.namespaceIn scope source with
      | none => arrived
      | some fromNs =>
        if fromNs.resource.contains source then s.transferredOut fromNs source after forgeId else arrived
  | .collaboratorChanged repo forgeId account =>
    match (s.namespaceIn scope repo).bind fun ns => s.load setup ns.id with
    | none => s
    | some ns =>
      match answers.inspect 0 repo with
      | .error _ => s
      | .ok state =>
        let role := (state.collaborators.find? (·.account.id = account.id)).map (·.role)
        let s := s.report ns.id (.roleChanged forgeId repo account role)
        if (s.repoIn ns forgeId).isSome then s.inspectIn setup ns (answers.inspect 1 repo) else s
  | .protectionChanged (some repo) _ =>
    match s.namespaceIn scope repo with
    | none => s
    | some ns => s.inspectIn setup ns (answers.inspect 0 repo)
  | .protectionChanged none ns =>
    match (s.namespaceIn scope ns).bind fun ns => s.load setup ns.id with
    | none => s
    | some ctx => (sweepFrom setup ctx false answers.inspect 0 (s.sweepList ctx.id) s).1
  | .installationChanged ns installationId change =>
    match s.namespaceIn scope ns with
    | none => s
    | some ns =>
      if ns.binding.bind (·.installationId) ≠ some installationId then s
      else
        match change with
        | .deleted | .suspended => s.report ns.id .installationRemoved
        -- The installation is probed again: of the tables here that writes only
        -- what the namespace's own record says of the bridge's checks.
        | _ => s
  | _ => s

/-! Pushes and pull requests -/

structure CheckTrigger where
  repo : Resource
  repoId : Nat
  pullRequest : Option Nat
  headRef : Option Bytes := none
  authorLogin : Option Bytes := none

-- What the re-sign of a pull request finds, as far as it writes the ledger:
-- the head branch, whether it is an open one of Dependabot's on a branch of the
-- repository, and what it noted last.
inductive ResignNote where
  | nothing
  | skip (head why : Bytes)
  | own (before after : Bytes)

structure ResignRun where
  headRef : Bytes
  dependabots : Bool
  note : ResignNote

-- What one trigger comes to: its check (none when skipped), the inspection that
-- reports it (none when one is waiting already), and the re-sign.
structure TriggerRun where
  check : Except ForgeError (Option LastCheck)
  report : Option (Except ForgeError ForgeRepo)
  resign : Option ResignRun

-- `resumed` is what the re-sign that a recorded push resumes comes to.
structure Delivery where
  id : Option Bytes
  push : Option (Resource × Resign.PushEvent) := none
  resumed : Option ResignRun := none
  triggers : List (CheckTrigger × TriggerRun) := []
  event : Option ForgeEventKind := none

def dependabotPrefix : Bytes := ascii "dependabot/"

def hasInfix (part text : Bytes) : Bool := text.tails.any part.isPrefixOf

def branchByte (b : UInt8) : Bool :=
  (48 ≤ b && b ≤ 57) || (65 ≤ b && b ≤ 90) || (97 ≤ b && b ≤ 122) || (ascii "._-/@+").contains b

def checkBranchName (branch : Bytes) : Bool :=
  dependabotPrefix.isPrefixOf branch && branch.length ≤ 255 && branch.all branchByte &&
    !hasInfix (ascii "..") branch && !hasInfix (ascii "@\x7b") branch && !hasInfix (ascii "//") branch &&
    !(ascii "/").isSuffixOf branch &&
    (branch.splitOn 47).all fun c =>
      c ≠ [] && !(ascii ".").isPrefixOf c && !(ascii ".lock").isSuffixOf c

-- The bound namespace containing `repo`, on a GitHub adapter.
def Store.githubCtx (s : Store) (setup : Setup) (repo : Resource) : Option NamespaceRecord :=
  (((s.namespaces.rows.map (·.2)).find? fun n => n.state = .bound && n.resource.contains repo).bind
    fun n => s.load setup n.id).filter fun n => setup.github n.resource

def Store.seen (s : Store) (host : Bytes) (delivery : Option Bytes) : Bool :=
  delivery.any fun d => s.deliveries.contains (host ++ Resign.hash :: d)

def Store.markSeen (s : Store) (host : Bytes) (delivery : Option Bytes) : Store :=
  { s with deliveries := s.deliveries ++ (delivery.map fun d => host ++ Resign.hash :: d).toList }

-- `resign::run`, its ledger writes.
def Store.resign (s : Store) (setup : Setup) (repo : Resource) (repoId number : Nat) (run : ResignRun) (now : Int) : Store :=
  if (s.githubCtx setup repo).isNone then s
  else
    let key := Resign.ledgerKey repo.host repoId run.headRef
    let branches := if run.dependabots && checkBranchName run.headRef then
        Resign.rememberPullRequest key number now s.branches
      else s.branches
    match run.note with
    | .nothing => { s with branches := branches }
    | .skip head why => { s with branches := Resign.noteSkip key head why now branches }
    | .own before after => { s with branches := (Resign.recordOwn key before after now branches).toOption.getD branches }

def Store.onPush (s : Store) (setup : Setup) (host : Bytes) (delivery : Option Bytes) (repo : Resource)
    (push : Resign.PushEvent) (resumed : Option ResignRun) (now : Int) : Store :=
  match push.branch with
  | none => s
  | some branch =>
    if !checkBranchName branch || (s.githubCtx setup repo).isNone || s.seen host delivery then s
    else
      match Resign.recordPush host push now s.branches with
      | .error _ => s
      | .ok (pr,branches) =>
        let s := { s with branches := branches }.markSeen host delivery
        match pr,resumed with
        | some number,some run => if push.deleted then s else s.resign setup repo push.repoId number run now
        | _,_ => s

def Store.resignTrigger (s : Store) (setup : Setup) (dependabot : Resource → Option Bytes) (now : Int)
    (t : CheckTrigger × TriggerRun) : Store :=
  match t.1.pullRequest,t.2.resign,dependabot t.1.repo with
  | some number,some run,some login =>
    if dependabotPrefix.isPrefixOf (t.1.headRef.getD []) && t.1.authorLogin = some login then
      s.resign setup t.1.repo t.1.repoId number run now
    else s
  | _,_,_ => s

-- The check is posted for a bound or orphaned namespace; the last one is kept
-- with the repository and reported by an inspection of it.
def Store.checkTrigger (s : Store) (setup : Setup) (t : CheckTrigger × TriggerRun) : Store :=
  match t.2.check with
  | .error _ | .ok none => s
  | .ok (some check) =>
    let s := s.updateRecord (t.1.repo.host,t.1.repoId) fun r => { r with lastCheck := some check }
    match s.record t.1.repo.host t.1.repoId,t.2.report with
    | some r,some found =>
      match s.load setup r.ns,found with
      | some ctx,.ok repo => (s.inspectRepo setup ctx true (repoState ctx.resource repo)).1
      | _,_ => s
    | _,_ => s

def Store.pullRequestOpened (s : Store) (scope : Scope) (delivery : Option Bytes) (repo : Resource)
    (forgeId number : Nat) (reopened : Bool) : Store :=
  if s.admitsRepo scope repo forgeId true then
    match s.namespaceIn scope repo with
    | none => s
    | some ns =>
      if namespaceRepo repo || forgeId ∉ ns.managed || (s.repoIn ns forgeId).isNone then s
      else
        let key := delivery.map fun d => repo.host ++ Resign.hash :: d ++ ascii "#pullRequestOpened"
        if key.any (s.deliveries.contains ·) then s
        else { s with deliveries := s.deliveries ++ key.toList }.report ns.id (.pullRequestOpened forgeId repo number reopened)
  else s

def Store.onPullRequest (s : Store) (scope : Scope) (delivery : Option Bytes) : Option ForgeEventKind → Store
  | some (.pullRequestOpened repo forgeId number reopened) =>
    s.pullRequestOpened scope delivery repo forgeId number reopened
  | _ => s

def Store.onTriggers (s : Store) (setup : Setup) (dependabot : Resource → Option Bytes) (now : Int)
    (scope : Scope) (delivery : Option Bytes) (triggers : List (CheckTrigger × TriggerRun)) : Store :=
  let admitted := triggers.filter fun t => s.admitsRepo scope t.1.repo t.1.repoId false
  if admitted = [] || s.seen scope.host delivery then s
  else
    let s := admitted.foldl (·.resignTrigger setup dependabot now) s
    let s := admitted.foldl (·.checkTrigger setup) s
    if admitted.all fun t => t.2.check.isOk then s.markSeen scope.host delivery else s

def Store.onEvent (s : Store) (setup : Setup) (answers : Answers) (scope : Scope) (delivery : Option Bytes)
    (event : Option ForgeEventKind) : Store :=
  match event with
  | none => s
  | some kind =>
    if scope.admits kind then
      match kind with
      | .pullRequestOpened .. => s.onPullRequest scope delivery (some kind)
      | _ =>
        if s.seen scope.host delivery then s
        else (s.markSeen scope.host delivery).handle setup answers scope kind
    else s

-- A delivery an adapter's secret verified. Only GitHub's Apps, which have an
-- owner, send pushes and check triggers.
def Store.onWebhook (s : Store) (setup : Setup) (answers : Answers) (dependabot : Resource → Option Bytes) (now : Int)
    (scope : Scope) (d : Delivery) : Store :=
  if scope.owner.isNone then s.onEvent setup answers scope d.id d.event
  else
    match d.push with
    | some (repo,push) =>
      if s.admitsRepo scope repo push.repoId true then s.onPush setup scope.host d.id repo push d.resumed now else s
    | none =>
      let s := s.onPullRequest scope d.id d.event
      if d.triggers ≠ [] then s.onTriggers setup dependabot now scope d.id d.triggers
      else s.onEvent setup answers scope d.id d.event

end VerifiableGit.Governance
