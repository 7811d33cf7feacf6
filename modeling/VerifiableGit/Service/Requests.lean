import VerifiableGit.Service.Records
import VerifiableGit.Governance.Detach
import VerifiableGit.Library.Crew

-- What the bridge's code asks for: the transactions of its store, each of them
-- one step, and what lies outside (the forge, the VTC, the clock, the random
-- numbers, the configuration).
namespace VerifiableGit.Service
open Text Library Library.Interaction
open Governance (Resource NamespaceRecord Namespace Pin NamespaceState RepoRecord RepoKey ForgeAccount Report)
open Governance.NamespaceRecord (Earlier)
open Governance.RepoRecord (moved)

structure JobDoc where
  -- what `parse_job` and `check_kind_members` make of it
  payload : Except Bytes JobPayload
  digest : Bytes
  issuedAt : Option Int := none
deriving DecidableEq

-- What the rest of the code changes in a namespace's record.
structure Adjustment where
  managed : Finset Nat
  pin : Option Pin
  requiredWorkflow : Option Bool
  capabilities : Option Bool
deriving DecidableEq

-- What a job's own work, a webhook or a sweep does to these tables.
inductive WorkAct where
  | event (body : EventBody) (drift : List (Option Resource))
  | adjust (change : Adjustment)
  | repo (key : RepoKey) (record : Option RepoRecord)
deriving DecidableEq

inductive Handler where
  | job (doc : JobDoc)
  | runJob (jobId : Bytes)
  | bindCallback (host : Bytes) (routeOwner : Option Bytes) (state : Bytes)
  | linkCallback (host state : Bytes)
  | pollDevice (state : Bytes)
  | expire
  | resend (all : Bool)
  | linkUp
  | restore
  | maintenance
  | resultAck (jobId : Bytes)
  | eventAck (thread : Option Bytes)
  | refusal (code : Bytes) (thread : Option Bytes)
  | work (ns : Bytes) (acts : List WorkAct)
  | forget (ns : Bytes)
  | offerRegistrations
  | manifestCallback (host owner state : Bytes)
deriving DecidableEq

inductive BindStep where
  | redirect (url : Bytes)
  | other (shown : Bytes)

inductive LinkStep where
  | deviceCode (code userCode uri : Bytes) (expiresIn interval : Nat)
  -- with the `state` its query carries
  | redirect (url : Bytes) (state : Option Bytes)
  | other (shown : Bytes)

structure Binding where
  user : Bool := false
  ownerId : Option Nat
  installationId : Option Nat := none
  requiredWorkflow : Option Bool := none
  -- what the adapter can do for it
  capable : Bool := false
  missingPermissions : List Bytes := []

def Binding.record (b : Binding) (r : Resource) : Namespace := ⟨r,!b.user,b.ownerId,b.installationId⟩

inductive LinkError where
  | linkFailed (message : Bytes)
  | other (code message : Bytes)

structure Capabilities where
  accountLink : Bool := true
  botCanCreateRepos : Bool := true
  automation : Bool := true
deriving Inhabited

-- What a job comes to: what it does on the way, and its report, unless it never
-- returns.
structure JobWork where
  acts : List WorkAct := []
  report : Option Report := some {}
deriving Inhabited

inductive Answered where
  | response (jobId : Bytes) (accepted : Bool) (next : Option Next)
  | error (code message : Bytes)

-- A failure as `Report::fail` records it: its code and its text.
abbrev Failure := Bytes × Bytes

inductive Query where
  -- the ledger
  | getJob (id : Bytes)
  | newJob (id : Bytes) (record : JobRecord)
  | waitJob (id : Bytes) (next : Next)
  | startJob (id : Bytes)
  | finishJob (id : Bytes) (result : ResultPayload) (at_ : Int)
  | isWaiting (id : Bytes)
  | deleteJob (id : Bytes)
  | listJobs
  -- namespaces
  | getNamespace (id : Bytes)
  | isOrphaned (id : Bytes)
  | newNamespace (id : Bytes) (record : NamespaceRecord)
  | putNamespace (id : Bytes) (record : NamespaceRecord)
  | orphan (id : Bytes) (at_ : Int)
  | unorphan (id : Bytes)
  | adjust (id : Bytes) (change : Adjustment)
  | warnRemoval (id : Bytes) (at_ : Int)
  | deleteNamespace (id : Bytes)
  | listNamespaces
  | sameOwner (new : NamespaceRecord)
  -- repositories
  | listRepos
  | moveRepo (key : RepoKey) (ns : Bytes)
  | setRepo (key : RepoKey) (record : Option RepoRecord)
  | deleteRepo (key : RepoKey)
  -- flows waiting for a person
  | getFlow (state : Bytes)
  | putFlow (state : Bytes) (flow : PendingFlow)
  | takeFlow (state : Bytes)
  -- `flow` is the one the caller has read there
  | deleteFlow (state : Bytes) (flow : PendingFlow)
  | listFlows
  -- the outbox
  | getEntry (key : OutboxKey)
  | putEntry (key : OutboxKey) (entry : OutboxEntry)
  | newEntry (key : OutboxKey) (entry : OutboxEntry)
  | noteSent (key : OutboxKey) (docId : Bytes) (at_ : Int)
  | refreshEntry (key : OutboxKey) (payload : EventPayload)
  | deleteEntry (key : OutboxKey)
  | listEntries
  -- retired ids
  | retire (id : Bytes) (record : RetiredNamespace)
  | isRetired (id : Bytes)
  -- device codes, sealed
  | putDeviceCode (state code : Bytes)
  | getDeviceCode (state : Bytes)
  | deleteDeviceCode (state : Bytes)
  -- tasks
  | spawn (h : Handler)
  | lock (ns : Bytes)
  | unlock (ns : Bytes)
  -- the clock and the random numbers
  | now
  | past (at_ : Int)
  | newId
  | newState
  -- the VTC
  | flush
  | sign (content : Content)
  | send (content : Content)
  | answer (doc : Answered)
  -- the forge, its adapters and their configuration
  | adapter (r : Resource)
  | linkAdapter (ns host : Bytes)
  | capabilities (r : Resource) (binding : Option Namespace)
  | beginBind (r : Resource) (state : Bytes)
  | completeBind (r : Resource) (state : Bytes)
  | beginAccountLink (member : Bytes)
  | completeAccountLink (state : Bytes) (code : Option Bytes)
  | restoreAdapter (record : NamespaceRecord)
  | roleMap (record : NamespaceRecord)
  | jobWork (payload : JobPayload)
  | registered (host owner : Bytes)
  | exchangeCode (host owner : Bytes)
  -- whether the generated wire types take it, or why not
  | checkNext (next : Next)
  | checkResult (jobId : Bytes) (report : Report)
  | checkEvent (ns : Bytes) (event : EventBody)
  | status (ns : Bytes)

@[reducible] def Query.Answer : Query → Type
  | .getJob _ => Option JobRecord
  | .newJob _ _ | .finishJob _ _ _ | .isWaiting _ | .deleteJob _ => Bool
  | .waitJob _ _ | .startJob _ => Unit
  | .listJobs => List (Bytes × JobRecord)
  | .getNamespace _ => Option NamespaceRecord
  | .isOrphaned _ | .newNamespace _ _ | .orphan _ _ | .unorphan _ | .deleteNamespace _ => Bool
  | .putNamespace _ _ | .adjust _ _ | .warnRemoval _ _ => Unit
  | .listNamespaces => List (Bytes × NamespaceRecord)
  | .sameOwner _ => List NamespaceRecord
  | .listRepos => List (RepoKey × RepoRecord)
  | .moveRepo _ _ => Option RepoRecord
  | .setRepo _ _ => Unit
  | .deleteRepo _ => Bool
  | .getFlow _ | .takeFlow _ => Option PendingFlow
  | .putFlow _ _ => Unit
  | .deleteFlow _ _ => Bool
  | .listFlows => List (Bytes × PendingFlow)
  | .getEntry _ => Option OutboxEntry
  | .putEntry _ _ | .noteSent _ _ _ | .refreshEntry _ _ => Unit
  | .newEntry _ _ | .deleteEntry _ => Bool
  | .listEntries => List (OutboxKey × OutboxEntry)
  | .retire _ _ => Unit
  | .isRetired _ => Bool
  | .putDeviceCode _ _ | .deleteDeviceCode _ => Unit
  | .getDeviceCode _ => Option Bytes
  | .spawn _ | .lock _ | .unlock _ => Unit
  | .now => Int
  | .past _ => Bool
  | .newId | .newState => Bytes
  | .flush => Bool
  | .sign _ => Option Bytes
  | .send _ | .answer _ => Unit
  | .adapter _ | .linkAdapter _ _ => Bool
  | .capabilities _ _ => Capabilities
  | .beginBind _ _ => Except Failure BindStep
  | .completeBind _ _ => Except Failure Binding
  | .beginAccountLink _ => Except Failure LinkStep
  | .completeAccountLink _ _ => Except LinkError ForgeAccount
  | .restoreAdapter _ => Bool
  | .roleMap _ => Option RoleMapReport
  | .jobWork _ => JobWork
  | .registered _ _ | .exchangeCode _ _ => Bool
  | .checkNext _ => Option Bytes
  | .checkResult _ _ | .checkEvent _ _ => Bool
  | .status _ => Option Bytes

abbrev Code := Prog Query Query.Answer

def request (q : Query) : Code q.Answer := ask q

structure World where
  jobs : Table Bytes JobRecord := ∅
  namespaces : Table Bytes NamespaceRecord := ∅
  repos : Table RepoKey RepoRecord := ∅
  pending : Table Bytes PendingFlow := ∅
  outbox : Table OutboxKey OutboxEntry := ∅
  retired : Table Bytes RetiredNamespace := ∅
  deviceCodes : Table Bytes Bytes := ∅
  locked : List Bytes := []
  spawned : List Handler := []
  -- every `state` a flow was ever put under, and everything sent
  states : List Bytes := []
  sent : List Content := []

def JobRecord.finish (r : JobRecord) (result : ResultPayload) (at_ : Int) : JobRecord :=
  { r with state := .finished, result := some result, payload := none, finishedAt := some at_ }

def OutboxEntry.noteSent (e : OutboxEntry) (docId : Bytes) (at_ : Int) : OutboxEntry :=
  let ids := e.docIds ++ [docId]
  { e with docIds := if 8 < ids.length then ids.tail else ids, lastSent := at_, attempts := e.attempts + 1 }

def orphaned (at_ : Int) (n : NamespaceRecord) : NamespaceRecord :=
  if n.state = .bound then { n with state := .orphaned, orphanedAt := some at_, removalWarnedAt := none } else n

def unorphaned (n : NamespaceRecord) : NamespaceRecord :=
  if n.state = .orphaned then { n with state := .bound, orphanedAt := none, removalWarnedAt := none } else n

def Adjustment.apply (a : Adjustment) (n : NamespaceRecord) : NamespaceRecord :=
  { n with
    managed := a.managed
    pin := a.pin
    requiredWorkflow := a.requiredWorkflow
    capabilities := a.capabilities }

def repoKeyText (key : RepoKey) : Bytes := key.1 ++ 35 :: ascii (toString key.2)

-- `store.finish_job`: the ledger and the outbox in one transaction.
def World.finishJob (w : World) (id : Bytes) (result : ResultPayload) (at_ : Int) : Bool × World :=
  match w.jobs.lookup id with
  | none => (false,w)
  | some r =>
    if r.state = .finished then (false,w)
    else (true,{ w with
      jobs := w.jobs.insert id (r.finish result at_)
      outbox := w.outbox.insert (.result id) { content := .result result } })

-- One question answered, `outside` by whom the store does not. A `state` is
-- 256 bits from the random numbers: none is used twice.
def answer (outside : (q : Query) → q.Answer) : (q : Query) → World → Option (q.Answer × World)
  | .getJob id,w => some (w.jobs.lookup id,w)
  | .newJob id r,w => some ((w.jobs.putNew id r).1,{ w with jobs := (w.jobs.putNew id r).2 })
  | .waitJob id next,w =>
    some ((),{ w with jobs := w.jobs.update id (·.map fun r => { r with state := .waiting, next := some next }) })
  | .startJob id,w => some ((),{ w with jobs := w.jobs.update id (·.map fun r => { r with state := .running }) })
  | .finishJob id result at_,w => some ((w.finishJob id result at_).1,(w.finishJob id result at_).2)
  | .isWaiting id,w => some ((w.jobs.lookup id).any (·.state = .waiting),w)
  | .deleteJob id,w => some ((w.jobs.lookup id).isSome,{ w with jobs := w.jobs.erase id })
  | .listJobs,w => some (listed id w.jobs.rows,w)
  | .getNamespace id,w => some (w.namespaces.lookup id,w)
  | .isOrphaned id,w => some ((w.namespaces.lookup id).any (·.state = .orphaned),w)
  | .newNamespace id n,w => some ((w.namespaces.putNew id n).1,{ w with namespaces := (w.namespaces.putNew id n).2 })
  | .putNamespace id n,w => some ((),{ w with namespaces := w.namespaces.insert id n })
  | .orphan id at_,w =>
    some ((w.namespaces.lookup id).any (·.state = .bound),
      { w with namespaces := w.namespaces.update id (·.map (orphaned at_)) })
  | .unorphan id,w =>
    some ((w.namespaces.lookup id).any (·.state = .orphaned),
      { w with namespaces := w.namespaces.update id (·.map unorphaned) })
  | .adjust id change,w => some ((),{ w with namespaces := w.namespaces.update id (·.map change.apply) })
  | .warnRemoval id at_,w =>
    some ((),{ w with namespaces := w.namespaces.update id (·.map fun n => { n with removalWarnedAt := some at_ }) })
  | .deleteNamespace id,w => some ((w.namespaces.lookup id).isSome,{ w with namespaces := w.namespaces.erase id })
  | .listNamespaces,w => some (listed id w.namespaces.rows,w)
  | .sameOwner new,w => some (((listed id w.namespaces.rows).map (·.2)).filter (Earlier · new),w)
  | .listRepos,w => some (listed repoKeyText w.repos.rows,w)
  | .moveRepo key ns,w =>
    some ((w.repos.lookup key).map (moved ns),{ w with repos := w.repos.update key (·.map (moved ns)) })
  | .setRepo key r,w => some ((),{ w with repos := w.repos.put key r })
  | .deleteRepo key,w => some ((w.repos.lookup key).isSome,{ w with repos := w.repos.erase key })
  | .getFlow state,w => some (w.pending.lookup state,w)
  | .putFlow state flow,w =>
    if state ∈ w.states then none
    else some ((),{ w with pending := w.pending.insert state flow, states := state :: w.states })
  | .takeFlow state,w => some (w.pending.lookup state,{ w with pending := w.pending.erase state })
  | .deleteFlow state _,w => some ((w.pending.lookup state).isSome,{ w with pending := w.pending.erase state })
  | .listFlows,w => some (listed id w.pending.rows,w)
  | .getEntry key,w => some (w.outbox.lookup key,w)
  | .putEntry key e,w => some ((),{ w with outbox := w.outbox.insert key e })
  | .newEntry key e,w => some ((w.outbox.putNew key e).1,{ w with outbox := (w.outbox.putNew key e).2 })
  | .noteSent key docId at_,w =>
    some ((),{ w with outbox := w.outbox.update key (·.map fun e => e.noteSent docId at_) })
  | .refreshEntry key payload,w =>
    some ((),{ w with outbox := w.outbox.update key (·.map fun e => { e with content := .event payload }) })
  | .deleteEntry key,w => some ((w.outbox.lookup key).isSome,{ w with outbox := w.outbox.erase key })
  | .listEntries,w => some (listed OutboxKey.text w.outbox.rows,w)
  | .retire id r,w => some ((),{ w with retired := w.retired.insert id r })
  | .isRetired id,w => some ((w.retired.lookup id).isSome,w)
  | .putDeviceCode state code,w => some ((),{ w with deviceCodes := w.deviceCodes.insert state code })
  | .getDeviceCode state,w => some (w.deviceCodes.lookup state,w)
  | .deleteDeviceCode state,w => some ((),{ w with deviceCodes := w.deviceCodes.erase state })
  | .spawn h,w => some ((),{ w with spawned := h :: w.spawned })
  | .lock ns,w => if ns ∈ w.locked then none else some ((),{ w with locked := ns :: w.locked })
  | .unlock ns,w => some ((),{ w with locked := w.locked.erase ns })
  | .send content,w => some ((),{ w with sent := w.sent ++ [content] })
  | .linkAdapter ns host,w =>
    some ((w.namespaces.lookup ns).any (·.resource.host = host) && outside (.linkAdapter ns host),w)
  | .now,w => some (outside .now,w)
  | .past at_,w => some (outside (.past at_),w)
  | .newId,w => some (outside .newId,w)
  | .newState,w => some (outside .newState,w)
  | .flush,w => some (outside .flush,w)
  | .sign content,w => some (outside (.sign content),w)
  | .answer _,w => some ((),w)
  | .adapter r,w => some (outside (.adapter r),w)
  | .capabilities r binding,w => some (outside (.capabilities r binding),w)
  | .beginBind r state,w => some (outside (.beginBind r state),w)
  | .completeBind r state,w => some (outside (.completeBind r state),w)
  | .beginAccountLink member,w => some (outside (.beginAccountLink member),w)
  | .completeAccountLink state code,w => some (outside (.completeAccountLink state code),w)
  | .restoreAdapter n,w => some (outside (.restoreAdapter n),w)
  | .roleMap n,w => some (outside (.roleMap n),w)
  | .jobWork payload,w => some (outside (.jobWork payload),w)
  | .registered host owner,w => some (outside (.registered host owner),w)
  | .exchangeCode host owner,w => some (outside (.exchangeCode host owner),w)
  | .checkNext next,w => some (outside (.checkNext next),w)
  | .checkResult jobId report,w => some (outside (.checkResult jobId report),w)
  | .checkEvent ns event,w => some (outside (.checkEvent ns event),w)
  | .status ns,w => some (outside (.status ns),w)

end VerifiableGit.Service
