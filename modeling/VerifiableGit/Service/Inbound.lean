import VerifiableGit.Service.Flows

-- Jobs and refusals from the VTC, restarts and the background ticks (bridge.rs),
-- and what runs for each of them.
namespace VerifiableGit.Service
open Text Library Library.Interaction
open Governance (Resource NamespaceRecord NamespaceState RepoRecord Report)

def malformed : Bytes := ascii "malformedRequest"
def unknownNamespaceCode : Bytes := ascii "git-ns:unknownNamespace"
def unknownJobCode : Bytes := ascii "git-ns/bridge/result:unknownJob"
def notCapableCode : Bytes := ascii "git-ns/bridge/job:notCapable"

-- A refusal at request time: its code and message.
abbrev Refusal := Bytes × Bytes

def admitBind (ns : Bytes) (target : Except Bytes Resource) : Code (Except Refusal Unit) := do
  let retired : Bool ← request (.isRetired ns)
  if retired then
    pure (.error (malformed,ascii "namespace id `" ++ ns ++
      ascii "` was retired when its owner was bound again; a namespace id is never reused"))
  else
    match target with
    | .error e => pure (.error (malformed,e))
    | .ok resource => do
      let served : Bool ← request (.adapter resource)
      if served then
        let existing : Option NamespaceRecord ← request (.getNamespace ns)
        match existing.filter (·.resource ≠ resource) with
        | none => pure (.ok ())
        | some existing => pure (.error (malformed,ascii "namespace `" ++ ns ++ ascii "` is already `" ++
            existing.resource.asStr ++ ascii "`; a namespace id is never reused"))
      else pure (.error (notCapableCode,ascii "this bridge serves no forge at `" ++ resource.host ++ ascii "`"))

def refuseRepo (n : NamespaceRecord) : Option (Except Bytes Resource) → Option Refusal
  | none => none
  | some (.error e) => some (malformed,e)
  | some (.ok repo) =>
    if n.resource.contains repo && !repo.isNamespace then none
    else some (unknownNamespaceCode,ascii "`" ++ repo.asStr ++ ascii "` is not in namespace `" ++ n.id ++ ascii "` (`" ++
      n.resource.asStr ++ ascii "`)")

def refuseCapability (kind : JobKind) (caps : Capabilities) : Option Refusal :=
  match kind with
  | .beginAccountLink _ =>
    if caps.accountLink then none else some (notCapableCode,ascii "this forge has no account link")
  | .createRepo _ =>
    if !caps.botCanCreateRepos then
      some (notCapableCode,ascii "the bridge cannot create repositories in this namespace (a personal " ++
        ascii "account, or manual mode); the account holder creates it and the VTC adopts it")
    else if caps.automation then none
    else some (notCapableCode,ascii "this namespace is in manual mode: nothing acts on the forge")
  | _ =>
    if caps.automation then none
    else some (notCapableCode,ascii "this namespace is in manual mode: nothing acts on the forge")

def admitBound (p : JobPayload) : Code (Except Refusal Unit) := do
  let n : Option NamespaceRecord ← request (.getNamespace p.ns)
  match n.filter (·.isBound) with
  | none => pure (.error (unknownNamespaceCode,Governance.unknownNamespace p.ns))
  | some n => do
    let served : Bool ← request (.adapter n.resource)
    if !served then
      pure (.error (notCapableCode,ascii "the adapter for `" ++ n.resource.host ++ ascii "` is not in service"))
    else
      match refuseRepo n p.kind.repo with
      | some e => pure (.error e)
      | none =>
        match p.removeAccounts.find? fun a => a.forge ≠ n.resource.host with
        | some a => pure (.error (malformed,ascii "`removeAccounts` names account " ++ a.id ++ ascii " on `" ++ a.forge ++
            ascii "`; namespace `" ++ p.ns ++ ascii "` is on `" ++ n.resource.host ++ ascii "`"))
        | none => do
          let caps : Capabilities ← request (.capabilities n.resource n.binding)
          match refuseCapability p.kind caps with
          | some e => pure (.error e)
          | none => pure (.ok ())

-- `admit`
def admitJob (p : JobPayload) : Code (Except Refusal Unit) :=
  match p.kind with
  | .beginBind target => admitBind p.ns target
  | _ => admitBound p

def respond (jobId : Bytes) (accepted : Bool) (next : Option Next) : Code Unit :=
  request (.answer (.response jobId accepted next))

def sendError (e : Refusal) : Code Unit := request (.answer (.error e.1 e.2))

-- A job already held is answered from the ledger, and a result sent again.
def answerAgain (doc : JobDoc) (jobId : Bytes) (existing : JobRecord) : Code Unit :=
  if existing.digest = doc.digest then
    if existing.state = .finished then do
      respond jobId false none
      match existing.result with
      | none => pure ()
      | some result => do
        let _ ← request (.newEntry (.result jobId) { content := .result result })
        pure ()
      sendOutbox (.result jobId)
    else respond jobId true existing.next
  else sendError (ascii "git-ns/bridge/job:jobIdReused",
    ascii "this bridge already holds a job with this jobId and other content")

def beginFlow (cfg : Cfg) (p : JobPayload) : Code (Except Report Next) := do
  let now : Int ← request .now
  match p.kind with
  | .beginBind target => beginBind p.jobId p.ns target (now + cfg.flowTtlSecs)
  | .beginAccountLink member => beginAccountLink p.jobId p.ns member (now + cfg.flowTtlSecs)
  | _ => pure (.error {})

def JobKind.begins : JobKind → Bool
  | .beginBind _ | .beginAccountLink _ => true
  | _ => false

-- After the job is in the ledger. That it waits is recorded when the flow has
-- already been put, and to a device flow's poll already given.
def startKind (cfg : Cfg) (p : JobPayload) : Code Unit :=
  if p.kind.begins then do
    let begun ← beginFlow cfg p
    match begun with
    | .ok next => do
      request (.waitJob p.jobId next)
      respond p.jobId true (some next)
    | .error report => do
      respond p.jobId true none
      finishJob p.jobId report
  else do
    respond p.jobId true none
    request (.spawn (.runJob p.jobId))

def queuedRecord (doc : JobDoc) (p : JobPayload) (now : Int) : JobRecord :=
  { JobRecord.queued p.jobId doc.digest p.ns p.kind.text p now with issuedAt := doc.issuedAt }

def admitted (cfg : Cfg) (doc : JobDoc) (p : JobPayload) : Code Bool := do
  let now : Int ← request .now
  let new : Bool ← request (.newJob p.jobId (queuedRecord doc p now))
  if new then do
    startKind cfg p
    pure true
  else pure false

def onJob (cfg : Cfg) (doc : JobDoc) : Code Unit :=
  match doc.payload with
  | .error e => sendError (malformed,e)
  | .ok p => do
    let existing : Option JobRecord ← request (.getJob p.jobId)
    match existing with
    | some existing => answerAgain doc p.jobId existing
    | none => do
      let revived : Bool ← request (.unorphan p.ns)
      let refused ← admitJob p
      match refused with
      | .error e => do
        sendError e
        if revived then startedServing p.ns else pure ()
      | .ok _ => do
        let new ← admitted cfg doc p
        if new && revived then startedServing p.ns else pure ()

def workOne (ns : Bytes) : WorkAct → Code Unit
  | .event body drift => do
    let _ ← sendEvent ns body drift
    pure ()
  | .adjust change => request (.adjust ns change)
  | .repo key record => request (.setRepo key record)

def work (ns : Bytes) (acts : List WorkAct) : Code Unit := .each (workOne ns) acts

-- `jobs::run`; without a report it never returns.
def runWork (p : JobPayload) : Code (Option Report) := do
  let ctx ← loadCtx p.ns
  match ctx with
  | .error m => pure (some (failure (ascii "notCapable") m))
  | .ok _ =>
    if p.kind.begins then
      pure (some (failure (ascii "notCapable") (ascii "`" ++ p.kind.text ++ ascii "` is not run here")))
    else do
      let done : JobWork ← request (.jobWork p)
      work p.ns done.acts
      pure done.report

def runPayload (jobId ns : Bytes) (p : JobPayload) : Code Unit := do
  request (.lock ns)
  request (.startJob jobId)
  let report ← runWork p
  match report with
  | none => pure ()
  | some report => finishJob jobId report
  request (.unlock ns)

def couldNotRun (why : Bytes) : Report :=
  failure (ascii "forgeError") (ascii "the bridge could not run the job: " ++ why)

def runJob (jobId : Bytes) : Code Unit := do
  let record : Option JobRecord ← request (.getJob jobId)
  match record with
  | none => finishJob jobId (couldNotRun (ascii "the job is not in the ledger"))
  | some r =>
    if r.state = .finished then pure ()
    else
      match r.payload with
      | none => finishJob jobId (couldNotRun (ascii "the job's payload is gone"))
      | some p => runPayload jobId r.ns p

-- `on_error_response`
def onRefusal (code : Bytes) (thread : Option Bytes) : Code Unit :=
  if code = unknownJobCode then do
    let _ ← clearOutboxThread (thread.getD [])
    pure ()
  else if code = unknownNamespaceCode then do
    let entry ← clearOutboxThread (thread.getD [])
    match entry with
    | none => pure ()
    | some e =>
      match e.content with
      | .result _ => pure ()
      | .event p => if thread.getD [] = [] then pure () else orphanNamespace p.ns
  else pure ()

def restoreJobs : Code Unit := do
  let jobs : List (Bytes × JobRecord) ← request .listJobs
  .each (fun j =>
    if j.2.state = .queued ∨ j.2.state = .running then request (.spawn (.runJob j.1)) else pure ()) jobs

def restore (cfg : Cfg) : Code Unit := do
  let all : List (Bytes × NamespaceRecord) ← request .listNamespaces
  .each (fun n => do let _ ← request (.restoreAdapter n.2); pure ()) all
  restoreJobs
  resumeDevicePolls
  linkUp cfg

def pruneOne (now : Int) (j : Bytes × JobRecord) : Code Unit := do
  let entry : Option OutboxEntry ← request (.getEntry (.result j.1))
  if j.2.state = .finished ∧ entry.isNone ∧ j.2.finishedAt.any (fun t => 30 * day < now - t) then do
    let _ ← request (.deleteJob j.1)
    pure ()
  else pure ()

def maintenance (cfg : Cfg) : Code Unit := do
  let now : Int ← request .now
  let jobs : List (Bytes × JobRecord) ← request .listJobs
  .each (pruneOne now) jobs
  sweepOrphaned cfg

def code (cfg : Cfg) : Handler → Code Unit
  | .job doc => onJob cfg doc
  | .runJob jobId => runJob jobId
  | .bindCallback host routeOwner state => do
    let _ ← bindCallback cfg host routeOwner state
    pure ()
  | .linkCallback host state => linkCallback host state
  | .pollDevice state => pollDevice state
  | .expire => expire
  | .resend all => resendUnacknowledged cfg all
  | .linkUp => linkUp cfg
  | .restore => restore cfg
  | .maintenance => maintenance cfg
  | .resultAck jobId => onResultAck jobId
  | .eventAck thread => onEventAck thread
  | .refusal code thread => onRefusal code thread
  | .work ns acts => work ns acts
  | .forget ns => forget ns
  | .offerRegistrations => offerRegistrations cfg
  | .manifestCallback host owner state => manifestCallback cfg host owner state

-- Handlers the bridge starts itself; any other comes from outside, at any time.
def Handler.own : Handler → Bool
  | .runJob _ | .pollDevice _ | .restore => true
  | _ => false

def enter (h : Handler) (w : World) : Option World :=
  if h.own then
    if h ∈ w.spawned then some { w with spawned := w.spawned.erase h } else none
  else some w

-- The process stops and is started again.
def crash (w : World) : World := { w with locked := [], spawned := [.restore] }

-- The callbacks run inside the requests a browser makes: one that hangs up takes
-- its callback with it, wherever that awaits. Every other handler is a task of its
-- own.
def Handler.onRoute : Handler → Bool
  | .bindCallback _ _ _ | .linkCallback _ _ | .manifestCallback _ _ _ => true
  | _ => false

def Query.awaited : Query → Bool
  | .flush | .sign _ | .send _ | .completeBind _ _ | .completeAccountLink _ _ | .exchangeCode _ _ => true
  | _ => false

def bridge (cfg : Cfg) : Crew Handler Query Query.Answer World where
  code := code cfg
  serve := fun q w r t => ∃ outside, answer outside q w = some (r,t)
  enter := fun h w t => enter h w = some t
  crash := fun w t => ∃ codes, t = { crash w with deviceCodes := codes }
  awaited := fun h q => h.onRoute ∧ q.awaited

abbrev State := Config Handler Query Query.Answer World

def empty : World := { spawned := [.restore] }

-- A bridge just installed, with nothing in its store.
def fresh : State := (empty,fun _ => ⟨.restore,[],.done ()⟩)

-- An outside that lets everything go through at time zero, under the id or
-- `state` given. What the store answers is not asked of it.
def calm (id : Bytes) : (q : Query) → q.Answer
  | .newJob _ _ | .finishJob _ _ _ | .isWaiting _ | .deleteJob _ | .isOrphaned _ | .newNamespace _ _ | .orphan _ _ | .unorphan _
  | .deleteNamespace _ | .deleteRepo _ | .deleteFlow _ _ | .newEntry _ _ | .deleteEntry _ | .isRetired _ => false
  | .waitJob _ _ | .startJob _ | .putNamespace _ _ | .adjust _ _ | .warnRemoval _ _ | .setRepo _ _ | .putFlow _ _
  | .putEntry _ _ | .noteSent _ _ _ | .refreshEntry _ _ | .retire _ _ | .putDeviceCode _ _ | .deleteDeviceCode _
  | .spawn _ | .lock _ | .unlock _ | .send _ | .answer _ => ()
  | .getJob _ | .getNamespace _ | .moveRepo _ _ | .getFlow _ | .takeFlow _ | .getEntry _ | .getDeviceCode _
  | .roleMap _ | .checkNext _ | .status _ => none
  | .listJobs | .listNamespaces | .sameOwner _ | .listRepos | .listFlows | .listEntries => []
  | .past _ | .registered _ _ | .exchangeCode _ _ => false
  | .flush | .adapter _ | .linkAdapter _ _ | .restoreAdapter _ | .checkResult _ _ | .checkEvent _ _ => true
  | .now => (0 : Int)
  | .newId | .newState => id
  | .sign _ => some id
  | .capabilities _ _ => ({} : Capabilities)
  | .beginBind _ _ => .ok (.redirect (ascii "https://forge"))
  | .completeBind _ _ => .ok { ownerId := some 1 }
  | .beginAccountLink _ => .ok (.deviceCode [] [] (ascii "https://forge") 60 1)
  | .completeAccountLink _ _ => .error (.linkFailed (ascii "denied"))
  | .jobWork _ => ({} : JobWork)

theorem bridge_plays (cfg : Cfg) : Plays (code cfg) answer enter crash (bridge cfg) where
  code := rfl
  serve := fun outside _ _ _ _ answered => ⟨outside,answered⟩
  enter := fun _ _ _ entered => entered
  crash := fun w => ⟨w.deviceCodes,rfl⟩

theorem fresh_idle (n : Nat) : Idle .restore n fresh := fun _ _ => rfl

-- A bind job, and an outside where the forge refuses it.
namespace Sample

def acme : Resource := { host := ascii "h", owner := ascii "acme", rest := [] }
def j1 : Bytes := ascii "j1"
def j2 : Bytes := ascii "j2"
def j3 : Bytes := ascii "j3"
def n1 : Bytes := ascii "n1"
def n2 : Bytes := ascii "n2"

def bindJob (jobId ns : Bytes) (r : Resource) : JobDoc :=
  { payload := .ok { jobId := jobId, ns := ns, kind := .beginBind (.ok r) }, digest := jobId }

def linkJob (jobId ns member : Bytes) : JobDoc :=
  { payload := .ok { jobId := jobId, ns := ns, kind := .beginAccountLink member }, digest := jobId }

def refusing (id : Bytes) : (q : Query) → q.Answer
  | .beginBind _ _ => .error (ascii "forgeError",ascii "no")
  | q => calm id q

-- Every flow has expired when its callback comes.
def late (id : Bytes) : (q : Query) → q.Answer
  | .past _ => true
  | q => calm id q

-- Task 0, the only one that acts, has nothing left to do.
def rests (c : State) : Bool :=
  match (c.2 0).prog with
  | .done _ => true
  | .call _ _ => false

theorem all_rest {c : State} (idle : Idle .restore 1 c) (done : rests c) (i : Nat) : (c.2 i).prog = .done () := by
  cases i with
  | zero =>
    simp only [rests] at done
    cases prog : (c.2 0).prog with
    | done u => rfl
    | call q next =>
      rw [prog] at done
      cases done
  | succ i => rw [idle (i + 1) (by omega)]

theorem played_alone {c : State} (cfg : Cfg) (run : (bridge cfg).Run (fun _ act => act.below 1) fresh c) :
    (bridge cfg).Run (fun _ _ => True) fresh c ∧ Idle .restore 1 c :=
  run_under (fun _ _ _ below step idle => idle_step below step idle) (fun _ _ _ _ => trivial) run (fresh_idle 1)

-- Handled to its end by task `i`, all its questions answered by `outside`.
def whole (i : Nat) (h : Handler) (outside : (q : Query) → q.Answer) : List (Move Handler ((q : Query) → q.Answer)) :=
  [.enter i h,.finish i 100 outside]

end Sample

end VerifiableGit.Service
