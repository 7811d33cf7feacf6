import VerifiableGit.Service.Requests

-- The bridge core (bridge.rs, rolemap.rs): the outbox, events, results and role
-- maps.
namespace VerifiableGit.Service
open Text Library Library.Interaction
open Governance (Resource NamespaceRecord NamespaceState RepoRecord RepoKey ForgeAccount Report sameIgnoringCase)

structure Cfg where
  flowTtlSecs : Int := 3600
  resendSecs : Int := 30
  orphanRetentionDays : Int := 30
  -- the `[[github]]` entries: host and App owner
  github : List (Bytes × Bytes) := []

def Cfg.githubOn (cfg : Cfg) (host : Bytes) : Bool := cfg.github.any (·.1 = host)

def Cfg.githubFor (cfg : Cfg) (host owner : Bytes) : Option (Bytes × Bytes) :=
  cfg.github.find? fun g => g.1 = host && sameIgnoringCase g.2 owner

def isOrphaned (ns : Bytes) : Code Bool := request (.isOrphaned ns)

-- `mapping::outside_namespace`: a resource that does not parse counts as outside.
def outsideNamespace (ns : Option Resource) (names : List (Option Resource)) : Bool :=
  names.any fun r => !r.any fun r => ns.any (·.contains r)

def eventOutboxPayload (ns : Bytes) (event : EventBody) (drift : List (Option Resource)) :
    Code (Except Bytes (Option EventPayload)) := do
  let n : Option NamespaceRecord ← request (.getNamespace ns)
  if outsideNamespace (n.map (·.resource)) (event.names ++ drift) then pure (.ok none)
  else
    let fits : Bool ← request (.checkEvent ns event)
    if fits then
      let ext : Option Bytes ← request (.status ns)
      pure (.ok (some ⟨ns,event,drift,ext⟩))
    else pure (.error (ascii "building the event"))

-- `rolemap::event`
def roleMapEvent (n : NamespaceRecord) : Code (Option EventBody) :=
  if n.state = .bound ∧ n.binding.isSome then do
    let report : Option RoleMapReport ← request (.roleMap n)
    pure (report.map (·.event))
  else pure none

def roleMapPayload (ns : Bytes) : Code (Option EventPayload) := do
  let n : Option NamespaceRecord ← request (.getNamespace ns)
  match n with
  | none => pure none
  | some n =>
    let event ← roleMapEvent n
    match event with
    | none => pure none
    | some event =>
      let payload ← eventOutboxPayload ns event []
      pure (payload.toOption.bind id)

def refreshRoleMapEntry (ns : Bytes) : Code Bool := do
  let fresh ← roleMapPayload ns
  match fresh with
  | some payload =>
    request (.refreshEntry (.roleMap ns) payload)
    pure true
  | none =>
    let _ ← request (.deleteEntry (.roleMap ns))
    pure false

def sendContent (key : OutboxKey) (content : Content) : Code Unit := do
  let flushed : Bool ← request .flush
  if flushed then
    let signed : Option Bytes ← request (.sign content)
    match signed with
    | none => pure ()
    | some docId =>
      let at_ : Int ← request .now
      request (.noteSent key docId at_)
      request (.send content)
  else pure ()

def sendEntry (key : OutboxKey) : Code Unit := do
  let entry : Option OutboxEntry ← request (.getEntry key)
  match entry with
  | none => pure ()
  | some e =>
    match e.content with
    | .result p => sendContent key (.result p)
    | .event p =>
      let gone ← isOrphaned p.ns
      if gone then
        let _ ← request (.deleteEntry key)
        pure ()
      else sendContent key (.event p)

def sendOutbox : OutboxKey → Code Unit
  | .roleMap ns => do
    let fresh ← refreshRoleMapEntry ns
    if fresh then sendEntry (.roleMap ns) else pure ()
  | .result id => sendEntry (.result id)
  | .event id => sendEntry (.event id)

def eventKey : Option OutboxKey → Code OutboxKey
  | some key => pure key
  | none => do
    let id : Bytes ← request .newId
    pure (.event id)

def sendEventKeyed (ns : Bytes) (event : EventBody) (drift : List (Option Resource)) (key : Option OutboxKey) :
    Code (Except Bytes Unit) := do
  let gone ← isOrphaned ns
  if gone then pure (.ok ())
  else
    let payload ← eventOutboxPayload ns event drift
    match payload with
    | .error e => pure (.error e)
    | .ok none => pure (.ok ())
    | .ok (some payload) =>
      let key ← eventKey key
      request (.putEntry key { content := .event payload })
      sendOutbox key
      pure (.ok ())

def sendEvent (ns : Bytes) (event : EventBody) (drift : List (Option Resource)) : Code (Except Bytes Unit) :=
  sendEventKeyed ns event drift none

def reportRoleMap (ns : Bytes) : Code Unit := do
  let n : Option NamespaceRecord ← request (.getNamespace ns)
  match n with
  | none => pure ()
  | some n =>
    let event ← roleMapEvent n
    match event with
    | none => pure ()
    | some event =>
      let _ ← sendEventKeyed ns event [] (some (.roleMap ns))
      pure ()

def startedServing (ns : Bytes) : Code Unit := reportRoleMap ns

def reportRoleMaps : Code Unit := do
  let all : List (Bytes × NamespaceRecord) ← request .listNamespaces
  .each (fun n => if n.2.state = .bound then reportRoleMap n.2.id else pure ()) all

def backoff (cfg : Cfg) (e : OutboxEntry) : Int := min (cfg.resendSecs * 2 ^ min e.attempts 6) 3600

def resendMatching (cfg : Cfg) (all : Bool) (pick : OutboxKey → Bool) : Code Unit := do
  let entries : List (OutboxKey × OutboxEntry) ← request .listEntries
  let now : Int ← request .now
  .each (fun e =>
    if pick e.1 && (all || decide (e.2.lastSent + backoff cfg e.2 ≤ now)) then sendOutbox e.1 else pure ()) entries

def resendUnacknowledged (cfg : Cfg) (all : Bool) : Code Unit := resendMatching cfg all fun _ => true

def linkUp (cfg : Cfg) : Code Unit := do
  resendMatching cfg true (!·.isRoleMap)
  reportRoleMaps

def invalidResult : Report :=
  { failure := some (ascii "forgeError",ascii "the bridge produced an invalid result") }

-- `outcome` follows from the steps and the error, as the error's default does.
def toResult (report : Report) (jobId : Bytes) (ext : Option Bytes) : ResultPayload :=
  let failed := report.failure.isSome || report.steps.any (·.status = .failed)
  { jobId := jobId
    steps := report.steps
    error := if failed then some (report.failure.getD (ascii "forgeError",ascii "a step failed; see steps")) else none
    ext := ext }

def statusOf (job : Option JobRecord) : Code (Option Bytes) :=
  match job with
  | none => pure none
  | some j => request (.status j.ns)

def finishJob (jobId : Bytes) (report : Report) : Code Unit := do
  let fits : Bool ← request (.checkResult jobId report)
  let job : Option JobRecord ← request (.getJob jobId)
  let ext ← statusOf job
  let at_ : Int ← request .now
  let closed : Bool ← request (.finishJob jobId (toResult (if fits then report else invalidResult) jobId ext) at_)
  if closed then sendOutbox (.result jobId) else pure ()

def failure (code message : Bytes) : Report := { failure := some (code,message) }

def onResultAck (jobId : Bytes) : Code Unit := do
  let _ ← request (.deleteEntry (.result jobId))
  pure ()

-- The first entry sent as the document `thread`.
def threaded (thread : Bytes) (entries : List (OutboxKey × OutboxEntry)) : Option (OutboxKey × OutboxEntry) :=
  entries.find? fun e => thread ∈ e.2.docIds

def clearOutboxThread (thread : Bytes) : Code (Option OutboxEntry) := do
  let entries : List (OutboxKey × OutboxEntry) ← request .listEntries
  match threaded thread entries with
  | none => pure none
  | some e =>
    let _ ← request (.deleteEntry e.1)
    pure (some e.2)

def onEventAck : Option Bytes → Code Unit
  | none => pure ()
  | some thread => do
    let _ ← clearOutboxThread thread
    pure ()

end VerifiableGit.Service
