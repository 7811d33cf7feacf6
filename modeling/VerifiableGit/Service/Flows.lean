import VerifiableGit.Service.Namespaces
import VerifiableGit.Governance.Jobs

-- Flows that wait for a person (flows.rs).
namespace VerifiableGit.Service
open Text Library Library.Interaction
open Governance (Resource NamespaceRecord NamespaceState RepoRecord ForgeAccount Report StepStatus sameIgnoringCase
  namespaceRepo)

def notServed (r : Resource) : Report :=
  failure (ascii "notCapable") (ascii "namespace `" ++ r.asStr ++
    ascii "` is not bound to this bridge; bind it before managing its repositories")

def protocolError (shown : Bytes) : Report := failure (ascii "forgeError") (ascii "unexpected forge response: " ++ shown)

-- The response's `next`, unless the wire type refuses it.
def nextOf (url : Bytes) (userCode : Option Bytes) (expiresAt : Int) : Code (Except Report Next) := do
  let next : Next := ⟨url,userCode,expiresAt⟩
  let bad : Option Bytes ← request (.checkNext next)
  match bad with
  | none => pure (.ok next)
  | some e => pure (.error (failure (ascii "forgeError") (ascii "the forge's link is not a valid `next` (" ++ e ++ ascii ")")))

def beginBind (jobId ns : Bytes) (target : Except Bytes Resource) (expiresAt : Int) : Code (Except Report Next) :=
  match target with
  | .error e => pure (.error (failure (ascii "forgeError") e))
  | .ok resource => do
    let served : Bool ← request (.adapter resource)
    if served then
      let _ ← request (.newNamespace ns (pendingNamespace ns resource))
      let state : Bytes ← request .newState
      let step : Except Failure BindStep ← request (.beginBind resource state)
      match step with
      | .error e => pure (.error (failure e.1 e.2))
      | .ok (.other shown) => pure (.error (protocolError shown))
      | .ok (.redirect url) => do
        request (.putFlow state (.bind jobId ns resource expiresAt))
        nextOf url none expiresAt
    else pure (.error (notServed resource))

-- `Ctx::load`: the namespace is bound and its adapter in service.
def loadCtx (ns : Bytes) : Code (Except Bytes NamespaceRecord) := do
  let n : Option NamespaceRecord ← request (.getNamespace ns)
  match n.filter (·.isBound) with
  | none => pure (.error (Governance.unknownNamespace ns))
  | some n => do
    let served : Bool ← request (.adapter n.resource)
    if served then pure (.ok n) else pure (.error (ascii "no adapter for `" ++ n.resource.host ++ ascii "`"))

def beginDevice (jobId ns host member code userCode uri : Bytes) (expiresIn interval : Nat) :
    Code (Except Report Next) := do
  let state : Bytes ← request .newState
  let now : Int ← request .now
  let next ← nextOf uri (some userCode) (now + expiresIn)
  match next with
  | .error r => pure (.error r)
  | .ok next => do
    request (.putDeviceCode state code)
    request (.putFlow state (.link jobId ns host member (now + expiresIn) (some ⟨interval,expiresIn⟩)))
    request (.spawn (.pollDevice state))
    pure (.ok next)

def beginAccountLink (jobId ns member : Bytes) (expiresAt : Int) : Code (Except Report Next) := do
  let ctx ← loadCtx ns
  match ctx with
  | .error m => pure (.error (failure (ascii "notCapable") m))
  | .ok n => do
    let step : Except Failure LinkStep ← request (.beginAccountLink member)
    match step with
    | .error e => pure (.error (failure e.1 e.2))
    | .ok (.other shown) => pure (.error (protocolError shown))
    | .ok (.deviceCode code userCode uri expiresIn interval) =>
      beginDevice jobId ns n.resource.host member code userCode uri expiresIn interval
    | .ok (.redirect _ none) => pure (.error (protocolError (ascii "link URL carries no state")))
    | .ok (.redirect url (some state)) => do
      let next ← nextOf url none expiresAt
      match next with
      | .error r => pure (.error r)
      | .ok next => do
        request (.putFlow state (.link jobId ns n.resource.host member expiresAt none))
        pure (.ok next)

-- The flow is deleted before anything is checked of it.
def take (state : Bytes) : Code (Except Bytes PendingFlow) := do
  let flow : Option PendingFlow ← request (.takeFlow state)
  match flow with
  | none => pure (.error (ascii "this link is unknown, used, or expired"))
  | some flow => do
    let expired : Bool ← request (.past flow.expiresAt)
    if expired then pure (.error (ascii "this link has expired; start again")) else pure (.ok flow)

-- A GitHub App's setup redirect names its owner; Forgejo's redirect names none.
def rightRoute (cfg : Cfg) (host : Bytes) (routeOwner : Option Bytes) (r : Resource) : Bool :=
  r.host = host &&
    match routeOwner with
    | some o => (cfg.githubFor host r.owner).any fun g => sameIgnoringCase g.2 o
    | none => !cfg.githubOn host

def boundRecord (ns : Bytes) (resource : Resource) (binding : Binding) (existing : Option NamespaceRecord) :
    NamespaceRecord :=
  { existing.getD (pendingNamespace ns resource) with
    state := .bound
    requiredWorkflow := binding.requiredWorkflow
    capabilities := some (binding.requiredWorkflow.getD binding.capable)
    binding := some (binding.record resource) }

def reportMoved (ns : Bytes) : List RepoRecord → Code (Except Bytes Unit)
  | [] => pure (.ok ())
  | r :: rest =>
    if r.archived || namespaceRepo r.resource then reportMoved ns rest
    else do
      let sent ← sendEvent ns (.repoCreatedUnmanaged r.forgeId r.resource) []
      match sent with
      | .error e => pure (.error e)
      | .ok _ => reportMoved ns rest

def bindReport (binding : Binding) : Report :=
  if binding.missingPermissions = [] then {}
  else Governance.StepReport.step {} (ascii "permissions") .unchanged
    (some (ascii "the installation lacks: " ++ (ascii ", ").intercalate binding.missingPermissions))

def bindCompleted (jobId : Bytes) (binding : Binding) (superseded : List Bytes) : EventBody :=
  .bindCompleted jobId ((binding.ownerId.map fun i => ascii (toString i)).getD [])
    (if binding.user then ascii "user" else ascii "organization") superseded

-- Once the forge has proved the bind.
def completeBind (jobId ns : Bytes) (resource : Resource) (binding : Binding) : Code (Except Bytes Unit) := do
  let existing : Option NamespaceRecord ← request (.getNamespace ns)
  let s ← supersede (boundRecord ns resource binding existing)
  request (.putNamespace ns s.new)
  let restored : Bool ← request (.restoreAdapter s.new)
  if restored then
    let sent ← sendEvent ns (bindCompleted jobId binding s.retired) []
    match sent with
    | .error e => pure (.error e)
    | .ok _ =>
      startedServing ns
      let sent ← reportMoved ns s.moved
      match sent with
      | .error e => pure (.error e)
      | .ok _ => do
        finishJob jobId (bindReport binding)
        pure (.ok ())
  else pure (.error (ascii "the adapter did not take the namespace"))

def bindCallback (cfg : Cfg) (host : Bytes) (routeOwner : Option Bytes) (state : Bytes) : Code (Except Bytes Unit) := do
  let flow ← take state
  match flow with
  | .error e => pure (.error e)
  | .ok (.link _ _ _ _ _ _) | .ok (.manifest _ _ _) => pure (.error (ascii "this link is not a namespace bind"))
  | .ok (.bind jobId ns resource _) =>
    if rightRoute cfg host routeOwner resource then
      let served : Bool ← request (.adapter resource)
      if served then
        let outcome : Except Failure Binding ← request (.completeBind resource state)
        match outcome with
        | .ok binding => completeBind jobId ns resource binding
        | .error e => do
          finishJob jobId (failure e.1 e.2)
          pure (.error (ascii "the bind did not complete: " ++ e.2))
      else pure (.error (ascii "that forge's adapter is not in service"))
    else pure (.error (ascii "this bind was started for another forge or organisation"))

def hasInfix (part text : Bytes) : Bool := text.tails.any part.isPrefixOf

def linkReport : LinkError → Report
  | .linkFailed m =>
    if hasInfix (ascii "expired") m then failure (ascii "expired") m
    else failure (ascii "forgeError") (ascii "account link failed: " ++ m)
  | .other code m => failure code m

def completeLink (jobId ns : Bytes) (outcome : Except LinkError ForgeAccount) : Code Unit :=
  match outcome with
  | .error e => finishJob jobId (linkReport e)
  | .ok account => do
    let sent ← sendEvent ns (.accountLinked jobId account) []
    match sent with
    | .error _ => pure ()
    | .ok _ => finishJob jobId {}

def linkCallback (host state : Bytes) : Code Unit := do
  let flow ← take state
  match flow with
  | .error _ | .ok (.bind _ _ _ _) | .ok (.manifest _ _ _) | .ok (.link _ _ _ _ _ (some _)) => pure ()
  | .ok (.link jobId ns flowHost _ _ none) =>
    if flowHost = host then
      let served : Bool ← request (.linkAdapter ns host)
      if served then
        let outcome : Except LinkError ForgeAccount ← request (.completeAccountLink state none)
        completeLink jobId ns outcome
      else pure ()
    else pure ()

-- Reads, and deletes only once the forge has answered.
def pollDevice (state : Bytes) : Code Unit := do
  let flow : Option PendingFlow ← request (.getFlow state)
  match flow with
  | some (.link jobId ns host member expiresAt (some poll)) => do
    let code : Option Bytes ← request (.getDeviceCode state)
    match code with
    | none => pure ()
    | some code => do
      let served : Bool ← request (.linkAdapter ns host)
      if served then
        let outcome : Except LinkError ForgeAccount ← request (.completeAccountLink state (some code))
        let _ ← request (.deleteFlow state (.link jobId ns host member expiresAt (some poll)))
        request (.deleteDeviceCode state)
        completeLink jobId ns outcome
      else pure ()
  | _ => pure ()

def resumeDevicePolls : Code Unit := do
  let flows : List (Bytes × PendingFlow) ← request .listFlows
  .each (fun f =>
    match f.2 with
    | .link _ _ _ _ expiresAt (some _) => do
      let expired : Bool ← request (.past (expiresAt - 1))
      if expired then pure () else request (.spawn (.pollDevice f.1))
    | _ => pure ()) flows

def PendingFlow.grace : PendingFlow → Int
  | .link _ _ _ _ _ (some _) => 60
  | _ => 0

def expireJob (jobId : Option Bytes) : Code Unit :=
  match jobId with
  | none => pure ()
  | some jobId => do
    let waiting : Bool ← request (.isWaiting jobId)
    if waiting then finishJob jobId (failure (ascii "expired") (ascii "nobody completed it in time")) else pure ()

def expireOne (now : Int) (f : Bytes × PendingFlow) : Code Unit :=
  if now ≤ f.2.expiresAt + f.2.grace then pure ()
  else do
    let _ ← request (.deleteFlow f.1 f.2)
    request (.deleteDeviceCode f.1)
    expireJob f.2.jobId

def expire : Code Unit := do
  let flows : List (Bytes × PendingFlow) ← request .listFlows
  let now : Int ← request .now
  .each (expireOne now) flows

-- A registration of a GitHub App waits for nobody's job.
def offerOne (g : Bytes × Bytes) : Code Unit := do
  let registered : Bool ← request (.registered g.1 g.2)
  if registered then pure ()
  else
    let flows : List (Bytes × PendingFlow) ← request .listFlows
    let now : Int ← request .now
    let open_ := flows.any fun f =>
      match f.2 with
      | .manifest host (some o) expiresAt => host = g.1 && sameIgnoringCase o g.2 && decide (now < expiresAt)
      | _ => false
    if open_ then pure ()
    else
      let state : Bytes ← request .newState
      request (.putFlow state (.manifest g.1 (some g.2) (now + day)))

def offerRegistrations (cfg : Cfg) : Code Unit := .each offerOne cfg.github

def manifestCallback (cfg : Cfg) (host owner state : Bytes) : Code Unit := do
  let flow : Option PendingFlow ← request (.getFlow state)
  match flow with
  | some (.manifest h (some o) expiresAt) => do
    let expired : Bool ← request (.past expiresAt)
    let registered : Bool ← request (.registered host owner)
    if !expired && h = host && sameIgnoringCase owner o && (cfg.githubFor host owner).isSome && !registered then
      let exchanged : Bool ← request (.exchangeCode host owner)
      if exchanged then
        let _ ← request (.deleteFlow state (.manifest h (some o) expiresAt))
        pure ()
      else pure ()
    else pure ()
  | _ => pure ()

end VerifiableGit.Service
