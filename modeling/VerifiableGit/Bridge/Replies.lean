import Mathlib.Logic.Function.Basic
import Mathlib.Logic.Relation
import VerifiableGit.Library.Table
import VerifiableGit.Verify.DidDocument

-- Registry queries in flight and the documents that answer them (vgi-bridge,
-- registry_channel.rs).
namespace VerifiableGit.Replies
open Text
open Did (Value)
open Library (Table)

inductive Via where
  | tsp | didcomm
deriving DecidableEq

structure InboundDoc where
  doc : Value
  authenticatedSender : Option Bytes
  via : Via

inductive TrqlError where
  | config (text : Bytes)
  | contract (text : Bytes)
  | transport (kind : Via) (detail : Bytes)
  | timeout (kind : Via) (waitedSecs : Nat)

structure Config where
  registryDid : Bytes
  timeoutSecs : Nat := 30

-- A query in flight: the transport it went out on, and the exchange whose reply
-- channel waits.
abbrev Waiter := Via × Nat

def senderDid (sender : Bytes) : Bytes := sender.takeWhile (· ≠ 35)

def threadId (inbound : InboundDoc) : Option Bytes := (inbound.doc.get (ascii "threadId")).bind Value.asStr

def fromRegistry (cfg : Config) (inbound : InboundDoc) : Bool := inbound.authenticatedSender.map senderDid = some cfg.registryDid

-- `RegistryReplies::route` up to the send: the waiter it takes, and what is left.
def take (cfg : Config) (pending : Table Bytes Waiter) (inbound : InboundDoc) : Option (Nat × Table Bytes Waiter) :=
  if fromRegistry cfg inbound then
    match threadId inbound with
    | none => none
    | some thread =>
      match pending.lookup thread with
      | none => none
      | some (via,waiter) => if via ≠ inbound.via then none else some (waiter,pending.erase thread)
  else none

-- The reply channel of an exchange. `sent` names the document it was given.
inductive Channel where
  | empty
  | sent (inbound : Nat) (doc : Value)
  | closed

-- Where an exchange is. `leaving`: the receiver is gone, its entry not yet; a
-- future that was dropped has no result.
inductive Phase where
  | sending
  | waiting
  | leaving (result : Option (Except TrqlError Value))
  | ended (result : Option (Except TrqlError Value))

structure Exchange where
  id : Bytes
  via : Via
  phase : Phase

-- Where `handle_inbound` is with a document. `jobs`: `route` left it to the job path.
inductive Handling where
  | holding (waiter : Nat)
  | taken (waiter : Nat)
  | jobs

structure World where
  pending : Table Bytes Waiter := ∅
  exchange : Nat → Option Exchange := fun _ => none
  channel : Nat → Channel := fun _ => .empty
  inbound : Nat → Option (InboundDoc × Handling) := fun _ => none

inductive Act where
  | start (i : Nat) (via : Via) (recipient : Bytes) (request : Value)
  | sent (i : Nat) (outcome : Except Bytes Unit)
  | poll (i : Nat)
  | timeout (i : Nat)
  | drop (i : Nat)
  | unregister (i : Nat)
  | offer (k : Nat) (inbound : InboundDoc)
  | deliver (k : Nat)

def requestId (request : Value) : Option Bytes := (request.get (ascii "id")).bind Value.asStr

-- `exchange` before it registers.
def checked (cfg : Config) (recipient : Bytes) (request : Value) : Except TrqlError Bytes :=
  if recipient ≠ cfg.registryDid then
    .error (.config (ascii "registry channel is for " ++ cfg.registryDid ++ ascii ", not " ++ recipient))
  else
    match requestId request with
    | none => .error (.contract (ascii "request document has no id"))
    | some id => .ok id

def World.put (w : World) (i : Nat) (e : Exchange) : World := { w with exchange := Function.update w.exchange i (some e) }

-- The sender's half of a channel is dropped unsent.
def World.close (w : World) : Option Waiter → World
  | some (_,j) =>
    match w.channel j with
    | .empty => { w with channel := Function.update w.channel j .closed }
    | _ => w
  | none => w

-- `HashMap::insert` drops the waiter that was there.
def World.register (w : World) (id : Bytes) (via : Via) (i : Nat) : World :=
  { w.close (w.pending.lookup id) with pending := w.pending.insert id (via,i) }

def World.unregister (w : World) (id : Bytes) : World :=
  { w.close (w.pending.lookup id) with pending := w.pending.erase id }

-- The receiver of an exchange is there as long as it waits.
def Phase.receives : Phase → Bool
  | .sending | .waiting => true
  | _ => false

def Phase.afterSend (via : Via) : Except Bytes Unit → Phase
  | .ok () => .waiting
  | .error e => .leaving (some (.error (.transport via (ascii "sending to the registry: " ++ e))))

-- One await of an exchange after it registered.
def Exchange.next (cfg : Config) (w : World) (i : Nat) (e : Exchange) : Act → Option Phase
  | .sent _ outcome =>
    match e.phase with
    | .sending => some (Phase.afterSend e.via outcome)
    | _ => none
  | .poll _ =>
    match e.phase,w.channel i with
    | .waiting,.sent _ doc => some (.leaving (some (.ok doc)))
    | .waiting,.closed => some (.leaving (some (.error (.transport e.via (ascii "the reply channel closed")))))
    | _,_ => none
  | .timeout _ =>
    match e.phase with
    | .waiting => some (.leaving (some (.error (.timeout e.via cfg.timeoutSecs))))
    | _ => none
  | .drop _ => if e.phase.receives then some (.leaving none) else none
  | _ => none

def advance (cfg : Config) (w : World) (i : Nat) (act : Act) : Option World :=
  match w.exchange i with
  | none => none
  | some e => (e.next cfg w i act).map fun phase => w.put i { e with phase := phase }

def receiving (w : World) (i : Nat) : Bool := (w.exchange i).any fun e => e.phase.receives

def World.handle (w : World) (k : Nat) (inbound : InboundDoc) (handling : Handling) : World :=
  { w with inbound := Function.update w.inbound k (some (inbound,handling)) }

def step (cfg : Config) (w : World) : Act → Option World
  | .start i via recipient request =>
    match w.exchange i with
    | some _ => none
    | none =>
      match checked cfg recipient request with
      | .error e => some (w.put i ⟨(requestId request).getD [],via,.ended (some (.error e))⟩)
      | .ok id => some ((w.register id via i).put i ⟨id,via,.sending⟩)
  | .unregister i =>
    match w.exchange i with
    | some ⟨id,via,.leaving result⟩ => some ((w.unregister id).put i ⟨id,via,.ended result⟩)
    | _ => none
  | .offer k inbound =>
    match w.inbound k with
    | some _ => none
    | none =>
      match take cfg w.pending inbound with
      | none => some (w.handle k inbound .jobs)
      | some (waiter,pending) => some ({ w with pending := pending }.handle k inbound (.holding waiter))
  | .deliver k =>
    match w.inbound k with
    | some (inbound,.holding i) =>
      let sent := if receiving w i then { w with channel := Function.update w.channel i (.sent k inbound.doc) } else w
      some (sent.handle k inbound (.taken i))
    | _ => none
  | .sent i outcome => advance cfg w i (.sent i outcome)
  | .poll i => advance cfg w i (.poll i)
  | .timeout i => advance cfg w i (.timeout i)
  | .drop i => advance cfg w i (.drop i)

/-! What a run is, and what holds of it -/

-- Registered, and its guard not yet dropped.
def Exchange.live (e : Exchange) : Bool :=
  match e.phase with
  | .ended _ => false
  | _ => true

def Exchange.result (e : Exchange) : Option (Except TrqlError Value) :=
  match e.phase with
  | .leaving result | .ended result => result
  | _ => none

-- An exchange starts under an id no live one has.
def Fresh (w : World) : Act → Prop
  | .start _ _ _ request => ∀ j e, w.exchange j = some e → e.live = true → requestId request ≠ some e.id
  | _ => True

def Step (cfg : Config) (w next : World) : Prop := ∃ act, Fresh w act ∧ step cfg w act = some next

def Reachable (cfg : Config) (w : World) : Prop := Relation.ReflTransGen (Step cfg) {} w

-- The registry's proven answer to the query of an exchange, over its transport.
structure Answers (cfg : Config) (inbound : InboundDoc) (e : Exchange) : Prop where
  sender : ∃ sender, inbound.authenticatedSender = some sender ∧ senderDid sender = cfg.registryDid
  via : inbound.via = e.via
  thread : threadId inbound = some e.id

-- Document `k` was given to exchange `i`.
def GivenTo (w : World) (k i : Nat) : Prop :=
  ∃ inbound handling, w.inbound k = some (inbound,handling) ∧ (handling = .holding i ∨ handling = .taken i)

def Answered (w : World) (i : Nat) : Prop := ∃ k, GivenTo w k i

-- An exchange that a document can still answer.
def Unanswered (w : World) (i : Nat) (e : Exchange) : Prop := w.exchange i = some e ∧ e.live = true ∧ ¬Answered w i

structure Isolated (cfg : Config) (w : World) : Prop where
  result : ∀ i e doc, w.exchange i = some e → e.result = some (.ok doc) →
    ∃ k inbound, w.inbound k = some (inbound,.taken i) ∧ inbound.doc = doc ∧ Answers cfg inbound e
  once : ∀ k i j, GivenTo w k i → GivenTo w k j → i = j
  inFlight : ∀ id via i, w.pending.lookup id = some (via,i) ↔ ∃ e, Unanswered w i e ∧ e.id = id ∧ e.via = via
  others : ∀ k inbound next, step cfg w (.offer k inbound) = some next →
    (next.inbound k = some (inbound,.jobs) ∧ ¬∃ i e, Unanswered w i e ∧ Answers cfg inbound e) ∨
    ∃ i e, next.inbound k = some (inbound,.holding i) ∧ Unanswered w i e ∧ Answers cfg inbound e

end VerifiableGit.Replies
