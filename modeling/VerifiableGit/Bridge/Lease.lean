import VerifiableGit.Bridge.Host
import VerifiableGit.Library.Interaction

-- The writer lease and the sealed put, as programs over the requests they send.
namespace VerifiableGit.Bridge
open VerifiableGit.Text VerifiableGit.Library.Interaction

def asciiNat (n : Nat) : Bytes := ascii (toString n)

-- The sealing key: `seal`, with its base64, under associated data and a fresh
-- nonce, and what opens it again.
structure MasterKey where
  sealed : Bytes → Bytes → Bytes → Bytes
  opened : Bytes → Bytes → Option Bytes
  opens : ∀ aad bytes nonce, opened aad (sealed aad bytes nonce) = some bytes

def secretAad (name : Bytes) (version : Nat) : Bytes := secretKey name ++ ascii "@" ++ asciiNat version

def secretValue (seal_ : MasterKey) (name : Bytes) (version : Nat) (bytes nonce : Bytes) : Value :=
  .object [(ascii "sealed",.str (seal_.sealed (secretAad name version) bytes nonce))]

def secretBytes (seal_ : MasterKey) (name : Bytes) (version : Nat) (v : Value) : Option Bytes := do
  let field ← v.get (ascii "sealed")
  let s ← field.asStr
  seal_.opened (secretAad name version) s

-- Every live secret opens at the version it is stored at.
def Sealed (seal_ : MasterKey) (remote : Remote) : Prop :=
  ∀ name e v, remote.entries.lookup (secretKey name) = some e → e.value = some v →
    ∃ bytes, secretBytes seal_ name e.version v = some bytes

-- Each byte after a one, and a zero where they end.
def delimited (aad : Bytes) : Bytes := aad.flatMap (fun b => [1,b]) ++ [0]

-- A key that hides nothing, for runs.
def plainKey : MasterKey where
  sealed := fun aad bytes _ => delimited aad ++ bytes
  opened := fun aad text => stripPrefix (delimited aad) text
  opens := fun _ _ _ => stripPrefix_append _ _

def leaseTtlSecs : Int := 120
def leaseTtlMillis : Nat := 120000
def requestTimeout : Nat := 20000

def leaseExpiry (r : Record) : Int :=
  let until_ := ((r.value.get (ascii "until")).bind Field.asI64).getD 0
  match r.updatedAt with
  | some at_ => min until_ (min (at_ + leaseTtlSecs) i64Max)
  | none => i64Min

def leaseHolder (r : Record) : Bytes := ((r.value.get (ascii "holder")).bind Field.asStr).getD []

def leaseValue (holder : Bytes) (until_ : Int) : Value :=
  .object [(ascii "holder",.str holder),(ascii "until",.int until_)]

-- What the bridge asks of its surroundings: the remote, the two clocks (unix
-- seconds, and a monotonic one in milliseconds), randomness, and its own host.
inductive Request where
  | get (key : Bytes)
  | put (key : Bytes) (value : Value) (expected : Option Nat)
  | delete (key : Bytes) (expected : Option Nat)
  | timestamp
  | instant
  | sleep (millis : Nat)
  | nonce
  | host (query : HostQuery)

abbrev Request.Answer : Request → Type
  | .get _ => Except Fault (Option Record)
  | .put _ _ _ => PutResult
  | .delete _ _ => DeleteResult
  | .timestamp => Int
  | .instant => Nat
  | .sleep _ => Unit
  | .nonce => Option Bytes
  | .host query => query.Answer

abbrev Code := Prog Request Request.Answer

def request (q : Request) : Code q.Answer := ask q
def access (q : HostQuery) : Code q.Answer := ask (Request.host q)

@[simp] theorem request_bind (q : Request) (f : q.Answer → Code α) :
    @bind Code _ (no_index q.Answer) α (request q) f = .call q f := rfl

@[simp] theorem access_bind (q : HostQuery) (f : q.Answer → Code α) :
    @bind Code _ (no_index q.Answer) α (access q) f = .call (Request.host q) f := rfl

structure Lease where
  holder : Bytes
  version : Nat
  deadline : Nat
  next : Nat
  deriving DecidableEq

namespace Lease

def observe (lease : Lease) (version : Nat) : Lease := { lease with next := max lease.next (version + 1) }

-- The version to take the lease at, if it can be taken.
def expected (holder : Bytes) (now : Int) : Option Record → Option Nat
  | none => some 0
  | some r => if leaseExpiry r < now ∨ leaseHolder r = holder then some r.version else none

def waitTurn (deadline : Nat) (again : Code (Except Fault Lease)) : Code (Except Fault Lease) := do
  let now ← request .instant
  if deadline ≤ now then pure (.error .leaseHeld)
  else do
    let _ ← request (.sleep 250)
    again

-- The fuel stands for the turns the wait allows.
def acquireLoop (holder : Bytes) (deadline : Nat) : Nat → Code (Except Fault Lease)
  | 0 => pure (.error .leaseHeld)
  | fuel + 1 => do
    let now ← request .timestamp
    let current ← request (.get leaseKey)
    match current with
    | .error e => pure (.error e)
    | .ok current =>
      match expected holder now current with
      | none => waitTurn deadline (acquireLoop holder deadline fuel)
      | some expected => do
        let sent ← request .instant
        let answer ← request (.put leaseKey (leaseValue holder (now + leaseTtlSecs)) (some expected))
        match answer with
        | .ok version => pure (.ok ⟨holder,version,sent + leaseTtlMillis,version + 1⟩)
        | .error (.conflict _) => waitTurn deadline (acquireLoop holder deadline fuel)
        | .error (.other e) => pure (.error e)

def acquire (fuel : Nat) (holder : Bytes) (wait : Nat) : Code (Except Fault Lease) := do
  let start ← request .instant
  acquireLoop holder (start + wait) fuel

def renewIfDue (lease : Lease) : Code (Except Fault Unit × Lease) := do
  let now ← request .instant
  let left := lease.deadline - now
  if leaseTtlMillis / 2 < left then pure (.ok (),lease)
  else if left = 0 then pure (.error .leaseRanOut,lease)
  else do
    let sent ← request .instant
    let time ← request .timestamp
    let answer ← request (.put leaseKey (leaseValue lease.holder (time + leaseTtlSecs))
      (some lease.version))
    match answer with
    | .error _ => pure (.error .renewing,lease)
    | .ok v =>
      pure (.ok (),{ lease with version := v, deadline := sent + leaseTtlMillis }.observe v)

def release (lease : Lease) : Code Unit := do
  let _ ← request (.delete leaseKey (some lease.version))
  pure ()

end Lease

-- The attempts left, each one renewed first.
def putSealedLoop (seal_ : MasterKey) (name bytes : Bytes) :
    Nat → Nat → Lease → Code (PutResult × Lease)
  | 0,_,lease => pure (.error (.other (.unpredictable (secretKey name))),lease)
  | attempts + 1,expected,lease => do
    let (renewed,lease) ← lease.renewIfDue
    match renewed with
    | .error e => pure (.error (.other e),lease)
    | .ok () => do
      let predicted := lease.next
      let nonce ← request .nonce
      match nonce with
      | none => pure (.error (.other .sealing),lease)
      | some nonce => do
        let answer ← request (.put (secretKey name) (secretValue seal_ name predicted bytes nonce)
          (some expected))
        match answer with
        | .error e => pure (.error e,lease)
        | .ok v =>
          if v = predicted then pure (.ok v,lease.observe v)
          else putSealedLoop seal_ name bytes attempts v (lease.observe v)

def putSealed (seal_ : MasterKey) (name bytes : Bytes) (current : Option Nat) (lease : Lease) :
    Code (PutResult × Lease) :=
  putSealedLoop seal_ name bytes 4 (current.getD 0) lease

-- The requests that leave every record but the lease's alone.
def Request.OfLease : Request → Prop
  | .put key _ _ => key = leaseKey
  | .delete key _ => key = leaseKey
  | .host _ => False
  | _ => True

namespace Lease

theorem waitTurn_asks {again : Code (Except Fault Lease)} (asks : again.Asks Request.OfLease)
    (deadline : Nat) : (waitTurn deadline again).Asks Request.OfLease := by
  simp only [waitTurn,request_bind]
  refine asks_call trivial fun now => ?_
  split
  · trivial
  · exact asks_call trivial fun _ => asks

theorem acquireLoop_asks (holder : Bytes) (deadline : Nat) (fuel : Nat) :
    (acquireLoop holder deadline fuel).Asks Request.OfLease := by
  induction fuel with
  | zero => trivial
  | succ fuel ih =>
    simp only [acquireLoop,request_bind]
    refine asks_call trivial fun now => asks_call trivial fun current => ?_
    split
    · trivial
    · split
      · exact waitTurn_asks ih deadline
      · refine asks_call trivial fun sent => asks_call rfl fun answer => ?_
        split
        · trivial
        · exact waitTurn_asks ih deadline
        · trivial

theorem acquire_asks (fuel : Nat) (holder : Bytes) (wait : Nat) :
    (acquire fuel holder wait).Asks Request.OfLease :=
  asks_call trivial fun _ => acquireLoop_asks _ _ _

theorem renewIfDue_asks (lease : Lease) : lease.renewIfDue.Asks Request.OfLease := by
  simp only [renewIfDue,request_bind]
  refine asks_call trivial fun now => ?_
  split
  · trivial
  · split
    · trivial
    · refine asks_call trivial fun sent => asks_call trivial fun time => asks_call rfl fun answer => ?_
      split <;> trivial

theorem release_asks (lease : Lease) : lease.release.Asks Request.OfLease :=
  asks_call rfl fun _ => trivial

end Lease

theorem secretBytes_value (seal_ : MasterKey) (name : Bytes) (version : Nat) (bytes nonce : Bytes) :
    secretBytes seal_ name version (secretValue seal_ name version bytes nonce) = some bytes := by
  simp [secretBytes,secretValue,Value.get,Field.asStr,seal_.opens]

theorem sealed_write {seal_ : MasterKey} {remote : Remote} {now : Int} {key : Bytes} {v : Option Value}
    (opens : Sealed seal_ remote)
    (written : ∀ name value, key = secretKey name → v = some value →
      ∃ bytes, secretBytes seal_ name (remote.counter + 1) value = some bytes) :
    Sealed seal_ (remote.write now key v) := by
  intro name e value here held
  by_cases same : secretKey name = key
  · rw [same,Remote.write_same,Option.some.injEq] at here
    subst here
    exact written name value same.symm held
  · rw [Remote.write_other v same] at here
    exact opens name e value here held

end VerifiableGit.Bridge
