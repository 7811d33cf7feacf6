import VerifiableGit.Bridge.World
import Mathlib.Data.Int.Order.Basic

-- Any number of writers over one remote, each following the lease: what each may
-- count on from the others, and the version its next write takes.
namespace VerifiableGit.Bridge
open VerifiableGit.Text VerifiableGit.Library.Interaction Mirror

-- `vgi-bridge secret set`, with the attempts `put_sealed` is allowed.
def secretSet (seal_ : MasterKey) (attempts : Nat) (holder : Bytes) (fuel : Nat) (name bytes : Bytes) :
    Code (Except Fault Unit) := do
  let acquired ← Lease.acquire fuel holder 60000
  match acquired with
  | .error e => pure (.error e)
  | .ok lease => do
    let current ← request (.get (secretKey name))
    match current with
    | .error e => do
      lease.release
      pure (.error e)
    | .ok current => do
      let seen := (current.map Record.version).getD 0
      let (written,lease) ← putSealedLoop seal_ name bytes attempts seen lease
      lease.release
      match written with
      | .ok _ => pure (.ok ())
      | .error (.conflict _) => pure (.error (.conflict (secretKey name)))
      | .error (.other e) => pure (.error e)

-- `forget_remote` behind its listing: the records it found are `doomed`.
def forgetDoomed : List (Bytes × Nat) → Lease → Code (Except Fault Unit × Lease)
  | [],lease => pure (.ok (),lease)
  | (key,version) :: rest,lease => do
    let (renewed,lease) ← lease.renewIfDue
    match renewed with
    | .error e => pure (.error e,lease)
    | .ok () => do
      let answer ← request (.delete key (some version))
      match answer with
      | .ok (some v) => forgetDoomed rest (lease.observe v)
      | .ok none => forgetDoomed rest lease
      | .error (.conflict _) => pure (.error (.conflict key),lease)
      | .error (.other e) => pure (.error e,lease)

def forgetRemote (holder : Bytes) (fuel : Nat) (doomed : List (Bytes × Nat)) : Code (Except Fault Unit) := do
  let acquired ← Lease.acquire fuel holder 60000
  match acquired with
  | .error e => pure (.error e)
  | .ok lease => do
    let (done,lease) ← forgetDoomed doomed lease
    lease.release
    pure done

-- The longest a writer is busy with itself between two of its requests or clock
-- readings, in milliseconds.
def localPause : Nat := 5000

-- The last millisecond the clocks can show as a date.
def clockMax : Nat := 8210266876799999

def seconds (millis : Nat) : Int := (millis / 1000 : Nat)

-- `now`: when the remote last applied a request; `clock`: when each writer last read
-- a clock or had an answer.
structure Net (ι : Type) where
  remote : Remote
  now : Nat
  clock : ι → Nat

-- Sent soon after the writer's last event, applied and answered within the time-out.
structure Timely (clock now at_ back : Nat) : Prop where
  sent : ∃ sent, sent ≤ clock + localPause ∧ sent ≤ at_ ∧ back ≤ sent + requestTimeout
  answered : at_ ≤ back
  later : now ≤ at_
  own : clock ≤ at_

namespace Net
variable {ι : Type} [DecidableEq ι]

-- One request: applied, its answer perhaps lost, or never applied.
inductive Sends (s : Net ι) (i : ι) (fault : Fault → A) (apply_ : Nat → A × Remote) : A → Net ι → Prop
  | answered (at_ back : Nat) (timely : Timely (s.clock i) s.now at_ back) :
      Sends s i fault apply_ (apply_ at_).1 ⟨(apply_ at_).2,at_,Function.update s.clock i back⟩
  | lost (at_ back : Nat) (why : Bytes) (timely : Timely (s.clock i) s.now at_ back) :
      Sends s i fault apply_ (fault (.remote why)) ⟨(apply_ at_).2,at_,Function.update s.clock i back⟩
  | failed (back : Nat) (why : Bytes) (later : s.clock i ≤ back) :
      Sends s i fault apply_ (fault (.remote why)) ⟨s.remote,s.now,Function.update s.clock i back⟩

def reads (s : Net ι) (i : ι) (c : Nat) : Net ι := { s with clock := Function.update s.clock i c }

-- The local store may answer anything.
def Serves (s : Net ι) (i : ι) : (q : Request) → q.Answer → Net ι → Prop
  | .get key,r,t => s.Sends i Except.error (fun _ => (.ok (s.remote.get key),s.remote)) r t
  | .put key value expected,r,t => s.Sends i (fun e => .error (.other e))
      (fun at_ => s.remote.put (seconds at_) key value expected) r t
  | .delete key expected,r,t => s.Sends i (fun e => .error (.other e))
      (fun at_ => s.remote.delete (seconds at_) key expected) r t
  | .timestamp,r,t => ∃ c, s.clock i ≤ c ∧ c ≤ s.clock i + localPause ∧ c ≤ clockMax ∧
      r = seconds c ∧ t = s.reads i c
  | .instant,r,t => s.clock i ≤ r ∧ r ≤ s.clock i + localPause ∧ t = s.reads i r
  | .sleep millis,_,t => ∃ c, s.clock i + millis ≤ c ∧ t = s.reads i c
  | .nonce,_,t => t = s
  | .host _,_,t => t = s

-- What can come of a put, and of a delete.
inductive PutServed (s : Net ι) (i : ι) (key : Bytes) (value : Value) (expected : Option Nat) :
    PutResult → Net ι → Prop
  | stored (at_ back : Nat) (timely : Timely (s.clock i) s.now at_ back)
      (passed : Remote.precondition expected (s.remote.live key) = .ok ()) :
      PutServed s i key value expected (.ok (s.remote.counter + 1))
        ⟨s.remote.write (seconds at_) key (some value),at_,Function.update s.clock i back⟩
  | lost (at_ back : Nat) (why : Bytes) (timely : Timely (s.clock i) s.now at_ back)
      (passed : Remote.precondition expected (s.remote.live key) = .ok ()) :
      PutServed s i key value expected (.error (.other (.remote why)))
        ⟨s.remote.write (seconds at_) key (some value),at_,Function.update s.clock i back⟩
  | stayed (e : PutError) (now back : Nat) (later : s.now ≤ now)
      (plain : ∀ f, e = .other f → ∃ why, f = .remote why) :
      PutServed s i key value expected (.error e) ⟨s.remote,now,Function.update s.clock i back⟩

inductive DeleteServed (s : Net ι) (i : ι) (key : Bytes) (expected : Option Nat) :
    DeleteResult → Net ι → Prop
  | removed (at_ back : Nat) (timely : Timely (s.clock i) s.now at_ back) (c : Nat)
      (alive : s.remote.live key = some c) (passed : Remote.precondition expected (some c) = .ok ()) :
      DeleteServed s i key expected (.ok (some (s.remote.counter + 1)))
        ⟨s.remote.write (seconds at_) key none,at_,Function.update s.clock i back⟩
  | lost (at_ back : Nat) (why : Bytes) (timely : Timely (s.clock i) s.now at_ back) (c : Nat)
      (alive : s.remote.live key = some c) (passed : Remote.precondition expected (some c) = .ok ()) :
      DeleteServed s i key expected (.error (.other (.remote why)))
        ⟨s.remote.write (seconds at_) key none,at_,Function.update s.clock i back⟩
  | absent (now back : Nat) (later : s.now ≤ now) :
      DeleteServed s i key expected (.ok none) ⟨s.remote,now,Function.update s.clock i back⟩
  | stayed (e : PutError) (now back : Nat) (later : s.now ≤ now)
      (plain : ∀ f, e = .other f → ∃ why, f = .remote why) :
      DeleteServed s i key expected (.error e) ⟨s.remote,now,Function.update s.clock i back⟩

variable {s t : Net ι} {i : ι} {key : Bytes} {expected : Option Nat}

theorem plain_remote (why : Bytes) (f : Fault) (same : PutError.other (.remote why) = .other f) :
    ∃ why, f = .remote why := by
  cases same
  exact ⟨why,rfl⟩

theorem plain_stopped {e : PutError} {c : Option Nat} (stopped : Remote.precondition expected c = .error e)
    (f : Fault) (same : e = .other f) : ∃ why, f = .remote why := by
  obtain ⟨c,conflict⟩ := Remote.precondition_error stopped
  cases conflict.symm.trans same

theorem put_served {value : Value} {r : PutResult} (served : s.Serves i (.put key value expected) r t) :
    PutServed s i key value expected r t := by
  have served : s.Sends i (fun e => .error (.other e))
      (fun at_ => s.remote.put (seconds at_) key value expected) r t := served
  cases passed : Remote.precondition expected (s.remote.live key) with
  | ok _ =>
    have done (at_ : Nat) : s.remote.put (seconds at_) key value expected =
        (.ok (s.remote.counter + 1),s.remote.write (seconds at_) key (some value)) := by
      simp only [Remote.put,passed]
    simp only [done] at served
    cases served with
    | answered at_ back timely => exact .stored at_ back timely passed
    | lost at_ back why timely => exact .lost at_ back why timely passed
    | failed back why later => exact .stayed _ _ _ (Nat.le_refl _) (plain_remote why)
  | error e =>
    have done (at_ : Nat) : s.remote.put (seconds at_) key value expected = (.error e,s.remote) := by
      simp only [Remote.put,passed]
    simp only [done] at served
    cases served with
    | answered at_ back timely => exact .stayed _ _ _ timely.later (plain_stopped passed)
    | lost at_ back why timely => exact .stayed _ _ _ timely.later (plain_remote why)
    | failed back why later => exact .stayed _ _ _ (Nat.le_refl _) (plain_remote why)

theorem delete_served {r : DeleteResult} (served : s.Serves i (.delete key expected) r t) :
    DeleteServed s i key expected r t := by
  have served : s.Sends i (fun e => .error (.other e))
      (fun at_ => s.remote.delete (seconds at_) key expected) r t := served
  cases alive : s.remote.live key with
  | none =>
    have done (at_ : Nat) : s.remote.delete (seconds at_) key expected = (.ok none,s.remote) := by
      simp only [Remote.delete,alive]
    simp only [done] at served
    cases served with
    | answered at_ back timely => exact .absent _ _ timely.later
    | lost at_ back why timely => exact .stayed _ _ _ timely.later (plain_remote why)
    | failed back why later => exact .stayed _ _ _ (Nat.le_refl _) (plain_remote why)
  | some c =>
    cases passed : Remote.precondition expected (some c) with
    | ok _ =>
      have done (at_ : Nat) : s.remote.delete (seconds at_) key expected =
          (.ok (some (s.remote.counter + 1)),s.remote.write (seconds at_) key none) := by
        simp only [Remote.delete,alive,passed]
      simp only [done] at served
      cases served with
      | answered at_ back timely => exact .removed at_ back timely c alive passed
      | lost at_ back why timely => exact .lost at_ back why timely c alive passed
      | failed back why later => exact .stayed _ _ _ (Nat.le_refl _) (plain_remote why)
    | error e =>
      have done (at_ : Nat) : s.remote.delete (seconds at_) key expected = (.error e,s.remote) := by
        simp only [Remote.delete,alive,passed]
      simp only [done] at served
      cases served with
      | answered at_ back timely => exact .stayed _ _ _ timely.later (plain_stopped passed)
      | lost at_ back why timely => exact .stayed _ _ _ timely.later (plain_remote why)
      | failed back why later => exact .stayed _ _ _ (Nat.le_refl _) (plain_remote why)

end Net

-- `held`: the next version of the lease each writer holds, as its answered requests
-- tell.
structure Shared (ι : Type) extends Net ι where
  held : ι → Option Nat

namespace Shared
variable {ι : Type} [DecidableEq ι]

def heldAfter (held : Option Nat) : (q : Request) → q.Answer → Option Nat
  | .put key _ _,r =>
    match r with
    | .ok v => if key = leaseKey then some (max (held.getD 0) (v + 1)) else held.map fun n => max n (v + 1)
    | .error _ => held
  | .delete key _,r =>
    if key = leaseKey then none
    else
      match r with
      | .ok (some v) => held.map fun n => max n (v + 1)
      | _ => held
  | _,_ => held

structure Serves (i : ι) (s : Shared ι) (q : Request) (r : q.Answer) (t : Shared ι) : Prop where
  net : s.toNet.Serves i q r t.toNet
  held : t.held = Function.update s.held i (heldAfter (s.held i) q r)

end Shared

-- One way to serve a writer that meets no delay and asks nothing of a local store.
namespace Shared
variable {ι : Type} [DecidableEq ι]

def prompt (s : Shared ι) (i : ι) (remote : Remote) (held : Option Nat) : Shared ι :=
  ⟨⟨remote,s.clock i,Function.update s.clock i (s.clock i)⟩,Function.update s.held i held⟩

def waits (s : Shared ι) (i : ι) (c : Nat) (held : Option Nat) : Shared ι :=
  ⟨s.toNet.reads i c,Function.update s.held i held⟩

def answer (i : ι) (q : Request) (s : Shared ι) : Option (q.Answer × Shared ι) :=
  if s.now ≤ s.clock i ∧ s.clock i ≤ clockMax then
    match q with
    | .get key => some (.ok (s.remote.get key),s.prompt i s.remote (s.held i))
    | .put key value expected =>
      let done := s.remote.put (seconds (s.clock i)) key value expected
      some (done.1,s.prompt i done.2 (heldAfter (s.held i) (.put key value expected) done.1))
    | .delete key expected =>
      let done := s.remote.delete (seconds (s.clock i)) key expected
      some (done.1,s.prompt i done.2 (heldAfter (s.held i) (.delete key expected) done.1))
    | .timestamp => some (seconds (s.clock i),s.waits i (s.clock i) (s.held i))
    | .instant => some (s.clock i,s.waits i (s.clock i) (s.held i))
    | .sleep millis => some ((),s.waits i (s.clock i + millis) (s.held i))
    | .nonce => some (some [],s)
    | .host _ => none
  else none

theorem timely_now {clock now : Nat} (later : now ≤ clock) : Timely clock now clock clock :=
  ⟨⟨clock,Nat.le_add_right _ _,Nat.le_refl _,Nat.le_add_right _ _⟩,Nat.le_refl _,later,Nat.le_refl _⟩

theorem answer_serves {i : ι} (q : Request) (s : Shared ι) (r : q.Answer) (t : Shared ι)
    (found : answer i q s = some (r,t)) : s.Serves i q r t := by
  unfold answer at found
  split at found
  · rename_i clock
    obtain ⟨later,shown⟩ := clock
    cases q with
    | get key => cases found; exact ⟨.answered _ _ (timely_now later),rfl⟩
    | put key value expected => cases found; exact ⟨.answered _ _ (timely_now later),rfl⟩
    | delete key expected => cases found; exact ⟨.answered _ _ (timely_now later),rfl⟩
    | timestamp =>
      cases found
      exact ⟨⟨_,Nat.le_refl _,Nat.le_add_right _ _,shown,rfl,rfl⟩,rfl⟩
    | instant => cases found; exact ⟨⟨Nat.le_refl _,Nat.le_add_right _ _,rfl⟩,rfl⟩
    | sleep millis => cases found; exact ⟨⟨_,Nat.le_refl _,rfl⟩,rfl⟩
    | nonce => cases found; exact ⟨rfl,(Function.update_eq_self _ _).symm⟩
    | host query => cases found
  · cases found

end Shared

-- The faults a program may end in where nothing ignores the lease.
def Fault.Expected (e : Fault) : Prop := ∀ key, e ≠ .unpredictable key

section
variable {ι : Type} [DecidableEq ι] (seal_ : MasterKey) (holder : ι → Bytes)

-- What one request of a writer may do to the rest: the lease record is written only
-- where it is absent, its own or past its end, anything else only while it is its own.
inductive Change (i : ι) (s t : Net ι) : Prop
  | none (same : t.remote = s.remote)
  | lease (now : Int) (v : Option Value) (wrote : t.remote = s.remote.write now leaseKey v)
      (free : ∀ r, s.remote.get leaseKey = some r →
        leaseExpiry r < seconds t.now ∨ leaseHolder r = holder i)
  | other (now : Int) (key : Bytes) (v : Option Value) (plain : key ≠ leaseKey)
      (wrote : t.remote = s.remote.write now key v)
      (own : ∃ r, s.remote.get leaseKey = some r ∧ leaseHolder r = holder i)

-- The version a put under a held lease takes, where it is applied.
def Predicted (i : ι) (q : Request) (s t : Shared ι) : Prop :=
  ∀ key value expected, q = .put key value expected → t.remote.counter ≠ s.remote.counter →
    (∀ n, s.held i = some n → t.remote.live key = some n) ∧ (key ≠ leaseKey → (s.held i).isSome) ∧
    ∀ name, key = secretKey name →
      ∃ bytes nonce, value = secretValue seal_ name t.remote.counter bytes nonce

structure Promise (i : ι) (q : Request) (s t : Shared ι) : Prop where
  now : s.now ≤ t.now
  others : ∀ j, j ≠ i → t.clock j = s.clock j ∧ t.held j = s.held j
  change : Change holder i s.toNet t.toNet
  sound : Sealed seal_ s.remote → Sealed seal_ t.remote
  predicted : Predicted seal_ i q s t

-- One request of somebody else.
structure Relied (j : ι) (s t : Shared ι) : Prop where
  now : s.now ≤ t.now
  clock : t.clock j = s.clock j
  held : t.held j = s.held j
  change : ∃ i, holder i ≠ holder j ∧ Change holder i s.toNet t.toNet
  sound : Sealed seal_ s.remote → Sealed seal_ t.remote

structure Sound (s : Shared ι) : Prop where
  opens : Sealed seal_ s.remote
  counted : s.remote.Counted

def writing (i : ι) : Setting Request Request.Answer (Shared ι) where
  serve := fun q s r t => s.Serves i q r t
  rely := Relied seal_ holder i
  guarantee := fun q s t => Promise seal_ holder i q s t
  always := Sound seal_

end

end VerifiableGit.Bridge
