import VerifiableGit.Bridge.Mirror

-- One host and its remote: how each request is answered, or lost, and what the
-- local writers do in between.
namespace VerifiableGit.Bridge
open VerifiableGit.Text VerifiableGit.Library.Interaction

-- `owed`: the marks of writers that have committed a change and not marked it.
structure World where
  remote : Remote
  host : Host
  owed : List Dirty

namespace World

def writes (w : World) (now : Int) (key : Bytes) (value : Option Value) : World :=
  { w with remote := w.remote.write now key value }

-- A request that changes something: answered, failed without effect, or applied
-- with its answer lost.
inductive Reply (w effect : World) (answer : Except PutError α) : Except PutError α → World → Prop
  | answered : Reply w effect answer answer effect
  | failed (e : Fault) : Reply w effect answer (.error (.other e)) w
  | lost (e : Fault) : Reply w effect answer (.error (.other e)) effect

def Serves (w : World) : (q : Request) → q.Answer → World → Prop
  | .get key,r,after => after = w ∧ (r = .ok (w.remote.get key) ∨ ∃ e, r = .error e)
  | .put key value expected,r,after => ∃ now : Int,
      Reply w { w with remote := (w.remote.put now key value expected).2 }
        (w.remote.put now key value expected).1 r after
  | .delete key expected,r,after => ∃ now : Int,
      Reply w { w with remote := (w.remote.delete now key expected).2 }
        (w.remote.delete now key expected).1 r after
  | .host query,r,after => w.host.Serves query r after.host ∧ after.remote = w.remote ∧
      after.owed = w.owed
  | _,_,after => after = w

-- One way to serve every request: the clocks stand at `clock`, `fate` says what
-- becomes of each put and delete, `batch` is the order of the set when taken.
inductive Fate where
  | answered
  | failed
  | lost

def Fate.reply (fate : Fate) (w effect : World) (answer : Except PutError α) : Except PutError α × World :=
  match fate with
  | .answered => (answer,effect)
  | .failed => (.error (.other (.remote [])),w)
  | .lost => (.error (.other (.remote [])),effect)

structure Script where
  clock : Nat
  fate : Bytes → Fate
  batch : List Dirty

def hostAnswer (script : Script) (host : Host) : (q : HostQuery) → Option (q.Answer × Host)
  | .dirtyIsEmpty => some (decide (host.dirty = ∅),host)
  | .takeBatch =>
    if script.batch.Nodup ∧ script.batch.toFinset = host.dirty then
      some (script.batch,{ host with dirty := ∅, inFlight := host.inFlight + script.batch.length })
    else none
  | .putBack item => some ((),host.mark item)
  | .landed => some ((),{ host with inFlight := host.inFlight - 1 })
  | .getRaw table key => some (host.getRaw table key,host)
  | .secret _ name => some (host.secrets.lookup name,host)
  | .seen key => some (host.versions.lookup key,host)
  | .remember key version => some ((),{ host with versions := host.versions.insert key version })
  | .forget key => some ((),{ host with versions := host.versions.erase key })
  | .putMirror key version => some ((),host.putMirror key version)
  | .deleteMirror key => some ((),host.deleteMirror key)
  | .conflict => some ((),{ host with conflicts := host.conflicts + 1 })

def answer (script : Script) (w : World) : (q : Request) → Option (q.Answer × World)
  | .get key => some (.ok (w.remote.get key),w)
  | .put key value expected =>
    let done := w.remote.put (script.clock / 1000 : Nat) key value expected
    some ((script.fate key).reply w { w with remote := done.2 } done.1)
  | .delete key expected =>
    let done := w.remote.delete (script.clock / 1000 : Nat) key expected
    some ((script.fate key).reply w { w with remote := done.2 } done.1)
  | .timestamp => some ((script.clock / 1000 : Nat),w)
  | .instant => some (script.clock,w)
  | .sleep _ => some ((),w)
  | .nonce => some (some [],w)
  | .host query => (hostAnswer script w.host query).map fun done => (done.1,{ w with host := done.2 })

theorem fate_reply {fate : Fate} {w effect after : World} {answer r : Except PutError α}
    (same : fate.reply w effect answer = (r,after)) : Reply w effect answer r after := by
  cases fate with
  | answered => cases same; exact .answered
  | failed => cases same; exact .failed _
  | lost => cases same; exact .lost _

theorem hostAnswer_serves {script : Script} {host after : Host} (q : HostQuery) (r : q.Answer)
    (found : hostAnswer script host q = some (r,after)) : host.Serves q r after := by
  cases q with
  | takeBatch =>
    simp only [hostAnswer] at found
    split at found
    · rename_i right
      cases found
      exact ⟨right.1,right.2,rfl⟩
    · cases found
  | dirtyIsEmpty => cases found; exact ⟨rfl,rfl⟩
  | getRaw table key => cases found; exact ⟨rfl,rfl⟩
  | secret again name => cases found; exact ⟨rfl,rfl⟩
  | seen key => cases found; exact ⟨rfl,rfl⟩
  | _ => cases found; exact rfl

theorem answer_serves {script : Script} {w t : World} (q : Request) (r : q.Answer)
    (found : w.answer script q = some (r,t)) : w.Serves q r t := by
  cases q with
  | get key => cases found; exact ⟨rfl,.inl rfl⟩
  | put key value expected => exact ⟨_,fate_reply (Option.some.inj found)⟩
  | delete key expected => exact ⟨_,fate_reply (Option.some.inj found)⟩
  | host query =>
    obtain ⟨done,answered,same⟩ := Option.map_eq_some_iff.mp found
    cases same
    exact ⟨hostAnswer_serves query _ answered,rfl,rfl⟩
  | _ => cases found; exact rfl

def commits (w : World) (op : StoreOp) : World :=
  { w with host := (w.host.commit op).1, owed := (w.host.commit op).2.toList ++ w.owed }

def marks (w : World) (d : Dirty) : World :=
  { w with host := w.host.mark d, owed := w.owed.erase d }

-- What can come of a put, and of a delete.
inductive PutServed (w : World) (key : Bytes) (value : Value) (expected : Option Nat) :
    PutResult → World → Prop
  | stored (now : Int) (passed : Remote.precondition expected (w.remote.live key) = .ok ()) :
      PutServed w key value expected (.ok (w.remote.counter + 1)) (w.writes now key (some value))
  | refused (e : PutError) (stopped : Remote.precondition expected (w.remote.live key) = .error e) :
      PutServed w key value expected (.error e) w
  | failed (e : Fault) : PutServed w key value expected (.error (.other e)) w
  | lost (now : Int) (e : Fault)
      (passed : Remote.precondition expected (w.remote.live key) = .ok ()) :
      PutServed w key value expected (.error (.other e)) (w.writes now key (some value))

inductive DeleteServed (w : World) (key : Bytes) (expected : Option Nat) :
    DeleteResult → World → Prop
  | absent (gone : w.remote.live key = none) : DeleteServed w key expected (.ok none) w
  | removed (now : Int) (c : Nat) (alive : w.remote.live key = some c)
      (passed : Remote.precondition expected (some c) = .ok ()) :
      DeleteServed w key expected (.ok (some (w.remote.counter + 1))) (w.writes now key none)
  | refused (c : Nat) (e : PutError) (alive : w.remote.live key = some c)
      (stopped : Remote.precondition expected (some c) = .error e) :
      DeleteServed w key expected (.error e) w
  | failed (e : Fault) : DeleteServed w key expected (.error (.other e)) w
  | lost (now : Int) (e : Fault) (c : Nat) (alive : w.remote.live key = some c)
      (passed : Remote.precondition expected (some c) = .ok ()) :
      DeleteServed w key expected (.error (.other e)) (w.writes now key none)

theorem put_served {w t : World} {key : Bytes} {value : Value} {expected : Option Nat}
    {r : PutResult} (served : w.Serves (.put key value expected) r t) :
    PutServed w key value expected r t := by
  obtain ⟨now,reply⟩ := served
  cases passed : Remote.precondition expected (w.remote.live key) with
  | ok _ =>
    have done : w.remote.put now key value expected =
        (.ok (w.remote.counter + 1),w.remote.write now key (some value)) := by
      simp only [Remote.put,passed]
    simp only [done] at reply
    cases reply with
    | answered => exact .stored now passed
    | failed e => exact .failed e
    | lost e => exact .lost now e passed
  | error e =>
    have done : w.remote.put now key value expected = (.error e,w.remote) := by
      simp only [Remote.put,passed]
    simp only [done] at reply
    cases reply with
    | answered => exact .refused e passed
    | failed e => exact .failed e
    | lost e => exact .failed e

theorem delete_served {w t : World} {key : Bytes} {expected : Option Nat} {r : DeleteResult}
    (served : w.Serves (.delete key expected) r t) : DeleteServed w key expected r t := by
  obtain ⟨now,reply⟩ := served
  rcases Remote.delete_cases w.remote key now expected
    with ⟨gone,done⟩ | ⟨c,alive,passed,done⟩ | ⟨c,e,alive,stopped,done⟩
  · simp only [done] at reply
    cases reply with
    | answered => exact .absent gone
    | failed e => exact .failed e
    | lost e => exact .failed e
  · simp only [done] at reply
    cases reply with
    | answered => exact .removed now c alive passed
    | failed e => exact .failed e
    | lost e => exact .lost now e c alive passed
  · simp only [done] at reply
    cases reply with
    | answered => exact .refused c e alive stopped
    | failed e => exact .failed e
    | lost e => exact .failed e

-- A request of the lease's leaves the world alone but for the lease record.
theorem lease_served {w t : World} (q : Request) (r : q.Answer) (kind : q.OfLease)
    (served : w.Serves q r t) : t = w ∨ ∃ now v, t = w.writes now leaseKey v := by
  cases q with
  | get key => exact .inl served.1
  | put key value expected =>
    have same : key = leaseKey := kind
    subst same
    cases put_served served with
    | stored now _ => exact .inr ⟨now,_,rfl⟩
    | refused e _ => exact .inl rfl
    | failed e => exact .inl rfl
    | lost now e _ => exact .inr ⟨now,_,rfl⟩
  | delete key expected =>
    have same : key = leaseKey := kind
    subst same
    cases delete_served served with
    | absent _ => exact .inl rfl
    | removed now c _ _ => exact .inr ⟨now,_,rfl⟩
    | refused c e _ _ => exact .inl rfl
    | failed e => exact .inl rfl
    | lost now e c _ _ => exact .inr ⟨now,_,rfl⟩
  | timestamp => exact .inl served
  | instant => exact .inl served
  | sleep millis => exact .inl served
  | nonce => exact .inl served
  | host query => exact absurd kind id

end World

-- What a pending change stands for, here and in the remote. A sealed record that
-- does not open at its version stands for no bytes.
inductive Content where
  | json (v : Value)
  | bytes (b : Bytes)
  | unopened
  deriving DecidableEq

def Dirty.content (seal_ : MasterKey) : Dirty → Nat → Value → Content
  | .record _ _,_,v => .json v
  | .secret name,version,v =>
    match secretBytes seal_ name version v with
    | some b => .bytes b
    | none => .unopened

def localValue (host : Host) : Dirty → Option Content
  | .record table key => (host.getRaw table key).map .json
  | .secret name => (host.secrets.lookup name).map .bytes

def remoteValue (seal_ : MasterKey) (remote : Remote) (d : Dirty) : Option Content :=
  (remote.entries.lookup d.remoteKey).bind fun entry =>
    entry.value.map fun v => d.content seal_ entry.version v

section
variable {seal_ : MasterKey} {remote : Remote} {now : Int} {d : Dirty} {key : Bytes}

theorem remoteValue_other (v : Option Value) (different : d.remoteKey ≠ key) :
    remoteValue seal_ (remote.write now key v) d = remoteValue seal_ remote d := by
  simp only [remoteValue,Remote.write_other v different]

theorem remoteValue_lease (v : Option Value) :
    remoteValue seal_ (remote.write now leaseKey v) d = remoteValue seal_ remote d :=
  remoteValue_other v (remoteKey_not_lease d)

theorem remoteValue_write (v : Option Value) :
    remoteValue seal_ (remote.write now d.remoteKey v) d =
      v.map fun v => d.content seal_ (remote.counter + 1) v := by
  simp only [remoteValue,Remote.write_same,Option.bind_some]

theorem remoteValue_gone (gone : remote.live d.remoteKey = none) : remoteValue seal_ remote d = none := by
  simp only [Remote.live,Option.bind_eq_none_iff,Option.map_eq_none_iff] at gone
  simp only [remoteValue,Option.bind_eq_none_iff,Option.map_eq_none_iff]
  exact gone

theorem content_sealed (name bytes nonce : Bytes) (version : Nat) :
    (Dirty.secret name).content seal_ version (secretValue seal_ name version bytes nonce) =
      .bytes bytes := by
  simp only [Dirty.content,secretBytes_value]

end

-- The requests that leave batch, dirty set and mirrored records alone.
def Request.Quiet : Request → Prop
  | .host .takeBatch => False
  | .host (.putBack _) => False
  | .host .landed => False
  | .host _ => True
  | q => q.OfLease

theorem ofLease_quiet (q : Request) (kind : q.OfLease) : q.Quiet := by
  cases q with
  | host query => exact absurd kind id
  | _ => exact kind

theorem renewIfDue_quiet (lease : Lease) : lease.renewIfDue.Asks Request.Quiet :=
  asks_weaken ofLease_quiet _ lease.renewIfDue_asks

theorem localValue_same {host after : Host} (records : after.records = host.records)
    (secrets : after.secrets = host.secrets) (d : Dirty) : localValue after d = localValue host d := by
  cases d with
  | record table key => simp only [localValue,Host.getRaw,records]
  | secret name => simp only [localValue,secrets]

theorem Host.quiet_kept {host after : Host} (q : HostQuery) (r : q.Answer)
    (kind : (Request.host q).Quiet) (served : host.Serves q r after) :
    after.dirty = host.dirty ∧ after.inFlight = host.inFlight ∧ after.records = host.records ∧
      after.secrets = host.secrets := by
  cases q with
  | takeBatch => exact absurd kind id
  | putBack item => exact absurd kind id
  | landed => exact absurd kind id
  | dirtyIsEmpty => exact served.2 ▸ ⟨rfl,rfl,rfl,rfl⟩
  | getRaw table key => exact served.2 ▸ ⟨rfl,rfl,rfl,rfl⟩
  | secret again name => exact served.2 ▸ ⟨rfl,rfl,rfl,rfl⟩
  | seen key => exact served.2 ▸ ⟨rfl,rfl,rfl,rfl⟩
  | remember key version => exact served ▸ ⟨rfl,rfl,rfl,rfl⟩
  | forget key => exact served ▸ ⟨rfl,rfl,rfl,rfl⟩
  | putMirror key version => exact served ▸ ⟨rfl,rfl,rfl,rfl⟩
  | deleteMirror key => exact served ▸ ⟨rfl,rfl,rfl,rfl⟩
  | conflict => exact served ▸ ⟨rfl,rfl,rfl,rfl⟩

-- The requests that leave the remote, the books and the versions as they are.
def Request.Still : Request → Prop
  | .put _ _ _ => False
  | .delete _ _ => False
  | .host (.remember _ _) => False
  | .host (.forget _) => False
  | .host (.putMirror _ _) => False
  | .host (.deleteMirror _) => False
  | .host .conflict => False
  | _ => True

theorem Host.still_kept {host after : Host} (q : HostQuery) (r : q.Answer)
    (kind : (Request.host q).Still) (served : host.Serves q r after) :
    after.mirrored = host.mirrored ∧ after.versions = host.versions ∧
      after.conflicts = host.conflicts := by
  cases q with
  | remember key version => exact absurd kind id
  | forget key => exact absurd kind id
  | putMirror key version => exact absurd kind id
  | deleteMirror key => exact absurd kind id
  | conflict => exact absurd kind id
  | takeBatch => exact served.2.2 ▸ ⟨rfl,rfl,rfl⟩
  | dirtyIsEmpty => exact served.2 ▸ ⟨rfl,rfl,rfl⟩
  | getRaw table key => exact served.2 ▸ ⟨rfl,rfl,rfl⟩
  | secret again name => exact served.2 ▸ ⟨rfl,rfl,rfl⟩
  | seen key => exact served.2 ▸ ⟨rfl,rfl,rfl⟩
  | putBack item => exact served ▸ ⟨rfl,rfl,rfl⟩
  | landed => exact served ▸ ⟨rfl,rfl,rfl⟩

-- A commit touches records and secrets only, and whatever it changes it marks.
namespace Host
variable (host : Host) (op : StoreOp)

@[simp] theorem commit_dirty : (host.commit op).1.dirty = host.dirty := by
  cases op <;> simp only [commit] <;> first | rfl | (split <;> rfl)

@[simp] theorem commit_mirrored : (host.commit op).1.mirrored = host.mirrored := by
  cases op <;> simp only [commit] <;> first | rfl | (split <;> rfl)

@[simp] theorem commit_inFlight : (host.commit op).1.inFlight = host.inFlight := by
  cases op <;> simp only [commit] <;> first | rfl | (split <;> rfl)

@[simp] theorem commit_versions : (host.commit op).1.versions = host.versions := by
  cases op <;> simp only [commit] <;> first | rfl | (split <;> rfl)

@[simp] theorem commit_conflicts : (host.commit op).1.conflicts = host.conflicts := by
  cases op <;> simp only [commit] <;> first | rfl | (split <;> rfl)

variable {host} {op}

theorem localValue_put (table : Table) (key : Bytes) (value : Value) (d : Dirty) :
    localValue (host.putCached table key value) d = localValue host d ∨ d = .record table key := by
  cases d with
  | record other name =>
    by_cases same : (other,name) = (table,key)
    · cases same
      exact .inr rfl
    · refine .inl ?_
      simp only [localValue,getRaw,putCached,AList.lookup_insert_ne same]
  | secret name => exact .inl rfl

theorem localValue_delete (table : Table) (key : Bytes) (d : Dirty) :
    localValue (host.deleteCached table key) d = localValue host d ∨
      d = .record table key ∧ (host.getRaw table key).isSome := by
  cases d with
  | record other name =>
    by_cases same : (other,name) = (table,key)
    · cases same
      cases held : host.getRaw table key with
      | some value => exact .inr ⟨rfl,rfl⟩
      | none =>
        refine .inl ?_
        simp only [localValue,getRaw,deleteCached,AList.lookup_erase] at held ⊢
        rw [held]
    · refine .inl ?_
      simp only [localValue,getRaw,deleteCached,AList.lookup_erase_ne same]
  | secret name => exact .inl rfl

variable (host op) in
theorem commit_owes {d : Dirty} (mirrored : d.isMirrored) :
    localValue (host.commit op).1 d = localValue host d ∨ (host.commit op).2 = some d := by
  cases op with
  | put table key value =>
    refine (localValue_put table key value d).imp_right fun same => ?_
    exact touched_exact.mpr ⟨same,mirrored⟩
  | putNew table key value =>
    simp only [commit]
    split
    · exact .inl rfl
    · refine (localValue_put table key value d).imp_right fun same => ?_
      exact touched_exact.mpr ⟨same,mirrored⟩
  | update table key f =>
    simp only [commit]
    split
    · rename_i value _
      refine (localValue_put table key value d).imp_right fun same => ?_
      exact touched_exact.mpr ⟨same,mirrored⟩
    · refine (localValue_delete table key d).imp_right fun same => ?_
      exact touched_exact.mpr ⟨same.1,mirrored⟩
  | delete table key =>
    refine (localValue_delete table key d).imp_right fun same => ?_
    simp only [commit,same.2,if_true]
    exact touched_exact.mpr ⟨same.1,mirrored⟩
  | putSecret name value =>
    cases d with
    | record table key => exact .inl rfl
    | secret other =>
      by_cases same : other = name
      · subst same
        exact .inr (touchedSecret_exact.mpr ⟨rfl,mirrored⟩)
      · refine .inl ?_
        simp only [commit,localValue,AList.lookup_insert_ne same]
  | deleteSecret name =>
    cases d with
    | record table key => exact .inl rfl
    | secret other =>
      by_cases same : other = name
      · subst same
        cases held : host.secrets.lookup other with
        | none =>
          refine .inl ?_
          simp only [commit,localValue,AList.lookup_erase,held]
        | some value =>
          refine .inr ?_
          simp only [commit,held,Option.isSome_some,if_true]
          exact touchedSecret_exact.mpr ⟨rfl,mirrored⟩
      · refine .inl ?_
        simp only [commit,localValue,AList.lookup_erase_ne same]

end Host

end VerifiableGit.Bridge
