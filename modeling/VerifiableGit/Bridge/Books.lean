import VerifiableGit.Bridge.Alone

-- A pass of the only writer, step by step: the lease's prediction stays exact and
-- the books match the remote.
namespace VerifiableGit.Bridge
open VerifiableGit.Text VerifiableGit.Library.Interaction Mirror

section
variable {seal_ : MasterKey} {careful : Prop} {s t : Tracked} {key : Bytes} {V : Map Bytes Nat → Prop}

theorem lease_put_tracked {value : Value} {expected : Option Nat} {r : PutResult}
    (served : s.Serves careful (.put leaseKey value expected) r t) (calm : Calm seal_ careful none s) :
    Calm seal_ careful none t ∧ t.host = s.host ∧
      ∀ v, r = .ok v → v = s.remote.counter + 1 ∧ t.remote.counter = v := by
  have opens (name : Bytes) (v : Value) (same : leaseKey = secretKey name) (_ : some value = some v) :
      ∃ bytes, secretBytes seal_ name (s.remote.counter + 1) v = some bytes :=
    absurd same.symm secret_not_lease
  generalize world : t.world = after
  have outcome := World.put_served (world ▸ served.world)
  have host : t.host = after.host := congrArg World.host world
  cases outcome with
  | stored now passed =>
    have lost : t.lost = s.lost := served.lost
    refine ⟨calm_write world served.past (by rw [lost]) opens (.inl rfl) calm,host,?_⟩
    intro v same
    cases same
    exact ⟨rfl,congrArg (fun w => w.remote.counter) world⟩
  | refused e stopped =>
    have lost := served.lost.trans (lost_stays (α := Nat) e world)
    exact ⟨calm_stayed world served.past lost calm,host,fun v same => nomatch same⟩
  | failed e =>
    have lost := served.lost.trans (lost_stays (α := Nat) (.other e) world)
    exact ⟨calm_stayed world served.past lost calm,host,fun v same => nomatch same⟩
  | lost now e passed =>
    have gone : t.lost = insert leaseKey s.lost := by
      refine served.lost.trans (if_neg ?_)
      rw [world]
      exact Nat.succ_ne_self _
    refine ⟨calm_write world served.past ?_ opens (.inl rfl) calm,host,fun v same => nomatch same⟩
    rw [gone]
    exact Finset.subset_insert _ _

theorem lease_delete_tracked {expected : Option Nat} {r : DeleteResult}
    (served : s.Serves careful (.delete leaseKey expected) r t) (calm : Calm seal_ careful none s) :
    Calm seal_ careful none t := by
  have opens (name : Bytes) (v : Value) (_ : leaseKey = secretKey name) (held : none = some v) :
      ∃ bytes, secretBytes seal_ name (s.remote.counter + 1) v = some bytes := nomatch held
  generalize world : t.world = after
  have outcome := World.delete_served (world ▸ served.world)
  cases outcome with
  | absent gone => exact calm_stayed world served.past served.lost calm
  | removed now c alive passed =>
    have lost : t.lost = s.lost := served.lost
    exact calm_write world served.past (by rw [lost]) opens (.inl rfl) calm
  | refused c e alive stopped =>
    exact calm_stayed world served.past (served.lost.trans (lost_stays (α := Option Nat) e world)) calm
  | failed e =>
    have lost := served.lost.trans (lost_stays (α := Option Nat) (.other e) world)
    exact calm_stayed world served.past lost calm
  | lost now e c alive passed =>
    have gone : t.lost = insert leaseKey s.lost := by
      refine served.lost.trans (if_neg ?_)
      rw [world]
      exact Nat.succ_ne_self _
    refine calm_write world served.past ?_ opens (.inl rfl) calm
    rw [gone]
    exact Finset.subset_insert _ _

-- The lease foretells the version the next write takes.
def Tight (lease : Lease) (s : Tracked) : Prop := lease.next = s.remote.counter + 1

def Acquired (seal_ : MasterKey) (careful : Prop) (res : Except Fault Lease) (s : Tracked) : Prop :=
  Calm seal_ careful none s ∧ ∀ lease, res = .ok lease → Tight lease s

theorem unacquired (e : Fault) (calm : Calm seal_ careful none s) :
    (tracking seal_ careful).Holds (Acquired seal_ careful) (.done (.error e)) s :=
  steady_done (steady_calm none) (fun _ there => ⟨there,fun _ same => nomatch same⟩) calm

theorem waitTurn_acquired {again : Code (Except Fault Lease)} (deadline : Nat)
    (turns : ∀ s, Calm seal_ careful none s →
      (tracking seal_ careful).Holds (Acquired seal_ careful) again s)
    (calm : Calm seal_ careful none s) :
    (tracking seal_ careful).Holds (Acquired seal_ careful) (Lease.waitTurn deadline again) s := by
  simp only [Lease.waitTurn,request_bind,pure_done]
  refine still_call (steady_calm none) trivial (fun _ now t _ calm _ => ?_) calm
  split
  · exact unacquired _ calm
  · exact still_call (steady_calm none) trivial (fun _ _ t _ calm _ => turns t calm) calm

theorem acquireLoop_acquired (holder : Bytes) (deadline fuel : Nat) (calm : Calm seal_ careful none s) :
    (tracking seal_ careful).Holds (Acquired seal_ careful)
      (Lease.acquireLoop holder deadline fuel) s := by
  induction fuel generalizing s with
  | zero => exact unacquired _ calm
  | succ fuel ih =>
    simp only [Lease.acquireLoop,request_bind,pure_done]
    refine still_call (steady_calm none) trivial (fun _ now _ _ calm _ => ?_) calm
    refine still_call (steady_calm none) trivial (fun _ current _ _ calm _ => ?_) calm
    cases current with
    | error e => exact unacquired e calm
    | ok current =>
      dsimp only
      split
      · exact waitTurn_acquired deadline (fun t calm => ih calm) calm
      · refine still_call (steady_calm none) trivial (fun _ sent _ _ calm _ => ?_) calm
        refine holds_call (steady_calm none).stable (steady_calm none).always
          (fun s answer t before served => ⟨trivial,?_⟩) calm
        obtain ⟨calm,_,taken⟩ := lease_put_tracked served before
        match answer with
        | .ok version =>
          obtain ⟨_,counter⟩ := taken version rfl
          refine steady_done (steady_facts none fun remote _ => remote.counter = version)
            (fun u there => ⟨there.1,fun lease same => ?_⟩) ⟨calm,counter⟩
          cases same
          exact congrArg Nat.succ there.2.symm
        | .error (.conflict _) => exact waitTurn_acquired deadline (fun t calm => ih calm) calm
        | .error (.other e) => exact unacquired e calm

theorem acquire_acquired (fuel : Nat) (holder : Bytes) (wait : Nat) (calm : Calm seal_ careful none s) :
    (tracking seal_ careful).Holds (Acquired seal_ careful) (Lease.acquire fuel holder wait) s := by
  simp only [Lease.acquire,request_bind]
  exact still_call (steady_calm none) trivial
    (fun _ _ _ _ calm _ => acquireLoop_acquired holder _ fuel calm) calm

theorem release_calm (lease : Lease) (calm : Calm seal_ careful none s) :
    (tracking seal_ careful).Holds (fun _ => Calm seal_ careful none) lease.release s := by
  simp only [Lease.release,request_bind,pure_done]
  refine holds_call (steady_calm none).stable (steady_calm none).always
    (fun s _ t before served => ⟨trivial,?_⟩) calm
  exact steady_done (steady_calm none) (fun _ there => there) (lease_delete_tracked served before)

-- Calm with an exact lease, and what is known of the versions in memory.
def Ready (seal_ : MasterKey) (careful : Prop) (V : Map Bytes Nat → Prop) (lease : Lease) (s : Tracked) :
    Prop :=
  Calm seal_ careful none s ∧ lease.next = s.remote.counter + 1 ∧ V s.host.versions

theorem steady_ready (V : Map Bytes Nat → Prop) (lease : Lease) :
    Steady seal_ careful (Ready seal_ careful V lease) :=
  steady_facts none fun remote versions => lease.next = remote.counter + 1 ∧ V versions

def Renewed (seal_ : MasterKey) (careful : Prop) (V : Map Bytes Nat → Prop)
    (res : Except Fault Unit × Lease) (s : Tracked) : Prop :=
  Calm seal_ careful none s ∧ (res.1 = .ok () → Ready seal_ careful V res.2 s)

theorem renewIfDue_ready (lease : Lease) (ready : Ready seal_ careful V lease s) :
    (tracking seal_ careful).Holds (Renewed seal_ careful V) lease.renewIfDue s := by
  have steady : Steady seal_ careful _ := steady_ready V lease
  have fails {e : Fault} {s : Tracked} (calm : Calm seal_ careful none s) :
      (tracking seal_ careful).Holds (Renewed seal_ careful V) (.done (.error e,lease)) s :=
    steady_done (steady_calm none) (fun _ there => ⟨there,fun same => nomatch same⟩) calm
  simp only [Lease.renewIfDue,request_bind,pure_done]
  refine still_call steady trivial (fun _ now _ _ ready _ => ?_) ready
  split
  · exact steady_done steady (fun t there => ⟨there.1,fun _ => there⟩) ready
  · split
    · exact fails ready.1
    · refine still_call steady trivial (fun _ sent _ _ ready _ => ?_) ready
      refine still_call steady trivial (fun _ time _ _ ready _ => ?_) ready
      refine holds_call steady.stable steady.always (fun s answer t before served => ⟨trivial,?_⟩) ready
      obtain ⟨calm,host,taken⟩ := lease_put_tracked served before.1
      cases answer with
      | error e => exact fails calm
      | ok v =>
        obtain ⟨next,counter⟩ := taken v rfl
        have exact_ := before.2.1
        refine steady_done (steady_ready V _) (fun u there => ⟨there.1,fun _ => there⟩) ⟨calm,?_,?_⟩
        · simp only [Lease.observe]
          omega
        · rw [host]
          exact before.2.2

-- What an answered write or deletion of `key` leaves to be booked.
def Answered (seal_ : MasterKey) (careful : Prop) (key : Bytes) :
    Except PutError (Option Nat) → Lease → Tracked → Prop
  | .ok (some v),lease,t => (Calm seal_ careful (some key) t ∧
      t.remote.live key = some v ∧ t.remote.counter = v ∧ lease.next ≤ v + 1) ∧ Booked t key v
  | .ok none,lease,t => Calm seal_ careful (some key) t ∧
      t.remote.live key = none ∧ lease.next = t.remote.counter + 1
  | .error (.conflict _),_,t => Calm seal_ careful none t ∧ ¬ careful
  | .error (.other _),_,t => Calm seal_ careful none t

-- After a write: calm, and with the lease still exact if it worked.
def Kept (seal_ : MasterKey) (careful : Prop) (res : Except Fault Unit × Lease) (s : Tracked) : Prop :=
  Calm seal_ careful none s ∧ (res.1 = .ok () → Tight res.2 s)

theorem kept_fails {e : Fault} {lease : Lease} (calm : Calm seal_ careful none s) :
    (tracking seal_ careful).Holds (Kept seal_ careful) (.done (.error e,lease)) s :=
  steady_done (steady_calm none) (fun _ there => ⟨there,fun same => nomatch same⟩) calm

theorem calm_excused (calm : Calm seal_ careful none s) : Calm seal_ careful (some key) s :=
  ⟨calm.1,fun yes => ⟨(calm.2 yes).1,fun k plain _ => (calm.2 yes).2 k plain nofun⟩⟩

-- Booking the key's version, or its absence, makes the books right again.
theorem settled_booked (versions : Map Bytes Nat) (remote : t.remote = s.remote)
    (host : t.host.versions = versions) (conflicts : t.host.conflicts = s.host.conflicts)
    (here : versions.lookup key = s.remote.live key)
    (others : ∀ k, k ≠ key → versions.lookup k = s.host.versions.lookup k)
    (lost : ∀ k, k ≠ key → k ∈ s.lost → k ∈ t.lost) (settled : Settled careful (some key) s) :
    Settled careful none t := by
  intro yes
  obtain ⟨none_,knows⟩ := settled yes
  refine ⟨conflicts.trans none_,fun k plain _ known => ?_⟩
  rw [host,remote]
  by_cases same : k = key
  · exact same ▸ here
  · rw [others k same]
    exact knows k plain (fun eq => same (Option.some.inj eq)) fun before => known (lost k same before)

theorem past_served (q : Request) (r : q.Answer) (served : s.Serves careful q r t) (earlier : Remote)
    (inside : earlier ∈ t.past) : earlier = s.remote ∨ earlier ∈ s.past :=
  List.mem_cons.mp (served.past ▸ inside)

theorem settle_stored (v : Nat) (lease : Lease)
    (here : Answered seal_ careful key (.ok (some v)) lease s) :
    (tracking seal_ careful).Holds (Kept seal_ careful) (settle key (.ok (some v)) lease) s := by
  obtain ⟨⟨calm,alive,counter,next⟩,booked⟩ := here
  simp only [settle,access_bind,pure_done]
  have steady : Steady seal_ careful _ := steady_booked (steady_facts (some key)
    fun remote _ => remote.live key = some v ∧ remote.counter = v) key v
  refine holds_call steady.stable steady.always (fun s r t before served => ⟨trivial,?_⟩)
    ⟨⟨calm,alive,counter⟩,booked⟩
  obtain ⟨⟨calm,alive,counter⟩,booked⟩ := before
  have host : t.host = { s.host with versions := s.host.versions.insert key v } := served.world.1
  have remote : t.remote = s.remote := served.world.2.1
  have past := past_served _ r served
  have core : Core seal_ t :=
    core_books remote past (fun _ _ known => .inl (by rw [host] at known; exact known)) calm.1
  have settled : Settled careful none t := by
    refine settled_booked (s.host.versions.insert key v) remote (by rw [host]) (by rw [host])
      ?_ (fun k other => AList.lookup_insert_ne other) (fun k _ known => ?_) calm.2
    · rw [AList.lookup_insert,alive]
    · rw [served.lost]
      exact known
  have steady : Steady seal_ careful _ := steady_booked (steady_facts none
    fun remote _ => remote.counter = v) key v
  refine holds_call steady.stable steady.always (fun s r u before served => ⟨trivial,?_⟩)
    ⟨⟨⟨core,settled⟩,(by rw [remote]; exact counter)⟩,booked_unmoved remote past booked⟩
  obtain ⟨⟨calm,counter⟩,booked⟩ := before
  have host : u.host = s.host.putMirror key v := served.world.1
  have remote : u.remote = s.remote := served.world.2.1
  have core : Core seal_ u := by
    refine core_books remote (past_served _ r served) (fun k m known => ?_) calm.1
    rw [host] at known
    by_cases same : k = key
    · subst same
      simp only [Host.putMirror,AList.lookup_insert,Option.some.injEq] at known
      exact .inr (known ▸ booked)
    · simp only [Host.putMirror,AList.lookup_insert_ne same] at known
      exact .inl known
  have settled : Settled careful none u :=
    settled_same remote (by rw [host]; rfl) (by rw [host]; rfl) served.lost calm.2
  refine steady_done (steady_facts none fun remote _ => remote.counter = v)
    (fun z there => ⟨there.1,fun _ => ?_⟩) ⟨⟨core,settled⟩,(by rw [remote]; exact counter)⟩
  have counter := there.2
  simp only [Tight,Lease.observe]
  omega

theorem settle_removed (lease : Lease) (here : Answered seal_ careful key (.ok none) lease s) :
    (tracking seal_ careful).Holds (Kept seal_ careful) (settle key (.ok none) lease) s := by
  obtain ⟨calm,gone,next⟩ := here
  simp only [settle,access_bind,pure_done]
  have steady : Steady seal_ careful _ := steady_facts (some key)
    fun remote _ => remote.live key = none ∧ lease.next = remote.counter + 1
  refine holds_call steady.stable steady.always (fun s r t before served => ⟨trivial,?_⟩) ⟨calm,gone,next⟩
  obtain ⟨calm,gone,next⟩ := before
  have host : t.host = { s.host with versions := s.host.versions.erase key } := served.world.1
  have remote : t.remote = s.remote := served.world.2.1
  have core : Core seal_ t :=
    core_books remote (past_served _ r served)
      (fun _ _ known => .inl (by rw [host] at known; exact known)) calm.1
  have settled : Settled careful none t := by
    refine settled_booked (s.host.versions.erase key) remote (by rw [host]) (by rw [host])
      ?_ (fun k other => AList.lookup_erase_ne other) (fun k other known => ?_) calm.2
    · rw [AList.lookup_erase,gone]
    · rw [served.lost]
      exact Finset.mem_erase.mpr ⟨other,known⟩
  have steady : Steady seal_ careful _ := steady_facts none
    fun remote _ => lease.next = remote.counter + 1
  refine holds_call steady.stable steady.always (fun s r u before served => ⟨trivial,?_⟩)
    ⟨⟨core,settled⟩,(by rw [remote]; exact next)⟩
  obtain ⟨calm,next⟩ := before
  have host : u.host = s.host.deleteMirror key := served.world.1
  have remote : u.remote = s.remote := served.world.2.1
  have core : Core seal_ u := by
    refine core_books remote (past_served _ r served) (fun k m known => .inl ?_) calm.1
    rw [host] at known
    by_cases same : k = key
    · subst same
      simp only [Host.deleteMirror,AList.lookup_erase] at known
      cases known
    · simpa only [Host.deleteMirror,AList.lookup_erase_ne same] using known
  have settled : Settled careful none u :=
    settled_same remote (by rw [host]; rfl) (by rw [host]; rfl) served.lost calm.2
  exact steady_done steady (fun z there => ⟨there.1,fun _ => there.2⟩)
    ⟨⟨core,settled⟩,(by rw [remote]; exact next)⟩

theorem settle_kept (answer : Except PutError (Option Nat)) (lease : Lease)
    (here : Answered seal_ careful key answer lease s) :
    (tracking seal_ careful).Holds (Kept seal_ careful) (settle key answer lease) s := by
  match answer with
  | .ok (some v) => exact settle_stored v lease here
  | .ok none => exact settle_removed lease here
  | .error (.other e) => exact kept_fails here
  | .error (.conflict c) =>
    simp only [settle,access_bind,pure_done]
    have steady : Steady seal_ careful fun s => Calm seal_ careful none s ∧ ¬ careful :=
      steady_facts none fun _ _ => ¬ careful
    refine holds_call steady.stable steady.always (fun s r t before served => ⟨trivial,?_⟩) here
    have host : t.host = { s.host with conflicts := s.host.conflicts + 1 } := served.world.1
    refine kept_fails ⟨core_books served.world.2.1 (past_served _ r served)
      (fun _ _ known => .inl (by rw [host] at known; exact known)) before.1.1,
      fun yes => absurd yes before.2⟩

theorem putSealed_answered (name bytes : Bytes) (seen : Option Nat) (attempts : Nat) (lease : Lease)
    (ready : Ready seal_ careful (fun versions => versions.lookup (secretKey name) = seen) lease s) :
    (tracking seal_ careful).Holds
      (fun res t => Answered seal_ careful (secretKey name) (res.1.map some) res.2 t)
      (putSealedLoop seal_ name bytes (attempts + 1) (seen.getD 0) lease) s := by
  have fails {e : Fault} {lease : Lease} {s : Tracked} (calm : Calm seal_ careful none s) :
      (tracking seal_ careful).Holds
        (fun res t => Answered seal_ careful (secretKey name) (res.1.map some) res.2 t)
        (.done (Except.error (PutError.other e),lease)) s :=
    steady_done (steady_calm none) (fun _ there => there) calm
  rw [putSealedLoop]
  refine holds_bind _ _ (renewIfDue_ready lease ready) ?_
  rintro ⟨renewed,lease⟩ t ⟨calm,ready⟩
  cases renewed with
  | error e => exact fails calm
  | ok _ =>
    simp only [request_bind]
    refine still_call (steady_ready _ lease) trivial (fun _ nonce _ _ ready _ => ?_) (ready rfl)
    cases nonce with
    | none => exact fails ready.1
    | some nonce =>
      refine holds_call (steady_ready _ lease).stable (steady_ready _ lease).always
        (fun s r t before served => ⟨trivial,?_⟩) ready
      obtain ⟨calm,tight,versions⟩ := before
      have outcome := put_tracked seal_ secret_not_lease served (fun other same => ?_)
        (fun yes known => ?_) calm
      · cases outcome with
        | other e calm => exact fails calm
        | conflict c careless calm =>
          exact steady_done (steady_facts none fun _ _ => ¬ careful) (fun _ there => there) ⟨calm,careless⟩
        | stored counter calm alive booked =>
          simp only [tight,if_true]
          refine steady_done (steady_booked (steady_facts (some (secretKey name)) fun remote _ =>
            remote.live (secretKey name) = some (s.remote.counter + 1) ∧
              remote.counter = s.remote.counter + 1) (secretKey name) (s.remote.counter + 1))
            (fun u there => ?_) ⟨⟨calm,alive,counter⟩,booked⟩
          refine ⟨⟨there.1.1,there.1.2.1,there.1.2.2,?_⟩,there.2⟩
          simp only [Lease.observe,tight]
          omega
      · cases secretKey_inj same
        exact ⟨bytes,by rw [tight]; exact secretBytes_value seal_ name _ bytes nonce⟩
      · have knows := (calm.2 yes).2 (secretKey name) secret_not_lease nofun known
        rw [versions] at knows
        rw [knows]

theorem send_kept (d : Dirty) (x : Option Value) (seen : Option Nat) (lease : Lease)
    (ready : Ready seal_ careful (fun versions => versions.lookup d.remoteKey = seen) lease s) :
    (tracking seal_ careful).Holds (Kept seal_ careful) (send seal_ d x seen lease) s := by
  have plain := remoteKey_not_lease d
  have knows {s : Tracked} (calm : Calm seal_ careful none s)
      (versions : s.host.versions.lookup d.remoteKey = seen) (yes : careful)
      (known : d.remoteKey ∉ s.lost) : seen = s.remote.live d.remoteKey :=
    versions.symm.trans ((calm.2 yes).2 _ plain (fun other => by cases other) known)
  cases x with
  | none =>
    obtain ⟨after,code,some_,none_,failed⟩ := send_absent seal_ d seen lease
    rw [code]
    refine holds_call (steady_ready _ lease).stable (steady_ready _ lease).always
      (fun s r t before served => ⟨trivial,?_⟩) ready
    obtain ⟨calm,tight,versions⟩ := before
    have outcome := delete_tracked seal_ plain served (knows calm versions) calm
    cases outcome with
    | removed counter calm gone =>
      rw [some_]
      refine settle_kept _ _ ⟨calm,gone,?_⟩
      simp only [Lease.observe]
      omega
    | absent counter calm gone =>
      rw [none_]
      exact settle_kept _ _ ⟨calm_excused calm,gone,by rw [counter,tight]⟩
    | conflict c careless calm =>
      rw [failed]
      exact settle_kept _ _ ⟨calm,careless⟩
    | other e calm =>
      rw [failed]
      exact settle_kept _ _ calm
  | some v =>
    cases d with
    | record table name =>
      simp only [send,request_bind]
      refine holds_call (steady_ready _ lease).stable (steady_ready _ lease).always
        (fun s r t before served => ⟨trivial,?_⟩) ready
      obtain ⟨calm,tight,versions⟩ := before
      have outcome := put_tracked seal_ plain served (fun other same => absurd same state_not_secret)
        (fun yes known => by rw [knows calm versions yes known]) calm
      cases outcome with
      | stored counter calm alive booked =>
        exact settle_kept _ _ ⟨⟨calm,alive,counter,by omega⟩,booked⟩
      | conflict c careless calm => exact settle_kept _ _ ⟨calm,careless⟩
      | other e calm => exact settle_kept _ _ calm
    | secret name =>
      simp only [send,access_bind]
      refine still_call (steady_ready _ lease) trivial (fun _ bytes t _ ready _ => ?_) ready
      cases bytes with
      | none => exact steady_done (steady_ready _ lease) (fun u there => ⟨there.1,fun _ => there.2.1⟩) ready
      | some bytes =>
        refine holds_bind _ _ (putSealed_answered name bytes seen 3 lease ready) ?_
        rintro ⟨answer,lease⟩ u answered
        exact settle_kept _ lease answered

theorem write_kept (size : Value → Nat) (d : Dirty) (lease : Lease)
    (ready : Ready seal_ careful (fun _ => True) lease s) :
    (tracking seal_ careful).Holds (Kept seal_ careful) (write seal_ size d lease) s := by
  have steady : Steady seal_ careful _ := steady_ready (fun _ => True) lease
  have value : (tracking seal_ careful).Holds
      (fun _ => Ready seal_ careful (fun _ => True) lease) (currentValue seal_ d) s := by
    cases d with
    | record table name =>
      simp only [currentValue,access_bind,pure_done]
      refine still_call steady trivial (fun _ _ _ _ ready _ => ?_) ready
      exact steady_done steady (fun _ there => there) ready
    | secret name =>
      simp only [currentValue,access_bind,request_bind,pure_done]
      refine still_call steady trivial (fun _ bytes _ _ ready _ => ?_) ready
      cases bytes with
      | none => exact steady_done steady (fun _ there => there) ready
      | some bytes =>
        refine still_call steady trivial (fun _ nonce _ _ ready _ => ?_) ready
        cases nonce <;> exact steady_done steady (fun _ there => there) ready
  rw [write]
  refine holds_bind _ _ value fun value t ready => ?_
  cases value with
  | error e => exact kept_fails ready.1
  | ok x =>
    dsimp only
    split
    · exact steady_done steady (fun u there => ⟨there.1,fun _ => there.2.1⟩) ready
    · simp only [access_bind]
      refine still_call steady trivial (fun s r t before after served => ?_) ready
      have read : r = s.host.versions.lookup d.remoteKey := served.world.1.1
      have same := (still_unmoved (.host (.seen d.remoteKey)) r trivial served).versions
      exact send_kept d x r lease ⟨after.1,after.2.1,by rw [same,read]⟩

-- Between two items: calm, and the lease exact as long as nothing failed.
def Going (seal_ : MasterKey) (careful : Prop) (failed : Option Fault) (lease : Lease) (s : Tracked) :
    Prop :=
  Calm seal_ careful none s ∧ (failed = none → lease.next = s.remote.counter + 1)

theorem steady_going (failed : Option Fault) (lease : Lease) :
    Steady seal_ careful (Going seal_ careful failed lease) :=
  steady_facts none fun remote _ => failed = none → lease.next = remote.counter + 1

theorem going_done {failed : Option Fault} {lease : Lease} (going : Going seal_ careful failed lease s) :
    (tracking seal_ careful).Holds (fun res => Going seal_ careful res.1 res.2) (.done (failed,lease)) s :=
  steady_done (steady_going failed lease) (fun _ there => there) going

theorem writeItem_going (size : Value → Nat) (d : Dirty) (failed : Option Fault) (lease : Lease)
    (going : Going seal_ careful failed lease s) :
    (tracking seal_ careful).Holds (fun res => Going seal_ careful res.1 res.2)
      (writeItem seal_ size d failed lease) s := by
  cases failed with
  | some e => exact going_done going
  | none =>
    simp only [writeItem,pure_done]
    refine holds_bind _ _ (renewIfDue_ready (V := fun _ => True) lease ⟨going.1,going.2 rfl,trivial⟩) ?_
    rintro ⟨renewed,lease⟩ t ⟨calm,ready⟩
    cases renewed with
    | error e => exact going_done ⟨calm,nofun⟩
    | ok _ =>
      refine holds_bind _ _ (write_kept size d lease (ready rfl)) ?_
      rintro ⟨res,lease⟩ u ⟨calm,tight⟩
      cases res with
      | error e => exact going_done ⟨calm,nofun⟩
      | ok _ => exact going_done ⟨calm,fun _ => tight rfl⟩

theorem passItems_calm (size : Value → Nat) (items : List Dirty) (failed : Option Fault) (lease : Lease)
    (going : Going seal_ careful failed lease s) :
    (tracking seal_ careful).Holds (fun _ => Calm seal_ careful none)
      (passItems seal_ size items failed lease) s := by
  induction items generalizing failed lease s with
  | nil => exact steady_done (steady_going failed lease) (fun _ there => there.1) going
  | cons item rest ih =>
    rw [passItems]
    refine holds_bind _ _ (writeItem_going size item failed lease going) ?_
    rintro ⟨failed,lease⟩ t going
    have steady : Steady seal_ careful _ := steady_going failed lease
    have back : (tracking seal_ careful).Holds (fun _ => Going seal_ careful failed lease)
        (putBack item failed) t := by
      cases failed with
      | none => exact steady_done steady (fun _ there => there) going
      | some e =>
        refine still_call steady trivial (fun _ _ _ _ going _ => ?_) going
        exact steady_done steady (fun _ there => there) going
    refine holds_bind _ _ back fun _ u going => ?_
    simp only [access_bind]
    exact still_call steady trivial (fun _ _ _ _ going _ => ih failed lease going) going

theorem syncPass_calm (size : Value → Nat) (holder : Bytes) (fuel : Nat)
    (calm : Calm seal_ careful none s) :
    (tracking seal_ careful).Holds (fun _ => Calm seal_ careful none)
      (syncPass seal_ size holder fuel) s := by
  have ends {res : Except Fault Unit} {s : Tracked} (calm : Calm seal_ careful none s) :
      (tracking seal_ careful).Holds (fun _ => Calm seal_ careful none) (.done res) s :=
    steady_done (steady_calm none) (fun _ there => there) calm
  simp only [syncPass,access_bind,pure_done]
  refine still_call (steady_calm none) trivial (fun _ idle _ _ calm _ => ?_) calm
  split
  · exact ends calm
  · refine holds_bind _ _ (acquire_acquired fuel holder 10000 calm) ?_
    rintro acquired t ⟨calm,tight⟩
    cases acquired with
    | error e => exact ends calm
    | ok lease =>
      refine still_call (steady_facts none fun remote _ => lease.next = remote.counter + 1) trivial
        (fun _ batch _ _ ready _ => ?_) ⟨calm,tight lease rfl⟩
      refine holds_bind _ _ (passItems_calm size batch none lease ⟨ready.1,fun _ => ready.2⟩) ?_
      rintro ⟨failed,lease⟩ u calm
      refine holds_bind _ _ (release_calm lease calm) fun _ v calm => ?_
      cases failed <;> exact ends calm

end

end VerifiableGit.Bridge
