import VerifiableGit.Bridge.Writers

-- One writer among the others: taking the lease, keeping it, and why nothing of
-- anybody else's lands while it is good.
namespace VerifiableGit.Bridge.Writers
open VerifiableGit.Text VerifiableGit.Library.Interaction Mirror

section
variable {ι : Type} [DecidableEq ι] (seal_ : MasterKey) (holder : ι → Bytes) (i : ι)

-- The lease record at this version, where it is live, is the writer's own.
structure Mine (lease : Lease) (s : Shared ι) : Prop where
  version : 0 < lease.version
  below : lease.version ≤ s.remote.counter
  named : lease.holder = holder i
  own : ∀ r, s.remote.get leaseKey = some r → r.version = lease.version → leaseHolder r = holder i

-- By its deadline the lease is at most 31 seconds past the end others read.
def leaseLag : Nat := 31000

-- Nobody has taken the lease since, and the next version is the next write's.
def Here (lease : Lease) (s : Shared ι) : Prop :=
  (∃ r, s.remote.get leaseKey = some r ∧ r.version = lease.version ∧
    (lease.deadline : Int) ≤ leaseExpiry r * 1000 + leaseLag) ∧ lease.next = s.remote.counter + 1

-- Somebody has, so its end has passed.
def Gone (lease : Lease) (s : Shared ι) : Prop :=
  (∀ r, s.remote.get leaseKey = some r → r.version ≠ lease.version) ∧
    lease.deadline + 1000 ≤ s.now + leaseLag

structure Held (lease : Lease) (s : Shared ι) : Prop where
  mine : Mine holder i lease s
  next : s.held i = some lease.next
  turn : Here lease s ∨ Gone lease s

-- Held, with enough of it left for one request.
structure Ready (lease : Lease) (s : Shared ι) : Prop where
  held : Held holder i lease s
  left : s.clock i + leaseTtlMillis / 2 ≤ lease.deadline

end

section
variable {ι : Type} {seal_ : MasterKey} {holder : ι → Bytes} {i : ι} {s t : Shared ι}
variable {lease : Lease} {q : Request}

theorem seconds_floor (millis : Nat) : seconds millis * 1000 ≤ millis ∧ (millis : Int) < seconds millis * 1000 + 1000 := by
  unfold seconds
  omega

theorem write_get {remote : Remote} {now : Int} {key : Bytes} {v : Option Value} {r : Record}
    (here : (remote.write now key v).get leaseKey = some r) :
    key ≠ leaseKey ∧ remote.get leaseKey = some r ∨ r.version = remote.counter + 1 := by
  by_cases same : key = leaseKey
  · subst same
    cases v with
    | none =>
      rw [Remote.get_removed] at here
      cases here
    | some v =>
      rw [Remote.get_write,Option.some.injEq] at here
      exact .inr (here ▸ rfl)
  · rw [Remote.get_other v (Ne.symm same)] at here
    exact .inl ⟨same,here⟩

theorem change_counter (change : Change holder i s.toNet t.toNet) : s.remote.counter ≤ t.remote.counter := by
  cases change with
  | none same => rw [same]
  | lease now v wrote _ =>
    rw [wrote]
    exact Nat.le_succ _
  | other now key v _ wrote _ =>
    rw [wrote]
    exact Nat.le_succ _

-- What is at the lease key after a change was there before, or is newer than all.
theorem change_get {r : Record} (change : Change holder i s.toNet t.toNet)
    (here : t.remote.get leaseKey = some r) :
    s.remote.get leaseKey = some r ∨ s.remote.counter < r.version := by
  cases change with
  | none same => exact .inl (same ▸ here)
  | lease now v wrote _ =>
    rw [wrote] at here
    rcases write_get here with ⟨other,_⟩ | new
    · exact absurd rfl other
    · exact .inr (Nat.lt_of_lt_of_eq (Nat.lt_succ_self _) new.symm)
  | other now key v _ wrote _ =>
    rw [wrote] at here
    rcases write_get here with ⟨_,before⟩ | new
    · exact .inl before
    · exact .inr (Nat.lt_of_lt_of_eq (Nat.lt_succ_self _) new.symm)

theorem change_counted (change : Change holder i s.toNet t.toNet) (counted : s.remote.Counted) :
    t.remote.Counted := by
  cases change with
  | none same => exact same ▸ counted
  | lease now v wrote _ => exact wrote ▸ Remote.counted_write counted now leaseKey v
  | other now key v _ wrote _ => exact wrote ▸ Remote.counted_write counted now key v

theorem mine_changed {j : ι} (change : Change holder j s.toNet t.toNet) (mine : Mine holder i lease s) :
    Mine holder i lease t := by
  refine ⟨mine.version,Nat.le_trans mine.below (change_counter change),mine.named,?_⟩
  intro r here version
  rcases change_get change here with before | newer
  · exact mine.own r before version
  · exact absurd (Nat.lt_of_lt_of_eq newer version) (Nat.not_lt.mpr mine.below)

theorem mine_relied (relied : Relied seal_ holder i s t) (mine : Mine holder i lease s) :
    Mine holder i lease t := by
  obtain ⟨j,_,change⟩ := relied.change
  exact mine_changed change mine

-- Somebody else's request: the lease is as it was, or it was past its end.
theorem turn_relied (relied : Relied seal_ holder i s t) (mine : Mine holder i lease s)
    (turn : Here lease s ∨ Gone lease s) : Here lease t ∨ Gone lease t := by
  obtain ⟨j,different,change⟩ := relied.change
  rcases turn with ⟨⟨r,here,version,good⟩,next⟩ | ⟨taken,past⟩
  · have holds := mine.own r here version
    cases change with
    | none same =>
      refine .inl ⟨⟨r,?_,version,good⟩,?_⟩
      · rw [same]
        exact here
      · rw [same]
        exact next
    | lease now v wrote free =>
      refine .inr ⟨fun r' here' => ?_,?_⟩
      · rw [wrote] at here'
        rcases write_get here' with ⟨other,_⟩ | new
        · exact absurd rfl other
        · rw [new]
          exact Nat.ne_of_gt (Nat.lt_succ_of_le mine.below)
      · rcases free r here with expired | own
        · have floor := (seconds_floor t.now).1
          unfold leaseLag at good ⊢
          omega
        · exact absurd (own.symm.trans holds) different
    | other now key v plain wrote own =>
      obtain ⟨r',here',own⟩ := own
      cases here'.symm.trans here
      exact absurd (own.symm.trans holds) different
  · refine .inr ⟨fun r here => ?_,Nat.le_trans past (Nat.add_le_add_right relied.now _)⟩
    rcases change_get change here with before | newer
    · exact taken r before
    · exact Nat.ne_of_gt (Nat.lt_of_le_of_lt mine.below newer)

theorem held_relied (relied : Relied seal_ holder i s t) (held : Held holder i lease s) :
    Held holder i lease t :=
  ⟨mine_relied relied held.mine,relied.held.trans held.next,turn_relied relied held.mine held.turn⟩

theorem ready_relied (relied : Relied seal_ holder i s t) (ready : Ready holder i lease s) :
    Ready holder i lease t := by
  refine ⟨held_relied relied ready.held,?_⟩
  rw [relied.clock]
  exact ready.left

theorem sound_relied (relied : Relied seal_ holder i s t) (sound : Sound seal_ s) : Sound seal_ t := by
  obtain ⟨j,_,change⟩ := relied.change
  exact ⟨relied.sound sound.opens,change_counted change sound.counted⟩

theorem seconds_shown (c : Nat) (shown : c ≤ clockMax) :
    i64Min ≤ seconds c + leaseTtlSecs ∧ seconds c + leaseTtlSecs ≤ i64Max := by
  unfold clockMax at shown
  unfold seconds leaseTtlSecs i64Min i64Max
  omega

theorem leaseValue_until (name : Bytes) (n : Int) (low : i64Min ≤ n) (high : n ≤ i64Max) :
    ((leaseValue name n).get (ascii "until")).bind Field.asI64 = some n := by
  have found : (leaseValue name n).get (ascii "until") = some (.int n) := rfl
  rw [found]
  exact if_pos ⟨low,high⟩

theorem leaseExpiry_written (version c at_ : Nat) (name : Bytes) (before : c ≤ at_) (shown : c ≤ clockMax) :
    leaseExpiry ⟨version,false,leaseValue name (seconds c + leaseTtlSecs),some (seconds at_)⟩ =
      seconds c + leaseTtlSecs := by
  have inside := seconds_shown c shown
  have later : seconds c ≤ seconds at_ := Int.ofNat_le.mpr (Nat.div_le_div_right before)
  simp only [leaseExpiry,leaseValue_until name _ inside.1 inside.2,Option.getD_some]
  exact min_eq_left (le_min (Int.add_le_add_right later _) inside.2)

theorem leaseHolder_written (r : Record) (name : Bytes) (until_ : Int) (value : r.value = leaseValue name until_) :
    leaseHolder r = name := by
  rw [leaseHolder,value]
  rfl

-- What was read at the lease key, and what can have become of it since.
structure Seen (current : Option Record) (m : Nat) (s : Shared ι) : Prop where
  counter : m ≤ s.remote.counter
  below : ∀ r, current = some r → r.version ≤ m
  still : ∀ r, s.remote.get leaseKey = some r → current = some r ∨ m < r.version

theorem seen_relied {current : Option Record} {m : Nat} (relied : Relied seal_ holder i s t)
    (seen : Seen current m s) : Seen current m t := by
  obtain ⟨j,_,change⟩ := relied.change
  refine ⟨Nat.le_trans seen.counter (change_counter change),seen.below,fun r here => ?_⟩
  rcases change_get change here with before | newer
  · exact seen.still r before
  · exact .inr (Nat.lt_of_le_of_lt seen.counter newer)

theorem seen_now (counted : s.remote.Counted) : Seen (s.remote.get leaseKey) s.remote.counter s := by
  refine ⟨Nat.le_refl _,fun r here => ?_,fun r here => .inl here⟩
  obtain ⟨e,found,shown⟩ := Option.bind_eq_some_iff.mp here
  split at shown
  · cases shown
    exact counted leaseKey e found
  · cases shown

-- A put under the version read finds the lease absent, over or the writer's own.
theorem seen_free {current : Option Record} {m e : Nat} {c at_ : Nat} (seen : Seen current m s)
    (expects : Lease.expected (holder i) (seconds c) current = some e) (before : c ≤ at_)
    (passed : Remote.precondition (some e) (s.remote.live leaseKey) = .ok ()) (r : Record)
    (here : s.remote.get leaseKey = some r) : leaseExpiry r < seconds at_ ∨ leaseHolder r = holder i := by
  rw [Remote.get_live here] at passed
  have version : r.version = e := by
    rcases Remote.precondition_some passed with same | ⟨_,none_⟩
    · exact Option.some.inj same
    · cases none_
  rcases seen.still r here with same | newer
  · rw [same] at expects
    simp only [Lease.expected] at expects
    split at expects
    · rename_i free
      refine free.imp_left fun expired => Int.lt_of_lt_of_le expired ?_
      exact Int.ofNat_le.mpr (Nat.div_le_div_right before)
    · cases expects
  · cases current with
    | none =>
      cases expects
      exact absurd (version ▸ newer) (Nat.not_lt_zero _)
    | some r' =>
      simp only [Lease.expected] at expects
      split at expects
      · cases expects
        exact absurd (Nat.lt_of_lt_of_eq newer version) (Nat.not_lt.mpr (seen.below r' rfl))
      · cases expects

theorem promise_sound (promise : Promise seal_ holder i q s t) (sound : Sound seal_ s) : Sound seal_ t :=
  ⟨promise.sound sound.opens,change_counted promise.change sound.counted⟩

theorem predicted_lease {value : Value} {expected : Option Nat}
    (next : ∀ n, s.held i = some n → t.remote.live leaseKey = some n) :
    Predicted seal_ i (.put leaseKey value expected) s t := by
  intro k v e same _
  cases same
  exact ⟨next,fun other => absurd rfl other,fun name secret => absurd secret.symm secret_not_lease⟩

theorem here_own (mine : Mine holder i lease s) (here : Here lease s) :
    ∃ r, s.remote.get leaseKey = some r ∧ leaseHolder r = holder i := by
  obtain ⟨⟨r,found,version,_⟩,_⟩ := here
  exact ⟨r,found,mine.own r found version⟩

-- What the remote takes under the lease's version finds the lease the writer's own.
theorem passed_own (mine : Mine holder i lease s)
    (passed : Remote.precondition (some lease.version) (s.remote.live leaseKey) = .ok ()) :
    ∃ r, s.remote.get leaseKey = some r ∧ r.version = lease.version := by
  rcases Remote.precondition_some passed with alive | ⟨zero,_⟩
  · exact Remote.live_get alive
  · exact absurd zero (Nat.ne_of_gt mine.version)

theorem passed_here (held : Held holder i lease s)
    (passed : Remote.precondition (some lease.version) (s.remote.live leaseKey) = .ok ()) : Here lease s := by
  obtain ⟨r,found,version⟩ := passed_own held.mine passed
  exact held.turn.resolve_right fun gone => gone.1 r found version

theorem mine_wrote {now : Int} {key : Bytes} {v : Option Value} (wrote : t.remote = s.remote.write now key v)
    (mine : Mine holder i lease s) : Mine holder i lease t := by
  refine ⟨mine.version,?_,mine.named,fun r here version => ?_⟩
  · rw [wrote]
    exact Nat.le_succ_of_le mine.below
  · rw [wrote] at here
    rcases write_get here with ⟨_,before⟩ | new
    · exact mine.own r before version
    · exact absurd (new.symm.trans version) (Nat.ne_of_gt (Nat.lt_succ_of_le mine.below))

theorem mine_same (same : t.remote = s.remote) (mine : Mine holder i lease s) : Mine holder i lease t :=
  ⟨mine.version,same ▸ mine.below,mine.named,same ▸ mine.own⟩

-- The writer's own write elsewhere, under a lease nobody has taken.
theorem held_wrote {now : Int} {key : Bytes} {v : Option Value} (plain : key ≠ leaseKey)
    (wrote : t.remote = s.remote.write now key v) (mine : Mine holder i lease s) (here : Here lease s)
    (next : t.held i = some (max lease.next (s.remote.counter + 2))) :
    Held holder i (lease.observe (s.remote.counter + 1)) t := by
  obtain ⟨version,below,named,own⟩ := mine_wrote wrote mine
  obtain ⟨⟨r,found,same,good⟩,exact_⟩ := here
  refine ⟨⟨version,below,named,own⟩,next,.inl ⟨⟨r,?_,same,good⟩,?_⟩⟩
  · rw [wrote]
    exact (Remote.get_other v (Ne.symm plain)).trans found
  · rw [wrote]
    simp only [Lease.observe,Remote.write_counter,exact_]
    omega

theorem predicted_deleted {key : Bytes} {expected : Option Nat} : Predicted seal_ i (.delete key expected) s t :=
  fun _ _ _ same => nomatch same

-- A request sent under a ready lease is applied while nobody else can have taken it.
theorem ready_here {at_ back : Nat} (ready : Ready holder i lease s)
    (timely : Timely (s.clock i) s.now at_ back) : Here lease s := by
  refine ready.held.turn.resolve_right fun gone => ?_
  obtain ⟨sent,soon,before,within⟩ := timely.sent
  have left := ready.left
  have past := gone.2
  have later := timely.later
  have answered := timely.answered
  unfold leaseTtlMillis at left
  unfold leaseLag at past
  unfold localPause at soon
  unfold requestTimeout at within
  omega

end

-- What one request of the writer's own does, and what it leaves to the others.
section
variable {ι : Type} [DecidableEq ι] {seal_ : MasterKey} {holder : ι → Bytes} {i : ι} {s t : Shared ι}
variable {lease : Lease} {key : Bytes} {q : Request}

theorem get_served {r : Except Fault (Option Record)} (served : s.Serves i (.get key) r t) :
    t.remote = s.remote ∧ s.now ≤ t.now ∧ s.clock i ≤ t.clock i ∧
      ((r = .ok (s.remote.get key) ∧ t.clock i ≤ s.clock i + localPause + requestTimeout) ∨
        ∃ why, r = .error (.remote why)) := by
  have net : s.toNet.Sends i Except.error (fun _ => (.ok (s.remote.get key),s.remote)) r t.toNet := served.net
  generalize t.toNet = after at net
  cases net with
  | answered at_ back timely =>
    obtain ⟨sent,soon,before,within⟩ := timely.sent
    have answered := timely.answered
    have own := timely.own
    refine ⟨rfl,timely.later,?_,.inl ⟨rfl,?_⟩⟩
    · simp only [Function.update_self]
      exact Nat.le_trans own answered
    · simp only [Function.update_self]
      exact Nat.le_trans within (Nat.add_le_add_right soon _)
  | lost at_ back why timely =>
    refine ⟨rfl,timely.later,?_,.inr ⟨why,rfl⟩⟩
    simp only [Function.update_self]
    exact Nat.le_trans timely.own timely.answered
  | failed back why later =>
    refine ⟨rfl,Nat.le_refl _,?_,.inr ⟨why,rfl⟩⟩
    simp only [Function.update_self]
    exact later

theorem served_others (r : q.Answer) (served : s.Serves i q r t) (j : ι) (other : j ≠ i) :
    t.clock j = s.clock j ∧ t.held j = s.held j := by
  refine ⟨?_,by rw [served.held,Function.update_of_ne other]⟩
  have sends {A : Type} {fault : Fault → A} {apply_ : Nat → A × Remote} {r : A} {after : Net ι}
      (sends : s.toNet.Sends i fault apply_ r after) : after.clock j = s.clock j := by
    cases sends <;> exact Function.update_of_ne other _ _
  have reads {c : Nat} {after : Net ι} (same : after = s.toNet.reads i c) : after.clock j = s.clock j := by
    rw [same]
    exact Function.update_of_ne other _ _
  cases q with
  | get key => exact sends served.net
  | put key value expected => exact sends served.net
  | delete key expected => exact sends served.net
  | timestamp => exact reads served.net.choose_spec.2.2.2.2
  | instant => exact reads served.net.2.2
  | sleep millis => exact reads served.net.choose_spec.2
  | nonce => exact congrFun (congrArg Net.clock served.net) j
  | host query => exact congrFun (congrArg Net.clock served.net) j

theorem promise_still (r : q.Answer) (served : s.Serves i q r t) (now : s.now ≤ t.now)
    (same : t.remote = s.remote) : Promise seal_ holder i q s t := by
  refine ⟨now,served_others r served,.none same,fun opens => ?_,?_⟩
  · rw [same]
    exact opens
  · intro key value expected _ moved
    exact absurd (congrArg Remote.counter same) moved

theorem wrote_promise {now : Int} {v : Option Value} (r : q.Answer) (served : s.Serves i q r t)
    (later : s.now ≤ t.now) (wrote : t.remote = s.remote.write now key v)
    (allowed : key = leaseKey ∧ (∀ r, s.remote.get leaseKey = some r →
        leaseExpiry r < seconds t.now ∨ leaseHolder r = holder i) ∨
      key ≠ leaseKey ∧ ∃ r, s.remote.get leaseKey = some r ∧ leaseHolder r = holder i)
    (opens : ∀ name value, key = secretKey name → v = some value →
      ∃ bytes, secretBytes seal_ name (s.remote.counter + 1) value = some bytes)
    (exact_ : Predicted seal_ i q s t) : Promise seal_ holder i q s t := by
  refine ⟨later,served_others r served,?_,fun before => ?_,exact_⟩
  · rcases allowed with ⟨rfl,free⟩ | ⟨plain,own⟩
    · exact .lease now v wrote free
    · exact .other now key v plain wrote own
  · rw [wrote]
    exact sealed_write before opens

theorem own_held (r : q.Answer) (served : s.Serves i q r t) : t.held i = Shared.heldAfter (s.held i) q r := by
  rw [served.held,Function.update_self]

-- What a writer that does not hold the lease leaves by asking for it.
variable (seal_) in
theorem acquire_put {current : Option Record} {m e c : Nat} {r : PutResult} (idle : s.held i = none)
    (seen : Seen current m s) (expects : Lease.expected (holder i) (seconds c) current = some e)
    (before : c ≤ s.clock i) (soon : s.clock i ≤ c + 2 * localPause + requestTimeout) (shown : c ≤ clockMax)
    (served : s.Serves i (.put leaseKey (leaseValue (holder i) (seconds c + leaseTtlSecs)) (some e)) r t) :
    Promise seal_ holder i (.put leaseKey (leaseValue (holder i) (seconds c + leaseTtlSecs)) (some e)) s t ∧
      (∀ v, r = .ok v → Held holder i ⟨holder i,v,s.clock i + leaseTtlMillis,v + 1⟩ t) ∧
      ∀ e, r = .error e → t.held i = none ∧ ∀ f, e = .other f → ∃ why, f = .remote why := by
  have next := own_held (q := .put leaseKey _ _) r served
  rw [idle] at next
  have vacuous : Predicted seal_ i (.put leaseKey (leaseValue (holder i) (seconds c + leaseTtlSecs)) (some e)) s t :=
    predicted_lease fun n known => nomatch idle.symm.trans known
  have wrote_ (at_ back : Nat) (timely : Timely (s.clock i) s.now at_ back) (now : t.now = at_)
      (passed : Remote.precondition (some e) (s.remote.live leaseKey) = .ok ())
      (wrote : t.remote = s.remote.write (seconds at_) leaseKey
        (some (leaseValue (holder i) (seconds c + leaseTtlSecs)))) :
      Promise seal_ holder i (.put leaseKey (leaseValue (holder i) (seconds c + leaseTtlSecs)) (some e)) s t := by
    refine wrote_promise (q := .put leaseKey _ _) r served (now ▸ timely.later) wrote (.inl ⟨rfl,?_⟩) ?_ vacuous
    · rw [now]
      exact seen_free seen expects (Nat.le_trans before timely.own) passed
    · exact fun name value secret _ => absurd secret.symm secret_not_lease
  have outcome := Net.put_served served.net
  generalize net : t.toNet = after at outcome
  cases outcome with
  | stored at_ back timely passed =>
    have wrote := congrArg Net.remote net
    refine ⟨wrote_ at_ back timely (congrArg Net.now net) passed wrote,?_,fun e same => (nomatch same)⟩
    intro v same
    cases same
    have below : c ≤ at_ := Nat.le_trans before timely.own
    refine ⟨⟨Nat.succ_pos _,?_,rfl,?_⟩,?_,.inl ⟨⟨⟨s.remote.counter + 1,false,
      leaseValue (holder i) (seconds c + leaseTtlSecs),some (seconds at_)⟩,?_,rfl,?_⟩,?_⟩⟩
    · rw [wrote]
      exact Nat.le_refl _
    · intro r here _
      rw [wrote,Remote.get_write,Option.some.injEq] at here
      subst here
      exact leaseHolder_written _ _ _ rfl
    · rw [next]
      exact congrArg some (Nat.zero_max _)
    · rw [wrote]
      exact Remote.get_write _
    · rw [leaseExpiry_written _ c at_ _ below shown]
      have floor := (seconds_floor c).2
      show ((s.clock i + leaseTtlMillis : Nat) : Int) ≤ _
      unfold leaseTtlMillis leaseTtlSecs leaseLag
      unfold localPause requestTimeout at soon
      omega
    · rw [wrote]
      rfl
  | lost at_ back why timely passed =>
    refine ⟨wrote_ at_ back timely (congrArg Net.now net) passed (congrArg Net.remote net),
      fun v same => (nomatch same),?_⟩
    intro e same
    cases same
    exact ⟨next,Net.plain_remote why⟩
  | stayed e now back later plain =>
    have same : t.remote = s.remote := (congrArg Net.remote net :)
    have reached : t.now = now := congrArg Net.now net
    refine ⟨promise_still (q := .put leaseKey _ _) (.error e) served ?_ same,fun v same => (nomatch same),?_⟩
    · rw [reached]
      exact later
    · intro e same
      cases same
      exact ⟨next,plain⟩

def renewed (lease : Lease) (sent v : Nat) : Lease :=
  { lease with version := v, deadline := sent + leaseTtlMillis }.observe v

variable (seal_) in
theorem renew_put {sent : Nat} {r : PutResult} (held : Held holder i lease s) (before : sent ≤ s.clock i)
    (soon : s.clock i ≤ sent + localPause) (shown : s.clock i ≤ clockMax)
    (served : s.Serves i (.put leaseKey (leaseValue lease.holder (seconds (s.clock i) + leaseTtlSecs))
      (some lease.version)) r t) :
    Promise seal_ holder i (.put leaseKey (leaseValue lease.holder (seconds (s.clock i) + leaseTtlSecs))
        (some lease.version)) s t ∧
      (∀ v, r = .ok v → Ready holder i (renewed lease sent v) t) ∧
      ∀ e, r = .error e → Mine holder i lease t := by
  have next := own_held (q := .put leaseKey _ _) r served
  rw [held.next] at next
  have wrote_ (at_ back : Nat) (timely : Timely (s.clock i) s.now at_ back) (now : t.now = at_)
      (passed : Remote.precondition (some lease.version) (s.remote.live leaseKey) = .ok ())
      (wrote : t.remote = s.remote.write (seconds at_) leaseKey
        (some (leaseValue lease.holder (seconds (s.clock i) + leaseTtlSecs)))) :
      Promise seal_ holder i (.put leaseKey (leaseValue lease.holder (seconds (s.clock i) + leaseTtlSecs))
        (some lease.version)) s t := by
    obtain ⟨r',found,version⟩ := passed_own held.mine passed
    refine wrote_promise (q := .put leaseKey _ _) r served (now ▸ timely.later) wrote (.inl ⟨rfl,?_⟩) ?_
      (predicted_lease ?_)
    · intro r here
      cases found.symm.trans here
      exact .inr (held.mine.own r' found version)
    · exact fun name value secret _ => absurd secret.symm secret_not_lease
    · intro n known
      cases held.next.symm.trans known
      rw [wrote,(passed_here held passed).2]
      exact Remote.live_write _
  have outcome := Net.put_served served.net
  generalize net : t.toNet = after at outcome
  cases outcome with
  | stored at_ back timely passed =>
    have wrote := congrArg Net.remote net
    have exact_ := (passed_here held passed).2
    refine ⟨wrote_ at_ back timely (congrArg Net.now net) passed wrote,?_,fun e same => (nomatch same)⟩
    intro v same
    cases same
    refine ⟨⟨⟨Nat.succ_pos _,?_,held.mine.named,?_⟩,next,.inl ⟨⟨⟨s.remote.counter + 1,false,
      leaseValue lease.holder (seconds (s.clock i) + leaseTtlSecs),some (seconds at_)⟩,?_,rfl,?_⟩,?_⟩⟩,?_⟩
    · rw [wrote]
      exact Nat.le_refl _
    · intro r here _
      rw [wrote,Remote.get_write,Option.some.injEq] at here
      subst here
      exact (leaseHolder_written _ _ _ rfl).trans held.mine.named
    · rw [wrote]
      exact Remote.get_write _
    · rw [leaseExpiry_written _ (s.clock i) at_ _ timely.own shown]
      have floor := (seconds_floor (s.clock i)).2
      show ((sent + leaseTtlMillis : Nat) : Int) ≤ _
      unfold leaseTtlMillis leaseTtlSecs leaseLag
      omega
    · rw [wrote]
      simp only [renewed,Lease.observe,Remote.write_counter,exact_]
      omega
    · have clock : t.clock i = back := (congrFun (congrArg Net.clock net) i).trans (Function.update_self _ _ _)
      obtain ⟨began,quick,_,within⟩ := timely.sent
      rw [clock]
      show back + leaseTtlMillis / 2 ≤ sent + leaseTtlMillis
      unfold leaseTtlMillis
      unfold localPause at soon quick
      unfold requestTimeout at within
      omega
  | lost at_ back why timely passed =>
    refine ⟨wrote_ at_ back timely (congrArg Net.now net) passed (congrArg Net.remote net),
      fun v same => (nomatch same),fun e _ => mine_wrote (congrArg Net.remote net) held.mine⟩
  | stayed e now back later plain =>
    have same : t.remote = s.remote := (congrArg Net.remote net :)
    have reached : t.now = now := congrArg Net.now net
    refine ⟨promise_still (q := .put leaseKey _ _) (.error e) served ?_ same,fun v same => (nomatch same),
      fun _ _ => mine_same same held.mine⟩
    rw [reached]
    exact later

variable (seal_) in
theorem guarded_put {value : Value} {expected : Option Nat} {r : PutResult} (plain : key ≠ leaseKey)
    (ready : Ready holder i lease s)
    (sealed_ : ∀ name, key = secretKey name →
      ∃ bytes nonce, value = secretValue seal_ name lease.next bytes nonce)
    (served : s.Serves i (.put key value expected) r t) :
    Promise seal_ holder i (.put key value expected) s t ∧
      (∀ v, r = .ok v → v = lease.next ∧ Held holder i (lease.observe v) t) ∧
      ∀ e, r = .error e → Mine holder i lease t ∧ ∀ f, e = .other f → ∃ why, f = .remote why := by
  have mine := ready.held.mine
  have next := own_held (q := .put key _ _) r served
  rw [ready.held.next] at next
  have wrote_ (at_ back : Nat) (timely : Timely (s.clock i) s.now at_ back) (now : t.now = at_)
      (wrote : t.remote = s.remote.write (seconds at_) key (some value)) :
      Promise seal_ holder i (.put key value expected) s t := by
    have here := ready_here ready timely
    refine wrote_promise (q := .put key _ _) r served (now ▸ timely.later) wrote
      (.inr ⟨plain,here_own mine here⟩) ?_ ?_
    · intro name v secret held
      obtain ⟨bytes,nonce,same⟩ := sealed_ name secret
      cases held
      rw [same,here.2]
      exact ⟨bytes,secretBytes_value _ _ _ _ _⟩
    · intro k v e same _
      cases same
      rw [wrote,Remote.write_counter,ready.held.next,← here.2]
      refine ⟨fun n known => ?_,fun _ => rfl,sealed_⟩
      cases known
      rw [here.2]
      exact Remote.live_write _
  have outcome := Net.put_served served.net
  generalize net : t.toNet = after at outcome
  cases outcome with
  | stored at_ back timely passed =>
    have wrote := congrArg Net.remote net
    have here := ready_here ready timely
    refine ⟨wrote_ at_ back timely (congrArg Net.now net) wrote,?_,fun e same => (nomatch same)⟩
    intro v same
    cases same
    refine ⟨here.2.symm,held_wrote plain wrote mine here ?_⟩
    simpa only [Shared.heldAfter,if_neg plain,Option.map_some] using next
  | lost at_ back why timely passed =>
    have wrote := congrArg Net.remote net
    refine ⟨wrote_ at_ back timely (congrArg Net.now net) wrote,fun v same => (nomatch same),fun e same => ?_⟩
    cases same
    exact ⟨mine_wrote wrote mine,Net.plain_remote why⟩
  | stayed e now back later plain =>
    have same : t.remote = s.remote := (congrArg Net.remote net :)
    have reached : t.now = now := congrArg Net.now net
    refine ⟨promise_still (q := .put key _ _) (.error e) served ?_ same,fun v same => (nomatch same),?_⟩
    · rw [reached]
      exact later
    · intro e same_
      cases same_
      exact ⟨mine_same same mine,plain⟩

variable (seal_) in
theorem guarded_delete {expected : Option Nat} {r : DeleteResult} (plain : key ≠ leaseKey)
    (ready : Ready holder i lease s) (served : s.Serves i (.delete key expected) r t) :
    Promise seal_ holder i (.delete key expected) s t ∧
      (∀ v, r = .ok (some v) → Held holder i (lease.observe v) t) ∧
      (r = .ok none → Held holder i lease t) ∧
      ∀ e, r = .error e → Mine holder i lease t ∧ ∀ f, e = .other f → ∃ why, f = .remote why := by
  have mine := ready.held.mine
  have next := own_held (q := .delete key _) r served
  rw [ready.held.next] at next
  have wrote_ (at_ back : Nat) (timely : Timely (s.clock i) s.now at_ back) (now : t.now = at_)
      (wrote : t.remote = s.remote.write (seconds at_) key none) :
      Promise seal_ holder i (.delete key expected) s t := by
    refine wrote_promise (q := .delete key _) r served (now ▸ timely.later) wrote
      (.inr ⟨plain,here_own mine (ready_here ready timely)⟩) ?_ predicted_deleted
    exact fun name v _ held => nomatch held
  have outcome := Net.delete_served served.net
  generalize net : t.toNet = after at outcome
  cases outcome with
  | removed at_ back timely c alive passed =>
    have wrote := congrArg Net.remote net
    have here := ready_here ready timely
    refine ⟨wrote_ at_ back timely (congrArg Net.now net) wrote,?_,fun same => (nomatch same),
      fun e same => (nomatch same)⟩
    intro v same
    cases same
    refine held_wrote plain wrote mine here ?_
    simpa only [Shared.heldAfter,if_neg plain,Option.map_some] using next
  | lost at_ back why timely c alive passed =>
    have wrote := congrArg Net.remote net
    refine ⟨wrote_ at_ back timely (congrArg Net.now net) wrote,fun v same => (nomatch same),
      fun same => (nomatch same),fun e same => ?_⟩
    cases same
    exact ⟨mine_wrote wrote mine,Net.plain_remote why⟩
  | absent now back later =>
    have same : t.remote = s.remote := (congrArg Net.remote net :)
    have reached : t.now = now := congrArg Net.now net
    have later : s.now ≤ t.now := reached ▸ later
    refine ⟨promise_still (q := .delete key _) (.ok none) served later same,fun v same => (nomatch same),
      fun _ => ⟨mine_same same mine,?_,?_⟩,fun e same => (nomatch same)⟩
    · simpa only [Shared.heldAfter,if_neg plain] using next
    · rcases ready.held.turn with here | gone
      · exact .inl (by rw [Here,same]; exact here)
      · refine .inr ⟨?_,Nat.le_trans gone.2 (Nat.add_le_add_right later _)⟩
        rw [same]
        exact gone.1
  | stayed e now back later plain =>
    have same : t.remote = s.remote := (congrArg Net.remote net :)
    have reached : t.now = now := congrArg Net.now net
    refine ⟨promise_still (q := .delete key _) (.error e) served ?_ same,fun v same => (nomatch same),
      fun same => (nomatch same),?_⟩
    · rw [reached]
      exact later
    · intro e same_
      cases same_
      exact ⟨mine_same same mine,plain⟩

variable (seal_) in
theorem release_delete {r : DeleteResult} (mine : Mine holder i lease s)
    (served : s.Serves i (.delete leaseKey (some lease.version)) r t) :
    Promise seal_ holder i (.delete leaseKey (some lease.version)) s t ∧ t.held i = none := by
  have next := own_held (q := .delete leaseKey _) r served
  have wrote_ (at_ back c : Nat) (timely : Timely (s.clock i) s.now at_ back) (now : t.now = at_)
      (alive : s.remote.live leaseKey = some c)
      (passed : Remote.precondition (some lease.version) (some c) = .ok ())
      (wrote : t.remote = s.remote.write (seconds at_) leaseKey none) :
      Promise seal_ holder i (.delete leaseKey (some lease.version)) s t := by
    obtain ⟨r',found,version⟩ := passed_own mine (alive ▸ passed)
    refine wrote_promise (q := .delete leaseKey _) r served (now ▸ timely.later) wrote (.inl ⟨rfl,?_⟩)
      (fun name v _ held => nomatch held) predicted_deleted
    intro r here
    cases found.symm.trans here
    exact .inr (mine.own r' found version)
  have still (now : Nat) (reached : t.now = now) (later : s.now ≤ now) (same : t.remote = s.remote) :
      Promise seal_ holder i (.delete leaseKey (some lease.version)) s t :=
    promise_still (q := .delete leaseKey _) r served (reached ▸ later) same
  refine ⟨?_,next.trans (by simp only [Shared.heldAfter,if_true])⟩
  have outcome := Net.delete_served served.net
  generalize net : t.toNet = after at outcome
  cases outcome with
  | removed at_ back timely c alive passed =>
    exact wrote_ at_ back c timely (congrArg Net.now net) alive passed (congrArg Net.remote net)
  | lost at_ back why timely c alive passed =>
    exact wrote_ at_ back c timely (congrArg Net.now net) alive passed (congrArg Net.remote net)
  | absent now back later => exact still now (congrArg Net.now net) later (congrArg Net.remote net :)
  | stayed e now back later plain => exact still now (congrArg Net.now net) later (congrArg Net.remote net :)

end

end VerifiableGit.Bridge.Writers
