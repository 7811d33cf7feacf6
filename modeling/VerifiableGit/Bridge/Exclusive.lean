import VerifiableGit.Bridge.Turns

-- Every program of a writer, among the others: the lease makes the next version
-- known before it is taken.
namespace VerifiableGit.Bridge.Writers
open VerifiableGit.Text VerifiableGit.Library.Interaction Mirror

section
variable {ι : Type} (seal_ : MasterKey) (holder : ι → Bytes) (i : ι)

-- What the others keep, and what the writer's own waiting and reading keeps.
structure Firm (P : Shared ι → Prop) : Prop where
  stable : ∀ s t, Relied seal_ holder i s t → P s → P t
  sound : ∀ s, P s → Sound seal_ s

-- A clock is read at some `c`: only the writer's own time moves.
structure Read (i : ι) (s t : Shared ι) (c : Nat) : Prop where
  remote : t.remote = s.remote
  now : t.now = s.now
  held : t.held = s.held
  clock : t.clock i = c
  later : s.clock i ≤ c

end

section
variable {ι : Type} {seal_ : MasterKey} {holder : ι → Bytes} {i : ι} {s t : Shared ι} {lease : Lease}

theorem firm_sound {Q : Shared ι → Prop} (stable : ∀ s t, Relied seal_ holder i s t → Q s → Q t) :
    Firm seal_ holder i fun s => Sound seal_ s ∧ Q s :=
  ⟨fun s t relied both => ⟨sound_relied relied both.1,stable s t relied both.2⟩,fun _ both => both.1⟩

-- Nothing of the lease's moves, and time may pass.
theorem held_still (same : t.remote = s.remote) (later : s.now ≤ t.now) (next : t.held i = s.held i)
    (held : Held holder i lease s) : Held holder i lease t := by
  refine ⟨mine_same same held.mine,next.trans held.next,?_⟩
  rcases held.turn with here | gone
  · exact .inl (by rw [Here,same]; exact here)
  · refine .inr ⟨?_,Nat.le_trans gone.2 (Nat.add_le_add_right later _)⟩
    rw [same]
    exact gone.1

theorem held_read {c : Nat} (read : Read i s t c) (held : Held holder i lease s) : Held holder i lease t :=
  held_still read.remote (Nat.le_of_eq read.now.symm) (congrFun read.held i) held

theorem remote_expected {e : Fault} (plain : ∃ why, e = .remote why) : e.Expected := by
  obtain ⟨why,rfl⟩ := plain
  exact fun key same => nomatch same

def Idle (i : ι) (s : Shared ι) : Prop := s.held i = none

theorem firm_idle : Firm seal_ holder i fun s => Sound seal_ s ∧ Idle i s :=
  firm_sound fun _ _ relied idle => relied.held.trans idle

theorem firm_mine (lease : Lease) : Firm seal_ holder i fun s => Sound seal_ s ∧ Mine holder i lease s :=
  firm_sound fun _ _ => mine_relied

theorem firm_held (lease : Lease) : Firm seal_ holder i fun s => Sound seal_ s ∧ Held holder i lease s :=
  firm_sound fun _ _ => held_relied

theorem firm_ready (lease : Lease) : Firm seal_ holder i fun s => Sound seal_ s ∧ Ready holder i lease s :=
  firm_sound fun _ _ => ready_relied

-- Between a turn's reading of the time and its put.
structure Turning (i : ι) (c span : Nat) (s : Shared ι) : Prop where
  idle : Idle i s
  before : c ≤ s.clock i
  soon : s.clock i ≤ c + span

theorem turning_relied {c span : Nat} (relied : Relied seal_ holder i s t) (turning : Turning i c span s) :
    Turning i c span t :=
  ⟨relied.held.trans turning.idle,relied.clock ▸ turning.before,relied.clock ▸ turning.soon⟩

-- What a program under the lease leaves: the lease held, or a fault and no write more.
def Left (seal_ : MasterKey) (holder : ι → Bytes) (i : ι) : Except Fault Unit × Lease → Shared ι → Prop
  | (.ok (),lease),t => Sound seal_ t ∧ Held holder i lease t
  | (.error e,lease),t => (Sound seal_ t ∧ Mine holder i lease t) ∧ e.Expected

def Settling (seal_ : MasterKey) (holder : ι → Bytes) (i : ι) :
    Except PutError (Option Nat) → Lease → Shared ι → Prop
  | .ok (some v),lease,t => Sound seal_ t ∧ Held holder i (lease.observe v) t
  | .ok none,lease,t => Sound seal_ t ∧ Held holder i lease t
  | .error e,lease,t => (Sound seal_ t ∧ Mine holder i lease t) ∧ ∀ f, e = .other f → f.Expected

def SealedPut (seal_ : MasterKey) (holder : ι → Bytes) (i : ι) (res : PutResult × Lease) (s : Shared ι) :
    Prop := Settling seal_ holder i (res.1.map some) res.2 s

theorem left_mine (res : Except Fault Unit × Lease) (left : Left seal_ holder i res s) :
    Sound seal_ s ∧ Mine holder i res.2 s := by
  obtain ⟨res,lease⟩ := res
  cases res with
  | ok u => exact ⟨left.1,left.2.mine⟩
  | error e => exact left.1

theorem observe_twice (lease : Lease) (v : Nat) : (lease.observe v).observe v = lease.observe v := by
  simp only [Lease.observe,max_assoc,max_self]

theorem mine_observed {v : Nat} (mine : Mine holder i (lease.observe v) s) : Mine holder i lease s := by
  obtain ⟨version,below,named,own⟩ := mine
  exact ⟨version,below,named,own⟩

theorem settling_mine (answer : Except PutError (Option Nat)) (here : Settling seal_ holder i answer lease s) :
    Sound seal_ s ∧ Mine holder i lease s := by
  match answer with
  | .ok (some v) => exact ⟨here.1,mine_observed here.2.mine⟩
  | .ok none => exact ⟨here.1,here.2.mine⟩
  | .error e => exact here.1

-- During a pass: the lease is good as long as nothing has failed.
def Passing (seal_ : MasterKey) (holder : ι → Bytes) (i : ι) : Option Fault × Lease → Shared ι → Prop
  | (none,lease),t => Sound seal_ t ∧ Held holder i lease t
  | (some e,lease),t => (Sound seal_ t ∧ Mine holder i lease t) ∧ e.Expected

theorem firm_passing (failed : Option Fault) (lease : Lease) :
    Firm seal_ holder i fun s => Passing seal_ holder i (failed,lease) s := by
  cases failed with
  | none => exact firm_held lease
  | some e =>
    obtain ⟨stable,sound⟩ : Firm seal_ holder i _ := firm_mine lease
    exact ⟨fun s t act both => ⟨stable s t act both.1,both.2⟩,fun s both => sound s both.1⟩

end

section
variable {ι : Type} [DecidableEq ι] {seal_ : MasterKey} {holder : ι → Bytes} {i : ι} {s t : Shared ι}
variable {lease : Lease} {P : Shared ι → Prop} {post : α → Shared ι → Prop}

theorem firm_done {a : α} (firm : Firm seal_ holder i P) (last : ∀ t, P t → post a t) (here : P s) :
    (writing seal_ holder i).Holds post (.done a) s :=
  holds_done (fun s t act there => firm.stable s t act there) firm.sound last here

theorem firm_call {q : Request} {next : q.Answer → Code α} (firm : Firm seal_ holder i P)
    (answered : ∀ s r t, P s → s.Serves i q r t →
      Promise seal_ holder i q s t ∧ (Sound seal_ t → (writing seal_ holder i).Holds post (next r) t))
    (here : P s) : (writing seal_ holder i).Holds post (.call q next) s := by
  refine holds_call (fun s t act there => firm.stable s t act there) firm.sound ?_ here
  intro s r t before served
  obtain ⟨promise,rest⟩ := answered s r t before served
  exact ⟨promise,rest (promise_sound promise (firm.sound s before))⟩

-- The local store's answers and fresh randomness change nothing shared.
theorem local_served (q : HostQuery) (r : q.Answer) (served : s.Serves i (.host q) r t) : t = s := by
  obtain ⟨net,held⟩ := served
  obtain ⟨net',held'⟩ := t
  have same : net' = s.toNet := net
  subst same
  have held : held' = Function.update s.held i (s.held i) := held
  rw [Function.update_eq_self] at held
  rw [held]

theorem nonce_served (r : Option Bytes) (served : s.Serves i .nonce r t) : t = s := by
  obtain ⟨net,held⟩ := served
  obtain ⟨net',held'⟩ := t
  have same : net' = s.toNet := net
  subst same
  have held : held' = Function.update s.held i (s.held i) := held
  rw [Function.update_eq_self] at held
  rw [held]

theorem local_call {q : HostQuery} {next : q.Answer → Code α} (firm : Firm seal_ holder i P)
    (rest : ∀ r t, P t → (writing seal_ holder i).Holds post (next r) t) (here : P s) :
    (writing seal_ holder i).Holds post (.call (.host q) next) s := by
  refine firm_call firm (fun s r t before served => ?_) here
  have same := local_served q r served
  subst same
  exact ⟨promise_still (q := .host q) r served (Nat.le_refl _) rfl,fun _ => rest r t before⟩

theorem nonce_call {next : Option Bytes → Code α} (firm : Firm seal_ holder i P)
    (rest : ∀ r t, P t → (writing seal_ holder i).Holds post (next r) t) (here : P s) :
    (writing seal_ holder i).Holds post (.call .nonce next) s := by
  refine firm_call firm (fun s r t before served => ?_) here
  have same := nonce_served r served
  subst same
  exact ⟨promise_still (q := .nonce) r served (Nat.le_refl _) rfl,fun _ => rest r t before⟩

theorem read_served {c : Nat} (net : t.toNet = s.toNet.reads i c) (held : t.held = s.held)
    (later : s.clock i ≤ c) : Read i s t c := by
  refine ⟨(congrArg Net.remote net :),(congrArg Net.now net :),held,?_,later⟩
  exact (congrFun (congrArg Net.clock net) i).trans (Function.update_self _ _ _)

theorem timestamp_served {r : Int} (served : s.Serves i .timestamp r t) :
    ∃ c, Read i s t c ∧ c ≤ s.clock i + localPause ∧ c ≤ clockMax ∧ r = seconds c := by
  obtain ⟨c,later,soon,shown,same,net⟩ := served.net
  have held : t.held = s.held := served.held.trans (Function.update_eq_self _ _)
  exact ⟨c,read_served net held later,soon,shown,same⟩

theorem instant_served {r : Nat} (served : s.Serves i .instant r t) :
    Read i s t r ∧ r ≤ s.clock i + localPause := by
  obtain ⟨later,soon,net⟩ := served.net
  exact ⟨read_served net (served.held.trans (Function.update_eq_self _ _)) later,soon⟩

theorem sleep_served {millis : Nat} {r : Unit} (served : s.Serves i (.sleep millis) r t) :
    ∃ c, Read i s t c := by
  obtain ⟨c,later,net⟩ := served.net
  have held : t.held = s.held := served.held.trans (Function.update_eq_self _ _)
  exact ⟨c,read_served net held (Nat.le_of_add_right_le later)⟩

theorem read_promise {c : Nat} (q : Request) (r : q.Answer) (served : s.Serves i q r t)
    (read : Read i s t c) : Promise seal_ holder i q s t :=
  promise_still r served (Nat.le_of_eq read.now.symm) read.remote

def Acquired (seal_ : MasterKey) (holder : ι → Bytes) (i : ι) : Except Fault Lease → Shared ι → Prop
  | .ok lease,s => Sound seal_ s ∧ Held holder i lease s
  | .error e,s => (Sound seal_ s ∧ Idle i s) ∧ e.Expected

theorem unacquired {e : Fault} (expected : e.Expected) (here : Sound seal_ s ∧ Idle i s) :
    (writing seal_ holder i).Holds (Acquired seal_ holder i) (.done (.error e)) s :=
  firm_done firm_idle (fun _ there => ⟨there,expected⟩) here

theorem waitTurn_acquired {again : Code (Except Fault Lease)} (deadline : Nat)
    (turns : ∀ s, Sound seal_ s ∧ Idle i s → (writing seal_ holder i).Holds (Acquired seal_ holder i) again s)
    (here : Sound seal_ s ∧ Idle i s) :
    (writing seal_ holder i).Holds (Acquired seal_ holder i) (Lease.waitTurn deadline again) s := by
  simp only [Lease.waitTurn,request_bind,pure_done]
  refine firm_call firm_idle (fun s now t idle served => ?_) here
  obtain ⟨read,_⟩ := instant_served served
  refine ⟨read_promise .instant now served read,fun sound => ?_⟩
  have idle : Idle i t := (congrFun read.held i).trans idle.2
  split
  · exact unacquired (fun key same => by cases same) ⟨sound,idle⟩
  · refine firm_call firm_idle (fun s r t idle served => ?_) ⟨sound,idle⟩
    obtain ⟨c,read⟩ := sleep_served served
    refine ⟨read_promise (.sleep 250) r served read,fun sound => turns t ⟨sound,?_⟩⟩
    exact (congrFun read.held i).trans idle.2

theorem acquireLoop_acquired (deadline fuel : Nat) (here : Sound seal_ s ∧ Idle i s) :
    (writing seal_ holder i).Holds (Acquired seal_ holder i)
      (Lease.acquireLoop (holder i) deadline fuel) s := by
  induction fuel generalizing s with
  | zero => exact unacquired (fun key same => by cases same) here
  | succ fuel ih =>
    simp only [Lease.acquireLoop,request_bind,pure_done]
    refine firm_call firm_idle (fun s now t idle served => ?_) here
    obtain ⟨c,read,_,shown,time⟩ := timestamp_served served
    refine ⟨read_promise .timestamp now served read,fun sound => ?_⟩
    subst time
    have turning : Turning i c 0 t :=
      ⟨(congrFun read.held i).trans idle.2,Nat.le_of_eq read.clock.symm,Nat.le_of_eq read.clock⟩
    refine firm_call (firm_sound fun _ _ => turning_relied) (fun s r t before served => ?_) ⟨sound,turning⟩
    obtain ⟨same,later,onward,answer⟩ := get_served served
    obtain ⟨before,turning⟩ := before
    have idle : Idle i t := (own_held (q := .get leaseKey) r served).trans turning.idle
    refine ⟨promise_still (q := .get leaseKey) r served later same,fun sound => ?_⟩
    rcases answer with ⟨rfl,soon⟩ | ⟨why,rfl⟩
    · split
      · rename_i found
        cases found
      · rename_i current found
        cases found
        have turning : Turning i c (localPause + requestTimeout) t := by
          refine ⟨idle,Nat.le_trans turning.before onward,?_⟩
          have start := turning.soon
          omega
        have seen : Seen (s.remote.get leaseKey) s.remote.counter t := by
          have now := seen_now (s := s) before.counted
          exact ⟨same ▸ now.counter,now.below,same ▸ now.still⟩
        split
        · exact waitTurn_acquired deadline (fun s idle => ih idle) ⟨sound,idle⟩
        · rename_i e expects
          have firm : Firm seal_ holder i fun u => Sound seal_ u ∧ Seen (s.remote.get leaseKey)
              s.remote.counter u ∧ Turning i c (localPause + requestTimeout) u :=
            firm_sound fun _ _ relied both => ⟨seen_relied relied both.1,turning_relied relied both.2⟩
          refine firm_call firm (fun u sent v before served => ?_) ⟨sound,seen,turning⟩
          obtain ⟨read,quick⟩ := instant_served served
          obtain ⟨_,seen,turning⟩ := before
          refine ⟨read_promise .instant sent served read,fun sound => ?_⟩
          have firm : Firm seal_ holder i fun u => Sound seal_ u ∧ (Seen (s.remote.get leaseKey)
              s.remote.counter u ∧ Turning i c (2 * localPause + requestTimeout) u) ∧ u.clock i = sent :=
            firm_sound fun _ _ relied both => ⟨⟨seen_relied relied both.1.1,turning_relied relied both.1.2⟩,
              relied.clock.trans both.2⟩
          have seen : Seen (s.remote.get leaseKey) s.remote.counter v :=
            ⟨read.remote ▸ seen.counter,seen.below,read.remote ▸ seen.still⟩
          have turning : Turning i c (2 * localPause + requestTimeout) v := by
            refine ⟨(congrFun read.held i).trans turning.idle,?_,?_⟩
            · rw [read.clock]
              exact Nat.le_trans turning.before read.later
            · rw [read.clock]
              have start := turning.soon
              omega
          refine firm_call firm (fun u answer v before served => ?_) ⟨sound,⟨seen,turning⟩,read.clock⟩
          obtain ⟨_,⟨seen,turning⟩,clock⟩ := before
          have soon : u.clock i ≤ c + 2 * localPause + requestTimeout :=
            Nat.le_trans turning.soon (by omega)
          obtain ⟨promise,took,missed⟩ :=
            acquire_put seal_ turning.idle seen expects turning.before soon shown served
          refine ⟨promise,fun sound => ?_⟩
          cases answer with
          | ok version => 
            refine firm_done (firm_held _) (fun _ there => there) ⟨sound,?_⟩
            exact clock ▸ took version rfl
          | error e =>
            obtain ⟨idle,plain⟩ := missed e rfl
            cases e with
            | conflict c => exact waitTurn_acquired deadline (fun s idle => ih idle) ⟨sound,idle⟩
            | other f => exact unacquired (remote_expected (plain f rfl)) ⟨sound,idle⟩
    · exact unacquired (remote_expected ⟨why,rfl⟩) ⟨sound,idle⟩

theorem acquire_held (fuel wait : Nat) (here : Sound seal_ s ∧ Idle i s) :
    (writing seal_ holder i).Holds (Acquired seal_ holder i) (Lease.acquire fuel (holder i) wait) s := by
  simp only [Lease.acquire,request_bind]
  refine firm_call firm_idle (fun s start t idle served => ?_) here
  obtain ⟨read,_⟩ := instant_served served
  refine ⟨read_promise .instant start served read,fun sound => ?_⟩
  exact acquireLoop_acquired _ fuel ⟨sound,(congrFun read.held i).trans idle.2⟩

def Renewed_ (seal_ : MasterKey) (holder : ι → Bytes) (i : ι) : Except Fault Unit × Lease → Shared ι → Prop
  | (.ok (),lease),t => Sound seal_ t ∧ Ready holder i lease t
  | (.error e,lease),t => (Sound seal_ t ∧ Mine holder i lease t) ∧ e.Expected

theorem unrenewed {e : Fault} (expected : e.Expected) (here : Sound seal_ s ∧ Mine holder i lease s) :
    (writing seal_ holder i).Holds (Renewed_ seal_ holder i) (.done (.error e,lease)) s :=
  firm_done (firm_mine lease) (fun _ there => ⟨there,expected⟩) here

theorem renewIfDue_held (here : Sound seal_ s ∧ Held holder i lease s) :
    (writing seal_ holder i).Holds (Renewed_ seal_ holder i) lease.renewIfDue s := by
  simp only [Lease.renewIfDue,request_bind,pure_done]
  refine firm_call (firm_held lease) (fun s now t before served => ?_) here
  obtain ⟨read,_⟩ := instant_served served
  refine ⟨read_promise .instant now served read,fun sound => ?_⟩
  have held := held_read read before.2
  split
  · rename_i enough
    refine firm_done (firm_ready lease) (fun _ there => there) ⟨sound,held,?_⟩
    rw [read.clock]
    omega
  · split
    · exact unrenewed (fun key same => by cases same) ⟨sound,held.mine⟩
    · refine firm_call (firm_held lease) (fun s sent t before served => ?_) ⟨sound,held⟩
      obtain ⟨read,_⟩ := instant_served served
      refine ⟨read_promise .instant sent served read,fun sound => ?_⟩
      have timed (c : Nat) : Firm seal_ holder i fun u => Sound seal_ u ∧ Held holder i lease u ∧ u.clock i = c :=
        firm_sound fun _ _ relied both => ⟨held_relied relied both.1,relied.clock.trans both.2⟩
      refine firm_call (timed sent) (fun s time t before served => ?_) ⟨sound,held_read read before.2,read.clock⟩
      obtain ⟨c,read,soon,shown,time⟩ := timestamp_served served
      refine ⟨read_promise .timestamp _ served read,fun sound => ?_⟩
      subst time
      have later : sent ≤ c := before.2.2 ▸ read.later
      have soon : c ≤ sent + localPause := Nat.le_trans soon (Nat.le_of_eq (congrArg (· + localPause) before.2.2))
      refine firm_call (timed c) (fun s answer t before served => ?_)
        ⟨sound,held_read read before.2.1,read.clock⟩
      obtain ⟨_,held,clock⟩ := before
      subst clock
      obtain ⟨promise,took,missed⟩ := renew_put seal_ held later soon shown served
      refine ⟨promise,fun sound => ?_⟩
      cases answer with
      | ok v => exact firm_done (firm_ready _) (fun _ there => there) ⟨sound,took v rfl⟩
      | error e => exact unrenewed (fun key same => by cases same) ⟨sound,missed e rfl⟩

theorem release_idle (here : Sound seal_ s ∧ Mine holder i lease s) :
    (writing seal_ holder i).Holds (fun _ t => Sound seal_ t ∧ Idle i t) lease.release s := by
  simp only [Lease.release,request_bind,pure_done]
  refine firm_call (firm_mine lease) (fun s r t before served => ?_) here
  obtain ⟨promise,idle⟩ := release_delete seal_ before.2 served
  exact ⟨promise,fun sound => firm_done firm_idle (fun _ there => there) ⟨sound,idle⟩⟩

theorem left_fails {e : Fault} (expected : e.Expected) (here : Sound seal_ s ∧ Mine holder i lease s) :
    (writing seal_ holder i).Holds (Left seal_ holder i) (.done (.error e,lease)) s :=
  firm_done (firm_mine lease) (fun _ there => ⟨there,expected⟩) here

theorem left_held (here : Sound seal_ s ∧ Held holder i lease s) :
    (writing seal_ holder i).Holds (Left seal_ holder i) (.done (.ok (),lease)) s :=
  firm_done (firm_held lease) (fun _ there => there) here

theorem settle_left (key : Bytes) (answer : Except PutError (Option Nat))
    (here : Settling seal_ holder i answer lease s) :
    (writing seal_ holder i).Holds (Left seal_ holder i) (settle key answer lease) s := by
  match answer with
  | .ok (some v) =>
    simp only [settle,access_bind,pure_done]
    refine local_call (firm_held _) (fun _ t here => ?_) here
    exact local_call (firm_held _) (fun _ t here => left_held here) here
  | .ok none =>
    simp only [settle,access_bind,pure_done]
    refine local_call (firm_held lease) (fun _ t here => ?_) here
    exact local_call (firm_held lease) (fun _ t here => left_held here) here
  | .error (.conflict c) =>
    simp only [settle,access_bind,pure_done]
    exact local_call (firm_mine lease) (fun _ t here => left_fails (fun key same => by cases same) here) here.1
  | .error (.other e) => exact left_fails (here.2 e rfl) here.1

-- One attempt is enough, however many are allowed.
theorem putSealedLoop_settling (name bytes : Bytes) (attempts expected : Nat)
    (here : Sound seal_ s ∧ Held holder i lease s) :
    (writing seal_ holder i).Holds (SealedPut seal_ holder i)
      (putSealedLoop seal_ name bytes (attempts + 1) expected lease) s := by
  have fails {e : PutError} {lease : Lease} {s : Shared ι} (expected : ∀ f, e = .other f → f.Expected)
      (here : Sound seal_ s ∧ Mine holder i lease s) :
      (writing seal_ holder i).Holds (SealedPut seal_ holder i) (.done (.error e,lease)) s :=
    firm_done (firm_mine lease) (fun _ there => ⟨there,expected⟩) here
  simp only [putSealedLoop,request_bind,pure_done]
  refine holds_bind _ _ (renewIfDue_held here) ?_
  intro renewed t ready
  obtain ⟨res,lease⟩ := renewed
  cases res with
  | error e => exact fails (fun f same => by cases same; exact ready.2) ready.1
  | ok u =>
    refine nonce_call (firm_ready lease) (fun nonce t ready => ?_) ready
    cases nonce with
    | none =>
      refine fails (fun f same => ?_) ⟨ready.1,ready.2.held.mine⟩
      cases same
      exact fun key same => nomatch same
    | some nonce =>
      refine firm_call (firm_ready lease) (fun s answer t ready served => ?_) ready
      obtain ⟨promise,took,missed⟩ := guarded_put seal_ secret_not_lease ready.2 (fun n same => by
        cases secretKey_inj same
        exact ⟨bytes,nonce,rfl⟩) served
      refine ⟨promise,fun sound => ?_⟩
      cases answer with
      | error e =>
        obtain ⟨mine,plain⟩ := missed e rfl
        exact fails (fun f same => remote_expected (plain f same)) ⟨sound,mine⟩
      | ok v =>
        obtain ⟨same,held⟩ := took v rfl
        dsimp only
        split
        · refine firm_done (firm_held (lease.observe v)) (fun t there => ?_) ⟨sound,held⟩
          refine ⟨there.1,?_⟩
          rw [observe_twice]
          exact there.2
        · rename_i other
          exact absurd same other

theorem send_left (d : Dirty) (value : Option Value) (seen : Option Nat)
    (here : Sound seal_ s ∧ Ready holder i lease s) :
    (writing seal_ holder i).Holds (Left seal_ holder i) (send seal_ d value seen lease) s := by
  have plain := remoteKey_not_lease d
  cases value with
  | some v =>
    cases d with
    | secret name =>
      simp only [send,access_bind,pure_done]
      refine local_call (firm_ready lease) (fun bytes t ready => ?_) here
      cases bytes with
      | none => exact left_held ⟨ready.1,ready.2.held⟩
      | some bytes =>
        refine holds_bind _ _ (putSealedLoop_settling name bytes 3 (seen.getD 0) ⟨ready.1,ready.2.held⟩) ?_
        exact fun answer u there => settle_left _ _ there
    | record table key =>
      simp only [send,request_bind]
      refine firm_call (firm_ready lease) (fun s answer t ready served => ?_) here
      obtain ⟨promise,took,missed⟩ := guarded_put seal_ plain ready.2
        (fun name same => absurd same state_not_secret) served
      refine ⟨promise,fun sound => settle_left _ _ ?_⟩
      cases answer with
      | ok v => exact ⟨sound,(took v rfl).2⟩
      | error e => exact ⟨⟨sound,(missed e rfl).1⟩,fun f same => remote_expected ((missed e rfl).2 f same)⟩
  | none =>
    simp only [send,request_bind]
    refine firm_call (firm_ready lease) (fun s answer t ready served => ?_) here
    obtain ⟨promise,removed,absent,missed⟩ := guarded_delete seal_ plain ready.2 served
    refine ⟨promise,fun sound => ?_⟩
    cases answer with
    | ok version =>
      cases version with
      | some v => exact settle_left _ _ ⟨sound,removed v rfl⟩
      | none => exact settle_left _ _ ⟨sound,absent rfl⟩
    | error e =>
      exact settle_left _ _ ⟨⟨sound,(missed e rfl).1⟩,fun f same => remote_expected ((missed e rfl).2 f same)⟩

theorem write_left (size : Value → Nat) (d : Dirty) (here : Sound seal_ s ∧ Ready holder i lease s) :
    (writing seal_ holder i).Holds (Left seal_ holder i) (write seal_ size d lease) s := by
  have value : (writing seal_ holder i).Holds
      (fun res t => (Sound seal_ t ∧ Ready holder i lease t) ∧ ∀ e, res = .error e → e.Expected)
      (currentValue seal_ d) s := by
    have ends {res : Except Fault (Option Value)} {t : Shared ι} (expected : ∀ e, res = .error e → e.Expected)
        (there : Sound seal_ t ∧ Ready holder i lease t) : (writing seal_ holder i).Holds
          (fun res t => (Sound seal_ t ∧ Ready holder i lease t) ∧ ∀ e, res = .error e → e.Expected)
          (.done res) t :=
      firm_done (firm_ready lease) (fun _ there => ⟨there,expected⟩) there
    cases d with
    | record table key =>
      simp only [currentValue,access_bind,pure_done]
      exact local_call (firm_ready lease) (fun _ t there => ends (fun e same => nomatch same) there) here
    | secret name =>
      simp only [currentValue,access_bind,request_bind,pure_done]
      refine local_call (firm_ready lease) (fun bytes t there => ?_) here
      cases bytes with
      | none => exact ends (fun e same => nomatch same) there
      | some bytes =>
        refine nonce_call (firm_ready lease) (fun nonce t there => ?_) there
        cases nonce with
        | none =>
          refine ends (fun e same => ?_) there
          cases same
          exact fun key same => nomatch same
        | some nonce => exact ends (fun e same => nomatch same) there
  simp only [write,access_bind,pure_done]
  refine holds_bind _ _ value ?_
  intro res t ready
  cases res with
  | error e => exact left_fails (ready.2 e rfl) ⟨ready.1.1,ready.1.2.held.mine⟩
  | ok x =>
    dsimp only
    split
    · exact left_held ⟨ready.1.1,ready.1.2.held⟩
    · exact local_call (firm_ready lease) (fun seen u there => send_left d x seen there) ready.1

theorem writeItem_passing (size : Value → Nat) (d : Dirty) (failed : Option Fault)
    (here : Passing seal_ holder i (failed,lease) s) :
    (writing seal_ holder i).Holds (Passing seal_ holder i) (writeItem seal_ size d failed lease) s := by
  have fails {e : Fault} {lease : Lease} {t : Shared ι}
      (here : (Sound seal_ t ∧ Mine holder i lease t) ∧ e.Expected) :
      (writing seal_ holder i).Holds (Passing seal_ holder i) (.done (some e,lease)) t :=
    firm_done (firm_passing (some e) lease) (fun _ there => there) here
  cases failed with
  | some e => exact fails here
  | none =>
    refine holds_bind _ _ (renewIfDue_held here) ?_
    intro renewed t ready
    obtain ⟨res,lease⟩ := renewed
    cases res with
    | error e => exact fails ready
    | ok u =>
      refine holds_bind _ _ (write_left size d ready) ?_
      intro written v left
      obtain ⟨res,lease⟩ := written
      cases res with
      | error e => exact fails left
      | ok u => exact firm_done (firm_held lease) (fun _ there => there) left

theorem passItems_passing (size : Value → Nat) (items : List Dirty) (failed : Option Fault)
    (here : Passing seal_ holder i (failed,lease) s) :
    (writing seal_ holder i).Holds (Passing seal_ holder i) (passItems seal_ size items failed lease) s := by
  induction items generalizing failed lease s with
  | nil => exact firm_done (firm_passing failed lease) (fun _ there => there) here
  | cons item rest ih =>
    refine holds_bind _ _ (writeItem_passing size item failed here) ?_
    intro written t passing
    obtain ⟨failed,lease⟩ := written
    have landed {u : Shared ι} (there : Passing seal_ holder i (failed,lease) u) :
        (writing seal_ holder i).Holds (Passing seal_ holder i)
          (access .landed >>= fun _ => passItems seal_ size rest failed lease) u := by
      simp only [access_bind]
      exact local_call (firm_passing failed lease) (fun _ v there => ih failed there) there
    cases failed with
    | none => exact landed passing
    | some e =>
      exact local_call (firm_passing (some e) lease) (fun _ u there => landed there) passing

-- What every program of a writer ends in.
def Ended (seal_ : MasterKey) (i : ι) (res : Except Fault Unit) (s : Shared ι) : Prop :=
  (Sound seal_ s ∧ Idle i s) ∧ ∀ e, res = .error e → e.Expected

theorem ended_done {res : Except Fault Unit} (expected : ∀ e, res = .error e → e.Expected)
    (here : Sound seal_ s ∧ Idle i s) : (writing seal_ holder i).Holds (Ended seal_ i) (.done res) s :=
  firm_done firm_idle (fun _ there => ⟨there,expected⟩) here

theorem under_lease {fuel wait : Nat} {work : Lease → Code (Except Fault Unit)}
    (works : ∀ lease t, Sound seal_ t ∧ Held holder i lease t →
      (writing seal_ holder i).Holds (Ended seal_ i) (work lease) t)
    (here : Sound seal_ s ∧ Idle i s) : (writing seal_ holder i).Holds (Ended seal_ i)
      (Lease.acquire fuel (holder i) wait >>= fun acquired =>
        match acquired with
        | .error e => pure (.error e)
        | .ok lease => work lease) s := by
  refine holds_bind _ _ (acquire_held fuel wait here) ?_
  intro acquired t there
  cases acquired with
  | error e => exact ended_done (fun f same => by cases same; exact there.2) there.1
  | ok lease => exact works lease t there

theorem release_ended {res : Except Fault Unit} (expected : ∀ e, res = .error e → e.Expected)
    (here : Sound seal_ s ∧ Mine holder i lease s) : (writing seal_ holder i).Holds (Ended seal_ i)
      (lease.release >>= fun _ => .done res) s :=
  holds_bind _ _ (release_idle here) fun _ _ idle => ended_done expected idle

theorem syncPass_ended (size : Value → Nat) (fuel : Nat) (here : Sound seal_ s ∧ Idle i s) :
    (writing seal_ holder i).Holds (Ended seal_ i) (syncPass seal_ size (holder i) fuel) s := by
  simp only [syncPass,access_bind]
  refine local_call firm_idle (fun idle t there => ?_) here
  split
  · exact ended_done (fun e same => nomatch same) there
  · refine under_lease (fun lease t held => ?_) there
    refine local_call (firm_held lease) (fun batch u held => ?_) held
    refine holds_bind _ _ (passItems_passing size batch none held) ?_
    intro passed v passing
    obtain ⟨failed,lease⟩ := passed
    cases failed with
    | none => exact release_ended (fun e same => nomatch same) ⟨passing.1,passing.2.mine⟩
    | some e => exact release_ended (fun f same => by cases same; exact passing.2) passing.1

theorem secretSet_ended (attempts fuel : Nat) (name bytes : Bytes) (here : Sound seal_ s ∧ Idle i s) :
    (writing seal_ holder i).Holds (Ended seal_ i)
      (secretSet seal_ (attempts + 1) (holder i) fuel name bytes) s := by
  refine under_lease (fun lease t held => ?_) here
  simp only [request_bind]
  refine firm_call (firm_held lease) (fun s r t before served => ?_) held
  obtain ⟨same,later,onward,answer⟩ := get_served served
  refine ⟨promise_still (q := .get _) r served later same,fun sound => ?_⟩
  have held := held_still same later (own_held (q := .get _) r served) before.2
  rcases answer with ⟨rfl,_⟩ | ⟨why,rfl⟩
  · refine holds_bind _ _ (putSealedLoop_settling name bytes attempts _ ⟨sound,held⟩) ?_
    intro written u settling
    obtain ⟨written,lease⟩ := written
    have mine := settling_mine _ settling
    cases written with
    | ok v => exact release_ended (fun e same => nomatch same) mine
    | error e =>
      cases e with
      | conflict c => exact release_ended (fun f same => by cases same; exact fun key same => nomatch same) mine
      | other e => exact release_ended (fun f same => by cases same; exact settling.2 e rfl) mine
  · exact release_ended (fun e same => by cases same; exact remote_expected ⟨why,rfl⟩) ⟨sound,held.mine⟩

theorem forgetDoomed_left (doomed : List (Bytes × Nat)) (plain : ∀ row ∈ doomed, row.1 ≠ leaseKey)
    (here : Sound seal_ s ∧ Held holder i lease s) :
    (writing seal_ holder i).Holds (Left seal_ holder i) (forgetDoomed doomed lease) s := by
  induction doomed generalizing lease s with
  | nil => exact left_held here
  | cons row rest ih =>
    obtain ⟨key,version⟩ := row
    have ih {lease : Lease} {s : Shared ι} (held : Sound seal_ s ∧ Held holder i lease s) :=
      ih (fun row inside => plain row (List.mem_cons_of_mem _ inside)) held
    have plain : key ≠ leaseKey := plain (key,version) List.mem_cons_self
    simp only [forgetDoomed,request_bind,pure_done]
    refine holds_bind _ _ (renewIfDue_held here) ?_
    intro renewed t ready
    obtain ⟨res,lease⟩ := renewed
    cases res with
    | error e => exact left_fails ready.2 ready.1
    | ok u =>
      refine firm_call (firm_ready lease) (fun s answer t ready served => ?_) ready
      obtain ⟨promise,removed,absent,missed⟩ := guarded_delete seal_ plain ready.2 served
      refine ⟨promise,fun sound => ?_⟩
      match answer with
      | .ok (some v) => exact ih ⟨sound,removed v rfl⟩
      | .ok none => exact ih ⟨sound,absent rfl⟩
      | .error (.conflict c) => exact left_fails (fun key same => by cases same) ⟨sound,(missed _ rfl).1⟩
      | .error (.other e) => exact left_fails (remote_expected ((missed _ rfl).2 e rfl)) ⟨sound,(missed _ rfl).1⟩

theorem forgetRemote_ended (fuel : Nat) (doomed : List (Bytes × Nat))
    (plain : ∀ row ∈ doomed, row.1 ≠ leaseKey) (here : Sound seal_ s ∧ Idle i s) :
    (writing seal_ holder i).Holds (Ended seal_ i) (forgetRemote (holder i) fuel doomed) s := by
  refine under_lease (fun lease t held => ?_) here
  refine holds_bind _ _ (forgetDoomed_left doomed plain held) ?_
  intro done u left
  obtain ⟨res,lease⟩ := done
  refine release_ended (fun e same => ?_) (left_mine _ left)
  cases res with
  | ok u => cases same
  | error f =>
    cases same
    exact left.2

end

end VerifiableGit.Bridge.Writers
