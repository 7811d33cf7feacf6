import VerifiableGit.Bridge.World

-- One sealed put among writers that ignore the lease, each of its requests
-- answered, failed or lost.
namespace VerifiableGit.Bridge.PutSealed
open VerifiableGit.Text VerifiableGit.Library.Interaction

-- `next`: the version the lease counts on, as the answers tell it; `broken`: the
-- last write of the secret in the call went wrong.
structure Scene where
  world : World
  next : Nat
  broken : Bool

def opensAt (seal_ : MasterKey) (name : Bytes) (version : Nat) (value : Option Value) : Bool :=
  value.all fun v => (secretBytes seal_ name version v).isSome

section
variable (seal_ : MasterKey) (name : Bytes)

-- A write of somebody else's: of the secret itself, it goes wrong where what it
-- stores does not open.
inductive Outside (s : Scene) : Scene → Prop
  | wrote (now : Int) (key : Bytes) (value : Option Value)
      (removable : value = none → (s.world.remote.live key).isSome = true) :
      Outside s { s with
        world := s.world.writes now key value
        broken := if key = secretKey name then !opensAt seal_ name (s.world.remote.counter + 1) value else s.broken }

def nextAfter (next : Nat) : (q : Request) → q.Answer → Nat
  | .put _ _ _,.ok v => max next (v + 1)
  | _,_ => next

-- A put of the secret, where it is applied, goes wrong when a write has landed
-- that the lease has not counted. `put_sealed` deletes nothing.
def brokenAfter (s : Scene) (after : World) : Request → Bool
  | .put key _ _ =>
    if key = secretKey name ∧ after.remote.counter ≠ s.world.remote.counter then
      decide (s.world.remote.counter + 1 ≠ s.next)
    else s.broken
  | _ => s.broken

structure Answers (s : Scene) (q : Request) (r : q.Answer) (t : Scene) : Prop where
  served : s.world.Serves q r t.world
  next : t.next = nextAfter s.next q r
  broken : t.broken = brokenAfter name s t.world q

-- Between any two requests the others write what they like.
def scene : Setting Request Request.Answer Scene where
  serve := fun q s r u => ∃ t, Relation.ReflTransGen (Outside seal_ name) s t ∧ Answers name t q r u
  rely := fun _ _ => False
  guarantee := fun _ _ _ => True
  always := fun _ => True

def OpensRecord (r : Record) : Prop := ∃ bytes, secretBytes seal_ name r.version r.value = some bytes

def Intact (bytes : Bytes) (before : Remote) (result : PutResult) (after : Remote) : Prop :=
  match result with
  | .ok v => ∃ r, after.get (secretKey name) = some r ∧ r.version = v ∧ secretBytes seal_ name v r.value = some bytes
  | .error _ => after.get (secretKey name) = before.get (secretKey name) ∨
      ∀ r, after.get (secretKey name) = some r → OpensRecord seal_ name r

-- What is sealed under other data does not open.
def Authentic : Prop := ∀ aad other bytes nonce, aad ≠ other → seal_.opened other (seal_.sealed aad bytes nonce) = none

-- What every write keeps; where the last one went wrong the record is new and shut.
structure Fair (before : Remote) (s : Scene) : Prop where
  later : before.counter ≤ s.world.remote.counter
  whole : s.broken = false → s.world.remote.get (secretKey name) = before.get (secretKey name) ∨
    ∀ r, s.world.remote.get (secretKey name) = some r → OpensRecord seal_ name r
  harmed : s.broken = true → Authentic seal_ → ∃ r, s.world.remote.get (secretKey name) = some r ∧
    before.counter < r.version ∧ ¬OpensRecord seal_ name r

end

theorem secretAad_version {name : Bytes} (same : secretAad name m = secretAad name n) : m = n :=
  digits_injective m n (List.append_cancel_left same)

section
variable {seal_ : MasterKey} {name bytes : Bytes} {before : Remote} {s t : Scene}

theorem solitary : (scene seal_ name).Solitary := fun _ _ act => act

theorem scene_done {post : α → Scene → Prop} (here : post a s) : (scene seal_ name).Holds post (.done a) s :=
  solitary_done solitary trivial here

theorem scene_call {post : α → Scene → Prop} {next : q.Answer → Code α}
    (answered : ∀ r t u, Relation.ReflTransGen (Outside seal_ name) s t → Answers name t q r u →
      (scene seal_ name).Holds post (next r) u) : (scene seal_ name).Holds post (.call q next) s := by
  refine solitary_call solitary trivial fun r u served => ⟨trivial,?_⟩
  obtain ⟨t,acts,answers⟩ := served
  exact answered r t u acts answers

theorem fair_elsewhere (fair : Fair seal_ name before s) (now : Int) (key : Bytes) (value : Option Value)
    (other : key ≠ secretKey name) (next : Nat) :
    Fair seal_ name before ⟨s.world.writes now key value,next,s.broken⟩ := by
  have same : (s.world.writes now key value).remote.get (secretKey name) = s.world.remote.get (secretKey name) :=
    Remote.get_other value (Ne.symm other)
  refine ⟨Nat.le_succ_of_le fair.later,fun whole => ?_,fun broken authentic => ?_⟩
  · simp only [same]
    exact fair.whole whole
  · simp only [same]
    exact fair.harmed broken authentic

theorem fair_outside (fair : Fair seal_ name before s) (act : Outside seal_ name s t) : Fair seal_ name before t := by
  cases act with
  | wrote now key value removable =>
    by_cases same : key = secretKey name
    · subst same
      rw [if_pos rfl]
      refine ⟨Nat.le_succ_of_le fair.later,fun whole => .inr ?_,fun broken _ => ?_⟩
      · cases value with
        | none => exact fun r here => by cases Remote.get_removed.symm.trans here
        | some v =>
          intro r here
          cases (Remote.get_write v).symm.trans here
          exact Option.isSome_iff_exists.mp (by simpa [opensAt] using whole)
      · cases value with
        | none => simp [opensAt] at broken
        | some v =>
          refine ⟨_,Remote.get_write v,Nat.lt_succ_of_le fair.later,?_⟩
          rintro ⟨held,opens⟩
          have shut : secretBytes seal_ name (s.world.remote.counter + 1) v = none := by simpa [opensAt] using broken
          rw [shut] at opens
          cases opens
    · rw [if_neg same]
      exact fair_elsewhere fair now key value same s.next

theorem outside_next (acts : Relation.ReflTransGen (Outside seal_ name) s t) (fair : Fair seal_ name before s) :
    Fair seal_ name before t ∧ t.next = s.next := by
  induction acts with
  | refl => exact ⟨fair,rfl⟩
  | tail _ act ih =>
    refine ⟨fair_outside ih.1 act,?_⟩
    cases act with
    | wrote => exact ih.2

-- A request that writes nothing.
theorem fair_still (fair : Fair seal_ name before s) (world : t.world = s.world) (broken : t.broken = s.broken) :
    Fair seal_ name before t := by
  refine ⟨world ▸ fair.later,fun whole => ?_,fun shut authentic => ?_⟩
  · rw [world]
    exact fair.whole (broken ▸ whole)
  · rw [world]
    exact fair.harmed (broken ▸ shut) authentic

theorem fair_lease (fair : Fair seal_ name before s) {r : PutResult}
    (answers : Answers name s (.put leaseKey value expected) r t) : Fair seal_ name before t := by
  have broken : t.broken = s.broken := by
    have same := answers.broken
    rwa [brokenAfter,if_neg fun both => secret_not_lease both.1.symm] at same
  cases t with
  | mk world next still =>
    dsimp only at broken
    subst broken
    cases World.put_served answers.served with
    | stored now passed => exact fair_elsewhere fair now leaseKey (some value) (Ne.symm secret_not_lease) next
    | refused e stopped => exact fair_still fair rfl rfl
    | failed e => exact fair_still fair rfl rfl
    | lost now e passed => exact fair_elsewhere fair now leaseKey (some value) (Ne.symm secret_not_lease) next

theorem delimited_apart (apart : aad ≠ other) (text rest : Bytes) : delimited aad ++ text ≠ delimited other ++ rest := by
  induction aad generalizing other with
  | nil =>
    cases other with
    | nil => exact absurd rfl apart
    | cons b other => simp [delimited]
  | cons a aad ih =>
    cases other with
    | nil => simp [delimited]
    | cons b other =>
      intro same
      obtain ⟨head,tails⟩ : a = b ∧ delimited aad ++ text = delimited other ++ rest := by simpa [delimited] using same
      exact ih (fun equal => apart (by rw [head,equal])) tails

theorem plain_authentic : Authentic plainKey := by
  intro aad other bytes nonce apart
  cases opened : plainKey.opened other (plainKey.sealed aad bytes nonce) with
  | none => rfl
  | some rest => exact absurd (stripPrefix_some.mp opened) (delimited_apart apart bytes rest)

theorem sealed_shut (authentic : Authentic seal_) (bytes nonce : Bytes) (apart : version ≠ predicted) :
    secretBytes seal_ name version (secretValue seal_ name predicted bytes nonce) = none := by
  have other : secretAad name predicted ≠ secretAad name version := fun same => apart (secretAad_version same).symm
  simp [secretBytes,secretValue,Value.get,Field.asStr,authentic _ _ _ _ other]

theorem fair_sealed (fair : Fair seal_ name before s) (bytes nonce : Bytes) (now : Int) (next : Nat) :
    Fair seal_ name before
      ⟨s.world.writes now (secretKey name) (some (secretValue seal_ name s.next bytes nonce)),next,
        decide (s.world.remote.counter + 1 ≠ s.next)⟩ := by
  refine ⟨Nat.le_succ_of_le fair.later,fun whole => .inr ?_,fun shut authentic => ?_⟩
  · have same : s.world.remote.counter + 1 = s.next := by simpa using whole
    intro r here
    cases (Remote.get_write _).symm.trans here
    refine ⟨bytes,?_⟩
    dsimp only
    rw [same]
    exact secretBytes_value seal_ name s.next bytes nonce
  · have apart : s.world.remote.counter + 1 ≠ s.next := by simpa using shut
    refine ⟨_,Remote.get_write _,Nat.lt_succ_of_le fair.later,?_⟩
    rintro ⟨held,opens⟩
    rw [sealed_shut authentic bytes nonce apart] at opens
    cases opens

theorem wrote_broken (value : Value) (wrote : t.world.remote.counter ≠ s.world.remote.counter) {r : PutResult}
    (answers : Answers name s (.put (secretKey name) value expected) r t) :
    t.broken = decide (s.world.remote.counter + 1 ≠ s.next) := by
  have same := answers.broken
  rwa [brokenAfter,if_pos ⟨rfl,wrote⟩] at same

theorem idle_broken (value : Value) (still : t.world = s.world) {r : PutResult}
    (answers : Answers name s (.put (secretKey name) value expected) r t) : t.broken = s.broken := by
  have same := answers.broken
  rwa [brokenAfter,if_neg fun both => both.2 (by rw [still])] at same

-- One attempt: what it leaves, and where its answer is the predicted version.
theorem fair_secret (fair : Fair seal_ name before s) (bytes nonce : Bytes) {r : PutResult}
    (answers : Answers name s (.put (secretKey name) (secretValue seal_ name s.next bytes nonce) expected) r t) :
    Fair seal_ name before t ∧ (r = .ok s.next → t.broken = false ∧
      Intact seal_ name bytes before (.ok s.next) t.world.remote) := by
  have served := World.put_served answers.served
  cases t with
  | mk world next broken =>
    dsimp only at served
    cases served with
    | stored now passed =>
      have wrote : broken = decide (s.world.remote.counter + 1 ≠ s.next) :=
        wrote_broken _ (Nat.succ_ne_self _) answers
      subst wrote
      refine ⟨fair_sealed fair bytes nonce now next,fun landed => ?_⟩
      have same : s.world.remote.counter + 1 = s.next := Except.ok.inj landed
      refine ⟨by simp [same],_,Remote.get_write _,same,?_⟩
      exact secretBytes_value seal_ name s.next bytes nonce
    | refused e stopped =>
      exact ⟨fair_still fair rfl (idle_broken _ rfl answers),fun landed => nomatch landed⟩
    | failed e => exact ⟨fair_still fair rfl (idle_broken _ rfl answers),fun landed => nomatch landed⟩
    | lost now e passed =>
      have wrote : broken = decide (s.world.remote.counter + 1 ≠ s.next) :=
        wrote_broken _ (Nat.succ_ne_self _) answers
      subst wrote
      exact ⟨fair_sealed fair bytes nonce now next,fun landed => nomatch landed⟩

-- What the call returns with: nothing went wrong last exactly where the secret is intact.
def Exact (seal_ : MasterKey) (name bytes : Bytes) (before : Remote) (result : PutResult × Lease) (t : Scene) : Prop :=
  (t.broken = false → Intact seal_ name bytes before result.1 t.world.remote) ∧
  (Authentic seal_ → before.Counted → Intact seal_ name bytes before result.1 t.world.remote → t.broken = false)

theorem fair_error (fair : Fair seal_ name before s) (e : PutError) (lease : Lease) :
    Exact seal_ name bytes before (.error e,lease) s := by
  refine ⟨fair.whole,fun authentic counted intact => Bool.eq_false_iff.mpr fun broken => ?_⟩
  obtain ⟨r,here,new_,shut⟩ := fair.harmed broken authentic
  rcases intact with same | opens
  · have old : before.get (secretKey name) = some r := same.symm.trans here
    have alive := Remote.get_live old
    obtain ⟨entry,found,held⟩ := Option.bind_eq_some_iff.mp alive
    obtain ⟨_,_,version⟩ := Option.map_eq_some_iff.mp held
    exact absurd (counted _ entry found) (by omega)
  · exact shut (opens r here)

-- The lease goes on counting what its own requests are answered.
theorem renew_fair (lease : Lease) (fair : Fair seal_ name before s) (counts : s.next = lease.next) :
    (scene seal_ name).Holds (fun renewed t => Fair seal_ name before t ∧ t.next = renewed.2.next) lease.renewIfDue s := by
  simp only [Lease.renewIfDue,request_bind,pure_done]
  refine scene_call fun now t u acts answers => ?_
  obtain ⟨fairT,nextT⟩ := outside_next acts fair
  have fairU : Fair seal_ name before u := fair_still fairT answers.served answers.broken
  have nextU : u.next = lease.next := answers.next.trans (nextT.trans counts)
  split
  · exact scene_done ⟨fairU,nextU⟩
  · split
    · exact scene_done ⟨fairU,nextU⟩
    · refine scene_call fun sent t₂ u₂ acts₂ answers₂ => ?_
      obtain ⟨fairT₂,nextT₂⟩ := outside_next acts₂ fairU
      have fairU₂ : Fair seal_ name before u₂ := fair_still fairT₂ answers₂.served answers₂.broken
      have nextU₂ : u₂.next = lease.next := answers₂.next.trans (nextT₂.trans nextU)
      refine scene_call fun time t₃ u₃ acts₃ answers₃ => ?_
      obtain ⟨fairT₃,nextT₃⟩ := outside_next acts₃ fairU₂
      have fairU₃ : Fair seal_ name before u₃ := fair_still fairT₃ answers₃.served answers₃.broken
      have nextU₃ : u₃.next = lease.next := answers₃.next.trans (nextT₃.trans nextU₂)
      refine scene_call fun answer t₄ u₄ acts₄ answers₄ => ?_
      obtain ⟨fairT₄,nextT₄⟩ := outside_next acts₄ fairU₃
      have fairU₄ : Fair seal_ name before u₄ := fair_lease fairT₄ answers₄
      have nextU₄ := answers₄.next
      cases answer with
      | error e => exact scene_done ⟨fairU₄,nextU₄.trans (nextT₄.trans nextU₃)⟩
      | ok v =>
        refine scene_done ⟨fairU₄,nextU₄.trans ?_⟩
        rw [nextAfter,nextT₄,nextU₃]
        rfl

theorem loop_exact (attempts expected : Nat) (lease : Lease) (fair : Fair seal_ name before s)
    (counts : s.next = lease.next) :
    (scene seal_ name).Holds (Exact seal_ name bytes before) (putSealedLoop seal_ name bytes attempts expected lease) s := by
  induction attempts generalizing s expected lease with
  | zero => exact scene_done (fair_error fair _ _)
  | succ attempts ih =>
    rw [putSealedLoop]
    refine holds_bind _ _ (renew_fair lease fair counts) ?_
    rintro ⟨renewed,lease⟩ t ⟨fairT,nextT⟩
    cases renewed with
    | error e => exact scene_done (fair_error fairT _ _)
    | ok _ =>
      simp only [request_bind,pure_done]
      refine scene_call fun nonce t₂ u₂ acts₂ answers₂ => ?_
      obtain ⟨fairT₂,nextT₂⟩ := outside_next acts₂ fairT
      have fairU₂ : Fair seal_ name before u₂ := fair_still fairT₂ answers₂.served answers₂.broken
      have nextU₂ : u₂.next = lease.next := answers₂.next.trans (nextT₂.trans nextT)
      cases nonce with
      | none => exact scene_done (fair_error fairU₂ _ _)
      | some nonce =>
        refine scene_call fun answer t₃ u₃ acts₃ answers₃ => ?_
        obtain ⟨fairT₃,nextT₃⟩ := outside_next acts₃ fairU₂
        have counted : t₃.next = lease.next := nextT₃.trans nextU₂
        rw [← counted] at answers₃
        obtain ⟨fairU₃,landed⟩ := fair_secret fairT₃ bytes nonce answers₃
        have nextU₃ := answers₃.next
        cases answer with
        | error e => exact scene_done (fair_error fairU₃ _ _)
        | ok v =>
          dsimp only
          split
          · rename_i same
            have here : (Except.ok v : PutResult) = .ok t₃.next := by rw [same,counted]
            obtain ⟨whole,intact⟩ := landed here
            rw [← Except.ok.inj here] at intact
            exact scene_done ⟨fun _ => intact,fun _ _ _ => whole⟩
          · refine ih v _ fairU₃ (nextU₃.trans ?_)
            rw [nextAfter,counted]
            rfl

theorem fair_start (world : World) (next : Nat) : Fair seal_ name world.remote ⟨world,next,false⟩ :=
  ⟨Nat.le_refl _,fun _ => .inl rfl,fun broken => nomatch broken⟩

-- However the call and the others' writes went: it leaves the secret intact exactly
-- when the last write of the secret did not go wrong.
theorem put_sealed_exact (seal_ : MasterKey) (name bytes : Bytes) (current : Option Nat) (lease after : Lease)
    (world : World) (result : PutResult) (t : Scene)
    (run : Relation.ReflTransGen (scene seal_ name).Step
      (⟨world,lease.next,false⟩,putSealed seal_ name bytes current lease) (t,.done (result,after))) :
    (t.broken = false → Intact seal_ name bytes world.remote result t.world.remote) ∧
    (Authentic seal_ → world.remote.Counted → Intact seal_ name bytes world.remote result t.world.remote →
      t.broken = false) := by
  have start : Fair seal_ name world.remote ⟨world,lease.next,false⟩ := fair_start world lease.next
  have begun : (scene seal_ name).Holds (Exact seal_ name bytes world.remote) (putSealed seal_ name bytes current lease)
      ⟨world,lease.next,false⟩ := loop_exact 4 (current.getD 0) lease start rfl
  have ended : Exact seal_ name bytes world.remote (result,after) t := holds_value (steps_holds run begun)
  exact ended

end

namespace Sample

def token : Bytes := ascii "t"

-- The secret at version 1, and a lease that counts on 2.
def held : World :=
  ⟨Remote.empty.write 0 (secretKey token) (some (secretValue plainKey token 1 [7] [])),Host.empty,[]⟩

def lease : Lease := ⟨ascii "host",1,100000,2⟩

-- Somebody writes another key before the first put.
def meddled (s : Scene) : Scene :=
  ⟨s.world.writes 0 (ascii "notes") (some (.raw [])),s.next,s.broken⟩

def meets (s : Scene) : Request → Scene
  | .put _ _ _ => if s.world.remote.counter = 1 then meddled s else s
  | _ => s

def answer (later : World.Fate) (q : Request) (s : Scene) : Option (q.Answer × Scene) :=
  let t := meets s q
  let fate : World.Fate := if t.world.remote.counter = 2 then .answered else later
  (t.world.answer ⟨0,fun _ => fate,[]⟩ q).map fun done =>
    (done.1,⟨done.2,nextAfter t.next q done.1,brokenAfter token t done.2 q⟩)

theorem meets_outside (s : Scene) (q : Request) : Relation.ReflTransGen (Outside plainKey token) s (meets s q) := by
  have wrote : Outside plainKey token s (meddled s) :=
    .wrote (s := s) 0 (ascii "notes") (some (.raw [])) (fun removed => nomatch removed)
  cases q with
  | put key value expected =>
    by_cases first : s.world.remote.counter = 1
    · rw [meets,if_pos first]
      exact .single wrote
    · rw [meets,if_neg first]
  | _ => exact .refl

theorem answer_serves (later : World.Fate) (q : Request) (s : Scene) (r : q.Answer) (t : Scene)
    (found : answer later q s = some (r,t)) : (scene plainKey token).serve q s r t := by
  obtain ⟨done,answered,same⟩ := Option.map_eq_some_iff.mp found
  cases same
  exact ⟨meets s q,meets_outside s q,World.answer_serves q _ answered,rfl,rfl⟩

def run (later : World.Fate) : Option ((PutResult × Lease) × Scene) :=
  (putSealed plainKey token [8] (some 1) lease).run (answer later) ⟨held,2,false⟩

-- What there is of the secret when the call returns: its version, and what opens.
def shown (done : (PutResult × Lease) × Scene) : Bool × Option (Nat × Option Bytes) :=
  (done.1.1.isOk,(done.2.world.remote.get (secretKey token)).map fun r =>
    (r.version,secretBytes plainKey token r.version r.value))

-- The put lands past the version it was sealed to, and the next attempt fails.
theorem mispredicted_shut : ∃ e lease' t, Relation.ReflTransGen (scene plainKey token).Step
    (⟨held,lease.next,false⟩,putSealed plainKey token [8] (some 1) lease) (t,.done (.error e,lease')) ∧
    ¬Intact plainKey token [8] held.remote (.error e) t.world.remote := by
  have facts : (run .failed).map shown = some (false,some (3,none)) := by decide
  obtain ⟨⟨⟨result,after⟩,t⟩,ran,same⟩ := Option.map_eq_some_iff.mp facts
  obtain ⟨failed,record⟩ := Prod.mk.inj same
  obtain ⟨r,here,shut⟩ := Option.map_eq_some_iff.mp record
  obtain ⟨version,closed⟩ := Prod.mk.inj shut
  cases result with
  | ok v => cases failed
  | error e =>
    refine ⟨e,after,t,run_steps (answer_serves .failed) _ ran,?_⟩
    have before : (held.remote.get (secretKey token)).map Record.version = some 1 := by decide
    rintro (old | opens)
    · rw [← old,here,Option.map_some,version] at before
      cases before
    · obtain ⟨_,open_⟩ := opens r here
      rw [closed] at open_
      cases open_

-- Where it succeeds the secret is sealed again at the version it takes.
theorem put_sealed_repaired : ∃ v lease' t, Relation.ReflTransGen (scene plainKey token).Step
    (⟨held,lease.next,false⟩,putSealed plainKey token [8] (some 1) lease) (t,.done (.ok v,lease')) ∧
    Intact plainKey token [8] held.remote (.ok v) t.world.remote := by
  have facts : (run .answered).map (fun done => (done.1.1.isOk,done.2.broken)) = some (true,false) := by decide
  obtain ⟨⟨⟨result,after⟩,t⟩,ran,same⟩ := Option.map_eq_some_iff.mp facts
  obtain ⟨fine,whole⟩ := Prod.mk.inj same
  have steps := run_steps (answer_serves .answered) _ ran
  cases result with
  | error e => cases fine
  | ok v =>
    refine ⟨v,after,t,steps,?_⟩
    exact (put_sealed_exact plainKey token [8] (some 1) lease after held (.ok v) t steps).1 whole

end Sample

end VerifiableGit.Bridge.PutSealed
