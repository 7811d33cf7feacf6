import VerifiableGit.Bridge.Pull

-- One host as the only writer of its remote, with requests that fail or whose
-- answers are lost: what stays true of the remote, of what was mirrored, and of
-- the versions kept in memory.
namespace VerifiableGit.Bridge
open VerifiableGit.Text VerifiableGit.Library.Interaction Mirror

-- `lost`: keys whose last write was applied and its answer lost, until their books
-- are right again; `acked`: the version of the last answered write or deletion of
-- a record or secret; `past`: what the remote was before.
structure Tracked where
  world : World
  lost : Finset Bytes
  acked : Nat
  past : List Remote

namespace Tracked

abbrev host (s : Tracked) : Host := s.world.host
abbrev remote (s : Tracked) : Remote := s.world.remote

def lostBy (s : Tracked) (after : World) (key : Bytes) : Except PutError α → Finset Bytes
  | .error (.other _) => if after.remote.counter = s.remote.counter then s.lost else insert key s.lost
  | _ => s.lost

def lostAfter (s : Tracked) (after : World) : (q : Request) → q.Answer → Finset Bytes
  | .put key _ _,r => s.lostBy after key r
  | .delete key _,r => s.lostBy after key r
  | .host (.forget key),_ => s.lost.erase key
  | _,_ => s.lost

def ackedAfter (s : Tracked) : (q : Request) → q.Answer → Nat
  | .put key _ _,r =>
    match r with
    | .ok v => if key = leaseKey then s.acked else v
    | _ => s.acked
  | .delete key _,r =>
    match r with
    | .ok (some v) => if key = leaseKey then s.acked else v
    | _ => s.acked
  | _,_ => s.acked

-- A request that does not write under a version the host may not know.
def Careful (s : Tracked) : Request → Prop
  | .put key _ _ => key = leaseKey ∨ key ∉ s.lost
  | .delete key expected => key = leaseKey ∨ key ∉ s.lost ∨ expected = none ∨ s.remote.live key = none
  | _ => True

structure Serves (careful : Prop) (s : Tracked) (q : Request) (r : q.Answer) (t : Tracked) : Prop where
  world : s.world.Serves q r t.world
  lost : t.lost = s.lostAfter t.world q r
  acked : t.acked = s.ackedAfter q r
  past : t.past = s.remote :: s.past
  careful : careful → s.Careful q

inductive Local : Tracked → Tracked → Prop
  | commit (s : Tracked) (op : StoreOp) : Local s { s with world := s.world.commits op }
  | mark (s : Tracked) (d : Dirty) (owes : d ∈ s.world.owed) : Local s { s with world := s.world.marks d }

-- A new mirror that has pulled, whether the pull took the remote or refused it.
def restarted (s : Tracked) (host : Host) : Tracked :=
  { s with world := ⟨s.remote,host,[]⟩, lost := ∅ }

def first : Tracked := ⟨⟨Remote.empty,Host.empty,[]⟩,∅,0,[]⟩

end Tracked

namespace Remote

-- What has become of `earlier`: newer records are newer than its counter.
structure Extends (earlier remote : Remote) : Prop where
  counter : earlier.counter ≤ remote.counter
  records : ∀ key e, remote.entries.lookup key = some e → e.version ≤ earlier.counter →
    earlier.entries.lookup key = some e

-- The remote holds the key at the version or a later one.
def Reaches (remote : Remote) (key : Bytes) (version : Nat) : Prop :=
  ∃ e, remote.entries.lookup key = some e ∧ version ≤ e.version

theorem extends_refl (remote : Remote) : Extends remote remote :=
  ⟨Nat.le_refl _,fun _ _ here _ => here⟩

theorem extends_write {earlier remote : Remote} (later : Extends earlier remote) (now : Int)
    (key : Bytes) (v : Option Value) : Extends earlier (remote.write now key v) := by
  refine ⟨Nat.le_succ_of_le later.counter,fun k e here old => ?_⟩
  by_cases same : k = key
  · subst same
    rw [write_same,Option.some.injEq] at here
    subst here
    have below := later.counter
    exact absurd (Nat.le_trans old below) (Nat.not_succ_le_self _)
  · rw [write_other v same] at here
    exact later.records k e here old

theorem reaches_write {remote : Remote} {key other : Bytes} {m : Nat} (now : Int) (v : Option Value)
    (known : remote.Reaches other m) (below : m ≤ remote.counter) :
    (remote.write now key v).Reaches other m := by
  by_cases same : other = key
  · subst same
    exact ⟨_,write_same v,Nat.le_succ_of_le below⟩
  · obtain ⟨e,here,later⟩ := known
    exact ⟨e,(write_other v same).trans here,later⟩

end Remote

section
variable (seal_ : MasterKey)

-- A mirrored version, checked against the remote and every earlier one.
structure Booked (s : Tracked) (key : Bytes) (m : Nat) : Prop where
  below : m ≤ s.remote.counter
  reached : s.remote.Reaches key m
  past : ∀ earlier ∈ s.past, m ≤ earlier.counter → earlier.Reaches key m

structure Core (s : Tracked) : Prop where
  unreaped : s.remote.reaped = false
  versions : s.remote.Counted
  secrets : Sealed seal_ s.remote
  mirrored : ∀ key m, s.host.mirrored.lookup key = some m → Booked s key m
  past : ∀ earlier ∈ s.past, earlier.Counted ∧ earlier.Extends s.remote

-- The versions in memory are the remote's, but for keys whose answer was lost.
def Knows (s : Tracked) (key : Bytes) : Prop := key ∉ s.lost → s.host.versions.lookup key = s.remote.live key

-- `except`: a key whose books are just being made.
def Settled (careful : Prop) (except : Option Bytes) (s : Tracked) : Prop :=
  careful → s.host.conflicts = 0 ∧ ∀ key, key ≠ leaseKey → some key ≠ except → Knows s key

def Calm (careful : Prop) (except : Option Bytes) (s : Tracked) : Prop :=
  Core seal_ s ∧ Settled careful except s

def tracking (careful : Prop) : Setting Request Request.Answer Tracked where
  serve := fun q s r t => s.Serves careful q r t
  rely := Tracked.Local
  guarantee := fun _ _ _ => True
  always := fun s => Core seal_ s ∧ (careful → s.host.conflicts = 0)

end

section
variable {seal_ : MasterKey} {careful : Prop} {except : Option Bytes} {s t : Tracked} {key : Bytes}

theorem calm_always (s : Tracked) (calm : Calm seal_ careful except s) :
    Core seal_ s ∧ (careful → s.host.conflicts = 0) := ⟨calm.1,fun yes => (calm.2 yes).1⟩

-- The local writers change nothing of this.
structure Unmoved (s t : Tracked) : Prop where
  remote : t.remote = s.remote
  mirrored : t.host.mirrored = s.host.mirrored
  versions : t.host.versions = s.host.versions
  conflicts : t.host.conflicts = s.host.conflicts
  lost : t.lost = s.lost

theorem booked_unmoved {m : Nat} (remote : t.remote = s.remote)
    (past : ∀ earlier ∈ t.past, earlier = s.remote ∨ earlier ∈ s.past) (booked : Booked s key m) :
    Booked t key m := by
  refine ⟨remote ▸ booked.below,remote ▸ booked.reached,fun earlier inside below => ?_⟩
  rcases past earlier inside with here | before
  · exact here ▸ booked.reached
  · exact booked.past earlier before below

-- The remote stays, and at most joins the past; what is newly mirrored is checked.
theorem core_books (remote : t.remote = s.remote)
    (past : ∀ earlier ∈ t.past, earlier = s.remote ∨ earlier ∈ s.past)
    (mirrored : ∀ k v, t.host.mirrored.lookup k = some v →
      s.host.mirrored.lookup k = some v ∨ Booked s k v) (core : Core seal_ s) : Core seal_ t := by
  refine ⟨remote ▸ core.unreaped,remote ▸ core.versions,remote ▸ core.secrets,?_,?_⟩
  · intro k v known
    rcases mirrored k v known with before | booked
    · exact booked_unmoved remote past (core.mirrored k v before)
    · exact booked_unmoved remote past booked
  · intro earlier inside
    rw [remote]
    rcases past earlier inside with here | before
    · subst here
      exact ⟨core.versions,Remote.extends_refl _⟩
    · exact core.past earlier before

theorem core_unmoved (moved : Unmoved s t) (past : ∀ earlier ∈ t.past, earlier = s.remote ∨ earlier ∈ s.past)
    (core : Core seal_ s) : Core seal_ t :=
  core_books moved.remote past (fun _ _ known => .inl (moved.mirrored ▸ known)) core

theorem settled_same (remote : t.remote = s.remote) (versions : t.host.versions = s.host.versions)
    (conflicts : t.host.conflicts = s.host.conflicts) (lost : t.lost = s.lost)
    (settled : Settled careful except s) : Settled careful except t := by
  intro yes
  obtain ⟨none_,knows⟩ := settled yes
  refine ⟨conflicts.trans none_,fun key plain other known => ?_⟩
  rw [lost] at known
  rw [versions,remote]
  exact knows key plain other known

theorem settled_unmoved (moved : Unmoved s t) (settled : Settled careful except s) :
    Settled careful except t :=
  settled_same moved.remote moved.versions moved.conflicts moved.lost settled

theorem local_unmoved (act : Tracked.Local s t) : Unmoved s t ∧ t.past = s.past := by
  cases act with
  | commit op =>
    exact ⟨⟨rfl,Host.commit_mirrored _ _,Host.commit_versions _ _,Host.commit_conflicts _ _,rfl⟩,rfl⟩
  | mark d owes => exact ⟨⟨rfl,rfl,rfl,rfl,rfl⟩,rfl⟩

theorem calm_stable : (tracking seal_ careful).Stable (Calm seal_ careful except) := by
  intro s t act calm
  obtain ⟨moved,past⟩ := local_unmoved act
  refine ⟨core_unmoved moved (fun _ inside => .inr (past ▸ inside)) calm.1,
    settled_unmoved moved calm.2⟩

theorem booked_stable (m : Nat) : (tracking seal_ careful).Stable fun s => Booked s key m := by
  intro s t act booked
  obtain ⟨moved,past⟩ := local_unmoved act
  exact booked_unmoved moved.remote (fun _ inside => .inr (past ▸ inside)) booked

-- A write of the remote's, at any key.
theorem booked_write {m : Nat} {now : Int} {other : Bytes} {v : Option Value}
    (remote : t.remote = s.remote.write now other v) (past : t.past = s.remote :: s.past)
    (booked : Booked s key m) : Booked t key m := by
  refine ⟨?_,?_,fun earlier inside below => ?_⟩
  · rw [remote]
    exact Nat.le_succ_of_le booked.below
  · rw [remote]
    exact Remote.reaches_write now v booked.reached booked.below
  · rw [past] at inside
    rcases List.mem_cons.mp inside with here | before
    · exact here ▸ booked.reached
    · exact booked.past earlier before below

theorem core_write {now : Int} {v : Option Value} (remote : t.remote = s.remote.write now key v)
    (mirrored : t.host.mirrored = s.host.mirrored) (past : t.past = s.remote :: s.past)
    (opens : ∀ name value, key = secretKey name → v = some value →
      ∃ bytes, secretBytes seal_ name (s.remote.counter + 1) value = some bytes)
    (core : Core seal_ s) : Core seal_ t := by
  refine ⟨?_,?_,?_,?_,?_⟩
  · rw [remote]
    exact core.unreaped
  · rw [remote]
    exact Remote.counted_write core.versions now key v
  · rw [remote]
    exact sealed_write core.secrets opens
  · intro k m known
    rw [mirrored] at known
    exact booked_write remote past (core.mirrored k m known)
  · intro earlier inside
    rw [past] at inside
    rw [remote]
    rcases List.mem_cons.mp inside with here | before
    · subst here
      exact ⟨core.versions,Remote.extends_write (Remote.extends_refl _) now key v⟩
    · exact ⟨(core.past earlier before).1,Remote.extends_write (core.past earlier before).2 now key v⟩

end

section
variable (seal_ : MasterKey) (careful : Prop)

structure Steady (P : Tracked → Prop) : Prop where
  stable : (tracking seal_ careful).Stable P
  unmoved : ∀ s t, Unmoved s t → t.past = s.remote :: s.past → P s → P t
  always : ∀ s, P s → Core seal_ s ∧ (careful → s.host.conflicts = 0)

end

section
variable {seal_ : MasterKey} {careful : Prop} {except : Option Bytes} {s t : Tracked} {key : Bytes}

theorem still_unmoved (q : Request) (r : q.Answer) (kind : q.Still) (served : s.Serves careful q r t) :
    Unmoved s t := by
  have same (world : t.world = s.world) (lost : t.lost = s.lost) : Unmoved s t := by
    refine ⟨?_,?_,?_,?_,lost⟩ <;> simp only [Tracked.remote,Tracked.host,world]
  cases q with
  | put key value expected => exact absurd kind id
  | delete key expected => exact absurd kind id
  | get key => exact same served.world.1 served.lost
  | timestamp => exact same served.world served.lost
  | instant => exact same served.world served.lost
  | sleep millis => exact same served.world served.lost
  | nonce => exact same served.world served.lost
  | host query =>
    obtain ⟨host,remote,_⟩ := served.world
    obtain ⟨mirrored,versions,conflicts⟩ := Host.still_kept query r kind host
    refine ⟨remote,mirrored,versions,conflicts,served.lost.trans ?_⟩
    cases query with
    | forget key => exact absurd kind id
    | _ => rfl

theorem still_call {P : Tracked → Prop} {post : α → Tracked → Prop} {q : Request}
    {next : q.Answer → Code α} (steady : Steady seal_ careful P) (kind : q.Still)
    (rest : ∀ s r t, P s → P t → s.Serves careful q r t → (tracking seal_ careful).Holds post (next r) t)
    (here : P s) : (tracking seal_ careful).Holds post (.call q next) s := by
  refine holds_call steady.stable steady.always (fun s r t before served => ⟨trivial,?_⟩) here
  exact rest s r t before
    (steady.unmoved s t (still_unmoved q r kind served) served.past before) served

theorem steady_done {P : Tracked → Prop} {post : α → Tracked → Prop} {a : α}
    (steady : Steady seal_ careful P) (last : ∀ t, P t → post a t) (here : P s) :
    (tracking seal_ careful).Holds post (.done a) s :=
  holds_done steady.stable steady.always last here

theorem calm_unmoved (moved : Unmoved s t) (past : t.past = s.remote :: s.past)
    (calm : Calm seal_ careful except s) : Calm seal_ careful except t :=
  ⟨core_unmoved moved (fun _ inside => List.mem_cons.mp (past ▸ inside)) calm.1,
    settled_unmoved moved calm.2⟩

-- Calm, with a fact about the remote and the versions beside it.
theorem steady_facts (except : Option Bytes) (F : Remote → Map Bytes Nat → Prop) :
    Steady seal_ careful fun s => Calm seal_ careful except s ∧ F s.remote s.host.versions := by
  refine ⟨?_,?_,fun s here => calm_always s here.1⟩
  · intro s t act here
    obtain ⟨moved,_⟩ := local_unmoved act
    exact ⟨calm_stable act here.1,moved.remote ▸ moved.versions ▸ here.2⟩
  · intro s t moved past here
    exact ⟨calm_unmoved moved past here.1,moved.remote ▸ moved.versions ▸ here.2⟩

theorem steady_calm (except : Option Bytes) : Steady seal_ careful (Calm seal_ careful except) := by
  refine ⟨calm_stable,fun s t moved past here => calm_unmoved moved past here,?_⟩
  exact fun s here => calm_always s here

theorem steady_booked {P : Tracked → Prop} (steady : Steady seal_ careful P) (key : Bytes) (m : Nat) :
    Steady seal_ careful fun s => P s ∧ Booked s key m := by
  refine ⟨stable_and steady.stable (booked_stable m),?_,fun s here => steady.always s here.1⟩
  intro s t moved past here
  exact ⟨steady.unmoved s t moved past here.1,booked_unmoved moved.remote
    (fun _ inside => List.mem_cons.mp (past ▸ inside)) here.2⟩

-- What a put at a record's or secret's key leaves.
inductive PutOutcome (seal_ : MasterKey) (careful : Prop) (s t : Tracked) (key : Bytes) :
    PutResult → Prop
  | stored (counter : t.remote.counter = s.remote.counter + 1) (calm : Calm seal_ careful (some key) t)
      (alive : t.remote.live key = some (s.remote.counter + 1))
      (booked : Booked t key (s.remote.counter + 1)) :
      PutOutcome seal_ careful s t key (.ok (s.remote.counter + 1))
  | conflict (c : Option Nat) (careless : ¬ careful) (calm : Calm seal_ careful none t) :
      PutOutcome seal_ careful s t key (.error (.conflict c))
  | other (e : Fault) (calm : Calm seal_ careful none t) :
      PutOutcome seal_ careful s t key (.error (.other e))

theorem stayed_unmoved (world : t.world = s.world) (lost : t.lost = s.lost) : Unmoved s t := by
  refine ⟨?_,?_,?_,?_,lost⟩ <;> simp only [Tracked.remote,Tracked.host,world]

-- A write at the key: calm but for the key, and calm outright if its answer is lost.
theorem calm_write {now : Int} {v : Option Value} (world : t.world = s.world.writes now key v)
    (past : t.past = s.remote :: s.past) (lost : s.lost ⊆ t.lost)
    (opens : ∀ name value, key = secretKey name → v = some value →
      ∃ bytes, secretBytes seal_ name (s.remote.counter + 1) value = some bytes)
    (excused : key = leaseKey ∨ some key = except ∨ key ∈ t.lost)
    (calm : Calm seal_ careful none s) : Calm seal_ careful except t := by
  have remote : t.remote = s.remote.write now key v := congrArg World.remote world
  have host : t.host = s.host := (congrArg World.host world).trans rfl
  refine ⟨core_write remote (congrArg Host.mirrored host) past opens calm.1,fun yes => ?_⟩
  obtain ⟨none_,knows⟩ := calm.2 yes
  refine ⟨(congrArg Host.conflicts host).trans none_,fun k plain other known => ?_⟩
  have different : k ≠ key := by
    intro same
    subst same
    rcases excused with lease | skipped | gone
    · exact plain lease
    · exact other skipped
    · exact known gone
  rw [remote,Remote.live_other v different,host]
  exact knows k plain nofun fun before => known (lost before)

theorem booked_new {now : Int} {v : Option Value} (remote : t.remote = s.remote.write now key v)
    (past : t.past = s.remote :: s.past) (core : Core seal_ s) :
    Booked t key (s.remote.counter + 1) := by
  refine ⟨?_,?_,fun earlier inside below => ?_⟩
  · rw [remote]
    exact Nat.le_refl _
  · rw [remote]
    exact ⟨_,Remote.write_same v,Nat.le_refl _⟩
  · rw [past] at inside
    have behind : earlier.counter ≤ s.remote.counter := by
      rcases List.mem_cons.mp inside with here | before
      · exact here ▸ Nat.le_refl _
      · exact (core.past earlier before).2.counter
    exact absurd (Nat.le_trans below behind) (Nat.not_succ_le_self _)

theorem lost_stays {after : World} (e : PutError) (same : after = s.world) :
    s.lostBy after key (.error e : Except PutError α) = s.lost := by
  cases e with
  | conflict c => rfl
  | other fault => exact if_pos (congrArg (fun w => w.remote.counter) same)

theorem calm_stayed (world : t.world = s.world) (past : t.past = s.remote :: s.past)
    (lost : t.lost = s.lost) (calm : Calm seal_ careful except s) : Calm seal_ careful except t :=
  calm_unmoved (stayed_unmoved world lost) past calm

variable (seal_) in
theorem put_tracked {value : Value} {expected : Option Nat} {r : PutResult} (plain : key ≠ leaseKey)
    (served : s.Serves careful (.put key value expected) r t)
    (opens : ∀ name, key = secretKey name →
      ∃ bytes, secretBytes seal_ name (s.remote.counter + 1) value = some bytes)
    (expects : careful → key ∉ s.lost → expected = some ((s.remote.live key).getD 0))
    (calm : Calm seal_ careful none s) : PutOutcome seal_ careful s t key r := by
  have opens' (name : Bytes) (v : Value) (same : key = secretKey name) (held : some value = some v) :
      ∃ bytes, secretBytes seal_ name (s.remote.counter + 1) v = some bytes := by
    cases held
    exact opens name same
  generalize world : t.world = after
  have outcome := World.put_served (world ▸ served.world)
  cases outcome with
  | stored now passed =>
    have remote : t.remote = s.remote.write now key (some value) := congrArg World.remote world
    have lost : t.lost = s.lost := served.lost
    refine .stored (by rw [remote]; rfl) ?_ (by rw [remote]; simp) (booked_new remote served.past calm.1)
    exact calm_write world served.past (by rw [lost]) opens' (.inr (.inl rfl)) calm
  | refused e stopped =>
    have calm' := calm_stayed world served.past (served.lost.trans (lost_stays _ world)) calm
    cases e with
    | other fault => exact .other fault calm'
    | conflict c =>
      refine .conflict c (fun yes => ?_) calm'
      have known := (served.careful yes).resolve_left plain
      rw [expects yes known,Remote.precondition_live] at stopped
      cases stopped
  | failed e =>
    have lost := served.lost.trans (lost_stays (α := Nat) (.other e) world)
    exact .other e (calm_stayed world served.past lost calm)
  | lost now e passed =>
    have gone : t.lost = insert key s.lost := by
      refine served.lost.trans (if_neg ?_)
      rw [world]
      exact Nat.succ_ne_self _
    refine .other e (calm_write world served.past ?_ opens' (.inr (.inr ?_)) calm)
    · rw [gone]
      exact Finset.subset_insert _ _
    · rw [gone]
      exact Finset.mem_insert_self _ _

inductive DeleteOutcome (seal_ : MasterKey) (careful : Prop) (s t : Tracked) (key : Bytes) :
    DeleteResult → Prop
  | removed (counter : t.remote.counter = s.remote.counter + 1) (calm : Calm seal_ careful (some key) t)
      (gone : t.remote.live key = none) :
      DeleteOutcome seal_ careful s t key (.ok (some (s.remote.counter + 1)))
  | absent (counter : t.remote.counter = s.remote.counter) (calm : Calm seal_ careful none t)
      (gone : t.remote.live key = none) : DeleteOutcome seal_ careful s t key (.ok none)
  | conflict (c : Option Nat) (careless : ¬ careful) (calm : Calm seal_ careful none t) :
      DeleteOutcome seal_ careful s t key (.error (.conflict c))
  | other (e : Fault) (calm : Calm seal_ careful none t) :
      DeleteOutcome seal_ careful s t key (.error (.other e))

variable (seal_) in
theorem delete_tracked {expected : Option Nat} {r : DeleteResult} (plain : key ≠ leaseKey)
    (served : s.Serves careful (.delete key expected) r t)
    (expects : careful → key ∉ s.lost → expected = s.remote.live key)
    (calm : Calm seal_ careful none s) : DeleteOutcome seal_ careful s t key r := by
  have opens (name : Bytes) (v : Value) (_ : key = secretKey name) (held : none = some v) :
      ∃ bytes, secretBytes seal_ name (s.remote.counter + 1) v = some bytes := nomatch held
  generalize world : t.world = after
  have outcome := World.delete_served (world ▸ served.world)
  cases outcome with
  | absent gone =>
    have remote : t.remote = s.remote := congrArg World.remote world
    exact .absent (by rw [remote]) (calm_stayed world served.past served.lost calm) (by rw [remote,gone])
  | removed now c alive passed =>
    have remote : t.remote = s.remote.write now key none := congrArg World.remote world
    have lost : t.lost = s.lost := served.lost
    refine .removed (by rw [remote]; rfl) ?_ (by rw [remote]; simp)
    exact calm_write world served.past (by rw [lost]) opens (.inr (.inl rfl)) calm
  | refused c e alive stopped =>
    have calm' := calm_stayed world served.past (served.lost.trans (lost_stays _ world)) calm
    cases e with
    | other fault => exact .other fault calm'
    | conflict c =>
      refine .conflict c (fun yes => ?_) calm'
      rcases (served.careful yes).resolve_left plain with known | none_ | gone
      · rw [expects yes known,alive] at stopped
        unfold Remote.precondition at stopped
        split at stopped <;> simp_all
      · rw [none_] at stopped
        cases stopped
      · rw [gone] at alive
        cases alive
  | failed e =>
    have lost := served.lost.trans (lost_stays (α := Option Nat) (.other e) world)
    exact .other e (calm_stayed world served.past lost calm)
  | lost now e c alive passed =>
    have gone : t.lost = insert key s.lost := by
      refine served.lost.trans (if_neg ?_)
      rw [world]
      exact Nat.succ_ne_self _
    refine .other e (calm_write world served.past ?_ opens (.inr (.inr ?_)) calm)
    · rw [gone]
      exact Finset.subset_insert _ _
    · rw [gone]
      exact Finset.mem_insert_self _ _

end

end VerifiableGit.Bridge
