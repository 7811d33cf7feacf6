import VerifiableGit.Bridge.Pull
import VerifiableGit.Bridge.Updates

-- A host that stops at any point and starts again on the same store: what its
-- unsynced changes come to.
namespace VerifiableGit.Bridge
open VerifiableGit.Text VerifiableGit.Library.Interaction Mirror

-- A new mirror that has pulled: `host` is what the pull left.
def Watched.restarted (s : Watched) (host : Host) : Watched where
  world := ⟨s.remote,host,[]⟩
  fresh := fun d => if d.isMirrored then some {localValue host d} else none
  again := host.dirty
  taken := []
  last := s.last

-- Nothing anywhere, and nothing written yet.
def Watched.first : Watched where
  world := ⟨Remote.empty,Host.empty,[]⟩
  fresh := fun d => if d.isMirrored then some {none} else none
  again := ∅
  taken := []
  last := fun _ => none

section
variable (seal_ : MasterKey) (size : Value → Nat)

def restart (allowed : Watched → Prop) (s : Watched) (there : Watched × Code (Except Fault Unit)) :
    Prop :=
  allowed s ∧ ∃ host, pull seal_ s.remote.list s.host.reopened = .ok host ∧
    there = (s.restarted host,.done (.ok ()))

def Lives (allowed : Watched → Prop) :
    Watched × Code (Except Fault Unit) → Watched × Code (Except Fault Unit) → Prop :=
  Relation.ReflTransGen ((watching seal_ size).Session (nextPass seal_ size) (restart seal_ allowed))

-- What a pull would take for an older copy: the remote has a record of it, live
-- or deleted, and the local value is another.
def Stale (s : Watched) (table : Table) (key : Bytes) : Prop :=
  recordIsMirrored table key ∧ (s.remote.entries.lookup (stateKey table key)).isSome ∧
    localValue s.host (.record table key) ≠ remoteValue seal_ s.remote (.record table key)

def NoneStale (s : Watched) : Prop := ∀ table key, ¬ Stale seal_ s table key

structure Exact (s : Watched) : Prop where
  unreaped : s.remote.reaped = false
  fresh : ∀ d, d.isMirrored → d ∉ s.world.owed → s.fresh d = some {localValue s.host d}
  last : ∀ table key, recordIsMirrored table key →
    localValue s.host (.record table key) = s.last (.record table key)

end

section
variable {seal_ : MasterKey} {size : Value → Nat} {s t : Watched} {p : Code (Except Fault Unit)}

theorem serves_held (q : Request) (r : q.Answer) (served : s.Serves q r t) (d : Dirty) :
    localValue t.host d = localValue s.host d := by
  have host {after : Host} (same : t.host = after) (records : after.records = s.host.records)
      (secrets : after.secrets = s.host.secrets) : localValue t.host d = localValue s.host d := by
    rw [same]
    exact localValue_same records secrets d
  by_cases quiet : q.Quiet
  · exact (quiet_alike plainKey q r quiet served).held d
  · cases q with
    | host query =>
      cases query with
      | takeBatch => exact host served.world.1.2.2 rfl rfl
      | putBack item => exact host served.world.1 rfl rfl
      | landed => exact host served.world.1 rfl rfl
      | _ => exact absurd trivial quiet
    | put key value expected =>
      have same : t.host = s.host := by
        generalize after : t.world = world
        have served' := World.put_served (after ▸ served.world)
        simp only [Watched.host,after]
        cases served' <;> rfl
      rw [same]
    | delete key expected =>
      have same : t.host = s.host := by
        generalize after : t.world = world
        have served' := World.delete_served (after ▸ served.world)
        simp only [Watched.host,after]
        cases served' <;> rfl
      rw [same]
    | _ => exact absurd trivial quiet

theorem serves_frame (q : Request) (r : q.Answer) (served : s.Serves q r t) :
    t.world.owed = s.world.owed ∧ t.remote.reaped = s.remote.reaped := by
  cases q with
  | put key value expected =>
    generalize after : t.world = world
    have served' := World.put_served (after ▸ served.world)
    simp only [Watched.remote,after]
    cases served' <;> exact ⟨rfl,rfl⟩
  | delete key expected =>
    generalize after : t.world = world
    have served' := World.delete_served (after ▸ served.world)
    simp only [Watched.remote,after]
    cases served' <;> exact ⟨rfl,rfl⟩
  | host query => exact ⟨served.world.2.2,congrArg Remote.reaped served.world.2.1⟩
  | get key => exact ⟨congrArg World.owed served.world.1,congrArg (fun w => w.remote.reaped) served.world.1⟩
  | timestamp => exact ⟨congrArg World.owed served.world,congrArg (fun w => w.remote.reaped) served.world⟩
  | instant => exact ⟨congrArg World.owed served.world,congrArg (fun w => w.remote.reaped) served.world⟩
  | sleep millis => exact ⟨congrArg World.owed served.world,congrArg (fun w => w.remote.reaped) served.world⟩
  | nonce => exact ⟨congrArg World.owed served.world,congrArg (fun w => w.remote.reaped) served.world⟩

theorem exact_served (q : Request) (r : q.Answer) (served : s.Serves q r t) (exact_ : Exact s) :
    Exact t := by
  obtain ⟨owed,reaped⟩ := serves_frame q r served
  refine ⟨reaped.trans exact_.unreaped,?_,?_⟩
  · intro d mirrored calm
    rw [owed] at calm
    rw [served.fresh,serves_held q r served]
    exact exact_.fresh d mirrored calm
  · intro table key mirrored
    rw [served.last,serves_held q r served]
    exact exact_.last table key mirrored

theorem commit_elsewhere (op : StoreOp) (d : Dirty) :
    localValue (s.host.commit op).1 d = localValue s.host d ∨ d = op.place := by
  cases op with
  | put table key value => exact Host.localValue_put table key value d
  | putNew table key value =>
    simp only [Host.commit]
    split
    · exact .inl rfl
    · exact Host.localValue_put table key value d
  | update table key f =>
    simp only [Host.commit]
    split
    · exact Host.localValue_put table key _ d
    · exact (Host.localValue_delete table key d).imp_right And.left
  | delete table key => exact (Host.localValue_delete table key d).imp_right And.left
  | putSecret name value =>
    cases d with
    | record table key => exact .inl rfl
    | secret other =>
      by_cases same : other = name
      · exact .inr (congrArg Dirty.secret same)
      · refine .inl ?_
        simp only [Host.commit,localValue,AList.lookup_insert_ne same]
  | deleteSecret name =>
    cases d with
    | record table key => exact .inl rfl
    | secret other =>
      by_cases same : other = name
      · exact .inr (congrArg Dirty.secret same)
      · refine .inl ?_
        simp only [Host.commit,localValue,AList.lookup_erase_ne same]

theorem exact_local (act : Watched.Local s t) (exact_ : Exact s) : Exact t := by
  cases act with
  | commit op =>
    refine ⟨exact_.unreaped,?_,?_⟩
    · intro d mirrored calm
      have calm : d ∉ (s.host.commit op).2.toList ++ s.world.owed := calm
      simp only [List.mem_append,Option.mem_toList,not_or] at calm
      have same := (Host.commit_owes s.host op mirrored).resolve_right calm.1
      have before := exact_.fresh d mirrored calm.2
      show Option.map (insert (localValue (s.host.commit op).1 d)) (s.fresh d) =
        some {localValue (s.host.commit op).1 d}
      rw [before,same]
      simp
    · intro table key mirrored
      show localValue (s.host.commit op).1 (.record table key) =
        Function.update s.last op.place (localValue (s.host.commit op).1 op.place) (.record table key)
      by_cases here : Dirty.record table key = op.place
      · rw [← here,Function.update_self]
      · rw [Function.update_of_ne here,← exact_.last table key mirrored]
        exact (commit_elsewhere op _).resolve_right here
  | mark e owes =>
    refine ⟨exact_.unreaped,?_,exact_.last⟩
    intro d mirrored calm
    by_cases same : d = e
    · subst same
      exact Function.update_self _ _ _
    · have calm : d ∉ s.world.owed.erase e := calm
      rw [List.mem_erase_of_ne same] at calm
      exact (Function.update_of_ne same _ _).trans (exact_.fresh d mirrored calm)

-- What a pull that took the host's own remote leaves.
theorem restarted_between (exact_ : Exact s) (done : pull seal_ s.remote.list s.host.reopened = .ok host) :
    Between seal_ size [] True (s.restarted host) := by
  have feed : s.remote.list.mode = .feed := by simp only [Remote.list,exact_.unreaped]; rfl
  have takes := (pull_exact feed).mp ⟨host,done⟩
  have same : host = pulledFrom seal_ s.remote s.host.reopened := by
    rw [pull_takes takes] at done
    exact (Except.ok.inj done).symm
  subst same
  refine ⟨⟨?_,?_,?_,Finset.Subset.refl _⟩,rfl,fun _ => Finset.Subset.refl _⟩
  · exact (pulled_same takes).2.2.2.1
  · intro d
    refine .inr fun values found _ => ?_
    simp only [Watched.restarted] at found
    split at found
    · rename_i mirrored
      cases found
      cases d with
      | secret name => exact .inr (pulled_secret takes name mirrored rfl).symm
      | record table key =>
        cases here : s.remote.entries.lookup (stateKey table key) with
        | some e => exact .inr (pulled_record takes table key mirrored here).symm
        | none =>
          have gone : remoteValue seal_ s.remote (.record table key) = none := by
            simp only [remoteValue,Dirty.remoteKey,here,Option.bind_none]
          have value := pulled_absent takes (.record table key) here
          cases held : s.host.getRaw table key with
          | some v =>
            refine .inl ((pulled_dirty takes _).mpr (.inr ⟨table,key,rfl,mirrored,here,?_⟩))
            exact Option.isSome_iff_exists.mpr ⟨v,held⟩
          | none =>
            refine .inr (gone.trans ?_)
            rw [value]
            exact (congrArg (Option.map Content.json) held).symm
    · cases found
  · intro d values found
    simp only [Watched.restarted] at found
    split at found
    · cases found
      exact Set.mem_singleton _
    · cases found

theorem restarted_exact (exact_ : Exact s) (calm : NoneStale seal_ s)
    (done : pull seal_ s.remote.list s.host.reopened = .ok host) : Exact (s.restarted host) := by
  have feed : s.remote.list.mode = .feed := by simp only [Remote.list,exact_.unreaped]; rfl
  have takes := (pull_exact feed).mp ⟨host,done⟩
  have same : host = pulledFrom seal_ s.remote s.host.reopened := by
    rw [pull_takes takes] at done
    exact (Except.ok.inj done).symm
  subst same
  refine ⟨exact_.unreaped,?_,?_⟩
  · intro d mirrored _
    simp only [Watched.restarted,mirrored,if_true]
  · intro table key mirrored
    show _ = s.last (.record table key)
    rw [← exact_.last table key mirrored]
    cases here : s.remote.entries.lookup (stateKey table key) with
    | none => exact pulled_absent takes (.record table key) here
    | some e =>
      refine (pulled_record takes table key mirrored here).trans ?_
      refine Classical.byContradiction fun other => calm table key ⟨mirrored,?_,Ne.symm other⟩
      rw [here]
      rfl

theorem lives_kept (run : Lives seal_ size (NoneStale seal_) (.first,.done (.ok ())) (s,p)) :
    Exact s ∧ (watching seal_ size).Holds (Passed seal_ size) p s := by
  refine session_run (K := Exact) ?_ ?_ ?_ run ?_ ?_
  · rintro a s there _ passed ⟨holder,fuel,rfl⟩
    exact syncPass_passed holder fuel (between_weaken False.elim passed)
  · rintro s there exact_ _ ⟨_,host,done,rfl⟩
    exact passed_done (between_weaken (fun _ => trivial) (restarted_between exact_ done))
  · intro here there step exact_
    cases step with
    | step step =>
      cases step with
      | own answered => exact exact_served _ _ answered.1 exact_
      | other act => exact exact_local act exact_
    | again next =>
      obtain ⟨holder,fuel,rfl⟩ := next
      exact exact_
    | crash down =>
      obtain ⟨calm,host,done,rfl⟩ := down
      exact restarted_exact exact_ calm done
  · exact ⟨rfl,fun d mirrored _ => (if_pos mirrored).trans (by cases d <;> rfl),fun _ _ _ => rfl⟩
  · refine passed_done ⟨⟨rfl,?_,?_,Finset.Subset.refl _⟩,rfl,fun _ => Finset.Subset.refl _⟩
    · refine fun d => .inr fun values found _ => .inr ?_
      simp only [Watched.first] at found
      split at found
      · cases found
        exact Set.mem_singleton _
      · cases found
    · intro d values found
      simp only [Watched.first] at found
      split at found
      · cases found
        cases d <;> exact Set.mem_singleton _
      · cases found

-- Whatever the run, as long as no restart meets a stale record: the store holds
-- the last local write, and so does the remote unless the key is pending still. A
-- pass that worked leaves nothing pending but what was marked during it.
theorem unsynced_changes_survive
    (run : Lives seal_ size (NoneStale seal_) (.first,.done (.ok ())) (s,p))
    (table : Table) (key : Bytes) (mirrored : recordIsMirrored table key)
    (fits : ∀ c, s.last (.record table key) = some c → Dirty.Fits seal_ size (.record table key) c) :
    localValue s.host (.record table key) = s.last (.record table key) ∧
    (Dirty.record table key ∉ s.world.owed → Dirty.record table key ∉ s.host.dirty →
      Dirty.record table key ∉ s.taken →
      remoteValue seal_ s.remote (.record table key) = s.last (.record table key)) ∧
    (p = .done (.ok ()) → Dirty.record table key ∉ s.world.owed → Dirty.record table key ∉ s.again →
      remoteValue seal_ s.remote (.record table key) = s.last (.record table key)) := by
  obtain ⟨exact_,holds⟩ := lives_kept run
  have held := exact_.last table key mirrored
  have synced (calm : Dirty.record table key ∉ s.world.owed)
      (clean : Dirty.record table key ∉ s.host.dirty) (landed : Dirty.record table key ∉ s.taken) :
      remoteValue seal_ s.remote (.record table key) = s.last (.record table key) := by
    have fresh := exact_.fresh (.record table key) mirrored calm
    have kept := ((holds_always p holds).kept (.record table key)).resolve_left landed
    have fit : AllFit seal_ size (.record table key) {localValue s.host (.record table key)} :=
      fun c inside => fits c (held ▸ inside.symm)
    exact (((kept _ fresh fit).resolve_left clean).trans held)
  refine ⟨held,synced,?_⟩
  intro finished calm unmarked
  subst finished
  obtain ⟨_,taken,still⟩ := holds_value holds
  refine synced calm (fun inside => unmarked (still rfl inside)) ?_
  rw [taken]
  exact List.not_mem_nil

theorem lives_pass {allowed : Watched → Prop} {script : World.Script} {res last : Except Fault Unit}
    {start : Watched} (holder : Bytes) (fuel : Nat)
    (ran : (syncPass seal_ size holder fuel).run (fun q s => s.answer script q) start = some (res,s)) :
    Lives seal_ size allowed (start,.done last) (s,.done res) := by
  refine .head (.again ⟨holder,fuel,rfl⟩) ?_
  exact session_steps
    (run_steps (fun q s r t answered => answer_watched _ _ q r answered) _ ran)

theorem lives_marked {allowed : Watched → Prop} {start : Watched} (op : StoreOp) (d : Dirty)
    (owes : d ∈ (start.commits op).world.owed) :
    Lives seal_ size allowed (start,p) ((start.commits op).marks d,p) :=
  .tail (.single (.step (.other (.commit start op)))) (.step (.other (.mark _ d owes)))

theorem lives_restart {allowed : Watched → Prop} {host : Host} {start : Watched} (yes : allowed start)
    (done : pull seal_ start.remote.list start.host.reopened = .ok host) :
    Lives seal_ size allowed (start,p) (start.restarted host,.done (.ok ())) :=
  .single (.crash ⟨yes,host,done,rfl⟩)

end

namespace Sample

def rotated : StoreOp := .put .meta_ (ascii "rotation") (.object [(ascii "at",.int 7)])
def rotatedAgain : StoreOp := .put .meta_ (ascii "rotation") (.object [(ascii "at",.int 8)])

def synced (s : Watched) : Option (Except Fault Unit × Watched) :=
  (syncPass plainKey jsonLength (ascii "mirror-1") 1).run (fun q s => s.answer script q) s

def restarts (s : Watched) : Option Watched :=
  match pull plainKey s.remote.list s.host.reopened with
  | .ok host => some (s.restarted host)
  | .error _ => none

theorem restarts_pulled {s t : Watched} (found : restarts s = some t) :
    ∃ host, pull plainKey s.remote.list s.host.reopened = .ok host ∧ t = s.restarted host := by
  unfold restarts at found
  split at found
  · rename_i host done
    cases found
    exact ⟨host,done,rfl⟩
  · cases found

-- Written before the remote was ever reached: a restart marks it.
def early : Watched := (Watched.first.commits rotated).marks place

def survived : Option (Except Fault Unit × Watched) := (restarts early).bind synced

theorem unsynced_changes_survive_sample : ∃ s, survived = some (.ok (),s) ∧
    remoteValue plainKey s.remote place = s.last place ∧ s.last place = some (.json value) := by
  have facts : survived.map (fun done => (done.1,done.2.last place,done.2.world.owed,done.2.again)) =
      some (.ok (),some (.json value),[],∅) := by decide
  obtain ⟨⟨res,s⟩,ran,same⟩ := Option.map_eq_some_iff.mp facts
  obtain ⟨rfl,last,owed,again⟩ : res = .ok () ∧ s.last place = some (.json value) ∧
      s.world.owed = [] ∧ s.again = ∅ := by simpa using same
  obtain ⟨t,restarted,second⟩ := Option.bind_eq_some_iff.mp ran
  obtain ⟨host,done,rfl⟩ := restarts_pulled restarted
  have calm : NoneStale plainKey early := by
    rintro table key ⟨_,here,_⟩
    exact nomatch here
  have run : Lives plainKey jsonLength (NoneStale plainKey) (.first,.done (.ok ())) (s,.done (.ok ())) :=
    (lives_marked rotated place (by decide)).trans
      ((lives_restart calm done).trans (lives_pass _ _ second))
  have kept := (unsynced_changes_survive run .meta_ (ascii "rotation") (by decide) ?_).2.2 rfl
    (by rw [owed]; exact List.not_mem_nil) (by rw [again]; exact Finset.notMem_empty _)
  · exact ⟨s,ran,kept,last⟩
  · intro c held
    have same : c = .json value := Option.some.inj (held.symm.trans last)
    subst same
    exact (by decide : jsonLength value ≤ maxValueBytes)

-- Changed again after a pass, while the remote is away: the restart takes the
-- remote's older copy for the record, and marks nothing.
def overwritten : Option (Except Fault Unit × Watched) :=
  (synced early).bind fun first =>
    (restarts ((first.2.commits rotatedAgain).marks place)).bind synced

theorem unsynced_change_overwritten : ¬ ∀ (seal_ : MasterKey) (size : Value → Nat) (s : Watched),
    Lives seal_ size (fun _ => True) (.first,.done (.ok ())) (s,.done (.ok ())) →
    s.world.owed = [] → s.again = ∅ → ∀ table key, recordIsMirrored table key →
      (∀ c, s.last (.record table key) = some c → Dirty.Fits seal_ size (.record table key) c) →
      localValue s.host (.record table key) = s.last (.record table key) ∧
        remoteValue seal_ s.remote (.record table key) = s.last (.record table key) := by
  intro claim
  have finished : overwritten.map (fun done => (done.1,done.2.world.owed,done.2.again)) =
      some (.ok (),[],∅) := by decide
  have values : overwritten.map (fun done => (localValue done.2.host place,done.2.last place)) =
      some (some (.json value),some (.json (.object [(ascii "at",.int 8)]))) := by decide
  obtain ⟨⟨res,s⟩,ran,same⟩ := Option.map_eq_some_iff.mp finished
  obtain ⟨rfl,owed,again⟩ : res = .ok () ∧ s.world.owed = [] ∧ s.again = ∅ := by simpa using same
  rw [ran] at values
  obtain ⟨held,last⟩ : localValue s.host place = some (.json value) ∧
      s.last place = some (.json (.object [(ascii "at",.int 8)])) := by simpa using values
  obtain ⟨⟨_,t⟩,first,rest⟩ := Option.bind_eq_some_iff.mp ran
  obtain ⟨u,restarted,second⟩ := Option.bind_eq_some_iff.mp rest
  obtain ⟨host,done,rfl⟩ := restarts_pulled restarted
  have run : Lives plainKey jsonLength (fun _ => True) (.first,.done (.ok ())) (s,.done (.ok ())) := by
    refine (lives_marked rotated place (by decide)).trans ((lives_pass _ _ first).trans ?_)
    refine (lives_marked rotatedAgain place ?_).trans ((lives_restart trivial done).trans (lives_pass _ _ second))
    exact List.mem_cons_self
  have kept := (claim plainKey jsonLength s run owed again .meta_ (ascii "rotation") (by decide) ?_).1
  · have two : some (Content.json value) = some (.json (.object [(ascii "at",.int 8)])) :=
      held.symm.trans (kept.trans last)
    exact absurd two (by decide)
  · intro c held
    have same : c = .json (.object [(ascii "at",.int 8)]) := Option.some.inj (held.symm.trans last)
    subst same
    exact (by decide : jsonLength (.object [(ascii "at",.int 8)]) ≤ maxValueBytes)

end Sample

end VerifiableGit.Bridge
