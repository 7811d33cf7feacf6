import VerifiableGit.Service.Filed

-- A finished job stays finished, and has one result.
namespace VerifiableGit.Service
open Text Library Library.Interaction

def World.FinishedWith (w : World) (id : Bytes) (result : ResultPayload) : Prop :=
  ∃ record, w.jobs.lookup id = some record ∧ record.state = .finished ∧ record.result = some result

-- A job that is put to wait or started is not finished by then.
def unfinished (c : State) : Act Handler Query Query.Answer → Bool
  | .asked _ (.waitJob id _) _ | .asked _ (.startJob id) _ => (c.1.jobs.lookup id).all (·.state ≠ .finished)
  | _ => true

def prunes (id : Bytes) : Act Handler Query Query.Answer → Bool
  | .asked _ (.deleteJob other) _ => other = id
  | _ => false

section
variable {cfg : Cfg} {c d : State} {act : Act Handler Query Query.Answer} {id : Bytes} {p : ResultPayload}

theorem finished_one {w : World} {p p' : ResultPayload} (one : w.FinishedWith id p) (other : w.FinishedWith id p') :
    p = p' := by
  obtain ⟨record,found,_,has⟩ := one
  obtain ⟨record',found',_,has'⟩ := other
  cases found.symm.trans found'
  exact Option.some.inj (has.symm.trans has')

theorem finished_step (ruled : (rules cfg).Ruled c.2) (step : (bridge cfg).Step c act d) (fits : unfinished c act)
    (stays : prunes id act = false) (has : c.1.FinishedWith id p) : d.1.FinishedWith id p := by
  obtain ⟨record,found,finished,result⟩ := has
  rcases step_asks ruled step with ⟨i,q,r,outside,asked,served,backed⟩ | ⟨_,stores⟩
  · subst asked
    have change := job_change served id
    rw [found] at change
    generalize after : d.1.jobs.lookup id = new at change
    cases change with
    | same => exact ⟨record,after,finished,result⟩
    | waits next => simp [unfinished,found,finished] at fits
    | starts => simp [unfinished,found,finished] at fits
    | finishes record open_ result' at_ => exact absurd finished open_
    | pruned => simp [prunes] at stays
  · exact ⟨record,by rw [stores.jobs,found],finished,result⟩

-- Whatever tells a result of the job tells the one it finished with.
def Tells (id : Bytes) (w : World) : (q : Query) → q.Answer → Prop
  | .getJob job,r => ∀ record p, job = id → r = some record → record.state = .finished → record.result = some p →
      w.FinishedWith id p
  | .getEntry key,e => ∀ entry p, key = .result id → e = some entry → entry.content = .result p → w.FinishedWith id p
  | _,_ => True

structure OneResult (id : Bytes) (c : State) : Prop where
  entry : ∀ e p, c.1.outbox.lookup (.result id) = some e → e.content = .result p → c.1.FinishedWith id p
  sent : ∀ p, .result p ∈ c.1.sent → p.jobId = id → c.1.FinishedWith id p
  heard : Noted (Tells id) c

theorem tells_told {outside : (q : Query) → q.Answer} {q : Query} {r : q.Answer} {w t : World}
    (served : answer outside q w = some (r,t))
    (entry : ∀ e p, w.outbox.lookup (.result id) = some e → e.content = .result p → w.FinishedWith id p) :
    Tells id w q r := by
  cases q with
  | getJob job =>
    cases served
    intro record p same found finished has
    subst same
    exact ⟨record,found,finished,has⟩
  | getEntry key =>
    cases served
    intro e p same found content
    subst same
    exact entry e p found content
  | _ => trivial

theorem finishJob_served {outside : (q : Query) → q.Answer} {result : ResultPayload} {at_ : Int} {r : Bool} {w t : World}
    (served : answer outside (.finishJob id result at_) w = some (r,t)) :
    t.outbox = w.outbox ∨ t.FinishedWith id result := by
  cases served
  unfold World.finishJob
  split
  · exact .inl rfl
  · split
    · exact .inl rfl
    · exact .inr ⟨_,by rw [lookup_insert',if_pos rfl],rfl,rfl⟩

theorem oneResult_step (ruled : (rules cfg).Ruled c.2) (filed : Filed c) (step : (bridge cfg).Step c act d)
    (fits : unfinished c act) (stays : prunes id act = false) (one : OneResult id c) : OneResult id d := by
  have kept : ∀ p, c.1.FinishedWith id p → d.1.FinishedWith id p := fun p has => finished_step ruled step fits stays has
  have same : ∀ q r, Tells id c.1 q r → Tells id d.1 q r := by
    intro q r tells
    cases q with
    | getJob job => exact fun record p own found finished has => kept p (tells record p own found finished has)
    | getEntry key => exact fun e p own found content => kept p (tells e p own found content)
    | _ => trivial
  rcases step_asks ruled step with ⟨i,q,r,outside,asked,served,backed⟩ | ⟨silent,stores⟩
  · refine ⟨fun e p found content => ?_,fun p inside own => ?_,noted_step step same (fun j q' r' again => ?_) one.heard⟩
    · have there := found
      have change := entry_change served (.result id)
      generalize before : c.1.outbox.lookup (.result id) = old at change
      generalize d.1.outbox.lookup (.result id) = new at change found
      cases change with
      | same => exact kept p (one.entry e p (before.trans found) content)
      | put entry =>
        obtain ⟨_,event,other,_⟩ := backed
        cases found
        cases content.symm.trans other
      | new entry =>
        obtain ⟨job,record,result,own,read,finished,has,same⟩ := backed
        cases found
        cases own
        cases content.symm.trans same
        exact kept p (one.heard i _ _ read record p rfl rfl finished has)
      | notes docId at_ =>
        obtain ⟨old,was,rfl⟩ := Option.map_eq_some_iff.mp found
        exact kept p (one.entry old p (before.trans was) content)
      | refreshed payload => cases backed.1
      | deleted => cases found
      | finishes result at_ job own =>
        cases own
        rcases finishJob_served served with same | finished
        · rw [same] at there
          exact kept p (one.entry e p there content)
        · cases found
          cases content
          exact finished
    · rcases sent_change served with none | ⟨content,sends,more⟩
      · rw [none] at inside
        exact kept p (one.sent p inside own)
      · rw [more] at inside
        rcases List.mem_append.mp inside with before | now
        · exact kept p (one.sent p before own)
        · cases List.mem_singleton.mp now
          subst sends
          obtain ⟨⟨key,e,read,content⟩,_⟩ := backed
          have fits := filed.heard i (.getEntry key) _ read e rfl
          rw [content] at fits
          cases key with
          | result job =>
            have mine : p.jobId = job := fits
            exact kept p (one.heard i (.getEntry _) _ read e p (by rw [← mine,own]) rfl content)
          | event _ => cases fits
          | roleMap _ => cases fits
    · rw [asked] at again
      cases again
      exact same q r (tells_told served one.entry)
  · refine ⟨?_,?_,noted_step step same (fun i q r asked => absurd asked (silent i q r)) one.heard⟩
    · intro e p found content
      exact kept p (one.entry e p (by rwa [stores.outbox] at found) content)
    · intro p inside own
      exact kept p (one.sent p (by rwa [stores.sent] at inside) own)

theorem oneResult_fresh : OneResult id fresh :=
  ⟨fun _ _ found => (nomatch found),fun _ inside => (nomatch inside),fun _ _ _ heard => (nomatch heard)⟩

end

-- Finished is terminal up to the pruning, and what is sent for the job is its
-- result.
theorem finished_terminal (cfg : Cfg) (id : Bytes) (result : ResultPayload) (c d : State)
    (run : (bridge cfg).Run (fun c act => unfinished c act) fresh c) (has : c.1.FinishedWith id result)
    (later : (bridge cfg).Run (fun c act => unfinished c act && !prunes id act) c d) :
    d.1.FinishedWith id result ∧
      ((bridge cfg).Run (fun c act => unfinished c act && !prunes id act) fresh c →
        ∀ p, .result p ∈ d.1.sent → p.jobId = id → p = result) := by
  have ruled := (run_keeps (rules cfg) (I := fun _ => True) (fun _ _ _ _ _ _ _ => trivial) run
    (ruled_fresh cfg) trivial).1
  have finished := (run_keeps (rules cfg) (I := fun c => c.1.FinishedWith id result)
    (fun c act d ruled fits step has => by
      obtain ⟨fine,stays⟩ := Bool.and_eq_true_iff.mp fits
      exact finished_step ruled step fine (by simpa using stays) has) later ruled has).2
  refine ⟨finished,fun never p sent own => ?_⟩
  have one := (run_filed (I := OneResult id) (fun c act d ruled filed fits step one => by
    obtain ⟨fine,stays⟩ := Bool.and_eq_true_iff.mp fits
    exact oneResult_step ruled filed step fine (by simpa using stays) one) (never.trans later) (ruled_fresh cfg)
    filed_fresh oneResult_fresh).2.2
  exact finished_one (one.sent p sent own) finished

namespace Sample

def finishedJob (id : Bytes) (c : State) : Bool := (c.1.jobs.lookup id).any (fun r => r.state = .finished && r.result.isSome)

theorem finishedJob_with {id : Bytes} {c : State} (finished : finishedJob id c = true) :
    ∃ result, c.1.FinishedWith id result := by
  obtain ⟨record,found,both⟩ := (Option.any_eq_true _ _).mp finished
  obtain ⟨state,result⟩ := Bool.and_eq_true_iff.mp both
  obtain ⟨p,has⟩ := Option.isSome_iff_exists.mp result
  exact ⟨p,record,found,by simpa using state,has⟩

-- A job that failed, and whose delivery is repeated.
theorem finished_terminal_again : ∃ (result : ResultPayload) (c d : State), c.1.FinishedWith j1 result ∧ d.1.FinishedWith j1 result ∧
    d.1.sent.length = 2 ∧ ∀ p, .result p ∈ d.1.sent → p.jobId = j1 → p = result := by
  obtain ⟨c,d,run,later,before,after⟩ := played_on (bridge_plays {}) (fun c act => unfinished c act && !prunes j1 act)
    (fun c act => unfinished c act && !prunes j1 act) fresh
    (whole 0 .restore (calm [9]) ++ whole 0 (.job (bindJob j1 n1 acme)) (refusing [1]))
    (whole 0 (.job (bindJob j1 n1 acme)) (calm [2])) (finishedJob j1) (fun d => d.1.sent.length) (true,2) (by decide)
  obtain ⟨result,has⟩ := finishedJob_with before
  have fine := run_weaken (fun _ _ both => (Bool.and_eq_true_iff.mp both).1) run
  obtain ⟨finished,sent⟩ := finished_terminal {} j1 result c d fine has later
  exact ⟨result,c,d,has,finished,after,sent run⟩

-- The poll of a device flow finishes the job before its handler records that it
-- waits.
def polled : List (Move Handler ((q : Query) → q.Answer)) :=
  whole 0 .restore (calm [9]) ++ whole 0 (.job (bindJob j1 n1 acme)) (calm [1]) ++
  whole 0 (.bindCallback (ascii "h") none [1]) (calm [2]) ++
  [.enter 0 (.job (linkJob j2 n1 (ascii "m"))),.finish 0 17 (calm [3])] ++ whole 1 (.pollDevice [3]) (calm [4])

theorem poll_overtaken : ¬ ∀ (cfg : Cfg) (id : Bytes) (result : ResultPayload) (c d : State),
    (bridge cfg).Run (fun _ _ => True) fresh c → c.1.FinishedWith id result →
    (bridge cfg).Run (fun _ act => !prunes id act) c d → d.1.FinishedWith id result := by
  intro claim
  obtain ⟨c,d,run,later,before,after⟩ := played_on (bridge_plays {}) (fun _ _ => true) (fun _ act => !prunes j2 act) fresh
    polled [.finish 0 50 (calm [3])] (finishedJob j2) (finishedJob j2) (true,false) (by decide)
  obtain ⟨result,has⟩ := finishedJob_with before
  obtain ⟨record,found,finished,same⟩ := claim {} j2 result c d (run_weaken (fun _ _ _ => trivial) run) has later
  simp [finishedJob,found,finished,same] at after

end Sample

end VerifiableGit.Service
