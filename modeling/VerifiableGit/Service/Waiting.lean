import VerifiableGit.Service.Filed

-- A job that waits is named by a flow that somebody can still complete or let
-- expire.
namespace VerifiableGit.Service
open Text Library Library.Interaction

def World.waits (w : World) (id : Bytes) : Bool := (w.jobs.lookup id).any (·.state = .waiting)

-- A pending flow names it.
def World.awaits (w : World) (id : Bytes) : Bool := w.pending.rows.any (·.2.jobId = some id)

-- The jobs whose flow task `i` has consumed and that it is yet to finish.
def held (cfg : Cfg) (c : State) (i : Nat) : List Bytes := holding cfg (c.2 i).handler (c.2 i).seen

def noneWaits (cfg : Cfg) (c : State) (i : Nat) : Bool := (held cfg c i).all (!c.1.waits ·)

-- A callback that consumes a flow and gives up on it (another route or kind, too
-- late, an adapter not in service, an event that does not fit) finds its job not
-- waiting.
def carefulAsk (cfg : Cfg) (c : State) (i : Nat) : (q : Query) → q.Answer → Bool
  | .takeFlow state,_ => (c.1.pending.lookup state).all fun f => suits cfg (c.2 i).handler f || f.jobId.all (!c.1.waits ·)
  | .past _,late => !late || noneWaits cfg c i
  | .adapter _,served | .linkAdapter _ _,served | .restoreAdapter _,served => served || noneWaits cfg c i
  | .checkEvent _ event,fits => fits || event.isRoleMap || noneWaits cfg c i
  | _,_ => true

-- What begins to wait is named by a flow, or its flow is being completed; and
-- neither a crash nor a browser that hangs up on its callback comes between the
-- flow's end and the job's.
def Careful (cfg : Cfg) (c : State) : Act Handler Query Query.Answer → Prop
  | .asked i q r => carefulAsk cfg c i q r ∧
      ∀ id next, q = .waitJob id next → c.1.jobs.lookup id = none ∨ c.1.awaits id ∨ ∃ j, id ∈ held cfg c j
  | .entered _ _ => True
  | .abandoned i => noneWaits cfg c i
  | .crashed => ∀ i, noneWaits cfg c i

def Awaited (cfg : Cfg) (c : State) : Prop := ∀ id, c.1.waits id → c.1.awaits id ∨ ∃ i, id ∈ held cfg c i

section
variable {cfg : Cfg} {c d : State} {act : Act Handler Query Query.Answer} {id : Bytes}
variable {outside : (q : Query) → q.Answer} {q : Query} {r : q.Answer} {w t : World}

theorem awaits_iff (w : World) (id : Bytes) :
    w.awaits id ↔ ∃ state f, w.pending.lookup state = some f ∧ f.jobId = some id := by
  simp only [World.awaits,List.any_eq_true,decide_eq_true_eq]
  constructor
  · intro ⟨row,inside,names⟩
    exact ⟨row.1,row.2,(Table.mem_rows _ _ _).mp inside,names⟩
  · intro ⟨state,f,found,names⟩
    exact ⟨(state,f),(Table.mem_rows _ _ _).mpr found,names⟩

-- What waits after a question waited before, but for the one that says so.
theorem waits_before {h : Handler} {seen : Seen} (backed : Backed h seen q) (served : answer outside q w = some (r,t))
    (waits : t.waits id) :
    w.waits id ∨ ∃ next, q = .waitJob id next ∧ w.jobs.lookup id ≠ none := by
  have change := job_change served id
  unfold World.waits at waits ⊢
  generalize before : w.jobs.lookup id = old at change ⊢
  generalize t.jobs.lookup id = new at change waits
  cases change with
  | same => exact .inl waits
  | new record => simp [backed.1] at waits
  | waits next =>
    refine .inr ⟨next,rfl,fun none => ?_⟩
    subst none
    cases waits
  | starts =>
    cases old with
    | none => cases waits
    | some record => cases waits
  | finishes record open_ result at_ => cases waits
  | pruned => cases waits

theorem finishJob_waits (w : World) (id : Bytes) (result : ResultPayload) (at_ : Int) :
    (w.finishJob id result at_).2.waits id = false := by
  unfold World.finishJob
  split
  · rename_i absent
    simp [World.waits,absent]
  · rename_i record found
    split
    · rename_i finished
      simp [World.waits,found,finished]
    · simp [World.waits,JobRecord.finish]

theorem noneWaits_held {i : Nat} (none_ : noneWaits cfg c i) (inside : id ∈ held cfg c i) (waits : c.1.waits id) : False := by
  have quiet := List.all_eq_true.mp none_ id inside
  simp [waits] at quiet

-- A task keeps the job it is to finish as long as the job waits.
theorem held_after {i : Nat} (served : answer outside q c.1 = some (r,t)) (careful : carefulAsk cfg c i q r)
    (inside : id ∈ held cfg c i) (before : c.1.waits id) (after : t.waits id) :
    id ∈ holdingNote cfg (c.2 i).handler q r (held cfg c i) := by
  have gives : ∀ taken : Bool, (taken || noneWaits cfg c i) = true →
      id ∈ bif taken then held cfg c i else [] := by
    intro taken careful
    cases taken with
    | true => exact inside
    | false => exact absurd before (fun waits => noneWaits_held careful inside waits)
  cases q with
  | takeFlow state =>
    cases r with
    | none => exact inside
    | some f =>
      simp only [holdingNote]
      split
      · exact List.mem_append_right _ inside
      · exact inside
  | deleteFlow state f => exact List.mem_append_right _ inside
  | finishJob job result at_ =>
    refine List.mem_filter.mpr ⟨inside,?_⟩
    cases served
    simp only [ne_eq,decide_not,Bool.not_eq_eq_eq_not,Bool.not_true,decide_eq_false_iff_not]
    intro same
    subst same
    rw [finishJob_waits] at after
    cases after
  | isWaiting job =>
    cases served
    by_cases same : id = job
    · subst same
      have answered : (c.1.jobs.lookup id).any (·.state = .waiting) = true := before
      simp only [holdingNote,answered]
      exact inside
    · have others : id ∈ (held cfg c i).filter (· ≠ job) := List.mem_filter.mpr ⟨inside,by simpa using same⟩
      simp only [holdingNote]
      cases (c.1.jobs.lookup job).any (·.state = .waiting) with
      | true => exact inside
      | false => exact others
  | past at_ =>
    simp only [carefulAsk] at careful
    cases r with
    | true => exact absurd before (fun waits => noneWaits_held careful inside waits)
    | false => exact inside
  | adapter _ | linkAdapter _ _ | restoreAdapter _ => exact gives r careful
  | checkEvent ns event => exact gives _ careful
  | _ => exact inside

-- A flow that names a waiting job stays, or whoever consumes it holds the job.
theorem awaits_after {i : Nat} {state : Bytes} {f : PendingFlow} (filed : Filed c)
    (backed : Backed (c.2 i).handler (c.2 i).seen q) (served : answer outside q c.1 = some (r,t))
    (careful : carefulAsk cfg c i q r) (found : c.1.pending.lookup state = some f) (names : f.jobId = some id)
    (waits : c.1.waits id) :
    t.pending.lookup state = some f ∨ id ∈ holdingNote cfg (c.2 i).handler q r (held cfg c i) := by
  have change := flow_change served state
  rw [found] at change
  generalize after : t.pending.lookup state = new at change ⊢
  cases change with
  | same => exact .inl rfl
  | put flow => exact absurd (filed.states state f found) (putFlow_served served).1
  | taken =>
    right
    have told : r = some f := by
      cases served
      exact found
    subst told
    simp only [carefulAsk,found,Option.all_some,names,waits,Bool.not_true,Bool.or_false] at careful
    simp only [holdingNote,careful,if_true,names]
    exact List.mem_append_left _ (List.mem_singleton.mpr rfl)
  | deleted flow =>
    right
    have still : Still c.1 state flow := by
      rcases backed with read | ⟨flows,read,inside⟩
      · exact filed.heard i (.getFlow state) _ read flow rfl
      · exact filed.heard i .listFlows _ read (state,flow) inside
    have same := still.2 f found
    subst same
    simp only [holdingNote,names]
    exact List.mem_append_left _ (List.mem_singleton.mpr rfl)

theorem held_asked {i : Nat} {q : Query} {r : q.Answer} (step : (bridge cfg).Step c (.asked i q r) d) :
    held cfg d i = holdingNote cfg (c.2 i).handler q r (held cfg c i) := by
  obtain ⟨seen,own⟩ := seen_asked step
  simp only [held,holding,seen,own,gather_cons]

theorem held_other {i j : Nat} {q : Query} {r : q.Answer} (step : (bridge cfg).Step c (.asked i q r) d) (other : j ≠ i) :
    held cfg d j = held cfg c j := by
  simp only [held,task_other step other]

theorem awaited_step (ruled : (rules cfg).Ruled c.2) (filed : Filed c) (fits : Careful cfg c act)
    (step : (bridge cfg).Step c act d) (awaited : Awaited cfg c) : Awaited cfg d := by
  intro id waits
  rcases step_asks ruled step with ⟨i,q,r,outside,asked,served,backed⟩ | ⟨silent,stores⟩
  · subst asked
    obtain ⟨careful,begins⟩ := fits
    rcases waits_before backed served waits with before | ⟨next,rfl,present⟩
    · rcases awaited id before with named | ⟨j,inside⟩
      · obtain ⟨state,f,found,names⟩ := (awaits_iff _ _).mp named
        rcases awaits_after filed backed served careful found names before with still | holds
        · exact .inl ((awaits_iff _ _).mpr ⟨state,f,still,names⟩)
        · exact .inr ⟨i,held_asked step ▸ holds⟩
      · right
        refine ⟨j,?_⟩
        by_cases same : j = i
        · subst same
          rw [held_asked step]
          exact held_after served careful inside before waits
        · rwa [held_other step same]
    · rcases begins id next rfl with absent | named | ⟨j,inside⟩
      · exact absurd absent present
      · have world := (Prod.mk.inj (Option.some.inj served)).2
        left
        rw [← world]
        exact named
      · right
        refine ⟨j,?_⟩
        by_cases same : j = i
        · subst same
          rw [held_asked step]
          exact inside
        · rwa [held_other step same]
  · have before : c.1.waits id := by simpa only [World.waits,stores.jobs] using waits
    rcases awaited id before with named | ⟨j,inside⟩
    · left
      simpa only [World.awaits,stores.pending] using named
    · cases step with
      | asked i asks served => exact absurd rfl (silent i _ _)
      | entered i idle enters =>
        right
        refine ⟨j,?_⟩
        by_cases same : j = i
        · subst same
          have settled : held cfg (_,_) j = [] := (ruled_idle ruled j idle).holding
          rw [settled] at inside
          cases inside
        · simpa only [held,Function.update_of_ne same] using inside
      | abandoned i waiting =>
        by_cases same : j = i
        · subst same
          exact absurd before (fun waits => noneWaits_held fits inside waits)
        · right
          exact ⟨j,by simpa only [held,Function.update_of_ne same] using inside⟩
      | crashed down => exact absurd before (fun waits => noneWaits_held (fits j) inside waits)

end

-- In every state reached, a job that waits is named by a pending flow, or the
-- handler that consumed it still runs and is to finish the job; with no handler
-- running, by a flow.
theorem waiting_awaited (cfg : Cfg) (c : State) (run : (bridge cfg).Run (Careful cfg) fresh c) (id : Bytes)
    (waits : c.1.waits id) : c.1.awaits id ∨ ∃ i, (∀ u, (c.2 i).prog ≠ .done u) ∧ id ∈ held cfg c i := by
  obtain ⟨ruled,_,awaited⟩ := run_filed (I := Awaited cfg) (fun c act d ruled filed fits step awaited =>
    awaited_step ruled filed fits step awaited) run (ruled_fresh cfg) filed_fresh (fun id waits => nomatch waits)
  rcases awaited id waits with named | ⟨i,inside⟩
  · exact .inl named
  · refine .inr ⟨i,fun u done => ?_,inside⟩
    have settled : held cfg c i = [] := (ruled_idle ruled i done).holding
    rw [settled] at inside
    cases inside

namespace Sample

def bound : List (Move Handler ((q : Query) → q.Answer)) :=
  whole 0 .restore (calm [9]) ++ whole 0 (.job (bindJob j1 n1 acme)) (calm [1])

def begins (c : State) : Act Handler Query Query.Answer → Bool
  | .asked i q r => carefulAsk {} c i q r && match q with
    | .waitJob id _ => c.1.awaits id
    | _ => true
  | .entered _ _ => true
  | .abandoned _ | .crashed => false

theorem begins_careful (c : State) (act : Act Handler Query Query.Answer) (fits : begins c act) : Careful {} c act := by
  cases act with
  | asked i q r =>
    obtain ⟨careful,named⟩ := Bool.and_eq_true_iff.mp fits
    refine ⟨careful,fun id next same => ?_⟩
    subst same
    exact .inr (.inl named)
  | entered i h => trivial
  | abandoned _ | crashed => cases fits

-- A callback that has taken the flow it is for.
theorem waiting_awaited_taken : ∃ c : State, c.1.waits j1 ∧ c.1.awaits j1 = false ∧
    ∃ i, (∀ u, (c.2 i).prog ≠ .done u) ∧ j1 ∈ held {} c i := by
  obtain ⟨c,run,seen⟩ := played (bridge_plays {}) begins fresh
    (bound ++ [.enter 0 (.bindCallback (ascii "h") none [1]),.ask 0 (calm [2])])
    (fun c => (c.1.waits j1,c.1.awaits j1)) (true,false) (by decide)
  obtain ⟨waits,unnamed⟩ := Prod.mk.inj seen
  refine ⟨c,waits,unnamed,?_⟩
  refine (waiting_awaited {} c (run_weaken begins_careful run) j1 waits).resolve_left fun named => ?_
  rw [unnamed] at named
  cases named

-- A callback that comes after the flow's expiry, before the tick: the flow is
-- gone, and nothing will end the job.
theorem late_callback_strands : ∃ c : State, (bridge {}).Run (fun _ _ => True) fresh c ∧
    (∀ i, (c.2 i).prog = .done ()) ∧ c.1.waits j1 ∧ c.1.awaits j1 = false := by
  obtain ⟨c,run,seen⟩ := played (bridge_plays {}) (fun _ act => act.below 1) fresh
    (bound ++ whole 0 (.bindCallback (ascii "h") none [1]) (late [2]))
    (fun c => (c.1.waits j1,c.1.awaits j1,rests c)) (true,false,true)
    (by decide)
  obtain ⟨waits,rest⟩ := Prod.mk.inj seen
  obtain ⟨unnamed,done⟩ := Prod.mk.inj rest
  obtain ⟨free,idle⟩ := played_alone {} run
  exact ⟨c,free,all_rest idle done,waits,unnamed⟩

end Sample

end VerifiableGit.Service
