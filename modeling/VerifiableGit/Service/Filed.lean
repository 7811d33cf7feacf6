import VerifiableGit.Service.Handlers

-- What is true of the store whatever happens: records lie under their own keys,
-- and a flow that was read is still the same or gone.
namespace VerifiableGit.Service
open Text Library Library.Interaction
open Governance (NamespaceRecord RepoRecord RepoKey)

variable {cfg : Cfg} {c d : State} {act : Act Handler Query Query.Answer}

-- A run of the bridge.
abbrev Kind := State → Act Handler Query Query.Answer → Prop

-- The tables are what they were.
structure Stores (w t : World) : Prop where
  jobs : t.jobs = w.jobs
  namespaces : t.namespaces = w.namespaces
  repos : t.repos = w.repos
  pending : t.pending = w.pending
  outbox : t.outbox = w.outbox
  retired : t.retired = w.retired
  states : t.states = w.states
  sent : t.sent = w.sent

theorem enter_stores {h : Handler} {w t : World} (entered : enter h w = some t) : Stores w t := by
  unfold enter at entered
  split at entered
  · split at entered
    · cases entered
      exact ⟨rfl,rfl,rfl,rfl,rfl,rfl,rfl,rfl⟩
    · cases entered
  · cases entered
    exact ⟨rfl,rfl,rfl,rfl,rfl,rfl,rfl,rfl⟩

-- A step is a question of a task that may ask it, or leaves the tables.
theorem step_asks (ruled : (rules cfg).Ruled c.2) (step : (bridge cfg).Step c act d) :
    (∃ i q r outside, act = .asked i q r ∧ answer outside q c.1 = some (r,d.1) ∧
      Backed (c.2 i).handler (c.2 i).seen q) ∨
    ((∀ i q r, act ≠ .asked i q r) ∧ Stores c.1 d.1) := by
  cases step with
  | asked i asks served =>
    obtain ⟨outside,answered⟩ := served
    exact .inl ⟨i,_,_,outside,rfl,answered,ruled_asks ruled i asks⟩
  | entered i idle enters => exact .inr ⟨fun _ _ _ other => (nomatch other),enter_stores enters⟩
  | abandoned i waits => exact .inr ⟨fun _ _ _ other => (nomatch other),⟨rfl,rfl,rfl,rfl,rfl,rfl,rfl,rfl⟩⟩
  | crashed down =>
    obtain ⟨codes,same⟩ := down
    subst same
    exact .inr ⟨fun _ _ _ other => (nomatch other),⟨rfl,rfl,rfl,rfl,rfl,rfl,rfl,rfl⟩⟩

-- Put there once, and nothing else put there since.
def Still (w : World) (state : Bytes) (flow : PendingFlow) : Prop :=
  state ∈ w.states ∧ ∀ other, w.pending.lookup state = some other → other = flow

def Reads (w : World) : (q : Query) → q.Answer → Prop
  | .getJob id,r => ∀ record result, r = some record → record.result = some result → result.jobId = id
  | .getEntry key,e => ∀ entry, e = some entry → KeyFits key entry.content
  | .listEntries,entries => ∀ e ∈ (entries : List (OutboxKey × OutboxEntry)), KeyFits e.1 e.2.content
  | .getNamespace id,n => ∀ record, n = some record → record.id = id
  | .getFlow state,flow => ∀ f, flow = some f → Still w state f
  | .listFlows,flows => ∀ f ∈ (flows : List (Bytes × PendingFlow)), Still w f.1 f.2
  | _,_ => True

structure Filed (c : State) : Prop where
  results : ∀ id record result, c.1.jobs.lookup id = some record → record.result = some result → result.jobId = id
  entries : ∀ key entry, c.1.outbox.lookup key = some entry → KeyFits key entry.content
  namespaces : ∀ id n, c.1.namespaces.lookup id = some n → n.id = id
  states : ∀ state flow, c.1.pending.lookup state = some flow → state ∈ c.1.states
  heard : Noted Reads c

theorem filed_fresh : Filed fresh where
  results := fun _ _ _ found => (nomatch found)
  entries := fun _ _ found => (nomatch found)
  namespaces := fun _ _ found => (nomatch found)
  states := fun _ _ found => (nomatch found)
  heard := fun _ _ _ heard => (nomatch heard)

section
variable {outside : (q : Query) → q.Answer} {h : Handler} {seen : Seen} {q : Query} {r : q.Answer} {w t : World}

theorem results_asked (backed : Backed h seen q) (served : answer outside q w = some (r,t))
    (filed : ∀ id record result, w.jobs.lookup id = some record → record.result = some result → result.jobId = id) :
    ∀ id record result, t.jobs.lookup id = some record → record.result = some result → result.jobId = id := by
  intro id record result found has
  have change := job_change served id
  generalize before : w.jobs.lookup id = old at change
  generalize t.jobs.lookup id = new at change found
  cases change with
  | same => exact filed id record result (before.trans found) has
  | new _ =>
    cases found
    rw [backed.2.1] at has
    cases has
  | waits next | starts =>
    obtain ⟨there,was,rfl⟩ := Option.map_eq_some_iff.mp found
    exact filed id there result (before.trans was) has
  | finishes there open_ result' at_ =>
    cases found
    cases has
    exact backed
  | pruned => cases found

theorem entries_asked (backed : Backed h seen q) (served : answer outside q w = some (r,t))
    (heard : ∀ id record result, Heard seen (.getJob id) (some record) → record.result = some result → result.jobId = id)
    (filed : ∀ key entry, w.outbox.lookup key = some entry → KeyFits key entry.content) :
    ∀ key entry, t.outbox.lookup key = some entry → KeyFits key entry.content := by
  intro key entry found
  have change := entry_change served key
  generalize before : w.outbox.lookup key = old at change
  generalize t.outbox.lookup key = new at change found
  cases change with
  | same => exact filed key entry (before.trans found)
  | put _ =>
    cases found
    exact backed.1
  | new _ =>
    cases found
    obtain ⟨id,record,result,rfl,read,_,has,content⟩ := backed
    rw [content]
    exact heard id record result read has
  | notes docId at_ =>
    obtain ⟨there,was,rfl⟩ := Option.map_eq_some_iff.mp found
    exact filed key there (before.trans was)
  | refreshed payload =>
    obtain ⟨there,was,rfl⟩ := Option.map_eq_some_iff.mp found
    obtain ⟨rfl,_⟩ := backed
    rfl
  | deleted => cases found
  | finishes result at_ id own =>
    cases found
    subst own
    exact backed

theorem namespaces_asked (backed : Backed h seen q) (served : answer outside q w = some (r,t))
    (heard : ∀ id n, Heard seen (.getNamespace id) (some n) → n.id = id)
    (filed : ∀ id n, w.namespaces.lookup id = some n → n.id = id) :
    ∀ id n, t.namespaces.lookup id = some n → n.id = id := by
  intro id n found
  have change := namespace_change served id
  generalize before : w.namespaces.lookup id = old at change
  generalize t.namespaces.lookup id = new at change found
  cases change with
  | same => exact filed id n (before.trans found)
  | new _ =>
    cases found
    exact backed.1
  | put _ =>
    cases found
    cases backed.own with
    | inl own => exact own
    | inr read =>
      obtain ⟨existing,there,same⟩ := read
      exact same.trans (heard id existing there)
  | orphans at_ | returns =>
    obtain ⟨there,was,rfl⟩ := Option.map_eq_some_iff.mp found
    simpa using filed id there (before.trans was)
  | adjusts change | warns at_ =>
    obtain ⟨there,was,rfl⟩ := Option.map_eq_some_iff.mp found
    exact filed id there (before.trans was)
  | deleted => cases found

theorem states_asked (served : answer outside q w = some (r,t))
    (filed : ∀ state flow, w.pending.lookup state = some flow → state ∈ w.states) :
    ∀ state flow, t.pending.lookup state = some flow → state ∈ t.states := by
  intro state flow found
  have change := flow_change served state
  have grows : w.states ⊆ t.states := by
    rcases states_change served with same | ⟨_,_,_,_,more⟩
    · rw [same]
      exact fun _ inside => inside
    · rw [more]
      exact fun _ inside => List.mem_cons_of_mem _ inside
  generalize before : w.pending.lookup state = old at change
  generalize t.pending.lookup state = new at change found
  cases change with
  | same => exact grows (filed state flow (before.trans found))
  | put _ =>
    rw [(putFlow_served served).2]
    exact List.mem_cons_self
  | taken => cases found
  | deleted _ => cases found

-- A `state` is used once, so what was put there is still there or gone.
theorem still_asked (served : answer outside q w = some (r,t)) {state : Bytes} {flow : PendingFlow}
    (still : Still w state flow) : Still t state flow := by
  obtain ⟨used,only⟩ := still
  have grows : state ∈ t.states := by
    rcases states_change served with same | ⟨_,_,_,_,more⟩
    · rwa [same]
    · rw [more]
      exact List.mem_cons_of_mem _ used
  refine ⟨grows,fun other found => ?_⟩
  have change := flow_change served state
  generalize before : w.pending.lookup state = old at change
  generalize t.pending.lookup state = new at change found
  cases change with
  | same => exact only other (before.trans found)
  | put _ => exact absurd used (putFlow_served served).1
  | taken => cases found
  | deleted _ => cases found

theorem reads_kept (still : ∀ state flow, Still w state flow → Still t state flow) (q : Query) (r : q.Answer)
    (read : Reads w q r) : Reads t q r := by
  cases q with
  | getFlow state => exact fun f found => still state f (read f found)
  | listFlows => exact fun f inside => still f.1 f.2 (read f inside)
  | _ => exact read

-- What the store tells is filed as the store is.
theorem reads_told (served : answer outside q w = some (r,t))
    (results : ∀ id record result, w.jobs.lookup id = some record → record.result = some result → result.jobId = id)
    (entries : ∀ key entry, w.outbox.lookup key = some entry → KeyFits key entry.content)
    (namespaces : ∀ id n, w.namespaces.lookup id = some n → n.id = id)
    (states : ∀ state flow, w.pending.lookup state = some flow → state ∈ w.states) : Reads t q r := by
  have row : ∀ state flow, w.pending.lookup state = some flow → Still w state flow := fun state flow found =>
    ⟨states state flow found,fun other there => Option.some.inj (there.symm.trans found)⟩
  cases q with
  | getJob id =>
    cases served
    exact results id
  | getEntry key =>
    cases served
    exact entries key
  | listEntries =>
    cases served
    intro e inside
    exact entries e.1 e.2 ((Table.mem_rows _ _ _).mp ((mem_listed _ _ _).mp inside))
  | getNamespace id =>
    cases served
    exact namespaces id
  | getFlow state =>
    cases served
    exact row state
  | listFlows =>
    cases served
    intro f inside
    exact row f.1 f.2 ((Table.mem_rows _ _ _).mp ((mem_listed _ _ _).mp inside))
  | _ => trivial

end

theorem filed_step (ruled : (rules cfg).Ruled c.2) (step : (bridge cfg).Step c act d) (filed : Filed c) : Filed d := by
  rcases step_asks ruled step with ⟨i,q,r,outside,asked,served,backed⟩ | ⟨silent,stores⟩
  · refine ⟨?_,?_,?_,states_asked served filed.states,?_⟩
    · exact results_asked backed served filed.results
    · refine entries_asked backed served (fun id record result heard => ?_) filed.entries
      exact filed.heard i (.getJob id) _ heard record result rfl
    · exact namespaces_asked backed served (fun id n heard => filed.heard i (.getNamespace id) _ heard n rfl) filed.namespaces
    · refine noted_step step (reads_kept fun _ _ => still_asked served) (fun j q' r' same => ?_) filed.heard
      rw [asked] at same
      cases same
      exact reads_told served filed.results filed.entries filed.namespaces filed.states
  · have still : ∀ state flow, Still c.1 state flow → Still d.1 state flow := fun state flow here => by
      simpa only [Still,stores.pending,stores.states] using here
    refine ⟨?_,?_,?_,?_,noted_step step (reads_kept still) (fun i q r asked => absurd asked (silent i q r)) filed.heard⟩
    · simpa only [stores.jobs] using filed.results
    · simpa only [stores.outbox] using filed.entries
    · simpa only [stores.namespaces] using filed.namespaces
    · simpa only [stores.pending,stores.states] using filed.states

theorem ruled_fresh (cfg : Cfg) : (rules cfg).Ruled fresh.2 := fun _ => settled_start

-- What the steps of a run keep, given that the store stays in order.
theorem run_filed {kind : Kind} {I : State → Prop}
    (kept : ∀ c act d, (rules cfg).Ruled c.2 → Filed c → kind c act → (bridge cfg).Step c act d → I c → I d)
    (run : (bridge cfg).Run kind c d) (ruled : (rules cfg).Ruled c.2) (filed : Filed c) (start : I c) :
    (rules cfg).Ruled d.2 ∧ Filed d ∧ I d := by
  refine run_keeps (rules cfg) (I := fun c => Filed c ∧ I c) ?_ run ruled ⟨filed,start⟩
  intro c act d ruled fits step both
  exact ⟨filed_step ruled step both.1,kept c act d ruled both.1 fits step both.2⟩

end VerifiableGit.Service
