import VerifiableGit.Service.Filed

-- A namespace id retired by a re-binding is not served again.
namespace VerifiableGit.Service
open Text Library Library.Interaction
open Governance (NamespaceRecord)
open Governance.NamespaceRecord (Held)

def World.isRetired (w : World) (id : Bytes) : Bool := (w.retired.lookup id).isSome

-- Bound or orphaned.
def World.serves (w : World) (id : Bytes) : Prop := ∃ n, w.namespaces.lookup id = some n ∧ Held n

def Handler.isJob : Handler → Bool
  | .job _ => true
  | _ => false

-- The ids task `i` has retired and not deleted yet.
def retiring (c : State) (i : Nat) : List Bytes := leaving (c.2 i).seen

-- Task `i` is a job's admission that has read that the namespace may be served.
def admitting (c : State) (i : Nat) (ns : Bytes) : Prop :=
  (c.2 i).handler.isJob ∧ admission (c.2 i).seen = .reading ns

-- A bound record is stored under no retired id, nobody retires an id that a job is
-- being admitted for, admission does not look at a namespace that is being
-- superseded, and no crash comes between the retirement and the deletion.
def Unretired (c : State) : Act Handler Query Query.Answer → Prop
  | .asked i q _ => match q with
    | .putNamespace id _ => c.1.isRetired id = false
    | .retire id _ => ∀ j, ¬ admitting c j id
    | .getNamespace id => (c.2 i).handler.isJob → ∀ j, id ∉ retiring c j
    | _ => True
  | .entered _ _ | .abandoned _ => True
  | .crashed => ∀ i id, id ∈ retiring c i → ¬ c.1.serves id

structure Served (c : State) : Prop where
  retired : ∀ id, c.1.isRetired id → c.1.serves id → ∃ i, id ∈ retiring c i
  admitting : ∀ i ns, admitting c i ns → c.1.isRetired ns = false

-- From the retirement to the deletion a callback awaits nothing, so that it cannot
-- end there.
section
variable {cfg : Cfg} {c d : State} {act : Act Handler Query Query.Answer}
variable {h : Handler} {seen : Seen} {α : Type} {post : Seen → α → Prop}

def Query.retires : Query → Bool
  | .retire _ _ => true
  | _ => false

def Unawaited (seen : Seen) (q : Query) : Prop := leaving seen ≠ [] → q.awaited = false

abbrev Settles (p : Code α) (seen : Seen) : Prop := p.Follows Unawaited (fun after _ => leaving after = []) seen

theorem leaving_kept {q : Query} (keeps : q.retires = false) (r : q.Answer) (settled : leaving seen = []) :
    leaving (⟨q,r⟩ :: seen) = [] := by
  simp only [leaving] at settled
  cases q with
  | retire _ _ => cases keeps
  | deleteNamespace _ => simp [leaving,leavingNote,settled]
  | _ => exact settled

theorem settles_request {q : Query} {f : q.Answer → Code α} (keeps : q.retires = false) (settled : leaving seen = [])
    (rest : ∀ r, leaving (⟨q,r⟩ :: seen) = [] → Settles (f r) (⟨q,r⟩ :: seen)) : Settles (request q >>= f) seen :=
  follows_request (fun left => absurd settled left) fun r => rest r (leaving_kept keeps r settled)

theorem settles_tame (p : Code α) (tame : p.Follows (Tame h) post seen) (settled : leaving seen = []) :
    Settles p seen := by
  induction p generalizing seen with
  | done a => exact settled
  | call q next ih =>
    have keeps : q.retires = false := by
      have plain := tame.1.1
      cases q with
      | retire _ _ => cases plain
      | _ => rfl
    exact ⟨fun left => absurd settled left,fun r => ih r (tame.2 r) (leaving_kept keeps r settled)⟩

theorem settles_bind {β : Type} (p : Code α) (f : α → Code β) (first : Settles p seen)
    (rest : ∀ after a, leaving after = [] → Settles (f a) after) : Settles (p >>= f) seen :=
  follows_bind p f first rest

theorem moveRepos_unawaited (old new : Bytes) :
    (moveRepos old new).Follows (fun _ q => q.awaited = false) (fun _ _ => True) seen := by
  refine follows_request rfl fun repos => ?_
  refine follows_fold (fun _ _ _ => True) _ repos [] (fun r rest seen done _ => ?_) trivial
  split
  · exact follows_request rfl fun moved => follows_done trivial
  · exact follows_done trivial

theorem dropEvents_unawaited (ns : Bytes) :
    (dropEvents ns).Follows (fun _ q => q.awaited = false) (fun _ _ => True) seen := by
  refine follows_request rfl fun entries => ?_
  refine follows_each (fun _ _ => True) _ entries (fun e rest seen _ => ?_) trivial
  split
  · exact follows_request rfl fun _ => follows_done trivial
  · exact follows_done trivial

theorem supersedeOne_unawaited (at_ : Int) (s : Superseding) (old : NamespaceRecord) :
    (supersedeOne at_ s old).Follows (fun _ q => q.awaited = false) (fun _ _ => True) seen := by
  refine follows_request rfl fun _ => ?_
  refine follows_bind _ _ (moveRepos_unawaited old.id s.new.id) fun _ _ _ => ?_
  refine follows_bind _ _ (dropEvents_unawaited old.id) fun _ _ _ => ?_
  exact follows_request rfl fun _ => follows_done trivial

theorem supersede_settles (new : NamespaceRecord) (settled : leaving seen = []) : Settles (supersede new) seen := by
  have unawaited : (supersede new).Follows (fun _ q => q.awaited = false) (fun _ _ => True) seen := by
    refine follows_request rfl fun earlier => follows_request rfl fun at_ => ?_
    refine follows_bind _ _ (follows_fold (fun _ _ _ => True) (supersedeOne at_) earlier _
      (fun old rest seen s _ => supersedeOne_unawaited at_ s old) trivial) fun _ _ _ => follows_done trivial
  have taken := supersede_takes (h := .expire) {} new rfl settled
  exact follows_ends _ (follows_wider _ unawaited fun _ _ never _ => never)
    (follows_weaken _ taken fun _ _ taken => taken.leaving)

theorem take_leaves (state : Bytes) (settled : leaving seen = []) : Settles (take state) seen := by
  refine settles_request rfl settled fun flow settled => ?_
  cases flow with
  | none => exact settled
  | some f =>
    refine settles_request rfl settled fun late settled => ?_
    cases late <;> exact settled

theorem sent_leaves (ns : Bytes) (event : EventBody) (settled : leaving seen = []) :
    Settles (sendEvent ns event []) seen :=
  settles_tame _ (sendEventKeyed_tame (h := .expire) {} ns event [] none fun _ none => nomatch none) settled

theorem finished_leaves (jobId : Bytes) (report : Governance.Report) (settled : leaving seen = []) :
    Settles (finishJob jobId report) seen := settles_tame _ (finishJob_tame (h := .expire) jobId report) settled

theorem completeBind_leaves (jobId ns : Bytes) (resource : Governance.Resource) (binding : Binding)
    (settled : leaving seen = []) : Settles (completeBind jobId ns resource binding) seen := by
  refine settles_request rfl settled fun existing settled => ?_
  refine settles_bind _ _ (supersede_settles _ settled) fun _ s settled => ?_
  refine settles_request rfl settled fun _ settled => settles_request rfl settled fun restored settled => ?_
  cases restored with
  | false => exact settled
  | true =>
    refine settles_bind _ _ (sent_leaves ns _ settled) fun _ sent settled => ?_
    cases sent with
    | error e => exact settled
    | ok _ =>
      refine settles_bind _ _ (settles_tame _ (reportRoleMap_tame (h := .expire) ns) settled) fun _ _ settled => ?_
      refine settles_bind _ _ (settles_tame _ (reportMoved_tame (h := .expire) {} ns s.moved) settled) fun _ sent settled => ?_
      cases sent with
      | error e => exact settled
      | ok _ => exact settles_bind _ _ (finished_leaves jobId _ settled) fun _ _ settled => settled

theorem bindCallback_leaves (host : Bytes) (routeOwner : Option Bytes) (state : Bytes) (settled : leaving seen = []) :
    Settles (bindCallback cfg host routeOwner state) seen := by
  refine settles_bind _ _ (take_leaves state settled) fun _ flow settled => ?_
  cases flow with
  | error e => exact settled
  | ok flow =>
    cases flow with
    | link _ _ _ _ _ _ | manifest _ _ _ => exact settled
    | bind jobId ns resource at_ =>
      dsimp only
      split
      · refine settles_request rfl settled fun served settled => ?_
        cases served with
        | false => exact settled
        | true =>
          refine settles_request rfl settled fun outcome settled => ?_
          cases outcome with
          | error e => exact settles_bind _ _ (finished_leaves jobId _ settled) fun _ _ settled => settled
          | ok binding => exact completeBind_leaves jobId ns resource binding settled
      · exact settled

theorem linkCallback_leaves (host state : Bytes) (settled : leaving seen = []) : Settles (linkCallback host state) seen := by
  refine settles_bind _ _ (take_leaves state settled) fun _ flow settled => ?_
  cases flow with
  | error e => exact settled
  | ok flow =>
    cases flow with
    | bind _ _ _ _ | manifest _ _ _ => exact settled
    | link jobId ns flowHost _ _ device =>
      cases device with
      | some _ => exact settled
      | none =>
        dsimp only
        split
        · refine settles_request rfl settled fun served settled => ?_
          cases served with
          | false => exact settled
          | true =>
            refine settles_request rfl settled fun outcome settled => ?_
            cases outcome with
            | error e => exact finished_leaves jobId _ settled
            | ok account =>
              refine settles_bind _ _ (sent_leaves ns _ settled) fun _ sent settled => ?_
              cases sent with
              | error e => exact settled
              | ok _ => exact finished_leaves jobId _ settled
        · exact settled

theorem manifestCallback_leaves (host owner state : Bytes) (settled : leaving seen = []) :
    Settles (manifestCallback cfg host owner state) seen := by
  refine settles_request rfl settled fun flow settled => ?_
  cases flow with
  | none => exact settled
  | some flow =>
    cases flow with
    | bind _ _ _ _ | link _ _ _ _ _ _ => exact settled
    | manifest h o expiresAt =>
      cases o with
      | none => exact settled
      | some o =>
        refine settles_request rfl settled fun expired settled => settles_request rfl settled fun registered settled => ?_
        split
        · refine settles_request rfl settled fun exchanged settled => ?_
          cases exchanged with
          | false => exact settled
          | true => exact settles_request rfl settled fun _ settled => settled
        · exact settled

theorem code_settles (cfg : Cfg) (route : h.onRoute) : Settles (code cfg h) [] := by
  cases h with
  | bindCallback host routeOwner state =>
    exact settles_bind _ _ (bindCallback_leaves host routeOwner state rfl) fun _ _ settled => settled
  | linkCallback host state => exact linkCallback_leaves host state rfl
  | manifestCallback host owner state => exact manifestCallback_leaves host owner state rfl
  | _ => cases route

-- Only a callback can end where it awaits.
theorem code_pauses (cfg : Cfg) (h : Handler) :
    (code cfg h).Follows (fun seen q => h.onRoute → Unawaited seen q) (fun _ _ => True) [] := by
  cases route : h.onRoute with
  | true =>
    refine follows_weaken _ (follows_wider _ (code_settles cfg route) ?_) fun _ _ _ => trivial
    exact fun _ _ unawaited _ => unawaited
  | false => exact follows_free _ (fun _ _ never => Bool.noConfusion never) fun _ _ => trivial

def pauses (cfg : Cfg) : (bridge cfg).Rules where
  allowed := fun h seen q => h.onRoute → Unawaited seen q
  post := fun _ _ => True
  idle := fun _ => trivial
  follows := code_pauses cfg

-- The last answer a callback had while it retires an id was not awaited either.
def Attentive (c : State) : Prop :=
  ∀ i, (c.2 i).handler.onRoute → retiring c i ≠ [] → ∀ e before, (c.2 i).seen = e :: before → e.1.awaited = false

theorem awaited_leaves {q : Query} (awaits : q.awaited) (r : q.Answer) (ids : List Bytes) : leavingNote q r ids = ids := by
  cases q with
  | retire _ _ | deleteNamespace _ => cases awaits
  | _ => rfl

theorem attentive_step (ruled : (pauses cfg).Ruled c.2) (step : (bridge cfg).Step c act d) (attentive : Attentive c) :
    Attentive d := by
  intro j route leaves e before heard
  rcases step_seen step j with ⟨q,r,asked,seen,own⟩ | gone | same
  · subst asked
    rw [seen] at heard
    cases heard
    cases awaits : q.awaited with
    | false => rfl
    | true =>
      have mine : leaving (c.2 j).seen ≠ [] := by
        rwa [retiring,seen,leaving,gather_cons,awaited_leaves awaits] at leaves
      cases step with
      | asked _ asks _ =>
        rw [own] at route
        have never := ruled_asks ruled j asks route mine
        rw [awaits] at never
        cases never
  · simp [gone] at heard
  · rw [same] at route heard
    exact attentive j route (by rwa [retiring,same] at leaves) e before heard

-- A callback that ends alone has retired nothing it is yet to delete.
theorem abandoned_settled (ruled : (pauses cfg).Ruled c.2) (attentive : Attentive c) {i : Nat}
    (waits : (c.2 i).waits ((bridge cfg).awaited (c.2 i).handler)) : retiring c i = [] := by
  by_contra leaves
  rcases waits with ⟨q,next,asks,route,awaits⟩ | ⟨e,before,seen,route,awaits⟩
  · have never := ruled_asks ruled i asks route leaves
    rw [awaits] at never
    cases never
  · have never := attentive i route leaves e before seen
    rw [awaits] at never
    cases never

end

section
variable {cfg : Cfg} {c d : State} {act : Act Handler Query Query.Answer} {id : Bytes}
variable {outside : (q : Query) → q.Answer} {q : Query} {r : q.Answer} {w t : World} {h : Handler} {seen : Seen}

-- What is served after a question was served before, but for what is stored.
theorem serves_before (backed : Backed h seen q) (served : answer outside q w = some (r,t)) (serves : t.serves id) :
    w.serves id ∨ ∃ n, q = .putNamespace id n := by
  obtain ⟨n,found,held⟩ := serves
  have change := namespace_change served id
  unfold World.serves
  generalize w.namespaces.lookup id = old at change ⊢
  generalize t.namespaces.lookup id = new at change found
  cases change with
  | same => exact .inl ⟨n,found,held⟩
  | new record =>
    cases found
    simp [Held,backed.2] at held
  | put record => exact .inr ⟨record,rfl⟩
  | orphans at_ | returns =>
    obtain ⟨there,was,rfl⟩ := Option.map_eq_some_iff.mp found
    exact .inl ⟨there,was,by simpa using held⟩
  | adjusts change | warns at_ =>
    obtain ⟨there,was,rfl⟩ := Option.map_eq_some_iff.mp found
    exact .inl ⟨there,was,held⟩
  | deleted => cases found

theorem retired_before (served : answer outside q w = some (r,t)) (retired : t.isRetired id) :
    w.isRetired id ∨ ∃ record, q = .retire id record := by
  rcases retired_change served id with same | retires
  · left
    simpa only [World.isRetired,same] using retired
  · exact .inr retires

-- A task keeps the id it is retiring as long as the id is served.
theorem retiring_after (served : answer outside q w = some (r,t)) (inside : id ∈ leaving seen) (serves : t.serves id) :
    id ∈ leavingNote q r (leaving seen) := by
  cases q with
  | retire other record => exact List.mem_cons_of_mem _ inside
  | deleteNamespace other =>
    refine List.mem_filter.mpr ⟨inside,?_⟩
    simp only [ne_eq,decide_not,Bool.not_eq_eq_eq_not,Bool.not_true,decide_eq_false_iff_not]
    intro same
    subst same
    obtain ⟨n,found,_⟩ := serves
    cases served
    simp only [lookup_erase',if_true] at found
    cases found
  | _ => exact inside

theorem retiring_asked {i : Nat} {q : Query} {r : q.Answer} (step : (bridge cfg).Step c (.asked i q r) d) :
    retiring d i = leavingNote q r (retiring c i) := by
  simp only [retiring,leaving,(seen_asked step).1,gather_cons]

-- What an answer adds to what an admission has read.
theorem reading_after {ns : Bytes} (served : answer outside q w = some (r,t))
    (reading : admissionNote q r (admission seen) = .reading ns) :
    admission seen = .reading ns ∨ (q = .isRetired ns ∧ t.isRetired ns = false) ∨
      ∃ n, q = .getNamespace ns ∧ w.namespaces.lookup ns = some n ∧ n.isBound := by
  cases q with
  | newJob _ _ | answer _ => cases reading
  | isRetired id =>
    cases served
    simp only [admissionNote] at reading
    cases retired : (w.retired.lookup id).isSome || decide (admission seen = .decided) with
    | true =>
      rw [retired] at reading
      exact .inl reading
    | false =>
      rw [retired] at reading
      cases reading
      exact .inr (.inl ⟨rfl,(Bool.or_eq_false_iff.mp retired).1⟩)
  | getNamespace id =>
    cases served
    simp only [admissionNote] at reading
    cases bound : (w.namespaces.lookup id).any (·.isBound) && decide (admission seen ≠ .decided) with
    | false =>
      rw [bound] at reading
      exact .inl reading
    | true =>
      rw [bound] at reading
      cases reading
      obtain ⟨n,found,mine⟩ := (Option.any_eq_true _ _).mp (Bool.and_eq_true_iff.mp bound).1
      exact .inr (.inr ⟨n,rfl,found,mine⟩)
  | _ => exact .inl reading

theorem served_step (ruled : (rules cfg).Ruled c.2) (paused : (pauses cfg).Ruled c.2) (attentive : Attentive c)
    (fits : Unretired c act) (step : (bridge cfg).Step c act d) (good : Served c) : Served d := by
  rcases step_asks ruled step with ⟨i,q,r,outside,asked,served,backed⟩ | ⟨silent,stores⟩
  · subst asked
    refine ⟨fun id retired serves => ?_,fun j ns reads => ?_⟩
    · have kept : ∀ j, id ∈ retiring c j → ∃ k, id ∈ retiring d k := by
        intro j inside
        refine ⟨j,?_⟩
        by_cases same : j = i
        · subst same
          rw [retiring_asked step]
          exact retiring_after served inside serves
        · rwa [retiring,task_other step same]
      rcases retired_before served retired with before | ⟨record,rfl⟩
      · rcases serves_before backed served serves with was | ⟨n,rfl⟩
        · obtain ⟨j,inside⟩ := good.retired id before was
          exact kept j inside
        · simp [Unretired,before] at fits
      · refine ⟨i,?_⟩
        rw [retiring_asked step]
        exact List.mem_cons_self
    · have before : c.1.isRetired ns = false := by
        by_cases same : j = i
        · subst same
          obtain ⟨job,reading⟩ := reads
          rw [(seen_asked step).2] at job
          rw [admission,(seen_asked step).1,gather_cons] at reading
          rcases reading_after served reading with was | ⟨rfl,fresh⟩ | ⟨n,rfl,found,bound⟩
          · exact good.admitting j ns ⟨job,was⟩
          · have world := (Prod.mk.inj (Option.some.inj served)).2
            rwa [← world] at fresh
          · have nobody := fits job
            cases retired : c.1.isRetired ns with
            | false => rfl
            | true =>
              have state : n.state = .bound := by simpa [NamespaceRecord.isBound] using (Bool.and_eq_true_iff.mp bound).1
              obtain ⟨k,inside⟩ := good.retired ns retired ⟨n,found,.inl state⟩
              exact absurd inside (nobody k)
        · rw [admitting,task_other step same] at reads
          exact good.admitting j ns reads
      cases retired : d.1.isRetired ns with
      | false => rfl
      | true =>
        rcases retired_before served retired with was | ⟨record,rfl⟩
        · rw [before] at was
          cases was
        · have mine : admitting c j ns := by
            by_cases same : j = i
            · subst same
              obtain ⟨job,reading⟩ := reads
              rw [(seen_asked step).2] at job
              rw [admission,(seen_asked step).1,gather_cons] at reading
              exact ⟨job,reading⟩
            · rwa [admitting,task_other step same] at reads
          exact absurd mine (fits j)
  · have serving : ∀ id, d.1.serves id → c.1.serves id := fun id serves => by
      simpa only [World.serves,stores.namespaces] using serves
    have before : ∀ id, d.1.isRetired id → d.1.serves id → ∃ i, id ∈ retiring c i := fun id retired serves =>
      good.retired id (by simpa only [World.isRetired,stores.retired] using retired) (serving id serves)
    have still : ∀ i ns, admitting c i ns → d.1.isRetired ns = false := fun i ns reads => by
      simpa only [World.isRetired,stores.retired] using good.admitting i ns reads
    cases step with
    | asked i asks served => exact absurd rfl (silent i _ _)
    | entered i idle enters =>
      refine ⟨fun id retired serves => ?_,fun j ns reads => ?_⟩
      · obtain ⟨j,inside⟩ := before id retired serves
        refine ⟨j,?_⟩
        by_cases same : j = i
        · subst same
          have settled : leaving _ = [] := (ruled_idle ruled j idle).leaving
          rw [retiring,settled] at inside
          cases inside
        · simpa only [retiring,Function.update_of_ne same] using inside
      · by_cases same : j = i
        · subst same
          obtain ⟨_,reading⟩ := reads
          simp only [Function.update_self] at reading
          cases reading
        · simp only [admitting,Function.update_of_ne same] at reads
          exact still j ns reads
    | abandoned i waits =>
      refine ⟨fun id retired serves => ?_,fun j ns reads => ?_⟩
      · obtain ⟨j,inside⟩ := before id retired serves
        refine ⟨j,?_⟩
        by_cases same : j = i
        · subst same
          rw [abandoned_settled paused attentive waits] at inside
          cases inside
        · simpa only [retiring,Function.update_of_ne same] using inside
      · by_cases same : j = i
        · subst same
          obtain ⟨_,reading⟩ := reads
          simp only [Function.update_self] at reading
          cases reading
        · simp only [admitting,Function.update_of_ne same] at reads
          exact still j ns reads
    | crashed down =>
      refine ⟨fun id retired serves => ?_,fun j ns reads => by cases reads.2⟩
      obtain ⟨j,inside⟩ := before id retired serves
      exact absurd (serving id serves) (fits j id inside)

end

-- In every state reached, a retired id is not served but by the handler that is
-- about to delete it; with no handler running, by none. And no job is admitted
-- under one.
theorem retired_unserved (cfg : Cfg) (c : State) (run : (bridge cfg).Run Unretired fresh c) :
    (∀ id, c.1.isRetired id → c.1.serves id → ∃ i, (∀ u, (c.2 i).prog ≠ .done u) ∧ id ∈ retiring c i) ∧
    ∀ i id record r d, (bridge cfg).Step c (.asked i (.newJob id record) r) d → c.1.isRetired record.ns = false := by
  have start : Served fresh := ⟨fun _ retired => (nomatch retired),fun _ _ reads => (nomatch reads.2)⟩
  have paused : (pauses cfg).Ruled fresh.2 := fun _ => trivial
  have unheard : Attentive fresh := fun _ route => nomatch route
  obtain ⟨ruled,_,_,good⟩ := run_keeps (rules cfg) (I := fun c => (pauses cfg).Ruled c.2 ∧ Attentive c ∧ Served c)
    (fun c act d ruled fits step kept => ⟨ruled_step step kept.1,attentive_step kept.1 step kept.2.1,
      served_step ruled kept.1 kept.2.1 fits step kept.2.2⟩) run (ruled_fresh cfg) ⟨paused,unheard,start⟩
  refine ⟨fun id retired serves => ?_,fun i id record r d step => ?_⟩
  · obtain ⟨i,inside⟩ := good.retired id retired serves
    refine ⟨i,fun u done => ?_,inside⟩
    have settled : retiring c i = [] := (ruled_idle ruled i done).leaving
    rw [settled] at inside
    cases inside
  · rcases step_asks ruled step with ⟨j,q,r,outside,asked,served,backed⟩ | ⟨silent,_⟩
    · cases asked
      obtain ⟨_,_,p,⟨doc,own,_⟩,_,same,_,reading⟩ := backed
      rw [← same]
      exact good.admitting i p.ns ⟨by rw [own]; rfl,reading⟩
    · exact absurd rfl (silent i _ r)

namespace Sample

-- `n1` is bound, and superseded by `n2`.
def superseded : List (Move Handler ((q : Query) → q.Answer)) :=
  whole 0 .restore (calm [9]) ++ whole 0 (.job (bindJob j1 n1 acme)) (calm [1]) ++
  whole 0 (.bindCallback (ascii "h") none [1]) (calm [4]) ++ whole 0 (.job (bindJob j2 n2 acme)) (calm [2]) ++
  whole 0 (.bindCallback (ascii "h") none [2]) (calm [5])

def unretired (c : State) : Act Handler Query Query.Answer → Bool
  | .asked _ (.putNamespace id _) _ => !c.1.isRetired id
  | .asked _ (.retire _ _) _ => !(c.2 0).handler.isJob
  | .asked _ (.getNamespace id) _ => !(c.2 0).handler.isJob || !(retiring c 0).contains id
  | .asked _ _ _ | .entered _ _ => true
  | .abandoned _ | .crashed => false

theorem unretired_kind (c : State) (act : Act Handler Query Query.Answer) (idle : Idle .restore 1 c)
    (fits : act.below 1 && unretired c act) : Unretired c act := by
  obtain ⟨below,fits⟩ := Bool.and_eq_true_iff.mp fits
  have quiet : ∀ j, 1 ≤ j → retiring c j = [] := fun j above => by rw [retiring,idle j above]; rfl
  cases act with
  | asked i q r =>
    have mine : i = 0 := by simpa [Act.below] using below
    cases q with
    | putNamespace id n => simpa [Unretired,unretired] using fits
    | retire id record =>
      intro j reads
      cases j with
      | zero => simp [unretired,reads.1] at fits
      | succ j =>
        rw [admitting,idle (j + 1) (by omega)] at reads
        cases reads.1
    | getNamespace id =>
      subst mine
      intro job j
      cases j with
      | zero => simpa [unretired,job] using fits
      | succ j => simp [quiet (j + 1) (by omega)]
    | _ => trivial
  | entered i h => trivial
  | abandoned _ | crashed => cases fits

theorem retired_unserved_superseded : ∃ c : State, c.1.isRetired n1 ∧ ¬ c.1.serves n1 ∧ c.1.serves n2 := by
  obtain ⟨c,run,seen⟩ := played (bridge_plays {}) (fun c act => act.below 1 && unretired c act) fresh superseded
    (fun c => (c.1.isRetired n1,(c.1.namespaces.lookup n2).any (decide <| Held ·),rests c))
    (true,true,true) (by decide)
  obtain ⟨retired,rest⟩ := Prod.mk.inj seen
  obtain ⟨other,done⟩ := Prod.mk.inj rest
  obtain ⟨good,idle⟩ := run_under (fun _ _ _ fits step idle => idle_step (Bool.and_eq_true_iff.mp fits).1 step idle)
    (fun c act idle fits => unretired_kind c act idle fits) run (fresh_idle 1)
  obtain ⟨n,found,held⟩ := (Option.any_eq_true _ _).mp other
  refine ⟨c,retired,fun serves => ?_,n,found,by simpa using held⟩
  obtain ⟨i,live,_⟩ := (retired_unserved {} c good).1 n1 retired serves
  exact live () (all_rest idle done i)

-- A second flow for `n1`, put before `n2` superseded it, and completed after.
def revived : List (Move Handler ((q : Query) → q.Answer)) :=
  whole 0 .restore (calm [9]) ++ whole 0 (.job (bindJob j1 n1 acme)) (calm [1]) ++
  whole 0 (.job (bindJob j3 n1 acme)) (calm [3]) ++
  whole 0 (.bindCallback (ascii "h") none [1]) (calm [4]) ++ whole 0 (.job (bindJob j2 n2 acme)) (calm [2]) ++
  whole 0 (.bindCallback (ascii "h") none [2]) (calm [5]) ++ whole 0 (.bindCallback (ascii "h") none [3]) (calm [6])

theorem second_flow_revives : ∃ c : State, (bridge {}).Run (fun _ _ => True) fresh c ∧ (∀ i, (c.2 i).prog = .done ()) ∧
    c.1.isRetired n1 ∧ c.1.serves n1 := by
  obtain ⟨c,run,seen⟩ := played (bridge_plays {}) (fun _ act => act.below 1) fresh revived
    (fun c => (c.1.isRetired n1,(c.1.namespaces.lookup n1).any (decide <| Held ·),rests c))
    (true,true,true) (by decide)
  obtain ⟨retired,rest⟩ := Prod.mk.inj seen
  obtain ⟨serves,done⟩ := Prod.mk.inj rest
  obtain ⟨n,found,held⟩ := (Option.any_eq_true _ _).mp serves
  obtain ⟨free,idle⟩ := played_alone {} run
  exact ⟨c,free,all_rest idle done,retired,n,found,by simpa using held⟩

end Sample

end VerifiableGit.Service
