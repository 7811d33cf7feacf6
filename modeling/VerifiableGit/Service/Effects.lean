import VerifiableGit.Service.Inbound

-- What one transaction can do to each table, said once: every invariant of the
-- store is derived from these.
namespace VerifiableGit.Service
open Text Library Library.Interaction
open Governance (NamespaceRecord RepoRecord RepoKey)
open Governance.NamespaceRecord (Held)
open Governance.RepoRecord (moved)

theorem lookup_insert' {κ β : Type} [DecidableEq κ] (table : Table κ β) (key other : κ) (value : β) :
    AList.lookup other (table.insert key value) = if other = key then some value else table.lookup other :=
  Table.lookup_put table key other (some value)

theorem lookup_erase' {κ β : Type} [DecidableEq κ] (table : Table κ β) (key other : κ) :
    AList.lookup other (table.erase key) = if other = key then none else table.lookup other :=
  Table.lookup_put table key other none

-- Orphaned or returned, a namespace is held and who it was.
@[simp] theorem orphaned_id (at_ : Int) (n : NamespaceRecord) : (orphaned at_ n).id = n.id := by unfold orphaned; split <;> rfl
@[simp] theorem orphaned_resource (at_ : Int) (n : NamespaceRecord) : (orphaned at_ n).resource = n.resource := by
  unfold orphaned; split <;> rfl
@[simp] theorem orphaned_binding (at_ : Int) (n : NamespaceRecord) : (orphaned at_ n).binding = n.binding := by
  unfold orphaned; split <;> rfl
@[simp] theorem unorphaned_id (n : NamespaceRecord) : (unorphaned n).id = n.id := by unfold unorphaned; split <;> rfl
@[simp] theorem unorphaned_resource (n : NamespaceRecord) : (unorphaned n).resource = n.resource := by
  unfold unorphaned; split <;> rfl
@[simp] theorem unorphaned_binding (n : NamespaceRecord) : (unorphaned n).binding = n.binding := by
  unfold unorphaned; split <;> rfl

@[simp] theorem held_orphaned (at_ : Int) (n : NamespaceRecord) : Held (orphaned at_ n) ↔ Held n := by
  unfold orphaned
  split
  · rename_i bound
    simp [Held,bound]
  · rfl

@[simp] theorem held_unorphaned (n : NamespaceRecord) : Held (unorphaned n) ↔ Held n := by
  unfold unorphaned
  split
  · rename_i gone
    simp [Held,gone]
  · rfl

def waiting (next : Next) (r : JobRecord) : JobRecord := { r with state := .waiting, next := some next }
def running (r : JobRecord) : JobRecord := { r with state := .running }

inductive JobChange (id : Bytes) : Query → Option JobRecord → Option JobRecord → Prop
  | same {q : Query} {r : Option JobRecord} : JobChange id q r r
  | new (record : JobRecord) : JobChange id (.newJob id record) none (some record)
  | waits {r : Option JobRecord} (next : Next) : JobChange id (.waitJob id next) r (r.map (waiting next))
  | starts {r : Option JobRecord} : JobChange id (.startJob id) r (r.map running)
  | finishes (record : JobRecord) (open_ : record.state ≠ .finished) (result : ResultPayload) (at_ : Int) :
      JobChange id (.finishJob id result at_) (some record) (some (record.finish result at_))
  | pruned {r : Option JobRecord} : JobChange id (.deleteJob id) r none

inductive NamespaceChange (id : Bytes) : Query → Option NamespaceRecord → Option NamespaceRecord → Prop
  | same {q : Query} {n : Option NamespaceRecord} : NamespaceChange id q n n
  | new (record : NamespaceRecord) : NamespaceChange id (.newNamespace id record) none (some record)
  | put {n : Option NamespaceRecord} (record : NamespaceRecord) : NamespaceChange id (.putNamespace id record) n (some record)
  | orphans {n : Option NamespaceRecord} (at_ : Int) : NamespaceChange id (.orphan id at_) n (n.map (orphaned at_))
  | returns {n : Option NamespaceRecord} : NamespaceChange id (.unorphan id) n (n.map unorphaned)
  | adjusts {n : Option NamespaceRecord} (change : Adjustment) : NamespaceChange id (.adjust id change) n (n.map change.apply)
  | warns {n : Option NamespaceRecord} (at_ : Int) :
      NamespaceChange id (.warnRemoval id at_) n (n.map fun n => { n with removalWarnedAt := some at_ })
  | deleted {n : Option NamespaceRecord} : NamespaceChange id (.deleteNamespace id) n none

inductive FlowChange (state : Bytes) : Query → Option PendingFlow → Option PendingFlow → Prop
  | same {q : Query} {f : Option PendingFlow} : FlowChange state q f f
  | put {f : Option PendingFlow} (flow : PendingFlow) : FlowChange state (.putFlow state flow) f (some flow)
  | taken {f : Option PendingFlow} : FlowChange state (.takeFlow state) f none
  | deleted {f : Option PendingFlow} (flow : PendingFlow) : FlowChange state (.deleteFlow state flow) f none

inductive EntryChange (key : OutboxKey) : Query → Option OutboxEntry → Option OutboxEntry → Prop
  | same {q : Query} {e : Option OutboxEntry} : EntryChange key q e e
  | put {e : Option OutboxEntry} (entry : OutboxEntry) : EntryChange key (.putEntry key entry) e (some entry)
  | new (entry : OutboxEntry) : EntryChange key (.newEntry key entry) none (some entry)
  | notes {e : Option OutboxEntry} (docId : Bytes) (at_ : Int) :
      EntryChange key (.noteSent key docId at_) e (e.map fun e => e.noteSent docId at_)
  | refreshed {e : Option OutboxEntry} (payload : EventPayload) :
      EntryChange key (.refreshEntry key payload) e (e.map fun e => { e with content := .event payload })
  | deleted {e : Option OutboxEntry} : EntryChange key (.deleteEntry key) e none
  | finishes {e : Option OutboxEntry} (result : ResultPayload) (at_ : Int) (id : Bytes) (own : key = .result id) :
      EntryChange key (.finishJob id result at_) e (some { content := .result result })

inductive RepoChange (key : RepoKey) : Query → Option RepoRecord → Option RepoRecord → Prop
  | same {q : Query} {record : Option RepoRecord} : RepoChange key q record record
  | moves {record : Option RepoRecord} (ns : Bytes) : RepoChange key (.moveRepo key ns) record (record.map (moved ns))
  | set_ {record : Option RepoRecord} (new : Option RepoRecord) : RepoChange key (.setRepo key new) record new
  | deleted {record : Option RepoRecord} : RepoChange key (.deleteRepo key) record none

section
variable {outside : (q : Query) → q.Answer} {q : Query} {r : q.Answer} {w t : World}

theorem finishJob_world (w : World) (id : Bytes) (result : ResultPayload) (at_ : Int) :
    (w.finishJob id result at_).2 =
      { w with jobs := (w.finishJob id result at_).2.jobs, outbox := (w.finishJob id result at_).2.outbox } := by
  unfold World.finishJob
  split
  · rfl
  · split <;> rfl

theorem putFlow_served {state : Bytes} {flow : PendingFlow} {r : Unit}
    (served : answer outside (.putFlow state flow) w = some (r,t)) :
    state ∉ w.states ∧ t = { w with pending := w.pending.insert state flow, states := state :: w.states } := by
  simp only [answer] at served
  split at served
  · cases served
  · rename_i new
    cases served
    exact ⟨new,rfl⟩

theorem lock_served {ns : Bytes} {r : Unit} (served : answer outside (.lock ns) w = some (r,t)) :
    t = { w with locked := ns :: w.locked } := by
  simp only [answer] at served
  split at served
  · cases served
  · cases served
    rfl

-- A question that is not about a table leaves it; one that is, at its own key.
theorem job_change (served : answer outside q w = some (r,t)) (id : Bytes) :
    JobChange id q (w.jobs.lookup id) (t.jobs.lookup id) := by
  cases q with
  | newJob key record =>
    cases served
    simp only [Table.lookup_putNew]
    split
    · rename_i own
      obtain ⟨rfl,absent⟩ := own
      rw [absent]
      exact .new record
    · exact .same
  | waitJob key next | startJob key =>
    cases served
    simp only [Table.lookup_update]
    split
    · rename_i own
      subst own
      constructor
    · exact .same
  | finishJob key result at_ =>
    cases served
    unfold World.finishJob
    split
    · exact .same
    · rename_i record found
      split
      · exact .same
      · rename_i open_
        simp only [lookup_insert']
        split
        · rename_i own
          subst own
          rw [found]
          exact .finishes record open_ result at_
        · exact .same
  | deleteJob key =>
    cases served
    simp only [lookup_erase']
    split
    · rename_i own
      subst own
      exact .pruned
    · exact .same
  | putFlow _ _ =>
    rw [(putFlow_served served).2]
    exact .same
  | lock _ =>
    rw [lock_served served]
    exact .same
  | _ =>
    cases served
    exact .same

theorem namespace_change (served : answer outside q w = some (r,t)) (id : Bytes) :
    NamespaceChange id q (w.namespaces.lookup id) (t.namespaces.lookup id) := by
  cases q with
  | newNamespace key record =>
    cases served
    simp only [Table.lookup_putNew]
    split
    · rename_i own
      obtain ⟨rfl,absent⟩ := own
      rw [absent]
      exact .new record
    · exact .same
  | putNamespace key record =>
    cases served
    simp only [lookup_insert']
    split
    · rename_i own
      subst own
      exact .put record
    · exact .same
  | orphan key at_ | unorphan key | adjust key change | warnRemoval key at_ =>
    cases served
    simp only [Table.lookup_update]
    split
    · rename_i own
      subst own
      constructor
    · exact .same
  | deleteNamespace key =>
    cases served
    simp only [lookup_erase']
    split
    · rename_i own
      subst own
      exact .deleted
    · exact .same
  | finishJob key result at_ =>
    cases served
    rw [finishJob_world]
    exact .same
  | putFlow _ _ =>
    rw [(putFlow_served served).2]
    exact .same
  | lock _ =>
    rw [lock_served served]
    exact .same
  | _ =>
    cases served
    exact .same

theorem flow_change (served : answer outside q w = some (r,t)) (state : Bytes) :
    FlowChange state q (w.pending.lookup state) (t.pending.lookup state) := by
  cases q with
  | putFlow key flow =>
    rw [(putFlow_served served).2]
    simp only [lookup_insert']
    split
    · rename_i own
      subst own
      exact .put flow
    · exact .same
  | takeFlow key | deleteFlow key flow =>
    cases served
    simp only [lookup_erase']
    split
    · rename_i own
      subst own
      constructor
    · exact .same
  | finishJob key result at_ =>
    cases served
    rw [finishJob_world]
    exact .same
  | lock _ =>
    rw [lock_served served]
    exact .same
  | _ =>
    cases served
    exact .same

theorem entry_change (served : answer outside q w = some (r,t)) (key : OutboxKey) :
    EntryChange key q (w.outbox.lookup key) (t.outbox.lookup key) := by
  cases q with
  | putEntry other entry =>
    cases served
    simp only [lookup_insert']
    split
    · rename_i own
      subst own
      exact .put entry
    · exact .same
  | newEntry other entry =>
    cases served
    simp only [Table.lookup_putNew]
    split
    · rename_i own
      obtain ⟨rfl,absent⟩ := own
      rw [absent]
      exact .new entry
    · exact .same
  | noteSent other docId at_ | refreshEntry other payload =>
    cases served
    simp only [Table.lookup_update]
    split
    · rename_i own
      subst own
      constructor
    · exact .same
  | deleteEntry other =>
    cases served
    simp only [lookup_erase']
    split
    · rename_i own
      subst own
      exact .deleted
    · exact .same
  | finishJob id result at_ =>
    cases served
    unfold World.finishJob
    split
    · exact .same
    · split
      · exact .same
      · simp only [lookup_insert']
        split
        · rename_i own
          exact .finishes result at_ id own
        · exact .same
  | putFlow _ _ =>
    rw [(putFlow_served served).2]
    exact .same
  | lock _ =>
    rw [lock_served served]
    exact .same
  | _ =>
    cases served
    exact .same

theorem repo_change (served : answer outside q w = some (r,t)) (key : RepoKey) :
    RepoChange key q (w.repos.lookup key) (t.repos.lookup key) := by
  cases q with
  | moveRepo other ns =>
    cases served
    simp only [Table.lookup_update]
    split
    · rename_i own
      subst own
      exact .moves ns
    · exact .same
  | setRepo other record =>
    cases served
    simp only [Table.lookup_put]
    split
    · rename_i own
      subst own
      exact .set_ record
    · exact .same
  | deleteRepo other =>
    cases served
    simp only [lookup_erase']
    split
    · rename_i own
      subst own
      exact .deleted
    · exact .same
  | finishJob key result at_ =>
    cases served
    rw [finishJob_world]
    exact .same
  | putFlow _ _ =>
    rw [(putFlow_served served).2]
    exact .same
  | lock _ =>
    rw [lock_served served]
    exact .same
  | _ =>
    cases served
    exact .same

theorem retired_change (served : answer outside q w = some (r,t)) (id : Bytes) :
    t.retired.lookup id = w.retired.lookup id ∨ ∃ record, q = .retire id record := by
  cases q with
  | retire key record =>
    cases served
    simp only [lookup_insert']
    split
    · rename_i own
      subst own
      exact .inr ⟨record,rfl⟩
    · exact .inl rfl
  | finishJob key result at_ =>
    cases served
    rw [finishJob_world]
    exact .inl rfl
  | putFlow _ _ =>
    rw [(putFlow_served served).2]
    exact .inl rfl
  | lock _ =>
    rw [lock_served served]
    exact .inl rfl
  | _ =>
    cases served
    exact .inl rfl

theorem sent_change (served : answer outside q w = some (r,t)) :
    t.sent = w.sent ∨ ∃ content, q = .send content ∧ t.sent = w.sent ++ [content] := by
  cases q with
  | send content =>
    cases served
    exact .inr ⟨content,rfl,rfl⟩
  | finishJob key result at_ =>
    cases served
    rw [finishJob_world]
    exact .inl rfl
  | putFlow _ _ =>
    rw [(putFlow_served served).2]
    exact .inl rfl
  | lock _ =>
    rw [lock_served served]
    exact .inl rfl
  | _ =>
    cases served
    exact .inl rfl

theorem states_change (served : answer outside q w = some (r,t)) :
    t.states = w.states ∨ ∃ state flow, q = .putFlow state flow ∧ state ∉ w.states ∧ t.states = state :: w.states := by
  cases q with
  | putFlow state flow =>
    obtain ⟨new,rfl⟩ := putFlow_served served
    exact .inr ⟨state,flow,rfl,new,rfl⟩
  | finishJob key result at_ =>
    cases served
    rw [finishJob_world]
    exact .inl rfl
  | lock _ =>
    rw [lock_served served]
    exact .inl rfl
  | _ =>
    cases served
    exact .inl rfl

end

end VerifiableGit.Service
