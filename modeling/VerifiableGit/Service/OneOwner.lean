import VerifiableGit.Service.Filed

-- One namespace for each owner, by its name and by its id.
namespace VerifiableGit.Service
open Text Library Library.Interaction
open Governance (NamespaceRecord)
open Governance.NamespaceRecord (Held SameOwner ownerId)

-- No two held records share a host and an owner, or a host and an owner's id.
def OneOwner (w : World) : Prop :=
  ∀ a b na nb, w.namespaces.lookup a = some na → w.namespaces.lookup b = some nb → Held na → Held nb → a ≠ b →
    ¬ SameOwner na nb

-- A callback stores its record while no other that has listed the earlier records
-- of the same owner is still to store its own.
def Apart (c : State) : Act Handler Query Query.Answer → Prop
  | .asked i q _ => match q with
    | .putNamespace _ n => ∀ j new left, j ≠ i → window (c.2 j).seen = some (new,left) → n.id ≠ new.id → ¬ SameOwner n new
    | _ => True
  | _ => True

-- Every record that a callback is to supersede is among those it has listed.
def Listed (c : State) : Prop :=
  ∀ i new left, window (c.2 i).seen = some (new,left) → ∀ id n, c.1.namespaces.lookup id = some n → Held n → n.id ≠ new.id →
    SameOwner n new → ∃ m ∈ left, m.id = n.id

section
variable {cfg : Cfg} {c d : State} {act : Act Handler Query Query.Answer} {id : Bytes} {n m new : NamespaceRecord}
variable {outside : (q : Query) → q.Answer} {q : Query} {r : q.Answer} {w t : World} {h : Handler} {seen : Seen}

theorem sameOwner_symm (same : SameOwner n m) : SameOwner m n := by
  obtain ⟨host,names | ⟨known,ids⟩⟩ := same
  · exact ⟨host.symm,.inl names.symm⟩
  · exact ⟨host.symm,.inr ⟨ids ▸ known,ids.symm⟩⟩

-- A record's owner is its resource and its binding.
structure SameRecord (m n : NamespaceRecord) : Prop where
  id : m.id = n.id
  resource : m.resource = n.resource
  binding : m.binding = n.binding

theorem sameOwner_left (same : SameRecord m n) (owner : SameOwner n new) : SameOwner m new := by
  simpa only [SameOwner,ownerId,same.resource,same.binding] using owner

-- What is held after a question was held before, but for what is stored.
theorem held_before (backed : Backed h seen q) (served : answer outside q w = some (r,t))
    (found : t.namespaces.lookup id = some n) (held : Held n) :
    (∃ m, w.namespaces.lookup id = some m ∧ Held m ∧ SameRecord m n) ∨ q = .putNamespace id n := by
  have change := namespace_change served id
  generalize w.namespaces.lookup id = old at change ⊢
  generalize t.namespaces.lookup id = new at change found
  cases change with
  | same => exact .inl ⟨n,found,held,rfl,rfl,rfl⟩
  | new record =>
    cases found
    simp [Held,backed.2] at held
  | put record =>
    cases found
    exact .inr rfl
  | orphans at_ | returns =>
    obtain ⟨there,was,rfl⟩ := Option.map_eq_some_iff.mp found
    exact .inl ⟨there,was,by simpa using held,by simp,by simp,by simp⟩
  | adjusts change | warns at_ =>
    obtain ⟨there,was,rfl⟩ := Option.map_eq_some_iff.mp found
    exact .inl ⟨there,was,held,rfl,rfl,rfl⟩
  | deleted => cases found

-- A window is opened by its listing, and only what is deleted leaves it.
theorem window_after {left : List NamespaceRecord} (open_ : window (⟨q,r⟩ :: seen) = some (new,left)) :
    (∃ earlier : List NamespaceRecord, (⟨q,r⟩ : Σ q : Query,q.Answer) = ⟨.sameOwner new,earlier⟩ ∧ left = earlier) ∨
      ((∀ id n, q ≠ .putNamespace id n) ∧
        ∃ before, window seen = some (new,before) ∧ ∀ m ∈ before, m ∈ left ∨ q = .deleteNamespace m.id) := by
  rw [window,gather_cons] at open_
  cases q with
  | sameOwner other =>
    cases open_
    exact .inl ⟨_,rfl,rfl⟩
  | putNamespace _ _ => cases open_
  | deleteNamespace id =>
    right
    obtain ⟨before,there,same⟩ := Option.map_eq_some_iff.mp open_
    cases same
    refine ⟨fun _ _ other => (by cases other),before.2,there,fun m inside => ?_⟩
    by_cases own : m.id = id
    · exact .inr (by rw [own])
    · exact .inl (List.mem_filter.mpr ⟨inside,by simpa using own⟩)
  | _ => exact .inr ⟨fun _ _ other => (by cases other),left,open_,fun m inside => .inl inside⟩

theorem listed_step (ruled : (rules cfg).Ruled c.2) (filed : Filed c) (fits : Apart c act) (step : (bridge cfg).Step c act d)
    (listed_ : Listed c) : Listed d := by
  intro j new left open_ id n found held other owner
  rcases step_asks ruled step with ⟨i,q,r,outside,asked,served,backed⟩ | ⟨silent,stores⟩
  · subst asked
    have after := (filed_step ruled step filed).namespaces id n found
    -- what is still there was there, and is still to come
    have stays : ∀ m left, window (c.2 j).seen = some (new,left) → c.1.namespaces.lookup id = some m → Held m →
        SameRecord m n → ∃ k ∈ left, k.id = n.id := by
      intro m left before there was same
      have before := listed_ j new left before id m there was (by rw [same.id]; exact other) (sameOwner_left same owner)
      rwa [same.id] at before
    by_cases mine : j = i
    · subst mine
      rw [(seen_asked step).1] at open_
      rcases window_after open_ with ⟨earlier,opens,rfl⟩ | ⟨stored,before,there,kept⟩
      · cases opens
        have told := Prod.mk.inj (Option.some.inj served)
        refine ⟨n,?_,rfl⟩
        rw [← told.1]
        refine List.mem_filter.mpr ⟨List.mem_map.mpr ⟨(id,n),?_,rfl⟩,by simpa using ⟨other,held,owner⟩⟩
        rw [mem_listed,Table.mem_rows,told.2]
        exact found
      · rcases held_before backed served found held with ⟨m,was,holds,same⟩ | put
        · obtain ⟨k,inside,own⟩ := stays m before there was holds same
          rcases kept k inside with still | deleted
          · exact ⟨k,still,own⟩
          · subst deleted
            rw [own,after] at served
            have world := (Prod.mk.inj (Option.some.inj served)).2
            rw [← world] at found
            simp only [lookup_erase',if_true] at found
            cases found
        · exact absurd put (stored id n)
    · rw [task_other step mine] at open_
      rcases held_before backed served found held with ⟨m,was,holds,same⟩ | put
      · exact stays m left open_ was holds same
      · subst put
        exact absurd owner (fits j new left mine open_ other)
  · rw [stores.namespaces] at found
    cases step with
    | asked i asks served => exact absurd rfl (silent i _ _)
    | entered i idle enters =>
      by_cases mine : j = i
      · subst mine
        simp only [Function.update_self] at open_
        cases open_
      · simp only [Function.update_of_ne mine] at open_
        exact listed_ j new left open_ id n found held other owner
    | abandoned i waits =>
      by_cases mine : j = i
      · subst mine
        simp only [Function.update_self] at open_
        cases open_
      · simp only [Function.update_of_ne mine] at open_
        exact listed_ j new left open_ id n found held other owner
    | crashed down => cases open_

theorem oneOwner_step (ruled : (rules cfg).Ruled c.2) (filed : Filed c) (step : (bridge cfg).Step c act d)
    (listed_ : Listed c) (one : OneOwner c.1) : OneOwner d.1 := by
  rcases step_asks ruled step with ⟨i,q,r,outside,asked,served,backed⟩ | ⟨_,stores⟩
  · -- a record just stored shares its owner with none held before
    have new : ∀ a b na nb, q = .putNamespace a na → d.1.namespaces.lookup b = some nb → Held nb → a ≠ b →
        ¬ SameOwner nb na := by
      intro a b na nb put found held other owner
      subst put
      obtain ⟨record,open_,mine,resource,binding⟩ := backed.window
      have own : na.id = a := by
        have world := (Prod.mk.inj (Option.some.inj served)).2
        refine (filed_step ruled step filed).namespaces a na ?_
        rw [← world]
        simp only [lookup_insert',if_true]
      have theirs := (filed_step ruled step filed).namespaces b nb found
      rcases held_before backed served found held with ⟨m,was,holds,same⟩ | put
      · have owner' : SameOwner m record := by
          simpa only [SameOwner,ownerId,same.resource,same.binding,← resource,← binding] using owner
        have apart : m.id ≠ record.id := by
          rw [same.id,theirs,← mine,own]
          exact other.symm
        obtain ⟨k,inside,_⟩ := listed_ i record [] open_ b m was holds apart owner'
        cases inside
      · cases put
        exact other rfl
    intro a b na nb here there heldA heldB other owner
    rcases held_before backed served here heldA with ⟨ma,wasA,holdsA,sameA⟩ | putA
    · rcases held_before backed served there heldB with ⟨mb,wasB,holdsB,sameB⟩ | putB
      · have before : SameOwner ma nb := sameOwner_left sameA owner
        have before : SameOwner ma mb := sameOwner_symm (sameOwner_left sameB (sameOwner_symm before))
        exact one a b ma mb wasA wasB holdsA holdsB other before
      · exact new b a nb na putB here heldA other.symm owner
    · exact new a b na nb putA there heldB other (sameOwner_symm owner)
  · simpa only [OneOwner,stores.namespaces] using one

end

-- In a run where the callbacks of one owner do not overlap, each owner has one
-- namespace that is bound or orphaned, at any moment.
theorem one_namespace_per_owner (cfg : Cfg) (c : State) (run : (bridge cfg).Run Apart fresh c) : OneOwner c.1 := by
  refine (run_filed (I := fun c => Listed c ∧ OneOwner c.1) ?_ run (ruled_fresh cfg) filed_fresh ⟨?_,?_⟩).2.2.2
  · intro c act d ruled filed fits step both
    exact ⟨listed_step ruled filed fits step both.1,oneOwner_step ruled filed step both.1 both.2⟩
  · exact fun i new left open_ => (nomatch open_)
  · exact fun a b na nb found => (nomatch found)

namespace Sample

def boundTo (ns : Bytes) (c : State) : Bool := (c.1.namespaces.lookup ns).any fun n => n.state = .bound && n.resource = acme

theorem boundTo_record {ns : Bytes} {c : State} (there : boundTo ns c) :
    ∃ n, c.1.namespaces.lookup ns = some n ∧ Held n ∧ n.resource = acme := by
  obtain ⟨n,found,both⟩ := (Option.any_eq_true _ _).mp there
  obtain ⟨state,resource⟩ := Bool.and_eq_true_iff.mp both
  exact ⟨n,found,.inl (by simpa using state),by simpa using resource⟩

theorem below_apart (c : State) (act : Act Handler Query Query.Answer) (idle : Idle .restore 1 c) (below : act.below 1) :
    Apart c act := by
  cases act with
  | asked i q r =>
    have mine : i = 0 := by simpa [Act.below] using below
    cases q with
    | putNamespace id n =>
      intro j new left other open_
      rw [idle j (by omega)] at open_
      cases open_
    | _ => trivial
  | entered _ _ | abandoned _ | crashed => trivial

-- One callback after the other: the second supersedes the first.
theorem one_namespace_after_rebinding : ∃ c : State, boundTo n2 c ∧ c.1.namespaces.lookup n1 = none ∧ OneOwner c.1 := by
  obtain ⟨c,run,seen⟩ := played (bridge_plays {}) (fun _ act => act.below 1) fresh
    (whole 0 .restore (calm [9]) ++ whole 0 (.job (bindJob j1 n1 acme)) (calm [1]) ++
      whole 0 (.bindCallback (ascii "h") none [1]) (calm [4]) ++ whole 0 (.job (bindJob j2 n2 acme)) (calm [2]) ++
      whole 0 (.bindCallback (ascii "h") none [2]) (calm [5]))
    (fun c => (boundTo n2 c,c.1.namespaces.lookup n1)) (true,none) (by decide)
  obtain ⟨bound,gone⟩ := Prod.mk.inj seen
  have alone := (run_under (fun _ _ _ below step idle => idle_step below step idle) below_apart run (fresh_idle 1)).1
  exact ⟨c,bound,gone,one_namespace_per_owner {} c alone⟩

-- Two callbacks at once: both list the earlier records before either stores its
-- own.
theorem callbacks_overlap : ¬ ∀ (cfg : Cfg) (c : State), (bridge cfg).Run (fun _ _ => True) fresh c → OneOwner c.1 := by
  intro claim
  obtain ⟨c,run,seen⟩ := played (bridge_plays {}) (fun _ _ => true) fresh
    (whole 0 .restore (calm [9]) ++ whole 0 (.job (bindJob j1 n1 acme)) (calm [1]) ++
      whole 0 (.job (bindJob j2 n2 acme)) (calm [2]) ++
      [.enter 0 (.bindCallback (ascii "h") none [1]),.finish 0 6 (calm [4])] ++
      whole 1 (.bindCallback (ascii "h") none [2]) (calm [5]) ++ [.finish 0 100 (calm [4])])
    (fun c => (boundTo n1 c,boundTo n2 c)) (true,true) (by decide)
  obtain ⟨one,two⟩ := Prod.mk.inj seen
  obtain ⟨a,foundA,heldA,ownA⟩ := boundTo_record one
  obtain ⟨b,foundB,heldB,ownB⟩ := boundTo_record two
  refine claim {} c (run_weaken (fun _ _ _ => trivial) run) n1 n2 a b foundA foundB heldA heldB (by decide) ?_
  exact ⟨by rw [ownA,ownB],.inl (by rw [ownA,ownB])⟩

end Sample

end VerifiableGit.Service
