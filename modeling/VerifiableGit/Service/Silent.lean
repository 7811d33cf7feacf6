import VerifiableGit.Service.Filed

-- Only a refusal of an event orphans a namespace, and an orphaned one is silent
-- until a job for it comes.
namespace VerifiableGit.Service
open Text Library Library.Interaction
open Governance (NamespaceRecord RepoRecord RepoKey)

def World.orphan (w : World) (ns : Bytes) : Prop := ∃ n, w.namespaces.lookup ns = some n ∧ n.state = .orphaned

def Content.ns : Content → Option Bytes
  | .event p => some p.ns
  | .result _ => none

-- The namespace a question queues or sends an event for.
def Query.announces : Query → Option Bytes
  | .putEntry _ e | .newEntry _ e => e.content.ns
  | .refreshEntry _ p => some p.ns
  | .send content => content.ns
  | _ => none

-- Every record of another namespace is what it was.
def SparesOthers (ns : Bytes) (w t : World) : Prop :=
  (∀ other, other ≠ ns → t.namespaces.lookup other = w.namespaces.lookup other) ∧
  ∀ key record, w.repos.lookup key = some record → record.ns ≠ ns → t.repos.lookup key = some record

-- A job that reached the bridge on the way to `c`.
def Brought (cfg : Cfg) (c : State) (p : JobPayload) : Prop :=
  ∃ b i doc e, (bridge cfg).Run (fun _ _ => True) fresh b ∧ (bridge cfg).Step b (.entered i (.job doc)) e ∧
    doc.payload = .ok p ∧ (bridge cfg).Run (fun _ _ => True) e c

-- The bind job that a flow was put for.
def BroughtFor (cfg : Cfg) (c : State) (jobId ns : Bytes) : Prop :=
  ∃ p target, Brought cfg c p ∧ p.kind = .beginBind target ∧ p.ns = ns ∧ p.jobId = jobId

structure OrphanLaw (cfg : Cfg) (c : State) (act : Act Handler Query Query.Answer) (d : State) : Prop where
  orphans : ∀ ns n, c.1.namespaces.lookup ns = some n → n.state = .bound → d.1.orphan ns →
    ∃ i at_ r thread entries e p, act = .asked i (.orphan ns at_) r ∧
      (c.2 i).handler = .refusal unknownNamespaceCode (some thread) ∧ First (c.2 i).seen .listEntries entries ∧
      threaded thread entries = some e ∧ e.2.content = .event p ∧ p.ns = ns
  silent : ∀ i q r ns, act = .asked i q r → q.announces = some ns → ¬ c.1.orphan ns
  returns : ∀ ns n, c.1.orphan ns → d.1.namespaces.lookup ns = some n → n.state = .bound →
    (∃ i r p, act = .asked i (.unorphan ns) r ∧ (c.2 i).handler.brings p ∧ p.ns = ns ∧ Brought cfg c p) ∨
    (∃ i r host owner state jobId resource at_, act = .asked i (.putNamespace ns n) r ∧
      (c.2 i).handler = .bindCallback host owner state ∧
      Heard (c.2 i).seen (.takeFlow state) (some (.bind jobId ns resource at_)) ∧ BroughtFor cfg c jobId ns)
  forgets : ∀ i ns r, act = .asked i (.deleteNamespace ns) r → (c.2 i).handler.forgets → ∀ n,
    c.1.namespaces.lookup ns = some n → n.state = .orphaned
  spares : ∀ i q r, act = .asked i q r →
    (∀ ns at_, q = .orphan ns at_ → SparesOthers ns c.1 d.1) ∧
    ((c.2 i).handler.forgets → (∃ ns, q = .deleteNamespace ns) ∨ (∃ key, q = .deleteRepo key) →
      ∃ ns keys, doom (c.2 i).seen = some (ns,keys) ∧ SparesOthers ns c.1 d.1)

def live (c : State) (i : Nat) : Prop := ∃ q next, (c.2 i).prog = .call q next

-- Task `i` has found the namespace not orphaned, and queues or sends an event for it.
def passing (c : State) (i : Nat) (ns : Bytes) : Prop := live c i ∧ pass (c.2 i).seen = some ns

-- Task `i` has found the namespace orphaned, has listed these repository records of
-- it, and is forgetting it.
def forgetting (c : State) (i : Nat) (ns : Bytes) (keys : List RepoKey) : Prop :=
  live c i ∧ (c.2 i).handler.forgets ∧ doom (c.2 i).seen = some (ns,keys)

-- Nothing is orphaned between the check and the event, nor brought back while it is
-- forgotten, and no record listed for that goes to another namespace meanwhile.
def Checked (c : State) : Act Handler Query Query.Answer → Prop
  | .asked _ q _ => match q with
    | .orphan ns _ => ∀ j, ¬ passing c j ns
    | .unorphan ns | .putNamespace ns _ | .newNamespace ns _ => ∀ j keys, ¬ forgetting c j ns keys
    | .moveRepo key to_ => ∀ j ns keys, forgetting c j ns keys → key ∈ keys → to_ = ns
    | .setRepo key record => ∀ j ns keys, forgetting c j ns keys → key ∈ keys → record.all (·.ns = ns)
    | _ => True
  | _ => True

structure Quieted (c : State) : Prop where
  pass : ∀ i ns, passing c i ns → ¬ c.1.orphan ns
  doomed : ∀ i ns keys, forgetting c i ns keys → ∀ n, c.1.namespaces.lookup ns = some n → n.state = .orphaned
  listed : ∀ i ns keys, forgetting c i ns keys → ∀ key ∈ keys, ∀ record, c.1.repos.lookup key = some record → record.ns = ns

section
variable {cfg : Cfg} {c d : State} {act : Act Handler Query Query.Answer} {ns : Bytes} {n m : NamespaceRecord}
variable {outside : (q : Query) → q.Answer} {q : Query} {r : q.Answer} {w t : World} {h : Handler} {seen : Seen}

@[simp] theorem orphaned_state (at_ : Int) (n : NamespaceRecord) :
    (orphaned at_ n).state = .orphaned ↔ n.state = .bound ∨ n.state = .orphaned := by
  unfold orphaned
  split
  · rename_i bound
    simp [bound]
  · rename_i other
    simp [other]

@[simp] theorem unorphaned_state (n : NamespaceRecord) : (unorphaned n).state ≠ .orphaned := by
  unfold unorphaned
  split
  · exact fun same => nomatch same
  · rename_i other
    exact other

-- What is orphaned after a question was orphaned before, or this question did it.
theorem orphan_before (backed : Backed h seen q) (served : answer outside q w = some (r,t)) (orphan : t.orphan ns) :
    w.orphan ns ∨ ∃ at_, q = .orphan ns at_ := by
  obtain ⟨n,found,state⟩ := orphan
  have change := namespace_change served ns
  unfold World.orphan
  generalize w.namespaces.lookup ns = old at change ⊢
  generalize t.namespaces.lookup ns = new at change found
  cases change with
  | same => exact .inl ⟨n,found,state⟩
  | new record =>
    cases found
    cases backed.2.symm.trans state
  | put record =>
    cases found
    cases backed.bound.symm.trans state
  | orphans at_ => exact .inr ⟨at_,rfl⟩
  | returns =>
    obtain ⟨there,was,rfl⟩ := Option.map_eq_some_iff.mp found
    exact absurd state (unorphaned_state there)
  | adjusts change | warns at_ =>
    obtain ⟨there,was,rfl⟩ := Option.map_eq_some_iff.mp found
    exact .inl ⟨there,was,state⟩
  | deleted => cases found

-- What an answer adds to what a task has found not orphaned.
theorem pass_after (served : answer outside q w = some (r,t)) (passed : passNote q r (pass seen) = some ns) :
    (pass seen = some ns ∧ ∀ at_, q ≠ .orphan ns at_) ∨ (¬ w.orphan ns ∧ t = w) := by
  cases q with
  | isOrphaned id =>
    cases served
    right
    cases gone : (w.namespaces.lookup id).any (·.state = .orphaned) with
    | true => simp [passNote,gone] at passed
    | false =>
      simp only [passNote,gone,cond_false,Option.some.injEq] at passed
      subst passed
      refine ⟨fun orphan => ?_,rfl⟩
      obtain ⟨n,found,state⟩ := orphan
      simp [found,state] at gone
  | getNamespace id =>
    cases served
    cases gone : (w.namespaces.lookup id).any (·.isOrphaned) with
    | true =>
      simp only [passNote,gone,cond_true] at passed
      exact .inl ⟨passed,fun _ other => (by cases other)⟩
    | false =>
      simp only [passNote,gone,cond_false,Option.some.injEq] at passed
      subst passed
      refine .inr ⟨fun orphan => ?_,rfl⟩
      obtain ⟨n,found,state⟩ := orphan
      simp [found,NamespaceRecord.isOrphaned,state] at gone
  | checkEvent _ _ | flush =>
    left
    cases r with
    | true => exact ⟨passed,fun _ other => (by cases other)⟩
    | false => cases passed
  | sign _ | roleMap _ =>
    left
    cases r with
    | some _ => exact ⟨passed,fun _ other => (by cases other)⟩
    | none => cases passed
  | status _ | newId | now | noteSent _ _ _ => exact .inl ⟨passed,fun _ other => (by cases other)⟩
  | _ => cases passed

-- An orphaned namespace stays so, or goes, if nothing brings it back.
theorem doomed_after (served : answer outside q w = some (r,t)) (unorphan : q ≠ .unorphan ns)
    (put : ∀ n, q ≠ .putNamespace ns n) (new : ∀ n, q ≠ .newNamespace ns n)
    (doomed : ∀ n, w.namespaces.lookup ns = some n → n.state = .orphaned) :
    ∀ n, t.namespaces.lookup ns = some n → n.state = .orphaned := by
  intro n found
  have change := namespace_change served ns
  generalize before : w.namespaces.lookup ns = old at change
  generalize t.namespaces.lookup ns = after at change found
  cases change with
  | same => exact doomed n (before.trans found)
  | new record => exact absurd rfl (new record)
  | put record => exact absurd rfl (put record)
  | orphans at_ =>
    obtain ⟨there,was,rfl⟩ := Option.map_eq_some_iff.mp found
    exact (orphaned_state at_ there).mpr (.inr (doomed there (before.trans was)))
  | returns => exact absurd rfl unorphan
  | adjusts change | warns at_ =>
    obtain ⟨there,was,rfl⟩ := Option.map_eq_some_iff.mp found
    exact doomed there (before.trans was)
  | deleted => cases found

theorem repo_after {key : RepoKey} (served : answer outside q w = some (r,t))
    (moves : ∀ to_, q = .moveRepo key to_ → to_ = ns)
    (sets : ∀ record, q = .setRepo key record → record.all (·.ns = ns))
    (own : ∀ record, w.repos.lookup key = some record → record.ns = ns) :
    ∀ record, t.repos.lookup key = some record → record.ns = ns := by
  intro record found
  have change := repo_change served key
  generalize before : w.repos.lookup key = old at change
  generalize t.repos.lookup key = after at change found
  cases change with
  | same => exact own record (before.trans found)
  | moves to_ =>
    obtain ⟨there,was,rfl⟩ := Option.map_eq_some_iff.mp found
    exact moves to_ rfl
  | set_ new =>
    subst found
    simpa using sets (some record) rfl
  | deleted => cases found

-- What an answer adds to what a task is forgetting.
theorem doom_after {keys : List RepoKey} (served : answer outside q w = some (r,t))
    (doomed : doomNote q r (doom seen) = some (ns,keys)) :
    doom seen = some (ns,keys) ∨
      (t = w ∧ ((∃ n, w.namespaces.lookup ns = some n ∧ n.state = .orphaned ∧ keys = []) ∨
        (∃ before, doom seen = some (ns,before)) ∧
          ∀ key ∈ keys, ∃ record, w.repos.lookup key = some record ∧ record.ns = ns)) := by
  cases q with
  | getNamespace id =>
    cases served
    simp only [doomNote] at doomed
    split at doomed
    · rename_i orphaned
      cases doomed
      obtain ⟨n,found,state⟩ := (Option.any_eq_true _ _).mp orphaned
      exact .inr ⟨rfl,.inl ⟨n,found,by simpa [NamespaceRecord.isOrphaned] using state,rfl⟩⟩
    · cases doomed
  | listRepos =>
    cases served
    right
    obtain ⟨before,there,same⟩ := Option.map_eq_some_iff.mp doomed
    cases same
    refine ⟨rfl,.inr ⟨⟨before.2,there⟩,fun key inside => ?_⟩⟩
    obtain ⟨row,member,rfl⟩ := List.mem_map.mp inside
    obtain ⟨listed,own⟩ := List.mem_filter.mp member
    exact ⟨row.2,(Table.mem_rows _ _ _).mp ((mem_listed _ _ _).mp listed),by simpa using own⟩
  | deleteNamespace id => cases doomed
  | _ => exact .inl doomed

theorem live_asked {i : Nat} (step : (bridge cfg).Step c (.asked i q r) d) : live c i := by
  cases step with
  | asked _ asks _ => exact ⟨_,_,asks⟩

theorem quieted_step (ruled : (rules cfg).Ruled c.2) (fits : Checked c act) (step : (bridge cfg).Step c act d)
    (good : Quieted c) : Quieted d := by
  rcases step_asks ruled step with ⟨i,q,r,outside,asked,served,backed⟩ | ⟨silent,stores⟩
  · subst asked
    have mine := live_asked step
    obtain ⟨seen,own⟩ := seen_asked step
    -- a task that forgets a namespace forgot it before, or this is its first look
    have before : ∀ j ns keys, forgetting d j ns keys → forgetting c j ns keys ∨
        (d.1 = c.1 ∧ ((∃ n, c.1.namespaces.lookup ns = some n ∧ n.state = .orphaned ∧ keys = []) ∨
          (∃ before, forgetting c j ns before) ∧
            ∀ key ∈ keys, ∃ record, c.1.repos.lookup key = some record ∧ record.ns = ns)) := by
      intro j ns keys still
      obtain ⟨live_,forgets,doomed⟩ := still
      by_cases same : j = i
      · subst same
        rw [own] at forgets
        rw [doom,seen,gather_cons] at doomed
        rcases doom_after served doomed with was | ⟨world,first | ⟨⟨keys',was⟩,rows⟩⟩
        · exact .inl ⟨mine,forgets,was⟩
        · exact .inr ⟨world,.inl first⟩
        · exact .inr ⟨world,.inr ⟨⟨keys',mine,forgets,was⟩,rows⟩⟩
      · rw [live,task_other step same] at live_
        rw [task_other step same] at forgets doomed
        exact .inl ⟨live_,forgets,doomed⟩
    refine ⟨fun j ns passes orphan => ?_,fun j ns keys doomed n found => ?_,fun j ns keys doomed key inside record found => ?_⟩
    · have was : ¬ c.1.orphan ns ∧ ∀ at_, q ≠ .orphan ns at_ := by
        obtain ⟨live_,passed⟩ := passes
        by_cases same : j = i
        · subst same
          rw [pass,seen,gather_cons] at passed
          rcases pass_after served passed with ⟨was,other⟩ | ⟨open_,world⟩
          · exact ⟨good.pass j ns ⟨mine,was⟩,other⟩
          · rw [world] at orphan
            exact absurd orphan open_
        · rw [live,task_other step same] at live_
          rw [task_other step same] at passed
          refine ⟨good.pass j ns ⟨live_,passed⟩,fun at_ other => ?_⟩
          subst other
          exact fits j ⟨live_,passed⟩
      rcases orphan_before backed served orphan with there | ⟨at_,asked⟩
      · exact was.1 there
      · exact was.2 at_ asked
    · rcases before j ns keys doomed with was | ⟨world,⟨first,there,state,_⟩ | ⟨⟨keys',was⟩,_⟩⟩
      · refine doomed_after served ?_ ?_ ?_ (good.doomed j ns keys was) n found
        · intro other
          subst other
          exact fits j keys was
        · intro record other
          subst other
          exact fits j keys was
        · intro record other
          subst other
          exact fits j keys was
      · rw [world,there] at found
        cases found
        exact state
      · rw [world] at found
        exact good.doomed j ns keys' was n found
    · rcases before j ns keys doomed with was | ⟨world,⟨first,there,state,none⟩ | ⟨_,rows⟩⟩
      · refine repo_after served ?_ ?_ (good.listed j ns keys was key inside) record found
        · intro to_ other
          subst other
          exact fits j ns keys was inside
        · intro new other
          subst other
          exact fits j ns keys was inside
      · subst none
        cases inside
      · obtain ⟨record',there,same⟩ := rows key inside
        rw [world,there] at found
        cases found
        exact same
  · have stays : ∀ j, (d.2 j).seen = [] ∨ d.2 j = c.2 j := by
      intro j
      rcases step_seen step j with ⟨q,r,asked,_⟩ | gone | same
      · exact absurd asked (silent j q r)
      · exact .inl gone
      · exact .inr same
    have passes : ∀ j ns, passing d j ns → passing c j ns := by
      intro j ns still
      obtain ⟨live_,passed⟩ := still
      rcases stays j with gone | same
      · rw [gone] at passed
        cases passed
      · rw [live,same] at live_
        rw [same] at passed
        exact ⟨live_,passed⟩
    have forgets : ∀ j ns keys, forgetting d j ns keys → forgetting c j ns keys := by
      intro j ns keys still
      obtain ⟨live_,forgets,doomed⟩ := still
      rcases stays j with gone | same
      · rw [gone] at doomed
        cases doomed
      · rw [live,same] at live_
        rw [same] at forgets doomed
        exact ⟨live_,forgets,doomed⟩
    refine ⟨fun j ns passed orphan => ?_,fun j ns keys doomed n found => ?_,fun j ns keys doomed key inside record found => ?_⟩
    · refine good.pass j ns (passes j ns passed) ?_
      simpa only [World.orphan,stores.namespaces] using orphan
    · rw [stores.namespaces] at found
      exact good.doomed j ns keys (forgets j ns keys doomed) n found
    · rw [stores.repos] at found
      exact good.listed j ns keys (forgets j ns keys doomed) key inside record found

-- Where a flow comes from.
structure Origins (cfg : Cfg) (c : State) : Prop where
  run : (bridge cfg).Run (fun _ _ => True) fresh c
  jobs : ∀ i p, (c.2 i).handler.brings p → Brought cfg c p
  pending : ∀ state jobId ns resource at_, c.1.pending.lookup state = some (.bind jobId ns resource at_) →
    BroughtFor cfg c jobId ns
  taken : ∀ i state jobId ns resource at_, Heard (c.2 i).seen (.takeFlow state) (some (.bind jobId ns resource at_)) →
    BroughtFor cfg c jobId ns

theorem brought_later {p : JobPayload} (step : (bridge cfg).Step c act d) (brought : Brought cfg c p) : Brought cfg d p := by
  obtain ⟨b,i,doc,e,first,entered,payload,rest⟩ := brought
  exact ⟨b,i,doc,e,first,entered,payload,rest.tail ⟨act,trivial,step⟩⟩

theorem broughtFor_later {jobId : Bytes} (step : (bridge cfg).Step c act d) (brought : BroughtFor cfg c jobId ns) :
    BroughtFor cfg d jobId ns := by
  obtain ⟨p,target,there,rest⟩ := brought
  exact ⟨p,target,brought_later step there,rest⟩

theorem origins_jobs (step : (bridge cfg).Step c act d) (origins : Origins cfg c) (j : Nat) (p : JobPayload)
    (brings : (d.2 j).handler.brings p) : Brought cfg d p := by
  have whole := step
  cases step with
  | asked i _ _ | abandoned i _ =>
    refine brought_later whole (origins.jobs j p ?_)
    by_cases same : j = i
    · subst same
      simp only [Function.update_self] at brings
      exact brings
    · simpa only [Function.update_of_ne same] using brings
  | entered i idle enters =>
    by_cases same : j = i
    · subst same
      simp only [Function.update_self] at brings
      obtain ⟨doc,own,payload⟩ := brings
      subst own
      exact ⟨_,j,doc,_,origins.run,whole,payload,.refl⟩
    · simp only [Function.update_of_ne same] at brings
      exact brought_later whole (origins.jobs j p brings)
  | crashed down => exact brought_later whole (origins.jobs j p brings)

theorem origins_step (ruled : (rules cfg).Ruled c.2) (step : (bridge cfg).Step c act d) (origins : Origins cfg c) :
    Origins cfg d := by
  refine ⟨origins.run.tail ⟨act,trivial,step⟩,origins_jobs step origins,?_,?_⟩
  · intro state jobId ns resource at_ found
    rcases step_asks ruled step with ⟨i,q,r,outside,asked,served,backed⟩ | ⟨_,stores⟩
    · have change := flow_change served state
      generalize before : c.1.pending.lookup state = old at change
      generalize d.1.pending.lookup state = new at change found
      cases change with
      | same => exact broughtFor_later step (origins.pending state jobId ns resource at_ (before.trans found))
      | put flow =>
        cases found
        obtain ⟨p,target,brings,rest⟩ := backed
        exact ⟨p,target,brought_later step (origins.jobs i p brings),rest⟩
      | taken => cases found
      | deleted _ => cases found
    · rw [stores.pending] at found
      exact broughtFor_later step (origins.pending state jobId ns resource at_ found)
  · intro j state jobId ns resource at_ heard
    rcases step_seen step j with ⟨q,r,asked,seen,_⟩ | gone | same
    · rw [seen] at heard
      cases heard with
      | head =>
        subst asked
        cases step with
        | asked _ asks served =>
          obtain ⟨outside,answered⟩ := served
          have told := (Prod.mk.inj (Option.some.inj answered)).1
          exact broughtFor_later (.asked j asks ⟨outside,answered⟩) (origins.pending state jobId ns resource at_ told)
      | tail _ before => exact broughtFor_later step (origins.taken j state jobId ns resource at_ before)
    · rw [gone] at heard
      cases heard
    · rw [same] at heard
      exact broughtFor_later step (origins.taken j state jobId ns resource at_ heard)

theorem origins_fresh (cfg : Cfg) : Origins cfg fresh where
  run := .refl
  jobs := fun _ _ brings => nomatch brings.choose_spec.1
  pending := fun _ _ _ _ _ found => (nomatch found)
  taken := fun _ _ _ _ _ _ heard => (nomatch heard)

theorem orphans_law (ruled : (rules cfg).Ruled c.2) (step : (bridge cfg).Step c act d) (found : c.1.namespaces.lookup ns = some n)
    (bound : n.state = .bound) (orphan : d.1.orphan ns) :
    ∃ i at_ r thread entries e p, act = .asked i (.orphan ns at_) r ∧
      (c.2 i).handler = .refusal unknownNamespaceCode (some thread) ∧ First (c.2 i).seen .listEntries entries ∧
      threaded thread entries = some e ∧ e.2.content = .event p ∧ p.ns = ns := by
  have open_ : ¬ c.1.orphan ns := fun ⟨m,there,state⟩ => by
    cases found.symm.trans there
    cases bound.symm.trans state
  rcases step_asks ruled step with ⟨i,q,r,outside,asked,served,backed⟩ | ⟨_,stores⟩
  · rcases orphan_before backed served orphan with was | ⟨at_,rfl⟩
    · exact absurd was open_
    · obtain ⟨thread,entries,e,p,rest⟩ := backed.entry
      exact ⟨i,at_,r,thread,entries,e,p,asked,rest⟩
  · exact absurd (by simpa only [World.orphan,stores.namespaces] using orphan) open_

theorem silent_law {i : Nat} (ruled : (rules cfg).Ruled c.2) (good : Quieted c)
    (step : (bridge cfg).Step c (.asked i q r) d) (announces : q.announces = some ns) : ¬ c.1.orphan ns := by
  have mine := live_asked step
  rcases step_asks ruled step with ⟨j,q',r',outside,asked,served,backed⟩ | ⟨silent,_⟩
  · cases asked
    refine good.pass i ns ⟨mine,?_⟩
    cases q with
    | putEntry key e =>
      obtain ⟨_,p,content,passed⟩ := backed
      simp only [Query.announces,content,Content.ns,Option.some.injEq] at announces
      rwa [← announces]
    | newEntry key e =>
      obtain ⟨_,_,_,_,_,_,_,content⟩ := backed
      simp [Query.announces,content,Content.ns] at announces
    | refreshEntry key p =>
      cases announces
      exact backed.2
    | send content =>
      cases content with
      | result p => cases announces
      | event p =>
        cases announces
        exact backed.2 p rfl
    | _ => cases announces
  · exact absurd rfl (silent i q r)

theorem returns_law (ruled : (rules cfg).Ruled c.2) (origins : Origins cfg c) (step : (bridge cfg).Step c act d)
    (orphan : c.1.orphan ns) (found : d.1.namespaces.lookup ns = some n) (bound : n.state = .bound) :
    (∃ i r p, act = .asked i (.unorphan ns) r ∧ (c.2 i).handler.brings p ∧ p.ns = ns ∧ Brought cfg c p) ∨
    (∃ i r host owner state jobId resource at_, act = .asked i (.putNamespace ns n) r ∧
      (c.2 i).handler = .bindCallback host owner state ∧
      Heard (c.2 i).seen (.takeFlow state) (some (.bind jobId ns resource at_)) ∧ BroughtFor cfg c jobId ns) := by
  obtain ⟨old,there,state⟩ := orphan
  rcases step_asks ruled step with ⟨i,q,r,outside,asked,served,backed⟩ | ⟨_,stores⟩
  · have change := namespace_change served ns
    rw [there] at change
    generalize d.1.namespaces.lookup ns = new at change found
    cases change with
    | same =>
      cases found
      cases state.symm.trans bound
    | put record =>
      cases found
      obtain ⟨host,owner,flow,jobId,resource,at_,own,heard⟩ := backed.flow
      exact .inr ⟨i,r,host,owner,flow,jobId,resource,at_,asked,own,heard,origins.taken i flow jobId ns resource at_ heard⟩
    | orphans at_ =>
      cases found
      have still := (orphaned_state at_ old).mpr (.inr state)
      cases still.symm.trans bound
    | returns =>
      obtain ⟨p,brings,same⟩ := backed
      exact .inl ⟨i,r,p,asked,brings,same,origins.jobs i p brings⟩
    | adjusts change | warns at_ =>
      cases found
      cases state.symm.trans bound
    | deleted => cases found
  · rw [stores.namespaces,there] at found
    cases found
    cases state.symm.trans bound

theorem forgets_law {i : Nat} {r : Bool} (ruled : (rules cfg).Ruled c.2) (good : Quieted c)
    (step : (bridge cfg).Step c (.asked i (.deleteNamespace ns) r) d) (forgets : (c.2 i).handler.forgets)
    (found : c.1.namespaces.lookup ns = some n) : n.state = .orphaned := by
  have mine := live_asked step
  rcases step_asks ruled step with ⟨j,q,r',outside,asked,served,backed⟩ | ⟨silent,_⟩
  · cases asked
    rcases backed with ⟨other,_⟩ | ⟨_,keys,doomed⟩
    · rw [forgets] at other
      cases other
    · exact good.doomed i ns keys ⟨mine,forgets,doomed⟩ n found
  · exact absurd rfl (silent i (.deleteNamespace ns) r)

theorem spares_law {i : Nat} (ruled : (rules cfg).Ruled c.2) (good : Quieted c)
    (step : (bridge cfg).Step c (.asked i q r) d) :
    (∀ ns at_, q = .orphan ns at_ → SparesOthers ns c.1 d.1) ∧
    ((c.2 i).handler.forgets → (∃ ns, q = .deleteNamespace ns) ∨ (∃ key, q = .deleteRepo key) →
      ∃ ns keys, doom (c.2 i).seen = some (ns,keys) ∧ SparesOthers ns c.1 d.1) := by
  have mine := live_asked step
  rcases step_asks ruled step with ⟨j,q',r',outside,asked,served,backed⟩ | ⟨silent,_⟩
  · cases asked
    refine ⟨fun ns at_ asked => ?_,fun forgets deletes => ?_⟩
    · subst asked
      have world := (Prod.mk.inj (Option.some.inj served)).2
      rw [← world]
      exact ⟨fun other apart => Table.lookup_update_ne _ _ apart,fun key record found _ => found⟩
    · rcases deletes with ⟨ns,rfl⟩ | ⟨key,rfl⟩
      · have world := (Prod.mk.inj (Option.some.inj served)).2
        rw [← world]
        rcases backed with ⟨other,_⟩ | ⟨_,keys,doomed⟩
        · rw [forgets] at other
          cases other
        · refine ⟨ns,keys,doomed,fun other apart => ?_,fun key record found _ => found⟩
          simp only [lookup_erase',if_neg apart]
      · have world := (Prod.mk.inj (Option.some.inj served)).2
        rw [← world]
        obtain ⟨_,ns,keys,doomed,inside⟩ := backed
        refine ⟨ns,keys,doomed,fun _ _ => rfl,fun other record found apart => ?_⟩
        simp only [lookup_erase']
        split
        · rename_i same
          subst same
          exact absurd (good.listed i ns keys ⟨mine,forgets,doomed⟩ other inside record found) apart
        · exact found
  · exact absurd rfl (silent i q r)

end

-- In a run where no check of a namespace's state is overtaken by what it is for,
-- every step keeps the law of orphans.
theorem orphan_law (cfg : Cfg) (c d : State) (act : Act Handler Query Query.Answer)
    (run : (bridge cfg).Run Checked fresh c) (step : (bridge cfg).Step c act d) : OrphanLaw cfg c act d := by
  have start : Quieted fresh :=
    ⟨fun _ _ passes => (nomatch passes.2),fun _ _ _ doomed => (nomatch doomed.2.2),fun _ _ _ doomed => (nomatch doomed.2.2)⟩
  obtain ⟨ruled,good,origins⟩ := run_keeps (rules cfg) (I := fun c => Quieted c ∧ Origins cfg c)
    (fun c act d ruled fits step both => ⟨quieted_step ruled fits step both.1,origins_step ruled step both.2⟩) run
    (ruled_fresh cfg) ⟨start,origins_fresh cfg⟩
  refine ⟨fun ns n found bound orphan => orphans_law ruled step found bound orphan,fun i q r ns asked announces => ?_,
    fun ns n orphan found bound => returns_law ruled origins step orphan found bound,fun i ns r asked forgets n found => ?_,
    fun i q r asked => ?_⟩
  · subst asked
    exact silent_law ruled good step announces
  · subst asked
    exact forgets_law ruled good step forgets found
  · subst asked
    exact spares_law ruled good step

namespace Sample

-- `n1` is bound, and its `bindCompleted` was sent as the document `[4]`.
def boundN1 : List (Move Handler ((q : Query) → q.Answer)) :=
  whole 0 .restore (calm [9]) ++ whole 0 (.job (bindJob j1 n1 acme)) (calm [1]) ++
  whole 0 (.bindCallback (ascii "h") none [1]) (calm [4])

def stateOf (ns : Bytes) (c : State) : Option Governance.NamespaceState := (c.1.namespaces.lookup ns).map (·.state)

theorem stateOf_record {ns : Bytes} {c : State} {state : Governance.NamespaceState} (there : stateOf ns c = some state) :
    ∃ n, c.1.namespaces.lookup ns = some n ∧ n.state = state := Option.map_eq_some_iff.mp there

def checked (c : State) : Act Handler Query Query.Answer → Bool
  | .asked _ (.orphan ns _) _ => pass (c.2 0).seen ≠ some ns
  | .asked _ (.unorphan _) _ | .asked _ (.putNamespace _ _) _ | .asked _ (.newNamespace _ _) _ => !(c.2 0).handler.forgets
  | .asked _ (.moveRepo _ _) _ | .asked _ (.setRepo _ _) _ => false
  | _ => true

theorem checked_kind (c : State) (act : Act Handler Query Query.Answer) (idle : Idle .restore 1 c)
    (fits : act.below 1 && checked c act) : Checked c act := by
  obtain ⟨_,fits⟩ := Bool.and_eq_true_iff.mp fits
  have asleep : ∀ j, 1 ≤ j → ¬ live c j := by
    intro j above ⟨q,next,asks⟩
    rw [idle j above] at asks
    cases asks
  have nobody : (c.2 0).handler.forgets = false → ∀ j ns keys, ¬ forgetting c j ns keys := by
    intro other j ns keys doomed
    cases j with
    | zero =>
      have mine := doomed.2.1
      rw [other] at mine
      cases mine
    | succ j => exact asleep (j + 1) (by omega) doomed.1
  cases act with
  | asked i q r =>
    cases q with
    | orphan ns at_ =>
      intro j passes
      cases j with
      | zero => simp [checked,passes.2] at fits
      | succ j => exact asleep (j + 1) (by omega) passes.1
    | unorphan ns | putNamespace ns n | newNamespace ns n =>
      exact fun j keys => nobody (by simpa [checked] using fits) j ns keys
    | moveRepo _ _ | setRepo _ _ => cases fits
    | _ => trivial
  | entered _ _ | abandoned _ | crashed => trivial

-- A refusal of that event orphans it.
theorem orphan_law_refusal : ∃ (c d : State) (act : Act Handler Query Query.Answer),
    stateOf n1 c = some .bound ∧ stateOf n1 d = some .orphaned ∧ OrphanLaw {} c act d := by
  obtain ⟨c,q,r,d,run,_,step,before,after⟩ := played_step (bridge_plays {}) (fun c act => act.below 1 && checked c act) fresh
    (boundN1 ++ [.enter 0 (.refusal unknownNamespaceCode (some [4])),.finish 0 3 (calm [8])]) 0 (calm [8])
    (stateOf n1) (stateOf n1) (some .bound,some .orphaned) (by decide)
  have good := (run_under (fun _ _ _ fits step idle => idle_step (Bool.and_eq_true_iff.mp fits).1 step idle)
    (fun c act idle fits => checked_kind c act idle fits) run (fresh_idle 1)).1
  exact ⟨c,d,_,before,after,orphan_law {} c d _ good step⟩

def asksFor (c : State) (i : Nat) : Option Bytes :=
  match (c.2 i).prog with
  | .call q _ => q.announces
  | .done _ => none

-- An event whose check came before the refusal is queued after it.
theorem event_overtakes_orphan : ¬ ∀ (cfg : Cfg) (c d : State) (act : Act Handler Query Query.Answer),
    (bridge cfg).Run (fun _ _ => True) fresh c → (bridge cfg).Step c act d → OrphanLaw cfg c act d := by
  intro claim
  obtain ⟨c,q,r,d,run,_,step,before,_⟩ := played_step (bridge_plays {}) (fun _ _ => true) fresh
    (boundN1 ++ [.enter 1 (.work n1 [.event (.other [] []) []]),.ask 1 (calm [7])] ++
      whole 0 (.refusal unknownNamespaceCode (some [4])) (calm [8]) ++ [.finish 1 4 (calm [7])]) 1 (calm [7])
    (fun c => (stateOf n1 c,asksFor c 1)) (fun _ => ()) ((some .orphaned,some n1),()) (by decide)
  obtain ⟨orphan,asks⟩ := Prod.mk.inj before
  have announces : q.announces = some n1 := by
    cases step with
    | asked _ asking _ => simpa only [asksFor,asking] using asks
  exact (claim {} c d _ (run_weaken (fun _ _ _ => trivial) run) step).silent 1 q r n1 rfl announces (stateOf_record orphan)

end Sample

end VerifiableGit.Service
