import VerifiableGit.Governance.Scoped
import VerifiableGit.Governance.Jobs

-- To which namespace a repository's record belongs, over any run of jobs and
-- deliveries.
namespace VerifiableGit.Governance
open Text Library

-- The repositories a job acts on, as far as it can be said before it runs.
def actsOn (s : Store) (ctx : NamespaceRecord) (forge : JobForge) : JobKind → List RepoKey
  | .projectRoles repo _ _ _ => ((s.forgeIdOf forge repo).toOption.map fun id => (ctx.resource.host,id)).toList
  | .createRepo repo _ _ => ((s.createdRepo ctx forge repo).toOption.map fun found => (ctx.resource.host,found.1.id)).toList
  | .bootstrap repo | .archive repo | .inspect repo =>
    ((forge.inspect 0 repo).toOption.map fun found => (ctx.resource.host,found.id)).toList
  | .sweep => sweepActed ctx forge.inspect 0 (s.sweepList ctx.id)

-- Where a job for `ns` starts: what it acts on is recorded for no other.
structure Site (ns : Bytes) (acts : RepoKey → Prop) (s : Store) : Prop where
  keyed : Keyed s
  own : ∀ key r, acts key → s.repos.lookup key = some r → r.ns = ns

-- What it may do: change those records, and remove others.
structure Works (ns : Bytes) (acts : RepoKey → Prop) (s t : Store) : Prop where
  keyed : Keyed t
  records : ∀ key r, t.repos.lookup key = some r → s.repos.lookup key = some r ∨ acts key ∧ r.ns = ns

section

variable {ns : Bytes} {acts : RepoKey → Prop} {s t u : Store}

theorem Works.refl (h : Site ns acts s) : Works ns acts s s := ⟨h.keyed,fun _ _ found => .inl found⟩

theorem Works.site (works : Works ns acts s t) (h : Site ns acts s) : Site ns acts t where
  keyed := works.keyed
  own := fun key r inside found => by
    cases works.records key r found with
    | inl old => exact h.own key r inside old
    | inr new => exact new.2

theorem Works.trans (one : Works ns acts s t) (two : Works ns acts t u) : Works ns acts s u where
  keyed := two.keyed
  records := fun key r found => by
    cases two.records key r found with
    | inl old => exact one.records key r old
    | inr new => exact .inr new

theorem Works.andThen (one : Works ns acts s t) (h : Site ns acts s) (two : Site ns acts t → Works ns acts t u) :
    Works ns acts s u := one.trans (two (one.site h))

theorem detach_works (h : Site ns acts s) (host : Bytes) (forgeId : Nat) : Works ns acts s (s.detach host forgeId) where
  keyed := {
    records := fun key r found => ((detach_stems h.keyed host forgeId).records key r found).1
    namespaces := fun id n found => by
      obtain ⟨old,was,same,_⟩ := (detach_stems h.keyed host forgeId).namespaces id n found
      exact same.symm.trans (h.keyed.namespaces id old was) }
  records := fun key r found => .inl (by
    by_cases here : key = (host,forgeId)
    · subst here
      exact absurd ((AList.lookup_erase (host,forgeId) s.repos).symm.trans found) nofun
    · exact (AList.lookup_erase_ne here).symm.trans found)

theorem report_works (h : Site ns acts s) (to_ : Bytes) (event : Sent) : Works ns acts s (s.report to_ event) :=
  ⟨⟨h.keyed.records,h.keyed.namespaces⟩,fun _ _ found => .inl found⟩

theorem detachFrom_works (h : Site ns acts s) (n : NamespaceRecord) (forgeId : Nat) (done : s.detachFrom n forgeId = some t) :
    Works ns acts s t := by
  unfold Store.detachFrom at done
  split at done
  · cases done
  · cases done
    exact detach_works h _ _

theorem detachReusedName_works (h : Site ns acts s) (n : Bytes) (resource : Resource) (forgeId : Nat) :
    Works ns acts s (s.detachReusedName n resource forgeId) := by
  unfold Store.detachReusedName
  generalize s.staleAt n resource forgeId = stale
  induction stale generalizing s with
  | nil => exact .refl h
  | cons r rest ih => exact (detach_works h resource.host r.forgeId).andThen h fun site => ih site

theorem reportUnmanaged_works (h : Site ns acts s) (n : NamespaceRecord) (resource : Resource) (forgeId : Nat) :
    Works ns acts s (s.reportUnmanaged n resource forgeId) := by
  unfold Store.reportUnmanaged
  split
  · exact .refl h
  · exact (detachReusedName_works h n.id resource forgeId).andThen h fun site => report_works site n.id _

theorem transferredOut_works (h : Site ns acts s) (fromNs : NamespaceRecord) (before after : Resource) (forgeId : Nat) :
    Works ns acts s (s.transferredOut fromNs before after forgeId) := by
  unfold Store.transferredOut
  cases done : s.detachFrom fromNs forgeId with
  | none => exact .refl h
  | some t =>
    have first := detachFrom_works h fromNs forgeId done
    dsimp only
    split
    · exact first
    · refine first.andThen h fun site => ?_
      have told := report_works site fromNs.id (.repoTransferred forgeId before after)
      split
      · next toNs _ =>
        split
        · exact told.andThen site fun site => reportUnmanaged_works site toNs after forgeId
        · exact told
      · exact told

theorem updateRecord_works (h : Site ns acts s) (key : RepoKey) (f : RepoRecord → RepoRecord)
    (place : ∀ r, s.repos.lookup key = some r → (f r).ns = r.ns ∧ (f r).key = key) (inside : acts key) :
    Works ns acts s (s.updateRecord key f) := by
  have after : ∀ other, (s.updateRecord key f).repos.lookup other =
      if other = key then (s.repos.lookup key).map f else s.repos.lookup other :=
    fun other => Table.lookup_update s.repos key other _
  have each : ∀ other r, (s.updateRecord key f).repos.lookup other = some r →
      s.repos.lookup other = some r ∨ other = key ∧ ∃ old, s.repos.lookup key = some old ∧ r = f old := by
    intro other r found
    rw [after] at found
    by_cases here : other = key
    · rw [if_pos here] at found
      obtain ⟨old,was,rfl⟩ := Option.map_eq_some_iff.mp found
      exact .inr ⟨here,old,was,rfl⟩
    · rw [if_neg here] at found
      exact .inl found
  constructor
  · refine ⟨fun other r found => ?_,h.keyed.namespaces⟩
    cases each other r found with
    | inl old => exact h.keyed.records other r old
    | inr new =>
      obtain ⟨rfl,old,was,rfl⟩ := new
      exact (place old was).2
  · intro other r found
    refine (each other r found).imp_right fun new => ?_
    obtain ⟨rfl,old,was,rfl⟩ := new
    exact ⟨inside,(place old was).1.trans (h.own other old inside was)⟩

theorem settleName_works (h : Site ns acts s) (n : NamespaceRecord) (state : RepoState)
    (host : state.resource.host = n.resource.host) (inside : acts (n.resource.host,state.forgeId)) :
    Works ns acts s (s.settleName n state) := by
  unfold Store.settleName
  cases found : s.record n.resource.host state.forgeId with
  | none =>
    dsimp only
    split
    · exact .refl h
    · exact (detachReusedName_works h n.id state.resource state.forgeId).andThen h fun site =>
        reportUnmanaged_works site n state.resource state.forgeId
  | some r =>
    have own := h.keyed.records _ r found
    dsimp only
    split
    · exact .refl h
    · refine (detachReusedName_works h n.id state.resource state.forgeId).andThen h fun site => ?_
      refine (report_works site n.id (.repoRenamed state.forgeId r.resource state.resource)).andThen site fun site => ?_
      apply updateRecord_works site _ _ _ (own ▸ inside)
      intro x there
      have place : x.forgeId = state.forgeId := congrArg Prod.snd ((site.keyed.records _ x there).trans own)
      refine ⟨rfl,?_⟩
      rw [own]
      exact Prod.ext host place

theorem noteDrift_works (h : Site ns acts s) (n : Bytes) (always : Bool) (r : RepoRecord) (state : RepoState)
    (judged : Judged) (enforced : Bool) (inside : acts r.key) :
    Works ns acts s (s.noteDrift n always r state judged enforced) := by
  have note : ∀ (t : Store) (f : RepoRecord → RepoRecord), (∀ x, (f x).ns = x.ns ∧ (f x).key = x.key) →
      Site ns acts t → Works ns acts t (t.updateRecord r.key f) := fun t f still site =>
    updateRecord_works site r.key f (fun x there => ⟨(still x).1,(still x).2.trans (site.keyed.records _ x there)⟩) inside
  have guarded : Works ns acts s (s.recordGuard r.key judged.guard) := note s _ (fun _ => ⟨rfl,rfl⟩) h
  unfold Store.noteDrift
  dsimp only
  split
  · refine guarded.andThen h fun site => ?_
    refine (report_works site n (.protectionChanged state.forgeId state.resource enforced)).andThen site fun site => ?_
    exact note _ _ (fun _ => ⟨rfl,rfl⟩) site
  · exact guarded

-- A record an inspection compares with is one the job acts on.
theorem inspectRepo_works (h : Site ns acts s) (setup : Setup) (n : NamespaceRecord) (always : Bool) (found : ForgeRepo)
    (inside : acts (n.resource.host,found.id)) :
    Works ns acts s (s.inspectRepo setup n always (repoState n.resource found)).1 ∧
      ∀ compared r, (s.inspectRepo setup n always (repoState n.resource found)).2 = some compared →
        compared.record = some r → r.ns = ns ∧ acts r.key := by
  unfold Store.inspectRepo
  split
  · have settled := settleName_works h n (repoState n.resource found) rfl inside
    have site := settled.site h
    refine ⟨?_,?_⟩
    · refine settled.trans ?_
      unfold Store.compare
      cases recorded : (s.settleName n (repoState n.resource found)).record n.resource.host (repoState n.resource found).forgeId with
      | none => exact .refl site
      | some r =>
        have own := site.keyed.records _ r recorded
        exact noteDrift_works site n.id always r _ _ _ (own ▸ inside)
    · intro compared r eq recorded
      cases eq
      exact ⟨site.own _ r inside recorded,(site.keyed.records _ r recorded) ▸ inside⟩
  · refine ⟨?_,?_⟩
    · split
      · split
        · exact transferredOut_works h n _ _ _
        · exact .refl h
      · exact .refl h
    · intro compared r eq
      split at eq
      · split at eq <;> cases eq
      · cases eq

theorem sweepFrom_works (h : Site ns acts s) (setup : Setup) (ctx : NamespaceRecord) (always : Bool)
    (inspect : Nat → Resource → Except ForgeError ForgeRepo) (n : Nat) (items : List RepoRecord)
    (inside : ∀ key ∈ sweepActed ctx inspect n items, acts key) :
    Works ns acts s (sweepFrom setup ctx always inspect n items s).1 ∧
      ∀ compared ∈ (sweepFrom setup ctx always inspect n items s).2.1, ∀ r, compared.record = some r →
        r.ns = ns ∧ acts r.key := by
  induction items generalizing s n with
  | nil => exact ⟨.refl h,fun _ member => absurd member List.not_mem_nil⟩
  | cons item rest ih =>
    unfold sweepFrom
    unfold sweepActed at inside
    cases answer : inspect n item.resource with
    | error e =>
      rw [answer] at inside
      exact ih h (n + 1) inside
    | ok found =>
      rw [answer] at inside
      have one := inspectRepo_works h setup ctx always found (inside _ List.mem_cons_self)
      have later := ih (one.1.site h) (n + 1) fun key member => inside key (List.mem_cons_of_mem _ member)
      refine ⟨one.1.trans later.1,fun compared member r recorded => ?_⟩
      cases List.mem_append.mp member with
      | inl first => exact one.2 compared r (Option.mem_toList.mp first) recorded
      | inr other => exact later.2 compared other r recorded

-- What a job leaves by the time it has come so far.
structure Sound (ns : Bytes) (acts : RepoKey → Prop) (s : Store) (d : JobDone) : Prop where
  works : Works ns acts s d.store
  used : ∀ r ∈ d.used, r.ns = ns ∧ acts r.key

theorem manage_works (h : Site ns acts s) (ctx : NamespaceRecord) (named : ctx.id = ns) (state : RepoState)
    (owners : List ForgeAccount) (host : state.resource.host = ctx.resource.host)
    (inside : acts (ctx.resource.host,state.forgeId)) : Works ns acts s (s.manage ctx state owners) := by
  have after : ∀ key, (s.manage ctx state owners).repos.lookup key =
      if key = (ctx.resource.host,state.forgeId) then
        some (managedRecord ctx.id state.resource state.forgeId owners (s.repos.lookup (ctx.resource.host,state.forgeId)))
      else s.repos.lookup key := fun key => Table.lookup_update s.repos _ key _
  have made : (managedRecord ctx.id state.resource state.forgeId owners (s.repos.lookup (ctx.resource.host,state.forgeId))).ns = ns ∧
      (managedRecord ctx.id state.resource state.forgeId owners (s.repos.lookup (ctx.resource.host,state.forgeId))).key =
        (ctx.resource.host,state.forgeId) := by
    cases found : s.repos.lookup (ctx.resource.host,state.forgeId) with
    | none => exact ⟨named,Prod.ext host rfl⟩
    | some r =>
      have own := congrArg Prod.snd (h.keyed.records _ r found)
      exact ⟨h.own _ r inside found,Prod.ext host own⟩
  constructor
  · constructor
    · intro key r found
      rw [after] at found
      by_cases here : key = (ctx.resource.host,state.forgeId)
      · rw [if_pos here] at found
        cases found
        exact made.2.trans here.symm
      · rw [if_neg here] at found
        exact h.keyed.records key r found
    · intro id n found
      have rows : (s.manage ctx state owners).namespaces.lookup id = _ := Table.lookup_update s.namespaces ctx.id id _
      rw [rows] at found
      by_cases here : id = ctx.id
      · rw [if_pos here] at found
        obtain ⟨old,was,rfl⟩ := Option.map_eq_some_iff.mp found
        exact (h.keyed.namespaces ctx.id old was).trans here.symm
      · rw [if_neg here] at found
        exact h.keyed.namespaces id n found
  · intro key r found
    rw [after] at found
    by_cases here : key = (ctx.resource.host,state.forgeId)
    · rw [if_pos here] at found
      cases found
      exact .inr ⟨here ▸ inside,made.1⟩
    · rw [if_neg here] at found
      exact .inl found

theorem recordCheck_works (h : Site ns acts s) (setup : Setup) (ctx : NamespaceRecord) (forgeId : Nat)
    (inside : acts (ctx.resource.host,forgeId)) : Works ns acts s (s.recordCheck setup ctx forgeId) :=
  updateRecord_works h _ _ (fun r found => ⟨rfl,h.keyed.records _ r found⟩) inside

variable {d : JobDone} {ctx : NamespaceRecord}

theorem runBootstrap_sound (h : Site ns acts s) (done : Sound ns acts s d) (setup : Setup) (forge : JobForge) (forgeId : Nat)
    (inside : acts (ctx.resource.host,forgeId)) : Sound ns acts s (d.runBootstrap setup ctx forge forgeId).1 := by
  unfold JobDone.runBootstrap
  split
  · exact ⟨done.works,done.used⟩
  · dsimp only
    split
    · exact ⟨done.works,done.used⟩
    · exact ⟨done.works.andThen h fun site => recordCheck_works site setup ctx forgeId inside,done.used⟩

theorem refreshGuard_sound (h : Site ns acts s) (done : Sound ns acts s d) (setup : Setup) (forge : JobForge)
    (resource : Resource) (forgeId : Nat) (inside : acts (ctx.resource.host,forgeId)) :
    Sound ns acts s (d.refreshGuard setup ctx forge resource forgeId) := by
  unfold JobDone.refreshGuard
  split
  · exact done
  · next r found =>
    split
    · exact done
    · have site := done.works.site h
      have own := site.keyed.records _ r found
      constructor
      · exact done.works.trans (updateRecord_works site r.key _
          (fun x there => ⟨rfl,site.keyed.records _ x there⟩) (own ▸ inside))
      · intro x member
        cases List.mem_append.mp member with
        | inl before => exact done.used x before
        | inr new =>
          rw [List.mem_singleton.mp new]
          exact ⟨site.own _ r inside found,own ▸ inside⟩

-- The record `apply_roles` leaves is the one it found, or one of the job's.
theorem applyRoles_record (adapter : Adapter) (forge : RolesForge) (record : Option RepoRecord) (job : RolesJob) :
    (applyRoles adapter forge record job).record = record ∨
      ∃ appliedMap, (applyRoles adapter forge record job).record = some (recordRoles record job appliedMap) := by
  unfold applyRoles
  split
  · exact .inr ⟨_,rfl⟩
  · exact .inl rfl

theorem applyRoles_sound (h : Site ns acts s) (done : Sound ns acts s d) (adapter : Adapter) (forge : JobForge)
    (job : RolesJob) (named : job.ns = ns) (host : job.repo.host = ctx.resource.host)
    (inside : acts (ctx.resource.host,job.forgeId)) : Sound ns acts s (d.applyRoles adapter ctx forge job) := by
  have site := done.works.site h
  have made : ∀ r, (applyRoles adapter forge.roles (d.store.repos.lookup (ctx.resource.host,job.forgeId)) job).record = some r →
      r.ns = ns ∧ r.key = (ctx.resource.host,job.forgeId) := by
    intro r eq
    have known : ∀ x, d.store.repos.lookup (ctx.resource.host,job.forgeId) = some x →
        x.ns = ns ∧ x.key = (ctx.resource.host,job.forgeId) :=
      fun x found => ⟨site.own _ x inside found,site.keyed.records _ x found⟩
    cases applyRoles_record adapter forge.roles (d.store.repos.lookup (ctx.resource.host,job.forgeId)) job with
    | inl same => exact known r (same.symm.trans eq)
    | inr new =>
      obtain ⟨appliedMap,new⟩ := new
      cases new.symm.trans eq
      cases found : d.store.repos.lookup (ctx.resource.host,job.forgeId) with
      | none => exact ⟨named,Prod.ext host rfl⟩
      | some x => exact known x found
  constructor
  · refine done.works.trans ⟨⟨fun key r found => ?_,site.keyed.namespaces⟩,fun key r found => ?_⟩
    all_goals
      simp only [JobDone.applyRoles,Table.lookup_put] at found
      by_cases here : key = (ctx.resource.host,job.forgeId)
    · rw [if_pos here] at found
      exact (made r found).2.trans here.symm
    · rw [if_neg here] at found
      exact site.keyed.records key r found
    · rw [if_pos here] at found
      exact .inr ⟨here ▸ inside,(made r found).1⟩
    · rw [if_neg here] at found
      exact .inl found
  · intro r member
    cases List.mem_append.mp member with
    | inl before => exact done.used r before
    | inr new =>
      have found := Option.mem_toList.mp new
      exact ⟨site.own _ r inside found,(site.keyed.records _ r found) ▸ inside⟩

theorem idle_sound (h : Site ns acts s) (report : Report) (acted : List RepoKey) :
    Sound ns acts s { store := s, report := report, acted := acted } :=
  ⟨.refl h,fun _ member => absurd member List.not_mem_nil⟩

/-! Each kind of job -/

variable {forge : JobForge} (setup : Setup) (adapter : Adapter) (roleMap : Option RoleMap)

theorem projectRolesJob_sound (h : Site ns acts s) (named : ctx.id = ns) (repo : Resource) (desired : List RoleAssignment)
    (owners : List ForgeAccount) (removals : Removals) (host : repo.host = ctx.resource.host)
    (inside : ∀ forgeId, s.forgeIdOf forge repo = .ok forgeId → acts (ctx.resource.host,forgeId)) :
    Sound ns acts s (projectRolesJob adapter roleMap ctx forge s repo desired owners removals) := by
  unfold projectRolesJob
  split
  · exact idle_sound h _ []
  · next forgeId found =>
    exact applyRoles_sound h (idle_sound h {} _) adapter forge _ named host (inside forgeId found)

theorem rolesAfterPlan_sound (h : Site ns acts s) (job : RolesJob) (planned : JobDone × Bool)
    (done : Sound ns acts s planned.1) (named : job.ns = ns) (host : job.repo.host = ctx.resource.host)
    (inside : acts (ctx.resource.host,job.forgeId)) : Sound ns acts s (rolesAfterPlan adapter ctx forge job planned) := by
  unfold rolesAfterPlan
  split
  · exact applyRoles_sound h done adapter forge job named host inside
  · exact ⟨done.works,done.used⟩

theorem createRepoJob_sound (h : Site ns acts s) (named : ctx.id = ns) (repo : Resource) (desired : List RoleAssignment)
    (owners : List ForgeAccount)
    (inside : ∀ found status, s.createdRepo ctx forge repo = .ok (found,status) → acts (ctx.resource.host,found.id)) :
    Sound ns acts s (createRepoJob setup adapter roleMap ctx forge s repo desired owners) := by
  unfold createRepoJob
  split
  · exact idle_sound h _ []
  · next found status created =>
    have here := inside found status created
    let started : JobDone := {
      store := s.manage ctx (repoState ctx.resource found) owners
      report := StepReport.step {} (ascii "create") status none
      acted := [(ctx.resource.host,found.id)] }
    have managed : Sound ns acts s started :=
      ⟨manage_works h ctx named (repoState ctx.resource found) owners rfl here,fun _ member => absurd member List.not_mem_nil⟩
    have planned := runBootstrap_sound h managed setup forge found.id here
    apply refreshGuard_sound h _ setup forge _ found.id here
    exact rolesAfterPlan_sound adapter h _ _ planned named rfl here

theorem bootstrapJob_sound (h : Site ns acts s) (named : ctx.id = ns) (repo : Resource)
    (inside : ∀ found, forge.inspect 0 repo = .ok found → acts (ctx.resource.host,found.id)) :
    Sound ns acts s (bootstrapJob setup ctx forge s repo) := by
  unfold bootstrapJob
  split
  · exact idle_sound h _ []
  · next found answer =>
    have here := inside found answer
    apply refreshGuard_sound h _ setup forge _ found.id here
    apply runBootstrap_sound h _ setup forge found.id here
    constructor
    · exact manage_works h ctx named (repoState ctx.resource found) _ rfl here
    · intro r member
      have former := Option.mem_toList.mp member
      exact ⟨h.own _ r here former,(h.keyed.records _ r former) ▸ here⟩

theorem archiveJob_sound (h : Site ns acts s) (repo : Resource)
    (inside : ∀ found, forge.inspect 0 repo = .ok found → acts (ctx.resource.host,found.id)) :
    Sound ns acts s (archiveJob ctx forge s repo) := by
  unfold archiveJob
  split
  · exact idle_sound h _ []
  · next found answer =>
    dsimp only
    split
    · exact idle_sound h _ _
    · have archived := updateRecord_works h (ctx.resource.host,found.id) (fun r => { r with archived := true })
        (fun r there => ⟨rfl,h.keyed.records _ r there⟩) (inside found answer)
      refine ⟨⟨⟨archived.keyed.records,fun id n row => ?_⟩,archived.records⟩,fun _ member => absurd member List.not_mem_nil⟩
      rw [Table.lookup_update] at row
      by_cases own : id = ctx.id
      · rw [if_pos own] at row
        obtain ⟨old,was,rfl⟩ := Option.map_eq_some_iff.mp row
        exact (archived.keyed.namespaces ctx.id old was).trans own.symm
      · rw [if_neg own] at row
        exact archived.keyed.namespaces id n row

theorem inspectJob_sound (h : Site ns acts s) (repo : Resource)
    (inside : ∀ found, forge.inspect 0 repo = .ok found → acts (ctx.resource.host,found.id)) :
    Sound ns acts s (inspectJob setup ctx forge s repo) := by
  unfold inspectJob
  split
  · exact idle_sound h _ []
  · next found answer =>
    have inspected := inspectRepo_works h setup ctx true found (inside found answer)
    refine ⟨inspected.1,fun r member => ?_⟩
    obtain ⟨compared,eq,recorded⟩ := Option.bind_eq_some_iff.mp (Option.mem_toList.mp member)
    exact inspected.2 compared r eq recorded

theorem sweepJob_sound (h : Site ns acts s)
    (inside : ∀ key ∈ sweepActed ctx forge.inspect 0 (s.sweepList ctx.id), acts key) :
    Sound ns acts s (sweepJob setup ctx forge s) := by
  have swept := sweepFrom_works h setup ctx true forge.inspect 0 (s.sweepList ctx.id) inside
  refine ⟨swept.1,fun r member => ?_⟩
  obtain ⟨compared,listed,recorded⟩ := List.mem_filterMap.mp member
  exact swept.2 compared listed r recorded

theorem runKind_sound (kind : JobKind) (named : ctx.id = ns) (within : kind.within ctx = true)
    (h : Site ns (· ∈ actsOn s ctx forge kind) s) :
    Sound ns (· ∈ actsOn s ctx forge kind) s (runKind setup adapter roleMap ctx forge s kind) := by
  cases kind with
  | projectRoles repo desired owners removals =>
    apply projectRolesJob_sound adapter roleMap h named
    · simp only [JobKind.within,JobKind.repo,Option.all_some,Resource.contains,Bool.and_eq_true,decide_eq_true_eq] at within
      exact within.1.1.1.symm
    · intro forgeId found
      simp [actsOn,found,Except.toOption]
  | createRepo repo desired owners =>
    apply createRepoJob_sound setup adapter roleMap h named
    intro found status created
    simp [actsOn,created,Except.toOption]
  | bootstrap repo =>
    apply bootstrapJob_sound setup h named
    intro found answer
    simp [actsOn,answer,Except.toOption]
  | archive repo =>
    apply archiveJob_sound h
    intro found answer
    simp [actsOn,answer,Except.toOption]
  | inspect repo =>
    apply inspectJob_sound setup h
    intro found answer
    simp [actsOn,answer,Except.toOption]
  | sweep => exact sweepJob_sound setup h fun _ member => member

-- What a job says it acted on is what was said beforehand.
theorem runBootstrap_acted (d : JobDone) (forgeId : Nat) :
    (d.runBootstrap setup ctx forge forgeId).1.acted = d.acted := by
  unfold JobDone.runBootstrap
  split
  · rfl
  · dsimp only
    split <;> rfl

theorem rolesAfterPlan_acted (job : RolesJob) (planned : JobDone × Bool) :
    (rolesAfterPlan adapter ctx forge job planned).acted = planned.1.acted := by
  unfold rolesAfterPlan
  split <;> rfl

theorem refreshGuard_acted (d : JobDone) (resource : Resource) (forgeId : Nat) :
    (d.refreshGuard setup ctx forge resource forgeId).acted = d.acted := by
  unfold JobDone.refreshGuard
  split
  · rfl
  · split <;> rfl

theorem runKind_acted (kind : JobKind) : (runKind setup adapter roleMap ctx forge s kind).acted = actsOn s ctx forge kind := by
  cases kind with
  | projectRoles repo desired owners removals =>
    simp only [runKind,projectRolesJob,actsOn]
    cases s.forgeIdOf forge repo <;> rfl
  | createRepo repo desired owners =>
    simp only [runKind,createRepoJob,actsOn]
    cases s.createdRepo ctx forge repo with
    | error e => rfl
    | ok made =>
      simp only [refreshGuard_acted,rolesAfterPlan_acted,runBootstrap_acted]
      rfl
  | bootstrap repo =>
    simp only [runKind,bootstrapJob,actsOn]
    cases forge.inspect 0 repo with
    | error e => rfl
    | ok found => simp only [refreshGuard_acted,runBootstrap_acted]; rfl
  | archive repo =>
    simp only [runKind,archiveJob,actsOn]
    cases forge.inspect 0 repo with
    | error e => rfl
    | ok found => cases forge.archive <;> rfl
  | inspect repo =>
    simp only [runKind,inspectJob,actsOn]
    cases forge.inspect 0 repo <;> rfl
  | sweep => rfl

end

/-! Runs -/

-- What stays the same over a run.
structure Env where
  setup : Setup
  adapters : Resource → Adapter
  roleMap : Option RoleMap
  dependabot : Resource → Option Bytes

inductive GovernanceStep where
  | job (ns : Bytes) (kind : JobKind) (forge : JobForge)
  | delivery (scope : Scope) (d : Delivery) (answers : Answers) (now : Int)

-- The tables, and who wrote each record since it was made: no part of the
-- bridge's own state.
structure Written where
  store : Store
  writers : RepoKey → List Bytes

def writtenBy (ns : Bytes) (s t : Store) (writers : RepoKey → List Bytes) (key : RepoKey) : List Bytes :=
  match t.repos.lookup key with
  | none => []
  | some r =>
    if s.repos.lookup key = some r then writers key
    else if (s.repos.lookup key).isNone then [ns]
    else ns :: writers key

def stillWritten (t : Store) (writers : RepoKey → List Bytes) (key : RepoKey) : List Bytes :=
  if (t.repos.lookup key).isNone then [] else writers key

def Env.job (env : Env) (w : Written) (ns : Bytes) (kind : JobKind) (forge : JobForge) : JobDone :=
  runJob env.setup env.roleMap forge env.adapters w.store ns kind

def Env.step (env : Env) (w : Written) : GovernanceStep → Written
  | .job ns kind forge =>
    let t := (env.job w ns kind forge).store
    ⟨t,writtenBy ns w.store t w.writers⟩
  | .delivery scope d answers now =>
    let t := w.store.onWebhook env.setup answers env.dependabot now scope d
    ⟨t,stillWritten t w.writers⟩

def Env.play (env : Env) (w : Written) (run : List GovernanceStep) : Written := run.foldl env.step w

-- Every record was written by jobs of its own namespace only.
structure Belongs (w : Written) : Prop where
  keyed : Keyed w.store
  own : ∀ key r, w.store.repos.lookup key = some r → ∀ writer ∈ w.writers key, writer = r.ns
  gone : ∀ key, w.store.repos.lookup key = none → w.writers key = []

-- A job acts on no repository recorded for another namespace.
def CarefulJob (env : Env) (s : Store) : GovernanceStep → Prop
  | .job ns kind forge => ∀ ctx ∈ s.load env.setup ns,
      ∀ key ∈ actsOn s ctx forge kind, ∀ r ∈ s.repos.lookup key, r.ns = ns
  | .delivery .. => True

instance : Decidable (CarefulJob env s step) :=
  match step with
  | .job ns kind forge => inferInstanceAs (Decidable (∀ ctx ∈ s.load env.setup ns,
      ∀ key ∈ actsOn s ctx forge kind, ∀ r ∈ s.repos.lookup key, r.ns = ns))
  | .delivery .. => .isTrue trivial

def CarefulRun (env : Env) (w : Written) : List GovernanceStep → Prop
  | [] => True
  | step :: rest => CarefulJob env w.store step ∧ CarefulRun env (env.step w step) rest

instance decideRun (env : Env) (w : Written) : (run : List GovernanceStep) → Decidable (CarefulRun env w run)
  | [] => .isTrue trivial
  | step :: rest =>
    have := decideRun env (env.step w step) rest
    inferInstanceAs (Decidable (CarefulJob env w.store step ∧ CarefulRun env (env.step w step) rest))

-- What the job of `ns` used and left is `ns`'s alone.
def UsesOwn (env : Env) (w : Written) (ns : Bytes) (kind : JobKind) (forge : JobForge) : Prop :=
  (∀ r ∈ (env.job w ns kind forge).used, r.ns = ns ∧ ∀ writer ∈ w.writers r.key, writer = ns) ∧
    ∀ key ∈ (env.job w ns kind forge).acted, ∀ r, (env.job w ns kind forge).store.repos.lookup key = some r →
      r.ns = ns ∧ ∀ writer ∈ (env.step w (.job ns kind forge)).writers key, writer = ns

theorem runJob_sound (env : Env) (w : Written) (ns : Bytes) (kind : JobKind) (forge : JobForge) (keyed : Keyed w.store)
    (careful : CarefulJob env w.store (.job ns kind forge)) :
    ∃ acts, Site ns acts w.store ∧ Sound ns acts w.store (env.job w ns kind forge) ∧
      ∀ key ∈ (env.job w ns kind forge).acted, acts key := by
  have idle : ∀ report, ∃ acts, Site ns acts w.store ∧ Sound ns acts w.store { store := w.store, report := report } ∧
      ∀ key ∈ ({ store := w.store, report := report } : JobDone).acted, acts key := by
    intro report
    have site : Site ns (fun _ => False) w.store := ⟨keyed,fun _ _ never => never.elim⟩
    exact ⟨_,site,idle_sound site report [],fun _ member => absurd member List.not_mem_nil⟩
  unfold Env.job runJob
  cases loaded : w.store.load env.setup ns with
  | none => exact idle _
  | some ctx =>
    dsimp only
    split
    · next within =>
      have site : Site ns (· ∈ actsOn w.store ctx forge kind) w.store := ⟨keyed,fun key r inside => careful ctx loaded key inside r⟩
      refine ⟨_,site,?_,fun key member => ?_⟩
      · exact runKind_sound env.setup _ env.roleMap kind (load_facts keyed env.setup ns ctx loaded).2 within site
      · rwa [runKind_acted] at member
    · exact idle _

theorem job_belongs (env : Env) (w : Written) (ns : Bytes) (kind : JobKind) (forge : JobForge) (h : Belongs w)
    (careful : CarefulJob env w.store (.job ns kind forge)) :
    Belongs (env.step w (.job ns kind forge)) ∧ UsesOwn env w ns kind forge := by
  obtain ⟨acts,site,sound,inside⟩ := runJob_sound env w ns kind forge h.keyed careful
  have before : ∀ key, acts key → ∀ writer ∈ w.writers key, writer = ns := by
    intro key there writer member
    cases found : w.store.repos.lookup key with
    | none =>
      rw [h.gone key found] at member
      cases member
    | some r => exact (h.own key r found writer member).trans (site.own key r there found)
  have after : Belongs (env.step w (.job ns kind forge)) := by
    constructor
    · exact sound.works.keyed
    · intro key r found writer member
      simp only [Env.step,writtenBy] at member found
      rw [found] at member
      dsimp only at member
      by_cases same : w.store.repos.lookup key = some r
      · rw [if_pos same] at member
        exact h.own key r same writer member
      · rw [if_neg same] at member
        obtain ⟨there,mine⟩ := (sound.works.records key r found).resolve_left same
        have written : writer = ns := by
          split at member
          · exact List.mem_singleton.mp member
          · cases List.mem_cons.mp member with
            | inl new => exact new
            | inr old => exact before key there writer old
        exact written.trans mine.symm
    · intro key missing
      simp only [Env.step,writtenBy] at missing ⊢
      rw [missing]
  refine ⟨after,fun r used => ?_,fun key acted r found => ?_⟩
  · obtain ⟨mine,there⟩ := sound.used r used
    exact ⟨mine,before r.key there⟩
  · have mine : r.ns = ns := by
      cases sound.works.records key r found with
      | inl old => exact site.own key r (inside key acted) old
      | inr new => exact new.2
    exact ⟨mine,fun writer member => (after.own key r found writer member).trans mine⟩

theorem delivery_belongs (env : Env) (w : Written) (scope : Scope) (d : Delivery) (answers : Answers) (now : Int)
    (h : Belongs w) : Belongs (env.step w (.delivery scope d answers now)) := by
  have stems := onWebhook_stems h.keyed env.setup answers env.dependabot now scope d
  constructor
  · constructor
    · exact fun key r found => (stems.records key r found).1
    · intro id n found
      obtain ⟨old,was,same,_⟩ := stems.namespaces id n found
      exact same.symm.trans (h.keyed.namespaces id old was)
  · intro key r found writer member
    simp only [Env.step,stillWritten] at found member
    rw [found] at member
    obtain ⟨_,old,was,same⟩ := stems.records key r found
    exact (h.own key old was writer member).trans same
  · intro key missing
    simp only [Env.step,stillWritten] at missing ⊢
    rw [missing]
    rfl

theorem play_belongs (env : Env) (w : Written) (run rest : List GovernanceStep) (h : Belongs w)
    (careful : CarefulRun env w (run ++ rest)) : Belongs (env.play w run) ∧ CarefulRun env (env.play w run) rest := by
  induction run generalizing w with
  | nil => exact ⟨h,careful⟩
  | cons step later ih =>
    apply ih (env.step w step) _ careful.2
    cases step with
    | job ns kind forge => exact (job_belongs env w ns kind forge h careful.1).1
    | delivery scope d answers now => exact delivery_belongs env w scope d answers now h

-- Governance does not follow a repository across namespaces.
theorem governance_stays (env : Env) (w : Written) (run : List GovernanceStep) (ns : Bytes) (kind : JobKind)
    (forge : JobForge) (h : Belongs w) (careful : CarefulRun env w (run ++ [.job ns kind forge])) :
    UsesOwn env (env.play w run) ns kind forge := by
  obtain ⟨belongs,next⟩ := play_belongs env w run [.job ns kind forge] h careful
  exact (job_belongs env (env.play w run) ns kind forge belongs next.1).2

namespace Moved

open TwoOwners

def env : Env where
  setup := { setup with vgi := fun _ => some ⟨[99],1⟩ }
  adapters := fun _ => ⟨[.read,.triage,.write,.maintain,.admin],none,[]⟩
  roleMap := none
  dependabot := fun _ => none

def start : Written := ⟨spaces,fun _ => []⟩

def bob : ForgeAccount := ⟨2,[98]⟩

-- The forge shows repository 7 under `owner`.
def forge (owner : Bytes) : JobForge where
  inspect := fun _ _ => .ok { owner := owner, name := [120], id := 7 }
  create := .ok { owner := owner, name := [120], id := 7 }
  archive := .ok ()
  roles := {}
  bootstrapped := ([],none)

def created : GovernanceStep := .job [2] (.createRepo betaRepo [⟨bob,.admin⟩] [bob]) (forge [98])

theorem start_belongs : Belongs start where
  keyed := (Keyed.empty.bind (bound [1] acme ∅)).bind (bound [2] beta {7})
  own := fun key _ found => absurd ((AList.lookup_empty key).symm.trans found) nofun
  gone := fun _ _ => rfl

theorem governance_stays_sample :
    UsesOwn env (env.play start [created]) [2] (.projectRoles betaRepo [] [] {}) (forge [98]) :=
  governance_stays env start [created] [2] (.projectRoles betaRepo [] [] {}) (forge [98]) start_belongs (by
    decide)

-- Beta's repository moved to acme with no delivery: acme's bootstrap plans with
-- beta's owners, and the record stays beta's.
theorem governance_follows :
    ¬UsesOwn env (env.play start [created]) [1] (.bootstrap acmeRepo) (forge [97]) := by
  intro own
  have foreign : ∃ r ∈ (env.job (env.play start [created]) [1] (.bootstrap acmeRepo) (forge [97])).used,
      r.ns = [2] ∧ r.owners = [bob] := by decide
  obtain ⟨r,used,theirs,_⟩ := foreign
  exact absurd ((own.1 r used).1.symm.trans theirs) (by decide)

end Moved
end VerifiableGit.Governance
