import VerifiableGit.Governance.Events

-- What a delivery for one owner leaves of another owner's namespace.
namespace VerifiableGit.Governance
open Text Library

-- Records stand under their own keys.
structure Keyed (s : Store) : Prop where
  records : ∀ key r, s.repos.lookup key = some r → r.key = key
  namespaces : ∀ ns n, s.namespaces.lookup ns = some n → n.id = ns

theorem Keyed.empty : Keyed {} where
  records := fun key _ found => absurd ((AList.lookup_empty key).symm.trans found) nofun
  namespaces := fun ns _ found => absurd ((AList.lookup_empty ns).symm.trans found) nofun

theorem Keyed.put {s : Store} (h : Keyed s) (r : RepoRecord) : Keyed { s with repos := s.repos.insert r.key r } where
  records := fun key x found => by
    by_cases here : key = r.key
    · subst here
      cases (AList.lookup_insert s.repos).symm.trans found
      rfl
    · exact h.records key x ((AList.lookup_insert_ne here).symm.trans found)
  namespaces := h.namespaces

theorem Keyed.bind {s : Store} (h : Keyed s) (n : NamespaceRecord) :
    Keyed { s with namespaces := s.namespaces.insert n.id n } where
  records := h.records
  namespaces := fun ns x found => by
    by_cases here : ns = n.id
    · subst here
      cases (AList.lookup_insert s.namespaces).symm.trans found
      rfl
    · exact h.namespaces ns x ((AList.lookup_insert_ne here).symm.trans found)

-- Nothing is new: what is in the tables was there before, though repositories
-- may have been renamed and managed sets become smaller.
structure Stems (s t : Store) : Prop where
  records : ∀ key r, t.repos.lookup key = some r → r.key = key ∧ ∃ old, s.repos.lookup key = some old ∧ old.ns = r.ns
  namespaces : ∀ ns n, t.namespaces.lookup ns = some n → ∃ old, s.namespaces.lookup ns = some old ∧
    old.id = n.id ∧ old.resource = n.resource ∧ n.managed ⊆ old.managed

-- A namespace seen from a scope it is not in, the namespaces in that scope, and
-- the repositories excepted: those whose move out of the namespace is confirmed,
-- those an inspection finds, and those of the scope's own namespaces.
structure View where
  scope : Scope
  ns : Bytes
  ours : Bytes → Prop
  moved : RepoKey → Prop
  inspected : RepoKey → Prop
  shared : RepoKey → Prop

structure Outside (v : View) (s : Store) : Prop where
  keyed : Keyed s
  apart : ¬v.ours v.ns
  within : ∀ ns n, s.namespaces.lookup ns = some n → (v.scope.covers n.resource = true ↔ v.ours ns)
  shared : ∀ key r, s.repos.lookup key = some r → v.ours r.ns → v.shared key

structure Spares (v : View) (s t : Store) : Prop where
  stems : Stems s t
  kept : ∀ key r, s.repos.lookup key = some r → r.ns = v.ns → ¬v.moved key →
    ∃ r', t.repos.lookup key = some r' ∧ r'.ns = v.ns
  records : ∀ key r, s.repos.lookup key = some r → r.ns = v.ns → ¬v.moved key → ¬v.inspected key →
    t.repos.lookup key = some r
  managed : ∀ n, s.namespaces.lookup v.ns = some n → ∃ n', t.namespaces.lookup v.ns = some n' ∧
    ∀ forgeId ∈ n.managed, ¬v.moved (n.resource.host,forgeId) → ¬v.shared (n.resource.host,forgeId) → forgeId ∈ n'.managed
  ledgers : ∀ key r, s.repos.lookup key = some r → r.ns = v.ns → ¬v.moved key → ∀ branch,
    Resign.ledgerPrefix key.1 key.2 <+: branch → t.branches.lookup branch = s.branches.lookup branch

theorem Outside.later {v : View} {s t : Store} (h : Outside v s) (stems : Stems s t) : Outside v t where
  keyed := {
    records := fun key r found => (stems.records key r found).1
    namespaces := fun ns n found => by
      obtain ⟨old,was,same,_⟩ := stems.namespaces ns n found
      rw [← same]
      exact h.keyed.namespaces ns old was }
  apart := h.apart
  within := fun ns n found => by
    obtain ⟨old,was,_,same,_⟩ := stems.namespaces ns n found
    exact same ▸ h.within ns old was
  shared := fun key r found ours => by
    obtain ⟨_,old,was,same⟩ := stems.records key r found
    exact h.shared key old was (same ▸ ours)

theorem Stems.refl {s : Store} (h : Keyed s) : Stems s s where
  records := fun key r found => ⟨h.records key r found,r,found,rfl⟩
  namespaces := fun _ n found => ⟨n,found,rfl,rfl,fun _ => id⟩

theorem Stems.trans {s t u : Store} (one : Stems s t) (two : Stems t u) : Stems s u where
  records := fun key r found => by
    obtain ⟨own,mid,was,same⟩ := two.records key r found
    obtain ⟨_,old,first,same'⟩ := one.records key mid was
    exact ⟨own,old,first,same'.trans same⟩
  namespaces := fun ns n found => by
    obtain ⟨mid,was,ids,sameRes,less⟩ := two.namespaces ns n found
    obtain ⟨old,first,ids',sameRes',less'⟩ := one.namespaces ns mid was
    exact ⟨old,first,ids'.trans ids,sameRes'.trans sameRes,less.trans less'⟩

-- The tables are the same; events sent and deliveries seen are no one's.
theorem Spares.same {v : View} {s t : Store} (h : Keyed s) (repos : t.repos = s.repos)
    (namespaces : t.namespaces = s.namespaces) (branches : t.branches = s.branches) : Spares v s t where
  stems := by
    have stems := Stems.refl h
    exact ⟨fun key r found => stems.records key r (repos ▸ found),fun ns n found => stems.namespaces ns n (namespaces ▸ found)⟩
  kept := fun key r found ours _ => ⟨r,repos ▸ found,ours⟩
  records := fun key r found _ _ _ => repos ▸ found
  managed := fun n found => ⟨n,namespaces ▸ found,fun _ member _ _ => member⟩
  ledgers := fun _ _ _ _ _ branch _ => by rw [branches]

theorem Spares.refl {v : View} {s : Store} (h : Keyed s) : Spares v s s := .same h rfl rfl rfl

theorem Spares.trans {v : View} {s t u : Store} (one : Spares v s t) (two : Spares v t u) : Spares v s u where
  stems := one.stems.trans two.stems
  kept := fun key r found ours still => by
    obtain ⟨mid,was,same⟩ := one.kept key r found ours still
    exact two.kept key mid was same still
  records := fun key r found ours still unseen =>
    two.records key r (one.records key r found ours still unseen) ours still unseen
  managed := fun n found => by
    obtain ⟨mid,was,first⟩ := one.managed n found
    obtain ⟨n',now,second⟩ := two.managed mid was
    obtain ⟨old,before,_,sameRes,_⟩ := one.stems.namespaces v.ns mid was
    have same : n.resource = mid.resource := by
      rw [found] at before
      cases before
      exact sameRes
    refine ⟨n',now,fun forgeId member still apart => ?_⟩
    exact second forgeId (first forgeId member still apart) (same ▸ still) (same ▸ apart)
  ledgers := fun key r found ours still branch start => by
    obtain ⟨mid,was,same⟩ := one.kept key r found ours still
    exact (two.ledgers key mid was same still branch start).trans (one.ledgers key r found ours still branch start)

theorem Spares.andThen {v : View} {s t u : Store} (one : Spares v s t) (h : Outside v s)
    (two : Outside v t → Spares v t u) : Spares v s u :=
  one.trans (two (h.later one.stems))

theorem report_spares {v : View} {s : Store} (h : Outside v s) (ns : Bytes) (event : Sent) :
    Spares v s (s.report ns event) := .same h.keyed rfl rfl rfl

theorem foldl_spares {v : View} {α : Type} (f : Store → α → Store) (items : List α) (s : Store) (h : Outside v s)
    (each : ∀ t item, item ∈ items → Stems s t → Outside v t → Spares v t (f t item)) : Spares v s (items.foldl f s) := by
  induction items generalizing s with
  | nil => exact .refl h.keyed
  | cons item rest ih =>
    have first := each s item List.mem_cons_self (.refl h.keyed) h
    have next := h.later first.stems
    refine first.trans (ih (f s item) next fun t other member stems outside => ?_)
    exact each t other (List.mem_cons_of_mem _ member) (first.stems.trans stems) outside

/-! Detaching -/

section

variable {v : View} {s : Store}

theorem detach_namespaces (host : Bytes) (forgeId : Nat) (ns : Bytes) :
    (s.detach host forgeId).namespaces.lookup ns = (s.namespaces.lookup ns).map fun n =>
      if n.resource.host = host then unmanage forgeId n else n := by
  have again : ∀ w : Option NamespaceRecord, (w.map (unmanage forgeId)).map (unmanage forgeId) = w.map (unmanage forgeId) := by
    intro w
    cases w with
    | none => rfl
    | some n => simp only [Option.map_some,unmanage,Finset.erase_idem]
  simp only [Store.detach,Table.lookup_eachWhere _ _ again]
  cases found : s.namespaces.lookup ns with
  | none => simp
  | some n =>
    by_cases here : n.resource.host = host
    · by_cases member : forgeId ∈ n.managed
      · simp [here,member]
      · simp [here,member,unmanage,Finset.erase_eq_of_notMem]
    · simp [here]

theorem detach_stems (h : Keyed s) (host : Bytes) (forgeId : Nat) : Stems s (s.detach host forgeId) where
  records := fun key r found => by
    have before : s.repos.lookup key = some r := by
      by_cases here : key = (host,forgeId)
      · subst here
        exact absurd ((AList.lookup_erase (host,forgeId) s.repos).symm.trans found) nofun
      · exact (AList.lookup_erase_ne here).symm.trans found
    exact ⟨h.records key r before,r,before,rfl⟩
  namespaces := fun ns n found => by
    rw [detach_namespaces] at found
    obtain ⟨old,was,rfl⟩ := Option.map_eq_some_iff.mp found
    refine ⟨old,was,?_⟩
    split
    · exact ⟨rfl,rfl,Finset.erase_subset _ _⟩
    · exact ⟨rfl,rfl,fun _ => id⟩

-- Detaching a repository spares a namespace that does not record it.
theorem detach_spares (h : Keyed s) (host : Bytes) (forgeId : Nat)
    (record : v.moved (host,forgeId) ∨ ∀ r, s.repos.lookup (host,forgeId) = some r → r.ns ≠ v.ns)
    (managed : v.moved (host,forgeId) ∨ v.shared (host,forgeId) ∨
      ∀ n, s.namespaces.lookup v.ns = some n → n.resource.host = host → forgeId ∉ n.managed)
    (plain : Resign.hash ∉ host) : Spares v s (s.detach host forgeId) := by
  have other : ∀ key r, s.repos.lookup key = some r → r.ns = v.ns → ¬v.moved key → key ≠ (host,forgeId) := by
    intro key r found ours still eq
    subst eq
    cases record with
    | inl moved => exact still moved
    | inr theirs => exact theirs r found ours
  have same : ∀ key r, s.repos.lookup key = some r → r.ns = v.ns → ¬v.moved key →
      (s.detach host forgeId).repos.lookup key = some r := fun key r found ours still =>
    (AList.lookup_erase_ne (other key r found ours still)).trans found
  constructor
  · exact detach_stems h host forgeId
  · exact fun key r found ours still => ⟨r,same key r found ours still,ours⟩
  · exact fun key r found ours still _ => same key r found ours still
  · intro n found
    refine ⟨if n.resource.host = host then unmanage forgeId n else n,by rw [detach_namespaces,found]; rfl,
      fun id member still apart => ?_⟩
    split
    · next here =>
      refine Finset.mem_erase.mpr ⟨fun eq => ?_,member⟩
      subst eq
      subst here
      rcases managed with moved | shared | never
      · exact still moved
      · exact apart shared
      · exact never n found rfl member
    · exact member
  · intro key r found ours still branch start
    apply Resign.detach_kept
    intro under
    have own := h.records key r found
    have keyPlain : Resign.hash ∉ key.1 := by
      rw [← own]
      exact r.resource.plain
    obtain ⟨hosts,ids⟩ := Resign.ledgerPrefix_unique key.1 host key.2 forgeId branch keyPlain plain start under
    exact other key r found ours still (Prod.ext hosts ids)

-- A repository another namespace claims is not detached.
theorem detachFrom_spares (h : Keyed s) (ns : NamespaceRecord) (forgeId : Nat) (t : Store)
    (done : s.detachFrom ns forgeId = some t) (other : v.moved (ns.resource.host,forgeId) ∨ ns.id ≠ v.ns) :
    Spares v s t := by
  unfold Store.detachFrom at done
  split at done
  · cases done
  · next unclaimed =>
    cases done
    simp only [Store.claimedElsewhere,Bool.or_eq_true,not_or] at unclaimed
    apply detach_spares h _ _ _ _ ns.resource.plain
    · refine other.imp_right fun different r found ours => unclaimed.1 ?_
      simp only [Store.record,found,Option.any_some,decide_eq_true_eq]
      exact fun eq => different (eq.symm.trans ours)
    · refine other.imp_right fun different => .inr fun n found here member => unclaimed.2 ?_
      refine List.any_eq_true.mpr ⟨n,List.mem_map.mpr ⟨_,(Table.mem_rows _ _ _).mpr found,rfl⟩,?_⟩
      have named := h.namespaces v.ns n found
      simp only [Bool.and_eq_true,decide_eq_true_eq]
      exact ⟨⟨fun eq => different (eq.symm.trans named),here⟩,member⟩

theorem detachReusedName_spares (h : Outside v s) (ns : Bytes) (resource : Resource) (forgeId : Nat)
    (ours : v.ours ns) : Spares v s (s.detachReusedName ns resource forgeId) := by
  unfold Store.detachReusedName
  apply foldl_spares _ _ _ h
  intro t r stale stems outside
  obtain ⟨listed,facts⟩ := List.mem_filter.mp stale
  simp only [Bool.and_eq_true,decide_eq_true_eq] at facts
  obtain ⟨e,row,rfl⟩ := List.mem_map.mp listed
  have found := (Table.mem_rows _ _ _).mp row
  have own := h.keyed.records _ _ found
  have key : e.1 = (resource.host,e.2.forgeId) := by rw [← own,RepoRecord.key,facts.1.2]
  have shared : v.shared (resource.host,e.2.forgeId) := key ▸ h.shared e.1 e.2 found (facts.1.1.symm ▸ ours)
  apply detach_spares outside.keyed _ _ _ (.inr (.inl shared)) resource.plain
  refine .inr fun r' now eq => ?_
  obtain ⟨_,old,was,same⟩ := stems.records _ _ now
  rw [← key,found] at was
  cases was
  exact h.apart (eq ▸ same ▸ facts.1.1.symm ▸ ours)

/-! Reporting, transfers and inspections -/

theorem namespaceIn_facts (h : Keyed s) (scope : Scope) (r : Resource) (ns : NamespaceRecord)
    (found : s.namespaceIn scope r = some ns) :
    scope.covers r = true ∧ s.namespaces.lookup ns.id = some ns ∧ scope.covers ns.resource = true ∧
      ns.resource.contains r = true := by
  unfold Store.namespaceIn at found
  split at found
  · next covered =>
    obtain ⟨passes,key,row⟩ := Table.find_row _ _ _ found
    simp only [Bool.and_eq_true,decide_eq_true_eq] at passes
    refine ⟨covered,?_,passes.2,passes.1.2⟩
    rw [h.namespaces key ns row]
    exact row
  · cases found

theorem load_facts (h : Keyed s) (setup : Setup) (ns : Bytes) (ctx : NamespaceRecord) (found : s.load setup ns = some ctx) :
    s.namespaces.lookup ns = some ctx ∧ ctx.id = ns := by
  obtain ⟨row,_⟩ := Option.filter_eq_some_iff.mp found
  exact ⟨row,h.namespaces ns ctx row⟩

theorem namespaceIn_ours (h : Outside v s) (r : Resource) (ns : NamespaceRecord)
    (found : s.namespaceIn v.scope r = some ns) : v.ours ns.id := by
  obtain ⟨_,row,covered,_⟩ := namespaceIn_facts h.keyed v.scope r ns found
  exact (h.within ns.id ns row).mp covered

theorem reportUnmanaged_spares (h : Outside v s) (ns : NamespaceRecord) (resource : Resource) (forgeId : Nat)
    (ours : v.ours ns.id) : Spares v s (s.reportUnmanaged ns resource forgeId) := by
  unfold Store.reportUnmanaged
  split
  · exact .refl h.keyed
  · exact (detachReusedName_spares h ns.id resource forgeId ours).andThen h fun outside =>
      report_spares outside ns.id _

-- Whoever takes a transferred repository in with the same owner is in scope too.
def Receives (v : View) (fromNs : NamespaceRecord) (after : Resource) : Prop :=
  ∀ r, (sameOwner fromNs).covers after = true → (sameOwner fromNs).covers r = true → v.scope.covers r = true

theorem transferredOut_spares (h : Outside v s) (fromNs : NamespaceRecord) (before after : Resource) (forgeId : Nat)
    (other : v.moved (fromNs.resource.host,forgeId) ∨ fromNs.id ≠ v.ns) (receives : Receives v fromNs after) :
    Spares v s (s.transferredOut fromNs before after forgeId) := by
  unfold Store.transferredOut
  cases done : s.detachFrom fromNs forgeId with
  | none => exact .refl h.keyed
  | some t =>
    have first := detachFrom_spares h.keyed fromNs forgeId t done other
    dsimp only
    split
    · exact first
    · refine first.andThen h fun outside => ?_
      have told := report_spares outside fromNs.id (.repoTransferred forgeId before after)
      split
      · next toNs found =>
        split
        · refine told.andThen outside fun outside => ?_
          obtain ⟨here,row,covered,_⟩ := namespaceIn_facts outside.keyed _ _ _ found
          exact reportUnmanaged_spares outside toNs after forgeId
            ((outside.within toNs.id toNs row).mp (receives toNs.resource here covered))
        · exact told
      · exact told

theorem lower_lower (b : UInt8) : lower (lower b) = lower b := by
  unfold lower
  split
  · next upper =>
    have bound : b.toNat ≤ 90 := by simpa using UInt8.le_iff_toNat_le.mp upper.2
    have small : 65 ≤ b.toNat := by simpa using UInt8.le_iff_toNat_le.mp upper.1
    rw [if_neg]
    intro both
    have again := UInt8.le_iff_toNat_le.mp both.2
    simp only [UInt8.toNat_add,UInt8.toNat_ofNat] at again
    omega
  · rfl

theorem covers_parts (scope : Scope) (r : Resource) : scope.covers r = true ↔
    r.host = scope.host ∧ ∀ owner, scope.owner = some owner → r.owner.map lower = owner.map lower := by
  unfold Scope.covers sameIgnoringCase
  cases scope.owner <;> simp

theorem sameOwner_parts (n : NamespaceRecord) (r : Resource) : (sameOwner n).covers r = true ↔
    r.host = n.resource.host ∧ r.owner.map lower = n.resource.owner.map lower := by
  rw [covers_parts]
  have same : (n.resource.owner.map lower).map lower = n.resource.owner.map lower := by
    simp [lower_lower]
  simp only [sameOwner,Option.some.injEq,forall_eq',same]

-- A scope that covers one of an owner's resources covers every other.
theorem receives_within (scope : Scope) (n : NamespaceRecord) (one r : Resource) (covered : scope.covers one = true)
    (first : (sameOwner n).covers one = true) (second : (sameOwner n).covers r = true) : scope.covers r = true := by
  rw [sameOwner_parts] at first second
  rw [covers_parts] at covered ⊢
  refine ⟨second.1.trans (first.1.symm.trans covered.1),fun owner named => ?_⟩
  exact second.2.trans (first.2.symm.trans (covered.2 owner named))

-- A namespace in scope hands over within it only.
theorem receives_own (fromNs : NamespaceRecord) (after : Resource) (covered : v.scope.covers fromNs.resource = true) :
    Receives v fromNs after :=
  fun r _ same => receives_within v.scope fromNs fromNs.resource r covered
    ((sameOwner_parts fromNs fromNs.resource).mpr ⟨rfl,rfl⟩) same

theorem contains_covered (scope : Scope) (ns r : Resource) (covered : scope.covers ns = true) (inside : ns.contains r = true) :
    scope.covers r = true := by
  simp only [Resource.contains,Bool.and_eq_true,decide_eq_true_eq] at inside
  rw [covers_parts] at covered ⊢
  rw [← inside.1.1,← inside.1.2]
  exact covered

-- Rewriting a record in place.
theorem updateRecord_spares (h : Keyed s) (key : RepoKey) (f : RepoRecord → RepoRecord)
    (place : ∀ r, s.repos.lookup key = some r → (f r).ns = r.ns ∧ (f r).key = key)
    (theirs : v.inspected key ∨ ∀ r, s.repos.lookup key = some r → r.ns ≠ v.ns ∨ f r = r) :
    Spares v s (s.updateRecord key f) := by
  have after : ∀ other, (s.updateRecord key f).repos.lookup other =
      if other = key then (s.repos.lookup key).map f else s.repos.lookup other :=
    fun other => Table.lookup_update s.repos key other _
  constructor
  · constructor
    · intro other r found
      rw [after] at found
      by_cases here : other = key
      · subst here
        rw [if_pos rfl] at found
        obtain ⟨old,was,rfl⟩ := Option.map_eq_some_iff.mp found
        exact ⟨(place old was).2,old,was,(place old was).1.symm⟩
      · rw [if_neg here] at found
        exact ⟨h.records other r found,r,found,rfl⟩
    · exact (Stems.refl h).namespaces
  · intro other r found ours _
    by_cases here : other = key
    · subst here
      exact ⟨f r,by rw [after,if_pos rfl,found]; rfl,(place r found).1.trans ours⟩
    · exact ⟨r,by rw [after,if_neg here,found],ours⟩
  · intro other r found ours _ unseen
    rw [after]
    by_cases here : other = key
    · subst here
      rw [if_pos rfl,found]
      cases theirs with
      | inl seen => exact absurd seen unseen
      | inr apart =>
        cases apart r found with
        | inl different => exact absurd ours different
        | inr same => exact congrArg some same
    · rw [if_neg here,found]
  · exact fun n found => ⟨n,found,fun _ member _ _ => member⟩
  · exact fun _ _ _ _ _ _ _ => rfl

theorem settleName_spares (h : Outside v s) (ns : NamespaceRecord) (state : RepoState) (ours : v.ours ns.id)
    (host : state.resource.host = ns.resource.host) (seen : v.inspected (ns.resource.host,state.forgeId)) :
    Spares v s (s.settleName ns state) := by
  unfold Store.settleName
  cases found : s.record ns.resource.host state.forgeId with
  | none =>
    dsimp only
    split
    · exact .refl h.keyed
    · exact (detachReusedName_spares h ns.id state.resource state.forgeId ours).andThen h fun outside =>
        reportUnmanaged_spares outside ns state.resource state.forgeId ours
  | some r =>
    have own := h.keyed.records _ r found
    dsimp only
    split
    · exact .refl h.keyed
    · refine (detachReusedName_spares h ns.id state.resource state.forgeId ours).andThen h fun outside => ?_
      refine (report_spares outside ns.id (.repoRenamed state.forgeId r.resource state.resource)).andThen outside
        fun outside => ?_
      apply updateRecord_spares outside.keyed
      · intro x there
        have place : x.forgeId = state.forgeId := congrArg Prod.snd ((outside.keyed.records _ x there).trans own)
        refine ⟨rfl,?_⟩
        rw [own]
        exact Prod.ext host place
      · exact .inl (own ▸ seen)

theorem noteDrift_spares (h : Outside v s) (ns : Bytes) (always : Bool) (r : RepoRecord) (state : RepoState)
    (judged : Judged) (enforced : Bool) (seen : v.inspected r.key) :
    Spares v s (s.noteDrift ns always r state judged enforced) := by
  have note : ∀ (t : Store) (f : RepoRecord → RepoRecord), (∀ x, (f x).ns = x.ns ∧ (f x).key = x.key) → Outside v t →
      Spares v t (t.updateRecord r.key f) := by
    intro t f still outside
    apply updateRecord_spares outside.keyed
    · exact fun x there => ⟨(still x).1,(still x).2.trans (outside.keyed.records _ x there)⟩
    · exact .inl seen
  have guarded : Spares v s (s.recordGuard r.key judged.guard) := note s _ (fun _ => ⟨rfl,rfl⟩) h
  unfold Store.noteDrift
  dsimp only
  split
  · refine guarded.andThen h fun outside => ?_
    refine (report_spares outside ns (.protectionChanged state.forgeId state.resource enforced)).andThen outside
      fun outside => ?_
    exact note _ _ (fun _ => ⟨rfl,rfl⟩) outside
  · exact guarded

theorem compare_spares (h : Outside v s) (setup : Setup) (ns : NamespaceRecord) (always : Bool) (state : RepoState)
    (seen : v.inspected (ns.resource.host,state.forgeId)) : Spares v s (s.compare setup ns always state).1 := by
  unfold Store.compare
  cases found : s.record ns.resource.host state.forgeId with
  | none => exact .refl h.keyed
  | some r =>
    have own := h.keyed.records _ r found
    exact noteDrift_spares h ns.id always r state _ _ (own ▸ seen)

theorem inspectRepo_spares (h : Outside v s) (setup : Setup) (ns : NamespaceRecord) (always : Bool) (found : ForgeRepo)
    (covered : v.scope.covers ns.resource = true) (ours : v.ours ns.id) (seen : v.inspected (ns.resource.host,found.id)) :
    Spares v s (s.inspectRepo setup ns always (repoState ns.resource found)).1 := by
  unfold Store.inspectRepo
  split
  · exact (settleName_spares h ns _ ours rfl seen).andThen h fun outside =>
      compare_spares outside setup ns always _ seen
  · have different : ns.id ≠ v.ns := fun eq => h.apart (eq ▸ ours)
    split
    · split
      · exact transferredOut_spares h ns _ _ _ (.inr different) (receives_own ns _ covered)
      · exact .refl h.keyed
    · exact .refl h.keyed

-- An answer of the forge to an inspection for a namespace in scope.
def Seen (v : View) (found : Except ForgeError ForgeRepo) : Prop :=
  ∀ repo, found = .ok repo → v.inspected (v.scope.host,repo.id)

theorem covered_host (scope : Scope) (r : Resource) (covered : scope.covers r = true) : r.host = scope.host :=
  ((covers_parts scope r).mp covered).1

theorem inspectIn_spares (h : Outside v s) (setup : Setup) (ns : NamespaceRecord) (found : Except ForgeError ForgeRepo)
    (ours : v.ours ns.id) (seen : Seen v found) : Spares v s (s.inspectIn setup ns found) := by
  unfold Store.inspectIn
  split
  · next ctx repo loaded =>
    obtain ⟨row,named⟩ := load_facts h.keyed setup ns.id ctx loaded
    have covered := (h.within ns.id ctx row).mpr ours
    apply inspectRepo_spares h setup ctx true repo covered (named.symm ▸ ours)
    rw [covered_host v.scope ctx.resource covered]
    exact seen repo rfl
  · exact .refl h.keyed

theorem sweepFrom_spares (h : Outside v s) (setup : Setup) (ns : NamespaceRecord) (always : Bool)
    (inspect : Nat → Resource → Except ForgeError ForgeRepo) (n : Nat) (items : List RepoRecord)
    (covered : v.scope.covers ns.resource = true) (ours : v.ours ns.id) (seen : ∀ n r, Seen v (inspect n r)) :
    Spares v s (sweepFrom setup ns always inspect n items s).1 := by
  induction items generalizing s n with
  | nil => exact .refl h.keyed
  | cons r rest ih =>
    unfold sweepFrom
    cases answer : inspect n r.resource with
    | error e => exact ih h (n + 1)
    | ok repo =>
      have host := covered_host v.scope ns.resource covered
      have one := inspectRepo_spares h setup ns always repo covered ours (host ▸ seen n r.resource repo answer)
      exact one.andThen h fun outside => ih outside (n + 1)

end

end VerifiableGit.Governance
