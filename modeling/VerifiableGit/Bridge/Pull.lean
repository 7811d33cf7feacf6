import VerifiableGit.Bridge.World

-- What a pull takes, when it refuses, and what it leaves at every key.
namespace VerifiableGit.Bridge.Mirror
open VerifiableGit.Text

section
variable {σ β γ : Type}

-- A fold that leaves what is looked at alone, or sets it once.
theorem foldl_untouched {f : σ → β → σ} (look : σ → γ) (rows : List β)
    (same : ∀ row ∈ rows, ∀ s, look (f s row) = look s) (s : σ) : look (rows.foldl f s) = look s := by
  induction rows generalizing s with
  | nil => rfl
  | cons row rest ih =>
    rw [List.foldl_cons,ih (fun r inside => same r (List.mem_cons_of_mem _ inside))]
    exact same row List.mem_cons_self s

theorem foldl_at {f : σ → β → σ} (look : σ → γ) {before after : List β} {row : β} {x : γ}
    (sets : ∀ s, look (f s row) = x) (same : ∀ r ∈ after, ∀ s, look (f s r) = look s) (s : σ) :
    look ((before ++ row :: after).foldl f s) = x := by
  rw [List.foldl_append,List.foldl_cons,foldl_untouched look after same]
  exact sets _

theorem foldlM_all {ε : Type} {f : σ → β → Except ε σ} {g : σ → β → σ} (rows : List β)
    (good : ∀ row ∈ rows, ∀ s, f s row = .ok (g s row)) (s : σ) :
    rows.foldlM f s = .ok (rows.foldl g s) := by
  induction rows generalizing s with
  | nil => rfl
  | cons row rest ih =>
    rw [List.foldlM_cons,good row List.mem_cons_self]
    exact ih (fun r inside => good r (List.mem_cons_of_mem _ inside)) _

theorem foldlM_bad {ε : Type} {f : σ → β → Except ε σ} {rows : List β} {row : β} (inside : row ∈ rows)
    (bad : ∀ s, ∃ e, f s row = .error e) (s : σ) : ∃ e, rows.foldlM f s = .error e := by
  induction rows generalizing s with
  | nil => cases inside
  | cons first rest ih =>
    rw [List.foldlM_cons]
    rcases List.mem_cons.mp inside with here | later
    · obtain ⟨e,failed⟩ := bad s
      exact ⟨e,by rw [← here,failed]; rfl⟩
    · cases f s first with
      | error e => exact ⟨e,rfl⟩
      | ok t => exact ih later t

end

section
variable {key : Bytes}

-- One record a key: the latest of the listing are the remote's own.
theorem latest_fold (rows : List (Bytes × Record)) (found : Map Bytes Record)
    (distinct : (rows.map Prod.fst).Nodup) (new : ∀ row ∈ rows, found.lookup row.1 = none) :
    (rows.foldl newest found).lookup key = (rows.lookup key).or (found.lookup key) := by
  induction rows generalizing found with
  | nil => rfl
  | cons row rest ih =>
    obtain ⟨k,r⟩ := row
    obtain ⟨first,others⟩ := List.nodup_cons.mp distinct
    have starts : newest found (k,r) = found.insert k r := by
      simp only [newest,new (k,r) List.mem_cons_self]
    rw [List.foldl_cons,starts,ih _ others]
    · by_cases same : key = k
      · subst same
        have absent : rest.lookup key = none := by
          refine List.lookup_eq_none_iff.mpr fun p inside => ?_
          simp only [bne_iff_ne,ne_eq]
          exact fun same => first (List.mem_map.mpr ⟨p,inside,same.symm⟩)
        simp [absent]
      · have other : (key == k) = false := beq_eq_false_iff_ne.mpr same
        simp only [List.lookup_cons,other,AList.lookup_insert_ne same]
    · intro p inside
      have other : p.1 ≠ k := fun same => first (List.mem_map.mpr ⟨p,inside,same⟩)
      rw [AList.lookup_insert_ne other]
      exact new p (List.mem_cons_of_mem _ inside)

theorem lookup_rows {K V W : Type} [DecidableEq K] [BEq K] [LawfulBEq K] (rows : List (Sigma fun _ : K => V)) (f : V → W)
    (key : K) : (rows.map fun row => (row.1,f row.2)).lookup key = (rows.dlookup key).map f := by
  induction rows with
  | nil => rfl
  | cons row rest ih =>
    obtain ⟨k,v⟩ := row
    by_cases same : key = k
    · subst same
      simp
    · have other : (key == k) = false := beq_eq_false_iff_ne.mpr same
      simp only [List.map_cons,List.lookup_cons,other,ih,List.dlookup_cons_ne rest ⟨k,v⟩ same]

theorem latest_list (remote : Remote) (key : Bytes) :
    (latest remote.list.records).lookup key = (remote.entries.lookup key).map Remote.Entry.record := by
  have keys : remote.list.records.map Prod.fst = remote.entries.keys := by
    simp [Remote.list,List.map_map,Function.comp_def,AList.keys,List.keys]
  have distinct : (remote.list.records.map Prod.fst).Nodup := keys ▸ remote.entries.nodupKeys
  rw [latest,latest_fold _ _ distinct (fun _ _ => rfl)]
  simp only [AList.lookup_empty,Option.or_none]
  exact lookup_rows remote.entries.entries Remote.Entry.record key

theorem mem_inOrder {found : Map Bytes Record} {row : Sigma fun _ : Bytes => Record} :
    row ∈ inOrder found ↔ row ∈ found.entries := (List.perm_insertionSort _ _).mem_iff

theorem entry_lookup {V : Type} {m : Map Bytes V} {v : V} : Sigma.mk key v ∈ m.entries ↔ m.lookup key = some v :=
  AList.mem_lookup_iff.symm

end

theorem row_lookup {found : Map Bytes Record} {row : Sigma fun _ : Bytes => Record}
    (inside : row ∈ inOrder found) : found.lookup row.1 = some row.2 :=
  entry_lookup.mp (mem_inOrder.mp inside)

section
variable {seal_ : MasterKey} {listing : Listing} {found : Map Bytes Record} {host : Host}
variable {row : Sigma fun _ : Bytes => Record} {key : Bytes}

theorem missing_none (rows : List (Sigma fun _ : Bytes => Nat))
    (all : ∀ row ∈ rows, (found.lookup row.1).isSome) :
    rows.foldlM (pullMissing listing found) host = .ok host := by
  rw [foldlM_all (g := fun host _ => host) rows fun row inside host => by
    simp only [pullMissing,all row inside,if_true]]
  exact congrArg _ (foldl_untouched id rows (fun _ _ _ => rfl) host)

variable (host found) in
theorem missing_feed {rows : List (Sigma fun _ : Bytes => Nat)} {row : Sigma fun _ : Bytes => Nat}
    (feed : listing.mode = .feed) (inside : row ∈ rows) (gone : found.lookup row.1 = none) :
    ∃ e, rows.foldlM (pullMissing listing found) host = .error e := by
  refine foldlM_bad inside (fun host => ?_) host
  simp only [pullMissing,gone,Option.isSome_none,Bool.false_eq_true,if_false,feed,if_true]
  split <;> exact ⟨_,rfl⟩

-- A live secret of the listing opens at the version it is listed at.
def Opens (seal_ : MasterKey) (row : Sigma fun _ : Bytes => Record) : Prop :=
  ∀ name, row.1 = secretKey name → row.2.deleted = false →
    ∃ bytes, secretBytes seal_ name row.2.version row.2.value = some bytes

def adopt (seal_ : MasterKey) (host : Host) (row : Sigma fun _ : Bytes => Record) : Host :=
  match pullRecord seal_ host row with
  | .ok after => after
  | .error after => after

theorem pullRecord_opens (opens : Opens seal_ row) (host : Host) :
    pullRecord seal_ host row = .ok (adopt seal_ host row) := by
  have good : ∃ after, pullRecord seal_ host row = .ok after := by
    unfold pullRecord
    split
    · rename_i name strip
      split
      · exact ⟨_,rfl⟩
      · rename_i live
        obtain ⟨bytes,opened⟩ := opens name (strip_secret_sound strip) (Bool.eq_false_iff.mpr live)
        simp only [opened]
        exact ⟨_,rfl⟩
    · split
      · split <;> exact ⟨_,rfl⟩
      · exact ⟨_,rfl⟩
  obtain ⟨after,done⟩ := good
  simp only [adopt,done]

theorem pullRecord_closed (closed : ¬ Opens seal_ row) (host : Host) :
    ∃ e, pullRecord seal_ host row = .error e := by
  simp only [Opens,not_forall] at closed
  obtain ⟨name,same,live,unopened⟩ := closed
  have none_ : secretBytes seal_ name row.2.version row.2.value = none :=
    Option.eq_none_iff_forall_ne_some.mpr fun bytes opened => unopened ⟨bytes,opened⟩
  refine ⟨refuse host,?_⟩
  simp [pullRecord,same,strip_secretKey,live,none_]

-- When a pull from the change feed takes the listing.
structure Takes (seal_ : MasterKey) (listing : Listing) (host : Host) : Prop where
  counter : ∀ key m, host.mirrored.lookup key = some m → m ≤ listing.watermark
  records : ∀ key m, host.mirrored.lookup key = some m →
    ∃ r, (latest listing.records).lookup key = some r ∧ m ≤ r.version
  secrets : ∀ row ∈ (latest listing.records).entries, Opens seal_ row

def adopted (seal_ : MasterKey) (found : Map Bytes Record) (host : Host) : Host :=
  (inOrder found).foldl (adopt seal_) { host with versions := liveVersions found }

def pulled (seal_ : MasterKey) (found : Map Bytes Record) (host : Host) : Host :=
  (adopted seal_ found host).records.keys.foldl (pullLocal found host.mirrored)
    (adopted seal_ found host)

theorem pull_takes (takes : Takes seal_ listing host) :
    pull seal_ listing host = .ok (pulled seal_ (latest listing.records) host) := by
  have ahead : (host.mirrored.entries.any fun row => decide (listing.watermark < row.2)) = false := by
    refine List.any_eq_false.mpr fun row inside => ?_
    have below := takes.counter row.1 row.2 (entry_lookup.mp inside)
    simpa using below
  have newer : (latest listing.records).entries.any (olderThan host.mirrored) = false := by
    refine List.any_eq_false.mpr fun row inside => ?_
    cases known : host.mirrored.lookup row.1 with
    | none => simp [olderThan,known]
    | some m =>
      obtain ⟨r,there,below⟩ := takes.records row.1 m known
      cases (entry_lookup.mp inside).symm.trans there
      simpa [olderThan,known] using below
  have kept : host.mirrored.entries.foldlM (pullMissing listing (latest listing.records)) host = .ok host := by
    refine missing_none _ fun row inside => ?_
    obtain ⟨r,there,_⟩ := takes.records row.1 row.2 (entry_lookup.mp inside)
    rw [there]
    rfl
  have all := foldlM_all (g := adopt seal_) (inOrder (latest listing.records))
    (fun row inside host => pullRecord_opens (takes.secrets row (mem_inOrder.mp inside)) host)
    { host with versions := liveVersions (latest listing.records) }
  simp only [pull,ahead,Bool.false_eq_true,if_false,kept]
  show (if (latest listing.records).entries.any (olderThan host.mirrored) = true then _ else _) = _
  simp only [newer,Bool.false_eq_true,if_false,all]
  rfl

theorem pull_refuses (feed : listing.mode = .feed) (refused : ¬ Takes seal_ listing host) :
    ∃ after, pull seal_ listing host = .error after := by
  by_cases ahead : (host.mirrored.entries.any fun row => decide (listing.watermark < row.2)) = true
  · exact ⟨refuse host,by simp only [pull,ahead,if_true]⟩
  have counter : ∀ key m, host.mirrored.lookup key = some m → m ≤ listing.watermark := by
    intro key m known
    refine Nat.not_lt.mp fun behind => ahead (List.any_eq_true.mpr ⟨_,entry_lookup.mpr known,?_⟩)
    exact decide_eq_true behind
  simp only [pull,ahead,Bool.false_eq_true,if_false]
  by_cases all : ∀ row ∈ host.mirrored.entries, ((latest listing.records).lookup row.1).isSome
  · rw [missing_none _ all]
    show ∃ after, (if (latest listing.records).entries.any (olderThan host.mirrored) = true then _
      else _) = Except.error after
    by_cases older : (latest listing.records).entries.any (olderThan host.mirrored) = true
    · exact ⟨refuse host,by rw [if_pos older]⟩
    · have closed : ∃ row ∈ (latest listing.records).entries, ¬ Opens seal_ row := by
        refine Classical.byContradiction fun open_ => refused ⟨counter,?_,?_⟩
        · intro key m known
          obtain ⟨r,there⟩ := Option.isSome_iff_exists.mp (all _ (entry_lookup.mpr known))
          refine ⟨r,there,Nat.not_lt.mp fun behind => older (List.any_eq_true.mpr ⟨_,entry_lookup.mpr there,?_⟩)⟩
          simpa [olderThan,known] using behind
        · intro row inside
          exact Classical.byContradiction fun closed => open_ ⟨row,inside,closed⟩
      obtain ⟨row,inside,closed⟩ := closed
      obtain ⟨e,failed⟩ := foldlM_bad (mem_inOrder.mpr inside) (pullRecord_closed closed)
        { host with versions := liveVersions (latest listing.records) }
      refine ⟨e,?_⟩
      rw [if_neg older,failed]
      rfl
  · simp only [not_forall] at all
    obtain ⟨row,inside,gone⟩ := all
    obtain ⟨e,failed⟩ := missing_feed (latest listing.records) host feed inside
      (by simpa using gone)
    refine ⟨e,?_⟩
    rw [failed]
    rfl

theorem pull_exact (feed : listing.mode = .feed) :
    (∃ after, pull seal_ listing host = .ok after) ↔ Takes seal_ listing host := by
  constructor
  · rintro ⟨after,done⟩
    refine Classical.byContradiction fun refused => ?_
    obtain ⟨e,failed⟩ := pull_refuses feed refused
    rw [failed] at done
    cases done
  · exact fun takes => ⟨_,pull_takes takes⟩

-- What taking one row does.
inductive Adopted (seal_ : MasterKey) (host : Host) (row : Sigma fun _ : Bytes => Record) : Host → Prop
  | secret (name bytes : Bytes) (key : row.1 = secretKey name) (live : row.2.deleted = false)
      (opened : secretBytes seal_ name row.2.version row.2.value = some bytes) :
      Adopted seal_ host row
        ({ host with secrets := host.secrets.insert name bytes }.putMirror row.1 row.2.version)
  | dropped (name : Bytes) (key : row.1 = secretKey name) (deleted : row.2.deleted = true) :
      Adopted seal_ host row host
  | removed (table : Table) (name : Bytes) (key : row.1 = stateKey table name)
      (mirrored : recordIsMirrored table name) (deleted : row.2.deleted = true) :
      Adopted seal_ host row ((host.deleteCached table name).deleteMirror row.1)
  | record (table : Table) (name : Bytes) (key : row.1 = stateKey table name)
      (mirrored : recordIsMirrored table name) (live : row.2.deleted = false) :
      Adopted seal_ host row ((host.putCached table name row.2.value).putMirror row.1 row.2.version)
  | ignored (other : ∀ d : Dirty, d.isMirrored → row.1 ≠ d.remoteKey) : Adopted seal_ host row host

theorem adopt_adopted (opens : Opens seal_ row) (host : Host) :
    Adopted seal_ host row (adopt seal_ host row) := by
  have done := pullRecord_opens opens host
  generalize adopt seal_ host row = after at done ⊢
  unfold pullRecord at done
  cases strip : stripPrefix (ascii "secret/") row.1 with
  | some name =>
    have key := strip_secret_sound strip
    simp only [strip] at done
    cases deleted : row.2.deleted with
    | true =>
      simp only [deleted,if_true] at done
      cases done
      exact .dropped name key deleted
    | false =>
      obtain ⟨bytes,opened⟩ := opens name key deleted
      simp only [deleted,Bool.false_eq_true,if_false,opened] at done
      cases done
      exact .secret name bytes key deleted opened
  | none =>
    simp only [strip] at done
    cases place : parseStateKey row.1 with
    | none =>
      simp only [place] at done
      cases done
      refine .ignored fun d mirrored same => ?_
      cases d with
      | record table name =>
        rw [same,Dirty.remoteKey,parse_stateKey mirrored] at place
        cases place
      | secret name =>
        rw [same,Dirty.remoteKey,strip_secretKey] at strip
        cases strip
    | some at_ =>
      obtain ⟨table,name⟩ := at_
      obtain ⟨key,mirrored⟩ := parse_sound place
      simp only [place] at done
      cases deleted : row.2.deleted with
      | true =>
        simp only [deleted,if_true] at done
        cases done
        exact .removed table name key mirrored deleted
      | false =>
        simp only [deleted,Bool.false_eq_true,if_false] at done
        cases done
        exact .record table name key mirrored deleted

theorem adopt_other (opens : Opens seal_ row) (d : Dirty) (other : row.1 ≠ d.remoteKey) (host : Host) :
    localValue (adopt seal_ host row) d = localValue host d := by
  have step := adopt_adopted opens host
  generalize adopt seal_ host row = after at step ⊢
  cases step with
  | dropped name key deleted => rfl
  | ignored none_ => rfl
  | secret name bytes key live opened =>
    cases d with
    | record table local_ => rfl
    | secret wanted =>
      have different : wanted ≠ name := fun same => other (same ▸ key)
      simp only [localValue,Host.putMirror,AList.lookup_insert_ne different]
  | removed table name key mirrored deleted =>
    cases d with
    | secret wanted => rfl
    | record wanted local_ =>
      have different : (wanted,local_) ≠ (table,name) := by
        intro same
        cases same
        exact other key
      simp only [localValue,Host.getRaw,Host.deleteMirror,Host.deleteCached,
        AList.lookup_erase_ne different]
  | record table name key mirrored live =>
    cases d with
    | secret wanted => rfl
    | record wanted local_ =>
      have different : (wanted,local_) ≠ (table,name) := by
        intro same
        cases same
        exact other key
      simp only [localValue,Host.getRaw,Host.putMirror,Host.putCached,
        AList.lookup_insert_ne different]

-- A record is taken as it is, a tombstone drops the cached copy; a secret's
-- tombstone drops nothing, there being no cached secret.
theorem adopt_here (opens : Opens seal_ row) (d : Dirty) (here : row.1 = d.remoteKey)
    (mirrored : d.isMirrored) (host : Host) :
    localValue (adopt seal_ host row) d =
      if row.2.deleted then (match d with | .record _ _ => none | .secret _ => localValue host d)
      else some (d.content seal_ row.2.version row.2.value) := by
  have inj {e : Dirty} (key : row.1 = e.remoteKey) : d = e := remoteKey_inj (here.symm.trans key)
  have step := adopt_adopted opens host
  generalize adopt seal_ host row = after at step ⊢
  cases step with
  | ignored none_ => exact absurd here (none_ d mirrored)
  | secret name bytes key live opened =>
    cases inj (e := .secret name) key
    simp [live,localValue,Host.putMirror,Dirty.content,opened]
  | dropped name key deleted =>
    cases inj (e := .secret name) key
    simp only [deleted,if_true]
  | removed table name key _ deleted =>
    cases inj (e := .record table name) key
    simp [deleted,localValue,Host.getRaw,Host.deleteMirror,Host.deleteCached]
  | record table name key _ live =>
    cases inj (e := .record table name) key
    simp [live,localValue,Host.getRaw,Host.putMirror,Host.putCached,Dirty.content]

theorem adopt_kept (opens : Opens seal_ row) (host : Host) :
    (adopt seal_ host row).dirty = host.dirty ∧ (adopt seal_ host row).inFlight = host.inFlight ∧
      (adopt seal_ host row).versions = host.versions ∧
      (adopt seal_ host row).conflicts = host.conflicts := by
  have step := adopt_adopted opens host
  generalize adopt seal_ host row = after at step ⊢
  cases step <;> exact ⟨rfl,rfl,rfl,rfl⟩

theorem adopt_mirrored (opens : Opens seal_ row) (host : Host) {m : Nat}
    (known : (adopt seal_ host row).mirrored.lookup key = some m) :
    host.mirrored.lookup key = some m ∨ row.1 = key ∧ row.2.version = m := by
  have step := adopt_adopted opens host
  generalize adopt seal_ host row = after at step known
  by_cases same : key = row.1
  · subst same
    cases step with
    | secret name bytes key live opened =>
      simp only [Host.putMirror,AList.lookup_insert,Option.some.injEq] at known
      exact .inr ⟨rfl,known⟩
    | record table name key mirrored live =>
      simp only [Host.putMirror,AList.lookup_insert,Option.some.injEq] at known
      exact .inr ⟨rfl,known⟩
    | removed table name key mirrored deleted =>
      simp only [Host.deleteMirror,AList.lookup_erase] at known
      cases known
    | dropped name key deleted => exact .inl known
    | ignored none_ => exact .inl known
  · refine .inl ?_
    cases step with
    | secret name bytes key live opened =>
      simpa only [Host.putMirror,AList.lookup_insert_ne same] using known
    | record table name key mirrored live =>
      simpa only [Host.putMirror,Host.putCached,AList.lookup_insert_ne same] using known
    | removed table name key mirrored deleted =>
      simpa only [Host.deleteMirror,Host.deleteCached,AList.lookup_erase_ne same] using known
    | dropped name key deleted => exact known
    | ignored none_ => exact known

-- The row of a key, and that no later row is of it.
theorem row_split (here : found.lookup key = some r) :
    ∃ before after, inOrder found = before ++ ⟨key,r⟩ :: after ∧ ∀ row ∈ after, row.1 ≠ key := by
  obtain ⟨before,after,split⟩ := List.append_of_mem (mem_inOrder.mpr (entry_lookup.mpr here))
  refine ⟨before,after,split,fun row inside same => ?_⟩
  have distinct : (inOrder found).NodupKeys :=
    (List.perm_nodupKeys (List.perm_insertionSort _ _)).mpr found.nodupKeys
  rw [split,List.NodupKeys,List.keys,List.map_append,List.map_cons] at distinct
  have first := (List.nodup_cons.mp (List.nodup_append.mp distinct).2.1).1
  exact first (List.mem_map.mpr ⟨row,inside,same⟩)

section
variable (open_ : ∀ row ∈ found.entries, Opens seal_ row)
include open_

theorem adopted_kept (host : Host) :
    (adopted seal_ found host).dirty = host.dirty ∧
      (adopted seal_ found host).inFlight = host.inFlight ∧
      (adopted seal_ found host).versions = liveVersions found ∧
      (adopted seal_ found host).conflicts = host.conflicts :=
  ⟨foldl_untouched Host.dirty _ (fun row inside s => (adopt_kept (open_ row (mem_inOrder.mp inside)) s).1) _,
    foldl_untouched Host.inFlight _ (fun row inside s => (adopt_kept (open_ row (mem_inOrder.mp inside)) s).2.1) _,
    foldl_untouched Host.versions _ (fun row inside s => (adopt_kept (open_ row (mem_inOrder.mp inside)) s).2.2.1) _,
    foldl_untouched Host.conflicts _ (fun row inside s => (adopt_kept (open_ row (mem_inOrder.mp inside)) s).2.2.2) _⟩

theorem adopted_absent (d : Dirty) (gone : found.lookup d.remoteKey = none) (host : Host) :
    localValue (adopted seal_ found host) d = localValue host d := by
  have start : localValue { host with versions := liveVersions found } d = localValue host d := by
    cases d <;> rfl
  rw [← start]
  refine foldl_untouched (fun host => localValue host d) _ (fun row inside s => ?_) _
  refine adopt_other (open_ row (mem_inOrder.mp inside)) d (fun same => ?_) s
  rw [← same,row_lookup inside] at gone
  cases gone

theorem adopted_record (table : Table) (name : Bytes) (mirrored : recordIsMirrored table name)
    (here : found.lookup (stateKey table name) = some r) (host : Host) :
    localValue (adopted seal_ found host) (.record table name) =
      if r.deleted then none else some (.json r.value) := by
  obtain ⟨before,after,split,last⟩ := row_split here
  have opens (row) (inside : row ∈ before ++ ⟨stateKey table name,r⟩ :: after) : Opens seal_ row :=
    open_ row (mem_inOrder.mp (split ▸ inside))
  rw [adopted,split]
  refine foldl_at (fun host => localValue host (.record table name)) (fun s => ?_) (fun row inside s => ?_) _
  · exact adopt_here (opens _ (by simp)) (.record table name) rfl mirrored s
  · exact adopt_other (opens row (by simp [inside])) (.record table name) (last row inside) s

theorem adopted_secret (name : Bytes) (mirrored : secretIsMirrored name)
    (here : found.lookup (secretKey name) = some r) (live : r.deleted = false) (host : Host) :
    localValue (adopted seal_ found host) (.secret name) =
      some ((Dirty.secret name).content seal_ r.version r.value) := by
  obtain ⟨before,after,split,last⟩ := row_split here
  have opens (row) (inside : row ∈ before ++ ⟨secretKey name,r⟩ :: after) : Opens seal_ row :=
    open_ row (mem_inOrder.mp (split ▸ inside))
  rw [adopted,split]
  refine foldl_at (fun host => localValue host (.secret name)) (fun s => ?_) (fun row inside s => ?_) _
  · rw [adopt_here (opens _ (by simp)) (.secret name) rfl mirrored s]
    simp only [live,Bool.false_eq_true,if_false]
  · exact adopt_other (opens row (by simp [inside])) (.secret name) (last row inside) s

theorem adopted_dropped (name : Bytes) (mirrored : secretIsMirrored name)
    (here : found.lookup (secretKey name) = some r) (deleted : r.deleted = true) (host : Host) :
    localValue (adopted seal_ found host) (.secret name) = localValue host (.secret name) := by
  refine foldl_untouched (fun host => localValue host (.secret name)) _ (fun row inside s => ?_) _
  by_cases same : row.1 = secretKey name
  · have found := row_lookup inside
    rw [same,here,Option.some.injEq] at found
    rw [adopt_here (open_ row (mem_inOrder.mp inside)) (.secret name) same mirrored s,← found,if_pos deleted]
  · exact adopt_other (open_ row (mem_inOrder.mp inside)) (.secret name) same s

theorem adopted_mirrored {m : Nat} (host : Host)
    (known : (adopted seal_ found host).mirrored.lookup key = some m) :
    host.mirrored.lookup key = some m ∨ ∃ r, found.lookup key = some r ∧ r.version = m := by
  have go (rows : List (Sigma fun _ : Bytes => Record)) (inside : ∀ row ∈ rows, row ∈ found.entries)
      (start : Host) (known : (rows.foldl (adopt seal_) start).mirrored.lookup key = some m) :
      start.mirrored.lookup key = some m ∨ ∃ r, found.lookup key = some r ∧ r.version = m := by
    induction rows generalizing start with
    | nil => exact .inl known
    | cons row rest ih =>
      have here := inside row List.mem_cons_self
      rcases ih (fun r later => inside r (List.mem_cons_of_mem _ later)) _ known with earlier | taken
      · rcases adopt_mirrored (open_ row here) start earlier with before | ⟨same,version⟩
        · exact .inl before
        · exact .inr ⟨row.2,same ▸ entry_lookup.mp here,version⟩
      · exact .inr taken
  exact go (inOrder found) (fun _ inside => mem_inOrder.mp inside) { host with versions := liveVersions found } known

end

-- The rest of a pull that took the listing: a cached record with no row was never
-- mirrored, and is marked.
section
variable {mirrored : Map Bytes Nat}
  (known : ∀ key m, mirrored.lookup key = some m → ∃ r, found.lookup key = some r)
include known

theorem pullLocal_marks (host : Host) (place : Table × Bytes) :
    pullLocal found mirrored host place =
      if recordIsMirrored place.1 place.2 ∧ found.lookup (stateKey place.1 place.2) = none then
        host.mark (.record place.1 place.2)
      else host := by
  unfold pullLocal
  cases recordIsMirrored place.1 place.2 with
  | false => simp
  | true =>
    cases here : found.lookup (stateKey place.1 place.2) with
    | some r => simp [here]
    | none =>
      cases there : mirrored.lookup (stateKey place.1 place.2) with
      | none => simp [here,there]
      | some m =>
        obtain ⟨r,impossible⟩ := known _ m there
        rw [here] at impossible
        cases impossible

theorem locals_kept (places : List (Table × Bytes)) (host : Host) :
    let after := places.foldl (pullLocal found mirrored) host
    after.records = host.records ∧ after.secrets = host.secrets ∧ after.mirrored = host.mirrored ∧
      after.inFlight = host.inFlight ∧ after.versions = host.versions ∧
      after.conflicts = host.conflicts := by
  have same {γ : Type} (look : Host → γ) (mark : ∀ host d, look (Host.mark host d) = look host) :
      look (places.foldl (pullLocal found mirrored) host) = look host := by
    refine foldl_untouched look places (fun place _ host => ?_) host
    rw [pullLocal_marks known]
    split
    · exact mark host _
    · rfl
  exact ⟨same Host.records fun _ _ => rfl,same Host.secrets fun _ _ => rfl,
    same Host.mirrored fun _ _ => rfl,same Host.inFlight fun _ _ => rfl,
    same Host.versions fun _ _ => rfl,same Host.conflicts fun _ _ => rfl⟩

theorem locals_dirty (places : List (Table × Bytes)) (host : Host) (d : Dirty) :
    d ∈ (places.foldl (pullLocal found mirrored) host).dirty ↔ d ∈ host.dirty ∨
      ∃ place ∈ places, d = .record place.1 place.2 ∧ recordIsMirrored place.1 place.2 ∧
        found.lookup (stateKey place.1 place.2) = none := by
  induction places generalizing host with
  | nil => simp
  | cons place rest ih =>
    rw [List.foldl_cons,ih,pullLocal_marks known]
    by_cases marks : recordIsMirrored place.1 place.2 ∧ found.lookup (stateKey place.1 place.2) = none
    · simp only [if_pos marks,Host.mark,Finset.mem_insert,List.exists_mem_cons_iff]
      constructor
      · rintro ((here | before) | later)
        · exact .inr (.inl ⟨here,marks⟩)
        · exact .inl before
        · exact .inr (.inr later)
      · rintro (before | here | later)
        · exact .inl (.inr before)
        · exact .inl (.inl here.1)
        · exact .inr later
    · simp only [if_neg marks,List.exists_mem_cons_iff]
      constructor
      · rintro (before | later)
        · exact .inl before
        · exact .inr (.inr later)
      · rintro (before | here | later)
        · exact .inl before
        · exact absurd here.2 marks
        · exact .inr later

end

theorem takes_known (takes : Takes seal_ listing host) (key : Bytes) (m : Nat)
    (there : host.mirrored.lookup key = some m) :
    ∃ r, (latest listing.records).lookup key = some r :=
  (takes.records key m there).imp fun _ both => both.1

end

-- A pull from the remote itself.
section
variable {seal_ : MasterKey} {remote : Remote} {host : Host}

def pulledFrom (seal_ : MasterKey) (remote : Remote) (host : Host) : Host :=
  pulled seal_ (latest remote.list.records) host

variable (takes : Takes seal_ remote.list host)
include takes

theorem pulled_same :
    (pulledFrom seal_ remote host).records =
        (adopted seal_ (latest remote.list.records) host).records ∧
      (pulledFrom seal_ remote host).secrets =
        (adopted seal_ (latest remote.list.records) host).secrets ∧
      (pulledFrom seal_ remote host).mirrored =
        (adopted seal_ (latest remote.list.records) host).mirrored ∧
      (pulledFrom seal_ remote host).inFlight = host.inFlight ∧
      (pulledFrom seal_ remote host).versions = liveVersions (latest remote.list.records) ∧
      (pulledFrom seal_ remote host).conflicts = host.conflicts := by
  obtain ⟨records,secrets,mirrored,inFlight,versions,conflicts⟩ := locals_kept (takes_known takes)
    (adopted seal_ (latest remote.list.records) host).records.keys
    (adopted seal_ (latest remote.list.records) host)
  obtain ⟨_,inFlight',versions',conflicts'⟩ := adopted_kept takes.secrets host
  exact ⟨records,secrets,mirrored,inFlight.trans inFlight',versions.trans versions',
    conflicts.trans conflicts'⟩

theorem pulled_absent (d : Dirty) (gone : remote.entries.lookup d.remoteKey = none) :
    localValue (pulledFrom seal_ remote host) d = localValue host d := by
  obtain ⟨records,secrets,_⟩ := pulled_same takes
  rw [localValue_same records secrets]
  exact adopted_absent takes.secrets d (by rw [latest_list,gone]; rfl) host

theorem pulled_record (table : Table) (name : Bytes) (mirrored : recordIsMirrored table name)
    (here : remote.entries.lookup (stateKey table name) = some e) :
    localValue (pulledFrom seal_ remote host) (.record table name) =
      remoteValue seal_ remote (.record table name) := by
  obtain ⟨records,secrets,_⟩ := pulled_same takes
  rw [localValue_same records secrets,adopted_record takes.secrets table name mirrored
    (r := Remote.Entry.record e) (by rw [latest_list,here]; rfl) host]
  cases held : e.value with
  | none => simp [Remote.Entry.record,held,remoteValue,Dirty.remoteKey,here]
  | some v => simp [Remote.Entry.record,held,remoteValue,Dirty.remoteKey,here,Dirty.content]

theorem pulled_secret (name : Bytes) (mirrored : secretIsMirrored name)
    (none_ : host.secrets.lookup name = none) :
    localValue (pulledFrom seal_ remote host) (.secret name) =
      remoteValue seal_ remote (.secret name) := by
  cases here : remote.entries.lookup (secretKey name) with
  | none =>
    rw [pulled_absent takes (.secret name) here]
    simp [localValue,none_,remoteValue,Dirty.remoteKey,here]
  | some e =>
    obtain ⟨records,secrets,_⟩ := pulled_same takes
    rw [localValue_same records secrets]
    have row : (latest remote.list.records).lookup (secretKey name) = some (Remote.Entry.record e) := by
      rw [latest_list,here]
      rfl
    cases held : e.value with
    | none =>
      rw [adopted_dropped takes.secrets name mirrored row (by simp [Remote.Entry.record,held])]
      simp [localValue,none_,remoteValue,Dirty.remoteKey,here,held]
    | some v =>
      rw [adopted_secret takes.secrets name mirrored row (by simp [Remote.Entry.record,held])]
      simp [remoteValue,Dirty.remoteKey,here,held,Remote.Entry.record]

theorem pulled_dirty (d : Dirty) : d ∈ (pulledFrom seal_ remote host).dirty ↔ d ∈ host.dirty ∨
    ∃ table name, d = .record table name ∧ recordIsMirrored table name ∧
      remote.entries.lookup (stateKey table name) = none ∧ (host.getRaw table name).isSome := by
  have dirty := locals_dirty (takes_known takes)
    (adopted seal_ (latest remote.list.records) host).records.keys
    (adopted seal_ (latest remote.list.records) host) d
  obtain ⟨before,_⟩ := adopted_kept takes.secrets host
  rw [before] at dirty
  refine dirty.trans (or_congr_right ?_)
  have held (table : Table) (name : Bytes)
      (gone : remote.entries.lookup (stateKey table name) = none) :
      (table,name) ∈ (adopted seal_ (latest remote.list.records) host).records.keys ↔
        (host.getRaw table name).isSome := by
    have same := adopted_absent takes.secrets (.record table name)
      (by rw [latest_list]; exact congrArg (Option.map Remote.Entry.record) gone) host
    have raw : (adopted seal_ (latest remote.list.records) host).records.lookup (table,name) =
        host.records.lookup (table,name) :=
      Option.map_injective (fun a b eq => Content.json.inj eq) same
    rw [← AList.mem_keys,← AList.lookup_isSome,raw]
    rfl
  constructor
  · rintro ⟨⟨table,name⟩,inside,same,mirrored,gone⟩
    rw [latest_list,Option.map_eq_none_iff] at gone
    exact ⟨table,name,same,mirrored,gone,(held table name gone).mp inside⟩
  · rintro ⟨table,name,same,mirrored,gone,inside⟩
    refine ⟨(table,name),(held table name gone).mpr inside,same,mirrored,?_⟩
    rw [latest_list,gone]
    rfl

theorem pulled_mirrored {key : Bytes} {m : Nat}
    (known : (pulledFrom seal_ remote host).mirrored.lookup key = some m) :
    host.mirrored.lookup key = some m ∨
      ∃ e, remote.entries.lookup key = some e ∧ e.version = m := by
  rw [(pulled_same takes).2.2.1] at known
  refine (adopted_mirrored takes.secrets host known).imp_right ?_
  rintro ⟨r,here,version⟩
  rw [latest_list,Option.map_eq_some_iff] at here
  obtain ⟨e,found,same⟩ := here
  exact ⟨e,found,(congrArg Record.version same).trans version⟩

omit takes in
theorem liveVersions_lookup (found : Map Bytes Record) (key : Bytes) :
    (liveVersions found).lookup key =
      (found.lookup key).bind fun r => if r.deleted then none else some r.version := by
  have other (row : Sigma fun _ : Bytes => Record) (different : row.1 ≠ key) (m : Map Bytes Nat) :
      (liveVersion m row).lookup key = m.lookup key := by
    unfold liveVersion
    split
    · rfl
    · exact AList.lookup_insert_ne (Ne.symm different)
  cases here : found.lookup key with
  | none =>
    refine foldl_untouched (fun m : Map Bytes Nat => m.lookup key) _ (fun row inside m => ?_) ∅
    refine other row (fun same => ?_) m
    rw [← same,row_lookup inside] at here
    cases here
  | some r =>
    cases deleted : r.deleted with
    | true =>
      simp only [Option.bind_some,deleted,if_true]
      refine foldl_untouched (fun m : Map Bytes Nat => m.lookup key) _ (fun row inside m => ?_) ∅
      by_cases same : row.1 = key
      · have found := row_lookup inside
        rw [same,here,Option.some.injEq] at found
        simp only [liveVersion,← found,deleted,if_true]
      · exact other row same m
    | false =>
      obtain ⟨before,after,split,last⟩ := row_split here
      simp only [Option.bind_some,deleted,Bool.false_eq_true,if_false]
      rw [liveVersions,split]
      refine foldl_at (fun m : Map Bytes Nat => m.lookup key) (fun m => ?_)
        (fun row inside m => other row (last row inside) m) ∅
      simp only [liveVersion,deleted,Bool.false_eq_true,if_false,AList.lookup_insert]

theorem pulled_versions (key : Bytes) :
    (pulledFrom seal_ remote host).versions.lookup key = remote.live key := by
  rw [(pulled_same takes).2.2.2.2.1,liveVersions_lookup,latest_list,Remote.live]
  cases remote.entries.lookup key with
  | none => rfl
  | some e => cases held : e.value <;> simp [Remote.Entry.record,held]

end

end VerifiableGit.Bridge.Mirror
