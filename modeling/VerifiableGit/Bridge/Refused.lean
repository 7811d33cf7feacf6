import VerifiableGit.Bridge.Pull

-- What a refused pull leaves in the local store, when that is what was there,
-- and that it is refused again.
namespace VerifiableGit.Bridge.Mirror
open VerifiableGit.Text

section
variable (seal_ : MasterKey) (listing : Listing) (host : Host)

-- The four refusals, by what is wrong with the listing.
def Behind : Prop := ∃ key m, host.mirrored.lookup key = some m ∧ listing.watermark < m

def Lost : Prop := listing.mode = .feed ∧
  ∃ key m, host.mirrored.lookup key = some m ∧ (latest listing.records).lookup key = none

def Older : Prop := ∃ key m r, host.mirrored.lookup key = some m ∧
  (latest listing.records).lookup key = some r ∧ r.version < m

def Closed : Prop := ∃ row ∈ inOrder (latest listing.records), ¬ Opens seal_ row

-- A secret that a snapshot has no record of any more: taken for deleted.
def Reaped (key : Bytes) : Prop := listing.mode = .snapshot ∧ isSecretKey key = true ∧
  (latest listing.records).lookup key = none

-- A live secret listed before any that does not open.
def Opened (key : Bytes) (version : Nat) : Prop := ∃ before row after,
  inOrder (latest listing.records) = before ++ row :: after ∧ (∀ r ∈ before ++ [row], Opens seal_ r) ∧
    row.1 = key ∧ isSecretKey key = true ∧ row.2.deleted = false ∧ row.2.version = version

def dropMissing (found : Map Bytes Record) (host : Host) (row : Sigma fun _ : Bytes => Nat) : Host :=
  if (found.lookup row.1).isNone ∧ isSecretKey row.1 = true then host.deleteMirror row.1 else host

end

section
variable {seal_ : MasterKey} {listing : Listing} {host after : Host} {found : Map Bytes Record}
variable {key : Bytes}

theorem secret_key (secret : isSecretKey key = true) : ∃ name, key = secretKey name := by
  refine ⟨key.drop (ascii "secret/").length,strip_secret_sound ?_⟩
  have starts : (ascii "secret/").isPrefixOf key = true := secret
  simp only [stripPrefix,starts,if_true]

theorem secret_isSecret (name : Bytes) : isSecretKey (secretKey name) = true := by
  simp only [isSecretKey,secretKey,List.isPrefixOf_iff_prefix]
  exact List.prefix_append _ _

-- "secret/" stands before "state/".
theorem state_after_secret (table : Table) (place name : Bytes) : ¬ stateKey table place ≤ secretKey name := by
  have letters (rest more : Bytes) : ¬ ascii "state/" ++ rest ≤ ascii "secret/" ++ more := by
    have state : ascii "state/" ++ rest = 115 :: 116 :: (ascii "ate/" ++ rest) := rfl
    have secret : ascii "secret/" ++ more = 115 :: 101 :: (ascii "cret/" ++ more) := rfl
    rw [state,secret,List.cons_le_cons_iff,List.cons_le_cons_iff]
    rintro (below | ⟨_,below | ⟨same,_⟩⟩)
    · exact absurd below (by decide)
    · exact absurd below (by decide)
    · exact absurd same (by decide)
  rw [stateKey,List.append_assoc]
  exact letters _ _

theorem sorted_inOrder (found : Map Bytes Record) : (inOrder found).Pairwise fun a b => a.1 ≤ b.1 := by
  have total : Std.Total fun a b : Sigma fun _ : Bytes => Record => a.1 ≤ b.1 :=
    ⟨fun a b => List.le_total a.1 b.1⟩
  have trans : IsTrans (Sigma fun _ : Bytes => Record) fun a b => a.1 ≤ b.1 :=
    ⟨fun _ _ _ first second => List.le_trans first second⟩
  exact List.pairwise_insertionSort _ _

theorem missing_drops (counted : ¬ Behind listing host) (whole : ¬ Lost listing host) :
    host.mirrored.entries.foldlM (pullMissing listing (latest listing.records)) host =
      .ok (host.mirrored.entries.foldl (dropMissing (latest listing.records)) host) := by
  refine foldlM_all _ (fun row inside s => ?_) host
  have known := entry_lookup.mp inside
  have reached : ¬ listing.watermark < row.2 := fun behind => counted ⟨row.1,row.2,known,behind⟩
  cases here : (latest listing.records).lookup row.1 with
  | some r => simp [pullMissing,dropMissing,here]
  | none =>
    have snapshot : ¬ listing.mode = .feed := fun feed => whole ⟨feed,row.1,row.2,known,here⟩
    cases secret : isSecretKey row.1 with
    | true => simp [pullMissing,dropMissing,here,reached,snapshot,secret]
    | false => simp [pullMissing,dropMissing,here,reached,snapshot,secret]

theorem drop_other {row : Sigma fun _ : Bytes => Nat} (other : row.1 ≠ key) (host : Host) :
    (dropMissing found host row).mirrored.lookup key = host.mirrored.lookup key := by
  unfold dropMissing
  split
  · exact AList.lookup_erase_ne (Ne.symm other)
  · rfl

theorem drops_records (rows : List (Sigma fun _ : Bytes => Nat)) (host : Host) :
    (rows.foldl (dropMissing found) host).records = host.records := by
  refine foldl_untouched Host.records rows (fun row _ s => ?_) host
  unfold dropMissing
  split <;> rfl

theorem drops_kept (stays : ¬ ((found.lookup key).isNone ∧ isSecretKey key = true)) :
    (host.mirrored.entries.foldl (dropMissing found) host).mirrored.lookup key =
      host.mirrored.lookup key := by
  refine foldl_untouched (fun s => s.mirrored.lookup key) _ (fun row _ s => ?_) host
  by_cases same : row.1 = key
  · subst same
    simp only [dropMissing,if_neg stays]
  · exact drop_other same s

theorem drops_dropped (gone : (found.lookup key).isNone) (secret : isSecretKey key = true) :
    (host.mirrored.entries.foldl (dropMissing found) host).mirrored.lookup key = none := by
  cases known : host.mirrored.lookup key with
  | none =>
    refine (foldl_untouched (fun s => s.mirrored.lookup key) _ (fun row inside s => ?_) host).trans known
    refine drop_other (fun same => ?_) s
    have held := entry_lookup.mp inside
    rw [same,known] at held
    cases held
  | some m =>
    obtain ⟨before,rest,split⟩ := List.append_of_mem (entry_lookup.mpr known)
    have distinct : host.mirrored.entries.NodupKeys := host.mirrored.nodupKeys
    rw [split,List.NodupKeys,List.keys,List.map_append,List.map_cons] at distinct
    have last := (List.nodup_cons.mp (List.nodup_append.mp distinct).2.1).1
    rw [split]
    refine foldl_at (fun s => s.mirrored.lookup key) (fun s => ?_) (fun row later s => ?_) host
    · simp only [dropMissing,gone,secret,and_self,if_true]
      exact AList.lookup_erase _ _
    · exact drop_other (fun same => last (List.mem_map.mpr ⟨row,later,same⟩)) s

-- The rows up to the first that does not open are adopted, and the pull ends.
theorem rows_refused {rows : List (Sigma fun _ : Bytes => Record)} {e : Host}
    (refused : rows.foldlM (pullRecord seal_) host = .error e) :
    ∃ before row rest, rows = before ++ row :: rest ∧ (∀ r ∈ before, Opens seal_ r) ∧
      ¬ Opens seal_ row ∧ e = refuse (before.foldl (adopt seal_) host) := by
  induction rows generalizing host with
  | nil => cases refused
  | cons row rest ih =>
    by_cases opens : Opens seal_ row
    · rw [List.foldlM_cons,pullRecord_opens opens] at refused
      obtain ⟨before,closed,more,split,all,unopened,same⟩ := ih refused
      refine ⟨row :: before,closed,more,by rw [split]; rfl,?_,unopened,same⟩
      intro r inside
      rcases List.mem_cons.mp inside with here | later
      · exact here ▸ opens
      · exact all r later
    · refine ⟨[],row,rest,rfl,List.forall_mem_nil _,opens,?_⟩
      obtain ⟨f,failed⟩ := pullRecord_closed opens host
      rw [List.foldlM_cons,failed] at refused
      have same : f = e := Except.error.inj refused
      simp only [Opens,not_forall] at opens
      obtain ⟨name,key,live,unopened⟩ := opens
      have none_ : secretBytes seal_ name row.2.version row.2.value = none :=
        Option.eq_none_iff_forall_ne_some.mpr fun bytes opened => unopened ⟨bytes,opened⟩
      simp only [pullRecord,key,strip_secretKey,live,Bool.false_eq_true,if_false,none_] at failed
      exact same.symm.trans (Except.error.inj failed).symm

theorem closed_secret {row : Sigma fun _ : Bytes => Record} (closed : ¬ Opens seal_ row) :
    ∃ name, row.1 = secretKey name := by
  simp only [Opens,not_forall] at closed
  obtain ⟨name,same,_⟩ := closed
  exact ⟨name,same⟩

-- A row listed before a secret is no record of a table.
theorem before_secret {before rest : List (Sigma fun _ : Bytes => Record)} {row r : Sigma fun _ : Bytes => Record}
    {name : Bytes} (split : inOrder found = before ++ row :: rest) (secret : row.1 = secretKey name)
    (inside : r ∈ before) (table : Table) (place : Bytes) : r.1 ≠ stateKey table place := by
  intro state
  have sorted := sorted_inOrder found
  rw [split] at sorted
  have below := (List.pairwise_append.mp sorted).2.2 r inside row List.mem_cons_self
  rw [state,secret] at below
  exact state_after_secret table place name below

theorem adopt_records {row : Sigma fun _ : Bytes => Record} (opens : Opens seal_ row)
    (stateless : ∀ table place, row.1 ≠ stateKey table place) (host : Host) :
    (adopt seal_ host row).records = host.records := by
  have step := adopt_adopted opens host
  generalize adopt seal_ host row = after at step ⊢
  cases step with
  | secret name bytes key live opened => rfl
  | dropped name key deleted => rfl
  | removed table name key mirrored deleted => exact absurd key (stateless table name)
  | record table name key mirrored live => exact absurd key (stateless table name)
  | ignored other => rfl

theorem adopt_away {row : Sigma fun _ : Bytes => Record} (opens : Opens seal_ row)
    (stateless : ∀ table place, row.1 ≠ stateKey table place)
    (away : ¬ (row.1 = key ∧ isSecretKey key = true ∧ row.2.deleted = false)) (host : Host) :
    (adopt seal_ host row).mirrored.lookup key = host.mirrored.lookup key := by
  have step := adopt_adopted opens host
  generalize adopt seal_ host row = after at step ⊢
  cases step with
  | secret name bytes named live opened =>
    have other : key ≠ row.1 := fun same => away ⟨same.symm,by rw [same,named]; exact secret_isSecret name,live⟩
    exact AList.lookup_insert_ne other
  | dropped name named deleted => rfl
  | removed table name named mirrored deleted => exact absurd named (stateless table name)
  | record table name named mirrored live => exact absurd named (stateless table name)
  | ignored other => rfl

theorem adopt_taken {row : Sigma fun _ : Bytes => Record} (opens : Opens seal_ row) (here : row.1 = key)
    (secret : isSecretKey key = true) (live : row.2.deleted = false) (host : Host) :
    (adopt seal_ host row).mirrored.lookup key = some row.2.version := by
  obtain ⟨name,named⟩ := secret_key secret
  obtain ⟨bytes,opened⟩ := opens name (here.trans named) live
  have strip : stripPrefix (ascii "secret/") row.1 = some name := by rw [here,named,strip_secretKey]
  simp only [adopt,pullRecord,strip,live,Bool.false_eq_true,if_false,opened,Host.putMirror]
  rw [← here]
  exact AList.lookup_insert host.mirrored

-- What the rows before the first closed one leave.
section
variable {before rest : List (Sigma fun _ : Bytes => Record)} {row : Sigma fun _ : Bytes => Record}
  {name : Bytes} (split : inOrder found = before ++ row :: rest) (closed : row.1 = secretKey name)
  (open_ : ∀ r ∈ before, Opens seal_ r)
include split closed open_

theorem before_records (host : Host) : (before.foldl (adopt seal_) host).records = host.records :=
  foldl_untouched Host.records before
    (fun r inside s => adopt_records (open_ r inside) (before_secret split closed inside) s) host

theorem before_away (key : Bytes) (away : ∀ r ∈ before, ¬ (r.1 = key ∧ isSecretKey key = true ∧ r.2.deleted = false))
    (host : Host) :
    (before.foldl (adopt seal_) host).mirrored.lookup key = host.mirrored.lookup key :=
  foldl_untouched (fun s => s.mirrored.lookup key) before
    (fun r inside s => adopt_away (open_ r inside) (before_secret split closed inside)
      (away r inside) s) host

theorem before_taken {r : Sigma fun _ : Bytes => Record} (inside : r ∈ before) (here : r.1 = key)
    (secret : isSecretKey key = true) (live : r.2.deleted = false) (host : Host) :
    (before.foldl (adopt seal_) host).mirrored.lookup key = some r.2.version := by
  obtain ⟨front,back,cut⟩ := List.append_of_mem inside
  have distinct : (inOrder found).NodupKeys :=
    (List.perm_nodupKeys (List.perm_insertionSort _ _)).mpr found.nodupKeys
  rw [split,cut,List.append_assoc,List.NodupKeys,List.keys,List.map_append,List.cons_append,
    List.map_cons] at distinct
  have last := (List.nodup_cons.mp (List.nodup_append.mp distinct).2.1).1
  rw [cut]
  refine foldl_at (fun s => s.mirrored.lookup key)
    (fun s => adopt_taken (open_ r inside) here secret live s) (fun later place s => ?_) host
  have there : later ∈ before := cut ▸ List.mem_append_right _ (List.mem_cons_of_mem _ place)
  refine adopt_away (open_ later there) (before_secret split closed there) (fun same => last ?_) s
  exact List.mem_map.mpr ⟨later,List.mem_append_left _ place,same.1.trans here.symm⟩

end

theorem missing_lost {rows : List (Sigma fun _ : Bytes => Nat)} {row : Sigma fun _ : Bytes => Nat}
    (host : Host) (feed : listing.mode = .feed) (inside : row ∈ rows) (gone : found.lookup row.1 = none) :
    rows.foldlM (pullMissing listing found) host = .error (refuse host) := by
  induction rows with
  | nil => cases inside
  | cons first rest ih =>
    rw [List.foldlM_cons]
    cases here : found.lookup first.1 with
    | none =>
      have refused : pullMissing listing found host first = .error (refuse host) := by
        simp only [pullMissing,here,Option.isSome_none,Bool.false_eq_true,if_false,feed,if_true,ite_self]
      rw [refused]
      rfl
    | some r =>
      have kept : pullMissing listing found host first = .ok host := by
        simp only [pullMissing,here,Option.isSome_some,if_true]
      rw [kept]
      refine ih ?_
      rcases List.mem_cons.mp inside with same | later
      · rw [same,here] at gone
        cases gone
      · exact later

variable (listing host) in
def dropped : Host := host.mirrored.entries.foldl (dropMissing (latest listing.records)) host

theorem pull_behind (behind : Behind listing host) : pull seal_ listing host = .error (refuse host) := by
  obtain ⟨key,m,known,below⟩ := behind
  have ahead : (host.mirrored.entries.any fun row => decide (listing.watermark < row.2)) = true :=
    List.any_eq_true.mpr ⟨⟨key,m⟩,entry_lookup.mpr known,decide_eq_true below⟩
  simp only [pull,ahead,if_true]

theorem not_ahead (counted : ¬ Behind listing host) :
    (host.mirrored.entries.any fun row => decide (listing.watermark < row.2)) = false := by
  refine List.any_eq_false.mpr fun row inside below => counted ?_
  exact ⟨row.1,row.2,entry_lookup.mp inside,of_decide_eq_true below⟩

theorem pull_lost (counted : ¬ Behind listing host) (lost : Lost listing host) :
    pull seal_ listing host = .error (refuse host) := by
  obtain ⟨feed,key,m,known,gone⟩ := lost
  have missing := missing_lost host feed (entry_lookup.mpr known) gone
  simp only [pull,not_ahead counted,Bool.false_eq_true,if_false,missing]
  rfl

theorem any_older : (latest listing.records).entries.any (olderThan host.mirrored) = true ↔
    Older listing host := by
  constructor
  · intro some_
    obtain ⟨row,inside,older⟩ := List.any_eq_true.mp some_
    cases known : host.mirrored.lookup row.1 with
    | none => simp [olderThan,known] at older
    | some m =>
      simp only [olderThan,known,Option.any_some,decide_eq_true_eq] at older
      exact ⟨row.1,m,row.2,known,entry_lookup.mp inside,older⟩
  · intro older
    obtain ⟨key,m,r,known,here,below⟩ := older
    refine List.any_eq_true.mpr ⟨⟨key,r⟩,entry_lookup.mpr here,?_⟩
    simp only [olderThan,known,Option.any_some]
    exact decide_eq_true below

theorem pull_older (counted : ¬ Behind listing host) (whole : ¬ Lost listing host)
    (older : Older listing host) : pull seal_ listing host = .error (refuse (dropped listing host)) := by
  simp only [pull,not_ahead counted,Bool.false_eq_true,if_false,missing_drops counted whole]
  show (if (latest listing.records).entries.any (olderThan host.mirrored) = true then _ else _) = _
  rw [if_pos (any_older.mpr older)]
  rfl

theorem pull_rows (counted : ¬ Behind listing host) (whole : ¬ Lost listing host)
    (newer : ¬ Older listing host) : pull seal_ listing host = (do
      let s ← (inOrder (latest listing.records)).foldlM (pullRecord seal_)
        { dropped listing host with versions := liveVersions (latest listing.records) }
      .ok (s.records.keys.foldl (pullLocal (latest listing.records) host.mirrored) s)) := by
  simp only [pull,not_ahead counted,Bool.false_eq_true,if_false,missing_drops counted whole]
  show (if (latest listing.records).entries.any (olderThan host.mirrored) = true then _ else _) = _
  rw [if_neg fun some_ => newer (any_older.mp some_)]
  rfl

theorem rows_closed (newer : Closed seal_ listing) (s : Host) :
    ∃ e, (inOrder (latest listing.records)).foldlM (pullRecord seal_) s = .error e := by
  obtain ⟨row,inside,closed⟩ := newer
  exact foldlM_bad inside (pullRecord_closed closed) s

-- Whether a pull is refused depends on the listing and the mirrored versions only.
theorem refused_when : (∃ e, pull seal_ listing host = .error e) ↔
    Behind listing host ∨ Lost listing host ∨ Older listing host ∨ Closed seal_ listing := by
  by_cases behind : Behind listing host
  · exact ⟨fun _ => .inl behind,fun _ => ⟨_,pull_behind behind⟩⟩
  by_cases lost : Lost listing host
  · exact ⟨fun _ => .inr (.inl lost),fun _ => ⟨_,pull_lost behind lost⟩⟩
  by_cases older : Older listing host
  · exact ⟨fun _ => .inr (.inr (.inl older)),fun _ => ⟨_,pull_older behind lost older⟩⟩
  rw [pull_rows behind lost older]
  constructor
  · intro refused
    refine .inr (.inr (.inr (Classical.byContradiction fun open_ => ?_)))
    have all (row) (inside : row ∈ inOrder (latest listing.records)) : Opens seal_ row :=
      Classical.byContradiction fun closed => open_ ⟨row,inside,closed⟩
    have done := foldlM_all (g := adopt seal_) _ (fun row inside s => pullRecord_opens (all row inside) s)
      { dropped listing host with versions := liveVersions (latest listing.records) }
    obtain ⟨e,failed⟩ := refused
    rw [done] at failed
    cases failed
  · intro why
    have closed : Closed seal_ listing :=
      ((why.resolve_left behind).resolve_left lost).resolve_left older
    obtain ⟨e,failed⟩ := rows_closed closed
      { dropped listing host with versions := liveVersions (latest listing.records) }
    exact ⟨e,by rw [failed]; rfl⟩

-- The rows of the mirror table that a refused pull leaves.
theorem dropped_reaped (reaped : Reaped listing key) :
    (dropped listing host).mirrored.lookup key = none := by
  obtain ⟨_,secret,gone⟩ := reaped
  exact drops_dropped (Option.isNone_iff_eq_none.mpr gone) secret

theorem dropped_kept (whole : ¬ Lost listing host)
    (kept : ¬ Reaped listing key) :
    (dropped listing host).mirrored.lookup key = host.mirrored.lookup key := by
  by_cases gone : ((latest listing.records).lookup key).isNone ∧ isSecretKey key = true
  · -- A feed that is whole misses nothing that was mirrored.
    have absent := Option.isNone_iff_eq_none.mp gone.1
    cases mode : listing.mode with
    | snapshot => exact absurd ⟨mode,gone.2,absent⟩ kept
    | feed =>
      cases known : host.mirrored.lookup key with
      | none => exact drops_dropped gone.1 gone.2
      | some m => exact absurd ⟨mode,key,m,known,absent⟩ whole
  · exact drops_kept gone

theorem dropped_older (older : Older listing host) {later : Host}
    (same : later.mirrored = (dropped listing host).mirrored) : Older listing later := by
  obtain ⟨key,m,r,known,here,below⟩ := older
  refine ⟨key,m,r,?_,here,below⟩
  rw [same]
  refine (drops_kept fun gone => ?_).trans known
  rw [here] at gone
  cases gone.1

theorem opened_before {before rest : List (Sigma fun _ : Bytes => Record)} {row : Sigma fun _ : Bytes => Record}
    {version : Nat} (split : inOrder (latest listing.records) = before ++ row :: rest)
    (opens : ∀ r ∈ before, Opens seal_ r) (closed : ¬ Opens seal_ row) :
    Opened seal_ listing key version ↔ ∃ r ∈ before, r.1 = key ∧ isSecretKey key = true ∧
      r.2.deleted = false ∧ r.2.version = version := by
  constructor
  · intro opened
    obtain ⟨front,r,back,cut,all,taken⟩ := opened
    have open_ : Opens seal_ r := all r (List.mem_append_right _ List.mem_cons_self)
    rcases List.append_eq_append_iff.mp (split.symm.trans cut) with ⟨more,left,right⟩ | ⟨more,left,right⟩
    · -- The closed row is among those in front of `r`, or is `r`.
      cases more with
      | nil =>
        cases right
        exact absurd open_ closed
      | cons first others =>
        cases right
        refine absurd (all row ?_) closed
        rw [left]
        exact List.mem_append_left _ (List.mem_append_right _ List.mem_cons_self)
    · cases more with
      | nil =>
        cases right
        exact absurd open_ closed
      | cons first others =>
        cases right
        refine ⟨r,?_,taken⟩
        rw [left]
        exact List.mem_append_right _ List.mem_cons_self
  · intro some_
    obtain ⟨r,inside,taken⟩ := some_
    obtain ⟨front,back,cut⟩ := List.append_of_mem inside
    refine ⟨front,r,back ++ row :: rest,?_,fun q place => opens q ?_,taken⟩
    · rw [split,cut,List.append_assoc]
      rfl
    · rw [cut]
      rcases List.mem_append.mp place with left | right
      · exact List.mem_append_left _ left
      · exact List.mem_append_right _ (List.mem_singleton.mp right ▸ List.mem_cons_self)

-- What a refused pull does to the store: nothing to a cached record, nothing at
-- all where the counter is behind or the feed misses a record; otherwise the
-- rows of reaped secrets go, and where no record is older the secrets opened
-- before the first closed one are booked. The same pull is refused again.
theorem refused_pull (refused : pull seal_ listing host = .error after) :
    (∀ table key, after.getRaw table key = host.getRaw table key) ∧
    (∀ key, (Behind listing host ∨ Lost listing host →
        after.mirrored.lookup key = host.mirrored.lookup key) ∧
      (¬ Behind listing host → ¬ Lost listing host →
        (Reaped listing key → after.mirrored.lookup key = none) ∧
        (∀ version, ¬ Older listing host → Opened seal_ listing key version →
          after.mirrored.lookup key = some version) ∧
        (¬ Reaped listing key → (Older listing host ∨ ∀ version, ¬ Opened seal_ listing key version) →
          after.mirrored.lookup key = host.mirrored.lookup key))) ∧
    ∀ later : Host, later.mirrored = after.mirrored → ∃ again, pull seal_ listing later = .error again := by
  by_cases early : Behind listing host ∨ Lost listing host
  · have same : after = refuse host := by
      by_cases behind : Behind listing host
      · exact Except.error.inj (refused.symm.trans (pull_behind behind))
      · exact Except.error.inj (refused.symm.trans (pull_lost behind (early.resolve_left behind)))
    subst same
    refine ⟨fun _ _ => rfl,fun key => ⟨fun _ => rfl,fun counted whole => ?_⟩,fun later tables => ?_⟩
    · exact absurd early (not_or.mpr ⟨counted,whole⟩)
    · have tables : later.mirrored = host.mirrored := tables
      refine refused_when.mpr ?_
      rcases early with behind | lost
      · exact .inl (by simpa only [Behind,tables] using behind)
      · exact .inr (.inl (by simpa only [Lost,tables] using lost))
  obtain ⟨counted,whole⟩ := not_or.mp early
  have records : (dropped listing host).records = host.records := drops_records _ host
  by_cases older : Older listing host
  · have same := Except.error.inj (refused.symm.trans (pull_older counted whole older))
    subst same
    refine ⟨fun table key => congrArg (·.lookup (table,key)) records,fun key => ⟨fun why => absurd why early,
      fun _ _ => ⟨dropped_reaped,fun _ newer => absurd older newer,fun kept _ => dropped_kept whole kept⟩⟩,
      fun later tables => refused_when.mpr (.inr (.inr (.inl (dropped_older older tables))))⟩
  -- No record older: the rows were read up to the first closed one.
  rw [pull_rows counted whole older] at refused
  generalize start : { dropped listing host with versions := liveVersions (latest listing.records) } = s at refused
  have sRecords : s.records = host.records := by rw [← start]; exact records
  have sMirrored : s.mirrored = (dropped listing host).mirrored := by rw [← start]
  cases failed : (inOrder (latest listing.records)).foldlM (pullRecord seal_) s with
  | ok t =>
    rw [failed] at refused
    cases refused
  | error e =>
    rw [failed] at refused
    cases refused
    obtain ⟨before,row,rest,split,opens,closed,same⟩ := rows_refused failed
    obtain ⟨name,secret⟩ := closed_secret closed
    subst same
    refine ⟨fun table key => ?_,fun key => ⟨fun why => absurd why early,fun _ _ => ⟨fun reaped => ?_,
      fun version _ opened => ?_,fun kept away => ?_⟩⟩,fun later _ => ?_⟩
    · have kept := before_records split secret opens s
      exact congrArg (·.lookup (table,key)) (kept.trans sRecords)
    · -- A reaped secret has no row to be booked from.
      have away := before_away split secret opens key (fun r inside booked => ?_) s
      · refine away.trans ?_
        rw [sMirrored]
        exact dropped_reaped reaped
      · have here := row_lookup (split ▸ List.mem_append_left _ inside : r ∈ inOrder (latest listing.records))
        rw [booked.1,reaped.2.2] at here
        cases here
    · obtain ⟨r,inside,here,named,live,same⟩ := (opened_before split opens closed).mp opened
      rw [← same]
      exact before_taken split secret opens inside here named live s
    · have unopened (r) (inside : r ∈ before) :
          ¬ (r.1 = key ∧ isSecretKey key = true ∧ r.2.deleted = false) := fun taken =>
        away.resolve_left older r.2.version ((opened_before split opens closed).mpr
          ⟨r,inside,taken.1,taken.2.1,taken.2.2,rfl⟩)
      refine (before_away split secret opens _ unopened s).trans ?_
      rw [sMirrored]
      exact dropped_kept whole kept
    · exact refused_when.mpr (.inr (.inr (.inr ⟨row,split ▸ List.mem_append_right _ List.mem_cons_self,closed⟩)))

-- A refused pull that left the tables alone, whose listing is refused again.
def Unchanged (seal_ : MasterKey) (listing : Listing) (host : Host) : Prop :=
  ∀ after, pull seal_ listing host = .error after →
    (∀ table key, after.getRaw table key = host.getRaw table key) ∧
    (∀ key, after.mirrored.lookup key = host.mirrored.lookup key) ∧
    ∃ again, pull seal_ listing after = .error again

variable (seal_ listing host) in
-- A row that goes, or that is set to another version, before a later check can refuse.
def Touched : Prop :=
  (∃ key m, host.mirrored.lookup key = some m ∧ Reaped listing key) ∨
    ¬ Older listing host ∧ ∃ key version, Opened seal_ listing key version ∧ host.mirrored.lookup key ≠ some version

theorem untouched_rows (refused : pull seal_ listing host = .error after) (kept : ¬ Touched seal_ listing host) (key : Bytes) :
    after.mirrored.lookup key = host.mirrored.lookup key := by
  obtain ⟨_,rows,_⟩ := refused_pull refused
  by_cases early : Behind listing host ∨ Lost listing host
  · exact (rows key).1 early
  obtain ⟨counted,whole⟩ := not_or.mp early
  obtain ⟨reaped,opened,same⟩ := (rows key).2 counted whole
  by_cases gone : Reaped listing key
  · rw [reaped gone]
    refine (Option.eq_none_iff_forall_ne_some.mpr fun m known => ?_).symm
    exact kept (.inl ⟨key,m,known,gone⟩)
  by_cases older : Older listing host
  · exact same gone (.inl older)
  by_cases booked : ∃ version, Opened seal_ listing key version
  · obtain ⟨version,here⟩ := booked
    rw [opened version older here]
    exact (Classical.byContradiction fun other => kept (.inr ⟨older,key,version,here,other⟩) : _ = some version).symm
  · exact same gone (.inr fun version here => booked ⟨version,here⟩)

-- The counter and the change feed are checked before anything is written; what
-- is checked later refuses over the rows that were.
theorem refused_pull_exact : Unchanged seal_ listing host ↔
    (Older listing host ∨ Closed seal_ listing → Behind listing host ∨ Lost listing host ∨ ¬ Touched seal_ listing host) := by
  constructor
  · intro unchanged late
    by_contra broken
    simp only [not_or,not_not] at broken
    obtain ⟨counted,whole,touched⟩ := broken
    obtain ⟨after,refused⟩ := refused_when.mpr (.inr (.inr late))
    obtain ⟨_,kept,_⟩ := unchanged after refused
    obtain ⟨_,rows,_⟩ := refused_pull refused
    rcases touched with ⟨key,m,known,gone⟩ | ⟨newer,key,version,opened,other⟩
    · have dropped := ((rows key).2 counted whole).1 gone
      rw [kept key,known] at dropped
      cases dropped
    · exact other ((kept key).symm.trans (((rows key).2 counted whole).2.1 version newer opened))
  · intro condition after refused
    obtain ⟨records,rows,again⟩ := refused_pull refused
    refine ⟨records,fun key => ?_,again after rfl⟩
    by_cases early : Behind listing host ∨ Lost listing host
    · exact (rows key).1 early
    obtain ⟨counted,whole⟩ := not_or.mp early
    have late : Older listing host ∨ Closed seal_ listing :=
      ((refused_when.mp ⟨after,refused⟩).resolve_left counted).resolve_left whole
    exact untouched_rows refused (((condition late).resolve_left counted).resolve_left whole) key

end

namespace Sample

-- A snapshot that no longer has one mirrored secret, and has an older copy of
-- the other; and one that has the other as it was written, and an older copy of
-- the first.
def signing : Bytes := secretKey (ascii "a")
def webhook : Bytes := secretKey (ascii "b")

def twoSecrets : Host :=
  { Host.empty with mirrored := ((∅ : Map Bytes Nat).insert signing 5).insert webhook 9 }

def setBack : Listing := ⟨[(webhook,⟨2,true,.raw [],none⟩)],9,.snapshot⟩
def olderCopy : Listing := ⟨[(signing,⟨3,true,.raw [],none⟩),(webhook,⟨9,true,.raw [],none⟩)],9,.snapshot⟩

theorem setBack_refused : ∃ after, pull plainKey setBack twoSecrets = .error after ∧
    after.mirrored.lookup signing = none ∧ (pull plainKey olderCopy after).toBool = true := by
  have facts : (((pull plainKey setBack twoSecrets).map fun _ => false).tryCatch fun after =>
      .ok ((after.mirrored.lookup signing).isNone && (pull plainKey olderCopy after).toBool)).toOption = some true := by
    decide
  cases done : pull plainKey setBack twoSecrets with
  | ok after =>
    rw [done] at facts
    cases facts
  | error after =>
    rw [done] at facts
    obtain ⟨gone,taken⟩ := (Bool.and_eq_true _ _).mp (Option.some.inj facts)
    exact ⟨after,rfl,Option.isNone_iff_eq_none.mp gone,taken⟩

-- The listing refused by the versions on record is taken by those a refused pull leaves.
theorem refused_pull_forgets : ¬ Unchanged plainKey setBack twoSecrets ∧
    (pull plainKey olderCopy twoSecrets).toBool = false ∧
    ∃ after, pull plainKey setBack twoSecrets = .error after ∧ (pull plainKey olderCopy after).toBool = true := by
  obtain ⟨after,refused,gone,taken⟩ := setBack_refused
  refine ⟨fun unchanged => ?_,by decide,after,refused,taken⟩
  obtain ⟨_,mirrored,_⟩ := unchanged after refused
  have known : twoSecrets.mirrored.lookup signing = some 5 := by decide
  rw [mirrored signing,known] at gone
  cases gone

end Sample

end VerifiableGit.Bridge.Mirror
