import VerifiableGit.Service.Inbound

-- What a re-binding makes of the records of the earlier namespaces, with any
-- number of runs cut short before the one that ends.
namespace VerifiableGit.Superseded
open Text Library Library.Interaction Service
open Governance (Resource NamespaceRecord RepoRecord RepoKey)
open Governance.NamespaceRecord (Earlier takeOver)
open Governance.RepoRecord (moved)

-- `bind_callback`, from the stored record of the namespace to the new one.
def rebind (ns : Bytes) (resource : Resource) (binding : Binding) : Code Unit := do
  let existing : Option NamespaceRecord ← request (.getNamespace ns)
  let s ← supersede (boundRecord ns resource binding existing)
  request (.putNamespace ns s.new)

-- The store, with the repositories re-keyed so far, and whether the new record is stored.
structure Scene where
  world : World
  moves : List RepoKey := []
  stored : Bool := false

def Scene.after (s : Scene) (q : Query) (w : World) : Scene where
  world := w
  moves := match q with
    | .moveRepo key _ => if (s.world.repos.lookup key).isSome then s.moves ++ [key] else s.moves
    | _ => s.moves
  stored := match q with
    | .putNamespace _ _ => true
    | _ => s.stored

def Scene.serve (q : Query) (s : Scene) (r : q.Answer) (t : Scene) : Prop :=
  ∃ outside w, answer outside q s.world = some (r,w) ∧ t = s.after q w

def earlier (w : World) (new : NamespaceRecord) : List NamespaceRecord :=
  ((listed id w.namespaces.rows).map (·.2)).filter (Earlier · new)

-- Nothing is left under the id but its retirement.
structure Gone (ns : Bytes) (old : List NamespaceRecord) (now : World) (id : Bytes) : Prop where
  retired : ∃ n ∈ old, n.id = id ∧ ∃ at_, now.retired.lookup id = some ⟨n.resource,ns,at_⟩
  repos : ∀ key r, now.repos.lookup key = some r → r.ns ≠ id
  outbox : ∀ key e, now.outbox.lookup key = some e → e.isEventOf id = false

-- How far the records of the earlier namespaces `old` of `w` have come.
structure Midway (w : World) (ns : Bytes) (old : List NamespaceRecord) (now : World) (moves : List RepoKey) : Prop where
  namespaces : ∀ id, now.namespaces.lookup id = w.namespaces.lookup id ∨
    (now.namespaces.lookup id = none ∧ Gone ns old now id)
  retired : ∀ id, now.retired.lookup id = w.retired.lookup id ∨
    ∃ n ∈ old, n.id = id ∧ ∃ at_, now.retired.lookup id = some ⟨n.resource,ns,at_⟩
  repos : ∀ key, now.repos.lookup key =
    if key ∈ moves then (w.repos.lookup key).map (moved ns) else w.repos.lookup key
  once : moves.Nodup
  moves : ∀ key ∈ moves, ∃ r, w.repos.lookup key = some r ∧ ∃ n ∈ old, n.id = r.ns
  outbox : ∀ key, now.outbox.lookup key = w.outbox.lookup key ∨
    (now.outbox.lookup key = none ∧ ∃ e, w.outbox.lookup key = some e ∧ ∃ n ∈ old, e.isEventOf n.id = true)
  jobs : now.jobs = w.jobs
  pending : now.pending = w.pending
  deviceCodes : now.deviceCodes = w.deviceCodes

section
variable {w now : World} {ns : Bytes} {old : List NamespaceRecord} {moves : List RepoKey}

theorem mem_earlier {n new : NamespaceRecord} :
    n ∈ earlier w new ↔ (∃ id, w.namespaces.lookup id = some n) ∧ Earlier n new := by
  unfold earlier
  rw [List.mem_filter,decide_eq_true_eq,List.mem_map]
  refine and_congr_left fun _ => ?_
  constructor
  · rintro ⟨row,member,rfl⟩
    exact ⟨row.1,(Table.mem_rows _ _ _).mp ((mem_listed _ _ _).mp member)⟩
  · rintro ⟨id_,found⟩
    exact ⟨(id_,n),(mem_listed _ _ _).mpr ((Table.mem_rows _ _ _).mpr found),rfl⟩

theorem midway_start (w : World) (ns : Bytes) (old : List NamespaceRecord) : Midway w ns old w [] where
  namespaces := fun _ => .inl rfl
  retired := fun _ => .inl rfl
  repos := fun _ => rfl
  once := List.nodup_nil
  moves := fun _ member => nomatch member
  outbox := fun _ => .inl rfl
  jobs := rfl
  pending := rfl
  deviceCodes := rfl

theorem midway_retire (midway : Midway w ns old now moves) (n : NamespaceRecord) (member : n ∈ old) (at_ : Int) :
    Midway w ns old { now with retired := now.retired.insert n.id ⟨n.resource,ns,at_⟩ } moves := by
  have entry (id : Bytes) : (now.retired.insert n.id ⟨n.resource,ns,at_⟩).lookup id =
      if id = n.id then some ⟨n.resource,ns,at_⟩ else now.retired.lookup id :=
    Table.lookup_put now.retired n.id id (some ⟨n.resource,ns,at_⟩)
  have known (id : Bytes) (retired : ∃ n ∈ old, n.id = id ∧ ∃ at_, now.retired.lookup id = some ⟨n.resource,ns,at_⟩) :
      ∃ m ∈ old, m.id = id ∧ ∃ time,
        (now.retired.insert n.id ⟨n.resource,ns,at_⟩).lookup id = some ⟨m.resource,ns,time⟩ := by
    rw [entry]
    by_cases here : id = n.id
    · rw [if_pos here]
      exact ⟨n,member,here.symm,at_,rfl⟩
    · rwa [if_neg here]
  refine { midway with namespaces := fun id => ?_, retired := fun id => ?_ }
  · rcases midway.namespaces id with same | ⟨none_,gone⟩
    · exact .inl same
    · exact .inr ⟨none_,known id gone.retired,gone.repos,gone.outbox⟩
  · dsimp only
    by_cases here : id = n.id
    · rw [entry,if_pos here]
      exact .inr ⟨n,member,here.symm,at_,rfl⟩
    · rw [entry,if_neg here]
      exact midway.retired id

variable (apart : ∀ n ∈ old, n.id ≠ ns)
include apart

theorem midway_move (midway : Midway w ns old now moves) {key : RepoKey} {r : RepoRecord}
    (found : now.repos.lookup key = some r) (n : NamespaceRecord) (member : n ∈ old) (mine : r.ns = n.id) :
    Midway w ns old { now with repos := now.repos.update key (·.map (moved ns)) } (moves ++ [key]) := by
  have fresh : key ∉ moves := by
    intro inside
    have there := midway.repos key
    rw [if_pos inside,found] at there
    obtain ⟨before,_,same⟩ := Option.map_eq_some_iff.mp there.symm
    rw [← same] at mine
    exact apart n member mine.symm
  have before : w.repos.lookup key = some r := by
    have there := midway.repos key
    rwa [if_neg fresh,found,eq_comm] at there
  have entry (other : RepoKey) : (now.repos.update key (·.map (moved ns))).lookup other =
      if other = key then some (moved ns r) else now.repos.lookup other := by
    rw [Table.lookup_update,found]
    rfl
  refine { midway with namespaces := fun id => ?_, repos := fun other => ?_, once := ?_, moves := fun other inside => ?_ }
  · rcases midway.namespaces id with same | ⟨none_,gone⟩
    · exact .inl same
    · refine .inr ⟨none_,gone.retired,fun other record there => ?_,gone.outbox⟩
      dsimp only at there
      rw [entry] at there
      split at there
      · cases there
        obtain ⟨m,inside,same,_⟩ := gone.retired
        exact fun back => apart m inside (same.trans back.symm)
      · exact gone.repos other record there
  · dsimp only
    rw [entry]
    by_cases here : other = key
    · rw [if_pos here,if_pos (by rw [here]; exact List.mem_append_right _ (List.mem_singleton_self key)),here,before]
      rfl
    · rw [if_neg here,midway.repos other]
      have same : other ∈ moves ++ [key] ↔ other ∈ moves := by
        rw [List.mem_append,List.mem_singleton]
        exact or_iff_left here
      simp only [same]
  · exact List.nodup_append.mpr ⟨midway.once,List.nodup_singleton key,fun a inside b last same =>
      fresh (List.mem_singleton.mp last ▸ same ▸ inside)⟩
  · rcases List.mem_append.mp inside with old_ | last
    · exact midway.moves other old_
    · rw [List.mem_singleton.mp last]
      exact ⟨r,before,n,member,mine.symm⟩

omit apart in
theorem midway_erase (midway : Midway w ns old now moves) {key : OutboxKey} {e : OutboxEntry}
    (before : w.outbox.lookup key = some e) (n : NamespaceRecord) (member : n ∈ old) (event : e.isEventOf n.id = true) :
    Midway w ns old { now with outbox := now.outbox.erase key } moves := by
  have entry (other : OutboxKey) : (now.outbox.erase key).lookup other =
      if other = key then none else now.outbox.lookup other := Table.lookup_put now.outbox key other none
  refine { midway with namespaces := fun id => ?_, outbox := fun other => ?_ }
  · rcases midway.namespaces id with same | ⟨none_,gone⟩
    · exact .inl same
    · refine .inr ⟨none_,gone.retired,gone.repos,fun other found there => ?_⟩
      dsimp only at there
      rw [entry] at there
      split at there
      · cases there
      · exact gone.outbox other found there
  · dsimp only
    rw [entry]
    by_cases here : other = key
    · rw [if_pos here,here]
      exact .inr ⟨rfl,e,before,n,member,event⟩
    · rw [if_neg here]
      exact midway.outbox other

omit apart in
theorem midway_delete (midway : Midway w ns old now moves) (id : Bytes) (gone : Gone ns old now id) :
    Midway w ns old { now with namespaces := now.namespaces.erase id } moves := by
  have entry (other : Bytes) : (now.namespaces.erase id).lookup other =
      if other = id then none else now.namespaces.lookup other := Table.lookup_put now.namespaces id other none
  refine { midway with namespaces := fun other => ?_ }
  dsimp only
  rw [entry]
  by_cases here : other = id
  · rw [if_pos here,here]
    exact .inr ⟨rfl,gone.retired,gone.repos,gone.outbox⟩
  · rw [if_neg here]
    rcases midway.namespaces other with same | ⟨none_,gone⟩
    · exact .inl same
    · exact .inr ⟨none_,gone.retired,gone.repos,gone.outbox⟩

end

-- A run on its own.
def recovery (w : World) (ns : Bytes) (old : List NamespaceRecord) : Setting Query Query.Answer Scene where
  serve := Scene.serve
  rely := fun _ _ => False
  guarantee := fun _ _ _ => True
  always := fun s => s.stored = false → Midway w ns old s.world s.moves

theorem recovery_solitary : (recovery w ns old).Solitary := fun _ _ act => act

-- While the record `n` is taken over, with the records under `gone` deleted.
structure Turn (w : World) (ns : Bytes) (old : List NamespaceRecord) (n : NamespaceRecord) (gone : List Bytes)
    (s : Scene) : Prop where
  unstored : s.stored = false
  midway : Midway w ns old s.world s.moves
  gone : ∀ id ∈ gone, s.world.namespaces.lookup id = none
  retired : ∃ at_, s.world.retired.lookup n.id = some ⟨n.resource,ns,at_⟩

section
variable {w : World} {ns : Bytes} {old : List NamespaceRecord} {n : NamespaceRecord} {gone : List Bytes} {s : Scene}

theorem recovery_done {post : α → Scene → Prop} {a : α} (midway : Midway w ns old s.world s.moves) (here : post a s) :
    (recovery w ns old).Holds post (.done a) s :=
  solitary_done recovery_solitary (fun _ => midway) here

theorem recovery_call {post : α → Scene → Prop} {q : Query} {next : q.Answer → Code α}
    (midway : Midway w ns old s.world s.moves)
    (answered : ∀ outside r u, answer outside q s.world = some (r,u) →
      (recovery w ns old).Holds post (next r) (s.after q u)) :
    (recovery w ns old).Holds post (.call q next) s := by
  refine solitary_call recovery_solitary (fun _ => midway) fun r t served => ⟨trivial,?_⟩
  obtain ⟨outside,u,told,rfl⟩ := served
  exact answered outside r u told

-- The records still listed for `n`, one by one.
structure Moving (w : World) (ns : Bytes) (old : List NamespaceRecord) (n : NamespaceRecord) (gone : List Bytes)
    (rest : List (RepoKey × RepoRecord)) (s : Scene) : Prop where
  turn : Turn w ns old n gone s
  unique : (rest.map (·.1)).Nodup
  left : ∀ key r, s.world.repos.lookup key = some r → r.ns = n.id → (key,r) ∈ rest
  listed : ∀ key r, (key,r) ∈ rest → s.world.repos.lookup key = some r

theorem move_holds (apart : ∀ n ∈ old, n.id ≠ ns) (member : n ∈ old) {row : RepoKey × RepoRecord}
    {rest : List (RepoKey × RepoRecord)} (moving : Moving w ns old n gone (row :: rest) s) (done : List RepoRecord) :
    (recovery w ns old).Holds (fun _ t => Moving w ns old n gone rest t)
      (if row.2.ns = n.id then
        (.call (.moveRepo row.1 ns) fun moved : Option RepoRecord => .done (done ++ moved.toList)) else .done done) s := by
  obtain ⟨fresh,unique⟩ := List.nodup_cons.mp moving.unique
  have here := moving.listed row.1 row.2 List.mem_cons_self
  have other (key : RepoKey) (r : RepoRecord) (inside : (key,r) ∈ rest) : key ≠ row.1 := fun same =>
    fresh (List.mem_map.mpr ⟨(key,r),inside,same⟩)
  split
  · rename_i mine
    refine recovery_call moving.turn.midway fun outside r u told => ?_
    cases told
    have after : s.after (.moveRepo row.1 ns) { s.world with repos := s.world.repos.update row.1 (·.map (moved ns)) } =
        ⟨{ s.world with repos := s.world.repos.update row.1 (·.map (moved ns)) },s.moves ++ [row.1],s.stored⟩ := by
      simp only [Scene.after,here,Option.isSome_some,if_true]
    have midway := midway_move apart moving.turn.midway here n member mine
    rw [after]
    refine recovery_done midway ⟨⟨moving.turn.unstored,midway,moving.turn.gone,moving.turn.retired⟩,unique,?_,?_⟩
    · intro key r found back
      dsimp only at found
      rw [Table.lookup_update] at found
      split at found
      · rw [here] at found
        cases found
        exact absurd back.symm (apart n member)
      · rename_i differ
        rcases List.mem_cons.mp (moving.left key r found back) with first | later
        · exact absurd (congrArg Prod.fst first) differ
        · exact later
    · intro key r inside
      dsimp only
      rw [Table.lookup_update,if_neg (other key r inside)]
      exact moving.listed key r (List.mem_cons_of_mem _ inside)
  · rename_i foreign
    refine recovery_done moving.turn.midway ⟨moving.turn,unique,fun key r found back => ?_,fun key r inside => ?_⟩
    · rcases List.mem_cons.mp (moving.left key r found back) with first | later
      · cases first
        exact absurd back foreign
      · exact later
    · exact moving.listed key r (List.mem_cons_of_mem _ inside)

theorem moveRepos_holds (apart : ∀ n ∈ old, n.id ≠ ns) (member : n ∈ old) (turn : Turn w ns old n gone s) :
    (recovery w ns old).Holds (fun _ t => Turn w ns old n gone t ∧ ∀ key r, t.world.repos.lookup key = some r → r.ns ≠ n.id)
      (moveRepos n.id ns) s := by
  unfold moveRepos
  simp only [request,ask_bind,pure_done]
  refine recovery_call turn.midway fun outside rows u told => ?_
  cases told
  have start : Moving w ns old n gone (listed repoKeyText s.world.repos.rows) s := by
    refine ⟨turn,?_,fun key r found _ => ?_,fun key r inside => ?_⟩
    · exact ((List.perm_insertionSort _ _).map _).nodup_iff.mpr (Table.nodup_rows _)
    · exact (mem_listed _ _ _).mpr ((Table.mem_rows _ _ _).mpr found)
    · exact (Table.mem_rows _ _ _).mp ((mem_listed _ _ _).mp inside)
  refine holds_weaken _ (holds_fold recovery_solitary (fun rest _ t => Moving w ns old n gone rest t) _ _ _ ?_ ?_ start) ?_
  · exact fun _ _ t there _ => there.turn.midway
  · intro row rest done t there
    exact move_holds apart member there done
  · intro _ t there
    refine ⟨there.turn,fun key r found mine => ?_⟩
    exact nomatch there.left key r found mine

-- Nothing of the repositories is left under `n`.
def Moved (n : NamespaceRecord) (s : Scene) : Prop := ∀ key r, s.world.repos.lookup key = some r → r.ns ≠ n.id

structure Dropping (w : World) (ns : Bytes) (old : List NamespaceRecord) (n : NamespaceRecord) (gone : List Bytes)
    (rest : List (OutboxKey × OutboxEntry)) (s : Scene) : Prop where
  turn : Turn w ns old n gone s
  moved : Moved n s
  left : ∀ key e, s.world.outbox.lookup key = some e → e.isEventOf n.id = true → (key,e) ∈ rest
  before : ∀ key e, (key,e) ∈ rest → w.outbox.lookup key = some e

theorem drop_holds (member : n ∈ old) {row : OutboxKey × OutboxEntry} {rest : List (OutboxKey × OutboxEntry)}
    (dropping : Dropping w ns old n gone (row :: rest) s) :
    (recovery w ns old).Holds (fun _ t => Dropping w ns old n gone rest t)
      (if row.2.isEventOf n.id then (.call (.deleteEntry row.1) fun _ : Bool => .done ()) else .done () : Code Unit) s := by
  have before (key : OutboxKey) (e : OutboxEntry) (inside : (key,e) ∈ rest) : w.outbox.lookup key = some e :=
    dropping.before key e (List.mem_cons_of_mem _ inside)
  split
  · rename_i event
    refine recovery_call dropping.turn.midway fun outside r u told => ?_
    cases told
    have midway := midway_erase dropping.turn.midway (dropping.before row.1 row.2 List.mem_cons_self) n member event
    refine recovery_done midway ⟨⟨dropping.turn.unstored,midway,dropping.turn.gone,dropping.turn.retired⟩,
      dropping.moved,fun key e found event => ?_,before⟩
    have entry : (s.world.outbox.erase row.1).lookup key = if key = row.1 then none else s.world.outbox.lookup key :=
      Table.lookup_put s.world.outbox row.1 key none
    have found := entry.symm.trans found
    split at found
    · cases found
    · rename_i differ
      rcases List.mem_cons.mp (dropping.left key e found event) with first | later
      · exact absurd (congrArg Prod.fst first) differ
      · exact later
  · rename_i foreign
    refine recovery_done dropping.turn.midway ⟨dropping.turn,dropping.moved,fun key e found event => ?_,before⟩
    rcases List.mem_cons.mp (dropping.left key e found event) with first | later
    · cases first
      exact absurd event foreign
    · exact later

theorem dropEvents_holds (member : n ∈ old) (turn : Turn w ns old n gone s) (moved : Moved n s) :
    (recovery w ns old).Holds (fun _ t => Turn w ns old n gone t ∧ Moved n t ∧
      ∀ key e, t.world.outbox.lookup key = some e → e.isEventOf n.id = false) (dropEvents n.id) s := by
  unfold dropEvents
  simp only [request,ask_bind,pure_done]
  refine recovery_call turn.midway fun outside rows u told => ?_
  cases told
  have start : Dropping w ns old n gone (listed OutboxKey.text s.world.outbox.rows) s := by
    refine ⟨turn,moved,fun key e found _ => ?_,fun key e inside => ?_⟩
    · exact (mem_listed _ _ _).mpr ((Table.mem_rows _ _ _).mpr found)
    · have found := (Table.mem_rows _ _ _).mp ((mem_listed _ _ _).mp inside)
      rcases turn.midway.outbox key with same | ⟨none_,_⟩
      · exact same.symm.trans found
      · rw [none_] at found
        cases found
  refine holds_weaken _ (holds_each recovery_solitary (fun rest t => Dropping w ns old n gone rest t) _ _ ?_ ?_ start) ?_
  · exact fun _ t there _ => there.turn.midway
  · exact fun row rest t there => drop_holds member there
  · intro _ t there
    refine ⟨there.turn,there.moved,fun key e found => ?_⟩
    exact Bool.eq_false_iff.mpr fun event => nomatch there.left key e found event

-- Between two records, with those under `gone` deleted.
structure Between (w : World) (ns : Bytes) (old : List NamespaceRecord) (gone : List Bytes) (s : Scene) : Prop where
  unstored : s.stored = false
  midway : Midway w ns old s.world s.moves
  gone : ∀ id ∈ gone, s.world.namespaces.lookup id = none

theorem supersedeOne_holds (apart : ∀ n ∈ old, n.id ≠ ns) (member : n ∈ old) (at_ : Int) (so : Superseding)
    (named : so.new.id = ns) (between : Between w ns old gone s) :
    (recovery w ns old).Holds (fun after t => Between w ns old (n.id :: gone) t ∧ after.new = takeOver so.new n)
      (supersedeOne at_ so n) s := by
  unfold supersedeOne
  simp only [request,ask_bind,pure_done]
  refine recovery_call between.midway fun outside r u told => ?_
  cases told
  rw [named]
  have retired := midway_retire between.midway n member at_
  have turn : Turn w ns old n gone
      ⟨{ s.world with retired := s.world.retired.insert n.id ⟨n.resource,ns,at_⟩ },s.moves,s.stored⟩ :=
    ⟨between.unstored,retired,between.gone,at_,AList.lookup_insert _⟩
  refine holds_bind _ _ (moveRepos_holds apart member turn) fun moved t ⟨turn,moved_⟩ => ?_
  refine holds_bind _ _ (dropEvents_holds member turn moved_) fun _ t ⟨turn,moved_,dropped⟩ => ?_
  refine recovery_call turn.midway fun outside r u told => ?_
  cases told
  obtain ⟨time,known⟩ := turn.retired
  have midway := midway_delete turn.midway n.id ⟨⟨n,member,rfl,time,known⟩,moved_,dropped⟩
  refine recovery_done midway ⟨⟨turn.unstored,midway,fun id inside => ?_⟩,rfl⟩
  have entry : (t.world.namespaces.erase n.id).lookup id = if id = n.id then none else t.world.namespaces.lookup id :=
    Table.lookup_put t.world.namespaces n.id id none
  refine entry.trans ?_
  split
  · rfl
  · rename_i differ
    exact turn.gone id ((List.mem_cons.mp inside).resolve_left differ)

theorem between_more {id : Bytes} {gone : List Bytes} (between : Between w ns old (id :: gone) s) (more : ∀ other ∈ gone', other ∈ id :: gone) :
    Between w ns old gone' s :=
  ⟨between.unstored,between.midway,fun other inside => between.gone other (more other inside)⟩

theorem supersede_holds (apart : ∀ n ∈ old, n.id ≠ ns) (new : NamespaceRecord) (named : new.id = ns)
    (known : ∀ n ∈ earlier s.world new, n ∈ old) (between : Between w ns old gone s) :
    (recovery w ns old).Holds (fun after t => Between w ns old ((earlier s.world new).map (·.id) ++ gone) t ∧
      after.new = (earlier s.world new).foldl takeOver new) (supersede new) s := by
  unfold supersede
  simp only [request,ask_bind,pure_done]
  refine recovery_call between.midway fun outside r u told => ?_
  cases told
  refine recovery_call between.midway fun outside' r u told => ?_
  cases told
  generalize all_ : earlier s.world new = all at known ⊢
  have same : ((listed id s.world.namespaces.rows).map (·.2)).filter (Earlier · new) = all := all_
  rw [same]
  have taken : (recovery w ns old).Holds (fun so t => Between w ns old (all.map (·.id) ++ gone) t ∧ so.new = all.foldl takeOver new)
      (.fold (supersedeOne (outside' .now)) { new := new } all) s := by
    refine holds_weaken _ (holds_fold recovery_solitary (fun rest so t => ∃ done, done ++ rest = all ∧
      Between w ns old (done.map (·.id) ++ gone) t ∧ so.new = done.foldl takeOver new ∧ so.new.id = ns) _ _ _ ?_ ?_ ?_) ?_
    · exact fun _ _ t ⟨_,_,there,_,_⟩ _ => there.midway
    · rintro n rest so t ⟨done,split,there,carried,own⟩
      have member : n ∈ old := known n (split ▸ List.mem_append_right done List.mem_cons_self)
      refine holds_weaken _ (supersedeOne_holds apart member (outside' .now) so own there) fun after u ⟨later,taken⟩ => ?_
      refine ⟨done ++ [n],by rw [List.append_assoc,List.singleton_append,split],?_,?_,?_⟩
      · refine between_more later fun id inside => ?_
        rw [List.map_append,List.map_singleton,List.append_assoc] at inside
        rcases List.mem_append.mp inside with old_ | rest
        · exact List.mem_cons_of_mem _ (List.mem_append_left _ old_)
        · exact (List.mem_cons.mp rest).elim (fun same => same ▸ List.mem_cons_self) fun later =>
            List.mem_cons_of_mem _ (List.mem_append_right _ later)
      · rw [taken,carried,List.foldl_append]
        rfl
      · rw [taken]
        exact own
    · exact ⟨[],List.nil_append all,between,rfl,named⟩
    · rintro so t ⟨done,split,there,carried,_⟩
      rw [List.append_nil] at split
      rw [← split]
      exact ⟨there,carried⟩
  refine holds_bind _ _ taken ?_
  rintro so t ⟨there,carried⟩
  exact recovery_done there.midway ⟨there,carried⟩

end

/-! Runs cut short, and the one that ends -/

def alone : Setting Query Query.Answer Scene where
  serve := Scene.serve
  rely := fun _ _ => False
  guarantee := fun _ _ _ => True
  always := fun _ => True

-- A run that stops, wherever it was, before the new record is stored.
def Interrupted (ns : Bytes) (resource : Resource) (binding : Binding) (s t : Scene) : Prop :=
  ∃ p, Relation.ReflTransGen alone.Step (s,rebind ns resource binding) (t,p) ∧ t.stored = false

def Filed (w : World) : Prop := ∀ key n, w.namespaces.lookup key = some n → n.id = key

-- What is left of `w` once `new` has taken over from the records of `old`, apart
-- from the new record.
structure Rekeyed (w : World) (ns : Bytes) (old : List NamespaceRecord) (t : Scene) : Prop where
  repos : ∀ key, t.world.repos.lookup key =
    (w.repos.lookup key).map fun r => if ∃ n ∈ old, n.id = r.ns then moved ns r else r
  once : t.moves.Nodup ∧ ∀ key, key ∈ t.moves ↔ ∃ r, w.repos.lookup key = some r ∧ ∃ n ∈ old, n.id = r.ns
  namespaces : ∀ id, id ≠ ns → t.world.namespaces.lookup id =
    if ∃ n ∈ old, n.id = id then none else w.namespaces.lookup id
  retired : ∀ n ∈ old, ∃ at_, t.world.retired.lookup n.id = some ⟨n.resource,ns,at_⟩
  unretired : ∀ id, (∀ n ∈ old, n.id ≠ id) → t.world.retired.lookup id = w.retired.lookup id
  outbox : ∀ key, t.world.outbox.lookup key =
    (w.outbox.lookup key).filter fun e => !old.any fun n => e.isEventOf n.id
  jobs : t.world.jobs = w.jobs
  pending : t.world.pending = w.pending
  deviceCodes : t.world.deviceCodes = w.deviceCodes

-- The record stored is the new one with what all the earlier ones held.
structure Conserved (w : World) (ns : Bytes) (new : NamespaceRecord) (t : Scene) : Prop extends
    Rekeyed w ns (earlier w new) t where
  heir : t.world.namespaces.lookup ns = some ((earlier w new).foldl takeOver new)
  managed : ∀ record, t.world.namespaces.lookup ns = some record → ∀ repo, repo ∈ record.managed ↔
    repo ∈ new.managed ∨ ∃ n ∈ earlier w new, repo ∈ n.managed

-- What the records of `all` hold, the new record or one of `left` has to pass on.
structure Covered (new : NamespaceRecord) (all left : List NamespaceRecord) : Prop where
  managed : ∀ n ∈ all, ∀ repo ∈ n.managed, repo ∈ new.managed ∨ ∃ m ∈ left, repo ∈ m.managed
  pin : new.pin = none → left.findSome? (·.pin) = all.findSome? (·.pin)
  requiredWorkflow : new.requiredWorkflow = none →
    left.findSome? (·.requiredWorkflow) = all.findSome? (·.requiredWorkflow)

theorem taken_managed (all : List NamespaceRecord) (new : NamespaceRecord) (repo : Nat) :
    repo ∈ (all.foldl takeOver new).managed ↔ repo ∈ new.managed ∨ ∃ n ∈ all, repo ∈ n.managed := by
  induction all generalizing new with
  | nil => simp
  | cons n rest ih =>
    rw [List.foldl_cons,ih,takeOver,Finset.mem_union,List.exists_mem_cons_iff,or_assoc]

theorem taken_pin (all : List NamespaceRecord) (new : NamespaceRecord) :
    (all.foldl takeOver new).pin = new.pin.or (all.findSome? (·.pin)) := by
  induction all generalizing new with
  | nil => simp
  | cons n rest ih =>
    rw [List.foldl_cons,ih,takeOver,List.findSome?_cons]
    cases new.pin <;> cases n.pin <;> rfl

theorem taken_workflow (all : List NamespaceRecord) (new : NamespaceRecord) :
    (all.foldl takeOver new).requiredWorkflow = new.requiredWorkflow.or (all.findSome? (·.requiredWorkflow)) := by
  induction all generalizing new with
  | nil => simp
  | cons n rest ih =>
    rw [List.foldl_cons,ih,takeOver,List.findSome?_cons]
    cases new.requiredWorkflow <;> cases n.requiredWorkflow <;> rfl

-- Nothing else of the new record changes.
theorem taken_rest (all : List NamespaceRecord) (new : NamespaceRecord) : ∃ managed pin workflow,
    all.foldl takeOver new = { new with managed := managed, pin := pin, requiredWorkflow := workflow } := by
  induction all generalizing new with
  | nil => exact ⟨new.managed,new.pin,new.requiredWorkflow,rfl⟩
  | cons n rest ih =>
    obtain ⟨managed,pin,workflow,same⟩ := ih (takeOver new n)
    exact ⟨managed,pin,workflow,same⟩

theorem taken_covered {all left : List NamespaceRecord} (new : NamespaceRecord) (part : ∀ n ∈ left, n ∈ all) :
    left.foldl takeOver new = all.foldl takeOver new ↔ Covered new all left := by
  constructor
  · intro same
    refine ⟨fun n member repo held => ?_,fun none_ => ?_,fun none_ => ?_⟩
    · rw [← taken_managed,same,taken_managed]
      exact .inr ⟨n,member,held⟩
    · have pins := congrArg NamespaceRecord.pin same
      rwa [taken_pin,taken_pin,none_,Option.none_or,Option.none_or] at pins
    · have flows := congrArg NamespaceRecord.requiredWorkflow same
      rwa [taken_workflow,taken_workflow,none_,Option.none_or,Option.none_or] at flows
  · intro covered
    have managed : (left.foldl takeOver new).managed = (all.foldl takeOver new).managed := by
      ext repo
      rw [taken_managed,taken_managed]
      constructor
      · exact fun held => held.imp id fun ⟨n,member,inside⟩ => ⟨n,part n member,inside⟩
      · rintro (own | ⟨n,member,inside⟩)
        · exact .inl own
        · exact covered.managed n member repo inside
    have pin : (left.foldl takeOver new).pin = (all.foldl takeOver new).pin := by
      rw [taken_pin,taken_pin]
      cases none_ : new.pin with
      | none => rw [covered.pin none_]
      | some pin => rfl
    have workflow : (left.foldl takeOver new).requiredWorkflow = (all.foldl takeOver new).requiredWorkflow := by
      rw [taken_workflow,taken_workflow]
      cases none_ : new.requiredWorkflow with
      | none => rw [covered.requiredWorkflow none_]
      | some flow => rfl
    obtain ⟨_,_,_,one⟩ := taken_rest left new
    obtain ⟨_,_,_,two⟩ := taken_rest all new
    rw [one,two] at managed pin workflow ⊢
    dsimp only at managed pin workflow
    rw [managed,pin,workflow]

section
variable {w : World} {ns : Bytes} {resource : Resource} {binding : Binding} {old : List NamespaceRecord} {s t : Scene}

theorem alone_steps {here there : Scene × Code α} (steps : Relation.ReflTransGen alone.Step here there) :
    Relation.ReflTransGen (recovery w ns old).Step here there := by
  induction steps with
  | refl => exact .refl
  | tail _ step ih =>
    cases step with
    | own served => exact .tail ih (.own served)
    | other act => exact act.elim

-- The record a run of the callback starts from.
def newRecord (w : World) (ns : Bytes) (resource : Resource) (binding : Binding) : NamespaceRecord :=
  boundRecord ns resource binding (w.namespaces.lookup ns)

theorem newRecord_id (filed : Filed w) : (newRecord w ns resource binding).id = ns := by
  unfold newRecord
  cases found : w.namespaces.lookup ns with
  | none => rfl
  | some n => exact filed ns n found

theorem earlier_apart {new : NamespaceRecord} (named : new.id = ns) : ∀ n ∈ earlier w new, n.id ≠ ns :=
  fun _ member same => (mem_earlier.mp member).2.1 (same.trans named.symm)

theorem midway_own (apart : ∀ n ∈ old, n.id ≠ ns) (midway : Midway w ns old now moves) :
    now.namespaces.lookup ns = w.namespaces.lookup ns := by
  rcases midway.namespaces ns with same | ⟨_,gone⟩
  · exact same
  · obtain ⟨n,member,same,_⟩ := gone.retired
    exact absurd same (apart n member)

theorem midway_earlier (midway : Midway w ns old now moves) {n new : NamespaceRecord} (member : n ∈ earlier now new) :
    n ∈ earlier w new := by
  obtain ⟨⟨id,found⟩,held⟩ := mem_earlier.mp member
  rcases midway.namespaces id with same | ⟨none_,_⟩
  · exact mem_earlier.mpr ⟨⟨id,same.symm.trans found⟩,held⟩
  · rw [none_] at found
    cases found

-- The last transaction, after the records still there were taken over.
def Ended (w : World) (ns : Bytes) (new : NamespaceRecord) (left : List NamespaceRecord) (t : Scene) : Prop :=
  ∃ u, Between w ns (earlier w new) ((earlier w new).map (·.id)) u ∧ t.moves = u.moves ∧
    t.world = { u.world with namespaces := u.world.namespaces.insert ns (left.foldl takeOver new) }

theorem rebind_holds (filed : Filed w) (unstored : s.stored = false)
    (midway : Midway w ns (earlier w (newRecord w ns resource binding)) s.world s.moves) :
    (recovery w ns (earlier w (newRecord w ns resource binding))).Holds
      (fun _ t => Ended w ns (newRecord w ns resource binding) (earlier s.world (newRecord w ns resource binding)) t)
      (rebind ns resource binding) s := by
  have named : (newRecord w ns resource binding).id = ns := newRecord_id filed
  have apart : ∀ n ∈ earlier w (newRecord w ns resource binding), n.id ≠ ns := earlier_apart named
  unfold rebind
  simp only [request,ask_bind]
  refine recovery_call midway fun outside r u told => ?_
  cases told
  have same : boundRecord ns resource binding (s.world.namespaces.lookup ns) = newRecord w ns resource binding := by
    rw [midway_own apart midway,newRecord]
  rw [same]
  -- What earlier runs deleted stays deleted.
  have between : Between w ns (earlier w (newRecord w ns resource binding))
      (((earlier w (newRecord w ns resource binding)).map (·.id)).filter fun id => s.world.namespaces.lookup id = none) s :=
    ⟨unstored,midway,fun id inside => of_decide_eq_true (List.mem_filter.mp inside).2⟩
  refine holds_bind _ _ (supersede_holds apart _ named (fun n member => midway_earlier midway member) between) ?_
  rintro after t ⟨there,carried⟩
  refine recovery_call there.midway fun outside r u told => ?_
  cases told
  have whole : Between w ns (earlier w (newRecord w ns resource binding))
      ((earlier w (newRecord w ns resource binding)).map (·.id)) t := by
    refine ⟨there.unstored,there.midway,fun id inside => there.gone id ?_⟩
    obtain ⟨n,member,rfl⟩ := List.mem_map.mp inside
    by_cases deleted : s.world.namespaces.lookup n.id = none
    · exact List.mem_append_right _ (List.mem_filter.mpr ⟨inside,decide_eq_true deleted⟩)
    · obtain ⟨⟨id,found⟩,held⟩ := mem_earlier.mp member
      obtain rfl := filed id n found
      rcases midway.namespaces n.id with same | ⟨none_,_⟩
      · exact List.mem_append_left _ (List.mem_map_of_mem (mem_earlier.mpr ⟨⟨n.id,same.trans found⟩,held⟩))
      · exact absurd none_ deleted
  refine solitary_done recovery_solitary (fun open_ => absurd (show true = false from open_) (by decide)) ⟨t,whole,rfl,?_⟩
  have taken : after.new = (earlier s.world (newRecord w ns resource binding)).foldl takeOver
      (newRecord w ns resource binding) := carried
  rw [← taken]
  rfl

theorem interrupted_midway (filed : Filed w) (unstored : s.stored = false)
    (midway : Midway w ns (earlier w (newRecord w ns resource binding)) s.world s.moves)
    (stopped : Interrupted ns resource binding s t) :
    t.stored = false ∧ Midway w ns (earlier w (newRecord w ns resource binding)) t.world t.moves := by
  obtain ⟨p,steps,open_⟩ := stopped
  exact ⟨open_,holds_always p (steps_holds (alone_steps steps) (rebind_holds filed unstored midway)) open_⟩

theorem tries_midway (filed : Filed w)
    (tries : Relation.ReflTransGen (Interrupted ns resource binding) ⟨w,[],false⟩ s) :
    s.stored = false ∧ Midway w ns (earlier w (newRecord w ns resource binding)) s.world s.moves := by
  induction tries with
  | refl => exact ⟨rfl,midway_start w ns _⟩
  | tail _ stopped ih => exact interrupted_midway filed ih.1 ih.2 stopped

-- Once every earlier record is deleted, nothing is left of them.
theorem rekeyed_ended (filed : Filed w) {new : NamespaceRecord}
    (midway : Midway w ns (earlier w new) now moves)
    (gone : ∀ n ∈ earlier w new, now.namespaces.lookup n.id = none) (heir : NamespaceRecord) :
    Rekeyed w ns (earlier w new) ⟨{ now with namespaces := now.namespaces.insert ns heir },moves,stored⟩ := by
  have each : ∀ n ∈ earlier w new, Gone ns (earlier w new) now n.id := by
    intro n member
    obtain ⟨⟨id,found⟩,_⟩ := mem_earlier.mp member
    obtain rfl := filed id n found
    rcases midway.namespaces n.id with same | ⟨_,done⟩
    · rw [← same,gone n member] at found
      cases found
    · exact done
  have moved_ (key : RepoKey) : key ∈ moves ↔ ∃ r, w.repos.lookup key = some r ∧ ∃ n ∈ earlier w new, n.id = r.ns := by
    refine ⟨midway.moves key,fun ⟨r,found,n,member,mine⟩ => ?_⟩
    by_contra still
    have there := midway.repos key
    rw [if_neg still,found] at there
    exact (each n member).repos key r there mine.symm
  have entry (id : Bytes) : (now.namespaces.insert ns heir).lookup id = if id = ns then some heir else now.namespaces.lookup id :=
    Table.lookup_put now.namespaces ns id (some heir)
  refine ⟨fun key => ?_,⟨midway.once,moved_⟩,fun id other => ?_,fun n member => ?_,fun id other => ?_,fun key => ?_,
    midway.jobs,midway.pending,midway.deviceCodes⟩
  · refine (midway.repos key).trans ?_
    cases found : w.repos.lookup key with
    | none => exact ite_self none
    | some r =>
      have mine : key ∈ moves ↔ ∃ n ∈ earlier w new, n.id = r.ns := by
        rw [moved_ key,found]
        exact ⟨fun ⟨_,same,held⟩ => Option.some.inj same ▸ held,fun held => ⟨r,rfl,held⟩⟩
      simp only [mine,Option.map_some]
      exact (apply_ite some _ _ _).symm
  · refine (entry id).trans ((if_neg other).trans ?_)
    split
    · rename_i held
      obtain ⟨n,member,rfl⟩ := held
      exact gone n member
    · rename_i free
      rcases midway.namespaces id with same | ⟨_,done⟩
      · exact same
      · obtain ⟨n,member,same,_⟩ := done.retired
        exact absurd ⟨n,member,same⟩ free
  · obtain ⟨m,inside,same,at_,known⟩ := (each n member).retired
    obtain ⟨⟨id,found⟩,_⟩ := mem_earlier.mp member
    obtain ⟨⟨id',found'⟩,_⟩ := mem_earlier.mp inside
    obtain rfl := filed id n found
    obtain rfl := filed id' m found'
    rw [same,found] at found'
    cases found'
    exact ⟨at_,known⟩
  · rcases midway.retired id with same | ⟨n,member,same,_⟩
    · exact same
    · exact absurd same (other n member)
  · cases found : w.outbox.lookup key with
    | none =>
      rcases midway.outbox key with same | ⟨none_,_⟩
      · exact same.trans found
      · exact none_
    | some e =>
      by_cases event : ∃ n ∈ earlier w new, e.isEventOf n.id = true
      · obtain ⟨n,member,event⟩ := event
        have dropped : (earlier w new).any (fun n => e.isEventOf n.id) = true := List.any_eq_true.mpr ⟨n,member,event⟩
        rw [Option.filter_some,dropped]
        rcases midway.outbox key with same | ⟨none_,_⟩
        · rw [(each n member).outbox key e (same.trans found)] at event
          cases event
        · exact none_
      · have kept : (earlier w new).any (fun n => e.isEventOf n.id) = false :=
          Bool.eq_false_iff.mpr fun any_ => event (List.any_eq_true.mp any_)
        rw [Option.filter_some,kept]
        rcases midway.outbox key with same | ⟨_,other,same,event'⟩
        · exact same.trans found
        · cases same.symm.trans found
          exact absurd event' event

-- After any number of runs cut short: the last one leaves everything where one run
-- alone would, but the new record lacks what deleted records held that nothing left
-- passes on.
theorem rebind_exact (filed : Filed w) (tries : Relation.ReflTransGen (Interrupted ns resource binding) ⟨w,[],false⟩ s)
    (last : Relation.ReflTransGen alone.Step (s,rebind ns resource binding) (t,.done ())) :
    Rekeyed w ns (earlier w (newRecord w ns resource binding)) t ∧
      (Conserved w ns (newRecord w ns resource binding) t ↔
        Covered (newRecord w ns resource binding) (earlier w (newRecord w ns resource binding))
          (earlier s.world (newRecord w ns resource binding))) := by
  obtain ⟨unstored,midway⟩ := tries_midway filed tries
  generalize fresh : newRecord w ns resource binding = new at midway
  have named : new.id = ns := fresh ▸ newRecord_id filed
  have ended : Ended w ns new (earlier s.world new) t := by
    have held : (recovery w ns (earlier w (newRecord w ns resource binding))).Holds
        (fun _ t => Ended w ns (newRecord w ns resource binding) (earlier s.world (newRecord w ns resource binding)) t)
        (rebind ns resource binding) s := rebind_holds filed unstored (fresh.symm ▸ midway)
    rw [fresh] at held
    exact holds_value (steps_holds (alone_steps last) held)
  obtain ⟨u,between,moves,world⟩ := ended
  have gone : ∀ n ∈ earlier w new, u.world.namespaces.lookup n.id = none := fun n member =>
    between.gone n.id (List.mem_map_of_mem member)
  have rekeyed : Rekeyed w ns (earlier w new) ⟨{ u.world with
      namespaces := u.world.namespaces.insert ns ((earlier s.world new).foldl takeOver new) },u.moves,t.stored⟩ :=
    rekeyed_ended filed between.midway gone _
  rw [← world,← moves] at rekeyed
  refine ⟨rekeyed,?_⟩
  have stored : t.world.namespaces.lookup ns = some ((earlier s.world new).foldl takeOver new) := by
    rw [world]
    exact AList.lookup_insert _
  rw [← taken_covered new fun n member => midway_earlier midway member]
  constructor
  · intro conserved
    exact Option.some.inj (stored.symm.trans conserved.heir)
  · intro same
    refine ⟨rekeyed,stored.trans (congrArg some same),fun record found repo => ?_⟩
    rw [stored,same] at found
    cases found
    exact taken_managed _ new repo

end

namespace Sample
open Service.Sample

def tells (id : Bytes) (q : Query) (s : Scene) : Option (q.Answer × Scene) :=
  (answer (calm id) q s.world).map fun told => (told.1,s.after q told.2)

theorem tells_serve (id : Bytes) (q : Query) (s : Scene) (r : q.Answer) (t : Scene) (told : tells id q s = some (r,t)) :
    alone.serve q s r t := by
  obtain ⟨answered,found,same⟩ := Option.map_eq_some_iff.mp told
  cases same
  exact ⟨calm id,answered.2,found,rfl⟩

-- The owner was bound as `n1`, with one repository managed.
def bound : NamespaceRecord := { id := n1, resource := acme, state := .bound, managed := {7} }
def repository : RepoRecord := { ns := n1, resource := acme, forgeId := 7, owners := [⟨1,ascii "ann"⟩] }

def store : World :=
  { namespaces := (∅ : Table Bytes NamespaceRecord).insert n1 bound
    repos := (∅ : Table RepoKey RepoRecord).insert (ascii "h",7) repository }

def owner : Binding := { ownerId := some 1 }

theorem store_filed : Filed store := by
  intro key n found
  have entry : store.namespaces.lookup key = if key = n1 then some bound else none :=
    Table.lookup_put ∅ n1 key (some bound)
  rw [entry] at found
  split at found
  · rename_i here
    cases found
    exact here.symm
  · cases found

theorem ran {s t : Scene} (run : (rebind n2 acme owner).run (tells [1]) s = some ((),t)) :
    Relation.ReflTransGen alone.Step (s,rebind n2 acme owner) (t,.done ()) :=
  run_steps (tells_serve [1]) (rebind n2 acme owner) run

end Sample

open Sample Service.Sample in
theorem rebind_exact_sample : ∃ t : Scene, Conserved store n2 (newRecord store n2 acme owner) t ∧
    t.world.repos.lookup (ascii "h",7) = some { repository with ns := n2, owners := [] } := by
  obtain ⟨⟨u,t⟩,found⟩ := Option.isSome_iff_exists.mp
    (show ((rebind n2 acme owner).run (tells [1]) ⟨store,[],false⟩).isSome = true by decide)
  have last := ran found
  obtain ⟨rekeyed,exact_⟩ := rebind_exact store_filed .refl last
  refine ⟨t,exact_.mpr ⟨fun n member repo held => .inr ⟨n,member,held⟩,fun _ => rfl,fun _ => rfl⟩,?_⟩
  rw [rekeyed.repos]
  decide

-- A crash after the record of `n1` is deleted, and a run that finds it gone.
open Sample Service.Sample in
theorem rebind_crash_loses : ∃ s t : Scene, Interrupted n2 acme owner ⟨store,[],false⟩ s ∧
    Relation.ReflTransGen alone.Step (s,rebind n2 acme owner) (t,.done ()) ∧
    ¬ Conserved store n2 (newRecord store n2 acme owner) t ∧
    (t.world.namespaces.lookup n2).map (·.managed) = some ∅ := by
  have played : (((rebind n2 acme owner).advance (tells [1]) 8 ⟨store,[],false⟩).bind fun here =>
      ((rebind n2 acme owner).run (tells [1]) here.1).map fun done =>
        (here.1.stored,(done.2.world.namespaces.lookup n2).map (·.managed))) = some (false,some ∅) := by
    decide
  obtain ⟨⟨s,p⟩,stopped,rest⟩ := Option.bind_eq_some_iff.mp played
  obtain ⟨⟨u,t⟩,found,seen⟩ := Option.map_eq_some_iff.mp rest
  obtain ⟨unstored,managed⟩ := Prod.mk.inj seen
  refine ⟨s,t,⟨p,advance_steps (tells_serve [1]) 8 _ stopped,unstored⟩,ran found,fun conserved => ?_,managed⟩
  have lost := managed
  rw [conserved.heir] at lost
  exact absurd lost (by decide)

end VerifiableGit.Superseded
