import VerifiableGit.Service.Backed

-- Every handler asks only what its answers back, and leaves nothing half done.
namespace VerifiableGit.Service
open Text Library Library.Interaction
open Governance (Resource NamespaceRecord RepoRecord RepoKey ForgeAccount Report)

-- No window open, no id retired and not deleted, no flow consumed whose job is
-- unfinished.
structure Settled (cfg : Cfg) (h : Handler) (seen : Seen) : Prop where
  window : window seen = none
  leaving : leaving seen = []
  holding : holding cfg h seen = []

variable {cfg : Cfg} {h : Handler} {seen before after : Seen} {α : Type}

theorem settled_start : Settled cfg h [] := ⟨rfl,rfl,rfl⟩

theorem settled_quiet (settled : Settled cfg h before) (quiet : Quiet cfg h before after) : Settled cfg h after where
  window := quiet.window.trans settled.window
  leaving := quiet.leaving.trans settled.leaving
  holding := List.subset_nil.mp (settled.holding ▸ quiet.holding)

theorem tame_settles {post : Seen → α → Prop} (p : Code α) (tame : p.Follows (Tame h) post seen)
    (settled : Settled cfg h seen) : p.Follows (Backed h) (fun after _ => Settled cfg h after) seen :=
  follows_weaken p (tame_quiet cfg p tame) fun _ _ both => settled_quiet settled both.2

-- A loop of tame steps, and one whose steps each leave things settled.
theorem each_settles {f : α → Code Unit} (items : List α)
    (step : ∀ a seen, Settled cfg h seen → (f a).Follows (Backed h) (fun after _ => Settled cfg h after) seen)
    (settled : Settled cfg h seen) : (Prog.each f items).Follows (Backed h) (fun after _ => Settled cfg h after) seen :=
  follows_each (fun _ seen => Settled cfg h seen) f items (fun a _ seen here => step a seen here) settled

-- Namespaces.
theorem dropEvents_tame (ns : Bytes) :
    (dropEvents ns).Follows (Tame h) (fun after _ => doom after = doom seen) seen := by
  refine follows_request ⟨rfl,trivial⟩ fun entries => ?_
  refine follows_weaken _ (follows_each (fun rest later =>
    rest ⊆ entries ∧ Heard later .listEntries entries ∧ doom later = doom seen) _ entries ?_
    ⟨fun _ inside => inside,heard_now,rfl⟩) fun _ _ kept => kept.2.2
  intro e rest later here
  obtain ⟨inside,heard,same⟩ := here
  have others : rest ⊆ entries := fun x later => inside (List.mem_cons_of_mem _ later)
  split
  · rename_i own
    cases content : e.2.content with
    | result p => simp [OutboxEntry.isEventOf,content] at own
    | event p =>
      refine follows_request ⟨rfl,.listed entries e p heard (inside List.mem_cons_self) content⟩ fun _ => follows_done ?_
      exact ⟨others,heard_before heard,same⟩
  · exact follows_done ⟨others,heard,same⟩

theorem orphanNamespace_tame (ns : Bytes) (refused : Refused h seen ns) :
    (orphanNamespace ns).Follows (Tame h) Anything seen := by
  refine follows_request ⟨rfl,trivial⟩ fun at_ => ?_
  obtain ⟨thread,entries,e,p,own,first,found,content,mine⟩ := refused.entry
  have later : Refused h (⟨.now,at_⟩ :: seen) ns :=
    ⟨thread,entries,e,p,own,first.trans (List.suffix_cons _ _),found,content,mine⟩
  refine follows_request ⟨rfl,later⟩ fun orphaned => ?_
  cases orphaned with
  | false => exact follows_done trivial
  | true => exact follows_anything _ (dropEvents_tame ns)

theorem deleteRepos_backed (ns : Bytes) (forgets : h.forgets = true) (doomed : doom seen = some (ns,[])) :
    (deleteRepos ns).Follows (Tame h) (fun after _ => ∃ keys, doom after = some (ns,keys)) seen := by
  refine follows_request ⟨rfl,trivial⟩ fun repos => ?_
  have found : doom (⟨.listRepos,repos⟩ :: seen) = some (ns,(repos.filter (·.2.ns = ns)).map (·.1)) := by
    simp only [doom] at doomed
    simp [doom,gather_cons,doomNote,doomed]
  refine follows_weaken _ (follows_each (fun rest later =>
    rest ⊆ repos ∧ doom later = some (ns,(repos.filter (·.2.ns = ns)).map (·.1))) _ repos ?_
    ⟨fun _ inside => inside,found⟩) fun _ _ kept => ⟨_,kept.2⟩
  intro r rest later here
  obtain ⟨inside,there⟩ := here
  have others : rest ⊆ repos := fun x later => inside (List.mem_cons_of_mem _ later)
  split
  · rename_i own
    have listed : r.1 ∈ (repos.filter (·.2.ns = ns)).map (·.1) :=
      List.mem_map.mpr ⟨r,List.mem_filter.mpr ⟨inside List.mem_cons_self,by simpa using own⟩,rfl⟩
    exact follows_request ⟨rfl,forgets,ns,_,there,listed⟩ fun _ => follows_done ⟨others,there⟩
  · exact follows_done ⟨others,there⟩

theorem settled_deleted (id : Bytes) (r : Bool) (settled : Settled cfg h seen) :
    Settled cfg h (⟨.deleteNamespace id,r⟩ :: seen) := by
  obtain ⟨open_,left,held⟩ := settled
  refine ⟨?_,?_,held⟩
  · simp only [window] at open_
    simp [window,windowNote,open_]
  · simp only [leaving] at left
    simp [leaving,leavingNote,left]

theorem forget_settles (ns : Bytes) (forgets : h.forgets = true) (settled : Settled cfg h seen) :
    (forget ns).Follows (Backed h) (fun after _ => Settled cfg h after) seen := by
  refine follows_request trivial fun n => ?_
  have here := settled_quiet settled (quiet_plain (q := .getNamespace ns) rfl n)
  cases n with
  | none => exact follows_done here
  | some n =>
    by_cases orphaned : n.isOrphaned = true
    · have doomed : doom (⟨.getNamespace ns,some n⟩ :: seen) = some (ns,[]) := by simp [doom,doomNote,orphaned]
      simp only [orphaned,if_true]
      refine tame_bind cfg _ _ (deleteRepos_backed ns forgets doomed) fun after _ found quiet => ?_
      obtain ⟨keys,doomed⟩ := found
      refine tame_bind cfg _ _ (dropEvents_tame ns) fun last _ same quiet' => ?_
      refine follows_request (.inr ⟨forgets,keys,same.trans doomed⟩) fun r => follows_done ?_
      exact settled_deleted ns r (settled_quiet here (quiet_trans quiet quiet'))
    · simp only [orphaned]
      exact follows_done here

theorem sweepOne_settles (now : Int) (n : Bytes × NamespaceRecord) (forgets : h.forgets = true)
    (settled : Settled cfg h seen) : (sweepOne cfg now n).Follows (Backed h) (fun after _ => Settled cfg h after) seen := by
  unfold sweepOne
  split
  · exact follows_done settled
  · split
    · refine follows_request trivial fun locked => ?_
      have here := settled_quiet settled (quiet_plain (q := .lock n.1) rfl locked)
      refine follows_bind _ _ (forget_settles n.1 forgets here) fun after _ there => ?_
      exact follows_last trivial fun r => settled_quiet there (quiet_plain rfl r)
    · split
      · exact follows_last trivial fun r => settled_quiet settled (quiet_plain rfl r)
      · exact follows_done settled

theorem sweepOrphaned_settles (forgets : h.forgets = true) (settled : Settled cfg h seen) :
    (sweepOrphaned cfg).Follows (Backed h) (fun after _ => Settled cfg h after) seen := by
  refine follows_request trivial fun all => follows_request trivial fun now => ?_
  refine each_settles all (fun n seen here => sweepOne_settles now n forgets here) ?_
  exact settled_quiet settled (quiet_trans (quiet_plain rfl all) (quiet_plain rfl now))

-- Superseding.
theorem moveRepos_tame (old new : Bytes) : (moveRepos old new).Follows (Tame h) Anything seen := by
  refine follows_request ⟨rfl,trivial⟩ fun repos => ?_
  refine follows_fold (fun _ _ _ => True) _ repos [] (fun r rest seen done _ => ?_) trivial
  split
  · exact follows_request ⟨rfl,trivial⟩ fun moved => follows_done trivial
  · exact follows_done trivial

-- In the loop: the window is open on the record to be stored, every earlier one
-- not deleted yet is still to come, and none is left half way.
structure Taking (cfg : Cfg) (h : Handler) (base : Seen) (new : NamespaceRecord) (rest : List NamespaceRecord)
    (seen : Seen) (s : Superseding) : Prop where
  window : ∃ left, window seen = some (new,left) ∧ ∀ n ∈ left, ∃ m ∈ rest, m.id = n.id
  leaving : leaving seen = []
  holding : holding cfg h seen ⊆ holding cfg h base
  suffix : base <:+ seen
  id : s.new.id = new.id
  state : s.new.state = new.state
  resource : s.new.resource = new.resource
  binding : s.new.binding = new.binding

theorem supersedeOne_takes {base : Seen} {new : NamespaceRecord} (binds : h.forgets = false) (at_ : Int) (s : Superseding)
    (old : NamespaceRecord) (rest : List NamespaceRecord) (taking : Taking cfg h base new (old :: rest) seen s) :
    (supersedeOne at_ s old).Follows (Backed h) (Taking cfg h base new rest) seen := by
  refine follows_request trivial fun retired => ?_
  refine tame_bind cfg _ _ (moveRepos_tame old.id s.new.id) fun after moved _ quiet => ?_
  refine tame_bind cfg _ _ (dropEvents_tame old.id) fun last _ _ quiet' => ?_
  have all := quiet_trans quiet quiet'
  have left : leaving last = [old.id] := by
    rw [all.leaving]
    have none := taking.leaving
    simp only [leaving] at none
    simp [leaving,leavingNote,none]
  refine follows_request (.inl ⟨binds,?_⟩) fun gone => follows_done ?_
  · rw [left]
    exact List.mem_cons_self
  · obtain ⟨still,open_,todo⟩ := taking.window
    refine ⟨⟨still.filter (·.id ≠ old.id),?_,?_⟩,?_,?_,?_,taking.id,taking.state,taking.resource,taking.binding⟩
    · have same : window last = some (new,still) := all.window.trans open_
      simp only [window] at same
      simp [window,windowNote,same]
    · intro n inside
      obtain ⟨there,other⟩ := List.mem_filter.mp inside
      obtain ⟨m,member,same⟩ := todo n there
      have differs : n.id ≠ old.id := by simpa using other
      refine ⟨m,(List.mem_cons.mp member).resolve_left ?_,same⟩
      intro first
      subst first
      exact differs same.symm
    · simp only [leaving] at left
      simp [leaving,leavingNote,left]
    · exact fun id inside => taking.holding (all.holding inside)
    · exact taking.suffix.trans ((List.suffix_cons _ _).trans (all.suffix.trans (List.suffix_cons _ _)))

-- What a callback knows when it stores its record.
structure Taken (cfg : Cfg) (h : Handler) (base : Seen) (new : NamespaceRecord) (seen : Seen) (s : Superseding) : Prop where
  window : window seen = some (new,[])
  leaving : leaving seen = []
  holding : holding cfg h seen ⊆ holding cfg h base
  suffix : base <:+ seen
  id : s.new.id = new.id
  state : s.new.state = new.state
  resource : s.new.resource = new.resource
  binding : s.new.binding = new.binding

theorem supersede_takes (cfg : Cfg) (new : NamespaceRecord) (binds : h.forgets = false) (settled : leaving seen = []) :
    (supersede new).Follows (Backed h) (Taken cfg h seen new) seen := by
  refine follows_request trivial fun earlier => follows_request trivial fun at_ => ?_
  have start : Taking cfg h seen new earlier (⟨.now,at_⟩ :: ⟨.sameOwner new,earlier⟩ :: seen) { new := new } :=
    ⟨⟨earlier,rfl,fun n inside => ⟨n,inside,rfl⟩⟩,settled,fun _ inside => inside,
      (List.suffix_cons _ _).trans (List.suffix_cons _ _),rfl,rfl,rfl,rfl⟩
  have loop := follows_fold (Taking cfg h seen new) (supersedeOne at_) earlier _
    (fun old rest seen s here => supersedeOne_takes binds at_ s old rest here) start
  refine follows_bind _ _ loop fun after s taking => follows_done ?_
  obtain ⟨left,open_,todo⟩ := taking.window
  have none : left = [] := by
    refine List.eq_nil_iff_forall_not_mem.mpr fun n inside => ?_
    obtain ⟨m,member,_⟩ := todo n inside
    exact List.not_mem_nil member
  subst none
  exact ⟨open_,taking.leaving,taking.holding,taking.suffix,taking.id,taking.state,taking.resource,taking.binding⟩

end VerifiableGit.Service
