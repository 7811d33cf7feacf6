import VerifiableGit.Governance.MergeAgain

-- Exactly when a run keeps permissions and list together.
namespace VerifiableGit.MergeList
open Text Governance

section
variable {site : Site} {fails : Call → Option ForgeError} {unlisted : Unlisted} {repo : Repository} {desired : List RoleAssignment} {wanted : Wanted}

-- A run that was ended leaves the list as it was, and no report.
theorem together_ended {e : ForgeError} {after : Repository} {requests : List Request}
    (run : applyRoles site fails desired unlisted repo = (.error e,after,requests)) (kept : after.rule = repo.rule)
    (plain : ∀ r ∈ requests, r.isPatch = false) : Together site fails desired unlisted repo where
  applied report ok := by
    rw [run] at ok
    cases ok
  kept id listed _ := by
    rw [run,Repository.listed,kept]
    exact listed
  added login member := by
    rw [run,kept] at member
    exact .inl ((contains_folded _ _).mpr (List.mem_map_of_mem member))
  once := by
    have none_ : requests.filter Request.isPatch = [] := List.filter_eq_nil_iff.mpr fun r member patch => by
      rw [plain r member] at patch
      cases patch
    rw [run,none_]
    exact Nat.zero_le 1
  again report ok := by
    rw [run] at ok
    cases ok

section
variable {edits : Edits} {middle after : Repository} {last requests : List Request} (observed : Observed site.forgejo repo)
  (read : Read site.adapter desired wanted) (passed : Passed site (itemsOf site fails unlisted wanted repo) {} edits repo middle)
  (list : Written site (nextList unlisted (repo.current site) edits (allowOf repo.rule)) middle after last)
  (going : ¬Ends site fails desired unlisted repo) (fine : Fine site fails desired unlisted repo)

include observed read passed list fine in
theorem applied_fine {c : RoleChange} (told : c ∈ edits.changes) (applied : c.outcome = .applied) : after.role site c.account.id = c.after := by
  obtain ⟨i,inside,told⟩ := (mem_changes passed).mp told
  obtain ⟨id,entry,asked,item⟩ | ⟨x,spare,item⟩ := mem_items.mp inside
  · rw [item] at told
    obtain ⟨whose,⟨turn,_,role⟩ | ⟨_,why,failed⟩⟩ := told_wanted told
    · have asks := (asks_lookup read id entry.2).mpr ⟨entry.1,(sorted_lookup read.sorted).mp asked⟩
      have key : c.account.id = id := by rw [whose]; exact (read.keyed _ asked).symm
      rw [key,role]
      refine applied_role observed read passed list asks turn fun write none_ listed => ?_
      cases mode : unlisted with
      | remove => rfl
      | keep => exact absurd write (fine.joined mode id entry.2 asks listed none_ turn).1
    · cases applied.symm.trans failed
  · rw [item] at told
    obtain ⟨remove,whose,⟨turn,_,role⟩ | ⟨_,why,failed⟩⟩ := told_unlisted told
    · obtain ⟨here,absent⟩ := List.mem_filter.mp spare
      have stands := (mem_current observed x.1 x.2).mp here
      have key : c.account.id = x.1 := by rw [whose,(have_account stands).1,site.forgejo.user_id]
      rw [key,role,Repository.role,perm_removed observed passed list (by simpa using absent) stands remove turn]
    · cases applied.symm.trans failed

include observed read passed list fine in
theorem kept_fine {id : Nat} (listed : repo.listed site id = true)
    (named : unlisted = .keep ∧ Unasked site desired id ∨ id = site.bot ∨ ∃ c ∈ edits.changes, c.account.id = id ∧ ∃ why, c.outcome = .failed why) :
    after.listed site id = true := by
  rw [listed_lasts observed read passed list listed]
  obtain ⟨keep,silent⟩ | bot | failed := named
  · rw [Lasts]
    split
    · exact .inl keep
    · exact .inr ⟨keep,silent⟩
  · exact fine.guarded id listed (.inl bot)
  · exact fine.guarded id listed (.inr ((failed_exact observed read passed id).mp failed))

include read passed list in
theorem added_asked {login : Bytes} (member : login ∈ allowOf after.rule) : containsLogin (allowOf repo.rule) login = true ∨
    ∃ id role, Asks site desired id role ∧ ForgeRole.maintain.level ≤ role.level ∧ sameIgnoringCase login (site.forgejo.user id).login = true := by
  have inside := (list.list login).mp ((contains_folded _ _).mpr (List.mem_map_of_mem member))
  rw [nextList,added_contains] at inside
  cases inside with
  | inl kept =>
    obtain ⟨a,here,same⟩ := List.mem_map.mp ((contains_folded _ _).mp kept)
    exact .inl ((contains_folded _ _).mpr (List.mem_map.mpr ⟨a,(List.mem_filter.mp here).1,same⟩))
  | inr added =>
    obtain ⟨a,inside,same⟩ := added
    cases (passed.add a).mp inside with
    | inl none_ => cases none_
    | inr added =>
      obtain ⟨i,item,add,equal⟩ := added
      obtain ⟨id,entry,asked,here⟩ | ⟨x,_,here⟩ := mem_items.mp item
      · rw [here] at add equal
        have needs : listNeeds entry.2 = true := by
          simp only [wantedItem,Bool.and_eq_true] at add
          exact add.1.2
        refine .inr ⟨id,entry.2,(asks_lookup read id entry.2).mpr ⟨entry.1,(sorted_lookup read.sorted).mp asked⟩,(needs_level _).mp needs,?_⟩
        exact (same_folded _ _).mpr (same.symm.trans (congrArg folded equal))
      · rw [here] at add
        cases unlisted <;> cases add

include observed read passed list going fine in
theorem together_fine (run : wantedFrom site.adapter [] (site.adapter.expressible desired) = .ok wanted)
    (ran : applyRoles site fails desired unlisted repo = (.ok (reportOf edits edits.changes),after,requests))
    (once : (requests.filter Request.isPatch).length ≤ 1) : Together site fails desired unlisted repo where
  applied report ok c told applied := by
    rw [ran] at ok ⊢
    cases ok
    exact applied_fine observed read passed list fine told applied
  kept id listed named := by
    rw [ran] at named ⊢
    refine kept_fine observed read passed list fine listed (named.imp_right (Or.imp_right fun reported => ?_))
    obtain ⟨_,ok,failed⟩ := reported
    cases ok
    exact failed
  added login member := by
    rw [ran] at member
    exact added_asked read passed list member
  once := by
    rw [ran]
    exact once
  again report ok none_ later := by
    rw [ran] at ok ⊢
    cases ok
    have sound : ∀ id, ¬Fails site fails desired unlisted repo id := by
      intro id failed
      obtain ⟨c,told,_,why,outcome⟩ := (failed_exact observed read passed id).mpr failed
      exact none_ c told why outcome
    refine quiet_run (again_quiet observed read passed list going sound fun keep id role asks listed absent turn => ?_) read run later
    obtain ⟨write,reading⟩ := fine.joined keep id role asks listed absent turn
    refine ⟨write,fun same => ?_⟩
    obtain ⟨other,given,asks',refused⟩ := reading same
    exact sound other (.inl ⟨given,asks',refused⟩)

-- Without a failing request no turn ends the run.
theorem never_stopped (have_ : Option Have) (id : Nat) (role : ForgeRole) (e : ForgeError) : turnFor site (fun _ => none) id have_ role ≠ .stopped e := by
  have silent : firstFailure (fun _ => none) id (have_.map (·.perm)) (have_.any (·.listed)) role = none := by
    rw [firstFailure,permFailure]
    cases (Perm.forRole role).isSome <;> simp
  obtain ⟨_,turn⟩ | ⟨_,⟨_,turn⟩ | ⟨_,⟨_,failed,_⟩ | ⟨_,turn⟩⟩⟩ := turn_cases site (fun _ => none) id have_ role
  · rw [turn]
    intro same
    cases same
  · rw [turn]
    intro same
    cases same
  · cases silent.symm.trans failed
  · rw [turn]
    intro same
    cases same

variable (unlisted) in
-- A reader who is on the list is taken off it by the next run.
theorem reader_leaves {id : Nat} (run : wantedFrom site.adapter [] (site.adapter.expressible desired) = .ok wanted)
    (read : Read site.adapter desired wanted) (observed : Observed site.forgejo repo) (keep : unlisted = .keep) (asks : Asks site desired id .read)
    (reads : site.perm repo id = some .read) {rule : ProtectionJson} (ruled : repo.rule = some rule) :
    (applyRoles site (fun _ => none) desired unlisted repo).2.1.listed site id = false := by
  obtain ⟨account,found⟩ := (asks_lookup read _ _).mp asks
  obtain ⟨stopped,_⟩ | ⟨_,edits,middle,after,last,requests,ran,passed,list,_⟩ :=
    run_cases (fun _ => none) unlisted ⟨rfl,rfl,rfl,rfl,rfl⟩ observed ruled run read
  · cases stopped with
    | inl wanted_ =>
      obtain ⟨x,_,e,stops⟩ := wanted_
      exact absurd stops (never_stopped _ _ _ _)
    | inr removed => cases keep.symm.trans removed.1
  · rw [ran]
    refine Bool.eq_false_iff.mpr fun listed => ?_
    cases stands : site.haveOf repo id with
    | none =>
      rw [(have_none id).mp stands] at reads
      cases reads
    | some h =>
      have both := (listed_wanted observed read passed list found stands).mp listed
      cases both.1

include observed read passed list in
theorem fine_together (run : wantedFrom site.adapter [] (site.adapter.expressible desired) = .ok wanted)
    (ran : applyRoles site fails desired unlisted repo = (.ok (reportOf edits edits.changes),after,requests))
    (together : Together site fails desired unlisted repo) : Fine site fails desired unlisted repo where
  joined keep id role asks listed absent turn := by
    obtain ⟨account,found⟩ := (asks_lookup read _ _).mp asks
    have on : after.listed site id = true :=
      (listed_joining observed read passed list found ((have_none id).mpr absent)).mpr (.inl ⟨listed,keep⟩)
    have perm := perm_applied read passed list found turn
    constructor
    · intro write
      subst write
      obtain ⟨c,told,whose,applied,role⟩ := tells_applied (x := (id,account,ForgeRole.write)) turn
      have asked := (sorted_lookup read.sorted).mpr found
      have member := (mem_changes passed).mpr ⟨_,mem_items.mpr (.inl ⟨id,(account,ForgeRole.write),asked,rfl⟩),told⟩
      have has := together.applied _ (by rw [ran]) c member applied
      have key : c.account.id = id := by rw [whose]; exact (read.keyed _ asked).symm
      rw [ran,key,role,Repository.role,perm] at has
      simp only [Perm.forRole,on] at has
      cases has
    · intro reading
      subst reading
      by_contra none_
      have silent : ∀ c ∈ edits.changes, ∀ why, c.outcome ≠ .failed why := by
        intro c told why failed
        cases (failed_exact observed read passed c.account.id).mp ⟨c,told,rfl,why,failed⟩ with
        | inl refused =>
          obtain ⟨given,asks',refused⟩ := refused
          exact none_ ⟨_,given,asks',refused⟩
        | inr removed => cases keep.symm.trans removed.1
      have next := together.again _ (by rw [ran]) silent fun _ => none
      obtain ⟨rule,ruled,_⟩ := list.enabled
      have reads : site.perm after id = some .read := by
        obtain ⟨_,_,_,other,_⟩ := asks
        rw [Site.perm,if_neg other]
        exact perm
      have leaves := reader_leaves unlisted run read (observed_after passed list) keep asks reads ruled
      rw [ran] at next
      rw [next] at leaves
      exact Bool.false_ne_true (leaves.symm.trans on)
  guarded id listed either := by
    refine (listed_lasts observed read passed list listed).mp ?_
    have kept := together.kept id listed (.inr (either.imp_right fun failed => ⟨_,by rw [ran],(failed_exact observed read passed id).mpr failed⟩))
    rw [ran] at kept
    exact kept

end

-- Every run keeps both together but for the entries of `Fine`.
theorem together_exact (answers : PerAccount fails) (observed : Observed site.forgejo repo) (agree : NoConflict site.adapter desired)
    (ruled : repo.rule ≠ none) : Together site fails desired unlisted repo ↔
      Ends site fails desired unlisted repo ∨ Fine site fails desired unlisted repo := by
  obtain ⟨wanted,run,read⟩ := wanted_read agree
  obtain ⟨rule,ruled⟩ := Option.ne_none_iff_exists'.mp ruled
  obtain ⟨stopped,e,after,requests,ran,kept,plain⟩ | ⟨going,edits,middle,after,last,requests,ran,passed,list,once⟩ :=
    run_cases fails unlisted answers observed ruled run read
  · exact ⟨fun _ => .inl ((ends_exact observed read).mp stopped),fun _ => together_ended ran kept plain⟩
  · have going : ¬Ends site fails desired unlisted repo := fun ends => going ((ends_exact observed read).mpr ends)
    constructor
    · exact fun together => .inr (fine_together observed read passed list run ran together)
    · exact fun either => together_fine observed read passed list going (either.resolve_left going) run ran once

end

/-! Two runs -/

namespace Sample

-- Every account's login is as many letters long as its id says.
def forgejo : Forgejo where
  user id := ⟨id,List.replicate id 97⟩
  user_id _ := rfl
  resolve := List.length
  resolves _ := List.length_replicate
  unique a b same := by
    have long := congrArg List.length ((same_folded _ _).mp same)
    simpa only [folded,List.length_map,List.length_replicate] using long

def site : Site := ⟨forgejo,true,none,9⟩

def repository (listed : List Bytes) : Repository where
  collaborators := [⟨1,(forgejo.user 1).login,ascii "write"⟩]
  rule := some { ruleName := some (ascii "main"), enableMergeWhitelist := true, mergeWhitelistUsernames := listed }

-- The request that sets the account's permission is refused.
def refused (call : Call) : Option ForgeError := if call = .set_ 1 then some (.forbidden []) else none

end Sample

theorem together_promoted : Together Sample.site (fun _ => none) [⟨Sample.forgejo.user 1,.maintain⟩] .keep (Sample.repository []) := by
  have unlisted (id : Nat) : (Sample.repository []).listed Sample.site id = false := rfl
  refine (together_exact ⟨rfl,rfl,rfl,rfl,rfl⟩ ⟨by decide,by decide,by decide⟩ (by unfold NoConflict; decide) (by decide)).mpr (.inr ⟨?_,?_⟩)
  · exact fun _ id _ _ listed => absurd (unlisted id ▸ listed) Bool.false_ne_true
  · exact fun id listed => absurd (unlisted id ▸ listed) Bool.false_ne_true

-- A change of a listed maintainer to reader that was refused takes their place
-- on the list away all the same.
theorem place_lost : PerAccount Sample.refused ∧ Observed Sample.forgejo (Sample.repository [(Sample.forgejo.user 1).login]) ∧
    NoConflict Sample.site.adapter [⟨Sample.forgejo.user 1,.read⟩] ∧ (Sample.repository [(Sample.forgejo.user 1).login]).rule ≠ none ∧
      ¬Together Sample.site Sample.refused [⟨Sample.forgejo.user 1,.read⟩] .keep (Sample.repository [(Sample.forgejo.user 1).login]) := by
  refine ⟨⟨rfl,rfl,rfl,rfl,rfl⟩,⟨by decide,by decide,by decide⟩,by unfold NoConflict; decide,by decide,fun together => ?_⟩
  have kept := together.kept 1 (by decide) (.inr (.inr ⟨_,rfl,_,List.mem_cons_self,rfl,_,rfl⟩))
  exact absurd kept (by decide)

end VerifiableGit.MergeList
