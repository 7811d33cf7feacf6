import VerifiableGit.Governance.Converge

-- What a run without a failed request comes to, for every account.
namespace VerifiableGit.Projection
open Text Governance

section
variable {site : Site} {repo : Repository} {desired : List RoleAssignment} {wanted : Wanted}

/-! The changes to make -/

theorem named_some {name : Bytes} {role : ForgeRole} (named : roleFromName name = some role) : role ≠ .none := by
  intro none_
  subst none_
  revert named
  rw [roleFromName]
  repeat' split
  all_goals simp

theorem collaborator_role (c : CollaboratorJson) : c.role ≠ .none := by
  rw [CollaboratorJson.role]
  cases named : c.roleName.bind roleFromName with
  | some role =>
    obtain ⟨name,_,found⟩ := Option.bind_eq_some_iff.mp named
    exact named_some found
  | none =>
    dsimp only
    repeat' split
    all_goals simp

theorem invitation_role (i : InvitationJson) : i.role ≠ .none := by
  rw [InvitationJson.role]
  cases named : roleFromName i.permissions with
  | some role => exact named_some named
  | none => simp

-- Whoever is listed has a role.
theorem entry_listed {repo : Repository} {account : Nat} {entry : ForgeAccount × Current} (found : repo.entry account = some entry) :
    repo.role account ≠ .none := by
  rw [← entry_role]
  obtain ⟨c,_,entry_⟩ | ⟨i,user,_,_,_,_,entry_⟩ | ⟨_,_,entry_⟩ := entry_cases repo account
  · rw [entry_]
    exact collaborator_role c
  · rw [entry_]
    exact invitation_role i
  · cases found.symm.trans entry_

theorem standing_of (observed : Observed site.github repo) (uninvited : OwnerUninvited site repo) {account : Nat}
    (other : some account ≠ site.adapter.personalOwner) :
    (repo.standing site).of account = (repo.entry account).map Prod.snd := by
  rw [Standing.of,standing_lookup observed uninvited,if_neg other]

theorem standing_role (observed : Observed site.github repo) (uninvited : OwnerUninvited site repo) {account : Nat}
    (other : some account ≠ site.adapter.personalOwner) : (repo.standing site).have_ account = repo.role account := by
  rw [Standing.have_,standing_of observed uninvited other,Option.map_map,← entry_role]
  rfl

theorem standing_mem (observed : Observed site.github repo) (uninvited : OwnerUninvited site repo) (c : Nat × ForgeAccount × Current) :
    c ∈ repo.standing site ↔ some c.1 ≠ site.adapter.personalOwner ∧ repo.entry c.1 = some c.2 := by
  rw [show c = (c.1,c.2) from rfl,sorted_lookup (standing_sorted site repo),standing_lookup observed uninvited]
  by_cases owner : some c.1 = site.adapter.personalOwner
  · simp [owner]
  · simp [owner]

theorem mem_todoOf (current : Standing) (x : ForgeAccount × ForgeRole) :
    x ∈ todoOf current wanted ↔ ∃ w ∈ wanted, w.2 = x ∧ current.have_ w.1 ≠ w.2.2 := by
  constructor
  · intro member
    obtain ⟨w,inside,equal⟩ := List.mem_map.mp member
    obtain ⟨listed,differs⟩ := List.mem_filter.mp inside
    exact ⟨w,listed,equal,of_decide_eq_true differs⟩
  · intro found
    obtain ⟨w,listed,equal,differs⟩ := found
    exact List.mem_map.mpr ⟨w,List.mem_filter.mpr ⟨listed,decide_eq_true differs⟩,equal⟩

theorem mem_todoFor (unlisted : Unlisted) (current : Standing) (x : ForgeAccount × ForgeRole) :
    x ∈ todoFor unlisted current wanted ↔ (∃ w ∈ wanted, w.2 = x ∧ current.have_ w.1 ≠ w.2.2) ∨
      unlisted = .remove ∧ ∃ c ∈ current, wanted.lookup c.1 = none ∧ x = (c.2.1,.none) := by
  cases unlisted with
  | keep => simp [todoFor,mem_todoOf]
  | remove =>
    rw [todoFor.eq_def,List.mem_append,mem_todoOf]
    refine or_congr_right ?_
    dsimp only
    rw [List.mem_map]
    constructor
    · intro found
      obtain ⟨c,inside,equal⟩ := found
      obtain ⟨listed,absent⟩ := List.mem_filter.mp inside
      exact ⟨rfl,c,listed,by simpa using absent,equal.symm⟩
    · intro found
      obtain ⟨_,c,listed,absent,equal⟩ := found
      exact ⟨c,List.mem_filter.mpr ⟨listed,by simp [absent]⟩,equal.symm⟩

theorem todo_start (observed : Observed site.github repo) (uninvited : OwnerUninvited site repo) (read : Read site.adapter desired wanted)
    (unlisted : Unlisted) : Todo site (repo.standing site) repo (todoFor unlisted (repo.standing site) wanted) := by
  have listed : ∀ x ∈ todoFor unlisted (repo.standing site) wanted, some x.1.id ≠ site.adapter.personalOwner := by
    intro x member
    obtain ⟨w,inside,equal,_⟩ | ⟨_,c,inside,_,equal⟩ := (mem_todoFor _ _ _).mp member
    · obtain ⟨_,_,_,_,other⟩ := read.asked w inside
      rw [← equal,← read.keyed w inside]
      exact other
    · obtain ⟨other,entry⟩ := (standing_mem observed uninvited c).mp inside
      rw [equal,entry_account entry]
      exact other
  refine ⟨?_,fun x member => standing_of observed uninvited (listed x member),?_,?_⟩
  · have wantedOnce : (((wanted.filter fun w => (repo.standing site).have_ w.1 ≠ w.2.2).map (·.2)).map (·.1.id)).Nodup := by
      rw [List.map_map]
      have keys : (wanted.filter fun w => (repo.standing site).have_ w.1 ≠ w.2.2).map ((fun x : ForgeAccount × ForgeRole => x.1.id) ∘ (·.2)) =
          (wanted.filter fun w => (repo.standing site).have_ w.1 ≠ w.2.2).map (·.1) :=
        List.map_congr_left fun w member => (read.keyed w (List.mem_filter.mp member).1).symm
      rw [keys]
      exact (sorted_keys read.sorted).sublist (List.filter_sublist.map _)
    have listedOnce : (((unlistedOf (repo.standing site) wanted).map fun c => (c.2.1,ForgeRole.none)).map (·.1.id)).Nodup := by
      rw [List.map_map]
      have keys : (unlistedOf (repo.standing site) wanted).map ((fun x : ForgeAccount × ForgeRole => x.1.id) ∘ fun c => (c.2.1,ForgeRole.none)) =
          (unlistedOf (repo.standing site) wanted).map (·.1) := by
        refine List.map_congr_left fun c member => ?_
        exact entry_account ((standing_mem observed uninvited c).mp (List.mem_filter.mp member).1).2
      rw [keys]
      exact (sorted_keys (standing_sorted site repo)).sublist (List.filter_sublist.map _)
    cases unlisted with
    | keep =>
      rw [todoFor,List.append_nil]
      exact wantedOnce
    | remove =>
      rw [todoFor,List.map_append]
      refine List.nodup_append.mpr ⟨wantedOnce,listedOnce,?_⟩
      intro a left b right same
      obtain ⟨x,inside,here⟩ := List.mem_map.mp left
      obtain ⟨w,listed,equal,_⟩ := (mem_todoOf _ _).mp inside
      obtain ⟨y,asked,there⟩ := List.mem_map.mp right
      obtain ⟨c,standing,drop⟩ := List.mem_map.mp asked
      obtain ⟨stands,absent⟩ := List.mem_filter.mp standing
      have key : c.1 = w.1 := by
        rw [read.keyed w listed,equal,here,same,← there,← drop]
        exact (entry_account ((standing_mem observed uninvited c).mp stands).2).symm
      rw [key,(sorted_lookup read.sorted).mp (show (w.1,w.2) ∈ wanted from listed)] at absent
      cases absent
  · intro x member
    obtain ⟨w,inside,equal,_⟩ | ⟨_,c,_,_,equal⟩ := (mem_todoFor _ _ _).mp member
    · obtain ⟨a,_,_,role,_⟩ := read.asked w inside
      rw [← equal,role]
      exact collapse_expressed _ _
    · exact .inl (by rw [equal])
  · intro x member
    obtain ⟨w,inside,equal,differs⟩ | ⟨_,c,inside,_,equal⟩ := (mem_todoFor _ _ _).mp member
    · rw [← equal,← read.keyed w inside]
      exact differs
    · obtain ⟨other,entry⟩ := (standing_mem observed uninvited c).mp inside
      rw [equal,entry_account entry,standing_role observed uninvited other]
      exact entry_listed entry

/-! What a whole run leaves -/

-- Nothing about the account is touched.
def Still (repo after : Repository) (account : Nat) : Prop :=
  after.member account = repo.member account ∧ after.invitation account = repo.invitation account

-- The App's own bot, as it stands on the repository.
def Site.OwnBot (site : Site) (repo : Repository) (account : Nat) : Prop :=
  ∃ c, repo.member account = some c ∧ sameIgnoringCase c.login site.adapter.ownBot = true

theorem isOwnBot_exact (observed : Observed site.github repo) (uninvited : OwnerUninvited site repo) {account : Nat}
    (other : some account ≠ site.adapter.personalOwner) :
    site.adapter.isOwnBot ((repo.standing site).of account) = true ↔ site.OwnBot repo account := by
  rw [standing_of observed uninvited other]
  obtain ⟨c,member,entry⟩ | ⟨i,user,member,_,_,_,entry⟩ | ⟨member,_,entry⟩ := entry_cases repo account
  · rw [entry]
    constructor
    · intro bot
      exact ⟨c,member,bot⟩
    · intro bot
      obtain ⟨d,found,same⟩ := bot
      cases member.symm.trans found
      exact same
  · rw [entry]
    refine ⟨fun bot => by simp [Adapter.isOwnBot] at bot,fun bot => ?_⟩
    obtain ⟨d,found,_⟩ := bot
    cases member.symm.trans found
  · rw [entry]
    refine ⟨fun bot => by simp [Adapter.isOwnBot] at bot,fun bot => ?_⟩
    obtain ⟨d,found,_⟩ := bot
    cases member.symm.trans found

theorem target_role (site : Site) (account : Nat) (role : ForgeRole) (cur : Option Current) :
    ((site.target account role cur).map Prod.snd).getD .none = role := by
  by_cases none_ : role = .none
  · subst none_
    rfl
  · rw [Site.target.eq_def,if_neg none_]
    split <;> rfl

theorem reached_role {after : Repository} {x : ForgeAccount × ForgeRole} {cur : Option Current}
    (held : after.held x.1.id = site.target x.1.id x.2 cur) : after.role x.1.id = x.2 := by
  rw [Repository.role,held,target_role]

theorem role_still {after : Repository} {account : Nat} (still : Still repo after account) : after.role account = repo.role account := by
  rw [Repository.role,Repository.role,held_still still]

-- An account wanted is asked for under its own role only, and when that is not the one it has.
theorem todo_wanted (observed : Observed site.github repo) (uninvited : OwnerUninvited site repo) (read : Read site.adapter desired wanted)
    {unlisted : Unlisted} {x : ForgeAccount × ForgeRole} (member : x ∈ todoFor unlisted (repo.standing site) wanted)
    {entry : ForgeAccount × ForgeRole} (found : wanted.lookup x.1.id = some entry) :
    x = entry ∧ (repo.standing site).have_ x.1.id ≠ entry.2 := by
  obtain ⟨w,inside,equal,differs⟩ | ⟨_,c,inside,absent,equal⟩ := (mem_todoFor _ _ _).mp member
  · have key : x.1.id = w.1 := by rw [← equal,read.keyed w inside]
    rw [key,(sorted_lookup read.sorted).mp (show (w.1,w.2) ∈ wanted from inside)] at found
    cases found
    exact ⟨equal.symm,key ▸ differs⟩
  · obtain ⟨_,entry_⟩ := (standing_mem observed uninvited c).mp inside
    rw [equal,entry_account entry_,absent] at found
    cases found

-- Someone not wanted is asked for under Remove only, to lose every role.
theorem todo_unwanted (observed : Observed site.github repo) (uninvited : OwnerUninvited site repo) (read : Read site.adapter desired wanted)
    {unlisted : Unlisted} {account : Nat} (unwanted : wanted.lookup account = none) (other : some account ≠ site.adapter.personalOwner) :
    (∃ x ∈ todoFor unlisted (repo.standing site) wanted, x.1.id = account) ↔ unlisted = .remove ∧ (repo.entry account).isSome = true := by
  constructor
  · intro found
    obtain ⟨x,member,same⟩ := found
    obtain ⟨w,inside,equal,_⟩ | ⟨remove,c,inside,_,equal⟩ := (mem_todoFor _ _ _).mp member
    · have key : account = w.1 := by rw [← same,← equal,read.keyed w inside]
      rw [key,(sorted_lookup read.sorted).mp (show (w.1,w.2) ∈ wanted from inside)] at unwanted
      cases unwanted
    · obtain ⟨_,entry⟩ := (standing_mem observed uninvited c).mp inside
      rw [← same,equal,entry_account entry,entry]
      exact ⟨remove,rfl⟩
  · intro found
    obtain ⟨remove,listed⟩ := found
    obtain ⟨entry,found⟩ := Option.isSome_iff_exists.mp listed
    have inside : (account,entry) ∈ repo.standing site := (standing_mem observed uninvited _).mpr ⟨other,found⟩
    exact ⟨(entry.1,.none),(mem_todoFor _ _ _).mpr (.inr ⟨remove,_,inside,unwanted,rfl⟩),entry_account found⟩

-- Each account once: what the claim of one run comes to, account by account.
structure Projects (site : Site) (desired : List RoleAssignment) (unlisted : Unlisted) (repo after : Repository) (report : ApplyReport) : Prop where
  wanted : ∀ a ∈ desired, some a.account.id ≠ site.adapter.personalOwner →
    ¬(site.OwnBot repo a.account.id ∧ collapseToLadder a.role site.adapter.ladder = .none) →
    after.role a.account.id = collapseToLadder a.role site.adapter.ladder
  kept : unlisted = .keep → ∀ account, (∀ a ∈ desired, a.account.id ≠ account) → Still repo after account
  removed : unlisted = .remove → ∀ account, (∀ a ∈ desired, a.account.id ≠ account) → some account ≠ site.adapter.personalOwner →
    ¬site.OwnBot repo account → after.member account = none ∧ after.invitation account = none
  owner : ∀ account, some account = site.adapter.personalOwner → Still repo after account
  bot : ∀ account, site.OwnBot repo account →
    (after.member account).isSome = true ∧ ((∀ a ∈ desired, a.account.id ≠ account) → Still repo after account)
  told : ∀ account, after.role account ≠ repo.role account → ∃ c, report.changes.filter (·.account.id = account) = [c] ∧
    c.before = repo.role account ∧ c.after = after.role account ∧
    c.outcome = if (after.held account).any Prod.fst then .invited else .applied

theorem unwanted_lookup (read : Read site.adapter desired wanted) {account : Nat} (unlisted : ∀ a ∈ desired, a.account.id ≠ account) :
    wanted.lookup account = none := by
  cases found : wanted.lookup account with
  | none => rfl
  | some entry =>
    obtain ⟨a,member,same,_⟩ := read.asked _ ((sorted_lookup read.sorted).mpr found)
    exact absurd same (unlisted a member)

section
variable {unlisted : Unlisted} {after : Repository} (observed : Observed site.github repo) (uninvited : OwnerUninvited site repo)
  (read : Read site.adapter desired wanted) (changed : Changed site (repo.standing site) repo (todoFor unlisted (repo.standing site) wanted) after)

include observed uninvited read changed

theorem owner_still {account : Nat} (owner : some account = site.adapter.personalOwner) : Still repo after account := by
  refine changed.others account fun x member same => ?_
  obtain ⟨w,inside,equal,_⟩ | ⟨_,c,inside,_,equal⟩ := (mem_todoFor _ _ _).mp member
  · obtain ⟨_,_,_,_,other⟩ := read.asked w inside
    have key : w.1 = account := by rw [read.keyed w inside,equal,same]
    exact absurd owner (key ▸ other)
  · obtain ⟨other,entry⟩ := (standing_mem observed uninvited c).mp inside
    have key : c.1 = account := by rw [← entry_account entry,← same,equal]
    exact absurd owner (key ▸ other)

theorem owner_uninvited : OwnerUninvited site after := by
  intro owner holder
  rw [(owner_still observed uninvited read changed (Option.mem_def.mp holder).symm).2]
  exact uninvited owner holder

-- A wanted account gets its role, unless it is the App's own bot and is to lose it.
theorem wanted_role {account : Nat} {entry : ForgeAccount × ForgeRole} (found : wanted.lookup account = some entry)
    (other : some account ≠ site.adapter.personalOwner) (free : ¬(site.OwnBot repo account ∧ entry.2 = .none)) :
    after.role account = entry.2 := by
  have inside := (sorted_lookup read.sorted).mpr found
  have key : entry.1.id = account := (read.keyed _ inside).symm
  by_cases differs : repo.role account = entry.2
  · have still : Still repo after account := by
      refine changed.others account fun x member same => ?_
      obtain ⟨_,apart⟩ := todo_wanted observed uninvited read member (same.symm ▸ found)
      rw [same,standing_role observed uninvited other] at apart
      exact absurd differs apart
    rw [role_still still,differs]
  · have asked : entry ∈ todoFor unlisted (repo.standing site) wanted :=
      (mem_todoFor _ _ _).mpr (.inl ⟨_,inside,rfl,by rw [standing_role observed uninvited other]; exact differs⟩)
    have open_ : site.blocked (repo.standing site) entry = false := by
      rw [← Bool.not_eq_true,Site.blocked,Bool.and_eq_true]
      intro stopped
      rw [key] at stopped
      exact free ⟨(isOwnBot_exact observed uninvited other).mp stopped.2,of_decide_eq_true stopped.1⟩
    rw [← key]
    exact reached_role (changed.reached entry asked open_)

-- Someone not wanted has nothing left under Remove, the App's own bot apart.
theorem unwanted_removed (remove : unlisted = .remove) {account : Nat} (unwanted : wanted.lookup account = none)
    (other : some account ≠ site.adapter.personalOwner) (free : ¬site.OwnBot repo account) :
    after.member account = none ∧ after.invitation account = none := by
  have listing : (∃ x ∈ todoFor unlisted (repo.standing site) wanted, x.1.id = account) ↔ unlisted = .remove ∧ (repo.entry account).isSome = true :=
    todo_unwanted observed uninvited read unwanted other
  cases entry : repo.entry account with
  | none =>
    have still : Still repo after account := by
      refine changed.others account fun x member same => ?_
      have listed := (listing.mp ⟨x,member,same⟩).2
      rw [entry] at listed
      cases listed
    obtain ⟨c,_,some_⟩ | ⟨i,user,_,_,_,_,some_⟩ | ⟨member,invited,_⟩ := entry_cases repo account
    · cases entry.symm.trans some_
    · cases entry.symm.trans some_
    · exact ⟨still.1.trans member,still.2.trans invited⟩
  | some standing =>
    obtain ⟨x,member,same⟩ := listing.mpr ⟨remove,by rw [entry]; rfl⟩
    have open_ : site.blocked (repo.standing site) x = false := by
      rw [← Bool.not_eq_true,Site.blocked,Bool.and_eq_true]
      intro stopped
      rw [same] at stopped
      exact free ((isOwnBot_exact observed uninvited other).mp stopped.2)
    have none_ : x.2 = .none := by
      obtain ⟨w,inside,equal,_⟩ | ⟨_,c,_,_,equal⟩ := (mem_todoFor _ _ _).mp member
      · have key : account = w.1 := by rw [← same,← equal,read.keyed w inside]
        rw [key,(sorted_lookup read.sorted).mp (show (w.1,w.2) ∈ wanted from inside)] at unwanted
        cases unwanted
      · rw [equal]
    have held := changed.reached x member open_
    rw [same,none_,Site.target.eq_def,if_pos rfl,Repository.held,Option.or_eq_none_iff] at held
    exact ⟨Option.map_eq_none_iff.mp held.1,Option.map_eq_none_iff.mp held.2⟩

theorem bot_stays {account : Nat} (bot : site.OwnBot repo account) : (after.member account).isSome = true ∧
    (wanted.lookup account = none → Still repo after account) := by
  obtain ⟨c,member,_⟩ := id bot
  have listed (still : Still repo after account) : (after.member account).isSome = true := by
    rw [still.1,member]
    rfl
  by_cases owner : some account = site.adapter.personalOwner
  · have still := owner_still observed uninvited read changed owner
    exact ⟨listed still,fun _ => still⟩
  by_cases open_ : ∃ x ∈ todoFor unlisted (repo.standing site) wanted, x.1.id = account ∧ site.blocked (repo.standing site) x = false
  · obtain ⟨x,inside,same,free⟩ := open_
    have cur : (repo.standing site).of x.1.id = some (.member c.login c.role) := by
      rw [same,standing_of observed uninvited owner,Repository.entry,member]
      rfl
    have some_ : x.2 ≠ .none := by
      intro none_
      rw [Site.blocked,none_,same,(isOwnBot_exact observed uninvited owner).mpr bot] at free
      cases free
    have held := changed.reached x inside free
    rw [cur,Site.target.eq_def,if_neg some_,same,Repository.held] at held
    constructor
    · cases found : after.member account with
      | some d => rfl
      | none =>
        rw [found] at held
        cases invited : after.invitation account with
        | none => rw [invited] at held; cases held
        | some i => rw [invited] at held; cases held
    · intro unwanted
      obtain ⟨w,listed,equal,_⟩ | ⟨_,d,_,_,equal⟩ := (mem_todoFor _ _ _).mp inside
      · have key : account = w.1 := by rw [← same,← equal,read.keyed w listed]
        rw [key,(sorted_lookup read.sorted).mp (show (w.1,w.2) ∈ wanted from listed)] at unwanted
        cases unwanted
      · exact absurd (by rw [equal]) some_
  · have still : Still repo after account := by
      refine changed.others account fun x inside same => ?_
      by_contra free
      exact open_ ⟨x,inside,same,Bool.eq_false_iff.mpr free⟩
    exact ⟨listed still,fun _ => still⟩

-- One change tells of every account whose role is another one.
theorem change_told (once : ((todoFor unlisted (repo.standing site) wanted).map (·.1.id)).Nodup) {account : Nat}
    (moved : after.role account ≠ repo.role account) :
    ∃ c, ((todoFor unlisted (repo.standing site) wanted).map (site.made (repo.standing site))).filter (·.account.id = account) = [c] ∧
      c.before = repo.role account ∧ c.after = after.role account ∧
      c.outcome = if (after.held account).any Prod.fst then .invited else .applied := by
  have other : some account ≠ site.adapter.personalOwner := by
    intro owner
    exact moved (role_still (owner_still observed uninvited read changed owner))
  have open_ : ∃ x ∈ todoFor unlisted (repo.standing site) wanted, x.1.id = account ∧ site.blocked (repo.standing site) x = false := by
    by_contra closed
    refine moved (role_still (changed.others account fun x inside same => ?_))
    by_contra free
    exact closed ⟨x,inside,same,Bool.eq_false_iff.mpr free⟩
  obtain ⟨x,inside,same,free⟩ := open_
  have held := changed.reached x inside free
  refine ⟨site.made (repo.standing site) x,?_,?_,?_,?_⟩
  · rw [List.filter_map]
    have keys : (todoFor unlisted (repo.standing site) wanted).filter ((fun c : RoleChange => decide (c.account.id = account)) ∘
        site.made (repo.standing site)) = [x] := by
      rw [← same]
      exact Library.filter_once once inside
    rw [keys,List.map_singleton]
  · rw [Site.made,same,standing_role observed uninvited other]
  · rw [← same,reached_role held,Site.made]
  · rw [Site.made,Site.outcome,free,← same,held]
    rfl

end

theorem read_projects {unlisted : Unlisted} {after : Repository} {report : ApplyReport} (observed : Observed site.github repo)
    (uninvited : OwnerUninvited site repo) (read : Read site.adapter desired wanted)
    (changed : Changed site (repo.standing site) repo (todoFor unlisted (repo.standing site) wanted) after)
    (told : report.changes = (todoFor unlisted (repo.standing site) wanted).map (site.made (repo.standing site))) :
    Projects site desired unlisted repo after report where
  wanted a member other free := by
    obtain ⟨account,found⟩ := read.complete a member other
    exact wanted_role observed uninvited read changed found other free
  kept keep account unwanted := by
    refine changed.others account fun x member same => ?_
    obtain ⟨w,inside,equal,_⟩ | ⟨remove,_⟩ := (mem_todoFor _ _ _).mp member
    · obtain ⟨a,listed,key,_⟩ := read.asked w inside
      have here : a.account.id = account := by rw [key,read.keyed w inside,equal,same]
      exact absurd here (unwanted a listed)
    · cases keep.symm.trans remove
  removed remove account unwanted other free :=
    unwanted_removed observed uninvited read changed remove (unwanted_lookup read unwanted) other free
  owner _ holder := owner_still observed uninvited read changed holder
  bot account bot := by
    obtain ⟨listed,still⟩ := bot_stays observed uninvited read changed bot
    exact ⟨listed,fun unwanted => still (unwanted_lookup read unwanted)⟩
  told account moved := by
    rw [told]
    exact change_told observed uninvited read changed (todo_start observed uninvited read unlisted).once moved

-- In the repository a run leaves, only the App's own bot is left to change.
theorem later_blocked {unlisted : Unlisted} {after : Repository} (observed : Observed site.github repo)
    (uninvited : OwnerUninvited site repo) (read : Read site.adapter desired wanted)
    (changed : Changed site (repo.standing site) repo (todoFor unlisted (repo.standing site) wanted) after)
    (x : ForgeAccount × ForgeRole) (member : x ∈ todoFor unlisted (after.standing site) wanted) :
    site.blocked (after.standing site) x = true := by
  have later := changed.observed
  have uninvited' := owner_uninvited observed uninvited read changed
  have listed := mem_todoFor unlisted (after.standing site) x |>.mp member
  -- a bot that the first run left alone is one still
  have bot {account : Nat} (other : some account ≠ site.adapter.personalOwner) (same : x.1.id = account) (none_ : x.2 = .none)
      (found : site.OwnBot repo account) (still : Still repo after account) : site.blocked (after.standing site) x = true := by
    obtain ⟨c,here,login⟩ := found
    rw [Site.blocked,none_,same,(isOwnBot_exact later uninvited' other).mpr ⟨c,still.1.trans here,login⟩]
    rfl
  obtain ⟨w,inside,equal,differs⟩ | ⟨remove,c,inside,absent,equal⟩ := listed
  · obtain ⟨_,_,_,_,other⟩ := read.asked w inside
    have found : wanted.lookup w.1 = some w.2 := (sorted_lookup read.sorted).mp inside
    rw [standing_role later uninvited' other] at differs
    have stopped : site.OwnBot repo w.1 ∧ w.2.2 = .none := by
      by_contra free
      exact differs (wanted_role observed uninvited read changed found other free)
    refine bot other (by rw [← equal,← read.keyed w inside]) (by rw [← equal]; exact stopped.2) stopped.1 ?_
    refine changed.others w.1 fun y asked same => ?_
    obtain ⟨entry,_⟩ := todo_wanted observed uninvited read asked (same.symm ▸ found)
    rw [Site.blocked,entry,← read.keyed w inside,(isOwnBot_exact observed uninvited other).mpr stopped.1,stopped.2]
    rfl
  · obtain ⟨other,entry⟩ := (standing_mem later uninvited' c).mp inside
    have own : site.OwnBot repo c.1 := by
      by_contra free
      obtain ⟨noMember,noInvitation⟩ := unwanted_removed observed uninvited read changed remove absent other free
      rw [Repository.entry,noMember,noInvitation] at entry
      cases entry
    exact bot other (by rw [equal]; exact entry_account entry) (by rw [equal]) own
      ((bot_stays observed uninvited read changed own).2 absent)

end

theorem prepare_read (site : Site) (fails : Call → Option ForgeError) (desired : List RoleAssignment) (repo : Repository) {wanted : Wanted}
    (run : wantedFrom site.adapter [] (site.adapter.expressible desired) = .ok wanted) :
    (∃ e, prepare site fails desired repo = .error e) ∨ prepare site fails desired repo = .ok (repo.standing site,wanted) := by
  rw [prepare,run]
  cases ask fails .locate with
  | error e => exact .inl ⟨e,rfl⟩
  | ok =>
    cases ask fails .token with
    | error e => exact .inl ⟨e,rfl⟩
    | ok =>
      cases ask fails .collaborators with
      | error e => exact .inl ⟨e,rfl⟩
      | ok =>
        cases ask fails .invitations with
        | error e => exact .inl ⟨e,rfl⟩
        | ok => exact .inr rfl

theorem report_changes (unlisted : Unlisted) (current : Standing) (wanted : Wanted) (changes : List RoleChange) :
    (reportFor unlisted current wanted changes).changes = changes := by
  cases unlisted <;> rfl

theorem roles_projected (site : Site) (desired : List RoleAssignment) (unlisted : Unlisted) (repo : Repository)
    (observed : Observed site.github repo) (uninvited : OwnerUninvited site repo) (agree : NoConflict site.adapter desired) :
    ∃ after report requests, applyRoles site (fun _ => none) desired unlisted repo = (.ok report,after,requests) ∧
      Projects site desired unlisted repo after report ∧
      ∀ fails, (applyRoles site fails desired unlisted after).2 = (after,[]) := by
  obtain ⟨wanted,run,read⟩ := wanted_read agree
  have ready : prepare site (fun _ => none) desired repo = .ok (repo.standing site,wanted) := by
    rw [prepare,run]
    rfl
  obtain ⟨after,requests,loop,changed⟩ := changeEach_done observed (todo_start observed uninvited read unlisted)
  refine ⟨after,_,requests,?_,read_projects observed uninvited read changed (report_changes unlisted (repo.standing site) wanted _),?_⟩
  · rw [applyRoles,ready]
    simp only [loop]
    rfl
  · intro fails
    rw [applyRoles]
    cases prepare_read site fails desired after run with
    | inl refused =>
      obtain ⟨e,failed⟩ := refused
      rw [failed]
    | inr ready =>
      rw [ready]
      simp only [changeEach_blocked fails (later_blocked observed uninvited read changed) after]

-- Account `n` is `a`, `n` times.
def lettered (id : Nat) : ForgeAccount := ⟨id,List.replicate id 97⟩

theorem lettered_id (id : Nat) : (lettered id).id = id := rfl
theorem lettered_login (id : Nat) : (lettered id).login.length = id := List.length_replicate

def github (joins : Bool) : GitHub where
  user := lettered
  user_id := lettered_id
  resolve login := login.length
  resolves := lettered_login
  joins _ := joins

def organization : Site := ⟨github false,true,none,ascii "vgi"⟩
def personal : Site := ⟨github false,false,some 1,ascii "vgi"⟩

def alice : ForgeAccount := (github false).user 1
def bob : ForgeAccount := (github false).user 2

def repository : Repository where
  collaborators := [⟨1,alice.login,some (ascii "read"),none⟩]
  invitations := [⟨9,some bob,ascii "write"⟩]

def invited : Repository := { invitations := [⟨9,some alice,ascii "write"⟩] }

theorem roles_projected_sample : ∃ after report requests,
    applyRoles organization (fun _ => none) [⟨alice,.write⟩] .remove repository = (.ok report,after,requests) ∧
      Projects organization [⟨alice,.write⟩] .remove repository after report ∧
      ∀ fails, (applyRoles organization fails [⟨alice,.write⟩] .remove after).2 = (after,[]) :=
  roles_projected organization [⟨alice,.write⟩] .remove repository ⟨by decide,by decide,by decide⟩
    (fun _ holder => by cases holder) (by unfold NoConflict; decide)

-- Someone new has an invitation, and the change says so; and an invitation
-- addressed to the holder of a personal account is gone with the others.
theorem roles_invited :
    (Observed organization.github {} ∧ NoConflict organization.adapter [⟨alice,.write⟩] ∧ ∃ after report requests,
      applyRoles organization (fun _ => none) [⟨alice,.write⟩] .keep {} = (.ok report,after,requests) ∧
        after.role 1 ≠ ({} : Repository).role 1 ∧ ∀ c ∈ report.changes, c.outcome ≠ .applied) ∧
    (Observed personal.github invited ∧ some 1 = personal.adapter.personalOwner ∧ ∃ after report requests,
      applyRoles personal (fun _ => none) [] .remove invited = (.ok report,after,requests) ∧ ¬Still invited after 1) := by
  refine ⟨⟨⟨by decide,by decide,by decide⟩,by unfold NoConflict; decide,_,_,_,rfl,by decide,by decide⟩,
    ⟨by decide,by decide,by decide⟩,by decide,_,_,_,rfl,?_⟩
  intro still
  exact absurd still.2 (by decide)

end VerifiableGit.Projection
