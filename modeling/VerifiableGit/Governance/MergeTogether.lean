import VerifiableGit.Governance.MergeExact

-- What a run promises of permissions and list together, and when it keeps it.
namespace VerifiableGit.MergeList
open Text Governance

def Repository.role (site : Site) (repo : Repository) (id : Nat) : ForgeRole :=
  match repo.perm id with
  | some p => p.observed (repo.listed site id)
  | none => .none

-- The role an account is wanted with, rounded down.
def Asks (site : Site) (desired : List RoleAssignment) (id : Nat) (role : ForgeRole) : Prop :=
  ∃ a ∈ desired, a.account.id = id ∧ some id ≠ site.adapter.personalOwner ∧ role = collapseToLadder a.role site.adapter.ladder

def Unasked (site : Site) (desired : List RoleAssignment) (id : Nat) : Prop := ∀ role, ¬Asks site desired id role

section
variable (site : Site) (fails : Call → Option ForgeError) (desired : List RoleAssignment) (unlisted : Unlisted) (repo : Repository)

structure Together : Prop where
  applied : ∀ report, (applyRoles site fails desired unlisted repo).1 = .ok report → ∀ c ∈ report.changes, c.outcome = .applied →
    (applyRoles site fails desired unlisted repo).2.1.role site c.account.id = c.after
  kept : ∀ id, repo.listed site id = true →
    (unlisted = .keep ∧ Unasked site desired id ∨ id = site.bot ∨
      ∃ report, (applyRoles site fails desired unlisted repo).1 = .ok report ∧
        ∃ c ∈ report.changes, c.account.id = id ∧ ∃ why, c.outcome = .failed why) →
    (applyRoles site fails desired unlisted repo).2.1.listed site id = true
  added : ∀ login ∈ allowOf (applyRoles site fails desired unlisted repo).2.1.rule, containsLogin (allowOf repo.rule) login = true ∨
    ∃ id role, Asks site desired id role ∧ ForgeRole.maintain.level ≤ role.level ∧ sameIgnoringCase login (site.forgejo.user id).login = true
  once : ((applyRoles site fails desired unlisted repo).2.2.filter Request.isPatch).length ≤ 1
  again : ∀ report, (applyRoles site fails desired unlisted repo).1 = .ok report → (∀ c ∈ report.changes, ∀ why, c.outcome ≠ .failed why) →
    ∀ later, (applyRoles site later desired unlisted (applyRoles site fails desired unlisted repo).2.1).2 =
      ((applyRoles site fails desired unlisted repo).2.1,[])

-- A request for one account gets an answer that ends the run.
def Ends : Prop :=
  (∃ id role, Asks site desired id role ∧ ∃ e, site.turn fails repo id role = .stopped e) ∨
    unlisted = .remove ∧ ∃ id, Unasked site desired id ∧ site.perm repo id ≠ none ∧ ∃ e, removeTurn fails id = .stopped e

def Refused (id : Nat) (role : ForgeRole) : Prop :=
  site.turn fails repo id role = .blocked ∨ ∃ e, site.turn fails repo id role = .failed e

-- A request for the account fails, or it is the bot and is to lose its role.
def Fails (id : Nat) : Prop :=
  (∃ role, Asks site desired id role ∧ Refused site fails repo id role) ∨
    unlisted = .remove ∧ Unasked site desired id ∧ site.perm repo id ≠ none ∧ ∃ e, removeTurn fails id = .failed e

-- The loops leave the account's entry in the list.
def Lasts (id : Nat) : Prop :=
  if site.perm repo id = none then
    unlisted = .keep ∨ ∃ role, Asks site desired id role ∧ listNeeds role = true ∧ site.turn fails repo id role = .applied
  else (∃ role, Asks site desired id role ∧ listNeeds role = true) ∨ unlisted = .keep ∧ Unasked site desired id

structure Fine : Prop where
  joined : unlisted = .keep → ∀ id role, Asks site desired id role → repo.listed site id = true → site.perm repo id = none →
    site.turn fails repo id role = .applied →
      role ≠ .write ∧ (role = .read → ∃ other given, Asks site desired other given ∧ Refused site fails repo other given)
  guarded : ∀ id, repo.listed site id = true → (id = site.bot ∨ Fails site fails desired unlisted repo id) →
    Lasts site fails desired unlisted repo id

end

section
variable {site : Site} {fails : Call → Option ForgeError} {unlisted : Unlisted} {repo : Repository}
  {desired : List RoleAssignment} {wanted : Wanted}

theorem asks_lookup (read : Read site.adapter desired wanted) (id : Nat) (role : ForgeRole) :
    Asks site desired id role ↔ ∃ account, wanted.lookup id = some (account,role) := by
  constructor
  · intro asks
    obtain ⟨a,member,same,other,rounded⟩ := asks
    subst same rounded
    exact read.complete a member other
  · intro found
    obtain ⟨account,found⟩ := found
    obtain ⟨a,member,same,rounded,other⟩ := read.asked _ ((sorted_lookup read.sorted).mpr found)
    exact ⟨a,member,same,other,rounded⟩

theorem unasked_lookup (read : Read site.adapter desired wanted) (id : Nat) : Unasked site desired id ↔ wanted.lookup id = none := by
  constructor
  · intro unasked
    cases found : wanted.lookup id with
    | none => rfl
    | some entry => exact absurd ((asks_lookup read id entry.2).mpr ⟨entry.1,found⟩) (unasked entry.2)
  · intro absent role asks
    obtain ⟨account,found⟩ := (asks_lookup read id role).mp asks
    cases absent.symm.trans found

theorem have_perm (id : Nat) : (site.haveOf repo id).map (·.perm) = site.perm repo id := by
  rw [Site.haveOf,Option.map_map]
  exact Option.map_id.symm ▸ rfl

theorem have_none (id : Nat) : site.haveOf repo id = none ↔ site.perm repo id = none := by
  rw [Site.haveOf,Option.map_eq_none_iff]

theorem needs_level (role : ForgeRole) : listNeeds role = true ↔ ForgeRole.maintain.level ≤ role.level := decide_eq_true_iff

theorem asks_expressed {id : Nat} {role : ForgeRole} (asks : Asks site desired id role) : role = .none ∨ role ∈ ladder := by
  obtain ⟨a,_,_,_,rounded⟩ := asks
  rw [rounded]
  exact collapse_expressed _ _

theorem ends_exact (observed : Observed site.forgejo repo) (read : Read site.adapter desired wanted) :
    Stopped site fails unlisted wanted repo ↔ Ends site fails desired unlisted repo := by
  refine or_congr ?_ (and_congr_right fun _ => ?_)
  · constructor
    · intro stopped
      obtain ⟨x,member,e,stops⟩ := stopped
      exact ⟨x.1,x.2.2,(asks_lookup read _ _).mpr ⟨x.2.1,(sorted_lookup read.sorted).mp member⟩,e,stops⟩
    · intro ends
      obtain ⟨id,role,asks,e,stops⟩ := ends
      obtain ⟨account,found⟩ := (asks_lookup read _ _).mp asks
      exact ⟨(id,account,role),(sorted_lookup read.sorted).mpr found,e,stops⟩
  · constructor
    · intro stopped
      obtain ⟨x,member,e,stops⟩ := stopped
      obtain ⟨inside,absent⟩ := List.mem_filter.mp member
      have stands := (mem_current observed x.1 x.2).mp inside
      refine ⟨x.1,(unasked_lookup read _).mpr (by simpa using absent),fun none_ => ?_,e,stops⟩
      rw [(have_none x.1).mpr none_] at stands
      cases stands
    · intro ends
      obtain ⟨id,unasked_,some_,e,stops⟩ := ends
      cases stands : site.haveOf repo id with
      | none => exact absurd ((have_none id).mp stands) some_
      | some h =>
        refine ⟨(id,h),List.mem_filter.mpr ⟨(mem_current observed id h).mpr stands,?_⟩,e,stops⟩
        simp [(unasked_lookup read id).mp unasked_]

/-! What the report says -/

theorem told_wanted {have_ : Option Have} {x : Nat × ForgeAccount × ForgeRole} {c : RoleChange}
    (told : c ∈ (wantedItem site fails have_ x).told) : c.account = x.2.1 ∧
      (turnFor site fails x.1 have_ x.2.2 = .applied ∧ c.outcome = .applied ∧ c.after = x.2.2 ∨
        (turnFor site fails x.1 have_ x.2.2 = .blocked ∨ ∃ e, turnFor site fails x.1 have_ x.2.2 = .failed e) ∧ ∃ why, c.outcome = .failed why) := by
  cases turn : turnFor site fails x.1 have_ x.2.2 with
  | blocked =>
    simp only [wantedItem,turn,List.mem_singleton] at told
    rw [told]
    exact ⟨rfl,.inr ⟨.inl rfl,_,rfl⟩⟩
  | kept =>
    simp only [wantedItem,turn] at told
    cases told
  | stopped e =>
    simp only [wantedItem,turn] at told
    cases told
  | failed e =>
    simp only [wantedItem,turn,List.mem_singleton] at told
    rw [told]
    exact ⟨rfl,.inr ⟨.inr ⟨e,rfl⟩,_,rfl⟩⟩
  | applied =>
    simp only [wantedItem,turn,List.mem_singleton] at told
    rw [told]
    exact ⟨rfl,.inl ⟨rfl,rfl,rfl⟩⟩

theorem tells_refused {have_ : Option Have} {x : Nat × ForgeAccount × ForgeRole}
    (refused : turnFor site fails x.1 have_ x.2.2 = .blocked ∨ ∃ e, turnFor site fails x.1 have_ x.2.2 = .failed e) :
    ∃ c ∈ (wantedItem site fails have_ x).told, c.account = x.2.1 ∧ ∃ why, c.outcome = .failed why := by
  cases refused with
  | inl turn =>
    simp only [wantedItem,turn,List.mem_singleton]
    exact ⟨_,rfl,rfl,_,rfl⟩
  | inr failed =>
    obtain ⟨e,turn⟩ := failed
    simp only [wantedItem,turn,List.mem_singleton]
    exact ⟨_,rfl,rfl,_,rfl⟩

theorem tells_applied {have_ : Option Have} {x : Nat × ForgeAccount × ForgeRole} (turn : turnFor site fails x.1 have_ x.2.2 = .applied) :
    ∃ c ∈ (wantedItem site fails have_ x).told, c.account = x.2.1 ∧ c.outcome = .applied ∧ c.after = x.2.2 := by
  simp only [wantedItem,turn,List.mem_singleton]
  exact ⟨_,rfl,rfl,rfl,rfl⟩

theorem told_unlisted {x : Nat × Have} {c : RoleChange} (told : c ∈ (unlistedItem fails unlisted x).told) : unlisted = .remove ∧
    c.account = x.2.account ∧ (removeTurn fails x.1 = .applied ∧ c.outcome = .applied ∧ c.after = .none ∨
      (∃ e, removeTurn fails x.1 = .failed e) ∧ ∃ why, c.outcome = .failed why) := by
  cases unlisted with
  | keep => cases told
  | remove =>
    refine ⟨rfl,?_⟩
    cases turn : removeTurn fails x.1 with
    | failed e =>
      simp only [unlistedItem,turn,List.mem_singleton] at told
      rw [told]
      exact ⟨rfl,.inr ⟨⟨e,rfl⟩,_,rfl⟩⟩
    | applied =>
      simp only [unlistedItem,turn,List.mem_singleton] at told
      rw [told]
      exact ⟨rfl,.inl ⟨rfl,rfl,rfl⟩⟩
    | blocked | kept | stopped =>
      simp only [unlistedItem,turn] at told
      cases told

theorem tells_unlisted {x : Nat × Have} {e : ForgeError} (turn : removeTurn fails x.1 = .failed e) :
    ∃ c ∈ (unlistedItem fails .remove x).told, c.account = x.2.account ∧ ∃ why, c.outcome = .failed why := by
  simp only [unlistedItem,turn,List.mem_singleton]
  exact ⟨_,rfl,rfl,_,rfl⟩

section
variable {edits : Edits} {middle : Repository} (observed : Observed site.forgejo repo) (read : Read site.adapter desired wanted)
  (passed : Passed site (itemsOf site fails unlisted wanted repo) {} edits repo middle)

theorem mem_items {i : Item} : i ∈ itemsOf site fails unlisted wanted repo ↔
    (∃ id entry, (id,entry) ∈ wanted ∧ i = wantedItem site fails (site.haveOf repo id) (id,entry)) ∨
    ∃ x ∈ unasked wanted (repo.current site), i = unlistedItem fails unlisted x := by
  rw [itemsOf,List.mem_append,List.mem_map,List.mem_map]
  refine or_congr ?_ (exists_congr fun x => and_congr_right fun _ => eq_comm)
  constructor
  · intro found
    obtain ⟨x,member,same⟩ := found
    exact ⟨x.1,x.2,member,same.symm⟩
  · intro found
    obtain ⟨id,entry,member,same⟩ := found
    exact ⟨(id,entry),member,same.symm⟩

include passed in
theorem mem_changes {c : RoleChange} : c ∈ edits.changes ↔ ∃ i ∈ itemsOf site fails unlisted wanted repo, c ∈ i.told := by
  rw [passed.changes]
  exact List.mem_flatMap

include observed read passed

-- Whose change is reported Failed.
theorem failed_exact (id : Nat) : (∃ c ∈ edits.changes, c.account.id = id ∧ ∃ why, c.outcome = .failed why) ↔
    Fails site fails desired unlisted repo id := by
  constructor
  · intro found
    obtain ⟨c,member,account,why,outcome⟩ := found
    obtain ⟨i,inside,told⟩ := (mem_changes passed).mp member
    obtain ⟨key,entry,asked,item⟩ | ⟨x,spare,item⟩ := mem_items.mp inside
    · rw [item] at told
      obtain ⟨whose,⟨_,applied,_⟩ | ⟨refused,_⟩⟩ := told_wanted told
      · cases outcome.symm.trans applied
      · have same : key = id := by rw [← account,whose]; exact read.keyed _ asked
        subst same
        exact .inl ⟨entry.2,(asks_lookup read _ _).mpr ⟨entry.1,(sorted_lookup read.sorted).mp asked⟩,refused⟩
    · rw [item] at told
      obtain ⟨remove,whose,⟨_,applied,_⟩ | ⟨refused,_⟩⟩ := told_unlisted told
      · cases outcome.symm.trans applied
      · obtain ⟨here,absent⟩ := List.mem_filter.mp spare
        have stands := (mem_current observed x.1 x.2).mp here
        have same : x.1 = id := by rw [← account,whose,(have_account stands).1,site.forgejo.user_id]
        subst same
        refine .inr ⟨remove,(unasked_lookup read _).mpr (by simpa using absent),fun none_ => ?_,refused⟩
        rw [(have_none x.1).mpr none_] at stands
        cases stands
  · intro fails_
    obtain ⟨role,asks,refused⟩ | ⟨remove,unasked_,some_,e,turn⟩ := fails_
    · obtain ⟨account,found⟩ := (asks_lookup read _ _).mp asks
      have asked := (sorted_lookup read.sorted).mpr found
      obtain ⟨c,told,whose,failed⟩ := tells_refused (x := (id,account,role)) refused
      refine ⟨c,(mem_changes passed).mpr ⟨_,mem_items.mpr (.inl ⟨id,(account,role),asked,rfl⟩),told⟩,?_,failed⟩
      rw [whose]
      exact (read.keyed _ asked).symm
    · cases stands : site.haveOf repo id with
      | none => exact absurd ((have_none id).mp stands) some_
      | some h =>
        obtain ⟨c,told,whose,failed⟩ := tells_unlisted (x := (id,h)) turn
        have spare : (id,h) ∈ unasked wanted (repo.current site) :=
          List.mem_filter.mpr ⟨(mem_current observed id h).mpr stands,by simp [(unasked_lookup read id).mp unasked_]⟩
        refine ⟨c,(mem_changes passed).mpr ⟨_,mem_items.mpr (.inr ⟨(id,h),spare,remove ▸ rfl⟩),told⟩,?_,failed⟩
        rw [whose,(have_account stands).1,site.forgejo.user_id]

variable {after : Repository} {last : List Request} (list : Written site (nextList unlisted (repo.current site) edits (allowOf repo.rule)) middle after last)

include list

omit observed read in
theorem observed_after : Observed site.forgejo after where
  once := by rw [list.collaborators]; exact passed.observed.once
  logins := by rw [list.collaborators]; exact passed.observed.logins
  names := list.names

-- An entry that was there outlives the run when the loops leave it.
theorem listed_lasts {id : Nat} (listed : repo.listed site id = true) :
    after.listed site id = true ↔ Lasts site fails desired unlisted repo id := by
  rw [Lasts]
  cases stands : site.haveOf repo id with
  | none =>
    rw [if_pos ((have_none id).mp stands)]
    cases found : wanted.lookup id with
    | none =>
      rw [listed_stranger observed read passed list found stands]
      have silent := (unasked_lookup read id).mpr found
      exact ⟨fun both => .inl both.2,fun either => ⟨listed,either.elim (fun keep => keep) fun asked => by
        obtain ⟨role,asks,_⟩ := asked
        exact absurd asks (silent role)⟩⟩
    | some entry =>
      rw [listed_joining observed read passed list found stands]
      constructor
      · intro either
        exact either.elim (fun both => .inl both.2) fun both => .inr ⟨entry.2,(asks_lookup read _ _).mpr ⟨entry.1,found⟩,both.2,both.1⟩
      · intro either
        refine either.elim (fun keep => .inl ⟨listed,keep⟩) fun asked => .inr ?_
        obtain ⟨role,asks,needs,applied⟩ := asked
        obtain ⟨account,found'⟩ := (asks_lookup read _ _).mp asks
        cases found.symm.trans found'
        exact ⟨applied,needs⟩
  | some h =>
    have some_ : site.perm repo id ≠ none := fun none_ => by
      rw [(have_none id).mpr none_] at stands
      cases stands
    have here : h.listed = true := (have_account stands).2.1.trans listed
    rw [if_neg some_]
    cases found : wanted.lookup id with
    | none =>
      rw [listed_unasked observed read passed list found stands]
      have silent := (unasked_lookup read id).mpr found
      exact ⟨fun both => .inr ⟨both.1,silent⟩,fun either => ⟨either.elim (fun asked => by
        obtain ⟨role,asks,_⟩ := asked
        exact absurd asks (silent role)) And.left,here⟩⟩
    | some entry =>
      rw [listed_wanted observed read passed list found stands]
      constructor
      · exact fun both => .inl ⟨entry.2,(asks_lookup read _ _).mpr ⟨entry.1,found⟩,both.1⟩
      · intro either
        refine either.elim (fun asked => ?_) fun both => ?_
        · obtain ⟨role,asks,needs⟩ := asked
          obtain ⟨account,found'⟩ := (asks_lookup read _ _).mp asks
          cases found.symm.trans found'
          exact ⟨needs,.inl here⟩
        · exact absurd ((asks_lookup read _ _).mpr ⟨entry.1,found⟩) (both.2 entry.2)

-- A change that is reported Applied leaves the account with its role, unless it was
-- on the list before it was a collaborator.
theorem applied_role {id : Nat} {role : ForgeRole} (asks : Asks site desired id role) (applied : site.turn fails repo id role = .applied)
    (fine : role = .write → site.perm repo id = none → repo.listed site id = true → unlisted = .remove) : after.role site id = role := by
  obtain ⟨account,found⟩ := (asks_lookup read _ _).mp asks
  have perm := perm_applied read passed list found applied
  have place : role = .write ∨ role = .maintain → (after.listed site id = true ↔ role = .maintain) := by
    intro either
    cases stands : site.haveOf repo id with
    | some h =>
      rw [listed_wanted observed read passed list found stands]
      cases either with
      | inl write => subst write; exact ⟨fun both => absurd both.1 Bool.false_ne_true,nofun⟩
      | inr maintain => subst maintain; exact ⟨fun _ => rfl,fun _ => ⟨rfl,.inr applied⟩⟩
    | none =>
      rw [listed_joining observed read passed list found stands]
      cases either with
      | inl write =>
        subst write
        constructor
        · intro either
          cases either with
          | inl both => cases both.2.symm.trans (fine rfl ((have_none id).mp stands) both.1)
          | inr both => exact absurd both.2 Bool.false_ne_true
        · nofun
      | inr maintain => subst maintain; exact ⟨fun _ => rfl,fun _ => .inr ⟨applied,rfl⟩⟩
  rw [Repository.role,perm]
  cases role with
  | none | read | admin => rfl
  | triage => exact absurd (asks_expressed asks) (by decide)
  | write =>
    have off : after.listed site id = false := Bool.eq_false_iff.mpr fun on => by cases (place (.inl rfl)).mp on
    simp only [Perm.forRole,off]
    rfl
  | maintain =>
    have on : after.listed site id = true := (place (.inr rfl)).mpr rfl
    simp only [Perm.forRole,on]
    rfl

end

end

end VerifiableGit.MergeList
