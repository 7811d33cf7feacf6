import Mathlib.Data.List.Find
import Mathlib.Data.List.Nodup
import VerifiableGit.Library.Distinct
import VerifiableGit.Governance.Projection

-- What each request leaves of a repository, account by account.
namespace VerifiableGit.Projection
open Text Governance

section
variable {github : GitHub} {repo : Repository} {account : Nat}

theorem member_listed {c : CollaboratorJson} (found : repo.member account = some c) : c ∈ repo.collaborators ∧ c.id = account :=
  ⟨List.mem_of_find?_eq_some found,by simpa using List.find?_some found⟩

theorem for_exact (i : InvitationJson) : i.for_ account = true ↔ ∃ user, i.invitee = some user ∧ user.id = account := by
  simp [InvitationJson.for_,Option.any_eq_true]

theorem invitation_listed {i : InvitationJson} (found : repo.invitation account = some i) :
    i ∈ repo.invitations ∧ ∃ user, i.invitee = some user ∧ user.id = account :=
  ⟨List.mem_of_find?_eq_some found,(for_exact i).mp (by simpa using List.find?_some (p := fun i => InvitationJson.for_ i account) found)⟩

theorem member_account {c : CollaboratorJson} (found : repo.member account = some c) :
    account ∈ repo.collaborators.map (·.id) := by
  obtain ⟨inside,same⟩ := member_listed found
  exact same ▸ List.mem_map_of_mem inside

theorem invitation_account {i : InvitationJson} (inside : i ∈ repo.invitations) {user : ForgeAccount}
    (invitee : i.invitee = some user) : user.id ∈ repo.invitations.filterMap fun i => i.invitee.map (·.id) :=
  List.mem_filterMap.mpr ⟨i,inside,by rw [invitee]; rfl⟩

-- Someone on the repository has no invitation to it.
theorem member_uninvited (once : repo.accounts.Nodup) {c : CollaboratorJson} (found : repo.member account = some c) :
    repo.invitation account = none := by
  cases invited : repo.invitation account with
  | none => rfl
  | some i =>
    obtain ⟨inside,user,invitee,same⟩ := invitation_listed invited
    have twice := same ▸ invitation_account inside invitee
    exact absurd twice (List.disjoint_of_nodup_append once (member_account found))

theorem unlisted_accounts (noMember : repo.member account = none) (noInvitation : repo.invitation account = none) :
    account ∉ repo.accounts := by
  intro member
  cases List.mem_append.mp member with
  | inl here =>
    obtain ⟨c,inside,same⟩ := List.mem_map.mp here
    exact absurd same (by simpa using List.find?_eq_none.mp noMember c inside)
  | inr here =>
    obtain ⟨i,inside,same⟩ := List.mem_filterMap.mp here
    refine List.find?_eq_none.mp noInvitation i inside ?_
    obtain ⟨user,invitee,id⟩ := Option.map_eq_some_iff.mp same
    simp [InvitationJson.for_,invitee,id]

-- An invitation is found by its id as it is by its invitee.
theorem ticket_owner (observed : Observed github repo) {i j : InvitationJson} (left : i ∈ repo.invitations)
    (right : j ∈ repo.invitations) (same : i.id = j.id) : i = j :=
  List.inj_on_of_nodup_map observed.tickets left right same

-- Two invitations to one account would list it twice.
theorem invitation_once (once : repo.accounts.Nodup) {i j : InvitationJson} (left : i ∈ repo.invitations) (right : j ∈ repo.invitations)
    (first : i.for_ account = true) (second : j.for_ account = true) : i = j := by
  obtain ⟨u,invited,here⟩ := (for_exact i).mp first
  obtain ⟨v,asked,there⟩ := (for_exact j).mp second
  refine Library.filterMap_once (k := account) (List.nodup_append.mp once).2.1 left right ?_ ?_
  · rw [invited,Option.map_some,here]
  · rw [asked,Option.map_some,there]

-- The account's access is `after`, and everyone else's entries are what they were.
structure Moves (github : GitHub) (repo next : Repository) (account : Nat) (after : Option (Bool × ForgeRole)) : Prop where
  observed : Observed github next
  others : ∀ other, other ≠ account → next.member other = repo.member other ∧ next.invitation other = repo.invitation other
  held : next.held account = after

theorem delete_invitation (observed : Observed github repo) {i : InvitationJson} (noMember : repo.member account = none)
    (found : repo.invitation account = some i) :
    Moves github repo (github.perform repo (.deleteInvitation i.id)).1 account none := by
  obtain ⟨inside,user,invitee,same⟩ := invitation_listed found
  have theirs : i.for_ account = true := (for_exact i).mpr ⟨user,invitee,same⟩
  have sub : (repo.invitations.filter (·.id ≠ i.id)).Sublist repo.invitations := List.filter_sublist
  have accounts : (github.perform repo (.deleteInvitation i.id)).1.accounts.Sublist repo.accounts :=
    (List.Sublist.refl _).append (sub.filterMap _)
  refine ⟨⟨observed.once.sublist accounts,observed.logins,observed.tickets.sublist (sub.map _)⟩,?_,?_⟩
  · intro other apart
    refine ⟨rfl,?_⟩
    have passes : ∀ j ∈ repo.invitations, j.for_ other = true → decide (j.id ≠ i.id) = true := by
      intro j member for_
      refine decide_eq_true fun equal => ?_
      rw [ticket_owner observed member inside equal,for_exact] at for_
      obtain ⟨u,invited,here⟩ := for_
      cases invited.symm.trans invitee
      exact apart (here.symm.trans same)
    rw [Repository.invitation,Repository.invitation,GitHub.perform,List.find?_filter]
    refine List.find?_congr fun j member => ?_
    cases for_ : j.for_ other with
    | false => simp
    | true => rw [passes j member for_]; rfl
  · have none_ : (github.perform repo (.deleteInvitation i.id)).1.invitation account = none := by
      rw [Repository.invitation,List.find?_eq_none]
      intro j member for_
      obtain ⟨here,other⟩ := List.mem_filter.mp member
      exact of_decide_eq_true other (congrArg _ (invitation_once observed.once here inside for_ theirs))
    have still : (github.perform repo (.deleteInvitation i.id)).1.member account = none := noMember
    rw [Repository.held,still,none_]
    rfl

theorem delete_collaborator (observed : Observed github repo) {c : CollaboratorJson} (found : repo.member account = some c) :
    Moves github repo (github.perform repo (.deleteCollaborator c.login)).1 account none := by
  obtain ⟨inside,same⟩ := member_listed found
  have resolved : github.resolve c.login = account := (observed.logins c inside).trans same
  have sub : (repo.collaborators.filter (·.id ≠ github.resolve c.login)).Sublist repo.collaborators := List.filter_sublist
  have accounts : (github.perform repo (.deleteCollaborator c.login)).1.accounts.Sublist repo.accounts :=
    (sub.map _).append (List.Sublist.refl _)
  refine ⟨⟨observed.once.sublist accounts,fun d member => observed.logins d (sub.subset member),observed.tickets⟩,?_,?_⟩
  · intro other apart
    refine ⟨?_,rfl⟩
    rw [Repository.member,Repository.member,GitHub.perform,List.find?_filter,resolved]
    refine List.find?_congr fun d member => ?_
    by_cases here : d.id = other
    · simp [here,apart]
    · simp [here]
  · have none_ : (github.perform repo (.deleteCollaborator c.login)).1.member account = none := by
      rw [Repository.member,List.find?_eq_none]
      intro d member
      have other := of_decide_eq_true (List.mem_filter.mp member).2
      rw [resolved] at other
      simpa using other
    have uninvited : repo.invitation account = none := member_uninvited observed.once found
    have still : (github.perform repo (.deleteCollaborator c.login)).1.invitation account = none := uninvited
    rw [Repository.held,still,none_]
    rfl

theorem patch_invitation (observed : Observed github repo) {i : InvitationJson} (noMember : repo.member account = none)
    (found : repo.invitation account = some i) {role : ForgeRole} (named : roleFromName permissions = some role) :
    Moves github repo (github.perform repo (.patchInvitation i.id permissions)).1 account (some (true,role)) := by
  obtain ⟨inside,user,invitee,same⟩ := invitation_listed found
  have theirs : i.for_ account = true := (for_exact i).mpr ⟨user,invitee,same⟩
  let patched : InvitationJson → InvitationJson := fun j => if j.id = i.id then { j with permissions := permissions } else j
  have invitees : ∀ j, (patched j).invitee = j.invitee ∧ (patched j).id = j.id := by
    intro j
    simp only [patched]
    split <;> exact ⟨rfl,rfl⟩
  have addressed : ∀ b, (fun j => (patched j).for_ b) = fun j => j.for_ b := fun b => funext fun j => by
    rw [InvitationJson.for_,InvitationJson.for_,(invitees j).1]
  have accounts : (github.perform repo (.patchInvitation i.id permissions)).1.accounts = repo.accounts := by
    simp only [Repository.accounts,GitHub.perform,List.filterMap_map]
    exact congrArg _ (List.filterMap_congr fun j _ => congrArg (Option.map ForgeAccount.id) (invitees j).1)
  have tickets : (repo.invitations.map patched).map (·.id) = repo.invitations.map (·.id) := by
    rw [List.map_map]
    exact List.map_congr_left fun j _ => (invitees j).2
  have looked (b : Nat) : (github.perform repo (.patchInvitation i.id permissions)).1.invitation b = (repo.invitation b).map patched := by
    simp only [Repository.invitation,GitHub.perform,List.find?_map]
    exact congrArg (Option.map patched) (congrArg (fun p => repo.invitations.find? p) (addressed b))
  refine ⟨⟨accounts ▸ observed.once,observed.logins,?_⟩,?_,?_⟩
  · exact (congrArg List.Nodup tickets).mpr observed.tickets
  · intro other apart
    refine ⟨rfl,?_⟩
    rw [looked]
    cases theirs_ : repo.invitation other with
    | none => rfl
    | some j =>
      obtain ⟨member,u,invited,here⟩ := invitation_listed theirs_
      have untouched : patched j = j := by
        refine if_neg fun equal => apart ?_
        rw [ticket_owner observed member inside equal,invitee] at invited
        cases invited
        exact here.symm.trans same
      rw [Option.map_some,untouched]
  · have still : (github.perform repo (.patchInvitation i.id permissions)).1.member account = none := noMember
    have role_ : (patched i).role = role := by simp [patched,InvitationJson.role,named]
    rw [Repository.held,still,looked,found]
    simp [role_]

-- A PUT for someone who is on the repository changes the role there.
theorem put_member (observed : Observed github repo) {c : CollaboratorJson} (found : repo.member account = some c)
    {permission : Option Bytes} {role : ForgeRole} (named : roleFromName (permission.getD (ascii "write")) = some role) :
    Moves github repo (github.perform repo (.putCollaborator (github.user account).login permission)).1 account (some (false,role)) ∧
      (github.perform repo (.putCollaborator (github.user account).login permission)).2 = false := by
  obtain ⟨inside,same⟩ := member_listed found
  let set_ : CollaboratorJson → CollaboratorJson := fun d =>
    if d.id = account then { d with roleName := some (permission.getD (ascii "write")), permissions := none } else d
  have here : repo.collaborators.any (·.id = account) = true := List.any_eq_true.mpr ⟨c,inside,by simp [same]⟩
  have done : github.perform repo (.putCollaborator (github.user account).login permission) =
      ({ repo with collaborators := repo.collaborators.map set_ },false) := by
    simp only [GitHub.perform,github.resolves,github.user_id,here,if_true]
    rfl
  have kept : ∀ d, (set_ d).id = d.id ∧ (set_ d).login = d.login := by
    intro d
    simp only [set_]
    split <;> exact ⟨rfl,rfl⟩
  have ids : (repo.collaborators.map set_).map (·.id) = repo.collaborators.map (·.id) := by
    rw [List.map_map]
    exact List.map_congr_left fun d _ => (kept d).1
  have looked (b : Nat) : (repo.collaborators.map set_).find? (·.id = b) = (repo.member b).map set_ := by
    have same_ : (fun d => decide ((set_ d).id = b)) = fun d => decide (d.id = b) := funext fun d => by rw [(kept d).1]
    rw [List.find?_map]
    exact congrArg (fun p => (repo.collaborators.find? p).map set_) same_
  rw [done]
  refine ⟨⟨⟨?_,?_,observed.tickets⟩,?_,?_⟩,rfl⟩
  · have accounts : ({ repo with collaborators := repo.collaborators.map set_ } : Repository).accounts = repo.accounts := by
      rw [Repository.accounts,Repository.accounts,ids]
    exact accounts ▸ observed.once
  · intro d member
    obtain ⟨origin,listed,equal⟩ := List.mem_map.mp member
    rw [← equal,(kept origin).1,(kept origin).2]
    exact observed.logins origin listed
  · intro other apart
    refine ⟨(looked other).trans ?_,rfl⟩
    cases theirs : repo.member other with
    | none => rfl
    | some d =>
      have untouched : set_ d = d := if_neg fun equal => apart ((member_listed theirs).2.symm.trans equal)
      rw [Option.map_some,untouched]
  · have role_ : (set_ c).role = role := by simp [set_,same,CollaboratorJson.role,named]
    rw [Repository.held,Repository.member,looked,found]
    simp [role_]

theorem fresh_ticket (repo : Repository) : ∀ i ∈ repo.invitations, i.id ≠ repo.nextInvitation := by
  have bound (ids : List Nat) (id : Nat) (member : id ∈ ids) : id ≤ ids.foldr max 0 := by
    induction ids with
    | nil => cases member
    | cons first rest ih =>
      rw [List.foldr_cons]
      cases List.mem_cons.mp member with
      | inl same => exact same ▸ Nat.le_max_left _ _
      | inr later => exact Nat.le_trans (ih later) (Nat.le_max_right _ _)
  intro i member equal
  have below := bound _ _ (List.mem_map_of_mem (f := fun i : InvitationJson => i.id) member)
  rw [Repository.nextInvitation] at equal
  omega

-- A PUT for someone new adds them, at once or by an invitation.
theorem put_new (observed : Observed github repo) (noMember : repo.member account = none) (noInvitation : repo.invitation account = none)
    {permission : Option Bytes} {role : ForgeRole} (named : roleFromName (permission.getD (ascii "write")) = some role) :
    Moves github repo (github.perform repo (.putCollaborator (github.user account).login permission)).1 account
        (some (!github.joins account,role)) ∧
      (github.perform repo (.putCollaborator (github.user account).login permission)).2 = !github.joins account := by
  have absent := unlisted_accounts noMember noInvitation
  have away : repo.collaborators.any (·.id = account) = false := by
    rw [List.any_eq_false]
    intro c member equal
    exact absent (List.mem_append_left _ (of_decide_eq_true equal ▸ List.mem_map_of_mem member))
  have found (b : Nat) (apart : b ≠ account) : ¬ account = b := Ne.symm apart
  cases joins : github.joins account with
  | true =>
    let added : CollaboratorJson := ⟨account,(github.user account).login,some (permission.getD (ascii "write")),none⟩
    have done : github.perform repo (.putCollaborator (github.user account).login permission) =
        ({ repo with collaborators := repo.collaborators ++ [added] },false) := by
      simp only [GitHub.perform,github.resolves,github.user_id,away,joins,if_true]
      rfl
    rw [done]
    refine ⟨⟨⟨?_,?_,observed.tickets⟩,?_,?_⟩,rfl⟩
    · have accounts : ({ repo with collaborators := repo.collaborators ++ [added] } : Repository).accounts.Perm (account :: repo.accounts) := by
        simp only [Repository.accounts,List.map_append,List.map_cons,List.map_nil,List.append_assoc,List.singleton_append]
        exact List.perm_middle
      exact accounts.nodup_iff.mpr (List.nodup_cons.mpr ⟨absent,observed.once⟩)
    · intro d member
      cases List.mem_append.mp member with
      | inl old => exact observed.logins d old
      | inr new =>
        rw [List.mem_singleton.mp new]
        exact github.resolves account
    · intro other apart
      refine ⟨?_,rfl⟩
      have other_ : ([added].find? (·.id = other)) = none := by simp [added,found other apart]
      rw [Repository.member,Repository.member,List.find?_append,other_,Option.or_none]
    · have here : ({ repo with collaborators := repo.collaborators ++ [added] } : Repository).member account = some added := by
        have none_ : repo.collaborators.find? (·.id = account) = none := noMember
        rw [Repository.member,List.find?_append,none_]
        simp [added]
      have role_ : added.role = role := by simp [added,CollaboratorJson.role,named]
      rw [Repository.held,here]
      simp [role_]
  | false =>
    let asked : InvitationJson := ⟨repo.nextInvitation,some (github.user account),permission.getD (ascii "write")⟩
    have done : github.perform repo (.putCollaborator (github.user account).login permission) =
        ({ repo with invitations := repo.invitations ++ [asked] },true) := by
      simp only [GitHub.perform,github.resolves,github.user_id,away,joins,Bool.false_eq_true,if_false]
      rfl
    have theirs : asked.for_ account = true := by simp [InvitationJson.for_,asked,github.user_id]
    rw [done]
    refine ⟨⟨⟨?_,observed.logins,?_⟩,?_,?_⟩,rfl⟩
    · have accounts : ({ repo with invitations := repo.invitations ++ [asked] } : Repository).accounts = repo.accounts ++ [account] := by
        simp [Repository.accounts,asked,github.user_id]
      rw [accounts]
      exact List.nodup_append.mpr ⟨observed.once,List.nodup_singleton _,fun a member b new equal =>
        absent (List.mem_singleton.mp new ▸ equal ▸ member)⟩
    · rw [List.map_append]
      refine List.nodup_append.mpr ⟨observed.tickets,List.nodup_singleton _,fun a member b new equal => ?_⟩
      obtain ⟨i,inside,same⟩ := List.mem_map.mp member
      rw [List.map_singleton] at new
      exact fresh_ticket repo i inside (same.trans (equal.trans (List.mem_singleton.mp new)))
    · intro other apart
      refine ⟨rfl,?_⟩
      have other_ : ([asked].find? (·.for_ other)) = none := by
        simp [InvitationJson.for_,asked,github.user_id,found other apart]
      rw [Repository.invitation,Repository.invitation,List.find?_append,other_,Option.or_none]
    · have here : ({ repo with invitations := repo.invitations ++ [asked] } : Repository).invitation account = some asked := by
        have none_ : repo.invitations.find? (·.for_ account) = none := noInvitation
        rw [Repository.invitation,List.find?_append,none_]
        simp [theirs]
      have still : ({ repo with invitations := repo.invitations ++ [asked] } : Repository).member account = none := noMember
      have role_ : asked.role = role := by simp [asked,InvitationJson.role,named]
      rw [Repository.held,still,here]
      simp [role_]

end

end VerifiableGit.Projection
