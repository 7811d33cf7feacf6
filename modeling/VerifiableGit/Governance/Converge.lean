import VerifiableGit.Governance.Asked
import VerifiableGit.Governance.Requests

-- One run brings every wanted account to its role; a second one asks nothing.
namespace VerifiableGit.Projection
open Text Governance

/-! The standing read from the listings -/

-- What the listings say of an account, as the adapter keeps it.
def Repository.entry (repo : Repository) (account : Nat) : Option (ForgeAccount × Current) :=
  match repo.member account with
  | some c => some (⟨c.id,c.login⟩,.member c.login c.role)
  | none => (repo.invitation account).bind fun i => i.invitee.map fun user => (user,.invited i.id i.role)

def memberEntry (c : Collaborator) : ForgeAccount × Current := (c.account,.member c.account.login c.role)

theorem fold_members (collaborators : List Collaborator) (once : (collaborators.map (·.account.id)).Nodup) (current : Standing) (account : Nat) :
    (collaborators.foldl (fun current c => insertById c.account.id (c.account,Current.member c.account.login c.role) current)
      current).lookup account = ((collaborators.find? (·.account.id = account)).map memberEntry).or (current.lookup account) := by
  induction collaborators generalizing current with
  | nil => rfl
  | cons c rest ih =>
    obtain ⟨first,tail⟩ := List.nodup_cons.mp once
    rw [List.foldl_cons,ih tail,lookup_insertById]
    by_cases here : c.account.id = account
    · have gone : rest.find? (·.account.id = account) = none := by
        rw [List.find?_eq_none]
        intro d member equal
        exact first (List.mem_map.mpr ⟨d,member,(of_decide_eq_true equal).trans here.symm⟩)
      simp [here,gone,memberEntry]
    · simp [here,Ne.symm here]

theorem fold_invitations (invitations : List Invitation) (current : Standing) (account : Nat) :
    (invitations.foldl (fun current i =>
      match i.invitee with
      | some user =>
        if (current.lookup user.id).isSome then current
        else insertById user.id (user,Current.invited i.id i.role) current
      | none => current) current).lookup account =
    (current.lookup account).or ((invitations.find? fun i => i.invitee.any (·.id = account)).bind fun i =>
      i.invitee.map fun user => (user,Current.invited i.id i.role)) := by
  induction invitations generalizing current with
  | nil => exact Option.or_none.symm
  | cons i rest ih =>
    rw [List.foldl_cons,ih]
    cases invitee : i.invitee with
    | none => simp [invitee]
    | some user =>
      dsimp only
      by_cases here : user.id = account
      · cases known : current.lookup account with
        | some entry => simp [here,known]
        | none => simp [here,known,lookup_insertById,invitee]
      · have other : (if (current.lookup user.id).isSome then current
            else insertById user.id (user,Current.invited i.id i.role) current).lookup account = current.lookup account := by
          split
          · rfl
          · rw [lookup_insertById,if_neg (Ne.symm here)]
        rw [other]
        simp [invitee,here]

theorem fold_sorted {α : Type} (step : Standing → α → Standing) (kept : ∀ current x, Sorted current → Sorted (step current x))
    (items : List α) {current : Standing} (sorted : Sorted current) : Sorted (items.foldl step current) := by
  induction items generalizing current with
  | nil => exact sorted
  | cons item rest ih => exact ih (kept current item sorted)

theorem standing_sorted (site : Site) (repo : Repository) : Sorted (repo.standing site) := by
  refine fold_sorted _ (fun current i sorted => ?_) _ (fold_sorted _ (fun current c sorted => insertById_sorted _ _ sorted) _ List.Pairwise.nil)
  split
  · split
    · exact sorted
    · exact insertById_sorted _ _ sorted
  · exact sorted

-- No invitation is addressed to the holder of a personal account.
def OwnerUninvited (site : Site) (repo : Repository) : Prop := ∀ owner ∈ site.adapter.personalOwner, repo.invitation owner = none

theorem standing_lookup {site : Site} {repo : Repository} (observed : Observed site.github repo) (uninvited : OwnerUninvited site repo)
    (account : Nat) : (repo.standing site).lookup account =
      if some account = site.adapter.personalOwner then none else repo.entry account := by
  let listed := (repo.collaborators.map fun c => (⟨⟨c.id,c.login⟩,c.role,false⟩ : Collaborator)).filter fun c =>
    some c.account.id ≠ site.adapter.personalOwner
  have ids : (repo.collaborators.map fun c => (⟨⟨c.id,c.login⟩,c.role,false⟩ : Collaborator)).map (·.account.id) =
      repo.collaborators.map (·.id) := by
    rw [List.map_map]
    rfl
  have once : (listed.map (·.account.id)).Nodup := by
    have whole : (repo.collaborators.map (·.id)).Nodup := (List.nodup_append.mp observed.once).1
    exact (ids ▸ whole).sublist (List.filter_sublist.map _)
  have members : (listed.find? (·.account.id = account)).map memberEntry = if some account = site.adapter.personalOwner then none
      else (repo.member account).map fun c => (⟨c.id,c.login⟩,.member c.login c.role) := by
    split
    · rename_i owner
      have none_ : listed.find? (·.account.id = account) = none := by
        rw [List.find?_eq_none]
        intro c member found
        have other := of_decide_eq_true (List.mem_filter.mp member).2
        exact other (of_decide_eq_true found ▸ owner)
      rw [none_]
      rfl
    · rename_i other
      have kept : listed.find? (·.account.id = account) =
          (repo.member account).map fun c => (⟨⟨c.id,c.login⟩,c.role,false⟩ : Collaborator) := by
        rw [List.find?_filter,List.find?_map,Repository.member]
        refine congrArg _ (List.find?_congr fun c _ => ?_)
        by_cases here : c.id = account
        · simp [here,other]
        · simp [here]
      rw [kept,Option.map_map]
      rfl
  have invitations : ((repo.invitations.map fun i => (⟨i.id,i.invitee,i.role⟩ : Invitation)).find? fun i => i.invitee.any (·.id = account)).bind
      (fun i => i.invitee.map fun user => (user,Current.invited i.id i.role)) =
      (repo.invitation account).bind fun i => i.invitee.map fun user => (user,.invited i.id i.role) := by
    rw [List.find?_map,Option.bind_map]
    rfl
  have folded : (repo.standing site).lookup account = ((listed.find? (·.account.id = account)).map memberEntry).or
      ((repo.invitation account).bind fun i => i.invitee.map fun user => (user,.invited i.id i.role)) := by
    refine (fold_invitations _ _ account).trans ?_
    rw [invitations,fold_members listed once]
    exact congrArg (Option.or · _) Option.or_none
  rw [folded,members,Repository.entry]
  split
  · rename_i owner
    rw [uninvited account owner.symm]
    rfl
  · cases repo.member account with
    | some c => rfl
    | none => exact Option.none_or

-- An account stands as someone on the repository, as someone invited, or not at all.
theorem entry_cases (repo : Repository) (account : Nat) :
    (∃ c, repo.member account = some c ∧ repo.entry account = some (⟨c.id,c.login⟩,.member c.login c.role)) ∨
    (∃ i user, repo.member account = none ∧ repo.invitation account = some i ∧ i.invitee = some user ∧ user.id = account ∧
      repo.entry account = some (user,.invited i.id i.role)) ∨
    (repo.member account = none ∧ repo.invitation account = none ∧ repo.entry account = none) := by
  cases member : repo.member account with
  | some c => exact .inl ⟨c,rfl,by rw [Repository.entry,member]⟩
  | none =>
    refine .inr ?_
    cases invited : repo.invitation account with
    | none => exact .inr ⟨rfl,rfl,by rw [Repository.entry,member,invited]; rfl⟩
    | some i =>
      obtain ⟨_,user,invitee,same⟩ := invitation_listed invited
      refine .inl ⟨i,user,rfl,rfl,invitee,same,?_⟩
      rw [Repository.entry,member,invited]
      simp [invitee]

theorem entry_account {repo : Repository} {account : Nat} {entry : ForgeAccount × Current} (found : repo.entry account = some entry) :
    entry.1.id = account := by
  obtain ⟨c,member,entry_⟩ | ⟨i,user,_,_,_,same,entry_⟩ | ⟨_,_,entry_⟩ := entry_cases repo account
  · cases found.symm.trans entry_
    exact (member_listed member).2
  · cases found.symm.trans entry_
    exact same
  · cases found.symm.trans entry_

theorem entry_role (repo : Repository) (account : Nat) : ((repo.entry account).map fun e => e.2.role).getD .none = repo.role account := by
  obtain ⟨c,member,entry⟩ | ⟨i,user,member,invited,_,_,entry⟩ | ⟨member,invited,entry⟩ := entry_cases repo account
  · rw [Repository.role,Repository.held,member,entry]
    rfl
  · rw [Repository.role,Repository.held,member,invited,entry]
    rfl
  · rw [Repository.role,Repository.held,member,invited,entry]
    rfl

/-! One change -/

-- Where a change that succeeds leaves the account: an invitation stays one.
def Site.target (site : Site) (account : Nat) (role : ForgeRole) (cur : Option Current) : Option (Bool × ForgeRole) :=
  if role = .none then none
  else match cur with
    | some (.member _ _) => some (false,role)
    | some (.invited _ _) => some (true,role)
    | none => some (!site.github.joins account,role)

def Site.blocked (site : Site) (current : Standing) (x : ForgeAccount × ForgeRole) : Bool :=
  x.2 = .none && site.adapter.isOwnBot (current.of x.1.id)

def Site.outcome (site : Site) (current : Standing) (x : ForgeAccount × ForgeRole) : RoleOutcome :=
  if site.blocked current x then .failed (ascii "the bridge's own App is never removed")
  else if (site.target x.1.id x.2 (current.of x.1.id)).any Prod.fst then .invited else .applied

def Site.made (site : Site) (current : Standing) (x : ForgeAccount × ForgeRole) : RoleChange :=
  ⟨x.1,current.have_ x.1.id,x.2,site.outcome current x⟩

theorem invitation_named {role : ForgeRole} (some_ : role ≠ .none) : roleFromName (invitationPermission role) = some role := by
  cases role with
  | none => exact absurd rfl some_
  | read | triage | write | maintain | admin => decide

theorem put_named {site : Site} {role : ForgeRole} (some_ : role ≠ .none) (expressed : role ∈ site.adapter.ladder) :
    roleFromName ((if site.organization then some (putPermission role) else none).getD (ascii "write")) = some role := by
  cases organization : site.organization with
  | true =>
    cases role with
    | none => exact absurd rfl some_
    | read | triage | write | maintain | admin => decide
  | false =>
    have only : role = .write := by simpa [Site.adapter,organization,userLadder] using expressed
    rw [only]
    decide

theorem login_found (site : Site) (id : Nat) : loginFor site (fun _ => none) id = .ok (site.github.user id).login := by
  simp [loginFor,site.github.user_id]

theorem change_blocked {site : Site} {current : Standing} {account : ForgeAccount} {role : ForgeRole} (fails : Call → Option ForgeError)
    (repo : Repository) (blocked : site.blocked current (account,role) = true) :
    change site fails current account role repo = (.ok (site.made current (account,role)),repo,[]) := by
  have both : role = .none ∧ site.adapter.isOwnBot (current.of account.id) = true := by
    simpa [Site.blocked] using blocked
  rw [change,if_pos both,Site.made,Site.outcome,if_pos blocked]

theorem send_done (site : Site) (account : Nat) (request : Request) (outcome : Bool → RoleOutcome) (repo : Repository) :
    send site (fun _ => none) account request outcome repo =
      (.ok (outcome (site.github.perform repo request).2),(site.github.perform repo request).1,[request]) := rfl

-- Someone without an invitation is given a role by a PUT.
theorem changeRole_put (site : Site) (account : ForgeAccount) {role : ForgeRole} (some_ : role ≠ .none) {cur : Option Current}
    (uninvited : ∀ id held, cur ≠ some (.invited id held)) (repo : Repository) :
    changeRole site (fun _ => none) account role cur repo =
      send site (fun _ => none) account.id (.putCollaborator (site.github.user account.id).login
        (if site.organization then some (putPermission role) else none)) (fun created => if created then .invited else .applied) repo := by
  cases cur with
  | none =>
    cases role with
    | none => exact absurd rfl some_
    | read | triage | write | maintain | admin => simp only [changeRole,login_found]
  | some held =>
    cases held with
    | invited id held => exact absurd rfl (uninvited id held)
    | member login held =>
      cases role with
      | none => exact absurd rfl some_
      | read | triage | write | maintain | admin => simp only [changeRole,login_found]

theorem changeRole_patch (site : Site) (account : ForgeAccount) {role : ForgeRole} (some_ : role ≠ .none) (id : Nat) (held : ForgeRole)
    (repo : Repository) : changeRole site (fun _ => none) account role (some (.invited id held)) repo =
      send site (fun _ => none) account.id (.patchInvitation id (invitationPermission role)) (fun _ => .invited) repo := by
  cases role with
  | none => exact absurd rfl some_
  | read | triage | write | maintain | admin => rfl

-- A change that is not of the bridge's own bot does what it says.
theorem change_moves {site : Site} {repo : Repository} (observed : Observed site.github repo) {current : Standing}
    {account : ForgeAccount} {role : ForgeRole} (stands : current.of account.id = (repo.entry account.id).map Prod.snd)
    (expressed : role = .none ∨ role ∈ site.adapter.ladder) (differs : current.have_ account.id ≠ role)
    (free : site.blocked current (account,role) = false) :
    ∃ after requests, change site (fun _ => none) current account role repo = (.ok (site.made current (account,role)),after,requests) ∧
      Moves site.github repo after account.id (site.target account.id role (current.of account.id)) := by
  have open_ : ¬(role = .none ∧ site.adapter.isOwnBot (current.of account.id) = true) := by
    simpa [Site.blocked] using free
  have outcome : site.outcome current (account,role) =
      if (site.target account.id role (current.of account.id)).any Prod.fst then .invited else .applied := by
    rw [Site.outcome,free]
    rfl
  have given : role ≠ .none → role ∈ site.adapter.ladder := fun some_ => expressed.resolve_left some_
  -- what the one request has to come to
  suffices request : ∃ after requests, changeRole site (fun _ => none) account role (current.of account.id) repo =
      (.ok (site.outcome current (account,role)),after,requests) ∧
      Moves site.github repo after account.id (site.target account.id role (current.of account.id)) by
    obtain ⟨after,requests,run,moves⟩ := request
    refine ⟨after,requests,?_,moves⟩
    rw [change,if_neg open_,run]
    rfl
  rw [outcome]
  obtain ⟨c,member,entry⟩ | ⟨i,user,member,invited,_,_,entry⟩ | ⟨member,invited,entry⟩ := entry_cases repo account.id
  · rw [entry,Option.map_some] at stands
    rw [stands,Site.target]
    by_cases none_ : role = .none
    · subst none_
      exact ⟨_,[.deleteCollaborator c.login],rfl,delete_collaborator observed member⟩
    · obtain ⟨moves,created⟩ := put_member observed member (put_named none_ (given none_))
      rw [if_neg none_,changeRole_put site account none_ (fun _ _ => by simp),send_done,created]
      exact ⟨_,_,rfl,moves⟩
  · rw [entry,Option.map_some] at stands
    rw [stands,Site.target]
    by_cases none_ : role = .none
    · subst none_
      exact ⟨_,[.deleteInvitation i.id],rfl,delete_invitation observed member invited⟩
    · rw [if_neg none_,changeRole_patch site account none_,send_done]
      exact ⟨_,_,rfl,patch_invitation observed member invited (invitation_named none_)⟩
  · rw [entry,Option.map_none] at stands
    have none_ : role ≠ .none := fun same => differs (by rw [same,Standing.have_,stands]; rfl)
    obtain ⟨moves,created⟩ := put_new observed member invited (put_named none_ (given none_))
    rw [stands,Site.target,if_neg none_,changeRole_put site account none_ (fun _ _ => by simp),send_done,created]
    exact ⟨_,_,rfl,moves⟩

/-! All of them -/

-- What a run of the loop owes its starting point.
structure Todo (site : Site) (current : Standing) (repo : Repository) (todo : List (ForgeAccount × ForgeRole)) : Prop where
  once : (todo.map (·.1.id)).Nodup
  stands : ∀ x ∈ todo, current.of x.1.id = (repo.entry x.1.id).map Prod.snd
  expressed : ∀ x ∈ todo, x.2 = .none ∨ x.2 ∈ site.adapter.ladder
  differs : ∀ x ∈ todo, current.have_ x.1.id ≠ x.2

-- What it leaves.
structure Changed (site : Site) (current : Standing) (repo : Repository) (todo : List (ForgeAccount × ForgeRole)) (after : Repository) : Prop where
  observed : Observed site.github after
  others : ∀ other, (∀ x ∈ todo, x.1.id = other → site.blocked current x = true) →
    after.member other = repo.member other ∧ after.invitation other = repo.invitation other
  reached : ∀ x ∈ todo, site.blocked current x = false → after.held x.1.id = site.target x.1.id x.2 (current.of x.1.id)

theorem entry_still {repo after : Repository} {account : Nat}
    (still : after.member account = repo.member account ∧ after.invitation account = repo.invitation account) :
    after.entry account = repo.entry account := by
  rw [Repository.entry,Repository.entry,still.1,still.2]

theorem held_still {repo after : Repository} {account : Nat}
    (still : after.member account = repo.member account ∧ after.invitation account = repo.invitation account) :
    after.held account = repo.held account := by
  rw [Repository.held,Repository.held,still.1,still.2]

theorem changeEach_done {site : Site} {current : Standing} {todo : List (ForgeAccount × ForgeRole)} {repo : Repository}
    (observed : Observed site.github repo) (start : Todo site current repo todo) :
    ∃ after requests, changeEach site (fun _ => none) current todo repo = (.ok (todo.map (site.made current)),after,requests) ∧
      Changed site current repo todo after := by
  induction todo generalizing repo with
  | nil => exact ⟨repo,[],rfl,observed,fun _ _ => ⟨rfl,rfl⟩,fun _ member => absurd member List.not_mem_nil⟩
  | cons x rest ih =>
    obtain ⟨account,role⟩ := x
    obtain ⟨first,once⟩ := List.nodup_cons.mp start.once
    have apart : ∀ y ∈ rest, y.1.id ≠ account.id := fun y member same => first (List.mem_map.mpr ⟨y,member,same⟩)
    cases blocked : site.blocked current (account,role) with
    | true =>
      have later : Todo site current repo rest := ⟨once,fun y member => start.stands y (List.mem_cons_of_mem _ member),
        fun y member => start.expressed y (List.mem_cons_of_mem _ member),fun y member => start.differs y (List.mem_cons_of_mem _ member)⟩
      obtain ⟨after,requests,run,changed⟩ := ih observed later
      refine ⟨after,requests,?_,changed.observed,?_,?_⟩
      · rw [changeEach,change_blocked _ repo blocked]
        simp only [run]
        rfl
      · intro other untouched
        exact changed.others other fun y member => untouched y (List.mem_cons_of_mem _ member)
      · intro y member free
        cases List.mem_cons.mp member with
        | inl here => rw [here,blocked] at free; cases free
        | inr there => exact changed.reached y there free
    | false =>
      have here := start.stands _ List.mem_cons_self
      obtain ⟨next,sent,run,moves⟩ := change_moves observed here (start.expressed _ List.mem_cons_self)
        (start.differs _ List.mem_cons_self) blocked
      have later : Todo site current next rest := ⟨once,fun y member => by
          rw [entry_still (moves.others y.1.id (apart y member))]
          exact start.stands y (List.mem_cons_of_mem _ member),
        fun y member => start.expressed y (List.mem_cons_of_mem _ member),fun y member => start.differs y (List.mem_cons_of_mem _ member)⟩
      obtain ⟨after,requests,more,changed⟩ := ih moves.observed later
      -- the rest of the loop leaves the account alone
      have settled := changed.others account.id fun y member same => absurd same (apart y member)
      refine ⟨after,sent ++ requests,?_,changed.observed,?_,?_⟩
      · rw [changeEach,run]
        simp only [more]
        rfl
      · intro other untouched
        have other_ : other ≠ account.id := fun same => by
          have stopped := untouched _ List.mem_cons_self same.symm
          rw [blocked] at stopped
          cases stopped
        have last := changed.others other fun y member => untouched y (List.mem_cons_of_mem _ member)
        have before := moves.others other other_
        exact ⟨last.1.trans before.1,last.2.trans before.2⟩
      · intro y member free
        cases List.mem_cons.mp member with
        | inl same => rw [same,held_still settled,moves.held]
        | inr there => exact changed.reached y there free

-- With nothing but the bridge's own bot to remove, nothing is asked.
theorem changeEach_blocked {site : Site} {current : Standing} (fails : Call → Option ForgeError) {todo : List (ForgeAccount × ForgeRole)}
    (blocked : ∀ x ∈ todo, site.blocked current x = true) (repo : Repository) :
    changeEach site fails current todo repo = (.ok (todo.map (site.made current)),repo,[]) := by
  induction todo with
  | nil => rfl
  | cons x rest ih =>
    rw [changeEach,change_blocked fails repo (blocked x List.mem_cons_self)]
    simp only [ih fun y member => blocked y (List.mem_cons_of_mem _ member)]
    rfl

end VerifiableGit.Projection
