import Mathlib.Data.List.Find
import Mathlib.Data.List.Nodup
import VerifiableGit.Library.Distinct
import VerifiableGit.Governance.Asked
import VerifiableGit.Governance.MergeList

-- What each turn of the two loops does, and what the loops come to.
namespace VerifiableGit.MergeList
open Text Governance

/-! The listings, account by account -/

def Repository.perm (repo : Repository) (id : Nat) : Option Perm :=
  (repo.collaborators.find? (·.id = id)).bind fun c => Perm.parse c.permission

-- A listing as Forgejo gives it: everyone once, under their login, and no name
-- twice on the list.
structure Observed (forgejo : Forgejo) (repo : Repository) : Prop where
  once : (repo.collaborators.map (·.id)).Nodup
  logins : ∀ c ∈ repo.collaborators, c.login = (forgejo.user c.id).login
  names : ((allowOf repo.rule).map fun l => l.map lower).Nodup

section
variable {forgejo : Forgejo} {repo : Repository} {id : Nat}

theorem parse_str (p : Perm) : Perm.parse p.asStr = some p := by cases p <;> decide

-- The account's permission is `perm`, and everything else what it was.
structure Moves (forgejo : Forgejo) (repo next : Repository) (id : Nat) (perm : Option Perm) : Prop where
  observed : Observed forgejo next
  rule : next.rule = repo.rule
  others : ∀ other, other ≠ id → next.perm other = repo.perm other
  reached : next.perm id = perm

theorem put_moves (observed : Observed forgejo repo) (p : Perm) :
    Moves forgejo repo (forgejo.perform repo (.putCollaborator (forgejo.user id).login p)) id (some p) := by
  by_cases here : repo.collaborators.any (·.id = id) = true
  · let set_ : UserJson → UserJson := fun c => if c.id = id then { c with permission := p.asStr } else c
    have done : forgejo.perform repo (.putCollaborator (forgejo.user id).login p) = { repo with collaborators := repo.collaborators.map set_ } := by
      simp only [Forgejo.perform,forgejo.resolves,forgejo.user_id,here,if_true]
      rfl
    have kept : ∀ c, (set_ c).id = c.id ∧ (set_ c).login = c.login := by
      intro c
      simp only [set_]
      split <;> exact ⟨rfl,rfl⟩
    have ids : (repo.collaborators.map set_).map (·.id) = repo.collaborators.map (·.id) := by
      rw [List.map_map]
      exact List.map_congr_left fun c _ => (kept c).1
    have looked (b : Nat) : (repo.collaborators.map set_).find? (·.id = b) = (repo.collaborators.find? (·.id = b)).map set_ := by
      have same : (fun c => decide ((set_ c).id = b)) = fun c => decide (c.id = b) := funext fun c => by rw [(kept c).1]
      rw [List.find?_map]
      exact congrArg (fun q => (repo.collaborators.find? q).map set_) same
    rw [done]
    refine ⟨⟨(congrArg List.Nodup ids).mpr observed.once,?_,observed.names⟩,rfl,?_,?_⟩
    · intro c member
      obtain ⟨origin,listed,equal⟩ := List.mem_map.mp member
      rw [← equal,(kept origin).1,(kept origin).2]
      exact observed.logins origin listed
    · intro other apart
      rw [Repository.perm,Repository.perm,looked]
      cases found : repo.collaborators.find? (·.id = other) with
      | none => rfl
      | some c =>
        have same : c.id = other := by simpa using List.find?_some found
        have untouched : set_ c = c := if_neg fun equal => apart (same.symm.trans equal)
        rw [Option.map_some,untouched]
    · obtain ⟨c,found⟩ : ∃ c, repo.collaborators.find? (·.id = id) = some c :=
        Option.isSome_iff_exists.mp (by rw [List.find?_isSome]; simpa using here)
      have same : c.id = id := by simpa using List.find?_some found
      rw [Repository.perm,looked,found]
      simp [set_,same,parse_str]
  · let added : UserJson := ⟨id,(forgejo.user id).login,p.asStr⟩
    have away : repo.collaborators.any (·.id = id) = false := by simpa using here
    have done : forgejo.perform repo (.putCollaborator (forgejo.user id).login p) =
        { repo with collaborators := repo.collaborators ++ [added] } := by
      simp only [Forgejo.perform,forgejo.resolves,forgejo.user_id,away,Bool.false_eq_true,if_false]
      rfl
    have absent : id ∉ repo.collaborators.map (·.id) := by
      intro member
      obtain ⟨c,listed,same⟩ := List.mem_map.mp member
      exact here (List.any_eq_true.mpr ⟨c,listed,decide_eq_true same⟩)
    rw [done]
    refine ⟨⟨?_,?_,observed.names⟩,rfl,?_,?_⟩
    · rw [List.map_append]
      refine List.nodup_append.mpr ⟨observed.once,List.nodup_singleton _,fun a member b new equal => ?_⟩
      rw [List.map_singleton] at new
      have same : b = id := List.mem_singleton.mp new
      exact absent (same ▸ equal ▸ member)
    · intro c member
      cases List.mem_append.mp member with
      | inl old => exact observed.logins c old
      | inr new => rw [List.mem_singleton.mp new]
    · intro other apart
      have other_ : ([added].find? (·.id = other)) = none := by simp [added,Ne.symm apart]
      rw [Repository.perm,Repository.perm,List.find?_append,other_,Option.or_none]
    · have none_ : repo.collaborators.find? (·.id = id) = none := by
        rw [List.find?_eq_none]
        intro c member equal
        exact absent (List.mem_map.mpr ⟨c,member,of_decide_eq_true equal⟩)
      rw [Repository.perm,List.find?_append,none_]
      simp [added,parse_str]

theorem delete_moves (id : Nat) (observed : Observed forgejo repo) :
    Moves forgejo repo (forgejo.perform repo (.deleteCollaborator (forgejo.user id).login)) id none := by
  have sub : (repo.collaborators.filter (·.id ≠ id)).Sublist repo.collaborators := List.filter_sublist
  have done : forgejo.perform repo (.deleteCollaborator (forgejo.user id).login) =
      { repo with collaborators := repo.collaborators.filter (·.id ≠ id) } := by
    rw [Forgejo.perform,forgejo.resolves]
  rw [done]
  refine ⟨⟨observed.once.sublist (sub.map _),fun c member => observed.logins c (sub.subset member),observed.names⟩,rfl,?_,?_⟩
  · intro other apart
    rw [Repository.perm,Repository.perm,List.find?_filter]
    refine congrArg (Option.bind · _) (List.find?_congr fun c _ => ?_)
    by_cases here : c.id = other
    · simp [here,apart]
    · simp [here]
  · have none_ : (repo.collaborators.filter (·.id ≠ id)).find? (·.id = id) = none := by
      rw [List.find?_eq_none]
      intro c member
      simpa using of_decide_eq_true (List.mem_filter.mp member).2
    rw [Repository.perm,none_]
    rfl

end

/-! What stands before the first change -/

def Repository.listed (site : Site) (repo : Repository) (id : Nat) : Bool :=
  containsLogin (allowOf repo.rule) (site.forgejo.user id).login

-- The permission of someone the run may change.
def Site.perm (site : Site) (repo : Repository) (id : Nat) : Option Perm :=
  if some id = site.adapter.personalOwner then none else repo.perm id

def Site.haveOf (site : Site) (repo : Repository) (id : Nat) : Option Have :=
  (site.perm repo id).map fun p => ⟨site.forgejo.user id,p,repo.listed site id⟩

section
variable {site : Site} {repo : Repository}

theorem fold_current (allow : List Bytes) (found : List (ForgeAccount × Perm)) (once : (found.map (·.1.id)).Nodup) (current : Current) (id : Nat) :
    (found.foldl (fun current (c : ForgeAccount × Perm) =>
      if some c.1.id = site.adapter.personalOwner then current
      else insertById c.1.id ⟨c.1,c.2,containsLogin allow c.1.login⟩ current) current).lookup id =
    (if some id = site.adapter.personalOwner then none
      else (found.find? (·.1.id = id)).map fun c => (⟨c.1,c.2,containsLogin allow c.1.login⟩ : Have)).or (current.lookup id) := by
  induction found generalizing current with
  | nil => by_cases owner : some id = site.adapter.personalOwner <;> simp [owner]
  | cons c rest ih =>
    obtain ⟨first,tail⟩ := List.nodup_cons.mp once
    rw [List.foldl_cons,ih tail]
    by_cases here : c.1.id = id
    · have gone : rest.find? (·.1.id = id) = none := by
        rw [List.find?_eq_none]
        intro d member equal
        exact first (List.mem_map.mpr ⟨d,member,(of_decide_eq_true equal).trans here.symm⟩)
      by_cases owner : some id = site.adapter.personalOwner
      · simp [here,owner]
      · simp [here,owner,gone,lookup_insertById]
    · by_cases other : some c.1.id = site.adapter.personalOwner
      · simp [other,here]
      · simp [other,here,lookup_insertById,Ne.symm here]

theorem current_sorted (site : Site) (repo : Repository) : Sorted (repo.current site) := by
  have fold (found : List (ForgeAccount × Perm)) (current : Current) (sorted : Sorted current) :
      Sorted (found.foldl (fun current (c : ForgeAccount × Perm) =>
        if some c.1.id = site.adapter.personalOwner then current
        else insertById c.1.id ⟨c.1,c.2,containsLogin (allowOf repo.rule) c.1.login⟩ current) current) := by
    induction found generalizing current with
    | nil => exact sorted
    | cons c rest ih =>
      refine ih _ ?_
      by_cases owner : some c.1.id = site.adapter.personalOwner
      · simp only [if_pos owner]
        exact sorted
      · simp only [if_neg owner]
        exact insertById_sorted _ _ sorted
  exact fold _ [] List.Pairwise.nil

theorem current_lookup (observed : Observed site.forgejo repo) (id : Nat) :
    (repo.current site).lookup id = site.haveOf repo id := by
  let entry : UserJson → Option (ForgeAccount × Perm) := fun c => (Perm.parse c.permission).map fun perm => (⟨c.id,c.login⟩,perm)
  have keyed : ∀ c e, entry c = some e → e.1.id = c.id := by
    intro c e same
    obtain ⟨perm,_,equal⟩ := Option.map_eq_some_iff.mp same
    rw [← equal]
  let found := repo.collaborators.filterMap entry
  have once : (found.map (·.1.id)).Nodup := observed.once.sublist (Library.filterMap_keys keyed repo.collaborators)
  have looked : found.find? (·.1.id = id) = (repo.perm id).map fun p => (site.forgejo.user id,p) := by
    refine (Library.find_filterMap keyed observed.once id).trans ?_
    rw [Repository.perm]
    cases here : repo.collaborators.find? (·.id = id) with
    | none => rfl
    | some c =>
      have same : c.id = id := by simpa using List.find?_some here
      have account : (⟨c.id,c.login⟩ : ForgeAccount) = site.forgejo.user id := by
        rw [observed.logins c (List.mem_of_find?_eq_some here),same]
        exact congrArg (ForgeAccount.mk · _) (site.forgejo.user_id id).symm
      simp only [Option.bind_some,entry,account]
  refine (fold_current _ found once [] id).trans ?_
  rw [looked,Site.haveOf,Site.perm]
  split
  · rfl
  · cases repo.perm id with
    | none => rfl
    | some p => rfl

end

/-! One turn -/

inductive Turn where
  | blocked
  | kept
  | stopped (e : ForgeError)
  | failed (e : ForgeError)
  | applied

def listNeeds (role : ForgeRole) : Bool := decide (ForgeRole.maintain.level ≤ role.level)

def permFailure (fails : Call → Option ForgeError) (id : Nat) (perm need : Option Perm) : Option ForgeError :=
  if perm = need then none else (if need.isSome then fails (.user id) else none).or (fails (.set_ id))

-- The first request of a turn that fails.
def firstFailure (fails : Call → Option ForgeError) (id : Nat) (perm : Option Perm) (listed : Bool) (role : ForgeRole) : Option ForgeError :=
  if perm = Perm.forRole role then if listNeeds role && !listed then fails (.user id) else none
  else permFailure fails id perm (Perm.forRole role)

-- What a turn comes to, seen from what stands before it.
def turnOf (site : Site) (fails : Call → Option ForgeError) (id : Nat) (perm : Option Perm) (listed : Bool) (role : ForgeRole) : Turn :=
  if id = site.bot ∧ role = .none ∧ perm.isSome then .blocked
  else if perm = Perm.forRole role ∧ listed = listNeeds role then .kept
  else match firstFailure fails id perm listed role with
    | some e => if e.isFatal then .stopped e else .failed e
    | none => .applied

def Request.isPatch : Request → Bool
  | .patchRule _ _ => true
  | _ => false

theorem loginFor_exact (site : Site) (fails : Call → Option ForgeError) (id : Nat) : loginFor site fails id =
    match fails (.user id) with
    | some e => .error e
    | none => .ok (site.forgejo.user id).login := by
  rw [loginFor]
  cases fails (.user id) with
  | some e => rfl
  | none => simp [site.forgejo.user_id]

section
variable {site : Site} {fails : Call → Option ForgeError} {repo : Repository} {id : Nat} {have_ : Option Have}

theorem setPerm_failed (need : Option Perm) {e : ForgeError} (failed : permFailure fails id (have_.map (·.perm)) need = some e) :
    setPerm site fails id have_ need repo = (.error e,repo,[]) := by
  rw [permFailure] at failed
  rw [setPerm.eq_def]
  split at failed
  · cases failed
  · rename_i differs
    rw [if_neg differs]
    cases need with
    | none =>
      have stopped : fails (.set_ id) = some e := by simpa using failed
      simp only [setCollaborator,stopped]
      rfl
    | some p =>
      simp only [loginFor_exact]
      cases asked : fails (.user id) with
      | some e' =>
        rw [asked] at failed
        cases failed
        rfl
      | none =>
        have stopped : fails (.set_ id) = some e := by simpa [asked] using failed
        simp only [setCollaborator,stopped]
        rfl

-- Without a failure the permission is there, and a login that was looked up is the account's.
theorem setPerm_done (observed : Observed site.forgejo repo) (stands : repo.perm id = have_.map (·.perm))
    (known : ∀ h ∈ have_, h.account = site.forgejo.user id) (need : Option Perm)
    (fine : permFailure fails id (have_.map (·.perm)) need = none) :
    ∃ fresh after requests, setPerm site fails id have_ need repo = (.ok fresh,after,requests) ∧
      Moves site.forgejo repo after id need ∧ (∀ r ∈ requests, r.isPatch = false) ∧
      (fresh = none ∧ (have_.map (·.perm) = need ∨ need = none) ∨ fresh = some (site.forgejo.user id).login) := by
  rw [permFailure] at fine
  rw [setPerm.eq_def]
  split at fine
  · rename_i same
    rw [if_pos same]
    exact ⟨none,repo,[],rfl,⟨observed,rfl,fun _ _ => rfl,stands.trans same⟩,fun _ member => absurd member List.not_mem_nil,.inl ⟨rfl,.inl same⟩⟩
  · rename_i differs
    rw [if_neg differs]
    obtain ⟨found,answered⟩ := Option.or_eq_none_iff.mp fine
    cases need with
    | none =>
      cases have_ with
      | none => exact absurd rfl differs
      | some h =>
        have login : h.account.login = (site.forgejo.user id).login := congrArg ForgeAccount.login (known h rfl)
        simp only [setCollaborator,answered,Option.map_some,Option.getD_some,login]
        exact ⟨none,_,_,rfl,delete_moves id observed,fun r member => List.mem_singleton.mp member ▸ rfl,.inl ⟨rfl,.inr trivial⟩⟩
    | some p =>
      have asked : fails (.user id) = none := by simpa using found
      simp only [loginFor_exact,asked,setCollaborator,answered]
      exact ⟨_,_,_,rfl,put_moves observed p,fun r member => List.mem_singleton.mp member ▸ rfl,.inr rfl⟩

end

def Turn.isApplied : Turn → Bool
  | .applied => true
  | _ => false

-- What a turn leaves: what its request made of the permission, what the report
-- says, and its part of the list.
structure Item where
  id : Nat
  goal : Option (Option Perm)
  told : List RoleChange
  add : Bool
  drop : Bool
  keep : Bool

structure Passed (site : Site) (items : List Item) (edits next : Edits) (repo after : Repository) : Prop where
  changes : next.changes = edits.changes ++ items.flatMap Item.told
  add : ∀ login, login ∈ next.listAdd ↔ login ∈ edits.listAdd ∨ ∃ i ∈ items, i.add = true ∧ login = (site.forgejo.user i.id).login
  drop : ∀ id, id ∈ next.listDrop ↔ id ∈ edits.listDrop ∨ ∃ i ∈ items, i.drop = true ∧ id = i.id
  keep : ∀ id, id ∈ next.keepListed ↔ id ∈ edits.keepListed ∨ ∃ i ∈ items, i.keep = true ∧ id = i.id
  observed : Observed site.forgejo after
  rule : after.rule = repo.rule
  others : ∀ id, (∀ i ∈ items, i.id = id → i.goal = none) → after.perm id = repo.perm id
  reached : ∀ i ∈ items, ∀ p, i.goal = some p → after.perm i.id = p

theorem passed_nil {site : Site} {repo : Repository} (observed : Observed site.forgejo repo) (edits : Edits) : Passed site [] edits edits repo repo where
  changes := (List.append_nil _).symm
  add := by simp
  drop := by simp
  keep := by simp
  observed := observed
  rule := rfl
  others _ _ := rfl
  reached _ member := absurd member List.not_mem_nil

theorem passed_append {site : Site} {front back : List Item} {first second third : Edits} {repo middle after : Repository}
    (left : Passed site front first second repo middle) (right : Passed site back second third middle after)
    (apart : ∀ i ∈ front, ∀ j ∈ back, i.id ≠ j.id) : Passed site (front ++ back) first third repo after where
  changes := by rw [right.changes,left.changes,List.flatMap_append,List.append_assoc]
  add login := by simp only [right.add,left.add,List.mem_append,or_and_right,exists_or,or_assoc]
  drop id := by simp only [right.drop,left.drop,List.mem_append,or_and_right,exists_or,or_assoc]
  keep id := by simp only [right.keep,left.keep,List.mem_append,or_and_right,exists_or,or_assoc]
  observed := right.observed
  rule := right.rule.trans left.rule
  others id none_ := (right.others id fun i member => none_ i (List.mem_append_right _ member)).trans
    (left.others id fun i member => none_ i (List.mem_append_left _ member))
  reached i member p goal := by
    cases List.mem_append.mp member with
    | inl early =>
      have still : after.perm i.id = middle.perm i.id := right.others i.id fun j late same => absurd same.symm (apart i early j late)
      exact still.trans (left.reached i early p goal)
    | inr late => exact right.reached i late p goal

def wantedItem (site : Site) (fails : Call → Option ForgeError) (have_ : Option Have) (x : Nat × ForgeAccount × ForgeRole) : Item :=
  let turn := turnOf site fails x.1 (have_.map (·.perm)) (have_.any (·.listed)) x.2.2
  let before := (have_.map fun h => h.perm.observed h.listed).getD .none
  { id := x.1
    goal := if turn.isApplied then some (Perm.forRole x.2.2) else none
    told := match turn with
      | .blocked => [⟨x.2.1,before,.none,.failed (ascii "the bridge's own bot is never removed")⟩]
      | .failed e => [⟨x.2.1,before,x.2.2,.failed e.text⟩]
      | .applied => [⟨x.2.1,before,x.2.2,.applied⟩]
      | _ => []
    add := turn.isApplied && listNeeds x.2.2 && !have_.any (·.listed)
    drop := turn.isApplied && !listNeeds x.2.2 && have_.any (·.listed)
    keep := listNeeds x.2.2 }

theorem needs_perm {role : ForgeRole} (needs : listNeeds role = true) : Perm.forRole role ≠ none ∧ role ≠ .none := by
  cases role with
  | none | read | triage | write => exact absurd needs (by decide)
  | maintain | admin => exact ⟨by decide,by decide⟩

section
variable {site : Site} {fails : Call → Option ForgeError} {current : Current} {id : Nat} {account : ForgeAccount} {role : ForgeRole}
  {have_ : Option Have}

theorem editList_failed (needs : (listNeeds role && !have_.any (·.listed)) = true) {e : ForgeError} (failed : fails (.user id) = some e) (edits : Edits) :
    editList site fails id (listNeeds role) (have_.any (·.listed)) none edits =
      if e.isFatal then .error e else .ok (edits,.failed e.text) := by
  rw [editList,if_pos needs,loginFor_exact,failed]

-- Otherwise the edits are the account's place on the list.
theorem editList_done (fresh : Option Bytes)
    (login : fresh = some (site.forgejo.user id).login ∨ fresh = none ∧ ((listNeeds role && !have_.any (·.listed)) = true → fails (.user id) = none))
    (edits : Edits) : ∃ next, editList site fails id (listNeeds role) (have_.any (·.listed)) fresh edits = .ok (next,.applied) ∧
      next.changes = edits.changes ∧ next.keepListed = edits.keepListed ∧
      (∀ l, l ∈ next.listAdd ↔ l ∈ edits.listAdd ∨
        listNeeds role = true ∧ have_.any (·.listed) = false ∧ l = (site.forgejo.user id).login) ∧
      ∀ i, i ∈ next.listDrop ↔ i ∈ edits.listDrop ∨ listNeeds role = false ∧ have_.any (·.listed) = true ∧ i = id := by
  cases needs : listNeeds role with
  | false =>
    cases listed : have_.any (·.listed) with
    | false =>
      refine ⟨edits,rfl,rfl,rfl,?_,?_⟩
      · simp
      · simp
    | true =>
      refine ⟨_,rfl,rfl,rfl,?_,?_⟩
      · simp
      · intro i
        simp only [List.mem_cons,true_and]
        exact or_comm
  | true =>
    cases listed : have_.any (·.listed) with
    | true =>
      refine ⟨edits,rfl,rfl,rfl,?_,?_⟩
      · simp
      · simp
    | false =>
      have found : fresh.elim (loginFor site fails id) .ok = .ok (site.forgejo.user id).login := by
        cases login with
        | inl known =>
          rw [known]
          rfl
        | inr asked =>
          rw [asked.1,Option.elim_none]
          rw [loginFor_exact,asked.2 (by rw [needs,listed]; rfl)]
      let added : Edits := { edits with
        listAdd := edits.listAdd ++ [(site.forgejo.user id).login]
        listDependent := edits.changes.length :: edits.listDependent }
      refine ⟨added,?_,rfl,rfl,?_,?_⟩
      · cases fresh with
        | some login =>
          cases found
          rfl
        | none =>
          rw [Option.elim_none] at found
          rw [editList]
          simp only [found]
          rfl
      · intro l
        simp only [added,List.mem_append,List.mem_singleton,true_and]
      · simp [added]

variable {repo : Repository} {edits : Edits}

-- The turn of an account, from its standing.
abbrev turnFor (site : Site) (fails : Call → Option ForgeError) (id : Nat) (have_ : Option Have) (role : ForgeRole) : Turn :=
  turnOf site fails id (have_.map (·.perm)) (have_.any (·.listed)) role

def standing (have_ : Option Have) : ForgeRole := (have_.map fun h => h.perm.observed h.listed).getD .none

def noted (id : Nat) (role : ForgeRole) (edits : Edits) : Edits :=
  if listNeeds role then { edits with keepListed := id :: edits.keepListed } else edits

theorem noted_keep (id : Nat) (role : ForgeRole) (edits : Edits) (i : Nat) : i ∈ (noted id role edits).keepListed ↔ i ∈ edits.keepListed ∨ listNeeds role = true ∧ i = id := by
  rw [noted]
  split
  · rename_i needs
    rw [List.mem_cons]
    exact ⟨fun either => either.elim (fun same => .inr ⟨needs,same⟩) .inl,fun either => either.elim .inr fun both => .inl both.2⟩
  · rename_i spare
    exact ⟨.inl,fun either => either.elim (fun member => member) fun both => absurd both.1 spare⟩

theorem noted_else (id : Nat) (role : ForgeRole) (edits : Edits) : (noted id role edits).changes = edits.changes ∧ (noted id role edits).listAdd = edits.listAdd ∧
    (noted id role edits).listDrop = edits.listDrop := by
  rw [noted]
  split <;> exact ⟨rfl,rfl,rfl⟩

def isBlocked (site : Site) (id : Nat) (have_ : Option Have) (role : ForgeRole) : Prop :=
  id = site.bot ∧ role = .none ∧ have_.isSome = true

def isSettled (have_ : Option Have) (role : ForgeRole) : Prop :=
  have_.map (·.perm) = Perm.forRole role ∧ have_.any (·.listed) = listNeeds role

theorem wantedTurn_blocked (stands : current.lookup id = have_) (blocked : isBlocked site id have_ role) :
    wantedTurn site fails true current id account role edits repo =
      (.ok (edits.tell ⟨account,standing have_,.none,.failed (ascii "the bridge's own bot is never removed")⟩),repo,[]) := by
  rw [wantedTurn,stands]
  exact if_pos blocked

theorem wantedTurn_settled (stands : current.lookup id = have_) (open_ : ¬isBlocked site id have_ role) (settled : isSettled have_ role) :
    wantedTurn site fails true current id account role edits repo =
      (.ok (if role ≠ .none then { noted id role edits with unchanged := (noted id role edits).unchanged ++ [account] }
        else noted id role edits),repo,[]) := by
  rw [wantedTurn,stands]
  exact (if_neg open_).trans (if_pos ⟨settled.1,settled.2,fun unexpressible => by cases unexpressible.2⟩)

theorem wantedTurn_open (stands : current.lookup id = have_) (open_ : ¬isBlocked site id have_ role) (unsettled : ¬isSettled have_ role) :
    wantedTurn site fails true current id account role edits repo =
      match setPerm site fails id have_ (Perm.forRole role) repo with
      | (.error e,after,requests) =>
        if e.isFatal then (.error e,after,requests)
        else (.ok ((noted id role edits).tell ⟨account,standing have_,role,.failed e.text⟩),after,requests)
      | (.ok fresh,after,requests) =>
        match editList site fails id (listNeeds role) (have_.any (·.listed)) fresh (noted id role edits) with
        | .error e => (.error e,after,requests)
        | .ok (edited,outcome) => (.ok (edited.tell ⟨account,standing have_,role,outcome⟩),after,requests) := by
  rw [wantedTurn,stands]
  refine (if_neg open_).trans ((if_neg fun settled => unsettled ⟨settled.1,settled.2.1⟩).trans ?_)
  have expressible : ¬(role = .maintain ∧ true = false) := fun both => by cases both.2
  simp only [if_neg expressible]
  rfl

theorem turn_cases (site : Site) (fails : Call → Option ForgeError) (id : Nat) (have_ : Option Have) (role : ForgeRole) :
    (isBlocked site id have_ role ∧ turnFor site fails id have_ role = .blocked) ∨
    ¬isBlocked site id have_ role ∧ (isSettled have_ role ∧ turnFor site fails id have_ role = .kept ∨
      ¬isSettled have_ role ∧
        ((∃ e, firstFailure fails id (have_.map (·.perm)) (have_.any (·.listed)) role = some e ∧
          turnFor site fails id have_ role = if e.isFatal then .stopped e else .failed e) ∨
        firstFailure fails id (have_.map (·.perm)) (have_.any (·.listed)) role = none ∧ turnFor site fails id have_ role = .applied)) := by
  rw [turnFor,turnOf]
  by_cases blocked : isBlocked site id have_ role
  · have blocked' : id = site.bot ∧ role = .none ∧ (have_.map (·.perm)).isSome = true := by simpa [isBlocked] using blocked
    exact .inl ⟨blocked,if_pos blocked'⟩
  · have open_ : ¬(id = site.bot ∧ role = .none ∧ (have_.map (·.perm)).isSome = true) := by simpa [isBlocked] using blocked
    refine .inr ⟨blocked,?_⟩
    rw [if_neg open_]
    by_cases settled : isSettled have_ role
    · exact .inl ⟨settled,if_pos settled⟩
    · refine .inr ⟨settled,?_⟩
      have unsettled : ¬(have_.map (·.perm) = Perm.forRole role ∧ have_.any (·.listed) = listNeeds role) := settled
      rw [if_neg unsettled]
      cases firstFailure fails id (have_.map (·.perm)) (have_.any (·.listed)) role with
      | some e => exact .inl ⟨e,rfl,rfl⟩
      | none => exact .inr ⟨rfl,rfl⟩

-- A request that fails ends the turn before anything is set.
theorem wantedTurn_failed (stands : current.lookup id = have_) (open_ : ¬isBlocked site id have_ role) (unsettled : ¬isSettled have_ role)
    {e : ForgeError} (failed : firstFailure fails id (have_.map (·.perm)) (have_.any (·.listed)) role = some e) :
    wantedTurn site fails true current id account role edits repo =
      (if e.isFatal then .error e else .ok ((noted id role edits).tell ⟨account,standing have_,role,.failed e.text⟩),repo,[]) := by
  rw [wantedTurn_open stands open_ unsettled]
  rw [firstFailure] at failed
  split at failed
  · rename_i same
    split at failed
    · rename_i needs
      have found : setPerm site fails id have_ (Perm.forRole role) repo = (.ok none,repo,[]) := by
        rw [setPerm.eq_def]
        exact if_pos same
      have edit : editList site fails id (listNeeds role) (have_.any (·.listed)) none (noted id role edits) =
          if e.isFatal then .error e else .ok (noted id role edits,.failed e.text) := editList_failed needs failed _
      rw [found]
      dsimp only
      rw [edit]
      cases e.isFatal <;> rfl
    · cases failed
  · rw [setPerm_failed _ failed]
    dsimp only
    cases e.isFatal <;> rfl

-- With the answers it needs a turn does what it says.
theorem wantedTurn_applied (account : ForgeAccount) (edits : Edits) (observed : Observed site.forgejo repo) (stands : current.lookup id = have_) (here : repo.perm id = have_.map (·.perm))
    (known : ∀ h ∈ have_, h.account = site.forgejo.user id)
    (open_ : ¬isBlocked site id have_ role) (unsettled : ¬isSettled have_ role)
    (fine : firstFailure fails id (have_.map (·.perm)) (have_.any (·.listed)) role = none) :
    ∃ (next : Edits) (after : Repository) (requests : List Request),
      wantedTurn site fails true current id account role edits repo = (.ok (next.tell ⟨account,standing have_,role,.applied⟩),after,requests) ∧
      next.changes = edits.changes ∧
      (∀ l, l ∈ next.listAdd ↔ l ∈ edits.listAdd ∨ listNeeds role = true ∧ have_.any (·.listed) = false ∧ l = (site.forgejo.user id).login) ∧
      (∀ i, i ∈ next.listDrop ↔ i ∈ edits.listDrop ∨ listNeeds role = false ∧ have_.any (·.listed) = true ∧ i = id) ∧
      (∀ i, i ∈ next.keepListed ↔ i ∈ edits.keepListed ∨ listNeeds role = true ∧ i = id) ∧
      Moves site.forgejo repo after id (Perm.forRole role) ∧ ∀ r ∈ requests, r.isPatch = false := by
  have fine' : permFailure fails id (have_.map (·.perm)) (Perm.forRole role) = none ∧
      (have_.map (·.perm) = Perm.forRole role → (listNeeds role && !have_.any (·.listed)) = true → fails (.user id) = none) := by
    rw [firstFailure] at fine
    split at fine
    · rename_i same
      refine ⟨by rw [permFailure,if_pos same],fun _ needs => ?_⟩
      rwa [if_pos needs] at fine
    · rename_i differs
      exact ⟨fine,fun same => absurd same differs⟩
  obtain ⟨fresh,after,requests,set_,moves,plain,login⟩ := setPerm_done observed here known (Perm.forRole role) fine'.1
  have found : fresh = some (site.forgejo.user id).login ∨
      fresh = none ∧ ((listNeeds role && !have_.any (·.listed)) = true → fails (.user id) = none) := by
    cases login with
    | inr known => exact .inl known
    | inl none_ =>
      refine .inr ⟨none_.1,fun needs => ?_⟩
      cases none_.2 with
      | inl same => exact fine'.2 same needs
      | inr spare =>
        rw [Bool.and_eq_true] at needs
        exact absurd spare (needs_perm needs.1).1
  obtain ⟨next,edit,changes,keep,add,drop⟩ := editList_done fresh found (noted id role edits)
  obtain ⟨told,adds,drops⟩ := noted_else id role edits
  refine ⟨next,after,requests,?_,changes.trans told,?_,?_,?_,moves,plain⟩
  · rw [wantedTurn_open stands open_ unsettled,set_]
    simp only [edit]
  · intro l
    rw [add,adds]
  · intro i
    rw [drop,drops]
  · intro i
    rw [keep]
    exact noted_keep id role edits i

-- Each turn of the first loop ends the run, or leaves its item.
theorem wantedTurn_item (fails : Call → Option ForgeError) (account : ForgeAccount) (role : ForgeRole) (edits : Edits) (observed : Observed site.forgejo repo) (stands : current.lookup id = have_) (here : repo.perm id = have_.map (·.perm))
    (known : ∀ h ∈ have_, h.account = site.forgejo.user id) :
    (∃ e, turnFor site fails id have_ role = .stopped e ∧
      wantedTurn site fails true current id account role edits repo = (.error e,repo,[])) ∨
    (∀ e, turnFor site fails id have_ role ≠ .stopped e) ∧ ∃ next after requests,
      wantedTurn site fails true current id account role edits repo = (.ok next,after,requests) ∧
      Passed site [wantedItem site fails have_ (id,account,role)] edits next repo after ∧ ∀ r ∈ requests, r.isPatch = false := by
  have turn_ := turn_cases site fails id have_ role
  obtain ⟨blocked,turn⟩ | ⟨open_,⟨settled,turn⟩ | ⟨unsettled,⟨e,failed,turn⟩ | ⟨fine,turn⟩⟩⟩ := turn_
  · refine .inr ⟨fun e stopped => (by cases turn.symm.trans stopped),_,repo,[],wantedTurn_blocked stands blocked,?_,by simp⟩
    have needs : listNeeds role = false := by rw [blocked.2.1]; rfl
    have item : wantedItem site fails have_ (id,account,role) =
        ⟨id,none,[⟨account,standing have_,.none,.failed (ascii "the bridge's own bot is never removed")⟩],false,false,false⟩ := by
      simp only [wantedItem,turn,needs]
      rfl
    rw [item]
    exact ⟨rfl,by simp [Edits.tell],by simp [Edits.tell],by simp [Edits.tell],observed,rfl,fun _ _ => rfl,by simp⟩
  · refine .inr ⟨fun e stopped => (by cases turn.symm.trans stopped),_,repo,[],wantedTurn_settled stands open_ settled,?_,by simp⟩
    have item : wantedItem site fails have_ (id,account,role) = ⟨id,none,[],false,false,listNeeds role⟩ := by
      simp only [wantedItem,turn]
      rfl
    obtain ⟨told,adds,drops⟩ := noted_else id role edits
    rw [item]
    refine ⟨?_,?_,?_,?_,observed,rfl,fun _ _ => rfl,by simp⟩
    · split <;> simp [told]
    · split <;> simp [adds]
    · split <;> simp [drops]
    · intro i
      split <;> simpa using noted_keep id role edits i
  · cases fatal : e.isFatal with
    | true =>
      refine .inl ⟨e,by rw [turn,fatal]; rfl,?_⟩
      rw [wantedTurn_failed stands open_ unsettled failed,fatal]
      rfl
    | false =>
      rw [fatal] at turn
      refine .inr ⟨fun e' stopped => (by cases turn.symm.trans stopped),(noted id role edits).tell ⟨account,standing have_,role,.failed e.text⟩,repo,[],?_,?_,by simp⟩
      · rw [wantedTurn_failed stands open_ unsettled failed,fatal]
        rfl
      have item : wantedItem site fails have_ (id,account,role) =
          ⟨id,none,[⟨account,standing have_,role,.failed e.text⟩],false,false,listNeeds role⟩ := by
        simp only [wantedItem,turn]
        rfl
      obtain ⟨told,adds,drops⟩ := noted_else id role edits
      rw [item]
      refine ⟨?_,?_,?_,?_,observed,rfl,fun _ _ => rfl,by simp⟩
      · simp [Edits.tell,told]
      · simp [Edits.tell,adds]
      · simp [Edits.tell,drops]
      · intro i
        simpa [Edits.tell] using noted_keep id role edits i
  · obtain ⟨next,after,requests,run,changes,add,drop,keep,moves,plain⟩ :=
      wantedTurn_applied account edits observed stands here known open_ unsettled fine
    refine .inr ⟨fun e stopped => (by cases turn.symm.trans stopped),_,after,requests,run,?_,plain⟩
    have item : wantedItem site fails have_ (id,account,role) = ⟨id,some (Perm.forRole role),[⟨account,standing have_,role,.applied⟩],
        listNeeds role && !have_.any (·.listed),!listNeeds role && have_.any (·.listed),listNeeds role⟩ := by
      simp only [wantedItem,turn]
      rfl
    rw [item]
    refine ⟨?_,?_,?_,?_,moves.observed,moves.rule,?_,?_⟩
    · simp [Edits.tell,changes]
    · intro l
      simpa [Edits.tell,and_assoc] using add l
    · intro i
      simpa [Edits.tell,and_assoc] using drop i
    · intro i
      simpa [Edits.tell] using keep i
    · intro other none_
      refine moves.others other fun same => ?_
      have goal := none_ _ (List.mem_singleton.mpr rfl) same.symm
      cases goal
    · intro i member p goal
      rw [List.mem_singleton.mp member] at goal ⊢
      cases goal
      exact moves.reached

end

end VerifiableGit.MergeList
