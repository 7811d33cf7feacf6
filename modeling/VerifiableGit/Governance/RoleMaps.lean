import Mathlib.Data.Finset.Basic
import VerifiableGit.Governance.RoleHistory
import VerifiableGit.Library.Table

-- The role map a repository's roles are projected under (vgi-forge, rights.rs),
-- a `projectRoles` job under it (jobs.rs), and the bridge's report of the
-- repositories whose roles are another map's (rolemap.rs).
namespace VerifiableGit.Governance
open Text Library

inductive Right where
  | nsAdmin | repoCreate | repoOwn | repoMaintain | commitSign
deriving DecidableEq

def Right.closure : Right → Finset Right
  | .nsAdmin => {.nsAdmin,.repoCreate,.repoOwn,.repoMaintain,.commitSign}
  | .repoCreate => {.repoCreate}
  | .repoOwn => {.repoOwn,.repoMaintain,.commitSign}
  | .repoMaintain => {.repoMaintain,.commitSign}
  | .commitSign => {.commitSign}

structure EffectiveRights where
  held : Finset Right := ∅
  projectable : Finset Right := ∅

-- Namespace rights never project.
def EffectiveRights.insert (rights : EffectiveRights) (right : Right) : EffectiveRights where
  held := rights.held ∪ right.closure
  projectable := match right with
    | .nsAdmin | .repoCreate => rights.projectable
    | .repoOwn | .repoMaintain | .commitSign => rights.projectable ∪ right.closure

def EffectiveRights.fromGranted (granted : List Right) : EffectiveRights :=
  granted.foldl EffectiveRights.insert {}

def EffectiveRights.forgeTier (rights : EffectiveRights) : Option Right :=
  [.repoOwn,.repoMaintain,.commitSign].find? (· ∈ rights.projectable)

def ForgeRole.text : ForgeRole → Bytes
  | .none => ascii "none"
  | .read => ascii "read"
  | .triage => ascii "triage"
  | .write => ascii "write"
  | .maintain => ascii "maintain"
  | .admin => ascii "admin"

namespace RoleMap

def maxCommit : ForgeRole := .write

def default : RoleMap := ⟨.admin,.maintain,.none⟩

def adminRefused (tier : Bytes) (role : ForgeRole) : Bytes :=
  tier ++ ascii " may not get `" ++ role.text ++ ascii ("`: only an owner (`own`) may map to the forge's " ++
    "administrator role, since maintain and commit are rights their holder may grant themselves")

def new (own maintainer commit : ForgeRole) : Except Bytes RoleMap :=
  if ForgeRole.admin.level ≤ maintainer.level then .error (adminRefused (ascii "a maintainer") maintainer)
  else if ForgeRole.admin.level ≤ commit.level then .error (adminRefused (ascii "a committer") commit)
  else if own.level < maintainer.level then
    .error (ascii "a maintainer (`" ++ maintainer.text ++ ascii "`) may not get more than an owner (`" ++ own.text ++ ascii "`)")
  else if maintainer.level < commit.level then
    .error (ascii "a committer (`" ++ commit.text ++ ascii "`) may not get more than a maintainer (`" ++ maintainer.text ++
      ascii "`)")
  else if maxCommit.level < commit.level then
    .error (ascii "a committer may get at most `" ++ maxCommit.text ++ ascii "`, not `" ++ commit.text ++
      ascii "`: the check decides whose commits land, and merging is a maintainer's")
  else .ok ⟨own,maintainer,commit⟩

def requested (map : RoleMap) (rights : EffectiveRights) : ForgeRole :=
  match rights.forgeTier with
  | some .repoOwn => map.own
  | some .repoMaintain => map.maintain
  | some .commitSign => map.commit
  | _ => .none

-- What a map that was read or made satisfies.
structure Ordered (map : RoleMap) : Prop where
  own : map.maintain.level ≤ map.own.level
  maintain : map.commit.level ≤ map.maintain.level
  belowAdmin : map.maintain.level < ForgeRole.admin.level
  commit : map.commit.level ≤ maxCommit.level

-- The role a right alone asks for.
def role (map : RoleMap) (right : Right) : ForgeRole := map.requested (.fromGranted [right])

end RoleMap

-- The role map as configured, which `validate` has checked.
abbrev OrderedMap := { map : RoleMap // map.Ordered }

def Adapter.mapRole (adapter : Adapter) (rights : EffectiveRights) (map : RoleMap) : ForgeRole :=
  collapseToLadder (map.requested rights) adapter.ladder

-- The map as the forge applies it.
def Adapter.effectiveFor (adapter : Adapter) (map : RoleMap) : Option RoleMap :=
  let role := fun right => adapter.mapRole (.fromGranted [right]) map
  (RoleMap.new (role .repoOwn) (role .repoMaintain) (role .commitSign)).toOption

/-! The job -/

-- A bound namespace, and what its adapter is there.
structure RoleNamespace where
  id : Bytes
  resource : Resource
  adapter : Adapter
  ownerId : Option Nat := none

structure DesiredRole where
  subject : Bytes
  forge : Bytes
  account : ForgeAccount
  right : Right

structure ProjectRoles where
  repo : Resource
  roles : List DesiredRole
  remove : List ForgeAccount := []

def desiredRoles (ns : RoleNamespace) (map : RoleMap) :
    List DesiredRole → Except Bytes (List RoleAssignment × List ForgeAccount)
  | [] => .ok ([],[])
  | r :: rest =>
    if r.forge ≠ ns.resource.host then
      .error (ascii "`" ++ r.subject ++ ascii "`'s account is on `" ++ r.forge ++ ascii "`, not `" ++ ns.resource.host ++
        ascii "`")
    else do
      let (out,owners) ← desiredRoles ns map rest
      let role := ns.adapter.mapRole (.fromGranted [r.right]) map
      pure (⟨r.account,role⟩ :: out,if r.right = .repoOwn then r.account :: owners else owners)

def isProtectedAccount (ns : RoleNamespace) (account : Nat) : Bool := ns.ownerId = some account

def Removals.sort (ns : RoleNamespace) (accounts : List ForgeAccount) : Removals where
  remove := accounts.filter fun a => !isProtectedAccount ns a.id
  refused := (accounts.filter fun a => isProtectedAccount ns a.id).map fun a =>
    a.login ++ ascii " (" ++ ascii (toString a.id) ++
      ascii "): the namespace's owner and the bridge's own account are never removed"

-- What the forge answers one job; `took`: a request it carried out although the
-- answer was a failure.
structure RolesAnswers where
  inspected : Except ForgeError Nat := .ok 0
  forge : RolesForge := {}
  took : Nat → Bool := fun _ => false

def forgeIdOf (record : Option RepoRecord) (answers : RolesAnswers) : Except ForgeError Nat :=
  match record with
  | some r => .ok r.forgeId
  | none => answers.inspected

def rolesJob (ns : RoleNamespace) (map : RoleMap) (job : ProjectRoles) (forgeId : Nat)
    (desired : List RoleAssignment × List ForgeAccount) : RolesJob where
  ns := ns.id
  repo := job.repo
  forgeId := forgeId
  desired := desired.1
  owners := desired.2
  removals := Removals.sort ns job.remove
  effective := ns.adapter.effectiveFor map

-- The job up to `apply_roles`.
def preparedJob (ns : RoleNamespace) (map : RoleMap) (record : Option RepoRecord) (job : ProjectRoles)
    (answers : RolesAnswers) : Except (Bytes × Bytes) RolesJob :=
  match desiredRoles ns map job.roles with
  | .error message => .error (ascii "forgeError",message)
  | .ok desired =>
    match forgeIdOf record answers with
    | .error e => .error (errorCode e,e.text)
    | .ok forgeId => .ok (rolesJob ns map job forgeId desired)

def projectRoles (ns : RoleNamespace) (map : RoleMap) (record : Option RepoRecord) (job : ProjectRoles)
    (answers : RolesAnswers) : RolesDone :=
  match preparedJob ns map record job answers with
  | .error failure => { record := record, report := { failure := some failure }, seen := none }
  | .ok prepared => applyRoles ns.adapter answers.forge record prepared

/-! The report -/

structure RoleMapReported where
  roleMap : RoleMap
  ladder : List ForgeRole
  repos : List (Resource × RoleMap)
  stale : List Resource

def insertRole (role : ForgeRole) : List ForgeRole → List ForgeRole
  | [] => [role]
  | other :: rest => if role.level ≤ other.level then role :: other :: rest else other :: insertRole role rest

def ladderFor (adapter : Adapter) : List ForgeRole :=
  ((adapter.ladder.filter (· ≠ .none)).foldr insertRole []).dedup

-- The map of each repository that has one of its own.
def ownMaps (adapter : Adapter) (roleMap : Resource → RoleMap) (base : RoleMap) :
    List Resource → Option (List (Resource × RoleMap))
  | [] => some []
  | r :: rest => do
    let m ← adapter.effectiveFor (roleMap r)
    let others ← ownMaps adapter roleMap base rest
    pure (if m ≠ base then (r,m) :: others else others)

def isStale (ns : RoleNamespace) (roleMap : Resource → RoleMap) (standard : RoleMap) (record : RepoRecord) : Bool :=
  (record.ns = ns.id && record.rolesKnown && !record.archived) && ns.resource.contains record.resource &&
    some (record.roleMap.getD standard) ≠ ns.adapter.effectiveFor (roleMap record.resource)

-- `event`, given the map of each resource, the repositories configured with one
-- and the records of the store.
def roleMapEvent (ns : RoleNamespace) (roleMap : Resource → RoleMap) (configured : List Resource)
    (records : List RepoRecord) : Option RoleMapReported := do
  let base ← ns.adapter.effectiveFor (roleMap ns.resource)
  let repos ← ownMaps ns.adapter roleMap base configured
  let standard ← ns.adapter.effectiveFor RoleMap.default
  pure ⟨base,ladderFor ns.adapter,repos,(records.filter (isStale ns roleMap standard)).map (·.resource)⟩

/-! The map rounded onto a ladder -/

-- The highest level so far: `best`, or one of the list that is not above.
theorem highest_cases (levels : List ForgeRole) (best top : ForgeRole)
    (made : levels.foldl (fun best level => if best.level ≤ level.level then level else best) best = top) :
    (top = best ∨ top ∈ levels) ∧ best.level ≤ top.level ∧ ∀ level ∈ levels, level.level ≤ top.level := by
  induction levels generalizing best with
  | nil => exact ⟨.inl made.symm,Nat.le_of_eq (congrArg _ made),fun _ => nofun⟩
  | cons level rest ih =>
    obtain ⟨here,higher,all⟩ := ih _ made
    dsimp only at here higher
    by_cases up : best.level ≤ level.level
    · rw [if_pos up] at here higher
      refine ⟨.inr ?_,up.trans higher,List.forall_mem_cons.mpr ⟨higher,all⟩⟩
      exact here.elim (fun same => List.mem_cons.mpr (.inl same)) (List.mem_cons_of_mem _)
    · rw [if_neg up] at here higher
      have below : level.level ≤ best.level := by omega
      exact ⟨here.imp_right (List.mem_cons_of_mem _),higher,List.forall_mem_cons.mpr ⟨below.trans higher,all⟩⟩

theorem collapse_le (requested : ForgeRole) (ladder : List ForgeRole) :
    (collapseToLadder requested ladder).level ≤ requested.level := by
  obtain ⟨here,_,_⟩ := highest_cases _ _ (collapseToLadder requested ladder) rfl
  cases here with
  | inl none_ =>
    rw [none_]
    exact Nat.zero_le _
  | inr listed => exact of_decide_eq_true (List.mem_filter.mp listed).2

theorem collapse_highest (requested : ForgeRole) (ladder : List ForgeRole) (level : ForgeRole) (listed : level ∈ ladder)
    (below : level.level ≤ requested.level) : level.level ≤ (collapseToLadder requested ladder).level :=
  (highest_cases _ ForgeRole.none _ rfl).2.2 level (List.mem_filter.mpr ⟨listed,decide_eq_true below⟩)

theorem collapse_listed (requested : ForgeRole) (ladder : List ForgeRole) :
    collapseToLadder requested ladder = .none ∨ collapseToLadder requested ladder ∈ ladder :=
  (highest_cases _ ForgeRole.none _ rfl).1.imp_right fun listed => (List.mem_filter.mp listed).1

theorem level_injective {a b : ForgeRole} (same : a.level = b.level) : a = b := by
  cases a <;> cases b <;> first | rfl | cases same

theorem collapse_mono (ladder : List ForgeRole) {a b : ForgeRole} (le : a.level ≤ b.level) :
    (collapseToLadder a ladder).level ≤ (collapseToLadder b ladder).level := by
  cases collapse_listed a ladder with
  | inl none_ =>
    rw [none_]
    exact Nat.zero_le _
  | inr listed => exact collapse_highest b ladder _ listed ((collapse_le a ladder).trans le)

-- Rounding again changes nothing.
theorem collapse_collapse (requested : ForgeRole) (ladder : List ForgeRole) :
    collapseToLadder (collapseToLadder requested ladder) ladder = collapseToLadder requested ladder := by
  refine level_injective (Nat.le_antisymm (collapse_le _ _) ?_)
  cases collapse_listed requested ladder with
  | inl none_ =>
    rw [none_]
    exact Nat.zero_le _
  | inr listed => exact collapse_highest _ ladder _ listed (Nat.le_refl _)

theorem new_ordered (map : RoleMap) (ordered : map.Ordered) :
    RoleMap.new map.own map.maintain map.commit = .ok map := by
  obtain ⟨one,two,three,four⟩ := ordered
  have least : RoleMap.maxCommit.level < ForgeRole.admin.level := by decide
  unfold RoleMap.new
  rw [if_neg (by omega),if_neg (by omega),if_neg (by omega),if_neg (by omega),if_neg (by omega)]

theorem default_ordered : RoleMap.default.Ordered := by
  constructor <;> decide

-- The forge applies an ordered map as an ordered one.
theorem effectiveFor_some (adapter : Adapter) (map : RoleMap) (ordered : map.Ordered) :
    adapter.effectiveFor map = some ⟨collapseToLadder map.own adapter.ladder,collapseToLadder map.maintain adapter.ladder,
      collapseToLadder map.commit adapter.ladder⟩ := by
  have rounded : RoleMap.Ordered ⟨collapseToLadder map.own adapter.ladder,collapseToLadder map.maintain adapter.ladder,
      collapseToLadder map.commit adapter.ladder⟩ :=
    ⟨collapse_mono _ ordered.own,collapse_mono _ ordered.maintain,(collapse_le _ _).trans_lt ordered.belowAdmin,
      (collapse_le _ _).trans ordered.commit⟩
  have made := new_ordered _ rounded
  show (RoleMap.new (collapseToLadder map.own adapter.ladder) (collapseToLadder map.maintain adapter.ladder)
    (collapseToLadder map.commit adapter.ladder)).toOption = _
  rw [made]
  rfl

theorem effective_role (adapter : Adapter) (map effective : RoleMap) (applied : adapter.effectiveFor map = some effective)
    (ordered : map.Ordered) (right : Right) :
    effective.role right = adapter.mapRole (.fromGranted [right]) map := by
  rw [effectiveFor_some adapter map ordered] at applied
  cases applied
  cases right with
  | nsAdmin | repoCreate => exact (collapse_none adapter.ladder).symm
  | repoOwn | repoMaintain | commitSign => rfl

end VerifiableGit.Governance
