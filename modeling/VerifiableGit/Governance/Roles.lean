import VerifiableGit.Governance.Records

-- Projecting roles onto one repository: the GitHub adapter's `apply_roles`
-- (vgi-forge-github, forge.rs) and the job's (jobs.rs).
namespace VerifiableGit.Governance
open Text

inductive RoleOutcome where
  | applied
  | invited
  | failed (why : Bytes)
deriving DecidableEq

structure RoleChange where
  account : ForgeAccount
  before : ForgeRole
  after : ForgeRole
  outcome : RoleOutcome
deriving DecidableEq

-- Where someone stands on a repository before a change.
inductive Current where
  | member (login : Bytes) (role : ForgeRole)
  | invited (id : Nat) (role : ForgeRole)
deriving DecidableEq

def Current.role : Current → ForgeRole
  | .member _ role => role
  | .invited _ role => role

structure Collaborator where
  account : ForgeAccount
  role : ForgeRole
  pending : Bool
deriving DecidableEq

structure Invitation where
  id : Nat
  invitee : Option ForgeAccount
  role : ForgeRole

-- What becomes of direct collaborators nobody lists.
inductive Unlisted where
  | keep
  | remove
deriving DecidableEq

structure ApplyReport where
  changes : List RoleChange := []
  unchanged : List ForgeAccount := []
  keptUnlisted : List Collaborator := []

-- The adapter's configuration for one namespace.
structure Adapter where
  ladder : List ForgeRole
  personalOwner : Option Nat
  ownBot : Bytes

-- What the forge answers one `apply_roles`: finding the repository, the token,
-- the two listings, and what the requests to change one account's role come to
-- (`true` for 201 Created).
structure RolesForge where
  located : Except ForgeError Unit := .ok ()
  token : Except ForgeError Unit := .ok ()
  collaborators : Except ForgeError (List Collaborator) := .ok []
  invitations : Except ForgeError (List Invitation) := .ok []
  reply : Nat → Except ForgeError Bool := fun _ => .ok false
  indirect : Nat → Except ForgeError (Option Bytes) := fun _ => .ok none

abbrev Wanted := List (Nat × ForgeAccount × ForgeRole)
abbrev Standing := List (Nat × ForgeAccount × Current)

def collapseToLadder (requested : ForgeRole) (ladder : List ForgeRole) : ForgeRole :=
  (ladder.filter fun level => level.level ≤ requested.level).foldl
    (fun best level => if best.level ≤ level.level then level else best) .none

def Adapter.expressible (adapter : Adapter) (desired : List RoleAssignment) : List RoleAssignment :=
  desired.filter fun a => some a.account.id ≠ adapter.personalOwner

-- `BTreeMap::insert` by id, as a list sorted by it.
def insertById (key : Nat) (value : β) : List (Nat × β) → List (Nat × β)
  | [] => [(key,value)]
  | (other,old) :: rest =>
    if key < other then (key,value) :: (other,old) :: rest
    else if key = other then (key,value) :: rest
    else (other,old) :: insertById key value rest

def wantedFrom (adapter : Adapter) (wanted : Wanted) : List RoleAssignment → Except ForgeError Wanted
  | [] => .ok wanted
  | a :: rest =>
    let role := collapseToLadder a.role adapter.ladder
    let next := insertById a.account.id (a.account,role) wanted
    match wanted.lookup a.account.id with
    | some (_,prev) =>
      if prev ≠ role then .error (.config (ascii "account " ++ ascii (toString a.account.id) ++
        ascii " is assigned two different roles"))
      else wantedFrom adapter next rest
    | none => wantedFrom adapter next rest

def currentOf (adapter : Adapter) (collaborators : List Collaborator) (invitations : List Invitation) : Standing :=
  let members := (collaborators.filter fun c => some c.account.id ≠ adapter.personalOwner).foldl
    (fun current c => insertById c.account.id (c.account,Current.member c.account.login c.role) current) []
  invitations.foldl (fun current i =>
    match i.invitee with
    | some user =>
      if (current.lookup user.id).isSome then current
      else insertById user.id (user,Current.invited i.id i.role) current
    | none => current) members

def changeRole (current : Option Current) (role : ForgeRole) (reply : Except ForgeError Bool) :
    Except ForgeError RoleOutcome :=
  match current,role with
  | none,.none => .ok .applied
  | some _,.none => reply.map fun _ => .applied
  | some (.invited _ _),_ => reply.map fun _ => .invited
  | _,_ => reply.map fun created => if created then .invited else .applied

def Adapter.isOwnBot (adapter : Adapter) : Option Current → Bool
  | some (.member login _) => sameIgnoringCase login adapter.ownBot
  | _ => false

def Standing.of (current : Standing) (account : Nat) : Option Current := (current.lookup account).map (·.2)

def Standing.have_ (current : Standing) (account : Nat) : ForgeRole :=
  ((current.of account).map (·.role)).getD .none

-- One turn of the loop over the changes; only a fatal error ends it.
def change (adapter : Adapter) (forge : RolesForge) (current : Standing) (account : ForgeAccount)
    (role : ForgeRole) : Except ForgeError RoleChange :=
  let cur := current.of account.id
  let done := RoleChange.mk account (current.have_ account.id) role
  if role = .none ∧ adapter.isOwnBot cur then
    .ok (done (.failed (ascii "the bridge's own App is never removed")))
  else
    match changeRole cur role (forge.reply account.id) with
    | .ok outcome => .ok (done outcome)
    | .error e => if e.isFatal then .error e else .ok (done (.failed e.text))

def changeAll (adapter : Adapter) (forge : RolesForge) (current : Standing) :
    List (ForgeAccount × ForgeRole) → List RoleChange × Except ForgeError Unit
  | [] => ([],.ok ())
  | (account,role) :: rest =>
    match change adapter forge current account role with
    | .error e => ([],.error e)
    | .ok made =>
      let (changes,result) := changeAll adapter forge current rest
      (made :: changes,result)

def todoOf (current : Standing) (wanted : Wanted) : List (ForgeAccount × ForgeRole) :=
  (wanted.filter fun w => current.have_ w.1 ≠ w.2.2).map (·.2)

-- The adapter's pass up to the first change: the standing and the changes asked.
def Adapter.prepare (adapter : Adapter) (forge : RolesForge) (desired : List RoleAssignment) :
    Except ForgeError (Standing × Wanted) := do
  forge.located
  let wanted ← wantedFrom adapter [] (adapter.expressible desired)
  forge.token
  let collaborators ← forge.collaborators
  let invitations ← forge.invitations
  pure (currentOf adapter collaborators invitations,wanted)

def reportOf (current : Standing) (wanted : Wanted) (changes : List RoleChange) : ApplyReport where
  changes := changes
  unchanged := (wanted.filter fun w => current.have_ w.1 = w.2.2 ∧ w.2.2 ≠ .none).map (·.2.1)
  keptUnlisted := (current.filter fun c => (wanted.lookup c.1).isNone).map fun c =>
    ⟨c.2.1,c.2.2.role,match c.2.2 with | .invited _ _ => true | .member _ _ => false⟩

-- With `Unlisted::Keep`, as the job asks for. Next to the result stands what
-- the forge has seen by then: the standing read, and the changes made of it,
-- also those before a fatal error.
def Adapter.applyRoles (adapter : Adapter) (forge : RolesForge) (desired : List RoleAssignment) :
    Option (Standing × List RoleChange) × Except ForgeError ApplyReport :=
  match adapter.prepare forge desired with
  | .error e => (none,.error e)
  | .ok (current,wanted) =>
    let (changes,result) := changeAll adapter forge current (todoOf current wanted)
    (some (current,changes),result.map fun _ => reportOf current wanted changes)

/-! The job -/

structure Removals where
  remove : List ForgeAccount := []
  refused : List Bytes := []

structure RolesJob where
  ns : Bytes
  repo : Resource
  forgeId : Nat
  desired : List RoleAssignment
  owners : List ForgeAccount := []
  removals : Removals := {}
  -- `rolemap::effective` of the configured map
  effective : Option RoleMap := none

abbrev Report := StepReport Bytes Bytes (Bytes × Bytes)

def formerRoles (record : Option RepoRecord) : List RoleAssignment := (record.map (·.roles)).getD []

def dropFormer (want : List RoleAssignment) (p : RoleAssignment) : List RoleAssignment :=
  if p.role ≠ .none ∧ ¬ want.any (·.account.id = p.account.id) then want ++ [⟨p.account,.none⟩] else want

-- The first assignment of the account loses its role; without one it is added.
def dropAccount (account : ForgeAccount) : List RoleAssignment → List RoleAssignment
  | [] => [⟨account,.none⟩]
  | w :: rest =>
    if w.account.id = account.id then ⟨w.account,.none⟩ :: rest else w :: dropAccount account rest

def wantOf (record : Option RepoRecord) (job : RolesJob) : List RoleAssignment :=
  job.removals.remove.foldl (fun want account => dropAccount account want)
    ((formerRoles record).foldl dropFormer job.desired)

def remainingAccess (forge : RolesForge) (removed : List ForgeAccount) (applied : ApplyReport) : List Bytes :=
  removed.filterMap fun account =>
    if applied.changes.any fun c => c.account.id = account.id &&
        (match c.outcome with | .failed _ => true | _ => false) then none
    else
      let who := account.login ++ ascii " (" ++ ascii (toString account.id) ++ ascii "): "
      match forge.indirect account.id with
      | .ok none => none
      | .ok (some access) => some (who ++ ascii "no direct role any more, but still " ++ access ++
          ascii "; the bridge does not change teams or the organisation")
      | .error e => some (who ++ ascii "the direct role is gone, but whether access remains through " ++
          ascii "a team or the organisation could not be read: " ++ e.text)

def RoleChange.failure (c : RoleChange) : Option Bytes :=
  match c.outcome with
  | .failed why => some (c.account.login ++ ascii ": " ++ why)
  | _ => none

def recordRoles (record : Option RepoRecord) (job : RolesJob) (appliedMap : Option RoleMap) : RepoRecord :=
  projectedRecord job.ns job.repo job.forgeId job.desired job.owners appliedMap record

-- What one job leaves: the record, its report, and what the forge has seen.
structure RolesDone where
  record : Option RepoRecord
  report : Report
  seen : Option (Standing × List RoleChange)

def applyRoles (adapter : Adapter) (forge : RolesForge) (record : Option RepoRecord) (job : RolesJob) : RolesDone :=
  match adapter.applyRoles forge (adapter.expressible (wantOf record job)) with
  | (seen,.ok r) =>
    let failures := job.removals.refused ++ r.changes.filterMap RoleChange.failure ++
      remainingAccess forge job.removals.remove r
    let status := if failures ≠ [] then .failed else if r.changes = [] then .unchanged else .applied
    let detail := if failures ≠ [] then some ((ascii "; ").intercalate failures) else none
    { record := some (recordRoles record job (if failures = [] then job.effective else none))
      report := StepReport.step {} (ascii "roles") status detail
      seen := seen }
  | (seen,.error e) =>
    { record := record
      report := (StepReport.step {} (ascii "roles") .failed (some e.text)).failed (errorCode e,e.text)
      seen := seen }

end VerifiableGit.Governance
