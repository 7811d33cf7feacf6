import VerifiableGit.Governance.Roles

-- GitHub's `apply_roles` request by request, and the repository it acts on
-- (vgi-forge-github, forge.rs).
namespace VerifiableGit.Projection
open Text Governance

structure PermsJson where
  admin : Bool := false
  maintain : Bool := false
  push : Bool := false
  triage : Bool := false
deriving DecidableEq

structure CollaboratorJson where
  id : Nat
  login : Bytes
  roleName : Option Bytes := none
  permissions : Option PermsJson := none
deriving DecidableEq

structure InvitationJson where
  id : Nat
  invitee : Option ForgeAccount := none
  permissions : Bytes
deriving DecidableEq

def roleFromName (name : Bytes) : Option ForgeRole :=
  if name = ascii "admin" then some .admin
  else if name = ascii "maintain" then some .maintain
  else if name = ascii "write" ∨ name = ascii "push" then some .write
  else if name = ascii "triage" then some .triage
  else if name = ascii "read" ∨ name = ascii "pull" then some .read
  else none

def putPermission : ForgeRole → Bytes
  | .admin => ascii "admin"
  | .maintain => ascii "maintain"
  | .write => ascii "push"
  | .triage => ascii "triage"
  | _ => ascii "pull"

def invitationPermission : ForgeRole → Bytes
  | .admin => ascii "admin"
  | .maintain => ascii "maintain"
  | .write => ascii "write"
  | .triage => ascii "triage"
  | _ => ascii "read"

-- `role_name`, or for a custom role the highest base permission.
def CollaboratorJson.role (c : CollaboratorJson) : ForgeRole :=
  match c.roleName.bind roleFromName with
  | some role => role
  | none =>
    if c.permissions.any PermsJson.admin then .admin
    else if c.permissions.any PermsJson.maintain then .maintain
    else if c.permissions.any PermsJson.push then .write
    else if c.permissions.any PermsJson.triage then .triage
    else .read

def InvitationJson.role (i : InvitationJson) : ForgeRole := (roleFromName i.permissions).getD .read

def orgLadder : List ForgeRole := [.read,.triage,.write,.maintain,.admin]
def userLadder : List ForgeRole := [.write]

-- What the listings of a repository show.
structure Repository where
  collaborators : List CollaboratorJson := []
  invitations : List InvitationJson := []
deriving DecidableEq

inductive Request where
  | deleteInvitation (id : Nat)
  | deleteCollaborator (login : Bytes)
  | patchInvitation (id : Nat) (permissions : Bytes)
  | putCollaborator (login : Bytes) (permission : Option Bytes)
deriving DecidableEq

-- GitHub, as far as the requests meet it: the account of an id, the id behind a
-- login, and whom a PUT adds at once, without an invitation.
structure GitHub where
  user : Nat → ForgeAccount
  user_id : ∀ id, (user id).id = id
  resolve : Bytes → Nat
  resolves : ∀ id, resolve (user id).login = id
  joins : Nat → Bool

def Repository.nextInvitation (repo : Repository) : Nat := (repo.invitations.map (·.id)).foldr max 0 + 1

-- The repository after a request that succeeded, and whether it was answered
-- with 201. Without a permission (personal accounts) a collaborator gets `write`.
def GitHub.perform (github : GitHub) (repo : Repository) : Request → Repository × Bool
  | .deleteInvitation id => ({ repo with invitations := repo.invitations.filter (·.id ≠ id) },false)
  | .deleteCollaborator login =>
    ({ repo with collaborators := repo.collaborators.filter (·.id ≠ github.resolve login) },false)
  | .patchInvitation id permissions =>
    ({ repo with invitations := repo.invitations.map fun i => if i.id = id then { i with permissions := permissions } else i },false)
  | .putCollaborator login permission =>
    let account := github.user (github.resolve login)
    let given := permission.getD (ascii "write")
    if repo.collaborators.any (·.id = account.id) then
      ({ repo with collaborators := repo.collaborators.map fun c =>
          if c.id = account.id then { c with roleName := some given, permissions := none } else c },false)
    else if github.joins account.id then
      ({ repo with collaborators := repo.collaborators ++ [⟨account.id,account.login,some given,none⟩] },false)
    else ({ repo with invitations := repo.invitations ++ [⟨repo.nextInvitation,some account,given⟩] },true)

-- The namespace's side of the adapter.
structure Site where
  github : GitHub
  organization : Bool
  ownerId : Option Nat
  appSlug : Bytes

def Site.adapter (site : Site) : Adapter where
  ladder := if site.organization then orgLadder else userLadder
  personalOwner := if site.organization then none else site.ownerId
  ownBot := site.appSlug ++ ascii "[bot]"

-- What one run asks of GitHub; each may fail.
inductive Call where
  | locate
  | token
  | collaborators
  | invitations
  | user (id : Nat)
  | change (id : Nat)
deriving DecidableEq

-- The result, the repository by then, and the requests that changed it.
abbrev Step (α : Type) := Except ForgeError α × Repository × List Request

section
variable (site : Site) (fails : Call → Option ForgeError)

def ask (call : Call) : Except ForgeError Unit :=
  match fails call with
  | some e => .error e
  | none => .ok ()

def send (account : Nat) (request : Request) (outcome : Bool → RoleOutcome) (repo : Repository) : Step RoleOutcome :=
  match fails (.change account) with
  | some e => (.error e,repo,[])
  | none =>
    let (after,created) := site.github.perform repo request
    (.ok (outcome created),after,[request])

-- The login is looked up afresh, by the id.
def loginFor (id : Nat) : Except ForgeError Bytes :=
  match fails (.user id) with
  | some e => .error e
  | none =>
    let user := site.github.user id
    if user.id ≠ id then .error (.protocol (ascii "asked for user " ++ ascii (toString id) ++
      ascii ", GitHub answered with " ++ ascii (toString user.id)))
    else .ok user.login

def changeRole (account : ForgeAccount) (role : ForgeRole) (current : Option Current) (repo : Repository) : Step RoleOutcome :=
  match current,role with
  | some (.invited id _),.none => send site fails account.id (.deleteInvitation id) (fun _ => .applied) repo
  | some (.member login _),.none => send site fails account.id (.deleteCollaborator login) (fun _ => .applied) repo
  | none,.none => (.ok .applied,repo,[])
  | some (.invited id _),role =>
    send site fails account.id (.patchInvitation id (invitationPermission role)) (fun _ => .invited) repo
  | _,role =>
    match loginFor site fails account.id with
    | .error e => (.error e,repo,[])
    | .ok login =>
      let body := if site.organization then some (putPermission role) else none
      send site fails account.id (.putCollaborator login body) (fun created => if created then .invited else .applied) repo

-- One turn of the loop over the changes; only a fatal error ends it.
def change (current : Standing) (account : ForgeAccount) (role : ForgeRole) (repo : Repository) : Step RoleChange :=
  let cur := current.of account.id
  let done := RoleChange.mk account (current.have_ account.id) role
  if role = .none ∧ site.adapter.isOwnBot cur then
    (.ok (done (.failed (ascii "the bridge's own App is never removed"))),repo,[])
  else
    match changeRole site fails account role cur repo with
    | (.ok outcome,after,requests) => (.ok (done outcome),after,requests)
    | (.error e,after,requests) => if e.isFatal then (.error e,after,requests) else (.ok (done (.failed e.text)),after,requests)

def changeEach (current : Standing) : List (ForgeAccount × ForgeRole) → Repository → Step (List RoleChange)
  | [],repo => (.ok [],repo,[])
  | (account,role) :: rest,repo =>
    match change site fails current account role repo with
    | (.error e,after,requests) => (.error e,after,requests)
    | (.ok made,after,requests) =>
      let (result,last,more) := changeEach current rest after
      (result.map (made :: ·),last,requests ++ more)

def unlistedOf (current : Standing) (wanted : Wanted) : Standing := current.filter fun c => (wanted.lookup c.1).isNone

def todoFor (unlisted : Unlisted) (current : Standing) (wanted : Wanted) : List (ForgeAccount × ForgeRole) :=
  todoOf current wanted ++ match unlisted with
    | .remove => (unlistedOf current wanted).map fun c => (c.2.1,.none)
    | .keep => []

def reportFor (unlisted : Unlisted) (current : Standing) (wanted : Wanted) (changes : List RoleChange) : ApplyReport :=
  match unlisted with
  | .keep => reportOf current wanted changes
  | .remove => { reportOf current wanted changes with keptUnlisted := [] }

def Repository.standing (repo : Repository) : Standing :=
  currentOf site.adapter (repo.collaborators.map fun c => ⟨⟨c.id,c.login⟩,c.role,false⟩)
    (repo.invitations.map fun i => ⟨i.id,i.invitee,i.role⟩)

-- What is read and decided before the first change.
def prepare (desired : List RoleAssignment) (repo : Repository) : Except ForgeError (Standing × Wanted) := do
  ask fails .locate
  let wanted ← wantedFrom site.adapter [] (site.adapter.expressible desired)
  ask fails .token
  ask fails .collaborators
  ask fails .invitations
  pure (repo.standing site,wanted)

def applyRoles (desired : List RoleAssignment) (unlisted : Unlisted) (repo : Repository) : Step ApplyReport :=
  match prepare site fails desired repo with
  | .error e => (.error e,repo,[])
  | .ok (current,wanted) =>
    let (result,after,requests) := changeEach site fails current (todoFor unlisted current wanted) repo
    (result.map (reportFor unlisted current wanted),after,requests)

end

/-! What the listings say of one account -/

def InvitationJson.for_ (i : InvitationJson) (account : Nat) : Bool := i.invitee.any (·.id = account)

def Repository.member (repo : Repository) (account : Nat) : Option CollaboratorJson := repo.collaborators.find? (·.id = account)
def Repository.invitation (repo : Repository) (account : Nat) : Option InvitationJson := repo.invitations.find? (·.for_ account)

-- Whether the access is still an invitation, and the role.
def Repository.held (repo : Repository) (account : Nat) : Option (Bool × ForgeRole) :=
  ((repo.member account).map fun c => (false,c.role)).or ((repo.invitation account).map fun i => (true,i.role))

def Repository.role (repo : Repository) (account : Nat) : ForgeRole := ((repo.held account).map Prod.snd).getD .none

-- The accounts a repository lists, each time it lists one.
def Repository.accounts (repo : Repository) : List Nat :=
  repo.collaborators.map (·.id) ++ repo.invitations.filterMap fun i => i.invitee.map (·.id)

-- A listing as GitHub gives it: every account once, under its login, and every
-- invitation under an id of its own.
structure Observed (github : GitHub) (repo : Repository) : Prop where
  once : repo.accounts.Nodup
  logins : ∀ c ∈ repo.collaborators, github.resolve c.login = c.id
  tickets : (repo.invitations.map (·.id)).Nodup

end VerifiableGit.Projection
