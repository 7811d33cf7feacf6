import VerifiableGit.Forge.Protection
import VerifiableGit.Governance.Roles

-- Forgejo's `apply_roles`: a role is a collaborator's permission and a place on
-- the default branch's merge allow-list (vgi-forge-forgejo, forge.rs).
namespace VerifiableGit.MergeList
open Text Governance

def ladder : List ForgeRole := [.read,.write,.maintain,.admin]

inductive Perm where
  | read
  | write
  | admin
deriving DecidableEq

def Perm.parse (s : Bytes) : Option Perm :=
  if s = ascii "read" then some .read
  else if s = ascii "write" then some .write
  else if s = ascii "admin" ∨ s = ascii "owner" then some .admin
  else none

def Perm.asStr : Perm → Bytes
  | .read => ascii "read"
  | .write => ascii "write"
  | .admin => ascii "admin"

-- The collaborator permission a role needs.
def Perm.forRole : ForgeRole → Option Perm
  | .admin => some .admin
  | .maintain | .write => some .write
  | .none => none
  | _ => some .read

-- The role a permission and a place on the list amount to.
def Perm.observed : Perm → Bool → ForgeRole
  | .admin,_ => .admin
  | .write,true => .maintain
  | .write,false => .write
  | .read,_ => .read

-- A collaborator, with the permission its own request is answered.
structure UserJson where
  id : Nat
  login : Bytes
  permission : Bytes
deriving DecidableEq

abbrev ProtectionJson := Api.ProtectionJson UInt8

-- `rule` is the one named like the default branch.
structure Repository where
  collaborators : List UserJson := []
  rule : Option ProtectionJson := none
deriving DecidableEq

def containsLogin (list : List Bytes) (login : Bytes) : Bool := list.any fun l => sameIgnoringCase l login

def allowOf (rule : Option ProtectionJson) : List Bytes :=
  ((rule.filter (·.enableMergeWhitelist)).map (·.mergeWhitelistUsernames)).getD []

inductive Request where
  | putCollaborator (login : Bytes) (permission : Perm)
  | deleteCollaborator (login : Bytes)
  | patchRule (branch : Bytes) (usernames : List Bytes)
deriving DecidableEq

-- Forgejo, as far as the requests meet it: the account of an id and the id
-- behind a login. No two accounts have one login, whatever its case.
structure Forgejo where
  user : Nat → ForgeAccount
  user_id : ∀ id, (user id).id = id
  resolve : Bytes → Nat
  resolves : ∀ id, resolve (user id).login = id
  unique : ∀ a b, sameIgnoringCase (user a).login (user b).login = true → a = b

-- The repository after a request that succeeded.
def Forgejo.perform (forgejo : Forgejo) (repo : Repository) : Request → Repository
  | .putCollaborator login permission =>
    let account := forgejo.user (forgejo.resolve login)
    if repo.collaborators.any (·.id = account.id) then
      { repo with collaborators := repo.collaborators.map fun c =>
          if c.id = account.id then { c with permission := permission.asStr } else c }
    else { repo with collaborators := repo.collaborators ++ [⟨account.id,account.login,permission.asStr⟩] }
  | .deleteCollaborator login => { repo with collaborators := repo.collaborators.filter (·.id ≠ forgejo.resolve login) }
  | .patchRule _ usernames =>
    { repo with rule := repo.rule.map fun rule =>
        { rule with enableMergeWhitelist := true, mergeWhitelistUsernames := usernames } }

-- The namespace's side of the adapter.
structure Site where
  forgejo : Forgejo
  organization : Bool
  ownerId : Option Nat
  bot : Nat

def Site.adapter (site : Site) : Adapter where
  ladder := ladder
  personalOwner := if site.organization then none else site.ownerId
  ownBot := (site.forgejo.user site.bot).login

-- What one run asks of Forgejo; each may fail.
inductive Call where
  | locate
  | repo
  | rule
  | collaborators
  | user (id : Nat)
  | set_ (id : Nat)
  | allowList
deriving DecidableEq

-- The result, the repository by then, and the requests that changed it.
abbrev Step (α : Type) := Except ForgeError α × Repository × List Request

-- Someone's standing on a repository before a change.
structure Have where
  account : ForgeAccount
  perm : Perm
  listed : Bool
deriving DecidableEq

abbrev Current := List (Nat × Have)

-- What the loops gather: the report, and the edits of the list.
structure Edits where
  changes : List RoleChange := []
  unchanged : List ForgeAccount := []
  keptUnlisted : List Collaborator := []
  listAdd : List Bytes := []
  listDrop : List Nat := []
  listDependent : List Nat := []
  keepListed : List Nat := []

section
variable (site : Site) (fails : Call → Option ForgeError)

def ask (call : Call) : Except ForgeError Unit :=
  match fails call with
  | some e => .error e
  | none => .ok ()

-- The login is looked up afresh, by the id.
def loginFor (id : Nat) : Except ForgeError Bytes :=
  match fails (.user id) with
  | some e => .error e
  | none =>
    let user := site.forgejo.user id
    if user.id ≠ id then .error (.notFound (ascii "user " ++ ascii (toString id))) else .ok user.login

def setCollaborator (id : Nat) (login : Bytes) (perm : Option Perm) (repo : Repository) : Step Unit :=
  match fails (.set_ id) with
  | some e => (.error e,repo,[])
  | none =>
    let request := match perm with
      | some p => .putCollaborator login p
      | none => .deleteCollaborator login
    (.ok (),site.forgejo.perform repo request,[request])

-- The permission a role needs, set if it is not there; the login that was looked up for it.
def setPerm (id : Nat) (have_ : Option Have) (need : Option Perm) (repo : Repository) : Step (Option Bytes) :=
  if have_.map (·.perm) = need then (.ok none,repo,[])
  else match need with
    | some p =>
      match loginFor site fails id with
      | .error e => (.error e,repo,[])
      | .ok login =>
        let (result,after,requests) := setCollaborator site fails id login (some p) repo
        (result.map fun _ => some login,after,requests)
    | none =>
      let login := ((have_.map (·.account.login)).getD [])
      let (result,after,requests) := setCollaborator site fails id login none repo
      (result.map fun _ => none,after,requests)

-- The account's place on the list: a login to add, an id whose entries go.
def editList (id : Nat) (needListed haveListed : Bool) (fresh : Option Bytes) (edits : Edits) :
    Except ForgeError (Edits × RoleOutcome) :=
  let added (login : Bytes) : Edits := { edits with
    listAdd := edits.listAdd ++ [login]
    listDependent := edits.changes.length :: edits.listDependent }
  if needListed && !haveListed then
    match fresh with
    | some login => .ok (added login,.applied)
    | none =>
      match loginFor site fails id with
      | .ok login => .ok (added login,.applied)
      | .error e => if e.isFatal then .error e else .ok (edits,.failed e.text)
  else if !needListed && haveListed then
    .ok ({ edits with
      listDrop := id :: edits.listDrop
      listDependent := edits.changes.length :: edits.listDependent },.applied)
  else .ok (edits,.applied)

def Edits.tell (edits : Edits) (c : RoleChange) : Edits := { edits with changes := edits.changes ++ [c] }

def unbootstrapped : Bytes :=
  ascii "granted `write`; `maintain` also needs a place on the default branch's merge allow-list, " ++
    ascii "which exists once the repository is bootstrapped"

-- One turn of the first loop: a wanted account.
def wantedTurn (ruled : Bool) (current : Current) (id : Nat) (account : ForgeAccount) (role : ForgeRole)
    (edits : Edits) (repo : Repository) : Step Edits :=
  let have_ := current.lookup id
  let before := (have_.map fun h => h.perm.observed h.listed).getD .none
  if id = site.bot ∧ role = .none ∧ have_.isSome then
    (.ok (edits.tell ⟨account,before,.none,.failed (ascii "the bridge's own bot is never removed")⟩),repo,[])
  else
    let needPerm := Perm.forRole role
    let needListed := ruled && decide (ForgeRole.maintain.level ≤ role.level)
    let haveListed := have_.any (·.listed)
    -- `maintain` is `write` and the list; without a rule there is no list
    let unexpressible := role = .maintain ∧ ruled = false
    let kept := if needListed then { edits with keepListed := id :: edits.keepListed } else edits
    if have_.map (·.perm) = needPerm ∧ haveListed = needListed ∧ ¬unexpressible then
      (.ok (if role ≠ .none then { kept with unchanged := kept.unchanged ++ [account] } else kept),repo,[])
    else
      match setPerm site fails id have_ needPerm repo with
      | (.error e,after,requests) =>
        if e.isFatal then (.error e,after,requests)
        else (.ok (kept.tell ⟨account,before,role,.failed e.text⟩),after,requests)
      | (.ok fresh,after,requests) =>
        match editList site fails id needListed haveListed fresh kept with
        | .error e => (.error e,after,requests)
        | .ok (edited,outcome) =>
          (.ok (edited.tell ⟨account,before,role,if unexpressible then .failed unbootstrapped else outcome⟩),after,requests)

def wantedLoop (ruled : Bool) (current : Current) : Wanted → Edits → Repository → Step Edits
  | [],edits,repo => (.ok edits,repo,[])
  | (id,account,role) :: rest,edits,repo =>
    match wantedTurn site fails ruled current id account role edits repo with
    | (.error e,after,requests) => (.error e,after,requests)
    | (.ok next,after,requests) =>
      let (result,last,more) := wantedLoop ruled current rest next after
      (result,last,requests ++ more)

-- One turn of the second: a collaborator nobody asked for.
def unlistedTurn (unlisted : Unlisted) (id : Nat) (have_ : Have) (edits : Edits) (repo : Repository) : Step Edits :=
  let before := have_.perm.observed have_.listed
  match unlisted with
  | .remove =>
    let dropped := if have_.listed then { edits with listDrop := id :: edits.listDrop } else edits
    match setCollaborator site fails id have_.account.login none repo with
    | (.ok (),after,requests) => (.ok (dropped.tell ⟨have_.account,before,.none,.applied⟩),after,requests)
    | (.error e,after,requests) =>
      if e.isFatal then (.error e,after,requests)
      else (.ok (dropped.tell ⟨have_.account,before,.none,.failed e.text⟩),after,requests)
  | .keep =>
    let kept := if have_.listed then { edits with keepListed := id :: edits.keepListed } else edits
    (.ok { kept with keptUnlisted := kept.keptUnlisted ++ [⟨have_.account,before,false⟩] },repo,[])

def unlistedLoop (unlisted : Unlisted) (wanted : Wanted) : Current → Edits → Repository → Step Edits
  | [],edits,repo => (.ok edits,repo,[])
  | (id,have_) :: rest,edits,repo =>
    if (wanted.lookup id).isSome then unlistedLoop unlisted wanted rest edits repo
    else
      match unlistedTurn site fails unlisted id have_ edits repo with
      | (.error e,after,requests) => (.error e,after,requests)
      | (.ok next,after,requests) =>
        let (result,last,more) := unlistedLoop unlisted wanted rest next after
        (result,last,requests ++ more)

def idOf (current : Current) (login : Bytes) : Option Nat :=
  (current.find? fun c => sameIgnoringCase c.2.account.login login).map (·.2.account.id)

def keptEntries (unlisted : Unlisted) (current : Current) (edits : Edits) (allow : List Bytes) : List Bytes :=
  allow.filter fun login =>
    match idOf current login with
    | some id => !edits.listDrop.contains id && edits.keepListed.contains id
    | none => unlisted ≠ .remove

def nextList (unlisted : Unlisted) (current : Current) (edits : Edits) (allow : List Bytes) : List Bytes :=
  edits.listAdd.foldl (fun next login => if containsLogin next login then next else next ++ [login])
    (keptEntries unlisted current edits allow)

def sameList (rule : ProtectionJson) (allow next : List Bytes) : Bool :=
  next.length = allow.length && next.all (containsLogin allow) && rule.enableMergeWhitelist

-- The changes that depended on the list, once it could not be written.
def unwritten (dependent : List Nat) (e : ForgeError) (changes : List RoleChange) : List RoleChange :=
  changes.mapIdx fun i c =>
    if i ∈ dependent ∧ c.outcome = .applied then { c with outcome := .failed (ascii "merge allow-list: " ++ e.text) } else c

-- The one write of the list.
def writeList (unlisted : Unlisted) (current : Current) (edits : Edits) (rule : ProtectionJson) (repo : Repository) :
    Step (List RoleChange) :=
  let allow := allowOf (some rule)
  let next := nextList unlisted current edits allow
  if sameList rule allow next then (.ok edits.changes,repo,[])
  else match fails .allowList with
    | some e => if e.isFatal then (.error e,repo,[]) else (.ok (unwritten edits.listDependent e edits.changes),repo,[])
    | none =>
      let request := .patchRule (rule.name.getD []) next
      (.ok edits.changes,site.forgejo.perform repo request,[request])

def Repository.current (repo : Repository) : Current :=
  (repo.collaborators.filterMap fun c => (Perm.parse c.permission).map fun perm => (⟨c.id,c.login⟩,perm)).foldl
    (fun current (c : ForgeAccount × Perm) =>
      if some c.1.id = site.adapter.personalOwner then current
      else insertById c.1.id ⟨c.1,c.2,containsLogin (allowOf repo.rule) c.1.login⟩ current) []

def prepare (desired : List RoleAssignment) (repo : Repository) : Except ForgeError (Current × Wanted) := do
  ask fails .locate
  let wanted ← wantedFrom site.adapter [] (site.adapter.expressible desired)
  ask fails .repo
  ask fails .rule
  ask fails .collaborators
  pure (repo.current site,wanted)

def reportOf (edits : Edits) (changes : List RoleChange) : ApplyReport where
  changes := changes
  unchanged := edits.unchanged
  keptUnlisted := edits.keptUnlisted

def applyRoles (desired : List RoleAssignment) (unlisted : Unlisted) (repo : Repository) : Step ApplyReport :=
  match prepare site fails desired repo with
  | .error e => (.error e,repo,[])
  | .ok (current,wanted) =>
    match wantedLoop site fails repo.rule.isSome current wanted {} repo with
    | (.error e,after,requests) => (.error e,after,requests)
    | (.ok asked,middle,first) =>
      match unlistedLoop site fails unlisted wanted current asked middle with
      | (.error e,after,requests) => (.error e,after,first ++ requests)
      | (.ok edits,last,second) =>
        match repo.rule with
        | none => (.ok (reportOf edits edits.changes),last,first ++ second)
        | some rule =>
          let (result,after,third) := writeList site fails unlisted current edits rule last
          (result.map (reportOf edits),after,first ++ second ++ third)

end

end VerifiableGit.MergeList
