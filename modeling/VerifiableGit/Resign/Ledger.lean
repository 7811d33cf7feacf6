import Mathlib.Data.List.AList
import VerifiableGit.Text

-- The provenance ledger of the Dependabot re-sign (resign.rs, store.rs).
namespace VerifiableGit.Resign
open Text

def maxPushes : Nat := 256
def maxOwn : Nat := 64
def maxBranchesPerRepo : Nat := 64
def replayWindowSecs : Int := 6 * 86400
def ledgerTtlSecs : Int := 90 * 86400

def zeroSha : Bytes := List.replicate 40 48

-- One verified `push` delivery.
structure PushEvent where
  repo : Bytes
  repoId : Nat
  gitRef : Bytes
  before : Bytes
  after : Bytes
  created : Bool
  deleted : Bool
  senderLogin : Bytes
  senderId : Nat
  deliveryId : Option Bytes
  pushedAt : Option Int
deriving DecidableEq

def PushEvent.branch (push : PushEvent) : Option Bytes := stripPrefix (ascii "refs/heads/") push.gitRef

structure PushRecord where
  before : Bytes
  after : Bytes
  senderLogin : Bytes
  senderId : Nat
  created : Bool
  deliveryId : Option Bytes
  recordedAt : Int
deriving DecidableEq

structure OwnPush where
  before : Bytes
  after : Bytes
  recordedAt : Int
deriving DecidableEq

structure BranchLedger where
  repo : Option Bytes := none
  branch : Bytes := []
  pushes : List PushRecord := []
  own : List OwnPush := []
  overflow : Bool := false
  pullRequest : Option Nat := none
  touched : Int := 0
  lastPushedAt : Option Int := none
  lastSkip : Option (Bytes × Bytes) := none
deriving DecidableEq

-- `Table::Branches`.
abbrev Branches := AList fun _ : Bytes => BranchLedger

def hash : UInt8 := 35

def ledgerKey (host : Bytes) (repoId : Nat) (branch : Bytes) : Bytes :=
  host ++ hash :: ascii (toString repoId) ++ hash :: branch

def repoPrefix (key : Bytes) : Bytes :=
  let rest := (key.dropWhile (· ≠ hash)).drop 1
  key.takeWhile (· ≠ hash) ++ hash :: rest.takeWhile (· ≠ hash) ++ [hash]

def older (a b : Int × Bytes) : Bool := a.1 < b.1 || a.1 = b.1 && a.2 ≤ b.2

-- `store.delete` for each.
def deleteAll (branches : Branches) (keys : List Bytes) : Branches :=
  keys.foldl (fun branches key => branches.erase key) branches

def makeRoom (key : Bytes) (branches : Branches) : Branches :=
  if (branches.lookup key).isSome then branches
  else
    let same := (branches.entries.filter fun row => (repoPrefix key).isPrefixOf row.1).map fun row =>
      (row.2.touched,row.1)
    let excess := same.length + 1 - maxBranchesPerRepo
    deleteAll branches (((same.mergeSort older).take excess).map (·.2))

-- `store.update`: what the closure leaves is put, or the record is deleted.
def update (key : Bytes) (ledger : Option BranchLedger) (branches : Branches) : Branches :=
  match ledger with
  | some ledger => branches.insert key ledger
  | none => branches.erase key

def PushEvent.record (push : PushEvent) (now : Int) : PushRecord :=
  { before := push.before
    after := push.after
    senderLogin := push.senderLogin
    senderId := push.senderId
    created := push.created
    deliveryId := push.deliveryId
    recordedAt := now }

-- Older than the delivery ids the bridge keeps.
def PushEvent.stale (push : PushEvent) (now : Int) : Prop := ∃ t ∈ push.pushedAt, t < now - replayWindowSecs

instance (push : PushEvent) (now : Int) : Decidable (push.stale now) :=
  inferInstanceAs (Decidable (∃ _ ∈ _,_))

def newest (push : PushEvent) (ledger : Option BranchLedger) : Bool :=
  match push.pushedAt,(ledger.getD {}).lastPushedAt with
  | some t,some last => last ≤ t
  | some _,none => true
  | none,_ => ledger.isNone

def repeats (push : PushEvent) (p : PushRecord) : Bool :=
  p.before = push.before && p.after = push.after && p.senderId = push.senderId

def BranchLedger.addPush (l : BranchLedger) (push : PushEvent) (now : Int) : BranchLedger :=
  if l.pushes.any (repeats push) then l
  else if l.pushes.length ≥ maxPushes then { l with overflow := true }
  else { l with pushes := l.pushes ++ [push.record now] }

-- The transaction of `record_push`.
def recordIn (push : PushEvent) (branch : Bytes) (now : Int) (current : Option BranchLedger) :
    Option BranchLedger × Option Nat :=
  let l := current.getD {}
  if push.deleted then
    -- The branch is gone, and its record with it; an older deletion is ignored.
    if newest push current then (none,none) else (current,none)
  else
    -- A new branch under an old name keeps the pull request and the newest time.
    let l := if push.created && newest push current then
        { pullRequest := l.pullRequest, lastPushedAt := l.lastPushedAt }
      else l
    let l := { l with
      repo := some push.repo
      branch := branch
      touched := now
      lastPushedAt := match push.pushedAt with
        | some t => some ((l.lastPushedAt.map (max · t)).getD t)
        | none => l.lastPushedAt }
    (some (l.addPush push now),(current.getD {}).pullRequest)

def recordPush (host : Bytes) (push : PushEvent) (now : Int) (branches : Branches) :
    Except Bytes (Option Nat × Branches) :=
  match push.branch with
  | none => .error (ascii "not a branch")
  | some branch =>
    let key := ledgerKey host push.repoId branch
    if push.stale now then .ok (none,branches)
    else
      let branches := if push.deleted then branches else makeRoom key branches
      let (ledger,pr) := recordIn push branch now (branches.lookup key)
      .ok (pr,update key ledger branches)

def rememberPullRequest (key : Bytes) (number : Nat) (now : Int) (branches : Branches) : Branches :=
  let branches := makeRoom key branches
  let l := (branches.lookup key).getD {}
  branches.insert key { l with pullRequest := some number, touched := now }

def recordOwn (key before after : Bytes) (now : Int) (branches : Branches) : Except Bytes Branches :=
  match branches.lookup key with
  | none => .error (ascii "the branch's ledger disappeared")
  | some l =>
    let own := if l.own.length ≥ maxOwn then l.own.drop 1 else l.own
    .ok (branches.insert key { l with own := own ++ [⟨before,after,now⟩], touched := now })

def noteSkip (key head why : Bytes) (now : Int) (branches : Branches) : Branches :=
  update key ((branches.lookup key).map fun l => { l with lastSkip := some (head,why), touched := now })
    branches

def BranchLedger.lastUse (l : BranchLedger) : Int :=
  ((l.pushes.map (·.recordedAt) ++ l.own.map (·.recordedAt)).foldl max l.touched)

-- The hourly maintenance.
def prune (now : Int) (branches : Branches) : Branches :=
  deleteAll branches
    ((branches.entries.filter fun row => ledgerTtlSecs < now - row.2.lastUse).map (·.1))

-- The repository left its namespace (events.rs).
def detach (start : Bytes) (branches : Branches) : Branches :=
  deleteAll branches ((branches.entries.filter fun row => start.isPrefixOf row.1).map (·.1))

def short (sha : Bytes) : Bytes := sha.take 12

-- "→" in UTF-8.
def arrow : Bytes := [0xE2,0x86,0x92]

section
variable (login : Bytes) (id : Nat)

def PushRecord.byDependabot (p : PushRecord) : Bool := p.senderLogin = login && p.senderId = id

def BranchLedger.isOwn (l : BranchLedger) (p : PushRecord) : Bool :=
  l.own.any fun o => o.before = p.before && o.after = p.after

-- From a head back through `after → before`, to the branch's creation.
def walk (l : BranchLedger) : Nat → Bytes → Except Bytes Unit
  | 0,_ => .error (ascii "the recorded pushes do not lead back to the branch's creation")
  | steps + 1,cur =>
    match l.pushes.find? fun p => p.after = cur with
    | none =>
      -- A push of the bridge's own whose webhook it missed.
      match l.own.find? fun o => o.after = cur with
      | some o => walk l steps o.before
      | none => .error (ascii "the bridge has no record of the push that made " ++ short cur ++
          ascii " the head (it may have been down when it happened)")
    | some p =>
      if p.created then
        if p.byDependabot login id then .ok ()
        else .error (ascii "the branch was not created by Dependabot")
      else if p.before = zeroSha then
        .error (ascii "a push with no previous head is not marked as the creation")
      else walk l steps p.before

def isClean (l : BranchLedger) (head : Bytes) : Except Bytes Unit :=
  if l.overflow then
    .error (ascii "more than " ++ ascii (toString maxPushes) ++ ascii " pushes were made to the branch")
  else
    match l.pushes.find? fun p => !p.byDependabot login id && !l.isOwn p with
    | some p => .error (ascii "`" ++ p.senderLogin ++ ascii "` (id " ++ ascii (toString p.senderId) ++
        ascii ") pushed to the branch (" ++ short p.before ++ ascii " " ++ arrow ++ ascii " " ++
        short p.after ++ ascii ")")
    | none => walk login id l (l.pushes.length + l.own.length + 1) head

end

end VerifiableGit.Resign
