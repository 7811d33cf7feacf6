import VerifiableGit.Bridge.Checks
import VerifiableGit.Governance.Records
import VerifiableGit.Library.Crew
import VerifiableGit.Verify.Report

-- The checks the bridge posts itself, any number of them at a time (checks.rs of
-- vgi-bridge and of vgi-forge-github).
namespace VerifiableGit.CheckRun
open Text Verify Library.Interaction
open Commit (Scid)
open Governance (Resource NamespaceRecord LastCheck)
open Bridge.Checks (Recomputer mergeFacts)

inductive CheckTriggerKind where
  | pullRequest (number : Nat)
  | mergeGroup
  | rerequested (number : Nat)
deriving DecidableEq

def CheckTriggerKind.number : CheckTriggerKind → Option Nat
  | .pullRequest number | .rerequested number => some number
  | .mergeGroup => none

structure CheckTrigger where
  repo : Resource
  repoId : Nat
  headSha : Bytes
  baseSha : Bytes
  baseRef : Bytes
  kind : CheckTriggerKind
deriving DecidableEq

structure PullRequestInfo where
  headSha : Bytes
  baseRef : Bytes
  baseSha : Bytes
  isOpen : Bool
  headRef : Bytes
  headRepoId : Option Nat
  baseRepoId : Option Nat
  authorLogin : Option Bytes
  authorId : Option Nat
deriving DecidableEq

inductive CheckConclusion where
  | success | failure
deriving DecidableEq

def CheckConclusion.asStr : CheckConclusion → Bytes
  | .success => ascii "success"
  | .failure => ascii "failure"

inductive CheckOutcome where
  | posted (conclusion : CheckConclusion)
  | skipped (why : Bytes)

structure CommitLine where
  sha : Bytes
  passes : Bool
  verdict : Bytes
deriving DecidableEq

structure Comparison where
  commits : List Bytes
  total : Nat
deriving DecidableEq

-- One page of GitHub's answer to a comparison.
structure ComparePage where
  totalCommits : Nat
  commits : List Bytes
deriving DecidableEq

-- Repository, head and base branch.
abbrev Key := Resource × Bytes × Bytes

-- `vgiFor` is the check's configured name in a namespace; `exempts` the hosts
-- with a keyring.
structure Config where
  vtcDid : Bytes
  maxCommits : Nat
  concurrency : Nat
  vgiFor : Resource → Option Bytes
  exempts : Bytes → Bool

def defaultRequiredCheck : Bytes := ascii "Verify commit trust"
def comparePerPage : Nat := 100
def comparePages : Nat := 3

inductive Query where
  -- the store
  | listNamespaces
  | getNamespace (id : Bytes)
  | setLastCheck (repo : Resource) (repoId : Nat) (sha conclusion : Bytes)
  -- an adapter serves the namespace, and posts its checks
  | bridgePostedCheck (ns : NamespaceRecord)
  -- what the bridge has in memory
  | enter (key : Key)
  | leave (key : Key)
  | acquire
  | release
  -- the forge
  | pullRequest (repo : Resource) (number : Nat)
  | defaultBranch (repo : Resource)
  | startCheckRun (repo : Resource) (headSha name externalId : Bytes)
  | finishCheckRun (repo : Resource) (id : Nat) (conclusion : CheckConclusion) (title summary : Bytes)
  | compareCommits (repo : Resource) (base head : Bytes) (page : Nat)
  | contentsReadToken (repo : Resource)
  -- git, in a throwaway repository
  | fetch (repo : Resource) (head : Bytes) (depth : Nat)
  | catFile (repo : Resource) (sha : Bytes)
  | recompute (repo : Resource)
  | verifyWithFacts (commits : List RangeCommit) (facts : MergeFacts) (resource fallback : Bytes)
  | checkHint (trigger : CheckTrigger)

abbrev Reply : Query → Type
  | .listNamespaces => List NamespaceRecord
  | .getNamespace _ => Option NamespaceRecord
  | .bridgePostedCheck _ | .enter _ => Bool
  | .setLastCheck _ _ _ _ | .leave _ | .acquire | .release => Unit
  | .pullRequest _ _ => Except Bytes PullRequestInfo
  | .startCheckRun _ _ _ _ => Except Bytes Nat
  | .finishCheckRun _ _ _ _ _ | .contentsReadToken _ | .fetch _ _ _ => Except Bytes Unit
  | .compareCommits _ _ _ _ => Except Bytes ComparePage
  | .defaultBranch _ | .catFile _ _ => Except Bytes Bytes
  | .recompute _ => Recomputer
  | .verifyWithFacts _ _ _ _ => Except Bytes (List CommitLine)
  | .checkHint _ => Option Bytes

abbrev Plain (α : Type) := Prog Query Reply α
abbrev Action (α : Type) := ExceptT Bytes (Prog Query Reply) α

def send (q : Query) : Plain (Reply q) := ask q

def fallible (p : Plain (Except Bytes α)) : Action α := p

def always (p : Plain α) : Action α := ExceptT.lift p

def isSha (sha : Bytes) : Bool :=
  (sha.length = 40 || sha.length = 64) && sha.all fun b => (48 ≤ b && b ≤ 57) || (97 ≤ b && b ≤ 102)

def checkSha (sha : Bytes) : Except Bytes Unit :=
  if isSha sha then .ok () else .error (ascii "unexpected forge response: `" ++ sha ++ ascii "` is not a commit id")

-- What needs no answer.
def settled (r : Except Bytes α) : Action α := ExceptT.mk (pure r)

/-! The namespace a check is for -/

-- `Ctx::load_posting_checks`: a bound one, or an orphaned one that was bound.
def loadPostingChecks (id : Bytes) : Plain (Option NamespaceRecord) := do
  let found : Option NamespaceRecord ← send (.getNamespace id)
  if found.any fun ns => ns.isOrphaned && ns.binding.isSome then pure found
  else do
    let again : Option NamespaceRecord ← send (.getNamespace id)
    pure (again.filter NamespaceRecord.isBound)

def serves (repo : Resource) (ns : NamespaceRecord) : Bool :=
  (ns.state = .bound || ns.state = .orphaned) && ns.resource.contains repo

def checkNamespace (repo : Resource) : Plain (Option NamespaceRecord) := do
  let all : List NamespaceRecord ← send .listNamespaces
  match all.find? (serves repo) with
  | none => pure none
  | some ns => do
    let loaded ← loadPostingChecks ns.id
    match loaded with
    | none => pure none
    | some ctx => do
      let posts : Bool ← send (.bridgePostedCheck ctx)
      pure (if posts then some ctx else none)

/-! The commits under test -/

-- From the page `comparePages - left` on; the last page ends the loop whatever it holds.
def comparePagesFrom (repo : Resource) (base head : Bytes) : Nat → List Bytes → Action Comparison
  | 0,before => do
    let c : ComparePage ← fallible (send (.compareCommits repo base head comparePages))
    pure ⟨before ++ c.commits,c.totalCommits⟩
  | left + 1,before => do
    let c : ComparePage ← fallible (send (.compareCommits repo base head (comparePages - (left + 1))))
    if c.commits.length < comparePerPage ∨ (before ++ c.commits).length ≥ c.totalCommits then
      pure ⟨before ++ c.commits,c.totalCommits⟩
    else comparePagesFrom repo base head left (before ++ c.commits)

def compareCommits (repo : Resource) (base head : Bytes) : Action Comparison := do
  settled (checkSha base)
  settled (checkSha head)
  let c ← comparePagesFrom repo base head (comparePages - 1) []
  settled (c.commits.forM checkSha)
  pure c

def catFiles (repo : Resource) : List Bytes → Action (List RangeCommit)
  | [] => pure []
  | sha :: rest => do
    let raw : Bytes ← fallible (send (.catFile repo sha))
    let more ← catFiles repo rest
    pure (⟨sha,raw⟩ :: more)

-- `GitFetcher::fetch`, down to the commit objects.
def fetchCommits (repo : Resource) (head : Bytes) (commits : List Bytes) : Action (List RangeCommit) := do
  settled (checkSha head)
  settled (commits.forM checkSha)
  fallible (send (.fetch repo head (max commits.length 1)))
  catFiles repo commits

def factsFor (cfg : Config) (repo : Resource) (commits : List RangeCommit) : Plain MergeFacts :=
  if cfg.exempts repo.host then do
    let r : Recomputer ← send (.recompute repo)
    pure (mergeFacts commits true r)
  else pure { boundary := Bridge.Checks.boundaryOf commits, merges := fun _ => none }

structure Verdict where
  conclusion : CheckConclusion
  title : Bytes
  summary : Bytes
deriving DecidableEq

def mark (passes : Bool) : Bytes := if passes then [0xE2,0x9C,0x85] else [0xE2,0x9D,0x8C]

def replace (old new : UInt8) (text : Bytes) : Bytes := text.map fun b => if b = old then new else b

def row (l : CommitLine) : Bytes :=
  ascii "| `" ++ l.sha.take 12 ++ ascii "` | " ++ mark l.passes ++ ascii " " ++ replace 124 47 l.verdict ++ ascii " |\n"

def number (n : Nat) : Bytes := ascii (toString n)

def summarise (lines : List CommitLine) (baseRef : Bytes) : Verdict :=
  let failed := (lines.filter fun l => !l.passes).length
  { conclusion := if failed = 0 ∧ lines ≠ [] then .success else .failure
    title :=
      if lines = [] then ascii "No commits were verified"
      else if failed = 0 then ascii "All " ++ number lines.length ++ ascii " commits are signed by trusted DIDs"
      else number failed ++ ascii " of " ++ number lines.length ++ ascii " commits are not trusted"
    summary := ascii ("Checked by the community's bridge against its Trust Registry, for merging into " ++ "`") ++ baseRef ++
      ascii "`.\n\n| Commit | Verdict |\n|---|---|\n" ++ lines.flatMap row }

def baseTip (baseRef : Bytes) : Verdict :=
  ⟨.success,ascii "The head is the tip of `" ++ baseRef ++ ascii "`; nothing to verify",
    ascii "Every commit here is already part of the protected branch."⟩

def insideBase (baseRef : Bytes) : Verdict :=
  ⟨.failure,ascii "The head is already part of `" ++ baseRef ++ ascii "`",
    ascii ("There is nothing to merge: the head commit is already contained in the " ++ "protected branch.")⟩

def tooMany (total most : Nat) : Bytes :=
  number total ++ ascii " commits are more than this bridge checks at once (" ++ number most ++ ascii "); split the change"

def partialList (listed total : Nat) : Bytes :=
  ascii "GitHub listed " ++ number listed ++ ascii " of the " ++ number total ++
    ascii " commits; the range cannot be checked from a partial list"

def verify (cfg : Config) (ctx : NamespaceRecord) (t : CheckTrigger) (baseRef baseSha : Bytes) : Action Verdict := do
  let cmp ← compareCommits t.repo baseSha t.headSha
  if cfg.maxCommits < cmp.total then throw (tooMany cmp.total cfg.maxCommits)
  else if cmp.commits.length < cmp.total then throw (partialList cmp.commits.length cmp.total)
  else if cmp.commits = [] then pure (if t.headSha = baseSha then baseTip baseRef else insideBase baseRef)
  else do
    fallible (send (.contentsReadToken t.repo))
    let fetched ← fetchCommits t.repo t.headSha cmp.commits
    let facts ← always (factsFor cfg t.repo fetched)
    let lines : List CommitLine ←
      fallible (send (.verifyWithFacts fetched facts t.repo.asStr ctx.resource.asStr))
    pure (summarise lines baseRef)

def unverified (e : Bytes) : Verdict :=
  ⟨.failure,ascii "The commits could not be verified",
    ascii "The bridge could not complete the check, so it fails closed.\n\n`" ++ replace 96 39 e ++ ascii "`"⟩

def orphanedCheck (vtc : Bytes) (ns : Resource) : Verdict :=
  ⟨.failure,ascii "The namespace is not governed by this VTC",
    ascii "`" ++ ns.asStr ++ ascii "` is not governed by the VTC `" ++ vtc ++
      ascii ("`: it answered that it does not have this " ++
        "namespace, so the bridge verifies nothing here and passes nothing. A namespace " ++
        "admin binds it again at the VTC; until then nothing can pass this check.")⟩

def concluded (cfg : Config) (ctx : NamespaceRecord) (t : CheckTrigger) (baseRef baseSha : Bytes) : Plain Verdict :=
  if ctx.isOrphaned then pure (orphanedCheck cfg.vtcDid ctx.resource)
  else do
    let result : Except Bytes Verdict ← (verify cfg ctx t baseRef baseSha).run
    match result with
    | .ok v => pure v
    | .error e => pure (unverified e)

/-! The check run -/

def hint (ctx : NamespaceRecord) (t : CheckTrigger) (fromPr : Bool) (v : Verdict) : Plain Bytes :=
  if v.conclusion = .failure ∧ ¬ctx.isOrphaned ∧ fromPr then do
    let text : Option Bytes ← send (.checkHint t)
    pure (text.getD [])
  else pure []

-- From the permit on.
def postCheck (cfg : Config) (ctx : NamespaceRecord) (t : CheckTrigger) (baseRef baseSha : Bytes) (fromPr : Bool) :
    Action CheckOutcome := do
  settled (checkSha t.headSha)
  let id : Nat ← fallible (send (.startCheckRun t.repo t.headSha ((cfg.vgiFor ctx.resource).getD defaultRequiredCheck)
    (baseRef ++ ascii "@" ++ t.headSha)))
  let v ← always (concluded cfg ctx t baseRef baseSha)
  let more ← always (hint ctx t fromPr v)
  fallible (send (.finishCheckRun t.repo id v.conclusion v.title (v.summary ++ more)))
  always (send (.setLastCheck t.repo t.repoId t.headSha v.conclusion.asStr))
  pure (.posted v.conclusion)

-- The permit is given back however the check ends.
def permitted (body : Action CheckOutcome) : Action CheckOutcome := ExceptT.mk do
  send .acquire
  let result : Except Bytes CheckOutcome ← body.run
  send .release
  pure result

-- And so is the key.
def inFlight (key : Key) (body : Action CheckOutcome) : Action CheckOutcome := ExceptT.mk do
  let free : Bool ← send (.enter key)
  if free then do
    let result : Except Bytes CheckOutcome ← body.run
    send (.leave key)
    pure result
  else pure (.ok (.skipped (ascii "the same check is already running")))

-- The base branch and its tip, or why nothing is posted.
def baseOf (t : CheckTrigger) : Action (Except Bytes (Bytes × Bytes)) :=
  match t.kind.number with
  | some number => do
    let pr : PullRequestInfo ← fallible (send (.pullRequest t.repo number))
    if ¬pr.isOpen then pure (.error (ascii "the pull request is closed"))
    else if pr.headSha ≠ t.headSha then pure (.error (ascii "the pull request has moved on"))
    else pure (.ok (pr.baseRef,pr.baseSha))
  | none => pure (.ok (t.baseRef,t.baseSha))

def checkBase (cfg : Config) (ctx : NamespaceRecord) (t : CheckTrigger) (baseRef baseSha : Bytes) : Action CheckOutcome := do
  settled (checkSha baseSha)
  let protectedBranch : Bytes ← fallible (send (.defaultBranch t.repo))
  if baseRef ≠ protectedBranch then pure (.skipped (ascii "the base branch is not protected"))
  else inFlight (t.repo,t.headSha,baseRef) (permitted (postCheck cfg ctx t baseRef baseSha t.kind.number.isSome))

def run (cfg : Config) (t : CheckTrigger) : Action CheckOutcome := do
  let found ← always (checkNamespace t.repo)
  match found with
  | none => pure (.skipped (ascii "not a bridge-check namespace"))
  | some ctx => do
    let base ← baseOf t
    match base with
    | .error why => pure (.skipped why)
    | .ok (baseRef,baseSha) => checkBase cfg ctx t baseRef baseSha

/-! Many checks at a time -/

structure State where
  inFlight : Finset Key := ∅
  -- the permits nobody holds
  free : Nat

-- What does not change: the listing of a range of commits, and the object an id
-- stands for.
structure Past where
  range : Resource → Bytes → Bytes → List Bytes
  object : Resource → Bytes → Option Bytes

-- GitHub lists 100 commits to a page, 250 in all.
def Past.page (past : Past) (repo : Resource) (base head : Bytes) (page : Nat) : ComparePage :=
  let all := past.range repo base head
  ⟨all.length,(((all.take 250).drop (comparePerPage * (page - 1))).take comparePerPage)⟩

-- verify-trust as the bridge calls it; `shown` is how a status reads in one word.
structure Verifier where
  ssh : SshKey
  debug : Bytes → Bytes
  scid : Scid
  shown : CommitStatus → Bytes

def argsFor (cfg : Config) (resource fallback : Bytes) : VerifyTrustArgs :=
  ⟨cfg.vtcDid,ascii "git.commit.sign",resource,some fallback⟩

section
variable (v : Verifier) (cfg : Config) (past : Past)

def Verifier.line (c : CommitVerdict) : CommitLine := ⟨c.sha,c.status.passes,v.shown c.status⟩

-- The report of one verification, with the signers, the keyring and the answers
-- of the registry it had.
def Reported (commits : List RangeCommit) (facts : MergeFacts) (resource fallback : Bytes) (report : TrustReport Bytes) : Prop :=
  ∃ signers exempt registry, verifyPrepared v.ssh v.debug v.scid (argsFor cfg resource fallback) commits signers exempt
    registry (.facts facts) = .ok report

-- What is true of an answer whenever it is given.
def Honest : (q : Query) → Reply q → Prop
  | .compareCommits repo base head page,answer => ∀ c, answer = .ok c → c = past.page repo base head page
  | .catFile repo sha,answer => ∀ raw, answer = .ok raw → past.object repo sha = some raw
  | .verifyWithFacts commits facts resource fallback,answer => ∀ lines, answer = .ok lines →
      ∃ report, Reported v cfg commits facts resource fallback report ∧ lines = report.commits.map v.line
  | _,_ => True

def serve : (q : Query) → State → Reply q → State → Prop
  | .enter key,s,free,t => free = decide (key ∉ s.inFlight) ∧ t = { s with inFlight := insert key s.inFlight }
  | .leave key,s,_,t => t = { s with inFlight := s.inFlight.erase key }
  | .acquire,s,_,t => ∃ more, s.free = more + 1 ∧ t = { s with free := more }
  | .release,s,_,t => t = { s with free := s.free + 1 }
  | q,s,answer,t => Honest v cfg past q answer ∧ t = s

-- A bridge that stops forgets what it had in memory.
def crew : Crew CheckTrigger Query Reply State where
  code t := do
    let _ : Except Bytes CheckOutcome ← (run cfg t).run
    pure ()
  serve := serve v cfg past
  enter _ s t := t = s
  crash _ t := t = { free := max cfg.concurrency 1 }

def idle (t : CheckTrigger) : Library.Interaction.Config CheckTrigger Query Reply State :=
  ({ free := max cfg.concurrency 1 },fun _ => ⟨t,[],.done ()⟩)

end

end VerifiableGit.CheckRun
