import VerifiableGit.Bridge.CheckVerified
import VerifiableGit.Governance.Events
import VerifiableGit.Resign.Provenance
import VerifiableGit.Resign.Resigned

-- The re-sign of Dependabot's pull requests (resign.rs), any number of them at a
-- time, beside whatever else writes the ledgers and pushes to the branches.
namespace VerifiableGit.ResignRun
open Text Verify Library.Interaction
open Commit (Scid splitSignedCommit)
open CheckRun (PullRequestInfo)
open Governance (Resource NamespaceRecord checkBranchName hasInfix)
open Resign (BranchLedger Branches PushEvent Event ledgerKey short isClean)
open Resigned (Ed25519 GitSigningKey resignCommit alreadyResigned)

-- The App serving an owner; a keyring is the path of its file.
structure GitHubForgeConfig where
  dependabotLogin : Bytes
  dependabotId : Nat
  resignDependabot : Bytes → Bool
  platformKeyringFile : Option Bytes

-- The committer is checked when the settings are read.
structure BridgeConfig where
  checks : CheckRun.Config
  githubFor : Bytes → Bytes → Option GitHubForgeConfig
  committerName : Bytes
  committerEmail : Bytes
  plain : newline ∉ committerName ∧ newline ∉ committerEmail

inductive ResignOutcome where
  | resigned (oldHead newHead : Bytes) (commits : Nat)
  | skipped (why : Bytes)

structure Trigger where
  repo : Resource
  repoId : Nat
  number : Nat

-- What others do: the webhook and the upkeep of the ledgers, and anybody's push.
inductive Outside where
  | delivered (host : Bytes) (push : PushEvent) (now : Int)
  | pruned (now : Int)
  | detached (start : Bytes)
  | moved (repo : Resource) (branch : Bytes) (head : Option Bytes)

inductive Query where
  | shared (q : CheckRun.Query)
  -- the ledgers
  | rememberPullRequest (key : Bytes) (number : Nat)
  | ledger (key : Bytes)
  | recordOwn (key before after : Bytes)
  | noteSkip (key head why : Bytes)
  -- what the bridge has in memory, and in its files
  | acquire
  | release
  | enter (flight : Nat × Bytes)
  | leave (flight : Nat × Bytes)
  | servesGithub (ns : NamespaceRecord)
  | automation (ns : NamespaceRecord)
  | gitSigningKey
  | loadKeyring (file : Bytes)
  | timestamp
  -- the forge
  | pullRequest (repo : Resource) (number : Nat)
  | contentsWriteToken (repo : Resource)
  -- git, in the fetch's repository
  | branchHead (repo : Resource) (branch : Bytes)
  | diffTree (repo : Resource) (parent commit : Bytes)
  | interpretTrailers (message trailer : Bytes)
  | hashObject (raw : Bytes)
  | completeForPush (repo : Resource) (newHead oldHead : Bytes)
  | push (repo : Resource) (branch newHead lease : Bytes)
  | happens (outside : Outside)

abbrev Reply (Key : Type) : Query → Type
  | .shared q => CheckRun.Reply q
  | .rememberPullRequest _ _ | .noteSkip _ _ _ | .acquire | .release | .leave _ | .happens _ => Unit
  | .ledger _ => Option BranchLedger
  | .recordOwn _ _ _ | .contentsWriteToken _ | .completeForPush _ _ _ | .push _ _ _ _ => Except Bytes Unit
  | .enter _ | .servesGithub _ | .automation _ => Bool
  | .gitSigningKey => Except Bytes (GitSigningKey Key)
  | .loadKeyring _ => Except Bytes ExemptKeyring
  | .timestamp => Int
  | .pullRequest _ _ => Except Bytes PullRequestInfo
  | .branchHead _ _ => Except Bytes (Option Bytes)
  | .diffTree _ _ _ | .interpretTrailers _ _ | .hashObject _ => Except Bytes Bytes

section
variable {Key : Type}

abbrev Plain (Key α : Type) := Prog Query (Reply Key) α
abbrev Action (Key α : Type) := ExceptT Bytes (Prog Query (Reply Key)) α

def send (q : Query) : Plain Key (Reply Key q) := ask q

def fallible {α : Type} (p : Plain Key (Except Bytes α)) : Action Key α := p

def always {α : Type} (p : Plain Key α) : Action Key α := ExceptT.lift p

def settled {α : Type} (r : Except Bytes α) : Action Key α := ExceptT.mk (pure r)

-- What the checks do as well.
def shared {α : Type} (p : CheckRun.Action α) : Action Key α := ExceptT.mk (p.run.within Query.shared fun _ r => r)

def skip (why : Bytes) : Action Key ResignOutcome := pure (.skipped why)

/-! Whether a pull request is re-signed at all -/

def openedByDependabot (gh : GitHubForgeConfig) (pr : PullRequestInfo) : Bool :=
  pr.authorLogin = some gh.dependabotLogin && pr.authorId = some gh.dependabotId

def githubCtx (repo : Resource) : Plain Key (Option NamespaceRecord) := do
  let all : List NamespaceRecord ← send (.shared .listNamespaces)
  match all.find? fun ns => ns.state = .bound && ns.resource.contains repo with
  | none => pure none
  | some ns => do
    let loaded : Option NamespaceRecord ← send (.shared (.getNamespace ns.id))
    match loaded.filter NamespaceRecord.isBound with
    | none => pure none
    | some ctx => do
      let serves : Bool ← send (.servesGithub ctx)
      pure (if serves then some ctx else none)

-- What the pull request itself has to be.
def qualifies (gh : GitHubForgeConfig) (repoId : Nat) (pr : PullRequestInfo) (protectedBranch : Option Bytes) : Except Bytes Unit :=
  if ¬pr.isOpen then .error (ascii "the pull request is closed")
  else if ¬openedByDependabot gh pr then .error (ascii "the pull request was not opened by Dependabot")
  else if pr.headRepoId ≠ some repoId ∨ pr.baseRepoId ≠ some repoId then
    .error (ascii "the pull request's head is not a branch of this repository")
  else if ¬checkBranchName pr.headRef then
    .error (ascii "`" ++ pr.headRef ++ ascii "` is not a Dependabot branch name this bridge pushes to")
  else match protectedBranch with
  | some p => if pr.baseRef ≠ p then .error (ascii "it does not target the protected branch `" ++ p ++ ascii "`") else .ok ()
  | none => .ok ()

-- The keyring to check the commits against, or why they are left alone.
def eligibility (cfg : BridgeConfig) (ctx : NamespaceRecord) (repo : Resource) (repoId : Nat) (pr : PullRequestInfo)
    (protectedBranch : Option Bytes) : Plain Key (Except Bytes Bytes) :=
  match cfg.githubFor repo.host repo.owner with
  | none => pure (.error (ascii "no GitHub is configured for this host"))
  | some gh => do
    let automatic : Bool ← send (.automation ctx)
    if ¬automatic then pure (.error (ascii "the namespace is in manual mode"))
    else if ¬gh.resignDependabot ctx.resource.owner then pure (.error (ascii "the re-sign is turned off for this namespace"))
    else match gh.platformKeyringFile,qualifies gh repoId pr protectedBranch with
    | none,_ => pure (.error (ascii ("no platform (web-flow) keyring is configured, so GitHub's signatures cannot be " ++ "checked")))
    | some _,.error why => pure (.error why)
    | some keyring,.ok () => do
      let found : Option BranchLedger ← send (.ledger (ledgerKey repo.host repoId pr.headRef))
      match found with
      | none => pure (.error (ascii "the bridge recorded no push to the branch (it may have been down)"))
      | some l => pure ((isClean gh.dependabotLogin gh.dependabotId l pr.headSha).map fun _ => keyring)

-- So that a push delivered later can take the re-sign up again.
def remember (cfg : BridgeConfig) (t : Trigger) (pr : PullRequestInfo) : Plain Key Unit :=
  if pr.isOpen ∧ pr.headRepoId = some t.repoId ∧ checkBranchName pr.headRef ∧
      (cfg.githubFor t.repo.host t.repo.owner).any (openedByDependabot · pr) then
    send (.rememberPullRequest (ledgerKey t.repo.host t.repoId pr.headRef) t.number)
  else pure ()

/-! Each commit -/

-- The language's list of quoted texts, and its error for what is not UTF-8.
structure Host where
  debugAll : List Bytes → Bytes
  utf8Error : Bytes → Bytes

def workflows : Bytes := ascii ".github/workflows"

def lowerByte (b : UInt8) : UInt8 := if 65 ≤ b ∧ b ≤ 90 then b + 32 else b

def touchesWorkflows (path : Bytes) : Bool :=
  let p := (fromUtf8Lossy path.length path).map lowerByte
  p = ascii ".github" || p = workflows || (workflows ++ ascii "/").isPrefixOf p

def changesWorkflows (repo : Resource) (parent commit : Bytes) : Plain Key (Except Bytes Bool) := do
  let out : Except Bytes Bytes ← send (.diffTree repo parent commit)
  pure (out.map fun out => ((out.splitOn 0).filter (· ≠ [])).any touchesWorkflows)

def checkDependabot (host : Host) (c : Resigned.Commit) (raw : Bytes) (previous : Option Bytes) (keyring : ExemptKeyring)
    (login email : Bytes) : Except Bytes Unit :=
  if c.parents ≠ 1 then .error (ascii "has " ++ ascii (toString c.parents) ++ ascii " parents, not one")
  else if previous.any (c.parent ≠ ·) then .error (ascii "does not follow the commit before it")
  else if c.unexpected ≠ [] then .error (ascii "carries headers " ++ host.debugAll c.unexpected)
  else match splitSignedCommit raw with
  | .error e => .error (ascii e)
  | .ok none => .error (ascii "is not signed")
  | .ok (some (payload,pem)) =>
    if ¬(ascii "-----BEGIN PGP SIGNATURE-----").isPrefixOf pem then .error (ascii "is not signed by the platform (web-flow)")
    else match keyring pem payload with
    | .error e => .error (ascii "its platform signature does not verify: " ++ e)
    | .ok _ =>
      if ¬(login ++ ascii " <" ++ email ++ ascii "> ").isPrefixOf c.author then
        .error (ascii "is not authored by `" ++ login ++ ascii " <" ++ email ++ ascii ">`")
      else .ok ()

-- White space or a control character, in UTF-8.
def hasBlank (text : Bytes) : Bool :=
  (unicodeSpaces.any fun e => hasInfix e text) || text.any (fun b => b < 32 || b = 127) ||
    (List.range 32).any fun n => hasInfix [0xC2,0x80 + UInt8.ofNat n] text

def addTrailer (message : Bytes) (signing : GitSigningKey Key) : Action Key Bytes :=
  if hasBlank signing.verificationMethod then throw (ascii "the verification method id holds whitespace")
  else do
    let out : Bytes ← fallible (send (.interpretTrailers message (ascii "Signed-by-DID: " ++ signing.verificationMethod)))
    if isUtf8 out then pure out else throw (ascii "interpret-trailers wrote non-UTF-8")

def named (sha why : Bytes) : Bytes := ascii "commit " ++ short sha ++ ascii ": " ++ why

-- What the re-sign of one range goes by.
structure Rewrite (Key : Type) where
  repo : Resource
  keyring : ExemptKeyring
  login : Bytes
  email : Bytes
  committer : Bytes
  signing : GitSigningKey Key

variable (host : Host) (ed : Ed25519 Key) (scid : Scid)

-- Oldest first: the original before, the new head so far, and what is left. A
-- reason found in a commit stops it.
def rewriteFrom (w : Rewrite Key) : Option Bytes → Option Bytes → List RangeCommit → Action Key (Except Bytes (Option Bytes))
  | _,new,[] => pure (.ok new)
  | previous,new,c :: rest =>
    match Resigned.Commit.parse c.raw with
    | .error e => pure (.error (named c.sha e))
    | .ok commit =>
      match checkDependabot host commit c.raw previous w.keyring w.login w.email with
      | .error why => pure (.error (named c.sha why))
      | .ok () => do
        let changed ← always (changesWorkflows w.repo commit.parent c.sha)
        match changed with
        | .error e =>
          pure (.error (ascii "the files commit " ++ short c.sha ++ ascii " changes could not be read (" ++ e ++ ascii ")"))
        | .ok true =>
          pure (.error (ascii "commit " ++ short c.sha ++ ascii " changes `" ++ workflows ++ ascii "/`, which the bridge never re-signs"))
        | .ok false => do
          let message ← addTrailer commit.message w.signing
          match resignCommit ed scid commit (new.getD commit.parent) w.committer message w.signing with
          | .error e => pure (.error (named c.sha e))
          | .ok raw => do
            let out : Bytes ← fallible (send (.hashObject raw))
            settled (if isUtf8 out then .ok () else .error (host.utf8Error out))
            settled (CheckRun.checkSha (unicodeTrim out))
            rewriteFrom w (some c.sha) (some (unicodeTrim out)) rest

/-! The re-sign -/

def fetchForRewrite (repo : Resource) (head : Bytes) (commits : List Bytes) : Action Key (List RangeCommit) := do
  settled (CheckRun.checkSha head)
  settled (commits.forM CheckRun.checkSha)
  fallible (send (.shared (.fetch repo head (max commits.length 1 + 1))))
  shared (CheckRun.catFiles repo commits)

def checkedBranch (branch : Bytes) : Except Bytes Unit :=
  if checkBranchName branch then .ok ()
  else .error (ascii "`" ++ branch ++ ascii "` is not a Dependabot branch name this bridge pushes to")

def movedOn (head : Bytes) (current : Option Bytes) : Bytes :=
  ascii "the branch is at " ++ current.elim (ascii "nothing") short ++ ascii ", no longer the pull request's head " ++
    short head ++ ascii " (the push that moved it resumes the re-sign)"

-- Another run, or somebody, pushed to the branch since the pull request was read.
def moved (key head : Bytes) (current : Option Bytes) : Plain Key ResignOutcome :=
  match current with
  | none => pure (.skipped (movedOn head none))
  | some c => do
    let found : Option BranchLedger ← send (.ledger key)
    let ours := found.any fun l => l.own.any fun o => o.before = head && o.after = c
    pure (.skipped (if ours then ascii "already re-signed by the bridge" else movedOn head (some c)))

-- The bridge's own push is on record before it is sent.
def pushRewritten (t : Trigger) (pr : PullRequestInfo) (newHead : Bytes) (commits : Nat) : Action Key ResignOutcome := do
  fallible (send (.shared (.contentsReadToken t.repo)))
  settled (CheckRun.checkSha newHead)
  settled (CheckRun.checkSha pr.headSha)
  fallible (send (.completeForPush t.repo newHead pr.headSha))
  fallible (send (.recordOwn (ledgerKey t.repo.host t.repoId pr.headRef) pr.headSha newHead))
  fallible (send (.contentsWriteToken t.repo))
  settled (CheckRun.checkSha newHead)
  settled (CheckRun.checkSha pr.headSha)
  settled (checkedBranch pr.headRef)
  ExceptT.adapt (fun _ => ascii "pushing the re-signed commits (with a lease on the old head)")
    (fallible (send (.push t.repo pr.headRef newHead pr.headSha)))
  pure (.resigned pr.headSha newHead commits)

def rewriteRange (cfg : BridgeConfig) (t : Trigger) (pr : PullRequestInfo) (keyringFile : Bytes) (signing : GitSigningKey Key)
    (fetched : List RangeCommit) : Action Key ResignOutcome :=
  match cfg.githubFor t.repo.host t.repo.owner with
  | none => throw (ascii "GitHub config")
  | some gh => do
    let keyring : ExemptKeyring ← fallible (send (.loadKeyring keyringFile))
    let at_ : Int ← always (send .timestamp)
    let email := ascii (toString gh.dependabotId) ++ ascii "+" ++ gh.dependabotLogin ++ ascii "@users.noreply." ++ t.repo.host
    let committer := cfg.committerName ++ ascii " <" ++ cfg.committerEmail ++ ascii "> " ++ ascii (toString at_) ++ ascii " +0000"
    let made ← rewriteFrom host ed scid ⟨t.repo,keyring,gh.dependabotLogin,email,committer,signing⟩ none none fetched
    match made with
    | .error why => do
      always (send (.noteSkip (ledgerKey t.repo.host t.repoId pr.headRef) pr.headSha why))
      skip why
    | .ok none => throw (ascii "no commits")
    | .ok (some newHead) => pushRewritten t pr newHead fetched.length

-- From the branch held on.
def resignHeld (cfg : BridgeConfig) (t : Trigger) (pr : PullRequestInfo) (keyringFile : Bytes) : Action Key ResignOutcome := do
  let cmp ← shared (CheckRun.compareCommits t.repo pr.baseSha pr.headSha)
  if cfg.checks.maxCommits < cmp.total ∨ cmp.commits.length < cmp.total then
    skip (CheckRun.number cmp.total ++ ascii " commits, more than this bridge re-signs at once (" ++
      CheckRun.number cfg.checks.maxCommits ++ ascii ") or than GitHub listed")
  else if cmp.commits.getLast? ≠ some pr.headSha then
    skip (ascii "nothing to re-sign: the head is already part of the base")
  else do
    fallible (send (.shared (.contentsReadToken t.repo)))
    let fetched ← fetchForRewrite t.repo pr.headSha cmp.commits
    settled (checkedBranch pr.headRef)
    let current : Option Bytes ← fallible (send (.branchHead t.repo pr.headRef))
    if current ≠ some pr.headSha then always (moved (ledgerKey t.repo.host t.repoId pr.headRef) pr.headSha current)
    else do
      let signing : GitSigningKey Key ← fallible (send .gitSigningKey)
      if alreadyResigned ed scid (fetched.map (·.raw)) signing then skip (ascii "already re-signed by the bridge")
      else rewriteRange host ed scid cfg t pr keyringFile signing fetched

-- The permit and the branch are given back however the re-sign ends.
def held (flight : Nat × Bytes) (body : Action Key ResignOutcome) : Action Key ResignOutcome := ExceptT.mk do
  send .acquire
  let free : Bool ← send (.enter flight)
  if free then do
    let result : Except Bytes ResignOutcome ← body.run
    send (.leave flight)
    send .release
    pure result
  else do
    send .release
    pure (.ok (.skipped (ascii "a re-sign of this branch is already running")))

def run (cfg : BridgeConfig) (t : Trigger) : Action Key ResignOutcome := do
  let found ← always (githubCtx t.repo)
  match found with
  | none => skip (ascii "the repository is in no bound GitHub namespace")
  | some ctx => do
    let pr : PullRequestInfo ← fallible (send (.pullRequest t.repo t.number))
    always (remember cfg t pr)
    let protectedBranch : Bytes ← fallible (send (.shared (.defaultBranch t.repo)))
    let checked ← always (eligibility cfg ctx t.repo t.repoId pr (some protectedBranch))
    match checked with
    | .error why => skip why
    | .ok keyringFile => held (t.repoId,pr.headRef) (resignHeld host ed scid cfg t pr keyringFile)

end

/-! Many re-signs at a time -/

inductive Work where
  | resign (t : Trigger)
  | outside (o : Outside)

-- `log` is every write of the ledgers so far, and `heads` where the branches
-- point at the forge.
structure State where
  branches : Branches := ∅
  log : List Event := []
  heads : Resource → Bytes → Option Bytes := fun _ _ => none
  inFlight : Finset (Nat × Bytes) := ∅
  free : Nat

def State.record (s : State) (e : Event) : State :=
  match e.apply { branches := s.branches } with
  | some after => { s with branches := after.branches, log := s.log ++ [e] }
  | none => s

def State.moved (s : State) (repo : Resource) (branch : Bytes) (head : Option Bytes) : State :=
  { s with heads := fun r b => if r = repo ∧ b = branch then head else s.heads r b }

-- What does not change either: the paths one commit changes against another, and
-- the id of an object.
structure Past extends CheckRun.Past where
  changed : Resource → Bytes → Bytes → List Bytes
  paths : ∀ repo parent commit, ∀ path ∈ changed repo parent commit, path ≠ [] ∧ 0 ∉ path
  id : Bytes → Bytes

section
variable {Key : Type} (v : CheckRun.Verifier) (cfg : BridgeConfig) (past : Past)

-- `diff-tree` ends every path with a zero byte, `hash-object` the id with a newline.
def Honest : (q : Query) → Reply Key q → Prop
  | .shared q,answer => CheckRun.Honest v cfg.checks past.toPast q answer
  | .diffTree repo parent commit,answer => ∀ out, answer = .ok out → out = (past.changed repo parent commit).flatMap (· ++ [0])
  | .hashObject raw,answer => ∀ out, answer = .ok out → unicodeTrim out = past.id raw
  | _,_ => True

def serve : (q : Query) → State → Reply Key q → State → Prop
  | .ledger key,s,found,t => found = s.branches.lookup key ∧ t = s
  | .rememberPullRequest key number,s,_,t => ∃ now, t = s.record (.noted key number now)
  | .recordOwn key before after,s,answer,t =>
      (s.branches.lookup key).isSome = true ∧ (∃ now, t = s.record (.recorded key before after now)) ∨ answer ≠ .ok () ∧ t = s
  | .noteSkip key head why,s,_,t => ∃ now, t = s.record (.skipped key head why now)
  | .enter flight,s,free,t => free = decide (flight ∉ s.inFlight) ∧ t = { s with inFlight := insert flight s.inFlight }
  | .leave flight,s,_,t => t = { s with inFlight := s.inFlight.erase flight }
  | .acquire,s,_,t => ∃ more, s.free = more + 1 ∧ t = { s with free := more }
  | .release,s,_,t => t = { s with free := s.free + 1 }
  | .branchHead repo branch,s,answer,t => (∀ head, answer = .ok head → head = s.heads repo branch) ∧ t = s
  -- Only a branch that is still at the lease is moved, whatever is heard of it.
  | .push repo branch newHead lease,s,answer,t =>
      s.heads repo branch = some lease ∧ t = s.moved repo branch (some newHead) ∨ answer ≠ .ok () ∧ t = s
  | .happens outside,s,_,t => match outside with
    | .delivered host push now => t = s.record (.delivered host push now)
    | .pruned now => t = s.record (.pruned now)
    | .detached start => t = s.record (.detached start)
    | .moved repo branch head => t = s.moved repo branch head
  | q,s,answer,t => Honest v cfg past q answer ∧ t = s

variable (host : Host) (ed : Ed25519 Key) (scid : Scid)

-- A bridge that stops forgets what it had in memory.
def crew : Crew Work Query (Reply Key) State where
  code
    | .resign t => do
      let _ : Except Bytes ResignOutcome ← (run host ed scid cfg t).run
      pure ()
    | .outside o => send (.happens o)
  serve := serve v cfg past
  enter _ s t := t = s
  crash s t := t = { s with inFlight := ∅, free := max cfg.checks.concurrency 1 }

def idle (h : Work) : Library.Interaction.Config Work Query (Reply Key) State :=
  ({ free := max cfg.checks.concurrency 1 },fun _ => ⟨h,[],.done ()⟩)

end

end VerifiableGit.ResignRun
