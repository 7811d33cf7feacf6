import Mathlib.Data.List.Sort
import VerifiableGit.Verify.Signature
import VerifiableGit.Verify.MergePolicy

-- The registry layer of verify-trust, and the report over a list of commits.
namespace VerifiableGit.Verify
open Text Commit

-- What the registry answers to one query. A rejection may be retryable; every
-- other failure is one of transport.
inductive Authorization where
  | answered (authorized : Bool)
  | rejected (retryable : Bool) (error : Bytes)
  | failed (error : Bytes)
deriving DecidableEq

structure TrqpQuery where
  entityId : Bytes
  authorityId : Bytes
  action : Bytes
  resource : Bytes
deriving DecidableEq

abbrev Registry := TrqpQuery → Authorization

structure VerifyTrustArgs where
  vtcDid : Bytes
  action : Bytes
  resource : Bytes
  fallbackResource : Option Bytes

-- Authorized under a resource, denied under all, or not to be had.
abbrev Decision := Except Bytes (Option Bytes)

def VerifyTrustArgs.resources (args : VerifyTrustArgs) : List Bytes :=
  match args.fallbackResource with
  | some fallback => if fallback ≠ args.resource then [args.resource,fallback] else [args.resource]
  | none => [args.resource]

def queryResources (ask : Bytes → Authorization) : List Bytes → Decision
  | [] => .ok none
  | resource :: rest =>
    match ask resource with
    | .answered true => .ok (some resource)
    | .answered false => queryResources ask rest
    | .rejected true error => .error error
    | .rejected false _ => queryResources ask rest
    | .failed error => .error error

-- `BTreeSet::insert`.
def insertDid (did : Bytes) (dids : List Bytes) : List Bytes :=
  if did ∈ dids then dids else dids.orderedInsert (· ≤ ·) did

section
variable (scid : Scid) (args : VerifyTrustArgs) (registry : Registry)

def trqpQuery (did resource : Bytes) : TrqpQuery :=
  ⟨signerIdentity scid did,signerIdentity scid args.vtcDid,args.action,resource⟩

def queryRegistry (signerDids : List Bytes) : List (Bytes × Decision) :=
  signerDids.map fun did =>
    (did,queryResources (fun resource => registry (trqpQuery scid args did resource)) args.resources)

end

def statusOf (decisions : List (Bytes × Decision)) : SignatureCheck → CommitStatus
  | .unsigned => .unsigned
  | .malformed detail => .malformed detail
  | .noSignerDid committer => .noSignerDid committer
  | .conflictingSignerDids trailer committer => .conflictingSignerDids trailer committer
  | .unresolvedSigner did error => .unresolvedSigner did error
  | .unknownKey did fingerprint => .unknownKey did fingerprint
  | .badSignature signerDid => .badSignature signerDid
  | .pgpRejected detail => .pgpRejected detail
  | .exempt fingerprint => .exempt fingerprint
  | .valid signerDid =>
    match decisions.lookup signerDid with
    | some (.ok (some resource)) => .trusted signerDid resource
    | some (.ok none) => .unauthorized signerDid
    | some (.error error) => .registryUnavailable signerDid error
    | none => .registryUnavailable signerDid (ascii "no registry decision recorded")

structure TrustReport (Name : Type) where
  ok : Bool
  commits : List CommitVerdict
  unresolvedSigners : List (Bytes × Bytes)
  signerNames : List (Bytes × Name)

-- Pass 1: the DIDs that signed.
def signerDids (checked : List SignatureCheck) : List Bytes :=
  checked.foldl (fun dids check => match check with
    | .valid did => insertDid did dids
    | _ => dids) []

section
variable (ssh : SshKey) (debug : Bytes → Bytes) (scid : Scid)
variable (args : VerifyTrustArgs) (commits : List RangeCommit) (signers : ResolvedSigners Name)
variable (exempt : Option ExemptKeyring) (registry : Registry) (source : MergeSource)

def provisionalVerdicts : List CommitVerdict :=
  let checked := commits.map fun commit => checkCommitSignature ssh debug scid signers exempt commit.raw
  let decisions := queryRegistry scid args registry (signerDids checked)
  List.zipWith (fun commit check => ⟨commit.sha,statusOf decisions check⟩) commits checked

def verifyPrepared : Except Bytes (TrustReport Name) := do
  let dids := signerDids
    (commits.map fun commit => checkCommitSignature ssh debug scid signers exempt commit.raw)
  let verdicts ← applyPlatformMergePolicy source commits
    (provisionalVerdicts ssh debug scid args commits signers exempt registry)
  .ok {
    ok := verdicts.all fun verdict => verdict.status.passes
    commits := verdicts
    unresolvedSigners := signers.unresolved
    signerNames := dids.filterMap fun did => (signers.names did).map fun name => (did,name) }

end

theorem mem_insertDid (did other : Bytes) (dids : List Bytes) :
    other ∈ insertDid did dids ↔ other = did ∨ other ∈ dids := by
  unfold insertDid
  split
  · rename_i member
    constructor
    · exact .inr
    · rintro (rfl | inside)
      · exact member
      · exact inside
  · exact List.mem_orderedInsert ..

theorem mem_signerDids (checked : List SignatureCheck) (did : Bytes) :
    did ∈ signerDids checked ↔ .valid did ∈ checked := by
  have grows : ∀ (checked : List SignatureCheck) (dids : List Bytes),
      did ∈ checked.foldl (fun dids check => match check with
        | .valid did => insertDid did dids
        | _ => dids) dids ↔ .valid did ∈ checked ∨ did ∈ dids := by
    intro checked
    induction checked with
    | nil => simp
    | cons check checked ih =>
      intro dids
      rw [List.foldl_cons,ih]
      cases check with
      | valid other =>
        simp only [mem_insertDid,List.mem_cons,SignatureCheck.valid.injEq]
        tauto
      | _ => simp
  simpa [signerDids] using grows checked []

theorem decision_lookup (scid : Scid) (args : VerifyTrustArgs) (registry : Registry)
    (member : did ∈ dids) : (queryRegistry scid args registry dids).lookup did = some
      (queryResources (fun resource => registry (trqpQuery scid args did resource)) args.resources) := by
  unfold queryRegistry
  induction dids with
  | nil => cases member
  | cons first dids ih =>
    rw [List.map_cons,List.lookup_cons]
    by_cases same : did = first
    · simp [same]
    · have other : (did == first) = false := by simpa using same
      rw [other]
      exact ih ((List.mem_cons.mp member).resolve_left same)

-- A query the registry answered with no, or rejected for good.
def Denied (ask : Bytes → Authorization) (resource : Bytes) : Prop :=
  ask resource = .answered false ∨ ∃ error, ask resource = .rejected false error

theorem query_exact (ask : Bytes → Authorization) (resources : List Bytes) (resource : Bytes) :
    queryResources ask resources = .ok (some resource) ↔
      ∃ before after, resources = before ++ resource :: after ∧ ask resource = .answered true ∧
        ∀ earlier ∈ before, Denied ask earlier := by
  induction resources with
  | nil => simp [queryResources]
  | cons first rest ih =>
    have skips : Denied ask first → queryResources ask (first :: rest) = queryResources ask rest := by
      rintro (denied | ⟨error,rejected⟩)
      · simp only [queryResources,denied]
      · simp only [queryResources,rejected]
    constructor
    · intro granted
      cases answer : ask first with
      | answered authorized =>
        cases authorized with
        | true =>
          simp only [queryResources,answer,Except.ok.injEq,Option.some.injEq] at granted
          subst granted
          exact ⟨[],rest,rfl,answer,by simp⟩
        | false =>
          have denied : Denied ask first := .inl answer
          obtain ⟨before,after,rfl,found,earlier⟩ := ih.mp ((skips denied) ▸ granted)
          exact ⟨first :: before,after,rfl,found,List.forall_mem_cons.mpr ⟨denied,earlier⟩⟩
      | rejected retryable error =>
        cases retryable with
        | true => simp only [queryResources,answer] at granted; cases granted
        | false =>
          have denied : Denied ask first := .inr ⟨error,answer⟩
          obtain ⟨before,after,rfl,found,earlier⟩ := ih.mp ((skips denied) ▸ granted)
          exact ⟨first :: before,after,rfl,found,List.forall_mem_cons.mpr ⟨denied,earlier⟩⟩
      | failed error => simp only [queryResources,answer] at granted; cases granted
    · rintro ⟨before,after,shape,found,earlier⟩
      cases before with
      | nil =>
        obtain ⟨rfl,rfl⟩ := List.cons.inj shape
        simp only [queryResources,found]
      | cons head before =>
        obtain ⟨rfl,rfl⟩ := List.cons.inj shape
        rw [List.forall_mem_cons] at earlier
        rw [skips earlier.1]
        exact ih.mpr ⟨before,after,rfl,found,earlier.2⟩

section
variable (scid : Scid) (args : VerifyTrustArgs) (registry : Registry)

-- The first resource the registry grants, all before it denied for good.
def Granted (did resource : Bytes) : Prop :=
  ∃ before after, args.resources = before ++ resource :: after ∧
    registry (trqpQuery scid args did resource) = .answered true ∧
    ∀ earlier ∈ before, Denied (fun resource => registry (trqpQuery scid args did resource)) earlier

theorem status_trusted (dids : List Bytes) (check : SignatureCheck) (did resource : Bytes)
    (known : ∀ did, check = .valid did → did ∈ dids) :
    statusOf (queryRegistry scid args registry dids) check = .trusted did resource ↔
      check = .valid did ∧ Granted scid args registry did resource := by
  have granted := query_exact (fun resource => registry (trqpQuery scid args did resource)) args.resources
    resource
  rw [Granted,← granted]
  cases check with
  | valid signer =>
    rw [statusOf,decision_lookup scid args registry (known signer rfl)]
    cases decision : queryResources (fun resource => registry (trqpQuery scid args signer resource))
        args.resources with
    | error why =>
      constructor
      · intro same; cases same
      · rintro ⟨same,answer⟩
        cases same
        rw [decision] at answer
        cases answer
    | ok found =>
      cases found with
      | none =>
        constructor
        · intro same; cases same
        · rintro ⟨same,answer⟩
          cases same
          rw [decision] at answer
          cases answer
      | some granted =>
        constructor
        · intro same
          cases same
          exact ⟨rfl,decision⟩
        · rintro ⟨same,answer⟩
          cases same
          rw [decision] at answer
          cases answer
          rfl
  | _ => simp [statusOf]

end

theorem forall₂_chain {r : α → β → Prop} {s : β → γ → Prop} {t : α → γ → Prop}
    (one : List.Forall₂ r xs ys) (two : List.Forall₂ s ys zs)
    (joins : ∀ x y z, r x y → s y z → t x z) : List.Forall₂ t xs zs := by
  induction one generalizing zs with
  | nil => cases two; exact .nil
  | cons first rest ih =>
    cases two with
    | cons second more => exact .cons (joins _ _ _ first second) (ih more)

-- What the policy may do to a row, whatever git or the facts answer.
def Keeps (row after : Row) : Prop :=
  after.commit = row.commit ∧ (row.undecided = false → after = row) ∧
    (row.undecided = true → after.status.isTrusted = false)

theorem settleRow_untrusted (settled : settleRow source position row = .ok (some status)) :
    status.isTrusted = false := by
  unfold settleRow at settled
  split at settled
  · split at settled
    · simp only at settled
      split at settled
      · cases settled; rfl
      · cases scanned : scanParents source position false (commitParents row.commit.raw) with
        | error why => rw [scanned] at settled; cases settled
        | ok result =>
          obtain ⟨failed,waiting⟩ := result
          rw [scanned] at settled
          simp only [bind,Except.bind] at settled
          cases failed with
          | some parent => cases settled; rfl
          | none =>
            cases waiting with
            | true => cases settled
            | false =>
              simp only [Bool.false_eq_true,if_false] at settled
              cases required : source.requireAttrSource with
              | error why => rw [required] at settled; cases settled
              | ok _ =>
                rw [required] at settled
                simp only at settled
                split at settled <;> cases settled <;> rfl
    · cases settled
  · cases settled

theorem keeps_settle (keeps : Keeps row after) (settled : settleRow source position after = .ok status) :
    Keeps row (after.settle status) := by
  obtain ⟨same,fixed,open_⟩ := keeps
  cases status with
  | none => exact ⟨same,fixed,open_⟩
  | some status =>
    refine ⟨same,fun decided => ?_,fun _ => settleRow_untrusted settled⟩
    have undecided := settleRow_undecided settled
    rw [fixed decided,decided] at undecided
    cases undecided

theorem keeps_cyclic (keeps : Keeps row after) : Keeps row after.cyclic := by
  obtain ⟨same,fixed,open_⟩ := keeps
  unfold Row.cyclic
  split
  · rename_i undecided _
    refine ⟨same,fun decided => ?_,fun _ => rfl⟩
    rw [fixed decided,decided] at undecided
    cases undecided
  · exact ⟨same,fixed,open_⟩

theorem settleAll_keeps (keeps : List.Forall₂ Keeps rows part)
    (settled : settleAll source position part = .ok (next,any)) : List.Forall₂ Keeps rows next := by
  induction keeps generalizing next any with
  | nil => cases settled; exact .nil
  | @cons row after rows part first rest ih =>
    rw [settleAll] at settled
    cases found : settleRow source position after with
    | error why => rw [found] at settled; cases settled
    | ok status =>
      cases others : settleAll source position part with
      | error why => rw [found,others] at settled; cases settled
      | ok result =>
        rw [found,others] at settled
        cases settled
        exact .cons (keeps_settle first found) (ih others)

theorem settleRounds_keeps (keeps : List.Forall₂ Keeps rows part)
    (settled : settleRounds source part = .ok final) : List.Forall₂ Keeps rows final := by
  induction part using settleRounds.induct source with
  | case1 part open_ why failed =>
    rw [settleRounds_step,if_pos open_,failed] at settled
    cases settled
  | case2 part open_ next stuck =>
    rw [settleRounds_step,if_pos open_,stuck] at settled
    cases settled
    exact List.forall₂_map_right_iff.mpr (keeps.imp fun _ _ => keeps_cyclic)
  | case3 part open_ next moved ih =>
    rw [settleRounds_step,if_pos open_,moved] at settled
    exact ih (settleAll_keeps keeps moved) settled
  | case4 part decided =>
    rw [settleRounds_step,if_neg decided] at settled
    cases settled
    exact keeps

theorem provisional_keeps (rows : List Row)
    (flags : ∀ row ∈ rows, row.undecided = row.status.isExempt) : List.Forall₂ Keeps rows rows := by
  refine List.forall₂_same.mpr fun row member => ⟨rfl,fun _ => rfl,fun open_ => ?_⟩
  rw [flags row member] at open_
  cases shape : row.status.isTrusted with
  | false => rfl
  | true => rw [trusted_exempt shape] at open_; cases open_

-- The policy neither makes a commit trusted nor takes trust away, and its
-- exemptions are the only other passes.
theorem policy_trusted (settled : applyPlatformMergePolicy source commits verdicts = .ok final)
    (aligned : commits.length = verdicts.length) :
    List.Forall₂ (fun before after : CommitVerdict => after.sha = before.sha ∧
      ∀ did resource, after.status = .trusted did resource ↔ before.status = .trusted did resource)
      verdicts final := by
  unfold applyPlatformMergePolicy at settled
  cases run : settleRounds source (provisional commits verdicts) with
  | error why => rw [run] at settled; cases settled
  | ok rows =>
    rw [run] at settled
    cases settled
    have flags : ∀ row ∈ provisional commits verdicts, row.undecided = row.status.isExempt := by
      rw [provisional_map]
      intro row member
      obtain ⟨entry,_,rfl⟩ := List.mem_map.mp member
      rfl
    have keeps := settleRounds_keeps (provisional_keeps _ flags) run
    clear run flags
    induction commits generalizing verdicts rows with
    | nil =>
      obtain rfl := List.length_eq_zero_iff.mp aligned.symm
      exact .nil
    | cons commit commits ih =>
      cases verdicts with
      | nil => cases aligned
      | cons verdict verdicts =>
        cases keeps with
        | @cons _ row _ rows first rest =>
          refine .cons ⟨rfl,fun did resource => ?_⟩ (ih (Nat.succ.inj aligned) rows rest)
          obtain ⟨_,fixed,open_⟩ := first
          cases exempt : verdict.status.isExempt with
          | false => rw [fixed exempt]
          | true =>
            have untrusted := open_ exempt
            constructor
            · intro trusted
              simp only at trusted
              rw [trusted] at untrusted
              cases untrusted
            · intro trusted
              rw [trusted] at exempt
              cases exempt

theorem settleRow_total (given : MergeFacts) (position : Bytes → Option Row) (row : Row) :
    ∃ status, settleRow (.facts given) position row = .ok status := by
  by_cases open_ : row.undecided = true
  · by_cases exempt : row.status.isExempt = true
    · obtain ⟨status,settled,_⟩ := settleRow_judged given position row open_ exempt
      exact ⟨status,settled⟩
    · refine ⟨none,?_⟩
      rw [settleRow,if_pos open_]
      cases shape : row.status with
      | exempt fingerprint => rw [shape] at exempt; exact absurd rfl exempt
      | _ => rfl
  · exact ⟨none,if_neg open_⟩

theorem settleAll_total (given : MergeFacts) (position : Bytes → Option Row) (rows : List Row) :
    ∃ result, settleAll (.facts given) position rows = .ok result := by
  induction rows with
  | nil => exact ⟨_,rfl⟩
  | cons row rows ih =>
    obtain ⟨status,settled⟩ := settleRow_total given position row
    obtain ⟨⟨next,any⟩,rest⟩ := ih
    exact ⟨_,by rw [settleAll,settled,rest]; rfl⟩

-- With the facts in hand the policy always comes to an end, and to no error.
theorem policy_total (given : MergeFacts) (commits : List RangeCommit) (verdicts : List CommitVerdict) :
    ∃ final, applyPlatformMergePolicy (.facts given) commits verdicts = .ok final := by
  have total : ∀ rows, ∃ final, settleRounds (.facts given) rows = .ok final := by
    intro rows
    induction rows using settleRounds.induct (.facts given) with
    | case1 rows open_ why failed =>
      obtain ⟨result,settled⟩ := settleAll_total given (lookup rows) rows
      rw [settled] at failed
      cases failed
    | case2 rows open_ next stuck => exact ⟨_,by rw [settleRounds_step,if_pos open_,stuck]⟩
    | case3 rows open_ next moved ih =>
      obtain ⟨final,settled⟩ := ih
      exact ⟨final,by rw [settleRounds_step,if_pos open_,moved]; exact settled⟩
    | case4 rows decided => exact ⟨_,by rw [settleRounds_step,if_neg decided]⟩
  obtain ⟨final,settled⟩ := total (provisional commits verdicts)
  exact ⟨_,by rw [applyPlatformMergePolicy,settled]; rfl⟩

section
variable (ssh : SshKey) (debug : Bytes → Bytes) (scid : Scid)
variable (args : VerifyTrustArgs) (commits : List RangeCommit) (signers : ResolvedSigners Name)
variable (exempt : Option ExemptKeyring) (registry : Registry) (source : MergeSource)

-- Trusted, as it should be: a signature that counts for the DID the payload
-- claims, and the first resource the registry grants it.
def TrustedFor (raw did resource : Bytes) : Prop :=
  (∃ payload pem sig key, SignedBy ssh debug scid signers raw did payload pem sig key) ∧
    Granted scid args registry did resource

theorem provisional_trusted :
    List.Forall₂ (fun (commit : RangeCommit) (verdict : CommitVerdict) => verdict.sha = commit.sha ∧
      ∀ did resource, verdict.status = .trusted did resource ↔
        TrustedFor ssh debug scid args signers registry commit.raw did resource)
      commits (provisionalVerdicts ssh debug scid args commits signers exempt registry) := by
  have dids : ∀ commit ∈ commits, ∀ did,
      checkCommitSignature ssh debug scid signers exempt commit.raw = .valid did →
        did ∈ signerDids (commits.map fun commit => checkCommitSignature ssh debug scid signers exempt commit.raw) := by
    intro commit member did valid
    exact (mem_signerDids _ did).mpr (List.mem_map.mpr ⟨commit,member,valid⟩)
  simp only [provisionalVerdicts]
  generalize signerDids (commits.map fun commit =>
    checkCommitSignature ssh debug scid signers exempt commit.raw) = all at dids
  induction commits with
  | nil => exact .nil
  | cons commit commits ih =>
    rw [List.forall_mem_cons] at dids
    refine .cons ⟨rfl,fun did resource => ?_⟩ (ih dids.2)
    rw [status_trusted scid args registry all _ did resource dids.1,valid_exact,TrustedFor]

theorem verify_prepared_exact :
    (∀ report, verifyPrepared ssh debug scid args commits signers exempt registry source = .ok report →
      List.Forall₂ (fun (commit : RangeCommit) (verdict : CommitVerdict) => verdict.sha = commit.sha ∧
        ∀ did resource, verdict.status = .trusted did resource ↔
          TrustedFor ssh debug scid args signers registry commit.raw did resource)
        commits report.commits ∧
      applyPlatformMergePolicy source commits
        (provisionalVerdicts ssh debug scid args commits signers exempt registry) = .ok report.commits ∧
      (report.ok = true ↔ ∀ verdict ∈ report.commits,
        verdict.status.isTrusted = true ∨ verdict.status.isExempt = true)) ∧
    ∀ given, source = .facts given →
      ∃ report, verifyPrepared ssh debug scid args commits signers exempt registry source = .ok report := by
  have provisional := provisional_trusted ssh debug scid args commits signers exempt registry
  have aligned : commits.length = (provisionalVerdicts ssh debug scid args commits signers exempt
      registry).length := by simp [provisionalVerdicts]
  constructor
  · intro report prepared
    unfold verifyPrepared at prepared
    cases policy : applyPlatformMergePolicy source commits
        (provisionalVerdicts ssh debug scid args commits signers exempt registry) with
    | error why => rw [policy] at prepared; cases prepared
    | ok final =>
      rw [policy] at prepared
      cases prepared
      refine ⟨?_,rfl,by simp [CommitStatus.passes]⟩
      have kept := policy_trusted policy aligned
      refine forall₂_chain provisional kept fun commit before after first second => ?_
      exact ⟨second.1.trans first.1,fun did resource => (second.2 did resource).trans (first.2 did resource)⟩
  · rintro given rfl
    obtain ⟨final,policy⟩ := policy_total given commits
      (provisionalVerdicts ssh debug scid args commits signers exempt registry)
    exact ⟨_,by rw [verifyPrepared,policy]; rfl⟩

-- The same conditions with the key as the signature embeds it: no gate on the
-- application or the touch of a FIDO key.
def embeddedKey : KeyData → Option PublishedKey
  | .ed25519 key => some (.ed25519 key)
  | .ecdsa key => (p256Key ssh key).toOption
  | .skEd25519 key _ => some (.ed25519 key)
  | .skEcdsaSha2NistP256 point _ => (p256Key ssh (.nistP256 point)).toOption
  | .other => none

def UngatedFor (raw did resource : Bytes) : Prop :=
  (∃ payload pem sig key keys, splitSignedCommit raw = .ok (some (payload,pem)) ∧
    ¬ (ascii "-----BEGIN PGP SIGNATURE-----").isPrefixOf pem = true ∧
    ssh.fromPem (normalizeSshsigArmor pem) = .ok sig ∧ embeddedKey ssh sig.publicKey = some key ∧
    conflictingSignerDids scid payload = none ∧ signerDid scid payload = some did ∧
    signers.keys did = some keys ∧ key ∈ keys ∧
    ssh.verify sig.publicKey gitSshsigNamespace payload sig = true) ∧
  Granted scid args registry did resource

end

namespace Sample

theorem key_long : (List.replicate 32 (7 : UInt8)).length = 32 := List.length_replicate

def key : {key : Bytes // key.length = 32} := ⟨List.replicate 32 7,key_long⟩
def raw : Bytes := ascii "tree t\ncommitter A <did:web:a#key-0> 1 +0000\ngpgsig s\n\nm"
def payload : Bytes := ascii "tree t\ncommitter A <did:web:a#key-0> 1 +0000\n\nm"
def armor : Bytes := normalizeSshsigArmor (ascii "s\n")

def software : SshSig := ⟨.ed25519 key,ascii "ssh-ed25519",List.replicate 64 1⟩
def untouched : SshSig := ⟨.skEd25519 key (ascii "ssh:"),ascii "sk-ssh-ed25519@openssh.com",
  List.replicate 64 1 ++ [0,0,0,0,9]⟩

def ssh (sig : SshSig) : SshKey where
  fromPem pem := if pem = armor then .ok sig else .error (ascii "invalid")
  compress point := point
  verify data name text given := data = sig.publicKey && name = gitSshsigNamespace && text = payload && given = sig

def scid : Scid where
  scidSrc _ := none
  sameReference a b := a = b
  stripScidSrc did := did

def args : VerifyTrustArgs := ⟨ascii "did:web:vtc",ascii "git.commit.sign",ascii "repo",none⟩
def signers : ResolvedSigners Bytes where
  keys did := if did = ascii "did:web:a" then some [.ed25519 key] else none
  unresolved := []
  names _ := none

def registry : Registry := fun query =>
  .answered (query = ⟨ascii "did:web:a",ascii "did:web:vtc",ascii "git.commit.sign",ascii "repo"⟩)

end Sample

theorem sample_granted : Granted Sample.scid Sample.args Sample.registry (ascii "did:web:a") (ascii "repo") :=
  ⟨[],[],rfl,by decide,by simp⟩

theorem verify_prepared_sample : ∃ report, verifyPrepared (Sample.ssh Sample.software) id Sample.scid
      Sample.args [⟨ascii "c",Sample.raw⟩] Sample.signers none Sample.registry (.facts ⟨[],fun _ => none⟩) =
        .ok report ∧
    ∀ verdict ∈ report.commits, verdict.status = .trusted (ascii "did:web:a") (ascii "repo") := by
  have exact_ := verify_prepared_exact (Sample.ssh Sample.software) id Sample.scid Sample.args
    [⟨ascii "c",Sample.raw⟩] Sample.signers none Sample.registry (.facts ⟨[],fun _ => none⟩)
  obtain ⟨report,prepared⟩ := exact_.2 _ rfl
  refine ⟨report,prepared,?_⟩
  have signed : SignedBy (Sample.ssh Sample.software) id Sample.scid Sample.signers Sample.raw
      (ascii "did:web:a") Sample.payload (ascii "s\n") Sample.software (.ed25519 Sample.key) :=
    ⟨by decide,by decide,by decide,by decide,by decide,by decide,⟨_,rfl,by decide⟩,by decide⟩
  intro verdict member
  have each := (exact_.1 report prepared).1
  generalize report.commits = verdicts at each member
  cases each with
  | cons first rest =>
    cases rest
    obtain rfl := List.mem_singleton.mp member
    exact (first.2 _ _).mpr ⟨⟨_,_,_,_,signed⟩,sample_granted⟩

theorem verify_prepared_untouched :
    UngatedFor (Sample.ssh Sample.untouched) Sample.scid Sample.args Sample.signers Sample.registry
        Sample.raw (ascii "did:web:a") (ascii "repo") ∧
    verifyPrepared (Sample.ssh Sample.untouched) id Sample.scid Sample.args [⟨ascii "c",Sample.raw⟩]
        Sample.signers none Sample.registry (.facts ⟨[],fun _ => none⟩) =
      .ok ⟨false,[⟨ascii "c",.malformed
        (ascii "FIDO signature was made without user presence (no touch)")⟩],[],[]⟩ := by
  constructor
  · exact ⟨⟨Sample.payload,ascii "s\n",Sample.untouched,.ed25519 Sample.key,_,by decide,by decide,by decide,
      rfl,by decide,by decide,rfl,by decide,by decide⟩,sample_granted⟩
  · have check : checkCommitSignature (Sample.ssh Sample.untouched) id Sample.scid Sample.signers none
        Sample.raw = .malformed (ascii "FIDO signature was made without user presence (no touch)") := by decide
    have verdicts : provisionalVerdicts (Sample.ssh Sample.untouched) id Sample.scid Sample.args
        [⟨ascii "c",Sample.raw⟩] Sample.signers none Sample.registry =
        [⟨ascii "c",.malformed (ascii "FIDO signature was made without user presence (no touch)")⟩] := by
      simp only [provisionalVerdicts,List.map_cons,List.map_nil,check]
      rfl
    have policy := settleRounds_settled (.facts ⟨[],fun _ => none⟩)
      (provisional [⟨ascii "c",Sample.raw⟩]
        [⟨ascii "c",.malformed (ascii "FIDO signature was made without user presence (no touch)")⟩]) rfl
    simp only [verifyPrepared,applyPlatformMergePolicy,verdicts,policy,List.map_cons,List.map_nil,check]
    rfl

end VerifiableGit.Verify
