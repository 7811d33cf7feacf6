import VerifiableGit.Signing.Sign

-- What did-git-sign signs, verify-trust verifies, whatever the VTA answers.
namespace VerifiableGit.Sign
open Text Commit Verify Library.Interaction
open Library.Base64 (encode encode_text text_plain IsText)
open Resigned (Ed25519 createSshSignature)

section
variable {Key : Type} (ed : Ed25519 Key) (host : Host) (scid : Scid)

-- The settings name this mode.
def ModeAsked (seen : History Query (Answer Key)) (mode : SignerMode) : Prop :=
  ∃ env : Option Bytes, ⟨.env signerEnv,env⟩ ∈ seen ∧
    ((clean env ≠ none ∧ SignerMode.parse host (env.getD []) = .ok mode) ∨
      ∃ git : Option Bytes, ⟨.gitConfig signerGitConfig,git⟩ ∈ seen ∧ clean env = none ∧
        (git.elim (.ok .auto) (SignerMode.parse host)) = .ok mode)

-- git asked, it is on record, and the commit claims the signer of the key chosen.
structure Cleared (ns : Bytes) (seen : History Query (Answer Key)) (data didKeyId : Bytes) (source : KeySource) : Prop where
  git : ns = gitSshsigNamespace
  given : ⟨.call .input,.ok data⟩ ∈ seen
  parent : ∃ parent : Option Bytes, ⟨.parent,parent⟩ ∈ seen ∧ decideParent host parent = true ∧
    ⟨.audit ⟨true,parent,ns,host.sha256 data⟩,()⟩ ∈ seen
  chosen : ∃ (configDid : Bytes) (env git : Option Bytes), ⟨.call .config,.ok configDid⟩ ∈ seen ∧
    ⟨.env signingKeyEnv,env⟩ ∈ seen ∧ ⟨.gitConfig signingKeyGitConfig,git⟩ ∈ seen ∧
    selectSigningKey configDid env git = (didKeyId,source)
  claimed : checkCommitterMatchesKey scid data didKeyId source = .ok ()

-- The key is the one the VTA shows, or the one it gave away.
def Used (seen : History Query (Answer Key)) (key : {key : Bytes // key.length = 32}) : Prop :=
  (∃ keyId, ⟨.call (.publicKey keyId),.ok key⟩ ∈ seen) ∨
    ∃ keyId secret, ⟨.call (.signingKey keyId),.ok secret⟩ ∈ seen ∧ ed.verifyingKey secret = key

structure Signed (ns : Bytes) (seen : History Query (Answer Key)) (data signature : Bytes) : Prop where
  armored : ∃ key sig, signature = armorSshSignature key ns sig ∧
    host.check key (sshsigSignedData ns (ed.sha512 data)) sig = true ∧ Used ed seen key

def Allowed (ns : Bytes) (seen : History Query (Answer Key)) : Query → Prop
  | .call (.signSshsig _ hash) => ∃ data didKeyId source, Cleared host scid ns seen data didKeyId source ∧ hash = ed.sha512 data ∧
      ∃ mode, ModeAsked host seen mode ∧ mode ≠ .exported
  | .call (.publicKey _) => ∃ data didKeyId source, Cleared host scid ns seen data didKeyId source
  | .call (.signingKey _) => (∃ data didKeyId source, Cleared host scid ns seen data didKeyId source) ∧
      ∃ mode, ModeAsked host seen mode ∧ mode ≠ .vta
  | .call (.write signature) => ∃ data didKeyId source, Cleared host scid ns seen data didKeyId source ∧
      Signed ed host ns seen data signature
  | _ => True

variable {ed host scid} {ns data didKeyId : Bytes} {source : KeySource} {seen after : History Query (Answer Key)}

theorem later_cleared (later : seen <:+ after) (cleared : Cleared host scid ns seen data didKeyId source) :
    Cleared host scid ns after data didKeyId source := by
  obtain ⟨git,given,⟨parent,known,allowed,audited⟩,⟨configDid,env,config,one,two,three,same⟩,claimed⟩ := cleared
  exact ⟨git,later.mem given,⟨parent,later.mem known,allowed,later.mem audited⟩,
    ⟨configDid,env,config,later.mem one,later.mem two,later.mem three,same⟩,claimed⟩

theorem later_mode {mode : SignerMode} (later : seen <:+ after) (asked : ModeAsked host seen mode) : ModeAsked host after mode := by
  obtain ⟨env,known,rest⟩ := asked
  refine ⟨env,later.mem known,rest.imp id ?_⟩
  rintro ⟨git,inside,rest⟩
  exact ⟨git,later.mem inside,rest⟩

-- Whatever is answered, only this is asked.
abbrev Keeps {α : Type} (ed : Ed25519 Key) (host : Host) (scid : Scid) (ns : Bytes) (post : History Query (Answer Key) → Except Bytes α → Prop)
    (seen : History Query (Answer Key)) (p : Run Key α) : Prop :=
  p.run.Heeds (fun _ _ => True) (Allowed ed host scid ns) post seen

theorem settled_keeps {α : Type} {post : History Query (Answer Key) → Except Bytes α → Prop} (r : Except Bytes α) (here : post seen r) :
    Keeps ed host scid ns post seen (settled r) := here

theorem send_keeps (call : Call) (here : Allowed ed host scid ns seen (.call call)) :
    Keeps ed host scid ns (fun after r => ⟨.call call,r⟩ ∈ after) seen (send call) :=
  ⟨here,fun _ _ => List.mem_cons_self⟩

theorem told_keeps (q : Query) (here : Allowed ed host scid ns seen q) :
    Keeps ed host scid ns (fun after r => ∃ a, r = .ok a ∧ ⟨q,a⟩ ∈ after) seen (told q) :=
  ⟨here,fun a _ => ⟨a,rfl,List.mem_cons_self⟩⟩

theorem keeps_then {α β : Type} {M : History Query (Answer Key) → Except Bytes α → Prop}
    {post : History Query (Answer Key) → Except Bytes β → Prop} (p : Run Key α) (f : α → Run Key β)
    (first : Keeps ed host scid ns M seen p)
    (rest : ∀ after a, seen <:+ after → M after (.ok a) → Keeps ed host scid ns post after (f a))
    (failed : ∀ after e, post after (.error e)) : Keeps ed host scid ns post seen (p >>= f) :=
  heeds_fallible p f first rest fun after e _ _ => failed after e

-- A signature the library makes is one it accepts.
def Honest (ed : Ed25519 Key) (host : Host) : Prop :=
  ∀ key data, host.check (ed.verifyingKey key) data (ed.sign key data) = true

def Gives (ed : Ed25519 Key) (host : Host) (ns data : Bytes) (after : History Query (Answer Key)) (r : Except Bytes Bytes) : Prop :=
  ∀ signature, r = .ok signature → Signed ed host ns after data signature

theorem signLocally_keeps (honest : Honest ed host) (keyId : Bytes) (cleared : Cleared host scid ns seen data didKeyId source)
    {mode : SignerMode} (asked : ModeAsked host seen mode) (other : mode ≠ .vta) :
    Keeps ed host scid ns (Gives ed host ns data) seen (signLocally ed keyId ns data) := by
  refine keeps_then _ _ (send_keeps (.signingKey keyId) ⟨⟨data,didKeyId,source,cleared⟩,mode,asked,other⟩) ?_
    (fun _ _ _ same => (by cases same))
  intro after secret _ known signature same
  cases same
  exact ⟨_,_,rfl,honest secret _,.inr ⟨keyId,secret,known,rfl⟩⟩

theorem assembled {key : {key : Bytes // key.length = 32}} {raw signature : Bytes}
    (ok : assembleSshSignature ed host key ns data raw = .ok signature) :
    ∃ sig, signature = armorSshSignature key ns sig ∧ host.check key (sshsigSignedData ns (ed.sha512 data)) sig = true := by
  unfold assembleSshSignature at ok
  split at ok
  · rename_i long
    split at ok
    · rename_i checked
      cases ok
      exact ⟨⟨raw,long⟩,rfl,checked⟩
    · cases ok
  · cases ok

theorem signWithVta_keeps (honest : Honest ed host) (keyId : Bytes) (cleared : Cleared host scid ns seen data didKeyId source)
    {mode : SignerMode} (asked : ModeAsked host seen mode) :
    Keeps ed host scid ns (Gives ed host ns data) seen (signWithVta ed host keyId ns data mode) := by
  unfold signWithVta
  split
  · rename_i exported
    exact signLocally_keeps honest keyId cleared asked (by rw [exported]; decide)
  rename_i remote
  refine keeps_then _ _ (send_keeps (.signSshsig keyId (ed.sha512 data)) ⟨data,didKeyId,source,cleared,rfl,mode,asked,remote⟩) ?_
    (fun _ _ _ same => (by cases same))
  intro after answer later known
  have thrown : ∀ e : Bytes, Keeps ed host scid ns (Gives ed host ns data) after (throw e) := fun e _ same => (by cases same)
  have locally_ : mode ≠ .vta → Keeps ed host scid ns (Gives ed host ns data) after (signLocally ed keyId ns data) :=
    signLocally_keeps honest keyId (later_cleared later cleared) (later_mode later asked)
  cases answer with
  | signed raw =>
    refine keeps_then _ _ (send_keeps (.publicKey keyId) ⟨data,didKeyId,source,later_cleared later cleared⟩) ?_
      (fun _ _ _ same => (by cases same))
    intro after key _ shown signature same
    obtain ⟨sig,armored,checked⟩ := assembled same
    exact ⟨key,sig,armored,checked,.inl ⟨keyId,shown⟩⟩
  | unsupported =>
    change Keeps ed host scid ns (Gives ed host ns data) after (if mode = .vta then throw unserved else signLocally ed keyId ns data)
    split
    · exact thrown unserved
    · rename_i other
      exact locally_ other
  | notPermitted why =>
    change Keeps ed host scid ns (Gives ed host ns data) after
      (if mode = .vta then throw (unpermitted why) else signLocally ed keyId ns data)
    split
    · exact thrown (unpermitted why)
    · rename_i other
      exact locally_ other

theorem resolveSignerMode_keeps :
    Keeps ed host scid ns (fun after r => ∀ mode, r = .ok mode → ModeAsked host after mode) seen (resolveSignerMode host) := by
  refine keeps_then _ _ (told_keeps (.env signerEnv) trivial) ?_ (fun _ _ _ same => (by cases same))
  rintro after env _ ⟨_,same,known⟩
  cases same
  cases blank : clean env with
  | some v => exact settled_keeps _ fun mode same => ⟨env,known,.inl ⟨by rw [blank]; simp,same⟩⟩
  | none =>
    refine keeps_then _ _ (told_keeps (.gitConfig signerGitConfig) trivial) ?_ (fun _ _ _ same => (by cases same))
    rintro further git later ⟨_,same,found⟩
    cases same
    have asked : ∀ mode, git.elim (.ok .auto) (SignerMode.parse host) = .ok mode → ModeAsked host further mode :=
      fun mode same => ⟨env,later.mem known,.inr ⟨git,found,blank,same⟩⟩
    cases git with
    | none => exact fun mode same => asked mode same
    | some v => exact settled_keeps _ fun mode same => asked mode same

theorem resolveSigningKey_keeps (configDid : Bytes) :
    Keeps ed host scid ns (fun after r => ∀ found, r = .ok found → ∃ env git : Option Bytes,
      ⟨.env signingKeyEnv,env⟩ ∈ after ∧ ⟨.gitConfig signingKeyGitConfig,git⟩ ∈ after ∧
      selectSigningKey configDid env git = found) seen (resolveSigningKey configDid) := by
  refine keeps_then _ _ (told_keeps (.env signingKeyEnv) trivial) ?_ (fun _ _ _ same => (by cases same))
  rintro after env _ ⟨_,same,known⟩
  cases same
  refine keeps_then _ _ (told_keeps (.gitConfig signingKeyGitConfig) trivial) ?_ (fun _ _ _ same => (by cases same))
  rintro further git later ⟨_,same,found⟩ key chosen
  cases same
  cases chosen
  exact ⟨env,git,later.mem known,found,rfl⟩

theorem handleSign_keeps (honest : Honest ed host) (ns : Bytes) :
    Keeps ed host scid ns (fun _ _ => True) [] (handleSign ed host scid ns) := by
  refine keeps_then (M := fun _ r => r = checkNamespace host ns) _ _ (settled_keeps _ rfl) ?_ (fun _ _ => trivial)
  intro seen _ _ checked
  have git : ns = gitSshsigNamespace := by
    unfold checkNamespace at checked
    split at checked
    · assumption
    · cases checked
  refine keeps_then _ _ (send_keeps .input trivial) ?_ (fun _ _ => trivial)
  intro seen given _ read
  refine keeps_then (M := fun after r => after = seen ∧ r = readBounded given) _ _ (settled_keeps _ ⟨rfl,rfl⟩) ?_ (fun _ _ => trivial)
  rintro _ data _ ⟨rfl,bounded⟩
  have same : data = given := by
    unfold readBounded at bounded
    split at bounded
    · cases bounded
    · cases bounded
      rfl
  subst same
  refine keeps_then _ _ (told_keeps .parent trivial) ?_ (fun _ _ => trivial)
  rintro after parent later ⟨_,same,inside⟩
  cases same
  have given := later.mem read
  refine keeps_then _ _ (told_keeps (.audit ⟨decideParent host parent,parent,ns,host.sha256 data⟩) trivial) ?_ (fun _ _ => trivial)
  rintro seen _ later ⟨_,_,audited⟩
  change Keeps ed host scid ns (fun _ _ => True) seen (if decideParent host parent then _ else throw (refusal host parent))
  cases allowed : decideParent host parent with
  | false => trivial
  | true =>
    rw [if_pos rfl]
    rw [allowed] at audited
    have given := later.mem given
    have inside := later.mem inside
    refine keeps_then _ _ (send_keeps .config trivial) ?_ (fun _ _ => trivial)
    intro after configDid later configured
    have given := later.mem given
    have inside := later.mem inside
    have audited := later.mem audited
    refine keeps_then _ _ (resolveSigningKey_keeps configDid) ?_ (fun _ _ => trivial)
    rintro seen ⟨didKeyId,source⟩ later chosen
    obtain ⟨env,config,one,two,selected⟩ := chosen _ rfl
    have chosen : ∃ (configDid : Bytes) (env git : Option Bytes), ⟨.call .config,.ok configDid⟩ ∈ seen ∧
        ⟨.env signingKeyEnv,env⟩ ∈ seen ∧ ⟨.gitConfig signingKeyGitConfig,git⟩ ∈ seen ∧
        selectSigningKey configDid env git = (didKeyId,source) :=
      ⟨configDid,env,config,later.mem configured,one,two,selected⟩
    have given := later.mem given
    have inside := later.mem inside
    have audited := later.mem audited
    have looked : Keeps ed host scid ns (fun _ _ => True) seen (hasCredentials didKeyId configDid) := by
      unfold hasCredentials
      split
      · exact heeds_weaken _ (told_keeps (.credentials didKeyId) trivial) fun _ _ _ _ => trivial
      · trivial
    refine keeps_then _ _ looked ?_ (fun _ _ => trivial)
    intro after stored later _
    cases stored with
    | false => trivial
    | true =>
      refine keeps_then (M := fun end_ r => end_ = after ∧ r = checkCommitterMatchesKey scid data didKeyId source) _ _
        (settled_keeps _ ⟨rfl,rfl⟩) ?_ (fun _ _ => trivial)
      rintro _ _ _ ⟨rfl,claimed⟩
      have cleared : Cleared host scid ns seen data didKeyId source :=
        ⟨git,given,⟨parent,inside,allowed,audited⟩,chosen,claimed.symm⟩
      have cleared := later_cleared later cleared
      refine keeps_then _ _ resolveSignerMode_keeps ?_ (fun _ _ => trivial)
      intro seen mode later asked
      have asked := asked mode rfl
      have cleared := later_cleared later cleared
      refine keeps_then _ _ (send_keeps (.authenticate didKeyId) trivial) ?_ (fun _ _ => trivial)
      intro after keyId later _
      have asked := later_mode later asked
      have cleared := later_cleared later cleared
      refine keeps_then _ _ (signWithVta_keeps honest keyId cleared asked) ?_ (fun _ _ => trivial)
      intro seen signature later signed
      refine heeds_weaken _ (send_keeps (.write signature) ?_) fun _ _ _ _ => trivial
      exact ⟨data,didKeyId,source,later_cleared later cleared,signed signature rfl⟩

/-! The verifier -/

-- The ssh-key crate reads back the armor of a signature the signing library
-- accepts, and accepts it too.
def Reads (ed : Ed25519 Key) (host : Host) (ssh : SshKey) : Prop :=
  ∀ key message sig, host.check key (sshsigSignedData gitSshsigNamespace (ed.sha512 message)) sig = true →
    ∃ s : SshSig, ssh.fromPem (armorSshSignature key gitSshsigNamespace sig) = .ok s ∧ s.publicKey = .ed25519 key ∧
      ssh.verify (.ed25519 key) gitSshsigNamespace message s = true

-- What is left for the verifier to find: whether the signer publishes the key.
def published {Name : Type} (signers : ResolvedSigners Name) (did : Bytes) (key : {key : Bytes // key.length = 32}) : SignatureCheck :=
  match signers.keys did with
  | none => .unresolvedSigner did ((signers.unresolved.lookup did).getD (ascii "not resolved"))
  | some keys => if PublishedKey.ed25519 key ∈ keys then .valid did else .unknownKey did (hexEncode key.val)

theorem armored_ascii (body : Bytes) (plain : ∀ b ∈ body, IsText b) : ∀ b ∈ armored body, b < 128 := by
  have begins : ∀ b ∈ ascii "-----BEGIN SSH SIGNATURE-----\n", b < 128 := by decide +kernel
  have ends : ∀ b ∈ ascii "-----END SSH SIGNATURE-----\n", b < 128 := by decide +kernel
  intro b inside
  rcases List.mem_append.mp inside with before | after
  · rcases List.mem_append.mp before with first | middle
    · exact begins b first
    · obtain ⟨_,line,here⟩ := List.mem_flatten.mp middle
      obtain ⟨chunk,member,rfl⟩ := List.mem_map.mp line
      rcases List.mem_append.mp here with text | feed
      · exact (text_plain b (chunk_plain plain chunk member b text)).2.1
      · rw [List.mem_singleton.mp feed]
        decide
  · exact ends b after

-- The lines git puts into the header.
theorem armored_lines (body : Bytes) (plain : ∀ b ∈ body, IsText b) : ∃ armor : List Bytes, armor ≠ [] ∧
    (∀ l ∈ armor, Line l) ∧ (∀ l ∈ armor, isUtf8 l = true) ∧ endLines armor = armored body := by
  have some_ := lines_ne_nil (Resigned.trimEnd (armored body))
  have back : endLines (lines (Resigned.trimEnd (armored body))) = armored body := by
    rw [endLines_joinLines some_,joinLines_lines,Resigned.armored_trim]
  have valid : isUtf8 (armored body) = true := Resigned.ascii_utf8 (armored_ascii body plain)
  rw [← back,endLines_joinLines some_,utf8_newline,utf8_joinLines] at valid
  exact ⟨_,some_,lines_are_lines _,valid.1,back⟩

theorem armor_unlike (body : Bytes) : ¬ (ascii "-----BEGIN PGP SIGNATURE-----").isPrefixOf (armored body) = true := by
  have begins : ascii "-----BEGIN SSH SIGNATURE-----\n" = ascii "-----BEGIN SSH" ++ ascii " SIGNATURE-----\n" := by decide
  intro same
  rw [List.isPrefixOf_iff_prefix,armored,begins,List.append_assoc,List.append_assoc] at same
  have short := List.prefix_of_prefix_length_le (List.prefix_append _ _) same (by decide)
  exact absurd short (by decide)

section
variable {Name : Type} (ssh : SshKey) (debug : Bytes → Bytes) (signers : ResolvedSigners Name) (exempt : Option ExemptKeyring)

theorem armored_check (reads : Reads ed host ssh) {raw claimed : Bytes} {key : {key : Bytes // key.length = 32}}
    {sig : {sig : Bytes // sig.length = 64}} (split : splitSignedCommit raw = .ok (some (data,armorSshSignature key gitSshsigNamespace sig)))
    (checked : host.check key (sshsigSignedData gitSshsigNamespace (ed.sha512 data)) sig = true)
    (agreed : conflictingSignerDids scid data = none) (claims : signerDid scid data = some claimed) :
    checkCommitSignature ssh debug scid signers exempt raw = published signers claimed key := by
  obtain ⟨s,parsed,shown,verified⟩ := reads key data sig checked
  have plain : ¬ (ascii "-----BEGIN PGP SIGNATURE-----").isPrefixOf (armorSshSignature key gitSshsigNamespace sig) = true :=
    armor_unlike _
  have keyed : signingKey ssh debug s = .ok (.ed25519 key) := by rw [signingKey,shown]
  have normal := armor_laws.produced key gitSshsigNamespace sig
  unfold published
  simp only [checkCommitSignature,split,plain,normal,parsed,keyed,agreed,claims,Bool.false_eq_true,if_false]
  cases signers.keys claimed with
  | none => rfl
  | some keys => simp only [shown,verified,if_true,PublishedKey.asBytes]

end

-- The key is used for a commit git asked to have signed, that is on record and
-- claims the key's own signer, and leaves the VTA only where the settings let it.
-- The signature written, as git puts it into that commit, is valid to the
-- verifier, save that the claimed signer must publish the key.
theorem signed_verifies {Name : Type} (ssh : SshKey) (debug : Bytes → Bytes) (signers : ResolvedSigners Name)
    (exempt : Option ExemptKeyring) (honest : Honest ed host) (reads : Reads ed host ssh)
    (oracle : History Query (Answer Key) → (q : Query) → Answer Key q) (n : Nat) {q : Query} {next : Answer Key q → _}
    (ran : (handleSign ed host scid ns).run.advance (logged oracle) n [] = some (after,.call q next)) :
    Allowed ed host scid ns after q ∧
    ∀ signature, q = .call (.write signature) → ∃ data didKeyId source key,
      Cleared host scid ns after data didKeyId source ∧ Used ed after key ∧
      ∃ armor : List Bytes, (∀ l ∈ armor, Line l) ∧ endLines armor = signature ∧
        ∀ headers message, isUtf8 data = true → splitBlank data = some (headers,message) →
          (∀ l ∈ lines headers, ¬ NamedSignature l) → (committerIdentity data).isSome →
          ∃ claimed, signerDid scid data = some claimed ∧ sameSigner scid claimed (bareDid didKeyId) = true ∧
            checkCommitSignature ssh debug scid signers exempt (signedObject (lines headers) armor message) =
              published signers claimed key := by
  have keeps := heeds_logged (fun _ _ => trivial) n _ (handleSign_keeps honest ns) ran
  refine ⟨keeps.1,?_⟩
  rintro signature rfl
  obtain ⟨data,didKeyId,source,cleared,⟨key,sig,rfl,checked,used⟩⟩ := keeps.1
  have plain := Library.Base64.encode_text (sshsigBlob key ns sig)
  obtain ⟨armor,some_,lined,valid,back⟩ := armored_lines (encode (sshsigBlob key ns sig)) plain
  refine ⟨data,didKeyId,source,key,cleared,used,armor,lined,back,fun headers message utf8 cut unsigned committer => ?_⟩
  obtain ⟨agreed,claimed,claims,same⟩ := (guard_accepts scid committer).mp cleared.claimed
  have split := signed_splits utf8 cut unsigned some_ lined valid
  have git := cleared.git
  subst git
  rw [back] at split
  exact ⟨claimed,claims,same,armored_check ssh debug signers exempt reads split checked agreed claims⟩

-- So is a commit the bridge re-signs.
theorem resigned_verifies {Name : Type} (ssh : SshKey) (debug : Bytes → Bytes) (signers : ResolvedSigners Name)
    (exempt : Option ExemptKeyring) (honest : Honest ed host) (reads : Reads ed host ssh) {c : Resigned.Commit}
    {parent committer message raw : Bytes} {signing : Resigned.GitSigningKey Key}
    (resigned : Resigned.resignCommit ed scid c parent committer message signing = .ok raw) :
    ∃ claimed, signerDid scid raw = some claimed ∧ sameSigner scid claimed signing.did = true ∧
      checkCommitSignature ssh debug scid signers exempt raw = published signers claimed (ed.verifyingKey signing.key) := by
  have fixed := Resigned.resigned_fixpoint ed scid resigned
  obtain ⟨claimed,claims,outside,same⟩ := fixed.claims
  exact ⟨claimed,outside,same,armored_check ssh debug signers exempt reads fixed.split (honest _ _) fixed.agreed.1 claims⟩

end

namespace Sample

def raw : {sig : Bytes // sig.length = 64} := ⟨List.replicate 64 1,List.length_replicate⟩

def ed : Ed25519 Unit where
  verifyingKey := fun _ => Verify.Sample.key
  sign := fun _ _ => raw
  sha512 := Resigned.Sample.ed.sha512

def host : Host where
  debug := fun text => text
  toLowercase := fun text => text
  sha256 := fun text => text.take 32
  check := fun key _ sig => key = Verify.Sample.key && sig = raw
  notEd25519 := fun text => text
  auditLog := ascii "audit.log"

def armor : Bytes := armorSshSignature Verify.Sample.key gitSshsigNamespace raw

def ssh : SshKey where
  fromPem := fun pem => if pem = armor then .ok ⟨.ed25519 Verify.Sample.key,ascii "ssh-ed25519",raw.val⟩ else .error (ascii "invalid")
  compress := fun point => point
  verify := fun data name _ given => data = .ed25519 Verify.Sample.key && name = gitSshsigNamespace && given.signatureBytes = raw.val

-- git asks, the settings name no persona, and the VTA signs.
def oracle (_ : History Query (Answer Unit)) : (q : Query) → Answer Unit q
  | .call .input => .ok Verify.Sample.payload
  | .call .config => .ok (ascii "did:web:a#key-0")
  | .call (.authenticate didKeyId) => .ok didKeyId
  | .call (.signSshsig _ _) => .ok (.signed raw.val)
  | .call (.publicKey _) => .ok Verify.Sample.key
  | .call (.signingKey _) => .ok ()
  | .call (.write _) => .ok ()
  | .parent => some (ascii "git")
  | .audit _ => ()
  | .env _ => none
  | .gitConfig _ => none
  | .credentials _ => true

end Sample

theorem sample_honest : Honest Sample.ed Sample.host := fun _ _ => by simp [Sample.ed,Sample.host]

theorem sample_reads : Reads Sample.ed Sample.host Sample.ssh := by
  intro key message sig checked
  obtain ⟨rfl,rfl⟩ : key = Verify.Sample.key ∧ sig = Sample.raw := by simpa [Sample.host] using checked
  have read : Sample.ssh.fromPem Sample.armor = .ok ⟨.ed25519 Verify.Sample.key,ascii "ssh-ed25519",Sample.raw.val⟩ := by
    simp [Sample.ssh]
  exact ⟨_,read,rfl,by simp [Sample.ssh]⟩

theorem signed_verifies_sample : ∃ armor : List Bytes, endLines armor = Sample.armor ∧
    checkCommitSignature Sample.ssh id Verify.Sample.scid Verify.Sample.signers none
      (signedObject (lines Verify.Sample.header) armor (ascii "m")) = .valid (ascii "did:web:a") := by
  have ran : ∃ after next, (handleSign Sample.ed Sample.host Verify.Sample.scid gitSshsigNamespace).run.advance (logged Sample.oracle) 11 [] =
      some (after,.call (.call (.write Sample.armor)) next) := ⟨_,_,rfl⟩
  obtain ⟨after,next,ran⟩ := ran
  have answers : Told (fun q r => r = Sample.oracle [] q) after :=
    logged_told (fun _ _ => rfl) 11 _ (fun _ _ inside => (by cases inside)) ran
  obtain ⟨data,didKeyId,source,key,cleared,used,armor,_,back,verified⟩ := (signed_verifies Sample.ssh id Verify.Sample.signers none
    sample_honest sample_reads Sample.oracle 11 ran).2 _ rfl
  have given : data = Verify.Sample.payload := Except.ok.inj (answers _ _ cleared.given)
  have shown : key = Verify.Sample.key := by
    rcases used with ⟨keyId,inside⟩ | ⟨keyId,secret,_,rfl⟩
    · exact Except.ok.inj (answers _ _ inside)
    · rfl
  subst given shown
  have utf8 : isUtf8 Verify.Sample.payload = true := Resigned.ascii_all (by decide)
  have cut : splitBlank Verify.Sample.payload = some (Verify.Sample.header,ascii "m") := by decide
  have plain : ∀ l ∈ lines Verify.Sample.header, ¬ NamedSignature l := by decide
  obtain ⟨claimed,claims,_,checked⟩ := verified _ _ utf8 cut plain (by decide)
  have named : signerDid Verify.Sample.scid Verify.Sample.payload = some (ascii "did:web:a") := by decide
  rw [named] at claims
  cases claims
  refine ⟨armor,back,checked.trans ?_⟩
  decide

theorem resigned_verifies_sample : ∃ raw,
    Resigned.resignCommit Sample.ed Verify.Sample.scid Resigned.Sample.bumped (Resigned.Sample.sha 51) (ascii "B <b@e> 5 +0000")
      Resigned.Sample.message Resigned.Sample.signing = .ok raw ∧
    checkCommitSignature Sample.ssh id Verify.Sample.scid Verify.Sample.signers none raw = .valid (ascii "did:web:a") := by
  let headers := Resigned.headersOf Resigned.Sample.bumped (Resigned.Sample.sha 51) (ascii "B <b@e> 5 +0000")
  let unsigned := Resigned.unsignedOf Resigned.Sample.bumped (Resigned.Sample.sha 51) (ascii "B <b@e> 5 +0000") Resigned.Sample.message
  let signed := headers ++ ascii "\n" ++ Resigned.signatureHeader Sample.armor ++ ascii "\n\n" ++ Resigned.Sample.message
  have plain : isUtf8 unsigned = true := Resigned.ascii_all (by decide +kernel)
  have plain' : isUtf8 signed = true := Resigned.ascii_all (by decide +kernel)
  have trailer : trailerDid Verify.Sample.scid unsigned = some (ascii "did:web:a") := by
    rw [trailerDid,if_pos plain]
    decide +kernel
  have committer : committerDid Verify.Sample.scid unsigned = none := by
    rw [committerDid,committerIdentity,if_pos plain]
    decide +kernel
  have claims : signerDid Verify.Sample.scid unsigned = some (ascii "did:web:a") := by rw [signerDid,trailer,Option.some_or]
  have named : Resigned.namesSigner Verify.Sample.scid Resigned.Sample.signing unsigned = true := by
    rw [Resigned.namesSigner,claims]
    decide
  have clear : conflictingSignerDids Verify.Sample.scid unsigned = none := by
    rw [conflictingSignerDids,trailer,committer]
  have split : splitSignedCommit signed = .ok (some (unsigned,Sample.armor)) := by
    rw [splitSignedCommit,if_pos plain']
    decide +kernel
  have resigned := Resigned.resign_signs Sample.ed Verify.Sample.scid Resigned.Sample.signing named clear split
  obtain ⟨claimed,outside,_,checked⟩ := resigned_verifies Sample.ssh id Verify.Sample.signers none sample_honest sample_reads resigned
  have whole := (split_claims Verify.Sample.scid split).1.trans claims
  cases whole.symm.trans outside
  refine ⟨_,resigned,checked.trans ?_⟩
  decide

end VerifiableGit.Sign
