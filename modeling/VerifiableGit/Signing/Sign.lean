import VerifiableGit.Forge.CodeOwners
import VerifiableGit.Library.Heeds
import VerifiableGit.Resign.Resigned

-- One signature for git (did-git-sign, sign.rs, policy.rs and vta.rs; vgi-core,
-- sshsig.rs): what is asked of the machine, of its settings and of the VTA.
namespace VerifiableGit.Sign
open Text Commit Verify Library.Interaction
open Resigned (Ed25519 createSshSignature)

inductive SignerMode where
  | vta | auto | exported
deriving DecidableEq

inductive RemoteSignature where
  | signed (raw : Bytes)
  | unsupported
  | notPermitted (why : Bytes)

structure AuditEntry where
  allowed : Bool
  parentName : Option Bytes
  ns : Bytes
  bufferSha256 : Bytes

-- The requests that may fail.
inductive Call where
  | input
  | config
  | authenticate (didKeyId : Bytes)
  | signSshsig (keyId : Bytes) (messageHash : {hash : Bytes // hash.length = 64})
  | publicKey (keyId : Bytes)
  | signingKey (keyId : Bytes)
  | write (signature : Bytes)

abbrev Call.Value (Key : Type) : Call → Type
  | .input | .config | .authenticate _ => Bytes
  | .signSshsig _ _ => RemoteSignature
  | .publicKey _ => {key : Bytes // key.length = 32}
  | .signingKey _ => Key
  | .write _ => Unit

inductive Query where
  | call (call : Call)
  | parent
  | audit (entry : AuditEntry)
  | env (name : Bytes)
  | gitConfig (key : Bytes)
  | credentials (did : Bytes)

abbrev Answer (Key : Type) : Query → Type
  | .call call => Except Bytes (call.Value Key)
  | .parent | .env _ | .gitConfig _ => Option Bytes
  | .audit _ => Unit
  | .credentials _ => Bool

-- The language's quoting and case folding, SHA-256, and the signing library's
-- check of a signature, with what it says of one of another length; and where
-- the audit log is.
structure Host where
  debug : Bytes → Bytes
  toLowercase : Bytes → Bytes
  sha256 : Bytes → Bytes
  check : {key : Bytes // key.length = 32} → Bytes → {sig : Bytes // sig.length = 64} → Bool
  notEd25519 : Bytes → Bytes
  auditLog : Bytes

def signingKeyEnv : Bytes := ascii "DID_GIT_SIGN_KEY"
def signingKeyGitConfig : Bytes := ascii "did-git-sign.key"
def signerEnv : Bytes := ascii "DID_GIT_SIGN_SIGNER"
def signerGitConfig : Bytes := ascii "did-git-sign.signer"

def maxSignInput : Nat := 16 * 1024 * 1024

def readBounded (data : Bytes) : Except Bytes Bytes :=
  if data.length > maxSignInput then
    .error (ascii "refusing to sign more than " ++ ascii (toString maxSignInput) ++ ascii (" bytes: git's commit and tag objects " ++
      "are far smaller"))
  else .ok data

def allowedParents : List Bytes := [ascii "git",ascii "ssh-keygen"]

def parentIsAllowed (name : Bytes) : Bool :=
  let token := if (ascii ".exe").isSuffixOf name then name.take (name.length - 4) else name
  allowedParents.any fun allowed => token = allowed || (allowed = ascii "git" && (ascii "git-").isPrefixOf token)

-- A value that is set and not blank.
def clean (value : Option Bytes) : Option Bytes := (value.map unicodeTrim).filter (· ≠ [])

def selectSigningKey (configDid : Bytes) (env git : Option Bytes) : Bytes × KeySource :=
  match clean env,clean git with
  | some v,_ => (v,.env)
  | none,some v => (v,.gitConfig)
  | none,none => (configDid,.configFile)

section
variable {Key : Type} (ed : Ed25519 Key) (host : Host) (scid : Scid)

def checkNamespace (ns : Bytes) : Except Bytes Unit :=
  if ns = gitSshsigNamespace then .ok ()
  else .error (ascii "did-git-sign: refusing to sign in sshsig namespace " ++ host.debug ns ++ ascii (". did-git-sign only " ++
    "signs git objects, in the ") ++ host.debug gitSshsigNamespace ++ ascii (" namespace; use ssh-keygen with a " ++
    "separate key for other namespaces."))

-- The parent's first word, whatever its case.
def decideParent (parent : Option Bytes) : Bool :=
  (parent.bind fun name => (Forge.splitWhitespace name.length [] name).head?).any fun token =>
    parentIsAllowed (host.toLowercase token)

def SignerMode.parse (value : Bytes) : Except Bytes SignerMode :=
  let v := unicodeTrim value
  if v = ascii "vta" then .ok .vta
  else if v = ascii "auto" ∨ v = [] then .ok .auto
  else if v = ascii "export" then .ok .exported
  else .error (ascii "did-git-sign: unknown signer " ++ host.debug v ++ ascii " (from " ++ signerEnv ++ ascii " or `git config " ++
    signerGitConfig ++ ascii "`); expected vta, auto or export")

-- A signature made elsewhere, checked before it is armored.
def assembleSshSignature (key : {key : Bytes // key.length = 32}) (ns message signature : Bytes) : Except Bytes Bytes :=
  if long : signature.length = 64 then
    if host.check key (sshsigSignedData ns (ed.sha512 message)) ⟨signature,long⟩ then .ok (armorSshSignature key ns ⟨signature,long⟩)
    else .error (ascii "remote signature does not verify as an SSHSIG signature by this key in namespace " ++ host.debug ns)
  else .error (ascii "remote signature is not an Ed25519 signature: " ++ host.notEd25519 signature)

abbrev Run (Key α : Type) := ExceptT Bytes (Prog Query (Answer Key)) α

def settled {α : Type} (r : Except Bytes α) : Run Key α := ExceptT.mk (pure r)

def send (call : Call) : Run Key (call.Value Key) := ExceptT.mk do
  let answer : Except Bytes (call.Value Key) ← ask (Query.call call)
  pure answer

def told (q : Query) : Run Key (Answer Key q) := ExceptT.mk do
  let answer ← ask q
  pure (.ok answer)

def refusal (parent : Option Bytes) : Bytes :=
  ascii "did-git-sign: signing refused by policy (parent process " ++ host.debug (parent.getD (ascii "<unknown>")) ++
    ascii " is not git). did-git-sign signs only when git runs it as gpg.ssh.program. Attempt recorded in " ++ host.auditLog ++
    ascii "."

def unstored (didKeyId : Bytes) (source : KeySource) : Bytes :=
  ascii "did-git-sign: the signing persona '" ++ didKeyId ++ ascii "' selected via " ++ source.text ++
    ascii (" has no stored credentials. Run `did-git-sign init` for that persona, or clear the override (") ++ signingKeyEnv ++
    ascii " / `git config --unset " ++ signingKeyGitConfig ++ ascii "`)."

def resolveSigningKey (configDid : Bytes) : Run Key (Bytes × KeySource) := do
  let env ← told (.env signingKeyEnv)
  let git ← told (.gitConfig signingKeyGitConfig)
  pure (selectSigningKey configDid env git)

-- The config file's own persona needs none looked up.
def hasCredentials (didKeyId configDid : Bytes) : Run Key Bool :=
  if didKeyId ≠ configDid then told (.credentials didKeyId) else pure true

def resolveSignerMode : Run Key SignerMode := do
  let env : Option Bytes ← told (.env signerEnv)
  match clean env with
  | some _ => settled (SignerMode.parse host (env.getD []))
  | none => do
    let git : Option Bytes ← told (.gitConfig signerGitConfig)
    match git with
    | some v => settled (SignerMode.parse host v)
    | none => pure .auto

def unserved : Bytes := ascii "did-git-sign: this VTA does not serve keys/sign-sshsig, and " ++ signerGitConfig ++
  ascii (" is `vta`, so the key will not be exported to sign locally. Upgrade the VTA, or set `git config ") ++ signerGitConfig ++
  ascii " auto` to allow the export."

def unpermitted (why : Bytes) : Bytes := ascii "did-git-sign: the VTA will not sign with this credential (" ++ why ++
  ascii "), and " ++ signerGitConfig ++ ascii (" is `vta`, so the key will not be exported to sign locally. Give the credential " ++
  "the sign-sshsig capability (`pnm acl update <credential DID> --capabilities sign-sshsig`; `did-git-sign health` names the " ++
  "credential), or set `git config ") ++ signerGitConfig ++ ascii " auto` to allow the export."

-- The key leaves the VTA for this one signature.
def signLocally (keyId ns data : Bytes) : Run Key Bytes := do
  let key : Key ← send (.signingKey keyId)
  pure (createSshSignature ed key ns data)

def signWithVta (keyId ns data : Bytes) (mode : SignerMode) : Run Key Bytes :=
  if mode = .exported then signLocally ed keyId ns data
  else do
    let remote : RemoteSignature ← send (.signSshsig keyId (ed.sha512 data))
    match remote with
    | .signed raw => do
      let verifyingKey ← send (.publicKey keyId)
      settled (assembleSshSignature ed host verifyingKey ns data raw)
    | .unsupported => if mode = .vta then throw unserved else signLocally ed keyId ns data
    | .notPermitted why => if mode = .vta then throw (unpermitted why) else signLocally ed keyId ns data

def handleSign (ns : Bytes) : Run Key Unit := do
  settled (checkNamespace host ns)
  let given : Bytes ← send .input
  let data ← settled (readBounded given)
  let parent : Option Bytes ← told .parent
  let _ ← told (.audit ⟨decideParent host parent,parent,ns,host.sha256 data⟩)
  if decideParent host parent then do
    let configDid : Bytes ← send .config
    let (didKeyId,source) ← resolveSigningKey configDid
    let stored ← hasCredentials didKeyId configDid
    if stored then do
      settled (checkCommitterMatchesKey scid data didKeyId source)
      let mode ← resolveSignerMode host
      let keyId : Bytes ← send (.authenticate didKeyId)
      let signature ← signWithVta ed host keyId ns data mode
      send (.write signature)
    else throw (unstored didKeyId source)
  else throw (refusal host parent)

end

end VerifiableGit.Sign
