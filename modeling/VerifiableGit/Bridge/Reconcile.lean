import VerifiableGit.Library.OrderedMap
import VerifiableGit.Bridge.SigningPolicy
import VerifiableGit.Verify.DidDocument

-- Which keys the bridge holds after it asked its VTA: what the DID document
-- lists, what the VTA exports and what is already held (vgi-bridge, vta.rs).
namespace VerifiableGit.Rotation
open VerifiableGit.Text VerifiableGit.Library
open VerifiableGit.Did (Value absolute listed)
open VerifiableGit.Bridge (i64Min i64Max)

inductive KeyType where
  | ed25519
  | x25519
  | other
deriving DecidableEq

structure Secret where
  id : Bytes
  keyType : KeyType
  publicBytes : Bytes
  privateBytes : Bytes
deriving DecidableEq

structure SecretEntry where
  keyId : Bytes
  keyType : KeyType
  privateKeyMultibase : Bytes
deriving DecidableEq

structure DidSecretsBundle where
  did : Bytes
  secrets : List SecretEntry

structure BridgeIdentity where
  did : Bytes
  signing : Secret
  secrets : List Secret
deriving DecidableEq

-- What vta-sdk and multibase answer: the bare DID of a reference, whether two
-- name one identity, the secrets of a bundle, the bytes of a multibase text.
structure Sdk where
  identity : Bytes → Bytes
  sameReference : Bytes → Bytes → Bool
  secretsFromBundle : DidSecretsBundle → Except Bytes (List Secret)
  decode : Bytes → Option Bytes

structure Listed where
  signing : OrderedMap Bytes Bytes
  agreement : OrderedMap Bytes Bytes

-- Multicodec-prefixed or bare.
def rawKey (raw : Bytes) : Option Bytes :=
  if ([0xED,0x01].isPrefixOf raw ∨ [0xEC,0x01].isPrefixOf raw) ∧ raw.length = 34 then some (raw.drop 2)
  else if raw.length = 32 then some raw
  else none

section
variable (sdk : Sdk)

def keyOf (did : Bytes) (method : Value) : Option (Bytes × Bytes) := do
  let id ← method.methodId did
  let encoded ← (method.get (ascii "publicKeyMultibase")).bind Value.asStr
  let raw ← sdk.decode encoded
  let bytes ← rawKey raw
  some (id,bytes)

def methods (did : Bytes) (doc : Value) : OrderedMap Bytes Bytes :=
  .collect ((listed doc (ascii "verificationMethod")).filterMap (keyOf sdk did))

def entryOf (did : Bytes) (doc : Value) : Value → Option (Bytes × Bytes)
  | .string reference => ((methods sdk did doc).get? (absolute did reference)).map fun key => (absolute did reference,key)
  | embedded => keyOf sdk did embedded

def relation (did : Bytes) (doc : Value) (name : Bytes) : OrderedMap Bytes Bytes :=
  .collect ((listed doc name).filterMap (entryOf sdk did doc))

def listedKeys (did : Bytes) (doc : Value) : Listed :=
  let did := sdk.identity did
  ⟨relation sdk did doc (ascii "assertionMethod"),relation sdk did doc (ascii "keyAgreement")⟩

end

-- `i64::from_str`
def parseI64 (s : Bytes) : Option Int :=
  let (negative,digits) : Bool × Bytes :=
    match s with
    | 45 :: rest => (true,rest)
    | 43 :: rest => (false,rest)
    | rest => (false,rest)
  if digits = [] ∨ digits.any (fun b => b < 48 || 57 < b) then none
  else
    let size : Int := digits.foldl (fun n b => 10 * n + (b.toNat - 48 : Nat)) 0
    let value := if negative then -size else size
    if i64Min ≤ value ∧ value ≤ i64Max then some value else none

-- What follows the last mark.
def afterMark (mark s : Bytes) : Option Bytes := s.tails.reverse.findSome? (stripPrefix mark)

def number (id : Bytes) : Int := ((afterMark (ascii "#key-") id).bind parseI64).getD (-1)

def usableOf (created : Table Bytes Int) (s : Secret) : Usable := ⟨s.id,(created.lookup s.id).getD i64Min,number s.id⟩

def chooseSecret (policy : SigningPolicy) (created : Table Bytes Int) (usable : List Secret) : Option Secret :=
  (policy.choose (usable.map (usableOf created))).bind fun u => usable.find? fun s => s.id = u.id

-- What the document lists under the relationship the key's type needs.
def Listed.want (listed : Listed) (s : Secret) : Option Bytes :=
  match s.keyType with
  | .ed25519 => listed.signing.get? s.id
  | .x25519 => listed.agreement.get? s.id
  | .other => none

def quoted (s : Bytes) : Bytes := ascii "`" ++ s ++ ascii "`"

section
variable (sdk : Sdk)

def BridgeIdentity.fromSecrets (did : Bytes) (signing : Secret) (secrets : List Secret) : Except Bytes BridgeIdentity :=
  match secrets.find? fun s => !(sdk.identity did ++ ascii "#").isPrefixOf s.id with
  | some s => .error (ascii "key " ++ quoted s.id ++ ascii " does not belong to " ++ quoted did)
  | none =>
    if signing.keyType ≠ .ed25519 ∨ ¬ secrets.any (fun s => s.id = signing.id) then
      .error (ascii "the signing key " ++ quoted signing.id ++ ascii " is not an Ed25519 key of the set")
    else .ok ⟨did,signing,secrets⟩

def withdrawn (did : Bytes) : Bytes :=
  ascii "the DID document of " ++ quoted did ++ ascii " lists no signing (assertionMethod) key the VTA still " ++
    ascii "releases to the bridge: refusing to sign with a key the VTA has withdrawn"

def unreachable (did : Bytes) : Bytes :=
  ascii "the DID document of " ++ quoted did ++ ascii " lists no key-agreement key the bridge holds a private " ++
    ascii "key for; DIDComm needs one"

def byId (secrets : List Secret) : List (Bytes × Secret) := secrets.map fun s => (s.id,s)

def heldSecrets (held : Option BridgeIdentity) (did : Bytes) : List Secret :=
  match held with
  | some h => if sdk.sameReference h.did did then h.secrets else []
  | none => []

def candidates (held : Option BridgeIdentity) (did : Bytes) (exported : List Secret) : OrderedMap Bytes Secret :=
  (OrderedMap.empty.extend (byId (heldSecrets sdk held did))).extend (byId exported)

def kept (listed : Listed) (did : Bytes) (candidates : OrderedMap Bytes Secret) : List Secret :=
  (candidates.values.filter fun s => (did ++ ascii "#").isPrefixOf s.id).filter fun s => listed.want s = some s.publicBytes

def reconcile (fetched : DidSecretsBundle) (held : Option BridgeIdentity) (doc : Value) (created : Table Bytes Int)
    (policy : SigningPolicy) : Except Bytes (BridgeIdentity × SigningPolicy) :=
  let did := sdk.identity fetched.did
  let listed := listedKeys sdk did doc
  match sdk.secretsFromBundle fetched with
  | .error e => .error (ascii "DID secrets bundle: " ++ e)
  | .ok exported =>
    let keep := kept listed did (candidates sdk held did exported)
    let policy := policy.observe listed.signing.keys
    let usable := (keep.filter fun s => s.keyType = .ed25519).filter fun s => s.id ∈ exported.map Secret.id
    match chooseSecret policy created usable with
    | none => .error (withdrawn did)
    | some signing =>
      if keep.any fun s => s.keyType = .x25519 then
        (BridgeIdentity.fromSecrets sdk fetched.did signing keep).map fun identity => (identity,policy)
      else .error (unreachable did)

end

/-! What the document vouches for -/

section
variable (sdk : Sdk) (did : Bytes) (doc : Value)

-- The document lists this key under the relationship, by reference or embedded.
def Lists (name id key : Bytes) : Prop := ∃ entry ∈ listed doc name,
  (∃ reference, entry = .string reference ∧ absolute did reference = id ∧
    ∃ method ∈ listed doc (ascii "verificationMethod"), keyOf sdk did method = some (id,key)) ∨
  ((∀ reference, entry ≠ .string reference) ∧ keyOf sdk did entry = some (id,key))

def isEmbedded : Value → Bool
  | .string _ => false
  | _ => true

-- The ids of the document's methods, those embedded in the relationship too.
def methodIds (name : Bytes) : List Bytes :=
  (listed doc (ascii "verificationMethod") ++ (listed doc name).filter isEmbedded).filterMap fun method => method.methodId did

def Vouches (s : Secret) : Prop :=
  match s.keyType with
  | .ed25519 => Lists sdk did doc (ascii "assertionMethod") s.id s.publicBytes
  | .x25519 => Lists sdk did doc (ascii "keyAgreement") s.id s.publicBytes
  | .other => False

end

-- The last of the secrets with its id.
def LastUnder (secrets : List Secret) (s : Secret) : Prop := (secrets.reverse.find? fun t => t.id = s.id) = some s

-- Exported, or held for the same DID under an id the export does not contain.
def Offered (exported held : List Secret) (s : Secret) : Prop :=
  LastUnder exported s ∨ (∀ t ∈ exported, t.id ≠ s.id) ∧ LastUnder held s

end VerifiableGit.Rotation
