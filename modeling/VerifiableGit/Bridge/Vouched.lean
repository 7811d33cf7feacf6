import VerifiableGit.Bridge.Reconcile

-- The keys held are the keys vouched for.
namespace VerifiableGit.Rotation
open VerifiableGit.Text VerifiableGit.Library
open VerifiableGit.Did (Value absolute listed)

-- The last of several under one key is any of them, when they agree.
theorem get_agreeing {items : List (Bytes × Bytes)}
    (agree : ∀ id one two, (id,one) ∈ items → (id,two) ∈ items → one = two) (id key : Bytes) :
    (OrderedMap.collect items).get? id = some key ↔ (id,key) ∈ items := by
  rw [OrderedMap.get_collect]
  constructor
  · intro found
    obtain ⟨item,here,value⟩ := Option.map_eq_some_iff.mp found
    have same : item.1 = id := by simpa using List.find?_some here
    have member := List.mem_reverse.mp (List.mem_of_find?_eq_some here)
    rw [← same,← value]
    exact member
  · intro member
    cases here : items.reverse.find? fun item => item.1 = id with
    | none => simpa using List.find?_eq_none.mp here (id,key) (List.mem_reverse.mpr member)
    | some item =>
      have same : item.1 = id := by simpa using List.find?_some here
      have inside := List.mem_reverse.mp (List.mem_of_find?_eq_some here)
      have equal : item.2 = key := agree id item.2 key (same ▸ inside) member
      rw [Option.map_some,equal]

section
variable {sdk : Sdk} {did : Bytes} {doc : Value} {name : Bytes}

theorem keyOf_id {method : Value} {id key : Bytes} (read : keyOf sdk did method = some (id,key)) : method.methodId did = some id := by
  unfold keyOf at read
  cases named : method.methodId did with
  | none => simp [named] at read
  | some other =>
    simp only [named,Option.bind_eq_bind,Option.bind_some,Option.bind_eq_some_iff,Option.some.injEq,Prod.mk.injEq] at read
    obtain ⟨_,_,_,_,_,_,same,_⟩ := read
    rw [same]

theorem embedded_own {entry : Value} (own : ∀ reference, entry ≠ .string reference) : isEmbedded entry = true := by
  cases entry with
  | string reference => exact absurd rfl (own reference)
  | _ => rfl

theorem embedded_value {entry : Value} (own : ∀ reference, entry ≠ .string reference) :
    entryOf sdk did doc entry = keyOf sdk did entry := by
  cases entry with
  | string reference => exact absurd rfl (own reference)
  | _ => rfl

variable (distinct : (methodIds did doc name).Nodup)
include distinct

theorem method_once {a b : Value} {id : Bytes}
    (left : a ∈ listed doc (ascii "verificationMethod") ++ (listed doc name).filter isEmbedded)
    (right : b ∈ listed doc (ascii "verificationMethod") ++ (listed doc name).filter isEmbedded)
    (ia : a.methodId did = some id) (ib : b.methodId did = some id) : a = b :=
  filterMap_once distinct left right ia ib

theorem methods_get (id key : Bytes) : (methods sdk did doc).get? id = some key ↔
    ∃ method ∈ listed doc (ascii "verificationMethod"), keyOf sdk did method = some (id,key) := by
  rw [methods,get_agreeing]
  · exact List.mem_filterMap
  · intro id one two first second
    obtain ⟨a,left,ka⟩ := List.mem_filterMap.mp first
    obtain ⟨b,right,kb⟩ := List.mem_filterMap.mp second
    have same := method_once distinct (List.mem_append_left _ left) (List.mem_append_left _ right) (keyOf_id ka) (keyOf_id kb)
    subst same
    exact congrArg Prod.snd (Option.some.inj (ka.symm.trans kb))

theorem entry_lists (entry : Value) (id key : Bytes) : entryOf sdk did doc entry = some (id,key) ↔
    (∃ reference, entry = .string reference ∧ absolute did reference = id ∧
      ∃ method ∈ listed doc (ascii "verificationMethod"), keyOf sdk did method = some (id,key)) ∨
    ((∀ reference, entry ≠ .string reference) ∧ keyOf sdk did entry = some (id,key)) := by
  by_cases reference : ∃ reference, entry = .string reference
  · obtain ⟨reference,same⟩ := reference
    subst same
    simp only [entryOf,Option.map_eq_some_iff,Prod.mk.injEq,Value.string.injEq]
    constructor
    · intro read
      obtain ⟨found,here,same,equal⟩ := read
      subst same equal
      exact .inl ⟨reference,rfl,rfl,(methods_get distinct _ _).mp here⟩
    · intro listed_
      rcases listed_ with ⟨_,same,absolute_,inside⟩ | ⟨never,_⟩
      · subst same
        exact ⟨key,(methods_get distinct _ _).mpr (absolute_ ▸ inside),absolute_,rfl⟩
      · exact absurd rfl (never reference)
  · have own : ∀ r, entry ≠ .string r := fun r same => reference ⟨r,same⟩
    rw [embedded_value own]
    constructor
    · exact fun read => .inr ⟨own,read⟩
    · intro listed_
      rcases listed_ with ⟨r,same,_⟩ | ⟨_,read⟩
      · exact absurd same (own r)
      · exact read

theorem relation_lists (id key : Bytes) : (relation sdk did doc name).get? id = some key ↔ Lists sdk did doc name id key := by
  have member (id key : Bytes) : (id,key) ∈ (listed doc name).filterMap (entryOf sdk did doc) ↔ Lists sdk did doc name id key := by
    rw [List.mem_filterMap]
    exact exists_congr fun entry => and_congr_right fun _ => entry_lists distinct entry id key
  rw [relation,get_agreeing,member]
  -- Whatever gives the id, a method or an embedded one, is one of distinct methods.
  have source (id key : Bytes) (lists : Lists sdk did doc name id key) : ∃ method,
      method ∈ listed doc (ascii "verificationMethod") ++ (listed doc name).filter isEmbedded ∧
        keyOf sdk did method = some (id,key) := by
    obtain ⟨entry,inside,⟨_,_,_,method,here,read⟩ | ⟨own,read⟩⟩ := lists
    · exact ⟨method,List.mem_append_left _ here,read⟩
    · exact ⟨entry,List.mem_append_right _ (List.mem_filter.mpr ⟨inside,embedded_own own⟩),read⟩
  intro id one two first second
  obtain ⟨a,left,ka⟩ := source id one ((member id one).mp first)
  obtain ⟨b,right,kb⟩ := source id two ((member id two).mp second)
  have same := method_once distinct left right (keyOf_id ka) (keyOf_id kb)
  subst same
  exact congrArg Prod.snd (Option.some.inj (ka.symm.trans kb))

end

theorem last_byId (secrets : List Secret) (id : Bytes) :
    ((byId secrets).reverse.find? fun item => item.1 = id).map Prod.snd = secrets.reverse.find? fun s => s.id = id := by
  rw [byId,← List.map_reverse,List.find?_map,Option.map_map]
  exact Option.map_id'

section
variable {sdk : Sdk} {held : Option BridgeIdentity} {did : Bytes} {exported : List Secret}

theorem candidates_get (id : Bytes) : (candidates sdk held did exported).get? id =
    (exported.reverse.find? fun s => s.id = id).or ((heldSecrets sdk held did).reverse.find? fun s => s.id = id) := by
  rw [candidates,OrderedMap.get_extend,OrderedMap.get_extend,last_byId,last_byId]
  exact congrArg _ Option.or_none

theorem candidate_id {id : Bytes} {s : Secret} (found : (candidates sdk held did exported).get? id = some s) : s.id = id := by
  rw [candidates_get] at found
  rcases Option.or_eq_some_iff.mp found with here | ⟨_,here⟩
  · simpa using List.find?_some here
  · simpa using List.find?_some here

theorem candidate_offered (s : Secret) : (candidates sdk held did exported).get? s.id = some s ↔
    Offered exported (heldSecrets sdk held did) s := by
  rw [candidates_get,Option.or_eq_some_iff,Offered,List.find?_eq_none]
  simp [LastUnder]

theorem mem_values (s : Secret) : s ∈ (candidates sdk held did exported).values ↔ Offered exported (heldSecrets sdk held did) s := by
  rw [← candidate_offered,OrderedMap.values,List.mem_map]
  constructor
  · intro ⟨entry,inside,same⟩
    have found := (OrderedMap.mem_entries _ entry.1 entry.2).mp inside
    rw [same] at found
    rwa [candidate_id found]
  · exact fun found => ⟨(s.id,s),(OrderedMap.mem_entries _ _ _).mpr found,rfl⟩

theorem values_ids : (candidates sdk held did exported).values.map Secret.id = (candidates sdk held did exported).keys := by
  rw [OrderedMap.values,OrderedMap.keys,List.map_map]
  refine List.map_congr_left fun entry inside => ?_
  exact candidate_id ((OrderedMap.mem_entries _ entry.1 entry.2).mp inside)

theorem kept_ids (listed : Listed) : ((kept listed did (candidates sdk held did exported)).map Secret.id).Nodup := by
  have once : ((candidates sdk held did exported).values.map Secret.id).Nodup := values_ids ▸ OrderedMap.keys_nodup _
  exact once.sublist ((List.filter_sublist.trans List.filter_sublist).map _)

theorem offered_exported {held : List Secret} {s : Secret} (offered : Offered exported held s) (id : s.id ∈ exported.map Secret.id) :
    s ∈ exported := by
  rcases offered with last | ⟨never,_⟩
  · exact List.mem_reverse.mp (List.mem_of_find?_eq_some last)
  · obtain ⟨t,inside,same⟩ := List.mem_map.mp id
    exact absurd same (never t inside)

end

theorem chosen_member {policy : SigningPolicy} {usable : List Usable} {c : Usable} (chosen : policy.choose usable = some c) : c ∈ usable := by
  rcases Option.or_eq_some_iff.mp chosen with due | ⟨_,least⟩
  · exact (List.mem_filter.mp (List.mem_reverse.mp (List.argmax_mem due))).1
  · exact List.argmin_mem least

theorem choose_empty (policy : SigningPolicy) (usable : List Usable) : policy.choose usable = none ↔ usable = [] := by
  rw [SigningPolicy.choose,Option.or_eq_none_iff,List.argmin_eq_none]
  refine ⟨And.right,fun empty => ⟨?_,empty⟩⟩
  rw [empty]
  rfl

theorem chooseSecret_some {policy : SigningPolicy} {created : Table Bytes Int} {usable : List Secret} {s : Secret}
    (chosen : chooseSecret policy created usable = some s) : s ∈ usable := by
  obtain ⟨_,_,found⟩ := Option.bind_eq_some_iff.mp chosen
  exact List.mem_of_find?_eq_some found

theorem chooseSecret_none (policy : SigningPolicy) (created : Table Bytes Int) (usable : List Secret) :
    chooseSecret policy created usable = none ↔ usable = [] := by
  constructor
  · intro none_
    cases chosen : policy.choose (usable.map (usableOf created)) with
    | none => exact List.map_eq_nil_iff.mp ((choose_empty _ _).mp chosen)
    | some u =>
      rw [chooseSecret,chosen,Option.bind_some,List.find?_eq_none] at none_
      obtain ⟨s,inside,same⟩ := List.mem_map.mp (chosen_member chosen)
      have id : u.id = s.id := by rw [← same]; rfl
      simpa [id] using none_ s inside
  · intro empty
    rw [empty,chooseSecret,List.map_nil,(choose_empty policy []).mpr rfl]
    rfl

-- Held: offered, under the bare DID, and vouched for by the document.
def Held (sdk : Sdk) (fetched : DidSecretsBundle) (held : Option BridgeIdentity) (doc : Value) (exported : List Secret) (s : Secret) : Prop :=
  Offered exported (heldSecrets sdk held (sdk.identity fetched.did)) s ∧ sdk.identity fetched.did ++ ascii "#" <+: s.id ∧
    Vouches sdk (sdk.identity (sdk.identity fetched.did)) doc s

section
variable {sdk : Sdk} {fetched : DidSecretsBundle} {held : Option BridgeIdentity} {doc : Value} {exported : List Secret}
variable (distinct : ∀ name ∈ [ascii "assertionMethod",ascii "keyAgreement"],
  (methodIds (sdk.identity (sdk.identity fetched.did)) doc name).Nodup)
include distinct

theorem want_vouches (s : Secret) : (listedKeys sdk (sdk.identity fetched.did) doc).want s = some s.publicBytes ↔
    Vouches sdk (sdk.identity (sdk.identity fetched.did)) doc s := by
  unfold Listed.want Vouches
  cases s.keyType with
  | ed25519 => exact relation_lists (distinct _ List.mem_cons_self) _ _
  | x25519 => exact relation_lists (distinct _ (List.mem_cons_of_mem _ List.mem_cons_self)) _ _
  | other => exact ⟨nofun,False.elim⟩

theorem mem_kept (s : Secret) : s ∈ kept (listedKeys sdk (sdk.identity fetched.did) doc) (sdk.identity fetched.did)
    (candidates sdk held (sdk.identity fetched.did) exported) ↔ Held sdk fetched held doc exported s := by
  rw [kept,List.mem_filter,List.mem_filter,mem_values,List.isPrefixOf_iff_prefix,decide_eq_true_iff,want_vouches distinct,
    and_assoc]
  rfl

end

theorem fromSecrets_ok {sdk : Sdk} {did : Bytes} {signing : Secret} {secrets : List Secret}
    (own : ∀ s ∈ secrets, sdk.identity did ++ ascii "#" <+: s.id) (signs : signing.keyType = .ed25519) (inside : signing ∈ secrets) :
    BridgeIdentity.fromSecrets sdk did signing secrets = .ok ⟨did,signing,secrets⟩ := by
  have none_ : (secrets.find? fun s => !(sdk.identity did ++ ascii "#").isPrefixOf s.id) = none := by
    rw [List.find?_eq_none]
    intro s member
    simpa using own s member
  have listed : secrets.any (fun s => s.id = signing.id) = true := List.any_eq_true.mpr ⟨signing,inside,by simp⟩
  rw [BridgeIdentity.fromSecrets,none_]
  dsimp only
  rw [if_neg (by simp [signs,listed])]

-- What a successful reconciliation holds, and what a refusal is for.
structure Reconciled (exported : List Secret) (held : Secret → Prop) (identity : BridgeIdentity) : Prop where
  exact_ : ∀ s, s ∈ identity.secrets ↔ held s
  once : (identity.secrets.map Secret.id).Nodup
  signs : identity.signing ∈ identity.secrets ∧ identity.signing.keyType = .ed25519 ∧ identity.signing ∈ exported

def Sufficient (exported : List Secret) (held : Secret → Prop) : Prop :=
  (∃ s, held s ∧ s.keyType = .ed25519 ∧ s ∈ exported) ∧ ∃ s, held s ∧ s.keyType = .x25519

def Settles (exported : List Secret) (held : Secret → Prop) : Except Bytes (BridgeIdentity × SigningPolicy) → Prop
  | .ok (identity,_) => Reconciled exported held identity ∧ Sufficient exported held
  | .error _ => ¬ Sufficient exported held

theorem reconcile_exact {sdk : Sdk} {fetched : DidSecretsBundle} {held : Option BridgeIdentity} {doc : Value} {exported : List Secret}
    (created : Table Bytes Int) (policy : SigningPolicy) (parses : sdk.secretsFromBundle fetched = .ok exported)
    (distinct : ∀ name ∈ [ascii "assertionMethod",ascii "keyAgreement"],
      (methodIds (sdk.identity (sdk.identity fetched.did)) doc name).Nodup) :
    Settles exported (Held sdk fetched held doc exported) (reconcile sdk fetched held doc created policy) := by
  let listed := listedKeys sdk (sdk.identity fetched.did) doc
  let keep := kept listed (sdk.identity fetched.did) (candidates sdk held (sdk.identity fetched.did) exported)
  let usable := (keep.filter fun s => s.keyType = .ed25519).filter fun s => s.id ∈ exported.map Secret.id
  have holds : ∀ s, s ∈ keep ↔ Held sdk fetched held doc exported s := mem_kept distinct
  have mem_usable (s : Secret) : s ∈ usable ↔ Held sdk fetched held doc exported s ∧ s.keyType = .ed25519 ∧ s ∈ exported := by
    rw [List.mem_filter,List.mem_filter,holds,decide_eq_true_iff,decide_eq_true_iff,and_assoc]
    refine and_congr_right fun here => and_congr_right fun _ => ?_
    exact ⟨offered_exported here.1,List.mem_map_of_mem⟩
  simp only [reconcile,parses]
  cases chosen : chooseSecret (policy.observe listed.signing.keys) created usable with
  | none =>
    have empty := (chooseSecret_none _ _ _).mp chosen
    intro ⟨⟨s,signs⟩,_⟩
    have member := (mem_usable s).mpr signs
    rw [empty] at member
    cases member
  | some signing =>
    have signs := (mem_usable signing).mp (chooseSecret_some chosen)
    dsimp only
    cases reach : keep.any fun s => s.keyType = .x25519 with
    | false =>
      rw [if_neg Bool.false_ne_true]
      intro ⟨_,s,here,agreement⟩
      have some_ : keep.any (fun s => s.keyType = .x25519) = true :=
        List.any_eq_true.mpr ⟨s,(holds s).mpr here,decide_eq_true agreement⟩
      rw [reach] at some_
      cases some_
    | true =>
      have own : ∀ s ∈ keep, sdk.identity fetched.did ++ ascii "#" <+: s.id := fun s member => ((holds s).mp member).2.1
      rw [if_pos rfl,fromSecrets_ok own signs.2.1 ((holds signing).mpr signs.1)]
      obtain ⟨s,member,agreement⟩ := List.any_eq_true.mp reach
      exact ⟨⟨holds,kept_ids listed,(holds signing).mpr signs.1,signs.2⟩,⟨signing,signs⟩,s,(holds s).mp member,
        of_decide_eq_true agreement⟩

namespace SampleVta

def did : Bytes := ascii "did:webvh:QmBridge:example.com"
def signingId : Bytes := did ++ ascii "#key-0"
def agreementId : Bytes := did ++ ascii "#key-1"

def signingPublic : Bytes := [215,90,152,1,130,177,10,183,213,75,254,211,201,100,7,58,14,225,114,243,218,166,35,37,175,2,26,104,247,7,81,26]
def otherPublic : Bytes := [61,64,23,195,232,67,137,90,146,183,10,167,77,27,126,188,156,152,44,207,46,196,150,140,192,205,85,241,42,244,102,12]
def agreementPublic : Bytes := [7,163,124,188,20,32,147,200,183,85,220,27,16,232,108,180,38,55,74,209,106,168,83,237,11,223,192,178,184,109,28,124]
def signingSeed : Bytes := [157,97,177,157,239,253,90,96,186,132,74,244,146,236,44,196,68,73,197,105,123,50,105,25,112,59,172,3,28,174,127,96]
def otherSeed : Bytes := [76,205,8,155,40,255,150,218,157,182,195,70,236,17,78,15,91,138,49,159,53,171,166,36,218,140,246,237,79,184,166,251]
def agreementSeed : Bytes := (List.range 32).map fun n => (n+1).toUInt8

def signingText : Bytes := ascii "z6MktwupdmLXVVqTzCw4i46r4uGyosGXRnR3XjN4Zq7oMMsw"
def agreementText : Bytes := ascii "z6LScBzcCzjZuJXEbSu5TKFpVfF7meSuF3afjxpDDMzwDEyR"

def signingEntry : SecretEntry := ⟨signingId,.ed25519,ascii "z3u2bpACJXYj89Vh7HqHn8oVv2A2niEy9FcQUzzuQTYJ61AX"⟩
def otherEntry : SecretEntry := ⟨signingId,.ed25519,ascii "z3u2WPc6zCiYa7ehSFxBHZDNbQuaNmuGoLNA2E9x3HWC4j8v"⟩
def agreementEntry : SecretEntry := ⟨agreementId,.x25519,ascii "z3weWqujXpSetSqpsGhEvu8LfcYKuusq2dRfMw7QCpdSfmS7"⟩

def signingSecret : Secret := ⟨signingId,.ed25519,signingPublic,signingSeed⟩
def otherSecret : Secret := ⟨signingId,.ed25519,otherPublic,otherSeed⟩
def agreementSecret : Secret := ⟨agreementId,.x25519,agreementPublic,agreementSeed⟩

def secretOf (entry : SecretEntry) : Except Bytes Secret :=
  if entry = signingEntry then .ok signingSecret
  else if entry = otherEntry then .ok otherSecret
  else if entry = agreementEntry then .ok agreementSecret
  else .error (ascii "invalid private key")

def sdk : Sdk where
  identity did := did
  sameReference a b := a = b
  secretsFromBundle bundle := bundle.secrets.mapM secretOf
  decode encoded :=
    if encoded = signingText then some ([0xED,0x01] ++ signingPublic)
    else if encoded = agreementText then some ([0xEC,0x01] ++ agreementPublic)
    else none

def method (id encoded : Bytes) : Value :=
  .object [(ascii "id",.string id),(ascii "type",.string (ascii "Multikey")),(ascii "publicKeyMultibase",.string encoded)]

def doc : Value := .object [(ascii "id",.string did),
  (ascii "verificationMethod",.array [method signingId signingText,method agreementId agreementText]),
  (ascii "assertionMethod",.array [.string signingId]),(ascii "keyAgreement",.array [.string agreementId])]

def bundle : DidSecretsBundle := ⟨did,[signingEntry,agreementEntry]⟩
-- The signing id twice, the second time with another key.
def twice : DidSecretsBundle := ⟨did,[signingEntry,otherEntry,agreementEntry]⟩

def policy : SigningPolicy := .fresh 86400 0

theorem doc_distinct : ∀ name ∈ [ascii "assertionMethod",ascii "keyAgreement"],
    (methodIds (sdk.identity (sdk.identity did)) doc name).Nodup := by decide

theorem signing_listed : .string signingId ∈ listed doc (ascii "assertionMethod") := List.mem_cons_self
theorem agreement_listed : .string agreementId ∈ listed doc (ascii "keyAgreement") := List.mem_cons_self

end SampleVta

open SampleVta in
theorem reconcile_sample : Settles [signingSecret,agreementSecret] (Held sdk bundle none doc [signingSecret,agreementSecret])
    (reconcile sdk bundle none doc ∅ policy) :=
  reconcile_exact ∅ policy rfl doc_distinct

-- Every key exported counts, also one whose id is exported again.
def AnyOffered (sdk : Sdk) (fetched : DidSecretsBundle) (held : Option BridgeIdentity) (doc : Value) (exported : List Secret) (s : Secret) : Prop :=
  (s ∈ exported ∨ (∀ t ∈ exported, t.id ≠ s.id) ∧ s ∈ heldSecrets sdk held (sdk.identity fetched.did)) ∧
    sdk.identity fetched.did ++ ascii "#" <+: s.id ∧ Vouches sdk (sdk.identity (sdk.identity fetched.did)) doc s

-- The second key under the id takes the first's place, and no listed key is left to sign.
open SampleVta in
theorem reconcile_twice : ¬ ∀ (sdk : Sdk) (fetched : DidSecretsBundle) (held : Option BridgeIdentity) (doc : Value) (exported : List Secret)
    (created : Table Bytes Int) (policy : SigningPolicy), sdk.secretsFromBundle fetched = .ok exported →
    (∀ name ∈ [ascii "assertionMethod",ascii "keyAgreement"],
      (methodIds (sdk.identity (sdk.identity fetched.did)) doc name).Nodup) →
    Settles exported (AnyOffered sdk fetched held doc exported) (reconcile sdk fetched held doc created policy) := by
  intro always
  have claimed := always sdk twice none doc [signingSecret,otherSecret,agreementSecret] ∅ policy rfl doc_distinct
  have refused : (match reconcile sdk twice none doc ∅ policy with
    | .ok _ => false
    | .error _ => true) = true := by decide
  have signs : AnyOffered sdk twice none doc [signingSecret,otherSecret,agreementSecret] signingSecret := by
    refine ⟨.inl (by simp),List.isPrefixOf_iff_prefix.mp (by decide),?_⟩
    exact ⟨.string signingId,signing_listed,.inl ⟨signingId,rfl,by decide,method signingId signingText,
      List.mem_cons_self,by decide⟩⟩
  have agrees : AnyOffered sdk twice none doc [signingSecret,otherSecret,agreementSecret] agreementSecret := by
    refine ⟨.inl (by simp),List.isPrefixOf_iff_prefix.mp (by decide),?_⟩
    exact ⟨.string agreementId,agreement_listed,.inl ⟨agreementId,rfl,by decide,method agreementId agreementText,
      List.mem_cons_of_mem _ List.mem_cons_self,by decide⟩⟩
  cases answer : reconcile sdk twice none doc ∅ policy with
  | ok both =>
    rw [answer] at refused
    cases refused
  | error e =>
    rw [answer] at claimed
    exact claimed ⟨⟨signingSecret,signs,rfl,by simp⟩,agreementSecret,agrees,rfl⟩

end VerifiableGit.Rotation
