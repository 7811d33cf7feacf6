import VerifiableGit.Library.Distinct
import VerifiableGit.Verify.Signature

-- The keys a DID document authorizes for signing (vgi-core, did.rs).
namespace VerifiableGit.Did
open Text Verify
open Library (firsts pushNew firsts_of firstsOf_unique filterMap_take FirstsOf)

-- A `serde_json::Value`.
inductive Value where
  | null
  | bool (value : Bool)
  | number (text : Bytes)
  | string (text : Bytes)
  | array (items : List Value)
  | object (fields : List (Bytes × Value))

def Value.get (value : Value) (key : Bytes) : Option Value :=
  match value with
  | .object fields => (fields.find? fun field => field.1 = key).map Prod.snd
  | _ => none

def Value.asStr : Value → Option Bytes
  | .string text => some text
  | _ => none

def Value.asArray : Value → Option (List Value)
  | .array items => some items
  | _ => none

def ed25519MulticodecPrefix : Bytes := [0xED,0x01]
def p256MulticodecPrefix : Bytes := [0x80,0x24]

def documentId (doc : Value) : Bytes := ((doc.get (ascii "id")).bind Value.asStr).getD []

def absolute (did id : Bytes) : Bytes := if [35].isPrefixOf id then did ++ id else id

def listed (doc : Value) (key : Bytes) : List Value := ((doc.get key).bind Value.asArray).getD []

def verificationMethods (doc : Value) : List Value := listed doc (ascii "verificationMethod")
def assertionMethods (doc : Value) : List Value := listed doc (ascii "assertionMethod")

def Value.methodId (method : Value) (did : Bytes) : Option Bytes :=
  ((method.get (ascii "id")).bind Value.asStr).map (absolute did)

def keyOf (bytes : Bytes) : Option PublishedKey :=
  match stripPrefix ed25519MulticodecPrefix bytes with
  | some raw => if long : raw.length = 32 then some (.ed25519 ⟨raw,long⟩) else none
  | none =>
    match stripPrefix p256MulticodecPrefix bytes with
    | none => none
    | some raw =>
      if long : raw.length = 33 then
        if raw.head? = some 2 ∨ raw.head? = some 3 then some (.p256 ⟨raw,long⟩) else none
      else none

-- `decode` is `multibase::decode`, less the base.
section
variable (decode : Bytes → Option Bytes)

def ownKey (did : Bytes) (method : Value) : Option PublishedKey :=
  if (method.get (ascii "controller")).any (fun controller => controller.asStr ≠ some did) then none
  else
    match (method.get (ascii "publicKeyMultibase")).bind Value.asStr with
    | none => none
    | some encoded => (decode encoded).bind keyOf

def entryKey (doc entry : Value) : Option PublishedKey :=
  let did := documentId doc
  match entry with
  | .string reference =>
    let id := absolute did reference
    ((verificationMethods doc).find? fun method => method.methodId did = some id).bind (ownKey decode did)
  | embedded => ownKey decode did embedded

def signingKeysFromDoc (doc : Value) : List PublishedKey :=
  (assertionMethods doc).foldl
    (fun keys entry =>
      match entryKey decode doc entry with
      | some key => if key ∈ keys then keys else keys ++ [key]
      | none => keys) []

/-! What the document vouches for -/

-- The method an entry of `assertionMethod` stands for.
inductive StandsFor (doc : Value) : Value → Value → Prop where
  | embedded (own : ∀ reference, entry ≠ .string reference) : StandsFor doc entry entry
  | reference (split : verificationMethods doc = before ++ method :: after)
      (same : method.methodId (documentId doc) = some (absolute (documentId doc) reference))
      (first : ∀ earlier ∈ before, earlier.methodId (documentId doc) ≠ some (absolute (documentId doc) reference)) :
      StandsFor doc (.string reference) method

inductive Encodes : Bytes → PublishedKey → Prop where
  | ed25519 (key : {key : Bytes // key.length = 32}) : Encodes (ed25519MulticodecPrefix ++ key.val) (.ed25519 key)
  | p256 (key : {key : Bytes // key.length = 33}) (compressed : key.val.head? = some 2 ∨ key.val.head? = some 3) :
      Encodes (p256MulticodecPrefix ++ key.val) (.p256 key)

structure OwnKey (did : Bytes) (method : Value) (key : PublishedKey) : Prop where
  controller : ∀ controller, method.get (ascii "controller") = some controller → controller = .string did
  encoded : ∃ encoded bytes, method.get (ascii "publicKeyMultibase") = some (.string encoded) ∧
    decode encoded = some bytes ∧ Encodes bytes key

def Vouches (doc entry : Value) (key : PublishedKey) : Prop :=
  ∃ method, StandsFor doc entry method ∧ OwnKey decode (documentId doc) method key

-- The keys vouched for, each once, and however far one reads the entries, those
-- of the entries read come first.
structure Authorized (doc : Value) (keys : List PublishedKey) : Prop where
  nodup : keys.Nodup
  vouched : ∀ key, key ∈ keys ↔ ∃ entry ∈ assertionMethods doc, Vouches decode doc entry key
  order : ∀ n, ∃ front, front <+: keys ∧
    ∀ key, key ∈ front ↔ ∃ entry ∈ (assertionMethods doc).take n, Vouches decode doc entry key

end

-- A method some entry of `assertionMethod` refers to.
def referenced (doc method : Value) : Bool :=
  (assertionMethods doc).any fun entry =>
    match entry with
    | .string reference => method.methodId (documentId doc) = some (absolute (documentId doc) reference)
    | _ => false

-- Two documents with one id and one `assertionMethod`, and the same methods among
-- those it refers to, in the same order. Everything else may differ.
structure SameReferenced (doc other : Value) : Prop where
  id : other.get (ascii "id") = doc.get (ascii "id")
  assertion : other.get (ascii "assertionMethod") = doc.get (ascii "assertionMethod")
  methods : (verificationMethods other).filter (referenced other) = (verificationMethods doc).filter (referenced doc)

theorem asStr_some {value : Value} : value.asStr = some text ↔ value = .string text := by
  cases value <;> simp [Value.asStr]

theorem keyOf_encodes (bytes : Bytes) (key : PublishedKey) : keyOf bytes = some key ↔ Encodes bytes key := by
  constructor
  · intro found
    unfold keyOf at found
    split at found
    · rename_i raw ed
      split at found
      · rename_i long
        cases found
        rw [stripPrefix_some.mp ed]
        exact .ed25519 ⟨raw,long⟩
      · cases found
    · split at found
      · cases found
      · rename_i raw p256
        split at found
        · rename_i long
          split at found
          · rename_i compressed
            cases found
            rw [stripPrefix_some.mp p256]
            exact .p256 ⟨raw,long⟩ compressed
          · cases found
        · cases found
  · intro encodes
    cases encodes with
    | ed25519 key =>
      unfold keyOf
      rw [stripPrefix_append]
      exact dif_pos key.property
    | p256 key compressed =>
      have other : stripPrefix ed25519MulticodecPrefix (p256MulticodecPrefix ++ key.val) = none := rfl
      unfold keyOf
      rw [other,stripPrefix_append]
      dsimp only
      rw [dif_pos key.property,if_pos compressed]

section
variable (decode : Bytes → Option Bytes)

theorem ownKey_exact (did : Bytes) (method : Value) (key : PublishedKey) :
    ownKey decode did method = some key ↔ OwnKey decode did method key := by
  unfold ownKey
  by_cases foreign : (method.get (ascii "controller")).any (fun controller => controller.asStr ≠ some did) = true
  · rw [if_pos foreign]
    refine ⟨fun found => (nomatch found),fun own => ?_⟩
    cases named : method.get (ascii "controller") with
    | none =>
      rw [named] at foreign
      cases foreign
    | some controller =>
      rw [named,own.controller controller named] at foreign
      exact absurd rfl (of_decide_eq_true foreign)
  · rw [if_neg foreign]
    have own : ∀ controller, method.get (ascii "controller") = some controller → controller = .string did := by
      intro controller named
      by_contra other
      rw [named] at foreign
      exact foreign (decide_eq_true fun same => other (asStr_some.mp same))
    constructor
    · intro found
      split at found
      · cases found
      · rename_i encoded read
        obtain ⟨value,present,text⟩ := Option.bind_eq_some_iff.mp read
        obtain ⟨bytes,decoded,carried⟩ := Option.bind_eq_some_iff.mp found
        rw [asStr_some.mp text] at present
        exact ⟨own,encoded,bytes,present,decoded,(keyOf_encodes bytes key).mp carried⟩
    · rintro ⟨_,encoded,bytes,present,decoded,carried⟩
      rw [present]
      dsimp only [Option.bind_some,Value.asStr]
      rw [decoded]
      exact (keyOf_encodes bytes key).mpr carried

-- The method found for a reference is the one it stands for.
theorem find_standsFor (doc : Value) (reference : Bytes) (method : Value) :
    (verificationMethods doc).find? (fun method =>
      method.methodId (documentId doc) = some (absolute (documentId doc) reference)) = some method ↔
      StandsFor doc (.string reference) method := by
  rw [List.find?_eq_some_iff_append]
  constructor
  · rintro ⟨same,before,after,split,first⟩
    refine .reference split (of_decide_eq_true same) fun earlier member other => ?_
    have missed := first earlier member
    rw [decide_eq_true other] at missed
    cases missed
  · intro stands
    cases stands with
    | embedded own => exact absurd rfl (own reference)
    | reference split same first =>
      refine ⟨decide_eq_true same,_,_,split,fun earlier member => ?_⟩
      rw [decide_eq_false (first earlier member)]
      rfl

theorem entryKey_exact (doc entry : Value) (key : PublishedKey) :
    entryKey decode doc entry = some key ↔ Vouches decode doc entry key := by
  have embedded (own : ∀ reference, entry ≠ .string reference) :
      ownKey decode (documentId doc) entry = some key ↔ Vouches decode doc entry key := by
    rw [ownKey_exact]
    constructor
    · exact fun held => ⟨entry,.embedded own,held⟩
    · rintro ⟨method,stands,held⟩
      cases stands with
      | embedded _ => exact held
      | reference _ _ _ => exact absurd rfl (own _)
  cases entry with
  | string reference =>
    unfold entryKey
    dsimp only
    rw [Option.bind_eq_some_iff]
    refine exists_congr fun method => ?_
    rw [find_standsFor,ownKey_exact]
  | null => exact embedded fun _ => nofun
  | bool _ => exact embedded fun _ => nofun
  | number _ => exact embedded fun _ => nofun
  | array _ => exact embedded fun _ => nofun
  | object _ => exact embedded fun _ => nofun

theorem keys_firsts (doc : Value) :
    signingKeysFromDoc decode doc = firsts ((assertionMethods doc).filterMap (entryKey decode doc)) := by
  rw [firsts,List.foldl_filterMap,signingKeysFromDoc]
  refine congrArg (fun step => (assertionMethods doc).foldl step []) (funext fun keys => funext fun entry => ?_)
  cases entryKey decode doc entry <;> rfl

theorem mem_vouched (doc : Value) (entries : List Value) (key : PublishedKey) :
    key ∈ entries.filterMap (entryKey decode doc) ↔ ∃ entry ∈ entries, Vouches decode doc entry key := by
  rw [List.mem_filterMap]
  exact exists_congr fun entry => and_congr_right fun _ => entryKey_exact decode doc entry key

theorem firstsOf_authorized (doc : Value) (keys : List PublishedKey) :
    FirstsOf ((assertionMethods doc).filterMap (entryKey decode doc)) keys ↔ Authorized decode doc keys := by
  constructor
  · rintro ⟨nodup,member,order⟩
    refine ⟨nodup,fun key => (member key).trans (mem_vouched decode doc _ key),fun n => ?_⟩
    have start := List.take_append_drop n (assertionMethods doc)
    obtain ⟨front,before,members⟩ := order (((assertionMethods doc).take n).filterMap (entryKey decode doc)).length
    refine ⟨front,before,fun key => (members key).trans ?_⟩
    rw [← mem_vouched]
    have cut : ((assertionMethods doc).filterMap (entryKey decode doc)).take
        (((assertionMethods doc).take n).filterMap (entryKey decode doc)).length =
        ((assertionMethods doc).take n).filterMap (entryKey decode doc) := by
      have whole : ((assertionMethods doc).take n ++ (assertionMethods doc).drop n).filterMap (entryKey decode doc) = _ :=
        List.filterMap_append
      rw [start] at whole
      rw [whole,List.take_left]
    rw [cut]
  · rintro ⟨nodup,member,order⟩
    refine ⟨nodup,fun key => (member key).trans (mem_vouched decode doc _ key).symm,fun n => ?_⟩
    obtain ⟨m,same⟩ := filterMap_take (entryKey decode doc) (assertionMethods doc) n
    obtain ⟨front,before,members⟩ := order m
    refine ⟨front,before,fun key => (members key).trans ?_⟩
    rw [← same]
    exact (mem_vouched decode doc _ key).symm

theorem keys_authorized (doc : Value) (keys : List PublishedKey) :
    signingKeysFromDoc decode doc = keys ↔ Authorized decode doc keys := by
  rw [← firstsOf_authorized,keys_firsts]
  constructor
  · rintro rfl
    exact firsts_of _
  · exact fun holds => (firstsOf_unique _ keys holds).symm

theorem keys_referenced (doc other : Value) (same : SameReferenced doc other) :
    signingKeysFromDoc decode other = signingKeysFromDoc decode doc := by
  have id : documentId other = documentId doc := by rw [documentId,same.id,documentId]
  have entries : assertionMethods other = assertionMethods doc := by
    rw [assertionMethods,listed,same.assertion,assertionMethods,listed]
  have found (doc : Value) (reference : Bytes) (member : .string reference ∈ assertionMethods doc) :
      (verificationMethods doc).find? (fun method =>
        method.methodId (documentId doc) = some (absolute (documentId doc) reference)) =
      ((verificationMethods doc).filter (referenced doc)).find? (fun method =>
        method.methodId (documentId doc) = some (absolute (documentId doc) reference)) := by
    rw [List.find?_filter]
    refine congrArg (fun test => (verificationMethods doc).find? test) (funext fun method => ?_)
    by_cases named : method.methodId (documentId doc) = some (absolute (documentId doc) reference)
    · have counts : referenced doc method = true :=
        List.any_eq_true.mpr ⟨.string reference,member,decide_eq_true named⟩
      rw [decide_eq_true named]
      exact (decide_eq_true ⟨counts,rfl⟩).symm
    · rw [decide_eq_false named]
      exact (decide_eq_false fun both => Bool.false_ne_true both.2).symm
  rw [keys_firsts,keys_firsts,entries]
  refine congrArg firsts (List.filterMap_congr fun entry member => ?_)
  cases entry with
  | string reference =>
    have left := found other reference (entries ▸ member)
    have right := found doc reference member
    unfold entryKey
    dsimp only
    rw [left,right,same.methods,id]
  | null => exact congrArg (ownKey decode · .null) id
  | bool b => exact congrArg (ownKey decode · (.bool b)) id
  | number text => exact congrArg (ownKey decode · (.number text)) id
  | array items => exact congrArg (ownKey decode · (.array items)) id
  | object fields => exact congrArg (ownKey decode · (.object fields)) id

theorem referenced_same (doc other : Value) (id : other.get (ascii "id") = doc.get (ascii "id"))
    (assertion : other.get (ascii "assertionMethod") = doc.get (ascii "assertionMethod")) :
    referenced other = referenced doc := by
  have did : documentId other = documentId doc := by rw [documentId,id,documentId]
  have entries : assertionMethods other = assertionMethods doc := by
    rw [assertionMethods,listed,assertion,assertionMethods,listed]
  funext method
  rw [referenced,entries,did,referenced]

-- One more method that nothing refers to.
theorem inserted_same {doc other method : Value} {before after : List Value}
    (id : other.get (ascii "id") = doc.get (ascii "id"))
    (assertion : other.get (ascii "assertionMethod") = doc.get (ascii "assertionMethod"))
    (without : verificationMethods doc = before ++ after) (with_ : verificationMethods other = before ++ method :: after)
    (unread : referenced doc method = false) : SameReferenced doc other := by
  refine ⟨id,assertion,?_⟩
  rw [referenced_same doc other id assertion,without,with_,List.filter_append,List.filter_append,
    List.filter_cons_of_neg (by rw [unread]; exact Bool.false_ne_true)]

-- What is read from a document is what it vouches for, and nothing else of it counts:
-- a method that nothing refers to may come or go.
theorem signing_keys_exact :
    (∀ doc keys, signingKeysFromDoc decode doc = keys ↔ Authorized decode doc keys) ∧
    (∀ doc other, SameReferenced doc other → signingKeysFromDoc decode other = signingKeysFromDoc decode doc) ∧
    ∀ doc other method before after, other.get (ascii "id") = doc.get (ascii "id") →
      other.get (ascii "assertionMethod") = doc.get (ascii "assertionMethod") →
      verificationMethods doc = before ++ after → verificationMethods other = before ++ method :: after →
      referenced doc method = false → signingKeysFromDoc decode other = signingKeysFromDoc decode doc :=
  ⟨keys_authorized decode,keys_referenced decode,fun doc other _ _ _ id assertion without with_ unread =>
    keys_referenced decode doc other (inserted_same id assertion without with_ unread)⟩

end

namespace Sample

def key : {key : Bytes // key.length = 32} := ⟨List.replicate 32 7,by decide⟩

def decode (text : Bytes) : Option Bytes := if text = ascii "z7" then some (ed25519MulticodecPrefix ++ key.val) else none

def method (id : Bytes) : Value :=
  .object [(ascii "id",.string id),(ascii "controller",.string (ascii "did:a")),(ascii "publicKeyMultibase",.string (ascii "z7"))]

def document (methods : List Value) : Value :=
  .object [(ascii "id",.string (ascii "did:a")),(ascii "verificationMethod",.array methods),
    (ascii "assertionMethod",.array [.string (ascii "#k"),.string (ascii "did:a#k"),.string (ascii "#x")])]

end Sample

-- A recovery key beside the one that signs.
theorem signing_keys_exact_sample : Authorized Sample.decode (Sample.document [Sample.method (ascii "did:a#k")])
      [.ed25519 Sample.key] ∧
    signingKeysFromDoc Sample.decode (Sample.document [Sample.method (ascii "#r"),Sample.method (ascii "did:a#k")]) =
      signingKeysFromDoc Sample.decode (Sample.document [Sample.method (ascii "did:a#k")]) := by
  obtain ⟨exact_,_,inserted⟩ := signing_keys_exact Sample.decode
  refine ⟨(exact_ _ _).mp (by decide),?_⟩
  exact inserted _ _ (Sample.method (ascii "#r")) [] [Sample.method (ascii "did:a#k")] rfl rfl rfl rfl (by decide)

end VerifiableGit.Did
