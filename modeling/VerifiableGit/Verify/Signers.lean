import Mathlib.Data.List.Dedup
import VerifiableGit.Commit.Unsigned
import VerifiableGit.Verify.SignGuard

-- The first pass over a range: the signers it claims, before any is resolved.
namespace VerifiableGit.Verify
open Text Commit

section
variable (scid : Scid)

def claims (commits : List RangeCommit) : List Bytes :=
  (commits.filter fun commit => (conflictingSignerDids scid commit.raw).isNone).filterMap fun commit =>
    signerDid scid commit.raw

-- The set, in the order of a `BTreeSet`.
def distinct (dids : List Bytes) : List Bytes := dids.dedup.mergeSort fun a b => a ≤ b

def claimedSignerDids (commits : List RangeCommit) (maxSigners : Nat) : Except Bytes (List Bytes) :=
  let dids := distinct (claims scid commits)
  if maxSigners < dids.length then
    .error (ascii "range claims " ++ ascii (toString dids.length) ++ ascii " distinct signer DIDs, over the limit of " ++
      ascii (toString maxSigners) ++ ascii ("; each costs a resolution to a host the commit's author chose. Raise " ++
        "--max-signers only if this range is legitimately that wide."))
  else .ok dids

theorem mem_distinct (dids : List Bytes) : did ∈ distinct dids ↔ did ∈ dids :=
  List.mem_mergeSort.trans List.mem_dedup

theorem distinct_nodup (dids : List Bytes) : (distinct dids).Nodup :=
  (List.mergeSort_perm _ _).nodup_iff.mpr (List.nodup_dedup dids)

theorem mem_claims {commits : List RangeCommit} (commit : RangeCommit) (member : commit ∈ commits)
    (agreed : conflictingSignerDids scid commit.raw = none) (claimed : signerDid scid commit.raw = some did) :
    did ∈ claims scid commits :=
  List.mem_filterMap.mpr ⟨commit,List.mem_filter.mpr ⟨member,by rw [agreed]; rfl⟩,claimed⟩

-- What the keys are looked up for was claimed, without a conflict, by the payload.
theorem looked_up_claimed (ssh : SshKey) (debug : Bytes → Bytes) (signers : ResolvedSigners Name)
    (exempt : Option ExemptKeyring) (raw did : Bytes)
    (looked : (checkCommitSignature ssh debug scid signers exempt raw).lookedUp = some did) :
    ∃ payload pem, splitSignedCommit raw = .ok (some (payload,pem)) ∧ conflictingSignerDids scid payload = none ∧
      signerDid scid payload = some did := by
  cases split : splitSignedCommit raw with
  | error e =>
    rw [checkCommitSignature,split] at looked
    cases looked
  | ok parts =>
    cases parts with
    | none =>
      rw [checkCommitSignature,split] at looked
      cases looked
    | some parts =>
      obtain ⟨payload,pem⟩ := parts
      refine ⟨payload,pem,rfl,?_⟩
      by_cases pgp : (ascii "-----BEGIN PGP SIGNATURE-----").isPrefixOf pem = true
      · simp only [checkCommitSignature,split,pgp,if_true] at looked
        split at looked
        · cases looked
        · split at looked <;> cases looked
      · cases parsed : ssh.fromPem (normalizeSshsigArmor pem) with
        | error e =>
          simp only [checkCommitSignature,split,if_neg pgp,parsed] at looked
          cases looked
        | ok sig =>
          cases keyed : signingKey ssh debug sig with
          | error detail =>
            simp only [checkCommitSignature,split,if_neg pgp,parsed,keyed] at looked
            cases looked
          | ok key =>
            rw [looked_up ssh debug scid signers exempt split pgp parsed keyed] at looked
            cases agreed : conflictingSignerDids scid payload with
            | some conflict => rw [agreed] at looked; cases looked
            | none => exact ⟨rfl,by rw [agreed] at looked; exact looked⟩

-- The passes read the same claims, so every signer whose keys the second looks up
-- is one that the first had resolved.
theorem claim_pass_covers (commits : List RangeCommit) (maxSigners : Nat) :
    (∀ raw payload pem, splitSignedCommit raw = .ok (some (payload,pem)) →
      signerDid scid raw = signerDid scid payload ∧
      ((conflictingSignerDids scid raw).isSome ↔ (conflictingSignerDids scid payload).isSome)) ∧
    match claimedSignerDids scid commits maxSigners with
    | .error _ => maxSigners < (distinct (claims scid commits)).length
    | .ok dids => dids.Nodup ∧ dids.length ≤ maxSigners ∧
        ∀ commit ∈ commits, ∀ (ssh : SshKey) (debug : Bytes → Bytes) (signers : ResolvedSigners Name)
          (exempt : Option ExemptKeyring) (did : Bytes),
          (checkCommitSignature ssh debug scid signers exempt commit.raw).lookedUp = some did → did ∈ dids := by
  constructor
  · intro raw payload pem split
    obtain ⟨signer,conflict⟩ := split_claims scid split
    exact ⟨signer,by rw [conflict]⟩
  · unfold claimedSignerDids
    dsimp only
    by_cases wide : maxSigners < (distinct (claims scid commits)).length
    · rw [if_pos wide]
      exact wide
    · rw [if_neg wide]
      refine ⟨distinct_nodup _,Nat.le_of_not_lt wide,fun commit member ssh debug signers exempt did looked => ?_⟩
      obtain ⟨payload,pem,split,agreed,claimed⟩ := looked_up_claimed scid ssh debug signers exempt commit.raw did looked
      obtain ⟨signer,conflict⟩ := split_claims scid split
      exact (mem_distinct _).mpr (mem_claims scid commit member (conflict.trans agreed) (signer.trans claimed))

end

namespace Located

-- A `did:scid` reference with its `?src=` locator, read to the end of it.
def source (reference : Bytes) : Option Bytes :=
  if (ascii "did:scid:").isPrefixOf reference then stripPrefix (ascii "?src=") (reference.dropWhile (· ≠ 63)) else none

def bare (did : Bytes) : Bytes := if (source did).isSome then did.takeWhile (· ≠ 63) else did

def scid : Scid where
  scidSrc := source
  sameReference := fun a b => bare a = bare b
  stripScidSrc := bare

def committed (did : Bytes) : RangeCommit :=
  ⟨[],ascii "tree t\ncommitter A <" ++ did ++ ascii "#key-0> 1 +0000\n\nm"⟩

def range : List RangeCommit :=
  [committed (ascii "did:scid:vh:1:Q?src=a.example"),committed (ascii "did:scid:vh:1:Q")]

-- One signer with and without its locator is resolved under both names.
theorem locator_kept : ∃ dids, claimedSignerDids scid range 32 = .ok dids ∧
    ¬(dids.map (signerIdentity scid)).Nodup := by
  have found : claims scid range = [ascii "did:scid:vh:1:Q?src=a.example",ascii "did:scid:vh:1:Q"] := by decide
  have order := List.mergeSort_perm (claims scid range).dedup fun a b => a ≤ b
  have few : ¬32 < (distinct (claims scid range)).length := by
    rw [distinct,order.length_eq,found]
    decide
  refine ⟨distinct (claims scid range),by rw [claimedSignerDids,if_neg few],?_⟩
  rw [distinct,(order.map (signerIdentity scid)).nodup_iff,found]
  decide

end Located

end VerifiableGit.Verify
