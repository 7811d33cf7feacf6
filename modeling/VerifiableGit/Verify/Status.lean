import VerifiableGit.Text

-- The verdicts of verify-trust (lib.rs).
namespace VerifiableGit.Verify
open Text

structure RangeCommit where
  sha : Bytes
  raw : Bytes
deriving DecidableEq

inductive CommitStatus where
  | unsigned
  | malformed (detail : Bytes)
  | noSignerDid (committer : Bytes)
  | conflictingSignerDids (trailer committer : Bytes)
  | unresolvedSigner (did error : Bytes)
  | unknownKey (did fingerprint : Bytes)
  | badSignature (signerDid : Bytes)
  | unauthorized (signerDid : Bytes)
  | registryUnavailable (signerDid error : Bytes)
  | pgpRejected (detail : Bytes)
  | platformSignedEdit (fingerprint : Bytes)
  | platformMergeUnverifiedParent (fingerprint parent : Bytes)
  | platformMergeAltered (fingerprint detail : Bytes)
  | exempt (fingerprint : Bytes)
  | trusted (signerDid resource : Bytes)
deriving DecidableEq

def CommitStatus.isTrusted : CommitStatus → Bool
  | .trusted _ _ => true
  | _ => false

def CommitStatus.isExempt : CommitStatus → Bool
  | .exempt _ => true
  | _ => false

def CommitStatus.passes (status : CommitStatus) : Bool := status.isTrusted || status.isExempt

theorem trusted_exempt {status : CommitStatus} (trusted : status.isTrusted = true) :
    status.isExempt = false := by
  cases status with
  | trusted => rfl
  | _ => cases trusted

structure CommitVerdict where
  sha : Bytes
  status : CommitStatus
deriving DecidableEq

end VerifiableGit.Verify
