import VerifiableGit.Governance.Roles

-- A repository on its forge and in the VTC's projection (vgi-forge, model.rs and
-- event.rs).
namespace VerifiableGit.Governance
open Text

inductive Visibility where
  | public_ | private_ | internal
deriving DecidableEq

inductive MergeMethod where
  | fastForward | mergeCommit | rebase | rebaseMerge | squash
deriving DecidableEq

inductive ProtectionGap where
  | missing
  | notEnforced
  | defaultBranchNotCovered
  | pullRequestNotRequired
  | checkNotRequired (check : Bytes)
  | forcePushAllowed
  | deletionAllowed
  | bypassActors (actors : List Bytes)
  | checkSourceUnprotected (detail : Bytes)
  | unprotectedPaths (paths : List Bytes)
  | mergeMethodAllowed (method : MergeMethod)
  | ciDisabled
  | approvalsBelow (required observed : UInt8)
deriving DecidableEq

-- How the forge protects the default branch.
structure ProtectionState where
  present : Bool := false
  enforced : Bool := false
  coversDefaultBranch : Bool := false
  requiresPullRequest : Bool := false
  requiredChecks : List Bytes := []
  blocksForcePush : Bool := false
  blocksDeletion : Bool := false
  bypassActors : List Bytes := []
  otherGaps : List ProtectionGap := []
  requiredApprovals : UInt8 := 0

-- A repository as the forge shows it.
structure RepoState where
  resource : Resource
  forgeId : Nat
  visibility : Visibility := .public_
  archived : Bool := false
  collaborators : List Collaborator := []
  protection : ProtectionState := {}

-- A repository as the VTC wants it.
structure Projection where
  resource : Resource
  forgeId : Option Nat := none
  roles : List RoleAssignment := []
  owners : List ForgeAccount := []
  requiredCheck : Option Bytes := none
  archived : Bool := false
  visibility : Option Visibility := none
  requiredApprovals : UInt8 := 0
deriving DecidableEq

end VerifiableGit.Governance
