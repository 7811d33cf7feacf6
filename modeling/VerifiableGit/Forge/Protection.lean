import VerifiableGit.Text

-- A branch protection rule as Forgejo's API has it (vgi-forge-forgejo, forge.rs).
-- Its texts are lists of bytes, or of characters where they are read as such.
namespace VerifiableGit.Api

-- Who may push, and which files nobody may touch.
structure PushSettings (α : Type) where
  enablePush : Bool := false
  enablePushWhitelist : Bool := false
  pushWhitelistUsernames : List (List α) := []
  pushWhitelistTeams : List (List α) := []
  pushWhitelistDeployKeys : Bool := false
  protectedFilePatterns : List α := []
deriving DecidableEq

structure ProtectionJson (α : Type) extends PushSettings α where
  ruleName : Option (List α) := none
  branchName : Option (List α) := none
  enableMergeWhitelist : Bool := false
  mergeWhitelistUsernames : List (List α) := []
  mergeWhitelistTeams : List (List α) := []
  enableStatusCheck : Bool := false
  statusCheckContexts : List (List α) := []
  unprotectedFilePatterns : List α := []
  -- Absent on an instance without the setting.
  applyToAdmins : Option Bool := none
  -- Gitea 1.23 and later.
  enableForcePush : Option Bool := none
  requiredApprovals : Option Int := none
  dismissStaleApprovals : Option Bool := none
deriving DecidableEq

section
variable {α : Type}

def ProtectionJson.name (rule : ProtectionJson α) : Option (List α) :=
  (rule.ruleName.filter fun n => !n.isEmpty).or rule.branchName

-- The pattern list as Forgejo compiles it: cut at the semicolons, each piece
-- trimmed and lowered, the empty ones dropped.
def patterns [DecidableEq α] (semicolon : α) (compiled : List α → List α) (text : List α) : List (List α) :=
  ((text.splitOn semicolon).map compiled).filter (· ≠ [])

end

end VerifiableGit.Api
