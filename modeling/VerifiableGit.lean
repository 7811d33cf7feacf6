import VerifiableGit.Text
import VerifiableGit.Commit.Split
import VerifiableGit.Commit.Trailer
import VerifiableGit.Commit.GitTrailer
import VerifiableGit.Commit.TrailersAgree
import VerifiableGit.Commit.WhiteSpace
import VerifiableGit.Commit.Signer
import VerifiableGit.Commit.Unsigned
import VerifiableGit.Library.Rounds
import VerifiableGit.Library.Interaction
import VerifiableGit.Library.Table
import VerifiableGit.Library.Walk
import VerifiableGit.Library.Base64
import VerifiableGit.Library.Choice
import VerifiableGit.Library.Occurrences
import VerifiableGit.Library.Removal
import VerifiableGit.Library.Contexts
import VerifiableGit.Library.OrderedMap
import VerifiableGit.Library.Loop
import VerifiableGit.Library.Wildcard
import VerifiableGit.Workflow.Values
import VerifiableGit.Workflow.Render
import VerifiableGit.Workflow.Lines
import VerifiableGit.Workflow.Plan
import VerifiableGit.Workflow.Inert
import VerifiableGit.Workflow.Accepted
import VerifiableGit.Workflow.Exact
import VerifiableGit.Signing.Includes
import VerifiableGit.Signing.Whole
import VerifiableGit.Signing.Sign
import VerifiableGit.Signing.Verified
import VerifiableGit.Forge.ManagedRules
import VerifiableGit.Forge.OwnerRules
import VerifiableGit.Forge.OwnerBlock
import VerifiableGit.Forge.OwnerRound
import VerifiableGit.Forge.OwnerExact
import VerifiableGit.Forge.AllowedActions
import VerifiableGit.Forge.Json
import VerifiableGit.Forge.Ruleset
import VerifiableGit.Forge.RulesetAgrees
import VerifiableGit.Workflow.Steps
import VerifiableGit.Workflow.Ordered
import VerifiableGit.Workflow.Retried
import VerifiableGit.Workflow.Settled
import VerifiableGit.Workflow.Again
import VerifiableGit.Forge.BranchRule
import VerifiableGit.Forge.BranchRuleKept
import VerifiableGit.Bridge.Reconcile
import VerifiableGit.Bridge.Vouched
import VerifiableGit.Governance.Projection
import VerifiableGit.Governance.Requests
import VerifiableGit.Governance.Asked
import VerifiableGit.Governance.Converge
import VerifiableGit.Governance.MergeList
import VerifiableGit.Governance.MergeTurns
import VerifiableGit.Governance.MergeRun
import VerifiableGit.Governance.MergeWrite
import VerifiableGit.Governance.MergeExact
import VerifiableGit.Governance.MergeTogether
import VerifiableGit.Governance.MergeAgain
import VerifiableGit.Governance.MergeKept
import VerifiableGit.Governance.Projected
import VerifiableGit.Verify.Status
import VerifiableGit.Verify.PlatformMerge
import VerifiableGit.Verify.MergeRule
import VerifiableGit.Verify.MergePolicy
import VerifiableGit.Verify.Signature
import VerifiableGit.Verify.SshSig
import VerifiableGit.Verify.Report
import VerifiableGit.Verify.SignGuard
import VerifiableGit.Verify.Signers
import VerifiableGit.Bridge.Remote
import VerifiableGit.Bridge.Host
import VerifiableGit.Bridge.Lease
import VerifiableGit.Bridge.Mirror
import VerifiableGit.Bridge.World
import VerifiableGit.Bridge.PutSealed
import VerifiableGit.Bridge.Clip
import VerifiableGit.Bridge.Replies
import VerifiableGit.Bridge.Isolated
import VerifiableGit.Bridge.Pending
import VerifiableGit.Bridge.Pass
import VerifiableGit.Bridge.Pull
import VerifiableGit.Bridge.Updates
import VerifiableGit.Bridge.Restart
import VerifiableGit.Bridge.Alone
import VerifiableGit.Bridge.Books
import VerifiableGit.Bridge.SingleWriter
import VerifiableGit.Bridge.Rollback
import VerifiableGit.Bridge.Refused
import VerifiableGit.Bridge.SigningPolicy
import VerifiableGit.Forge.CodeOwners
import VerifiableGit.Forge.Protection
import VerifiableGit.Forge.Refresh
import VerifiableGit.Guard.Requests
import VerifiableGit.Guard.Jobs
import VerifiableGit.Guard.Covered
import VerifiableGit.Guard.Rebuilt
import VerifiableGit.Bridge.Writers
import VerifiableGit.Bridge.Turns
import VerifiableGit.Bridge.Exclusive
import VerifiableGit.Bridge.LeaseExact
import VerifiableGit.Resign.Ledger
import VerifiableGit.Resign.Arranged
import VerifiableGit.Resign.Resigned
import VerifiableGit.Verify.DidDocument
import VerifiableGit.Service.Superseded
import VerifiableGit.Forge.Pulls
import VerifiableGit.Forge.RepeatSafe
import VerifiableGit.Resign.Provenance
import VerifiableGit.Resign.Run
import VerifiableGit.Resign.Pushed
import VerifiableGit.Resign.Keys
import VerifiableGit.Qualified.Resource
import VerifiableGit.Qualified.Grammar
import VerifiableGit.Qualified.Select
import VerifiableGit.Verify.Sources
import VerifiableGit.Bridge.Checks
import VerifiableGit.Bridge.CheckRun
import VerifiableGit.Bridge.CheckVerified
import VerifiableGit.Governance.Records
import VerifiableGit.Governance.Roles
import VerifiableGit.Governance.Model
import VerifiableGit.Governance.Detach
import VerifiableGit.Governance.Inspect
import VerifiableGit.Governance.Events
import VerifiableGit.Governance.Outside
import VerifiableGit.Governance.Scoped
import VerifiableGit.Governance.Jobs
import VerifiableGit.Governance.Belonging
import VerifiableGit.Governance.RoleHistory
import VerifiableGit.Governance.RoleMaps
import VerifiableGit.Governance.Staleness
import VerifiableGit.Governance.Drift
import VerifiableGit.Library.Crew
import VerifiableGit.Library.Heeds
import VerifiableGit.Library.Locks
import VerifiableGit.Service.Records
import VerifiableGit.Service.Requests
import VerifiableGit.Service.Bridge
import VerifiableGit.Service.Namespaces
import VerifiableGit.Service.Flows
import VerifiableGit.Service.Inbound
import VerifiableGit.Service.Effects
import VerifiableGit.Service.Tracks
import VerifiableGit.Service.Backed
import VerifiableGit.Service.Rules
import VerifiableGit.Service.Handlers
import VerifiableGit.Service.Filed
import VerifiableGit.Service.Outbox
import VerifiableGit.Service.Terminal
import VerifiableGit.Service.Waiting
import VerifiableGit.Service.Retired
import VerifiableGit.Service.OneOwner
import VerifiableGit.Service.Silent
