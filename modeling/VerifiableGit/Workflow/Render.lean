import VerifiableGit.Workflow.Values

-- The workflow files, as the lines of their templates with the values written in
-- (plan.rs of both adapters; vgi-forge, bootstrap.rs).
namespace VerifiableGit.Workflow
open Qualified (Str text)

-- A normalised, forge-qualified path (vgi-forge, resource.rs).
structure Resource where
  path : Str
  normal : Qualified.normalizeResource path = .ok path

def Resource.host (r : Resource) : Str := (r.path.splitOn '/').headD []

def Resource.isNamespace (r : Resource) : Bool := (r.path.splitOn '/').tail.length = 1

inductive VerifyTransport where
  | auto | tsp | didcomm | https
deriving DecidableEq

def VerifyTransport.asStr : VerifyTransport → Str
  | .auto => text "auto"
  | .tsp => text "tsp"
  | .didcomm => text "didcomm"
  | .https => text "https"

structure ExtraFile where
  path : Str
  contents : List UInt8

structure VgiConfig where
  trustRegistryDid : Str
  vtcDid : Str
  verifyTrustAction : Str
  verifyTrustVersion : Str
  verifyTrustSha256 : Option Str := none
  requiredCheck : Str
  platformKeyring : Option (List UInt8) := none
  extraFiles : List ExtraFile := []
  verifyTrustTransport : VerifyTransport := .auto
  requiredApprovals : Nat := 0

def yamlSingleQuoted (s : Str) : Str := quote :: (s.flatMap fun c => if c = quote then [quote,quote] else [c]) ++ [quote]

-- How a value is written in.
inductive Style where
  | plain | single | double

def Style.inlined : Style → Str → Str
  | .plain,v => v
  | .single,v => yamlSingleQuoted v
  | .double,v => doubleQuote :: v ++ [doubleQuote]

-- A line of a template, without and with a value; a line of the keyring.
inductive Line where
  | fixed (line : Str)
  | filled (before : Str) (style : Style) (value after : Str)
  | embedded (line : Str)

def indent : Str := text "            "

def Line.written : Line → Str
  | .fixed line => line
  | .filled before style value after => before ++ style.inlined value ++ after
  | .embedded line => if line.isEmpty then [] else indent ++ line

def print (file : List Line) : Str := file.flatMap fun line => line.written ++ [newline]

def fixed (s : String) : Line := .fixed (text s)

def filled (before : String) (style : Style) (value : Str) : Line := .filled (text before) style value []

-- `VerifyTransport::workflow_input_line`
def transportLine (t : VerifyTransport) : List Line :=
  if t = .auto then [] else [filled "          transport: " .plain t.asStr]

-- `fallback_resource`
def fallbackLine (repo : Resource) : Line :=
  .filled (text "          fallback-resource: ") .plain repo.host (text "/$\x7b\x7b github.repository_owner \x7d\x7d")

-- `str::lines`
def linesOf : Str → List Str
  | [] => []
  | c :: rest =>
    if c = newline then [] :: linesOf rest
    else if c = carriageReturn ∧ rest.head? = some newline then linesOf rest
    else
      match linesOf rest with
      | [] => [[c]]
      | line :: more => (c :: line) :: more

namespace GitHub

def workflowPath : Str := text ".github/workflows/verify-trust.yml"
def keyringPath : Str := text ".github/trusted-platform-keys.asc"
def orgRulesetName : Str := text "VGI required workflow"

def header : List Line := [
  fixed "name: verify-trust",
  fixed "",
  fixed "on:",
  fixed "  pull_request:"]

def job (cfg : VgiConfig) (checkout : Str) : List Line := [
  fixed "  merge_group:",
  fixed "",
  fixed "# Reads the repository and downloads a public release; writes nothing.",
  fixed "permissions:",
  fixed "  contents: read",
  fixed "",
  fixed "jobs:",
  fixed "  verify:",
  filled "    name: " .single cfg.requiredCheck,
  fixed "    runs-on: ubuntu-latest",
  fixed "    steps:",
  filled "      - uses: " .plain checkout,
  fixed "        with:",
  fixed "          # The base ref must be present so `origin/<base>..HEAD` resolves.",
  fixed "          fetch-depth: 0",
  fixed "          persist-credentials: false",
  fixed ""]

def verify (cfg : VgiConfig) : List Line := [
  fixed "      - name: verify-trust",
  filled "        uses: " .plain cfg.verifyTrustAction,
  fixed "        with:",
  fixed "          # merge_group events have no base_ref; the queue names its base",
  fixed "          # commit instead.",
  fixed ("          range: $\x7b\x7b github.event_name == 'merge_group' && github.event.merge_group.base_sha || " ++
    "format('origin/\x7b0\x7d', github.base_ref) \x7d\x7d..HEAD")]

def identities (cfg : VgiConfig) : List Line := [
  filled "          registry-did: " .single cfg.trustRegistryDid,
  filled "          vtc-did: " .single cfg.vtcDid] ++
  transportLine cfg.verifyTrustTransport ++ [
  fixed "          resource-format: qualified"]

def fallbackBlock (repo : Resource) : List Line := [
  fixed "          # The namespace: where the VTC publishes namespace-wide commit rights.",
  fallbackLine repo]

-- The file of `render_workflow`.
def workflow (cfg : VgiConfig) (checkout : Str) (repo : Resource) : List Line := [
  fixed "# Managed by this community's VGI bridge. It is rewritten on bootstrap;",
  fixed "# propose changes to the VTC rather than editing it here."] ++
  header ++ [
  fixed "  # A merge queue runs required checks on its own merge commits; without",
  fixed "  # this trigger the check never reports there and queued merges stall."] ++
  job cfg checkout ++
  verify cfg ++ [
  fixed "          # Literals, not `vars.*`: repository variables are any",
  fixed "          # repository admin's to change."] ++
  identities cfg ++
  fallbackBlock repo ++ [
  fixed "          # GitHub web-UI merge/squash commits are PGP-signed by web-flow;",
  fixed "          # they pass only via this committed keyring.",
  .fixed (text "          exempt-keyring: " ++ keyringPath),
  filled "          version: " .plain cfg.verifyTrustVersion]

-- The file of `render_required_workflow`.
def requiredWorkflow (cfg : VgiConfig) (checkout : Str) (repo : Resource) (keyring : Str) : List Line := [
  fixed "# Managed by this community's VGI bridge, and required on the community's",
  .fixed (text "# repositories by the org ruleset \"" ++ orgRulesetName ++ text "\" at a pinned commit. A change"),
  fixed "# here takes effect only when the bridge pins it; propose changes to the VTC."] ++
  header ++ [
  fixed "  # A merge queue runs required workflows on its own merge commits; without",
  fixed "  # this trigger the check never reports there and queued merges stall."] ++
  job cfg checkout ++ [
  fixed "      # GitHub web-UI merge/squash commits are PGP-signed by web-flow and pass",
  fixed "      # only via this keyring. It is part of this pinned file, not of the",
  fixed "      # repository under test, which a pull request could edit.",
  fixed "      - name: exempt platform keyring",
  fixed "        env:",
  fixed "          VGI_PLATFORM_KEYRING: |"] ++
  (linesOf keyring).map .embedded ++ [
  fixed "        run: printf '%s' \"$VGI_PLATFORM_KEYRING\" > \"$RUNNER_TEMP/vgi-platform-keys.asc\"",
  fixed ""] ++
  verify cfg ++ [
  fixed "          # Literals, not `vars.*`: a repository variable of the same name",
  fixed "          # would override an organisation one."] ++
  identities cfg ++
  fallbackBlock repo ++ [
  fixed "          exempt-keyring: $\x7b\x7b runner.temp \x7d\x7d/vgi-platform-keys.asc",
  filled "          version: " .plain cfg.verifyTrustVersion]

def renderWorkflow (cfg : VgiConfig) (checkout : Str) (repo : Resource) : Str := print (workflow cfg checkout repo)

def renderRequiredWorkflow (cfg : VgiConfig) (checkout : Str) (repo : Resource) (keyring : List UInt8) : Result Str :=
  match fromUtf8 keyring with
  | none => .error (.config (text "platform keyring is not ASCII armor"))
  | some keyring => .ok (print (requiredWorkflow cfg checkout repo keyring))

end GitHub

namespace Forgejo

def workflowPath : Str := text ".forgejo/workflows/verify-trust.yml"
def keyringPath : Str := text ".forgejo/trusted-platform-keys.asc"

-- How merge commits pass the check.
inductive MergePlan where
  | fastForwardOnly
  | signingKey (key : List UInt8)

-- `actions_base` as the URL is written.
structure PlanOptions where
  checkoutAction : Str
  actionsBase : Str
  runsOn : Str
  statusContext : Str
  inlineVariables : Bool
  merges : MergePlan

def identities (cfg : VgiConfig) (opts : PlanOptions) : List Line :=
  if opts.inlineVariables then [
    filled "          registry-did: " .single cfg.trustRegistryDid,
    filled "          vtc-did: " .single cfg.vtcDid]
  else [
    fixed "          registry-did: $\x7b\x7b vars.TRUST_REGISTRY_DID \x7d\x7d",
    fixed "          vtc-did: $\x7b\x7b vars.VTC_DID \x7d\x7d"]

def keyringLines : MergePlan → List Line
  | .signingKey _ => [
    fixed "          # Web merges are signed by the instance; they pass only via its",
    fixed "          # key, committed here.",
    .fixed (text "          exempt-keyring: " ++ keyringPath)]
  | .fastForwardOnly => []

-- The file of `render_workflow`.
def workflow (cfg : VgiConfig) (opts : PlanOptions) (repo : Resource) (action sha256 : Str) : List Line := [
  fixed "# Managed by this community's VGI bridge. Branch protection refuses",
  fixed "# pull requests that change it; the bridge updates it only through its",
  fixed "# audited refresh-managed-files step. Propose changes to the VTC.",
  filled "name: " .single cfg.requiredCheck,
  fixed "",
  fixed "on:",
  fixed "  pull_request:",
  fixed "",
  fixed "permissions:",
  fixed "  contents: read",
  fixed "",
  fixed "jobs:",
  fixed "  verify:",
  filled "    name: " .single cfg.requiredCheck,
  filled "    runs-on: " .double opts.runsOn,
  fixed "    steps:",
  filled "      - uses: " .plain opts.checkoutAction,
  fixed "        with:",
  fixed "          # The base ref must be present so `origin/<base>..HEAD` resolves.",
  fixed "          fetch-depth: 0",
  fixed "          persist-credentials: false",
  fixed "",
  fixed "      - name: verify-trust",
  filled "        uses: " .plain action,
  fixed "        with:",
  fixed "          range: origin/$\x7b\x7b github.base_ref \x7d\x7d..HEAD"] ++
  identities cfg opts ++
  transportLine cfg.verifyTrustTransport ++ [
  fixed "          resource-format: qualified",
  fixed "          # The namespace: where the VTC publishes namespace-wide commit rights.",
  fallbackLine repo] ++
  keyringLines opts.merges ++ [
  fixed "          # A Forgejo runner cannot check the release's attestation; the",
  fixed "          # pinned version and checksum are what hold if a release is replaced.",
  filled "          version: " .plain cfg.verifyTrustVersion,
  filled "          sha256: " .plain sha256]

def renderWorkflow (cfg : VgiConfig) (opts : PlanOptions) (repo : Resource) (action sha256 : Str) : Str :=
  print (workflow cfg opts repo action sha256)

end Forgejo

end VerifiableGit.Workflow
