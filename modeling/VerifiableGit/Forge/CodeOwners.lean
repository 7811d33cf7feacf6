import Mathlib.Data.Finset.Sort
import VerifiableGit.Forge.ManagedRules
import VerifiableGit.Governance.Records
import VerifiableGit.Verify.Signature

-- Owner review on GitHub: the managed block of a `CODEOWNERS` file and how it is
-- inspected (vgi-forge-github, plan.rs and forge/guard.rs).
namespace VerifiableGit.Forge
open Text Commit Verify Governance

def managedBegin : Bytes := ascii Managed.beginMarker
def managedEnd : Bytes := ascii Managed.endMarker
def guardedPath : Bytes := ascii "/.github/"

-- `str::split_whitespace`. `word` is the piece being read, backwards.
def splitWhitespace : Nat → Bytes → Bytes → List Bytes
  | 0,word,_ => if word = [] then [] else [word.reverse]
  | _,word,[] => if word = [] then [] else [word.reverse]
  | fuel + 1,word,b :: rest =>
    match unicodeSpaces.findSome? fun encoding => stripPrefix encoding (b :: rest) with
    | some more => if word = [] then splitWhitespace fuel [] more else word.reverse :: splitWhitespace fuel [] more
    | none => splitWhitespace fuel (b :: word) rest

abbrev Rule := Managed.Rule UInt8

def isRule : Bytes → Bool := Managed.isRule unicodeTrim 35

def ruleOf (line : Bytes) : Rule :=
  let plain := splitFirst [35] line
  Managed.ruleOf (splitWhitespace plain.length [] plain)

def managedRules (text : Bytes) : Option (List (Rule × Nat)) :=
  Managed.managedRules unicodeTrim managedBegin managedEnd isRule ruleOf (textLines text)

structure RuleParameters where
  requireCodeOwnerReview : Option Bool
  dismissStaleReviewsOnPush : Option Bool
  requireLastPushApproval : Option Bool
  requiredApprovingReviewCount : Option Nat

structure RulesetRule where
  kind : Bytes
  parameters : Option RuleParameters

abbrev Ruleset := List RulesetRule

def RulesetRule.on (r : RulesetRule) (param : RuleParameters → Option Bool) : Bool :=
  decide (r.parameters.bind param = some true)

def codeOwnerReview (rs : Ruleset) : Bool := rs.any fun r =>
  decide (r.kind = ascii "pull_request") && r.on RuleParameters.requireCodeOwnerReview &&
    r.on RuleParameters.dismissStaleReviewsOnPush && r.on RuleParameters.requireLastPushApproval &&
    (r.parameters.bind RuleParameters.requiredApprovingReviewCount).any fun n => decide (1 ≤ n)

structure CodeownersError where
  path : Bytes
  line : Nat
  message : Bytes

-- What GitHub answers while the guard is inspected; every request may fail.
structure Answers (ε : Type) where
  findCodeowners : Except ε (Option (Bytes × Bytes))
  user : Bytes → Except ε (Option ForgeAccount)
  codeownersErrors : Except ε (List CodeownersError)

inductive CheckSourceGuard where
  | unknown
  | requiredWorkflow
  | ownerReview (reviewers : List ForgeAccount) (issues : List Bytes)
  | unreviewed
  | bridgePosted
deriving DecidableEq

-- `@login`, and no team.
def personLogin (owner : Bytes) : Option Bytes :=
  (stripPrefix (ascii "@") owner).filter fun login => decide (47 ∉ login)

def quoted (text : Bytes) : Bytes := ascii "`" ++ text ++ ascii "`"

section
variable {ε : Type} (github : Answers ε)

def reviewersOf : List Bytes → Except ε (List ForgeAccount × List Bytes)
  | [] => .ok ([],[])
  | owner :: rest =>
    match personLogin owner with
    | none => do
      let (reviewers,issues) ← reviewersOf rest
      .ok (reviewers,(ascii "the managed rule names " ++ quoted owner ++
        ascii ", not a person's account") :: issues)
    | some login => do
      let found ← github.user login
      let (reviewers,issues) ← reviewersOf rest
      match found with
      | some u => .ok (u :: reviewers,issues)
      | none => .ok (reviewers,(ascii "the managed rule names unknown account " ++ owner) :: issues)

def requiredPatterns (path : Bytes) : List Bytes :=
  if (ascii ".github/").isPrefixOf path then [guardedPath] else [guardedPath,ascii "/" ++ path]

def missingOwners (rules : List (Rule × Nat)) (pattern : Bytes) : Option Bytes :=
  match rules.find? fun row => decide (row.1.pattern = pattern) with
  | some row =>
    if row.1.owners.isEmpty then
      some (ascii "the managed rules no longer give " ++ quoted pattern ++ ascii " an owner")
    else none
  | none => some (ascii "the managed rules no longer give " ++ quoted pattern ++ ascii " an owner")

def inspectRules (path : Bytes) (rules : List (Rule × Nat)) : Except ε (List ForgeAccount × List Bytes) := do
  let (reviewers,unknown) ←
    match rules.find? fun row => decide (row.1.pattern = guardedPath) with
    | some row => reviewersOf github row.1.owners
    | none => .ok ([],[])
  let errors ← github.codeownersErrors
  let reported := (errors.filter fun e =>
    decide (e.path = path) && decide (e.line ∈ rules.map Prod.snd)).map fun e =>
      ascii "GitHub reports an error on the managed rule (" ++ quoted path ++ ascii " line " ++
        ascii (toString e.line) ++ ascii "): " ++ e.message
  .ok (reviewers,(requiredPatterns path).filterMap (missingOwners rules) ++ unknown ++ reported)

def inspectOwnerReview (rs : Option Ruleset) : Except ε CheckSourceGuard := do
  let reviewOn := rs.any fun rules => rules.any fun r =>
    decide (r.kind = ascii "pull_request") && r.on RuleParameters.requireCodeOwnerReview
  let found ← github.findCodeowners
  let managed := found.bind fun file => managedRules file.2
  if !reviewOn && managed.isNone then .ok .unreviewed
  else
    let weak := if rs.any codeOwnerReview then []
      else [ascii "the ruleset no longer requires one approving review from a code owner, " ++
        ascii "dismissed by later pushes and not given by the last pusher"]
    match found,managed with
    | none,_ => .ok (.ownerReview [] (weak ++ [ascii "there is no CODEOWNERS file"]))
    | some (path,_),none =>
      .ok (.ownerReview [] (weak ++ [quoted path ++ ascii " no longer ends with the managed owner rules"]))
    | some (path,_),some rules => do
      let (reviewers,issues) ← inspectRules github path rules
      .ok (.ownerReview reviewers (weak ++ issues))

end

inductive ProtectionDrift where
  | weakened (details : List Bytes)
  | replanNeeded (reason : Bytes)
deriving DecidableEq

def idsText (ids : Finset Nat) : Bytes :=
  ascii "\x7b" ++ (ascii ", ").intercalate ((ids.sort (· ≤ ·)).map fun n => ascii (toString n)) ++ ascii "\x7d"

-- The projection's owners, with the holder of a personal account.
def reviewOwners (holder : Option Nat) (owners : List ForgeAccount) : Finset Nat :=
  (owners.map ForgeAccount.id ++ holder.toList).toFinset

def ownerReviewDrift (holder : Option Nat) (guard : CheckSourceGuard) (desired : List ForgeAccount) :
    List ProtectionDrift :=
  let owners := reviewOwners holder desired
  match guard with
  | .ownerReview reviewers issues =>
    if owners.card = 1 then
      [.replanNeeded (ascii "the repository has one owner now; owner review would block their own " ++
        ascii "workflow changes")]
    else
      let have_ := (reviewers.map ForgeAccount.id).toFinset
      let details := issues ++ if 2 ≤ owners.card ∧ have_ ≠ owners then
          [ascii "the managed rule names accounts " ++ idsText have_ ++ ascii ", but the owners are " ++
            idsText owners]
        else []
      if details.isEmpty then [] else [.weakened details]
  | .unreviewed =>
    if 2 ≤ owners.card then
      [.weakened [ascii (toString owners.card) ++ ascii " owners, but workflow changes are not review-protected"],
        .replanNeeded (ascii "the repository has more than one owner now")]
    else []
  | _ => []

-- GitHub's reading of the file: the last rule that matches a path decides. How
-- a pattern matches is GitHub's; a directory's covers what is below it, and a
-- rooted path itself.
def ownerRules (text : Bytes) : List Rule := ((textLines text).filter isRule).map ruleOf

section
variable (matches_ : Bytes → Bytes → Bool)

def applied (text path : Bytes) : Option Rule :=
  (ownerRules text).reverse.find? fun r => matches_ r.pattern path

structure Patterns : Prop where
  directory : ∀ path, ascii ".github/" <+: path → matches_ guardedPath path = true
  file : ∀ path, matches_ (ascii "/" ++ path) path = true

-- Everything below `.github/`, and the file the rules are in.
def Guarded (location path : Bytes) : Prop := ascii ".github/" <+: path ∨ path = location

section
variable {ε : Type} (github : Answers ε)

def accountOf (owner : Bytes) : Option Nat :=
  match personLogin owner with
  | none => none
  | some login =>
    match github.user login with
    | .ok (some u) => some u.id
    | _ => none

-- The rule names these accounts, and nobody and nothing else.
def Names (r : Rule) (ids : Finset Nat) : Prop :=
  (∀ o ∈ r.owners, ∃ id ∈ ids, accountOf github o = some id) ∧
    ∀ id ∈ ids, ∃ o ∈ r.owners, accountOf github o = some id

-- Those the first rule of the block for the guarded directory names.
def firstNamed (rules : List (Rule × Nat)) : Finset Nat :=
  match rules.find? fun row => decide (row.1.pattern = guardedPath) with
  | some row => (row.1.owners.filterMap (accountOf github)).toFinset
  | none => ∅

-- No rule of the block takes a guarded path away to other accounts.
def Unshadowed (location : Bytes) (rules : List (Rule × Nat)) : Prop :=
  ∀ before r after path, rules.map Prod.fst = before ++ r :: after → Guarded location path →
    matches_ r.pattern path = true → (∀ later ∈ after, matches_ later.pattern path = false) →
    Names github r (firstNamed github rules)

end

end

section
variable {ε : Type} {github : Answers ε} {text location path : Bytes} {rules : List (Rule × Nat)}
variable {R : List ForgeAccount} {matches_ : Bytes → Bytes → Bool}

-- An end marker is a comment.
theorem end_comment (l : Bytes) (ends : unicodeTrim l = managedEnd) : isRule l = false := by
  simp only [isRule,Managed.isRule,ends]
  decide

theorem find_last {l : List Rule} {q : Rule → Bool} {r : Rule} : l.reverse.find? q = some r ↔
    ∃ before after, l = before ++ r :: after ∧ q r = true ∧ ∀ later ∈ after, q later = false := by
  rw [List.find?_eq_some_iff_append]
  constructor
  · intro found
    obtain ⟨holds,front,back,split,none_⟩ := found
    refine ⟨back.reverse,front.reverse,?_,holds,fun later place => ?_⟩
    · have whole := congrArg List.reverse split
      simpa using whole
    · simpa using none_ later (List.mem_reverse.mp place)
  · intro found
    obtain ⟨before,after,split,holds,none_⟩ := found
    refine ⟨holds,after.reverse,before.reverse,by rw [split]; simp,fun later place => ?_⟩
    simpa using none_ later (List.mem_reverse.mp place)

-- Where the block has a rule for the path, the block decides.
theorem applied_block (managed : managedRules text = some rules) {r : Rule}
    (inside : r ∈ rules.map Prod.fst) (covers : matches_ r.pattern path = true) :
    applied matches_ text path = (rules.map Prod.fst).reverse.find? fun r => matches_ r.pattern path := by
  obtain ⟨front,split⟩ : ∃ front, ownerRules text = front ++ rules.map Prod.fst :=
    Managed.managed_last end_comment managed
  rw [applied,split,List.reverse_append,List.find?_append]
  cases found : (rules.map Prod.fst).reverse.find? fun r => matches_ r.pattern path with
  | some last => rfl
  | none => exact absurd covers (List.find?_eq_none.mp found r (List.mem_reverse.mpr inside))

theorem reviewers_named {owners : List Bytes} (found : reviewersOf github owners = .ok (R,[])) :
    owners.map (accountOf github) = R.map fun u => some u.id := by
  induction owners generalizing R with
  | nil =>
    cases found
    rfl
  | cons owner rest ih =>
    simp only [reviewersOf] at found
    cases person : personLogin owner with
    | none =>
      simp only [person] at found
      cases later : reviewersOf github rest with
      | error e =>
        rw [later] at found
        cases found
      | ok both =>
        obtain ⟨us,issues⟩ := both
        rw [later] at found
        cases found
    | some login =>
      simp only [person] at found
      cases answer : github.user login with
      | error e =>
        rw [answer] at found
        cases found
      | ok user =>
        cases later : reviewersOf github rest with
        | error e =>
          rw [answer,later] at found
          cases found
        | ok both =>
          obtain ⟨us,issues⟩ := both
          rw [answer,later] at found
          cases user with
          | none => cases found
          | some u =>
            cases found
            rw [List.map_cons,List.map_cons,ih later]
            simp only [accountOf,person,answer]

-- What an inspection with no issue has found.
structure Clean {ε : Type} (github : Answers ε) (R : List ForgeAccount) (location text : Bytes)
    (rules : List (Rule × Nat)) : Prop where
  found : github.findCodeowners = .ok (some (location,text))
  managed : managedRules text = some rules
  owned : ∀ pattern ∈ requiredPatterns location, missingOwners rules pattern = none
  named : ∃ row, (rules.find? fun row => decide (row.1.pattern = guardedPath)) = some row ∧
    reviewersOf github row.1.owners = .ok (R,[])

theorem inspectRules_clean (done : inspectRules github location rules = .ok (R,[])) :
    (∀ pattern ∈ requiredPatterns location, missingOwners rules pattern = none) ∧
      ∃ row, (rules.find? fun row => decide (row.1.pattern = guardedPath)) = some row ∧
        reviewersOf github row.1.owners = .ok (R,[]) := by
  have guarded : guardedPath ∈ requiredPatterns location := by
    unfold requiredPatterns
    split
    · exact List.mem_singleton_self _
    · exact List.mem_cons_self
  unfold inspectRules at done
  cases first : rules.find? fun row => decide (row.1.pattern = guardedPath) with
  | none =>
    cases errors : github.codeownersErrors with
    | error e =>
      rw [first,errors] at done
      cases done
    | ok es =>
      rw [first,errors] at done
      have none_ := (Prod.mk.inj (Except.ok.inj done)).2
      have missing := List.filterMap_eq_nil_iff.mp
        (List.append_eq_nil_iff.mp (List.append_eq_nil_iff.mp none_).1).1 guardedPath guarded
      simp only [missingOwners,first] at missing
      cases missing
  | some row =>
    cases named : reviewersOf github row.1.owners with
    | error e =>
      rw [first] at done
      simp only [named] at done
      cases done
    | ok both =>
      obtain ⟨us,unknown⟩ := both
      cases errors : github.codeownersErrors with
      | error e =>
        rw [first,errors] at done
        simp only [named] at done
        cases done
      | ok es =>
        rw [first,errors] at done
        simp only [named] at done
        obtain ⟨same,none_⟩ := Prod.mk.inj (Except.ok.inj done)
        obtain ⟨front,_⟩ := List.append_eq_nil_iff.mp none_
        obtain ⟨missing,empty⟩ := List.append_eq_nil_iff.mp front
        subst same empty
        exact ⟨List.filterMap_eq_nil_iff.mp missing,row,rfl,named⟩

theorem inspect_clean {rs : Option Ruleset}
    (done : inspectOwnerReview github rs = .ok (.ownerReview R [])) :
    ∃ location text rules, Clean github R location text rules := by
  unfold inspectOwnerReview at done
  cases found : github.findCodeowners with
  | error e =>
    rw [found] at done
    cases done
  | ok file =>
    rw [found] at done
    simp only [bind,Except.bind] at done
    split at done
    · cases done
    · cases file with
      | none =>
        have none_ := (CheckSourceGuard.ownerReview.inj (Except.ok.inj done)).2
        exact absurd none_ (List.append_ne_nil_of_right_ne_nil _ (List.cons_ne_nil _ _))
      | some file =>
        obtain ⟨location,text⟩ := file
        cases managed : managedRules text with
        | none =>
          simp only [Option.bind_some,managed] at done
          have none_ := (CheckSourceGuard.ownerReview.inj (Except.ok.inj done)).2
          exact absurd none_ (List.append_ne_nil_of_right_ne_nil _ (List.cons_ne_nil _ _))
        | some rules =>
          simp only [Option.bind_some,managed] at done
          cases inspected : inspectRules github location rules with
          | error e =>
            rw [inspected] at done
            cases done
          | ok both =>
            obtain ⟨us,issues⟩ := both
            rw [inspected] at done
            obtain ⟨same,none_⟩ := CheckSourceGuard.ownerReview.inj (Except.ok.inj done)
            have empty := (List.append_eq_nil_iff.mp none_).2
            subst same empty
            obtain ⟨owned,named⟩ := inspectRules_clean inspected
            exact ⟨location,text,rules,found,managed,owned,named⟩

-- The first rule for the directory names the reviewers, and covers it.
theorem clean_first {ε : Type} {github : Answers ε} (clean : Clean github R location text rules) :
    firstNamed github rules = (R.map ForgeAccount.id).toFinset := by
  obtain ⟨row,first,named⟩ := clean.named
  have ids : row.1.owners.filterMap (accountOf github) = R.map ForgeAccount.id := by
    have same := congrArg (List.filterMap id) (reviewers_named named)
    simpa [List.filterMap_map,Function.comp_def] using same
  simp only [firstNamed,first,ids]

theorem clean_covers {ε : Type} {github : Answers ε} (clean : Clean github R location text rules)
    (patterns : Patterns matches_) (guarded : Guarded location path) :
    ∃ r ∈ rules.map Prod.fst, matches_ r.pattern path = true := by
  have rule (pattern : Bytes) (required : pattern ∈ requiredPatterns location) :
      ∃ r ∈ rules.map Prod.fst, r.pattern = pattern := by
    have owned := clean.owned pattern required
    simp only [missingOwners] at owned
    split at owned
    · rename_i row found
      exact ⟨row.1,List.mem_map.mpr ⟨row,List.mem_of_find?_eq_some found,rfl⟩,by simpa using List.find?_some found⟩
    · cases owned
  by_cases below : ascii ".github/" <+: path
  · obtain ⟨r,inside,same⟩ := rule guardedPath (by unfold requiredPatterns; split <;> simp)
    exact ⟨r,inside,same ▸ patterns.directory path below⟩
  · have here : path = location := guarded.resolve_left below
    have outside : (ascii ".github/").isPrefixOf location = false := by
      rw [← here]
      exact Bool.eq_false_iff.mpr fun start => below (List.isPrefixOf_iff_prefix.mp start)
    obtain ⟨r,inside,same⟩ := rule (ascii "/" ++ location) (by simp [requiredPatterns,outside])
    exact ⟨r,inside,by rw [same,here]; exact patterns.file location⟩

-- The rule that decides a path is the last of the block that matches it.
theorem clean_decides {ε : Type} {github : Answers ε} (clean : Clean github R location text rules)
    (patterns : Patterns matches_) (guarded : Guarded location path) {r : Rule} :
    applied matches_ text path = some r ↔ ∃ before after, rules.map Prod.fst = before ++ r :: after ∧
      matches_ r.pattern path = true ∧ ∀ later ∈ after, matches_ later.pattern path = false := by
  obtain ⟨first,inside,covers⟩ := clean_covers clean patterns guarded
  rw [applied_block clean.managed inside covers]
  exact find_last

theorem clean_applied {ε : Type} {github : Answers ε} (clean : Clean github R location text rules)
    (patterns : Patterns matches_) (guarded : Guarded location path) :
    ∃ r, applied matches_ text path = some r := by
  obtain ⟨first,inside,covers⟩ := clean_covers clean patterns guarded
  rw [applied_block clean.managed inside covers]
  refine Option.isSome_iff_exists.mp (List.find?_isSome.mpr ⟨first,List.mem_reverse.mpr inside,covers⟩)

theorem drift_agrees {holder : Option Nat} {desired : List ForgeAccount}
    (several : 2 ≤ (reviewOwners holder desired).card)
    (quiet : ownerReviewDrift holder (.ownerReview R []) desired = []) :
    (R.map ForgeAccount.id).toFinset = reviewOwners holder desired := by
  by_contra differ
  have one : ¬ (reviewOwners holder desired).card = 1 := by omega
  simp [ownerReviewDrift,one,several,differ] at quiet

-- The accounts the deciding rule of every guarded path names, and what follows
-- for a projection whose drift is empty.
def Reviewed {ε : Type} (matches_ : Bytes → Bytes → Bool) (github : Answers ε) (R : List ForgeAccount)
    (location text : Bytes) : Prop :=
  (∀ path, Guarded location path → ∃ r, applied matches_ text path = some r ∧
    Names github r (R.map ForgeAccount.id).toFinset) ∧
  ∀ holder desired, 2 ≤ (reviewOwners holder desired).card →
    ownerReviewDrift holder (.ownerReview R []) desired = [] →
    ∀ path, Guarded location path → ∃ r, applied matches_ text path = some r ∧
      Names github r (reviewOwners holder desired)

-- An inspection with no issue is right about every guarded path exactly when no
-- rule of the block takes one away from the first rule for the directory.
theorem owner_review_exact {rs : Option Ruleset} (patterns : Patterns matches_)
    (done : inspectOwnerReview github rs = .ok (.ownerReview R [])) :
    ∃ location text rules, github.findCodeowners = .ok (some (location,text)) ∧
      managedRules text = some rules ∧
      (Reviewed matches_ github R location text ↔ Unshadowed matches_ github location rules) := by
  obtain ⟨location,text,rules,clean⟩ := inspect_clean done
  refine ⟨location,text,rules,clean.found,clean.managed,?_⟩
  have decides {path : Bytes} {r : Rule} (guarded : Guarded location path) :=
    clean_decides (r := r) clean patterns guarded
  constructor
  · intro reviewed before r after path split guarded covers last
    obtain ⟨s,decided,named⟩ := reviewed.1 path guarded
    have same : some r = some s := ((decides guarded).mpr ⟨before,after,split,covers,last⟩).symm.trans decided
    rw [clean_first clean,Option.some.inj same]
    exact named
  · intro unshadowed
    have names (path : Bytes) (guarded : Guarded location path) : ∃ r,
        applied matches_ text path = some r ∧ Names github r (R.map ForgeAccount.id).toFinset := by
      obtain ⟨r,decided⟩ := clean_applied clean patterns guarded
      obtain ⟨before,after,split,covers,last⟩ := (decides guarded).mp decided
      exact ⟨r,decided,clean_first clean ▸ unshadowed before r after path split guarded covers last⟩
    refine ⟨names,fun holder desired several quiet path guarded => ?_⟩
    rw [← drift_agrees several quiet]
    exact names path guarded

end

namespace Sample

def covers (pattern path : Bytes) : Bool :=
  decide (pattern = ascii "/" ++ path) ||
    (decide (pattern.getLast? = some 47) && pattern.isPrefixOf (ascii "/" ++ path))

theorem covers_patterns : Patterns covers where
  directory path below := by
    obtain ⟨rest,same⟩ := below
    have start : guardedPath.isPrefixOf (ascii "/" ++ path) = true :=
      List.isPrefixOf_iff_prefix.mpr ⟨rest,by rw [← same]; rfl⟩
    have slash : guardedPath.getLast? = some 47 := by decide
    simp [covers,start,slash]
  file path := by simp [covers]

def alice : ForgeAccount := ⟨1,ascii "alice"⟩
def bob : ForgeAccount := ⟨2,ascii "bob"⟩
def mallory : ForgeAccount := ⟨3,ascii "mallory"⟩

-- A narrower rule inside the block, behind the managed one.
def shadowing : Bytes := managedBegin ++ ascii "\n/.github/ @alice @bob\n/.github/workflows/ @mallory\n" ++
  managedEnd ++ ascii "\n"

def github : Answers Empty where
  findCodeowners := .ok (some (ascii ".github/CODEOWNERS",shadowing))
  user login := .ok ([alice,bob,mallory].find? fun u => u.login = login)
  codeownersErrors := .ok []

def review : Ruleset := [⟨ascii "pull_request",some ⟨some true,some true,some true,some 1⟩⟩]

theorem shadowing_clean : inspectOwnerReview github (some review) = .ok (.ownerReview [alice,bob] []) := by
  have facts : (match inspectOwnerReview github (some review) with
      | .ok guard => decide (guard = .ownerReview [alice,bob] [])
      | .error _ => false) = true := by decide
  cases done : inspectOwnerReview github (some review) with
  | error e => exact e.elim
  | ok guard =>
    rw [done] at facts
    rw [of_decide_eq_true facts]

theorem owner_review_shadowed :
    inspectOwnerReview github (some review) = .ok (.ownerReview [alice,bob] []) ∧
    ¬ Reviewed covers github [alice,bob] (ascii ".github/CODEOWNERS") shadowing := by
  refine ⟨shadowing_clean,fun reviewed => ?_⟩
  obtain ⟨r,decided,named,_⟩ := reviewed.1 (ascii ".github/workflows/vgi.yml")
    (.inl (List.isPrefixOf_iff_prefix.mp (by decide)))
  have rule : applied covers shadowing (ascii ".github/workflows/vgi.yml") =
      some ⟨ascii "/.github/workflows/",[ascii "@mallory"]⟩ := by decide
  rw [rule] at decided
  cases decided
  obtain ⟨id,inside,account⟩ := named (ascii "@mallory") (List.mem_singleton_self _)
  have other : accountOf github (ascii "@mallory") = some 3 := by decide
  rw [other] at account
  cases account
  exact absurd inside (by decide)

theorem owner_review_sample : ∃ location text rules,
    github.findCodeowners = .ok (some (location,text)) ∧ managedRules text = some rules ∧
    (Reviewed covers github [alice,bob] location text ↔ Unshadowed covers github location rules) :=
  owner_review_exact covers_patterns shadowing_clean

end Sample

end VerifiableGit.Forge
