import VerifiableGit.Workflow.Settled

-- A plan run to its end, and run again.
namespace VerifiableGit.Bootstrap
open Text Library.Interaction
open Qualified (Str text)
open Governance (StepOutcome StepStatus merged)
open Workflow (StepAction BootstrapStep VgiConfig ExtraFile intoBytes fromUtf8)
open Workflow.GitHub (codeownersLocations guardedPath CheckGuard)
open OwnerRules (Word)

-- What the one step is about the other leaves alone.
structure Apart (a b : StepAction) : Prop where
  entries : ∀ path, Touches a path → ¬Touches b path
  settings : ∀ name, Assigns a name → ¬Assigns b name
  rulesets : Locking a → ¬Locking b

def Compatible (a b : StepAction) : Prop :=
  Apart a b ∨ ∃ path contents message other, a = .writeFile path contents message ∧ b = .writeFile path contents other

section
variable {world : World} {adapter : Adapter} {review : Prop} {s t : Repository}

theorem idle_apart {a b : StepAction} (idle : Idle world adapter s a) (frame : Frame b s t) (apart : Apart a b) : Idle world adapter t a := by
  cases a with
  | writeFile path contents message =>
    obtain ⟨sha,there⟩ := idle
    exact ⟨sha,(frame.entries path (apart.entries path rfl)).trans there⟩
  | setVariable name value => exact (frame.settings name (apart.settings name rfl)).trans idle
  | protectDefaultBranch spec =>
    obtain ⟨held,rs,managed,read,holds⟩ := idle
    refine ⟨held,rs,?_,read,by rw [frame.branch]; exact holds⟩
    rw [frame.rulesets (apart.rulesets trivial)]
    exact managed
  | requireNamespaceWorkflow contents check message => cases idle
  | requireOwnerReview paths owners rules message =>
    obtain ⟨target,contents,ahead,has,again⟩ := idle
    have location := ahead_location ahead
    obtain ⟨front,back,split,absent⟩ := ahead
    obtain ⟨sha,there⟩ := has
    refine ⟨target,contents,⟨front,back,split,fun path member => ?_⟩,⟨sha,(frame.entries target (apart.entries target location)).trans there⟩,again⟩
    have inside : path ∈ codeownersLocations := split ▸ List.mem_append_left _ member
    exact (frame.entries path (apart.entries path inside)).trans (absent path member)
  | removeFile path message => exact (frame.entries path (apart.entries path rfl)).trans idle
  | removeVariable name => exact (frame.settings name (apart.settings name rfl)).trans idle
  | configureRepo methods enableCi => cases idle

/-! The first run -/

-- A step that has nothing to do changes nothing; any other leaves what the steps
-- before it did.
theorem step_keeps {finished : List BootstrapStep} {step : BootstrapStep} (numbered : Numbered s) (tidy : review → Tidy s)
    (words : ∀ account, Word (world.login account)) (fit : Fit review step.action)
    (compatible : ∀ done ∈ finished, Compatible done.action step.action) (idle : ∀ done ∈ finished, Idle world adapter s done.action) :
    (whole world).Holds (fun r t => Numbered t ∧ (review → Tidy t) ∧ (∀ done ∈ finished, Idle world adapter t done.action) ∧
      ∀ o, r = .ok o → Idle world adapter t step.action) (runStep adapter step.action).run s := by
  by_cases here : Idle world adapter s step.action
  · refine holds_weaken _ (idle_finds reads_any numbered adapter step.action here) fun r t reached => ?_
    obtain ⟨rfl,_⟩ := reached
    exact ⟨numbered,tidy,idle,fun _ _ => here⟩
  · refine holds_weaken _ (runStep_ran numbered tidy words fit) fun r t ran => ⟨ran.numbered,ran.tidy,fun done member => ?_,ran.idle⟩
    rcases compatible done member with apart | ⟨path,contents,message,other,same,same'⟩
    · exact idle_apart (idle done member) ran.frame apart
    · have has := idle done member
      rw [same] at has
      rw [same'] at here
      exact absurd has here

theorem steps_settle (words : ∀ account, Word (world.login account)) (attempt : Nat) {steps : List BootstrapStep}
    (fit : ∀ step ∈ steps, Fit review step.action) (compatible : steps.Pairwise fun a b => Compatible a.action b.action)
    (report : Report) (finished rest : List BootstrapStep) (split : steps = finished ++ rest) (numbered : Numbered s) (tidy : review → Tidy s)
    (idle : ∀ done ∈ finished, Idle world adapter s done.action) :
    (whole world).Holds (fun r t => Numbered t ∧ (review → Tidy t) ∧ (r.1 = .done → ∀ step ∈ steps, Idle world adapter t step.action))
      (runSteps adapter attempt report rest) s := by
  induction rest generalizing finished report s with
  | nil =>
    rw [List.append_nil] at split
    subst split
    exact settles_done numbered ⟨numbered,tidy,fun _ => idle⟩
  | cons step rest ih =>
    have member : step ∈ steps := by rw [split]; simp
    have before : ∀ done ∈ finished, Compatible done.action step.action := by
      rw [split] at compatible
      exact fun done inside => (List.pairwise_append.mp compatible).2.2 done inside step List.mem_cons_self
    refine holds_bind _ _ (step_keeps numbered tidy words (fit step member) before idle) fun result t reached => ?_
    obtain ⟨numbered,tidy,idle,here⟩ := reached
    have stop : ∀ (ended : Ended) (report : Report), ended ≠ .done → (whole world).Holds (fun r t => Numbered t ∧ (review → Tidy t) ∧
        (r.1 = .done → ∀ step ∈ steps, Idle world adapter t step.action)) (.done (ended,report)) t :=
      fun ended report other => settles_done numbered ⟨numbered,tidy,fun same => absurd same other⟩
    cases result with
    | ok outcome =>
      refine ih _ (finished ++ [step]) (by rw [split]; simp) numbered tidy fun done inside => ?_
      rcases List.mem_append.mp inside with inside | last
      · exact idle done inside
      · exact List.mem_singleton.mp last ▸ here outcome rfl
    | error failure =>
      cases failure with
      | capabilityChanged capability available reason =>
        change (whole world).Holds _ (if attempt = 0 then _ else _) t
        split
        · refine settles_ask numbered trivial fun answer u served _ _ => ?_
          cases read_same served trivial
          exact stop .replan report (by decide)
        · exact stop .failed _ (by decide)
      | forge e => exact stop .failed _ (by decide)
      | plan e => exact stop .failed _ (by decide)
      | unsupported action hint => exact stop .failed _ (by decide)
      | other code message => exact stop .failed _ (by decide)

-- What is asked of the plan, and what a whole run of it comes to.
structure Plannable (world : World) (review : Prop) (plan : List BootstrapStep) : Prop where
  words : ∀ account, Word (world.login account)
  fit : ∀ step ∈ plan, Fit review step.action
  compatible : plan.Pairwise fun a b => Compatible a.action b.action

def Settled (world : World) (adapter : Adapter) (plan : List BootstrapStep) (s : Repository) : Prop :=
  ∀ step ∈ plan, Idle world adapter s step.action

theorem plan_answer {answer : Query.plan.Answer} (served : Served (· = world.plan) .plan s answer t) : answer = world.plan := by
  cases served with
  | shown shown =>
    cases shown with
    | plan given => exact given
  | refused no => cases no
  | done effect => cases effect
  | lost effect => cases effect

-- A whole plan is done.
def Complete (world : World) (adapter : Adapter) (s : Repository) : Prop := ∃ plan, world.plan = .ok plan ∧ Settled world adapter plan s

theorem attempt_settles (plannable : ∀ plan, world.plan = .ok plan → Plannable world review plan)
    (before attempt : Nat) (report : Report) (numbered : Numbered s) (tidy : review → Tidy s) :
    (whole world).Holds (fun r t => Numbered t ∧ (review → Tidy t) ∧ (r.1 = .done → Complete world adapter t))
      (runAttempt adapter none before attempt report) s := by
  refine settles_ask numbered trivial fun answer t served _ _ => ?_
  cases read_same served trivial
  have given := plan_answer served
  cases answer with
  | error e => exact settles_done numbered ⟨numbered,tidy,fun same => (by cases same)⟩
  | ok plan =>
    have plannable := plannable plan given.symm
    have every : chosen none plan = plan := List.filter_eq_self.mpr fun _ _ => rfl
    change (whole world).Holds _ (runSteps adapter attempt report (chosen none plan) >>= _) s
    rw [every]
    refine holds_bind _ _ (steps_settle plannable.words attempt plannable.fit plannable.compatible report [] plan rfl numbered tidy
      fun _ member => absurd member List.not_mem_nil) fun r t reached => ?_
    exact settles_done reached.1 ⟨reached.1,reached.2.1,fun done => ⟨plan,given.symm,reached.2.2 done⟩⟩

theorem bootstrap_ends (plannable : ∀ plan, world.plan = .ok plan → Plannable world review plan)
    (configured : Bool) (report : Report) (numbered : Numbered s) (tidy : review → Tidy s) :
    (whole world).Holds (fun r t => Numbered t ∧ (r.1 = true → Complete world adapter t))
      (runBootstrap adapter configured none report) s := by
  have refused : ∀ (report : Report) t, Numbered t → (whole world).Holds
      (fun r t => Numbered t ∧ (r.1 = true → Complete world adapter t)) (.done (false,report)) t :=
    fun report t numbered => settles_done numbered ⟨numbered,fun same => (by cases same)⟩
  have complete : ∀ (report : Report) t, Numbered t → Complete world adapter t → (whole world).Holds
      (fun r t => Numbered t ∧ (r.1 = true → Complete world adapter t)) (.done (true,report)) t :=
    fun report t numbered settled => settles_done numbered ⟨numbered,fun _ => settled⟩
  unfold runBootstrap
  split
  · refine holds_bind _ _ (attempt_settles plannable _ 0 report numbered tidy) fun first t reached => ?_
    obtain ⟨ended,report⟩ := first
    obtain ⟨numbered,tidy,settled⟩ := reached
    cases ended with
    | done => exact complete report t numbered (settled rfl)
    | failed => exact refused report t numbered
    | replan =>
      refine holds_bind _ _ (attempt_settles plannable _ 1 report numbered tidy) fun second u again => ?_
      obtain ⟨ended,report⟩ := second
      cases ended with
      | done => exact complete report u again.1 (again.2.2 rfl)
      | failed => exact refused report u again.1
      | replan => exact refused _ u again.1
  · exact refused _ s numbered

/-! The run after -/

def Unchanged (report : Report) : Prop := ∀ line ∈ report.steps, line.status = .unchanged

theorem merged_unchanged (line : Line) (here : line.status = .unchanged) (ls : List Line) (each : ∀ l ∈ ls, l.status = .unchanged) :
    ∀ l ∈ merged line ls, l.status = .unchanged := by
  induction ls with
  | nil =>
    intro l member
    exact List.mem_singleton.mp member ▸ here
  | cons first rest ih =>
    have lower : ¬first.status.rank < line.status.rank := by rw [here]; exact Nat.not_lt_zero _
    have later := ih fun l member => each l (List.mem_cons_of_mem _ member)
    intro l member
    by_cases same : first.name = line.name
    · rw [merged,if_pos same,if_neg lower] at member
      exact each l member
    · rw [merged,if_neg same] at member
      rcases List.mem_cons.mp member with rfl | member
      · exact each l List.mem_cons_self
      · exact later l member

abbrev reading (world : World) : Setting Query Query.Answer Repository := alone world Query.Reads

theorem reads_reads : ∀ q : Query, q.Reads → q.Reads := fun _ reads => reads

theorem steps_idle (attempt : Nat) {steps : List BootstrapStep} (idle : Settled world adapter steps s) (report : Report)
    (unchanged : Unchanged report) (numbered : Numbered s) :
    (reading world).Holds (fun r t => t = s ∧ (r.1 ≠ .failed → Unchanged r.2)) (runSteps adapter attempt report steps) s := by
  induction steps generalizing report with
  | nil => exact settles_done numbered ⟨rfl,fun _ => unchanged⟩
  | cons step rest ih =>
    refine holds_bind _ _ (idle_finds reads_reads numbered adapter step.action (idle step List.mem_cons_self)) fun result t reached => ?_
    obtain ⟨rfl,found⟩ := reached
    have stop : ∀ report : Report, (reading world).Holds (fun r u => u = t ∧ (r.1 ≠ .failed → Unchanged r.2))
        (.done (Ended.failed,report)) t := fun report => settles_done numbered ⟨rfl,fun other => absurd rfl other⟩
    cases result with
    | ok outcome =>
      cases found outcome rfl
      exact ih (fun step member => idle step (List.mem_cons_of_mem _ member)) _ (merged_unchanged _ rfl _ unchanged)
    | error failure =>
      cases failure with
      | capabilityChanged capability available reason =>
        change (reading world).Holds _ (if attempt = 0 then _ else _) t
        split
        · refine settles_ask numbered trivial fun answer u served _ _ => ?_
          cases read_same served trivial
          exact settles_done numbered ⟨rfl,fun _ => unchanged⟩
        · exact stop _
      | forge e => exact stop _
      | plan e => exact stop _
      | unsupported action hint => exact stop _
      | other code message => exact stop _

theorem attempt_idle {plan : List BootstrapStep} (planned : world.plan = .ok plan) (idle : Settled world adapter plan s)
    (only : Option (List Str)) (before attempt : Nat) (report : Report) (unchanged : Unchanged report) (numbered : Numbered s) :
    (reading world).Holds (fun r t => t = s ∧ (r.1 ≠ .failed → Unchanged r.2)) (runAttempt adapter only before attempt report) s := by
  refine settles_ask numbered trivial fun answer t served _ _ => ?_
  cases read_same served trivial
  cases (plan_answer served).trans planned
  have some_ : Settled world adapter (chosen only plan) s := fun step member => idle step (List.mem_of_mem_filter member)
  change (reading world).Holds _ (runSteps adapter attempt report (chosen only plan) >>= _) s
  refine holds_bind _ _ (steps_idle attempt some_ report unchanged numbered) fun r t reached => ?_
  obtain ⟨rfl,kept⟩ := reached
  refine settles_done numbered ⟨rfl,fun other => ?_⟩
  dsimp only at other ⊢
  split
  · exact fun line member => kept other line (List.mem_of_mem_take member)
  · exact kept other

theorem bootstrap_idle {plan : List BootstrapStep} (planned : world.plan = .ok plan) (idle : Settled world adapter plan s)
    (configured : Bool) (only : Option (List Str)) (report : Report) (unchanged : Unchanged report) (numbered : Numbered s) :
    (reading world).Holds (fun r t => t = s ∧ (r.1 = true → Unchanged r.2)) (runBootstrap adapter configured only report) s := by
  have refused : ∀ report : Report, (reading world).Holds (fun r t => t = s ∧ (r.1 = true → Unchanged r.2)) (.done (false,report)) s :=
    fun report => settles_done numbered ⟨rfl,fun same => (by cases same)⟩
  unfold runBootstrap
  split
  · refine holds_bind _ _ (attempt_idle planned idle only _ 0 report unchanged numbered) fun first t reached => ?_
    obtain ⟨ended,report⟩ := first
    obtain ⟨rfl,kept⟩ := reached
    cases ended with
    | done => exact settles_done numbered ⟨rfl,fun _ => kept fun same => (by cases same)⟩
    | failed => exact refused report
    | replan =>
      refine holds_bind _ _ (attempt_idle planned idle only _ 1 report (kept fun same => (by cases same)) numbered) fun second u again => ?_
      obtain ⟨ended,report⟩ := second
      obtain ⟨rfl,kept⟩ := again
      cases ended with
      | done => exact settles_done numbered ⟨rfl,fun _ => kept fun same => (by cases same)⟩
      | failed => exact refused report
      | replan => exact refused _
  · exact refused _

/-! The plans of GitHub's adapter -/

theorem file_compatible {path : Str} {contents : Bytes} {message : Str} {b : StepAction} (apart : ¬Touches b path) :
    Compatible (.writeFile path contents message) b :=
  .inl ⟨fun _ same => same ▸ apart,fun _ no => absurd no id,fun no => absurd no id⟩

theorem ruleset_compatible {spec : Workflow.ProtectionSpec} {b : StepAction} (apart : ¬Locking b) :
    Compatible (.protectDefaultBranch spec) b :=
  .inl ⟨fun _ no => absurd no id,fun _ no => absurd no id,fun _ => apart⟩

theorem variable_compatible {name : Str} {b : StepAction} (apart : ¬Assigns b name) : Compatible (.removeVariable name) b :=
  .inl ⟨fun _ no => absurd no id,fun _ same => same ▸ apart,fun no => absurd no id⟩

theorem review_compatible {paths : List Str} {owners : List Workflow.ForgeAccount} {rules : Bytes} {message : Str} {b : StepAction}
    (apart : ∀ path, ¬Touches b path) : Compatible (.requireOwnerReview paths owners rules message) b :=
  .inl ⟨fun path _ => apart path,fun _ no => absurd no id,fun no => absurd no id⟩

-- The variables an earlier version set, taken away at the end of every plan.
theorem cleanup_compatible : (Workflow.GitHub.cleanupVariables.Pairwise fun a b => Compatible a.action b.action) ∧
    ∀ step ∈ Workflow.GitHub.cleanupVariables, (∃ name, step.action = .removeVariable name) := by
  have differ : Workflow.varRegistry ≠ Workflow.varVtc := by decide
  refine ⟨List.pairwise_cons.mpr ⟨fun step member => ?_,List.pairwise_singleton _ _⟩,fun step member => ?_⟩
  · cases List.mem_singleton.mp member
    exact variable_compatible differ
  · obtain ⟨name,_,rfl⟩ := List.mem_map.mp member
    exact ⟨name,rfl⟩

theorem rules_cleanup {spec : Workflow.ProtectionSpec} :
    (Workflow.GitHub.rulesetStep spec :: Workflow.GitHub.cleanupVariables).Pairwise fun a b => Compatible a.action b.action := by
  refine List.pairwise_cons.mpr ⟨fun step member => ruleset_compatible ?_,cleanup_compatible.1⟩
  obtain ⟨name,same⟩ := cleanup_compatible.2 step member
  rw [same]
  exact id

theorem tidied_empty : Tidied [] := by
  intro found decoded
  have none_ : fromUtf8 [] = some [] := by decide
  rw [none_] at decoded
  cases decoded
  exact List.Pairwise.nil

section
variable {repo : Workflow.Resource} {cfg : VgiConfig} {checkout : Str} {how : CheckGuard}

-- The community's own file of owners, where the plan has one.
theorem community_given {community : Option Bytes} {extra : List BootstrapStep × Option Bytes} (files : List ExtraFile)
    (ok : Workflow.GitHub.extraSteps how community files = .ok extra) :
    extra.2 = community ∨ ∃ file ∈ files, file.path ∈ codeownersLocations ∧ extra.2 = some file.contents := by
  induction files generalizing community extra with
  | nil =>
    cases ok
    exact .inl rfl
  | cons file rest ih =>
    rw [Workflow.GitHub.extraSteps,Qualified.check_then] at ok
    obtain ⟨_,ok⟩ := ok
    split at ok
    · cases ok
    split at ok
    · rename_i taken
      split at ok
      · cases ok
      rcases ih ok with same | ⟨other,member,found⟩
      · exact .inr ⟨file,List.mem_cons_self,taken.2,same⟩
      · exact .inr ⟨other,List.mem_cons_of_mem _ member,found⟩
    · obtain ⟨more,found,same⟩ := Workflow.ok_bind.mp ok
      cases same
      rcases ih found with same | ⟨other,member,found⟩
      · exact .inl same
      · exact .inr ⟨other,List.mem_cons_of_mem _ member,found⟩

-- A file the plan writes, and where it has it from.
inductive Origin (repo : Workflow.Resource) (cfg : VgiConfig) (checkout : Str) (how : CheckGuard) (keyring : Bytes) : Str → Bytes → Prop
  | extra (file : ExtraFile) (member : file ∈ cfg.extraFiles) (elsewhere : how.reviews = true → file.path ∉ codeownersLocations) :
    Origin repo cfg checkout how keyring file.path file.contents
  | workflow (commits : how.commits = true) : Origin repo cfg checkout how keyring Workflow.GitHub.workflowPath
      (intoBytes (Workflow.GitHub.renderWorkflow cfg checkout repo))
  | keyring (commits : how.commits = true) : Origin repo cfg checkout how keyring Workflow.GitHub.keyringPath keyring

theorem origin_one (agreeing : Agreeing cfg) {keyring left right : Bytes} {path : Str}
    (apart : ∀ file ∈ cfg.extraFiles, file.path ≠ Workflow.GitHub.workflowPath ∧ file.path ≠ Workflow.GitHub.keyringPath)
    (one : Origin repo cfg checkout how keyring path left) (two : Origin repo cfg checkout how keyring path right) : left = right := by
  cases one with
  | extra file member =>
    generalize same : file.path = place at two
    cases two with
    | extra other member' => exact agreeing file member other member' same
    | workflow => exact absurd same (apart file member).1
    | keyring => exact absurd same (apart file member).2
  | workflow =>
    generalize same : Workflow.GitHub.workflowPath = place at two
    cases two with
    | extra other member => exact absurd same.symm (apart other member).1
    | workflow => rfl
    | keyring => exact absurd same paths_apart.2.2
  | keyring =>
    generalize same : Workflow.GitHub.keyringPath = place at two
    cases two with
    | extra other member => exact absurd same.symm (apart other member).2
    | workflow => exact absurd same.symm paths_apart.2.2
    | keyring => rfl

theorem origin_elsewhere {keyring contents : Bytes} {path : Str} (origin : Origin repo cfg checkout how keyring path contents)
    (reviews : how.reviews = true) : path ∉ codeownersLocations := by
  cases origin with
  | extra file member elsewhere => exact elsewhere reviews
  | workflow => exact paths_apart.1
  | keyring => exact paths_apart.2.1

-- The files come first, and each from its origin.
theorem files_origin {keyring : Bytes} {extra : List BootstrapStep × Option Bytes}
    (extras : Workflow.GitHub.extraSteps how none cfg.extraFiles = .ok extra) :
    ∀ step ∈ (if how.commits then Workflow.GitHub.committedSteps repo cfg checkout keyring else []) ++ extra.1,
      ∃ path contents message, step.action = .writeFile path contents message ∧ Origin repo cfg checkout how keyring path contents := by
  intro step member
  rcases List.mem_append.mp member with member | member
  · split at member
    · rename_i commits
      simp only [Workflow.GitHub.committedSteps,List.mem_cons,List.not_mem_nil,or_false] at member
      rcases member with rfl | rfl
      · exact ⟨_,_,_,rfl,.workflow commits⟩
      · exact ⟨_,_,_,rfl,.keyring commits⟩
    · exact absurd member List.not_mem_nil
  · obtain ⟨file,inside,rfl,elsewhere⟩ := (extra_steps cfg.extraFiles extras).1 step member
    exact ⟨_,_,_,rfl,.extra file inside elsewhere⟩

-- What the guard adds gets along, and with the files before it.
theorem guard_compatible {keyring : Bytes} {community : Option Bytes} {last : List BootstrapStep} (unhosted : how ≠ .requiredWorkflow)
    (approvals : cfg.requiredApprovals < 2 ^ 8) (tidied : Tidied (community.getD []))
    (apart : ∀ file ∈ cfg.extraFiles, file.path ≠ Workflow.GitHub.workflowPath ∧ file.path ≠ Workflow.GitHub.keyringPath)
    (ok : Workflow.GitHub.guardSteps repo cfg checkout keyring community how = .ok last) :
    (∀ step ∈ last, Fit (how.reviews = true) step.action) ∧ (last.Pairwise fun a b => Compatible a.action b.action) ∧
    ∀ path contents message, Origin repo cfg checkout how keyring path contents →
      ∀ step ∈ last, Compatible (.writeFile path contents message) step.action := by
  have cleanup : ∀ step ∈ Workflow.GitHub.cleanupVariables, Fit (how.reviews = true) step.action ∧
      ∀ path contents message, Compatible (.writeFile path contents message) step.action := by
    intro step member
    obtain ⟨name,same⟩ := cleanup_compatible.2 step member
    rw [same]
    exact ⟨trivial,fun _ _ _ => file_compatible id⟩
  unfold Workflow.GitHub.guardSteps at ok
  cases how with
  | requiredWorkflow => exact absurd rfl unhosted
  | ownerReview owners =>
    dsimp only at ok
    split at ok
    · cases ok
    split at ok
    · cases ok
    cases ok
    have word : ∀ path ∈ [guardedPath], Word path := by
      intro path member
      cases List.mem_singleton.mp member
      have plain : guardedPath.any Qualified.isWhitespace = false ∧ '#' ∉ guardedPath := by decide
      exact ⟨by decide,fun c inside => Bool.eq_false_iff.mpr (List.any_eq_false.mp plain.1 c inside),plain.2⟩
    refine ⟨fun step member => ?_,List.pairwise_cons.mpr ⟨fun step member => review_compatible fun path => ?_,rules_cleanup⟩,
      fun path contents message origin step member => ?_⟩
    · simp only [List.mem_append,List.mem_cons,List.not_mem_nil,or_false] at member
      rcases member with (rfl | rfl) | member
      · exact ⟨rfl,word,tidied⟩
      · exact ⟨rfl,rfl,rfl,rfl,approvals⟩
      · exact (cleanup step member).1
    · rcases List.mem_cons.mp member with rfl | member
      · exact id
      · obtain ⟨name,same⟩ := cleanup_compatible.2 step member
        rw [same]
        exact id
    · simp only [List.mem_append,List.mem_cons,List.not_mem_nil,or_false] at member
      rcases member with (rfl | rfl) | member
      · exact file_compatible (origin_elsewhere origin rfl)
      · exact file_compatible id
      · exact (cleanup step member).2 path contents message
  | soloOwner =>
    cases ok
    refine ⟨fun step member => ?_,rules_cleanup,fun path contents message origin step member => ?_⟩
    · rcases List.mem_cons.mp member with rfl | member
      · exact ⟨rfl,rfl,rfl,rfl,approvals⟩
      · exact (cleanup step member).1
    · rcases List.mem_cons.mp member with rfl | member
      · exact file_compatible id
      · exact (cleanup step member).2 path contents message
  | bridgePosted =>
    cases ok
    refine ⟨fun step member => ?_,List.pairwise_append.mpr ⟨rules_cleanup,List.pairwise_singleton _ _,fun step member other here => ?_⟩,
      fun path contents message origin step member => ?_⟩
    · simp only [List.cons_append,List.mem_append,List.mem_cons,List.not_mem_nil,or_false] at member
      rcases member with rfl | member | rfl
      · exact ⟨rfl,rfl,rfl,rfl,approvals⟩
      · exact (cleanup step member).1
      · exact fun reviews => (by cases reviews)
    · cases List.mem_singleton.mp here
      rcases List.mem_cons.mp member with rfl | member
      · exact ruleset_compatible id
      · obtain ⟨name,same⟩ := cleanup_compatible.2 step member
        rw [same]
        exact variable_compatible id
    · simp only [List.cons_append,List.mem_append,List.mem_cons,List.not_mem_nil,or_false] at member
      rcases member with rfl | member | rfl
      · exact file_compatible id
      · exact (cleanup step member).2 path contents message
      · refine file_compatible fun same => ?_
        cases origin with
        | extra file inside => exact (apart file inside).1 same
        | workflow commits => cases commits
        | keyring commits => cases commits

theorem github_plannable (agreeing : Agreeing cfg) (unhosted : how ≠ .requiredWorkflow) (approvals : cfg.requiredApprovals < 2 ^ 8)
    (words : ∀ account, Word (world.login account))
    (tidied : ∀ file ∈ cfg.extraFiles, file.path ∈ codeownersLocations → Tidied file.contents) {plan : List BootstrapStep}
    (ok : Workflow.GitHub.githubPlan repo cfg checkout how = .ok plan) : Plannable world (how.reviews = true) plan := by
  obtain ⟨_,_,keyring,extra,last,_,extras,guarded,rfl⟩ := Workflow.GitHub.github_accepts ok
  have apart := (extra_steps cfg.extraFiles extras).2.1
  have community : Tidied (extra.2.getD []) := by
    rcases community_given cfg.extraFiles extras with same | ⟨file,member,location,same⟩
    · rw [same]
      exact tidied_empty
    · rw [same]
      exact tidied file member location
  obtain ⟨fits,pairs,after⟩ := guard_compatible unhosted approvals community apart guarded
  have files : ∀ step ∈ (if how.commits then Workflow.GitHub.committedSteps repo cfg checkout keyring else []) ++ extra.1,
      ∃ path contents message, step.action = .writeFile path contents message ∧ Origin repo cfg checkout how keyring path contents :=
    files_origin extras
  refine ⟨words,fun step member => ?_,?_⟩
  · rcases List.mem_append.mp member with member | member
    · obtain ⟨path,contents,message,same,origin⟩ := files step member
      rw [same]
      exact origin_elsewhere origin
    · exact fits step member
  · refine List.pairwise_append.mpr ⟨List.pairwise_of_forall_mem_list fun left one right two => ?_,pairs,fun step member other later => ?_⟩
    · obtain ⟨path,contents,message,same,origin⟩ := files left one
      obtain ⟨path',contents',message',same',origin'⟩ := files right two
      rw [same,same']
      by_cases here : path = path'
      · subst here
        cases origin_one agreeing apart origin origin'
        exact .inr ⟨path,contents,message,message',rfl,rfl⟩
      · exact file_compatible here
    · obtain ⟨path,contents,message,same,origin⟩ := files step member
      rw [same]
      exact after path contents message origin other later

end

theorem kind_step {kind other : Query → Prop} {α : Type} {here there : Repository × Code α} (step : (alone world kind).Step here there) :
    (alone world other).Step here there := by
  cases step with
  | own answered => exact .own answered
  | other act => exact absurd act id

-- A run that only reads leaves the repository as it was.
theorem reading_steps {α : Type} {post : α → Repository → Prop} {here there : Repository × Code α}
    (steps : Relation.ReflTransGen (alone world fun _ => True).Step here there) (holds : (reading world).Holds post here.2 here.1) :
    there.1 = here.1 ∧ (reading world).Holds post there.2 there.1 := by
  induction steps with
  | refl => exact ⟨rfl,holds⟩
  | tail _ step ih =>
    obtain ⟨same,holds⟩ := ih
    refine ⟨?_,step_holds (kind_step step) holds⟩
    cases step with
    | own answered => exact (read_same answered.1 (step_guarantee holds answered)).trans same
    | other act => exact absurd act id

-- A request that would change something can always be refused.
theorem answerable {kind : Query → Prop} {q : Query} (writes : ¬q.Reads) : ∃ a, (alone world kind).serve q s a s := by
  have plain : ∀ {q : Query} {a : q.Answer}, ¬(∃ request, q = .writeRuleset request) → Stores q s a s :=
    fun other request same => absurd ⟨request,same⟩ other
  cases q with
  | putContent | deleteContent | patchVariable | postVariable | deleteVariable =>
    refine ⟨.error (.unavailable []),.refused ⟨_,rfl⟩,trivial,plain ?_⟩
    rintro ⟨_,same⟩
    cases same
  | writeRuleset request => exact ⟨.error (.unavailable []),.refused ⟨_,rfl⟩,trivial,fun _ _ => .inl ⟨⟨_,rfl⟩,rfl⟩⟩
  | namespaceWorkflow contents check message =>
    refine ⟨.ok .unchanged,.shown (.namespaceWorkflow _),trivial,plain ?_⟩
    rintro ⟨_,same⟩
    cases same
  | _ => exact absurd trivial writes

-- A job of the whole plan that ended well has nothing left for the next one:
-- whatever of the plan that one is to do, no request of it changes anything, and
-- where it ends well every step is reported unchanged.
theorem bootstrap_again {repo : Workflow.Resource} {cfg : VgiConfig} {checkout : Str} {how : CheckGuard} {told report : Report}
    {configured configured' : Bool} {only : Option (List Str)} {there : Repository × Code (Bool × Report)}
    (planned : world.plan = Workflow.GitHub.githubPlan repo cfg checkout how) (unhosted : how ≠ .requiredWorkflow)
    (agreeing : Agreeing cfg) (approvals : cfg.requiredApprovals < 2 ^ 8) (words : ∀ account, Word (world.login account))
    (tidied : ∀ file ∈ cfg.extraFiles, file.path ∈ codeownersLocations → Tidied file.contents)
    (numbered : Numbered s) (tidy : how.reviews = true → Tidy s)
    (first : Relation.ReflTransGen (alone world fun _ => True).Step (s,runBootstrap adapter configured none report) (t,.done (true,told)))
    (again : Relation.ReflTransGen (alone world fun _ => True).Step (t,runBootstrap adapter configured' only {}) there) :
    there.1 = t ∧ (∀ q next, there.2 = .call q next → q.Reads) ∧ ∀ report, there.2 = .done (true,report) → Unchanged report := by
  have plannable : ∀ plan, world.plan = .ok plan → Plannable world (how.reviews = true) plan :=
    fun plan given => github_plannable agreeing unhosted approvals words tidied (planned.symm.trans given)
  have ends : (whole world).Holds (fun r t => Numbered t ∧ (r.1 = true → Complete world adapter t))
      (runBootstrap adapter configured none report) s := bootstrap_ends plannable configured report numbered tidy
  obtain ⟨fresh,settled⟩ := holds_value (steps_holds first ends)
  obtain ⟨plan,given,settled⟩ := settled rfl
  obtain ⟨same,holds⟩ := reading_steps again (bootstrap_idle given settled configured' only {} (fun _ member => absurd member List.not_mem_nil) fresh)
  refine ⟨same,fun q next asks => ?_,fun report ended => ?_⟩
  · rw [asks] at holds
    by_contra writes
    have answered : ∃ a, (reading world).serve q there.1 a there.1 := answerable writes
    exact writes (step_guarantee holds answered.choose_spec)
  · rw [ended] at holds
    exact (holds_value holds).2 rfl

end

namespace Sample
open Workflow.Sample (plain repo)

def world : World := ⟨Workflow.GitHub.githubPlan repo plain checkout .bridgePosted,15368,fun _ => text "alice"⟩

def posting : Adapter := ⟨1,true,[]⟩

-- A request that changes something is only answered where the sample has one.
def reply : (q : Query) → Repository → Option (q.Answer × Repository)
  | .plan,s => some (world.plan,s)
  | .token _,s => some (.ok (),s)
  | .content path,s => some (.ok (s.entries path),s)
  | .getVariable name,s => some (.ok (s.settings name),s)
  | .repository,s => some (.ok s.defaultBranch,s)
  | .rulesets,s => some (.ok (s.rulesets.map fun r => (r.id,r.name)),s)
  | .ruleset id,s => match s.rulesets.find? fun r => r.id = id with
    | none => none
    | some r => match Ruleset.rulesetJson r.document with
      | none => none
      | some rs => some (.ok (some rs),s)
  | .writeRuleset (.post (.object fields)),s =>
    if ((Did.Value.object fields).get (ascii "id")).isNone ∧ ((Did.Value.object fields).get (ascii "current_user_can_bypass")).isNone ∧
        s.rulesets.isEmpty then
      some (.ok (),{ s with rulesets := Ruleset.answered Ruleset.Sample.read 7 s.rulesets (.post (.object fields)) })
    else none
  | _,_ => none

theorem read_back {fields : List (Bytes × Did.Value)} (free : (Did.Value.object fields).get (ascii "id") = none)
    (asking : (Did.Value.object fields).get (ascii "current_user_can_bypass") = none) (id : UInt64) :
    Ruleset.ReadBack (.object fields) (Ruleset.Sample.read id (.object fields)) := by
  have other : ascii "id" ≠ ascii "current_user_can_bypass" := by decide
  have bypass : (Ruleset.Sample.read id (.object fields)).get (ascii "current_user_can_bypass") = none := by
    have skipped : (Ruleset.Sample.read id (.object fields)).get (ascii "current_user_can_bypass") =
        (Did.Value.object fields).get (ascii "current_user_can_bypass") := by
      simp [Ruleset.Sample.read,Did.Value.get,other]
    rw [skipped,asking]
  refine ⟨Json.kept_added _ _ _ free,⟨id,?_⟩,⟨none,?_,rfl⟩⟩
  · exact Json.asU64_id id
  · rw [bypass]
    rfl

theorem read_listed (fields : List (Bytes × Did.Value)) (id : UInt64) {rs : Ruleset.RulesetJson}
    (read : Ruleset.rulesetJson (Ruleset.Sample.read id (.object fields)) = some rs) : rs.id = id := by
  have shown : Json.required Json.asU64 (some (Json.natural id.toNat)) = some id := Json.asU64_id id
  have first : (Ruleset.Sample.read id (.object fields)).get (ascii "id") = some (Json.natural id.toNat) := by
    simp [Ruleset.Sample.read,Did.Value.get]
  unfold Ruleset.rulesetJson at read
  obtain ⟨member,found,read⟩ := Option.bind_eq_some_iff.mp read
  cases found
  obtain ⟨own,found,read⟩ := Option.bind_eq_some_iff.mp read
  have given : Json.required Json.asU64 ((Ruleset.Sample.read id (.object fields)).get (ascii "id")) = some own := found
  rw [first,shown] at given
  cases given
  simp only [Option.bind_eq_bind,Option.bind_eq_some_iff] at read
  obtain ⟨_,_,_,_,_,_,_,_,_,_,_,_,same⟩ := read
  cases same
  rfl

theorem reply_serves (q : Query) (s : Repository) (a : q.Answer) (t : Repository) (replied : reply q s = some (a,t)) :
    (alone world fun _ => True).serve q s a t := by
  have plain : ∀ {q : Query} {a : q.Answer}, ¬(∃ request, q = .writeRuleset request) → Stores q s a s :=
    fun other request same => absurd ⟨request,same⟩ other
  have shown : ∀ {q : Query} {a : q.Answer}, Shown (· = world.plan) q s a → Steady world q a → ¬(∃ request, q = .writeRuleset request) →
      (alone world fun _ => True).serve q s a s := fun shown steady other => ⟨.shown shown,steady,plain other⟩
  cases q with
  | plan =>
    cases replied
    exact shown (.plan rfl) trivial (fun no => (by cases no.choose_spec))
  | token =>
    cases replied
    exact shown .token trivial (fun no => (by cases no.choose_spec))
  | content =>
    cases replied
    exact shown .content trivial (fun no => (by cases no.choose_spec))
  | getVariable =>
    cases replied
    exact shown .getVariable trivial (fun no => (by cases no.choose_spec))
  | repository =>
    cases replied
    exact shown .repository trivial (fun no => (by cases no.choose_spec))
  | rulesets =>
    cases replied
    exact shown .rulesets trivial (fun no => (by cases no.choose_spec))
  | ruleset id =>
    simp only [reply] at replied
    split at replied
    · cases replied
    rename_i r found
    split at replied
    · cases replied
    rename_i rs read
    cases replied
    have same : r.id = id := by simpa using List.find?_some found
    subst same
    exact shown (.ruleset (List.mem_of_find?_eq_some found) read) trivial (fun no => (by cases no.choose_spec))
  | writeRuleset request =>
    cases request with
    | put => cases replied
    | post body =>
      cases body with
      | object fields =>
        simp only [reply] at replied
        split at replied
        · rename_i free
          cases replied
          obtain ⟨id,asking,none_⟩ := free
          have empty : s.rulesets = [] := List.isEmpty_iff.mp none_
          refine ⟨.done (.ruleset Ruleset.Sample.read 7) rfl,trivial,fun request same => .inr ⟨Ruleset.Sample.read,7,?_,?_,?_,?_⟩⟩
          · rw [empty]
            exact fun r member => absurd member List.not_mem_nil
          · cases same
            exact fun id => read_back (Option.isNone_iff_eq_none.mp ‹_›) (Option.isNone_iff_eq_none.mp asking) id
          · cases same
            exact fun id rs read => read_listed fields id read
          · cases same
            rfl
        · cases replied
      | _ => cases replied
  | _ => cases replied

theorem numbered : Numbered empty := ⟨List.nodup_nil,fun _ member => absurd member List.not_mem_nil⟩

theorem alice : Word (text "alice") := by
  have plain : (text "alice").any Qualified.isWhitespace = false ∧ '#' ∉ text "alice" := by decide
  exact ⟨by decide,fun c inside => Bool.eq_false_iff.mpr (List.any_eq_false.mp plain.1 c inside),plain.2⟩

-- The bridge posts the check: no file is committed, and the branch is protected.
def twice : Option ((Bool × Nat) × (Bool × Nat)) :=
  ((runBootstrap posting true none {}).run reply empty).bind fun first =>
    ((runBootstrap posting true none {}).run reply first.2).map fun second =>
      ((first.1.1,first.2.rulesets.length),(second.1.1,second.1.2.steps.length))

theorem twice_ran : twice = some ((true,1),(true,3)) := by decide +kernel

end Sample

theorem bootstrap_again_posted : ∃ (t : Repository) (told report : Report), t.rulesets.length = 1 ∧ report.steps.length = 3 ∧
    Relation.ReflTransGen (alone Sample.world fun _ => True).Step (Sample.empty,runBootstrap Sample.posting true none {}) (t,.done (true,told)) ∧
    Relation.ReflTransGen (alone Sample.world fun _ => True).Step (t,runBootstrap Sample.posting true none {}) (t,.done (true,report)) ∧
    Unchanged report := by
  have ran := Sample.twice_ran
  unfold Sample.twice at ran
  obtain ⟨⟨⟨ended,told⟩,t⟩,first,ran⟩ := Option.bind_eq_some_iff.mp ran
  obtain ⟨⟨⟨ended',report⟩,u⟩,second,same⟩ := Option.map_eq_some_iff.mp ran
  simp only [Prod.mk.injEq] at same
  obtain ⟨⟨rfl,one⟩,rfl,three⟩ := same
  have steps := run_steps (w := alone Sample.world fun _ => True) Sample.reply_serves _ first
  have more := run_steps (w := alone Sample.world fun _ => True) Sample.reply_serves _ second
  have planned : Sample.world.plan = Workflow.GitHub.githubPlan Workflow.Sample.repo Workflow.Sample.plain Sample.checkout
    .bridgePosted := rfl
  obtain ⟨same,_,unchanged⟩ := bootstrap_again planned (fun same => (by cases same)) Sample.plain_agreeing (by decide) (fun _ => Sample.alice)
    (fun _ member => absurd member List.not_mem_nil) Sample.numbered (fun reviews => (by cases reviews)) steps more
  dsimp only at same
  subst same
  exact ⟨u,told,report,one,three,steps,more,unchanged report rfl⟩

end VerifiableGit.Bootstrap
