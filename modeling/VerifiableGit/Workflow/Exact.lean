import VerifiableGit.Workflow.Accepted

-- The files the two plans write, whole.
namespace VerifiableGit.Workflow
open Qualified (Str text contains)
open Library.Occurrences

theorem linesOf_break (rest : Str) : linesOf (newline :: rest) = [] :: linesOf rest := by
  rw [linesOf,if_pos rfl]

theorem lines_inside (s : Str) : (∀ line ∈ (linesOf s).head?, line <+: s) ∧ ∀ line ∈ linesOf s, line <:+: s := by
  induction s with
  | nil => exact ⟨nofun,nofun⟩
  | cons c rest ih =>
    obtain ⟨first,inside⟩ := ih
    have later : ∀ line ∈ linesOf rest, line <:+: c :: rest := fun line member => (inside line member).trans (List.suffix_cons c rest).isInfix
    by_cases ends : c = newline
    · rw [ends,linesOf_break]
      refine ⟨fun line here => ?_,fun line member => ?_⟩
      · cases here
        exact List.nil_prefix
      · rcases List.mem_cons.mp member with rfl | member
        · exact List.nil_infix
        · exact ends ▸ later line member
    by_cases both : c = carriageReturn ∧ rest.head? = some newline
    · rw [linesOf,if_neg ends,if_pos both]
      refine ⟨fun line here => ?_,later⟩
      obtain ⟨more,rfl⟩ := List.head?_eq_some_iff.mp both.2
      rw [linesOf_break] at here
      cases here
      exact List.nil_prefix
    · rw [linesOf,if_neg ends,if_neg both]
      cases split : linesOf rest with
      | nil =>
        have single : [c] <+: c :: rest := ⟨rest,rfl⟩
        refine ⟨fun line here => ?_,fun line member => ?_⟩
        · cases here
          exact single
        · rw [List.mem_singleton.mp member]
          exact single.isInfix
      | cons line more =>
        rw [split] at first later
        have longer : c :: line <+: c :: rest := List.cons_prefix_cons.mpr ⟨rfl,first line rfl⟩
        refine ⟨fun l here => ?_,fun l member => ?_⟩
        · cases here
          exact longer
        · rcases List.mem_cons.mp member with rfl | member
          · exact longer.isInfix
          · exact later l (List.mem_cons_of_mem _ member)

theorem linesOf_unbroken (s : Str) (paired : GitHub.loneCr s = false) : ∀ line ∈ linesOf s, Unbroken line := by
  induction s with
  | nil => exact nofun
  | cons c rest ih =>
    obtain ⟨here,rest_⟩ := Bool.or_eq_false_iff.mp paired
    have later := ih rest_
    by_cases ends : c = newline
    · rw [ends,linesOf_break]
      intro line member
      rcases List.mem_cons.mp member with rfl | member
      · exact nofun
      · exact later line member
    by_cases both : c = carriageReturn ∧ rest.head? = some newline
    · rw [linesOf,if_neg ends,if_pos both]
      exact later
    have plain : isBreak c = false := by
      have single : c ≠ carriageReturn := by
        intro same
        have follows : rest.head? ≠ some newline := fun next => both ⟨same,next⟩
        simp [same,follows] at here
      simp [isBreak,ends,single]
    rw [linesOf,if_neg ends,if_neg both]
    cases split : linesOf rest with
    | nil =>
      intro line member d inside
      rw [List.mem_singleton.mp member] at inside
      exact List.mem_singleton.mp inside ▸ plain
    | cons line more =>
      rw [split] at later
      intro l member
      rcases List.mem_cons.mp member with rfl | member
      · intro d inside
        rcases List.mem_cons.mp inside with rfl | inside
        · exact plain
        · exact later line List.mem_cons_self d inside
      · exact later l (List.mem_cons_of_mem _ member)

-- A literal's characters, without its bytes between.
theorem text_ofList (l : List Char) : text (String.ofList l) = l := String.toList_ofList

theorem text_unbroken (l : List Char) (whole : l.any isBreak = false) : (text (String.ofList l)).any isBreak = false := by
  rw [text_ofList]
  exact whole

theorem filled_fine (l m : List Char) (style : Style) (value : Str)
    (whole : (!l.any isBreak && !m.any isBreak && decide (l.getLast? = some ' ') && m.head?.all (· = '/')) = true) :
    (Line.filled (text (String.ofList l)) style value (text (String.ofList m))).fine = true := by
  rw [text_ofList,text_ofList]
  exact whole

-- A file read line by line.
inductive Template : List Line → Prop
  | nil : Template []
  | fixed (l : List Char) (rest : List Line) (whole : (!l.any isBreak) = true) (later : Template rest) :
    Template (fixed (String.ofList l) :: rest)
  | joined (l m : List Char) (rest : List Line) (whole : (!(l ++ m).any isBreak) = true) (later : Template rest) :
    Template (.fixed (text (String.ofList l) ++ text (String.ofList m)) :: rest)
  | concat (l m : List Char) (rest : List Line) (whole : (!(l ++ m).any isBreak) = true) (later : Template rest) :
    Template (Workflow.fixed (String.ofList l ++ String.ofList m) :: rest)
  | filled (l : List Char) (style : Style) (value : Str) (rest : List Line)
    (whole : (!l.any isBreak && decide (l.getLast? = some ' ')) = true) (later : Template rest) :
    Template (filled (String.ofList l) style value :: rest)
  | line (line : Line) (rest : List Line) (fine : line.fine = true) (later : Template rest) : Template (line :: rest)

theorem template_fine {file : List Line} (template : Template file) : file.all Line.fine = true := by
  induction template with
  | nil => rfl
  | fixed l rest whole later ih =>
    rw [List.all_cons,ih,fixed,text_ofList,Bool.and_true]
    exact whole
  | joined l m rest whole later ih =>
    rw [List.all_cons,ih,text_ofList,text_ofList,Bool.and_true]
    exact whole
  | concat l m rest whole later ih =>
    rw [List.all_cons,ih,fixed,text,String.toList_append,String.toList_ofList,String.toList_ofList,Bool.and_true]
    exact whole
  | filled l style value rest whole later ih =>
    rw [List.all_cons,ih,filled,text_ofList,Bool.and_true]
    simpa [Line.fine] using whole
  | line line rest fine later ih =>
    rw [List.all_cons,ih,fine]
    rfl

namespace GitHub

theorem workflow_each {P : Line → Prop} (own : ∀ line, P (.fixed line)) (cfg : VgiConfig) (checkout : Str) (repo : Resource) :
    (∀ line ∈ workflow cfg checkout repo, P line) ↔
      P (filled "    name: " .single cfg.requiredCheck) ∧ P (filled "      - uses: " .plain checkout) ∧
      P (filled "        uses: " .plain cfg.verifyTrustAction) ∧
      P (filled "          registry-did: " .single cfg.trustRegistryDid) ∧ P (filled "          vtc-did: " .single cfg.vtcDid) ∧
      (∀ line ∈ transportLine cfg.verifyTrustTransport, P line) ∧ P (fallbackLine repo) ∧
      P (filled "          version: " .plain cfg.verifyTrustVersion) := by
  simp only [workflow,header,job,verify,identities,fallbackBlock,fixed,own,List.forall_mem_append,List.forall_mem_cons,
    List.not_mem_nil,false_imp_iff,implies_true,true_and,and_true,and_assoc]

theorem required_each {P : Line → Prop} (own : ∀ line, P (.fixed line)) (cfg : VgiConfig) (checkout : Str) (repo : Resource)
    (keyring : Str) : (∀ line ∈ requiredWorkflow cfg checkout repo keyring, P line) ↔
      P (filled "    name: " .single cfg.requiredCheck) ∧ P (filled "      - uses: " .plain checkout) ∧
      (∀ line ∈ linesOf keyring, P (.embedded line)) ∧
      P (filled "        uses: " .plain cfg.verifyTrustAction) ∧
      P (filled "          registry-did: " .single cfg.trustRegistryDid) ∧ P (filled "          vtc-did: " .single cfg.vtcDid) ∧
      (∀ line ∈ transportLine cfg.verifyTrustTransport, P line) ∧ P (fallbackLine repo) ∧
      P (filled "          version: " .plain cfg.verifyTrustVersion) := by
  simp only [requiredWorkflow,header,job,verify,identities,fallbackBlock,fixed,own,List.forall_mem_append,List.forall_mem_cons,
    List.not_mem_nil,false_imp_iff,implies_true,List.forall_mem_map,true_and,and_true,and_assoc]

theorem job_fine (cfg : VgiConfig) (checkout : Str) : (job cfg checkout).all Line.fine = true := by
  refine template_fine ?_
  unfold job
  repeat' first
    | refine .fixed _ _ (by decide) ?_
    | refine .filled _ _ _ _ (by decide) ?_
    | exact .nil

theorem verify_fine (cfg : VgiConfig) : (verify cfg).all Line.fine = true := by
  refine template_fine ?_
  unfold verify
  refine .fixed _ _ (by decide) (.filled _ _ _ _ (by decide) ?_)
  iterate 3 refine .fixed _ _ (by decide) ?_
  exact .concat _ _ _ (by decide) .nil

theorem header_fine : header.all Line.fine = true := by
  refine template_fine ?_
  unfold header
  iterate 4 refine .fixed _ _ (by decide) ?_
  exact .nil

theorem transport_fine (t : VerifyTransport) : (transportLine t).all Line.fine = true := by
  unfold transportLine
  split
  · rfl
  · exact template_fine (.filled _ _ _ _ (by decide) .nil)

theorem fallback_fine (repo : Resource) : (fallbackLine repo).fine = true := filled_fine _ _ _ _ (by decide)

theorem identities_fine (cfg : VgiConfig) : (identities cfg).all Line.fine = true := by
  simp only [identities,List.all_append,transport_fine,Bool.and_true,Bool.and_eq_true]
  refine ⟨template_fine ?_,template_fine (.fixed _ _ (by decide) .nil)⟩
  exact .filled _ _ _ _ (by decide) (.filled _ _ _ _ (by decide) .nil)

theorem block_fine (repo : Resource) : (fallbackBlock repo).all Line.fine = true :=
  template_fine (.fixed _ _ (by decide) (.line _ _ (fallback_fine repo) .nil))

theorem workflow_fine (cfg : VgiConfig) (checkout : Str) (repo : Resource) : (workflow cfg checkout repo).all Line.fine = true := by
  simp only [workflow,List.all_append,header_fine,job_fine,verify_fine,identities_fine,block_fine,Bool.and_true,Bool.and_eq_true]
  and_intros
  all_goals
    refine template_fine ?_
    repeat' first
      | refine .fixed _ _ (by decide) ?_
      | refine .filled _ _ _ _ (by decide) ?_
      | refine .joined _ _ _ (by decide) ?_
      | exact .nil

theorem required_fine (cfg : VgiConfig) (checkout : Str) (repo : Resource) (keyring : Str) :
    (requiredWorkflow cfg checkout repo keyring).all Line.fine = true := by
  have embedded : ((linesOf keyring).map Line.embedded).all Line.fine = true := by
    simp only [List.all_map,List.all_eq_true]
    exact fun _ _ => rfl
  have named : (Line.fixed (text "# repositories by the org ruleset \"" ++ orgRulesetName ++ text "\" at a pinned commit. A change")).fine = true := by
    rw [Line.fine,List.any_append,List.any_append,text_unbroken _ (by decide),text_unbroken _ (by decide),orgRulesetName,text_unbroken _ (by decide)]
    rfl
  simp only [requiredWorkflow,List.all_append,header_fine,job_fine,verify_fine,identities_fine,block_fine,embedded,Bool.and_true,
    Bool.and_eq_true]
  and_intros
  all_goals
    refine template_fine ?_
    repeat' first
      | refine .fixed _ _ (by decide) ?_
      | refine .filled _ _ _ _ (by decide) ?_
      | refine .line _ _ named ?_
      | exact .nil

end GitHub

theorem ok_bind {x : Except ε α} {f : α → Except ε β} {c : β} : (x >>= f) = .ok c ↔ ∃ a, x = .ok a ∧ f a = .ok c := by
  cases x with
  | error e => exact ⟨fun ok => (nomatch ok),fun ⟨_,none_,_⟩ => (nomatch none_)⟩
  | ok a =>
    refine ⟨fun ok => ⟨a,rfl,ok⟩,?_⟩
    rintro ⟨b,same,ok⟩
    cases same
    exact ok

theorem check_ok {good : Bool} {e : ε} : (if good then (.ok () : Except ε Unit) else .error e) = .ok () ↔ good = true := by
  cases good with
  | true => exact ⟨fun _ => rfl,fun _ => rfl⟩
  | false => exact ⟨fun ok => (nomatch ok),fun ok => (nomatch ok)⟩

theorem refuse_ok {bad : Bool} {e : ε} : (if bad then .error e else (.ok () : Except ε Unit)) = .ok () ↔ bad = false := by
  cases bad with
  | true => exact ⟨fun ok => (nomatch ok),fun ok => (nomatch ok)⟩
  | false => exact ⟨fun _ => rfl,fun _ => rfl⟩

-- What a file of either plan holds, whatever the plan.
structure Accepted (cfg : VgiConfig) (checkout action : Str) : Prop where
  registry : isDid cfg.trustRegistryDid = true
  vtc : isDid cfg.vtcDid = true
  checkout : Wordy checkout
  action : Wordy action
  version : isLabel 64 cfg.verifyTrustVersion = true
  name : ∃ most, badName most cfg.requiredCheck = false

-- The contents a plan gives its workflow.
def workflowsOf (path : Str) (steps : List BootstrapStep) : List (List UInt8) := steps.filterMap fun step =>
  match step.action with
  | .writeFile p contents _ => if p = path then some contents else none
  | .requireNamespaceWorkflow contents _ _ => some contents
  | _ => none

theorem workflows_append (path : Str) (left right : List BootstrapStep) :
    workflowsOf path (left ++ right) = workflowsOf path left ++ workflowsOf path right := List.filterMap_append

theorem workflows_cons (path : Str) (step : BootstrapStep) (rest : List BootstrapStep) :
    workflowsOf path (step :: rest) = workflowsOf path [step] ++ workflowsOf path rest := workflows_append path [step] rest

namespace GitHub

def workflowFiles (repo : Resource) (cfg : VgiConfig) (checkout : Str) : CheckGuard → List (List Line)
  | .requiredWorkflow => (cfg.platformKeyring.bind fromUtf8).toList.map (requiredWorkflow cfg checkout repo)
  | .ownerReview _ | .soloOwner => [workflow cfg checkout repo]
  | .bridgePosted => []

theorem did_ok {field did : Str} : checkDid field did = .ok () ↔ contains expressionMark did = false ∧ isDid did = true := by
  rw [checkDid,check_ok,Bool.and_eq_true,Bool.not_eq_true']

theorem github_accepts {repo : Resource} {cfg : VgiConfig} {checkout : Str} {how : CheckGuard} {steps : List BootstrapStep}
    (ok : githubPlan repo cfg checkout how = .ok steps) : Accepted cfg checkout cfg.verifyTrustAction ∧
      (contains expressionMark cfg.trustRegistryDid = false ∧ contains expressionMark cfg.vtcDid = false) ∧
      ∃ keyring extra last, checkKeyringFor cfg.platformKeyring how = .ok keyring ∧
        extraSteps how none cfg.extraFiles = .ok extra ∧ guardSteps repo cfg checkout keyring extra.2 how = .ok last ∧
        steps = (if how.commits then committedSteps repo cfg checkout keyring else []) ++ extra.1 ++ last := by
  unfold githubPlan at ok
  simp only [Qualified.check_then] at ok
  obtain ⟨_,registry,vtc,pinned,action,version,name,ok⟩ := ok
  obtain ⟨keyring,checked,ok⟩ := ok_bind.mp ok
  obtain ⟨extra,extras,ok⟩ := ok_bind.mp ok
  obtain ⟨last,guarded,same⟩ := ok_bind.mp ok
  have first := did_ok.mp registry
  have second := did_ok.mp vtc
  refine ⟨⟨first.2,second.2,pinned_wordy (check_ok.mp pinned),pinned_wordy (check_ok.mp action),check_ok.mp version,100,
    refuse_ok.mp name⟩,⟨first.1,second.1⟩,keyring,extra,last,checked,extras,guarded,?_⟩
  exact (Except.ok.inj same).symm

theorem extras_unmanaged {how : CheckGuard} {community : Option (List UInt8)} (files : List ExtraFile)
    {extra : List BootstrapStep × Option (List UInt8)} (ok : extraSteps how community files = .ok extra) :
    workflowsOf workflowPath extra.1 = [] := by
  induction files generalizing community extra with
  | nil =>
    cases ok
    rfl
  | cons file rest ih =>
    rw [extraSteps,Qualified.check_then] at ok
    obtain ⟨_,ok⟩ := ok
    split at ok
    · cases ok
    rename_i other
    split at ok
    · split at ok
      · cases ok
      · exact ih ok
    · obtain ⟨more,found,same⟩ := ok_bind.mp ok
      cases same
      have free : workflowsOf workflowPath [extraStep file] = [] := by
        have differ : file.path ≠ workflowPath := fun here => other (.inl here)
        simp [workflowsOf,extraStep,fileStep,differ]
      rw [workflows_cons,free,ih found]
      rfl

theorem committed_workflows (repo : Resource) (cfg : VgiConfig) (checkout : Str) (keyring : List UInt8) :
    workflowsOf workflowPath (committedSteps repo cfg checkout keyring) = [intoBytes (print (workflow cfg checkout repo))] := by
  have other : keyringPath ≠ workflowPath := by decide
  simp [workflowsOf,committedSteps,fileStep,renderWorkflow,other]

-- The keyring of a required workflow: no expression, no lone `\r`.
structure Embeddable (keyring : List UInt8) (armored : Str) : Prop where
  decoded : fromUtf8 keyring = some armored
  unmarked : contains expressionMark armored = false
  paired : loneCr armored = false

theorem embeddable_ok {keyring : List UInt8} (ok : checkEmbeddableKeyring keyring = .ok ()) :
    ∃ armored, Embeddable keyring armored := by
  unfold checkEmbeddableKeyring at ok
  cases decoded : fromUtf8 keyring with
  | none =>
    rw [decoded] at ok
    cases ok
  | some armored =>
    rw [decoded] at ok
    obtain ⟨clean,_⟩ := Bool.or_eq_false_iff.mp (refuse_ok.mp ok)
    obtain ⟨unmarked,paired⟩ := Bool.or_eq_false_iff.mp clean
    exact ⟨armored,decoded,unmarked,paired⟩

theorem required_guard {repo : Resource} {cfg : VgiConfig} {checkout : Str} {keyring : List UInt8}
    {community : Option (List UInt8)} {last : List BootstrapStep}
    (ok : guardSteps repo cfg checkout keyring community .requiredWorkflow = .ok last) : ∃ armored, Embeddable keyring armored ∧
      workflowsOf workflowPath last = [intoBytes (print (requiredWorkflow cfg checkout repo armored))] := by
  unfold guardSteps at ok
  obtain ⟨checked,ok⟩ := Qualified.check_then.mp ok
  obtain ⟨contents,rendered,same⟩ := ok_bind.mp ok
  obtain ⟨armored,embeddable⟩ := embeddable_ok checked
  rw [renderRequiredWorkflow,embeddable.decoded] at rendered
  cases rendered
  cases same
  exact ⟨armored,embeddable,by simp [workflowsOf,cleanupVariables,rulesetStep]⟩

theorem other_guard {repo : Resource} {cfg : VgiConfig} {checkout : Str} {keyring : List UInt8}
    {community : Option (List UInt8)} {how : CheckGuard} {last : List BootstrapStep} (other : how ≠ .requiredWorkflow)
    (ok : guardSteps repo cfg checkout keyring community how = .ok last) : workflowsOf workflowPath last = [] := by
  unfold guardSteps at ok
  cases how with
  | requiredWorkflow => exact absurd rfl other
  | ownerReview owners =>
    dsimp only at ok
    split at ok
    · cases ok
    split at ok
    · cases ok
    cases ok
    simp [workflowsOf,cleanupVariables,rulesetStep]
  | soloOwner =>
    cases ok
    simp [workflowsOf,cleanupVariables,rulesetStep]
  | bridgePosted =>
    cases ok
    simp [workflowsOf,cleanupVariables,rulesetStep]

theorem keyring_given {keyring : Option (List UInt8)} {how : CheckGuard} {given : List UInt8} (hosted : how ≠ .bridgePosted)
    (ok : checkKeyringFor keyring how = .ok given) : keyring = some given := by
  unfold checkKeyringFor at ok
  split at ok
  · obtain ⟨_,same⟩ := Qualified.check_then.mp ok
    cases same
    rfl
  · exact absurd rfl hosted
  · cases ok

-- A GitHub plan writes these files, and no other workflow.
theorem github_workflows {repo : Resource} {cfg : VgiConfig} {checkout : Str} {how : CheckGuard} {steps : List BootstrapStep}
    (ok : githubPlan repo cfg checkout how = .ok steps) :
    workflowsOf workflowPath steps = (workflowFiles repo cfg checkout how).map fun file => intoBytes (print file) := by
  obtain ⟨_,_,keyring,extra,last,checked,extras,guarded,rfl⟩ := github_accepts ok
  rw [workflows_append,workflows_append,extras_unmanaged _ extras,List.append_nil]
  cases how with
  | requiredWorkflow =>
    obtain ⟨armored,embeddable,written⟩ := required_guard guarded
    have hosted : CheckGuard.requiredWorkflow ≠ .bridgePosted := nofun
    rw [written,workflowFiles,keyring_given hosted checked,Option.bind_some,embeddable.decoded]
    rfl
  | ownerReview owners =>
    have other : CheckGuard.ownerReview owners ≠ .requiredWorkflow := nofun
    rw [other_guard other guarded,List.append_nil]
    exact committed_workflows repo cfg checkout keyring
  | soloOwner =>
    have other : CheckGuard.soloOwner ≠ .requiredWorkflow := nofun
    rw [other_guard other guarded,List.append_nil]
    exact committed_workflows repo cfg checkout keyring
  | bridgePosted =>
    have other : CheckGuard.bridgePosted ≠ .requiredWorkflow := nofun
    rw [other_guard other guarded]
    rfl

end GitHub

-- A line that is sound and brings nothing foreign.
def Line.Tame (line : Line) : Prop := line.Sound ∧ line.foreign = 0

theorem fixed_tame (line : Str) : (Line.fixed line).Tame := ⟨trivial,rfl⟩

theorem tame_inert {file : List Line} (fine : file.all Line.fine = true) (tame : ∀ line ∈ file, line.Tame) : Inert file :=
  (inert_exact file fine fun line member => (tame line member).1).mpr fun line member => (tame line member).2

theorem name_tame {cfg : VgiConfig} {checkout action : Str} (accepted : Accepted cfg checkout action) (before : String) :
    (filled before .single cfg.requiredCheck).Tame := by
  obtain ⟨most,good⟩ := accepted.name
  exact ⟨single_sound _ (name_unbroken good),(single_foreign _ _).trans (name_unmarked good)⟩

theorem wordy_tame (before : String) {value : Str} (wordy : Wordy value) : (filled before .plain value).Tame :=
  ⟨wordy_sound _ wordy,wordy_foreign _ wordy.each⟩

theorem did_tame (before : String) {did : Str} (named : isDid did = true) (unmarked : contains expressionMark did = false) :
    (filled before .single did).Tame :=
  ⟨single_sound _ (did_unbroken named),(single_foreign _ _).trans (unmarked_zero unmarked)⟩

namespace GitHub

theorem workflow_inert {cfg : VgiConfig} {checkout : Str} (repo : Resource) (accepted : Accepted cfg checkout cfg.verifyTrustAction)
    (registry : contains expressionMark cfg.trustRegistryDid = false) (vtc : contains expressionMark cfg.vtcDid = false) :
    Inert (workflow cfg checkout repo) := by
  refine tame_inert (workflow_fine cfg checkout repo) ((workflow_each fixed_tame cfg checkout repo).mpr ?_)
  exact ⟨name_tame accepted _,wordy_tame _ accepted.checkout,wordy_tame _ accepted.action,did_tame _ accepted.registry registry,
    did_tame _ accepted.vtc vtc,transport_lines _,fallback_line repo,wordy_tame _ (label_wordy accepted.version)⟩

theorem required_inert {cfg : VgiConfig} {checkout : Str} (repo : Resource) (accepted : Accepted cfg checkout cfg.verifyTrustAction)
    (registry : contains expressionMark cfg.trustRegistryDid = false) (vtc : contains expressionMark cfg.vtcDid = false)
    {keyring : List UInt8} {armored : Str} (embeddable : Embeddable keyring armored) :
    Inert (requiredWorkflow cfg checkout repo armored) := by
  have embedded : ∀ line ∈ linesOf armored, (Line.embedded line).Tame := by
    intro line member
    refine ⟨linesOf_unbroken armored embeddable.paired line member,?_⟩
    exact occurrences_infix mark_some ((lines_inside armored).2 line member) (unmarked_zero embeddable.unmarked)
  refine tame_inert (required_fine cfg checkout repo armored) ((required_each fixed_tame cfg checkout repo armored).mpr ?_)
  exact ⟨name_tame accepted _,wordy_tame _ accepted.checkout,embedded,wordy_tame _ accepted.action,
    did_tame _ accepted.registry registry,did_tame _ accepted.vtc vtc,transport_lines _,fallback_line repo,
    wordy_tame _ (label_wordy accepted.version)⟩

theorem github_inert {repo : Resource} {cfg : VgiConfig} {checkout : Str} {how : CheckGuard} {steps : List BootstrapStep}
    (ok : githubPlan repo cfg checkout how = .ok steps) : ∀ file ∈ workflowFiles repo cfg checkout how, Inert file := by
  obtain ⟨accepted,⟨registry,vtc⟩,keyring,extra,last,checked,_,guarded,_⟩ := github_accepts ok
  intro file member
  cases how with
  | requiredWorkflow =>
    obtain ⟨armored,embeddable,_⟩ := required_guard guarded
    have hosted : CheckGuard.requiredWorkflow ≠ .bridgePosted := nofun
    rw [workflowFiles,keyring_given hosted checked,Option.bind_some,embeddable.decoded] at member
    rw [List.mem_singleton.mp member]
    exact required_inert repo accepted registry vtc embeddable
  | ownerReview owners =>
    rw [List.mem_singleton.mp member]
    exact workflow_inert repo accepted registry vtc
  | soloOwner =>
    rw [List.mem_singleton.mp member]
    exact workflow_inert repo accepted registry vtc
  | bridgePosted => cases member

end GitHub

namespace Forgejo

theorem workflow_each {P : Line → Prop} (own : ∀ line, P (.fixed line)) (cfg : VgiConfig) (opts : PlanOptions) (repo : Resource)
    (action sha256 : Str) : (∀ line ∈ workflow cfg opts repo action sha256, P line) ↔
      P (filled "name: " .single cfg.requiredCheck) ∧ P (filled "    name: " .single cfg.requiredCheck) ∧
      P (filled "    runs-on: " .double opts.runsOn) ∧ P (filled "      - uses: " .plain opts.checkoutAction) ∧
      P (filled "        uses: " .plain action) ∧ (∀ line ∈ identities cfg opts, P line) ∧
      (∀ line ∈ transportLine cfg.verifyTrustTransport, P line) ∧ P (fallbackLine repo) ∧
      P (filled "          version: " .plain cfg.verifyTrustVersion) ∧ P (filled "          sha256: " .plain sha256) := by
  have armored : ∀ line ∈ keyringLines opts.merges, P line := by
    cases opts.merges with
    | fastForwardOnly => exact nofun
    | signingKey key => simp only [keyringLines,fixed,own,List.forall_mem_cons,List.not_mem_nil,false_imp_iff,implies_true,and_true]
  simp only [workflow,fixed,own,List.forall_mem_append,List.forall_mem_cons,List.not_mem_nil,false_imp_iff,implies_true,true_and,
    and_true,and_assoc]
  simp only [eq_true armored,true_and]

theorem identities_fine (cfg : VgiConfig) (opts : PlanOptions) : (identities cfg opts).all Line.fine = true := by
  unfold identities
  refine template_fine ?_
  split
  · exact .filled _ _ _ _ (by decide) (.filled _ _ _ _ (by decide) .nil)
  · exact .fixed _ _ (by decide) (.fixed _ _ (by decide) .nil)

theorem keyring_fine (merges : MergePlan) : (keyringLines merges).all Line.fine = true := by
  refine template_fine ?_
  cases merges with
  | fastForwardOnly => exact .nil
  | signingKey key => exact .fixed _ _ (by decide) (.fixed _ _ (by decide) (.joined _ _ _ (by decide) .nil))

theorem workflow_fine (cfg : VgiConfig) (opts : PlanOptions) (repo : Resource) (action sha256 : Str) :
    (workflow cfg opts repo action sha256).all Line.fine = true := by
  simp only [workflow,List.all_append,identities_fine,keyring_fine,GitHub.transport_fine,Bool.and_true,Bool.and_eq_true]
  and_intros
  all_goals
    refine template_fine ?_
    repeat' first
      | refine .fixed _ _ (by decide) ?_
      | refine .filled _ _ _ _ (by decide) ?_
      | refine .line _ _ (GitHub.fallback_fine repo) ?_
      | exact .nil

theorem resolved_wordy {reference base action : Str} (ok : resolveAction reference base = .ok action) : Wordy action := by
  unfold resolveAction at ok
  split at ok
  · obtain ⟨pinned,same⟩ := Qualified.check_then.mp ok
    cases same
    exact pin_wordy (check_ok.mp pinned)
  split at ok
  · cases ok
  · obtain ⟨pinned,same⟩ := Qualified.check_then.mp ok
    cases same
    exact pin_wordy (check_ok.mp pinned)

theorem sha_wordy {sha256 : Str} (ok : checkSha256 sha256 = .ok ()) : Wordy sha256 := by
  obtain ⟨long,digits⟩ := Bool.and_eq_true_iff.mp (check_ok.mp ok)
  have each : ∀ c ∈ sha256, isHexDigit c = true := by
    intro c member
    rw [isHexDigit,List.all_eq_true.mp digits c member]
    rfl
  refine ⟨?_,fun c member => ?_,fun last => ?_⟩
  · rintro rfl
    cases long
  · rw [isWordChar,each c member,Bool.or_true]
    rfl
  · exact Bool.false_ne_true (Eq.trans (by decide) (each ':' (List.mem_of_getLast? last)))

theorem name_ok {name : Str} (ok : checkCheckName name = .ok ()) : badName 200 name = false := by
  unfold checkCheckName at ok
  split at ok
  · cases ok
  · exact refuse_ok.mp ok

theorem extras_unmanaged (files : List ExtraFile) {extra : List BootstrapStep} (ok : extraSteps files = .ok extra) :
    workflowsOf workflowPath extra = [] := by
  induction files generalizing extra with
  | nil =>
    cases ok
    rfl
  | cons file rest ih =>
    rw [extraSteps,Qualified.check_then] at ok
    obtain ⟨_,ok⟩ := ok
    split at ok
    · cases ok
    rename_i other
    obtain ⟨more,found,same⟩ := ok_bind.mp ok
    cases same
    have free : workflowsOf workflowPath [extraStep file] = [] := by
      have differ : file.path ≠ workflowPath := fun here => other (.inl here)
      simp [workflowsOf,extraStep,fileStep,differ]
    rw [workflows_cons,free,ih found]
    rfl

structure Planned (repo : Resource) (cfg : VgiConfig) (opts : PlanOptions) (steps : List BootstrapStep) (action sha256 : Str) :
    Prop where
  resolved : resolveAction cfg.verifyTrustAction opts.actionsBase = .ok action
  digest : cfg.verifyTrustSha256 = some sha256
  accepted : Accepted cfg opts.checkoutAction action
  runner : isLabel 100 opts.runsOn = true
  wordy : Wordy sha256
  written : workflowsOf workflowPath steps = [intoBytes (print (workflow cfg opts repo action sha256))]

theorem forgejo_planned {repo : Resource} {cfg : VgiConfig} {opts : PlanOptions} {steps : List BootstrapStep}
    (ok : forgejoPlan repo cfg opts = .ok steps) : ∃ action sha256, Planned repo cfg opts steps action sha256 := by
  unfold forgejoPlan at ok
  simp only [Qualified.check_then] at ok
  obtain ⟨_,registry,vtc,checkout,ok⟩ := ok
  obtain ⟨action,resolved,ok⟩ := ok_bind.mp ok
  obtain ⟨version,ok⟩ := Qualified.check_then.mp ok
  obtain ⟨sha256,digest,ok⟩ := ok_bind.mp ok
  simp only [Qualified.check_then] at ok
  obtain ⟨hex,name,_,runner,_,ok⟩ := ok
  obtain ⟨extra,extras,same⟩ := ok_bind.mp ok
  cases same
  have given : cfg.verifyTrustSha256 = some sha256 := by
    unfold requiredSha256 at digest
    split at digest
    · rename_i here
      cases digest
      exact here
    · cases digest
  have label := (Bool.and_eq_true_iff.mp (check_ok.mp version)).2
  refine ⟨action,sha256,resolved,given,⟨check_ok.mp registry,check_ok.mp vtc,pin_wordy (check_ok.mp checkout),resolved_wordy resolved,
    label,200,name_ok name⟩,check_ok.mp runner,sha_wordy hex,?_⟩
  have other : keyringPath ≠ workflowPath := by decide
  have armored : workflowsOf workflowPath (keyringSteps opts.merges) = [] := by
    cases opts.merges with
    | fastForwardOnly => rfl
    | signingKey key => simp [keyringSteps,workflowsOf,fileStep,other]
  have apart_ : workflowsOf workflowPath (variableSteps cfg opts) = [] := by
    unfold variableSteps
    split <;> rfl
  rw [workflows_append,workflows_append,workflows_append,apart_,extras_unmanaged _ extras,workflows_cons,
    workflows_cons _ (fileStep _ _ _ _ _),armored]
  simp [workflowsOf,fileStep,renderWorkflow]

theorem identities_sound {cfg : VgiConfig} {checkout action : Str} (accepted : Accepted cfg checkout action) (opts : PlanOptions) :
    ∀ line ∈ identities cfg opts, line.Sound := by
  unfold identities
  split
  · simp only [List.forall_mem_cons,List.not_mem_nil,false_imp_iff,implies_true,and_true]
    exact ⟨single_sound _ (did_unbroken accepted.registry),single_sound _ (did_unbroken accepted.vtc)⟩
  · simp only [fixed,List.forall_mem_cons,List.not_mem_nil,false_imp_iff,implies_true,and_true]
    exact ⟨trivial,trivial⟩

theorem identities_foreign (cfg : VgiConfig) (opts : PlanOptions) : (∀ line ∈ identities cfg opts, line.foreign = 0) ↔
    (opts.inlineVariables = true → ¬ expressionMark <:+: cfg.trustRegistryDid ∧ ¬ expressionMark <:+: cfg.vtcDid) := by
  unfold identities
  split
  · rename_i inline
    simp only [List.forall_mem_cons,List.not_mem_nil,false_imp_iff,implies_true,and_true,single_foreign,occurrences_zero mark_some]
    exact ⟨fun free _ => free,fun free => free inline⟩
  · rename_i apart_
    simp only [fixed,List.forall_mem_cons,List.not_mem_nil,false_imp_iff,implies_true,and_true]
    exact ⟨fun _ inline => absurd inline apart_,fun _ => ⟨rfl,rfl⟩⟩

theorem workflow_exact {repo : Resource} {cfg : VgiConfig} {opts : PlanOptions} {steps : List BootstrapStep} {action sha256 : Str}
    (planned : Planned repo cfg opts steps action sha256) : Inert (workflow cfg opts repo action sha256) ↔
      (opts.inlineVariables = true → ¬ expressionMark <:+: cfg.trustRegistryDid ∧ ¬ expressionMark <:+: cfg.vtcDid) := by
  have accepted := planned.accepted
  have runner := runner_line "    runs-on: " planned.runner
  have fallback := fallback_line repo
  have transport := transport_lines cfg.verifyTrustTransport
  have checkout := wordy_tame "      - uses: " accepted.checkout
  have uses := wordy_tame "        uses: " accepted.action
  have version := wordy_tame "          version: " (label_wordy accepted.version)
  have digest := wordy_tame "          sha256: " planned.wordy
  have sound : ∀ line ∈ workflow cfg opts repo action sha256, line.Sound := by
    refine (workflow_each (fun _ => trivial) cfg opts repo action sha256).mpr ?_
    exact ⟨(name_tame accepted _).1,(name_tame accepted _).1,runner.1,checkout.1,uses.1,identities_sound accepted opts,
      fun line member => (transport line member).1,fallback.1,version.1,digest.1⟩
  rw [inert_exact _ (workflow_fine cfg opts repo action sha256) sound,workflow_each (P := fun line => line.foreign = 0) (fun _ => rfl),
    identities_foreign]
  constructor
  · exact fun quiet => quiet.2.2.2.2.2.1
  · intro free
    exact ⟨(name_tame accepted _).2,(name_tame accepted _).2,runner.2,checkout.2,uses.2,free,
      fun line member => (transport line member).2,fallback.2,version.2,digest.2⟩

end Forgejo

-- GitHub's workflows have no expression, line or key but their template's; Forgejo's
-- have unless a DID that is written into it holds an expression.
theorem workflow_inert_exact (repo : Resource) (cfg : VgiConfig) :
    (∀ checkout how steps, GitHub.githubPlan repo cfg checkout how = .ok steps →
      workflowsOf GitHub.workflowPath steps =
        (GitHub.workflowFiles repo cfg checkout how).map (fun file => intoBytes (print file)) ∧
      ∀ file ∈ GitHub.workflowFiles repo cfg checkout how, Inert file) ∧
    ∀ opts steps, Forgejo.forgejoPlan repo cfg opts = .ok steps → ∃ action sha256,
      Forgejo.resolveAction cfg.verifyTrustAction opts.actionsBase = .ok action ∧ cfg.verifyTrustSha256 = some sha256 ∧
      workflowsOf Forgejo.workflowPath steps = [intoBytes (print (Forgejo.workflow cfg opts repo action sha256))] ∧
      (Inert (Forgejo.workflow cfg opts repo action sha256) ↔
        (opts.inlineVariables = true → ¬ expressionMark <:+: cfg.trustRegistryDid ∧ ¬ expressionMark <:+: cfg.vtcDid)) := by
  constructor
  · exact fun checkout how steps ok => ⟨GitHub.github_workflows ok,GitHub.github_inert ok⟩
  · intro opts steps ok
    obtain ⟨action,sha256,planned⟩ := Forgejo.forgejo_planned ok
    exact ⟨action,sha256,planned.resolved,planned.digest,planned.written,Forgejo.workflow_exact planned⟩

namespace Sample

def sha : Str := text "0123456789abcdef0123456789abcdef01234567"

def config (did : Str) : VgiConfig :=
  { trustRegistryDid := did
    vtcDid := text "did:web:v"
    verifyTrustAction := text "vgi/verify@" ++ sha
    verifyTrustVersion := text "v1"
    requiredCheck := text "Verify"
    verifyTrustSha256 := some (List.replicate 64 '0')
    platformKeyring := some (intoBytes (text "-----BEGIN PGP PUBLIC KEY BLOCK-----")) }

def repo : Resource := ⟨text "github.com/acme/lib",by decide⟩

-- An instance without Actions variables.
def options : Forgejo.PlanOptions :=
  ⟨text "https://h/vgi/checkout@" ++ sha,text "https://h/",text "docker",text "Verify",true,.fastForwardOnly⟩

def plain : VgiConfig := config (text "did:web:r")

def expressive : VgiConfig := config (text "did:web:$\x7b\x7bgithub.token\x7d\x7d")

theorem some_ok {x : Except ε α} (ok : x.isOk = true) : ∃ a, x = .ok a := by
  cases x with
  | ok a => exact ⟨a,rfl⟩
  | error e => cases ok

end Sample

open Sample in
theorem workflow_inert_exact_sample :
    Inert (GitHub.workflow plain (text "vgi/checkout@" ++ sha) repo) ∧
    ∃ action sha256, Inert (Forgejo.workflow plain options repo action sha256) := by
  obtain ⟨steps,planned⟩ := some_ok
    (show (GitHub.githubPlan repo plain (text "vgi/checkout@" ++ sha) .soloOwner).isOk = true by decide +kernel)
  obtain ⟨there,written⟩ := some_ok (show (Forgejo.forgejoPlan repo plain options).isOk = true by decide)
  obtain ⟨_,inert⟩ := (workflow_inert_exact repo plain).1 _ _ _ planned
  obtain ⟨action,sha256,_,_,_,exact_⟩ := (workflow_inert_exact repo plain).2 _ _ written
  have unmarked : ¬ expressionMark <:+: plain.trustRegistryDid ∧ ¬ expressionMark <:+: plain.vtcDid := by decide
  exact ⟨inert _ List.mem_cons_self,action,sha256,exact_.mpr fun _ => unmarked⟩

-- A DID Forgejo's plan accepts and writes into the workflow as an expression.
open Sample in
theorem workflow_expression : ∃ steps action sha256, Forgejo.forgejoPlan repo expressive options = .ok steps ∧
    workflowsOf Forgejo.workflowPath steps = [intoBytes (print (Forgejo.workflow expressive options repo action sha256))] ∧
    ¬ Inert (Forgejo.workflow expressive options repo action sha256) := by
  obtain ⟨steps,ok⟩ := some_ok (show (Forgejo.forgejoPlan repo expressive options).isOk = true by decide +kernel)
  obtain ⟨action,sha256,planned⟩ := Forgejo.forgejo_planned ok
  refine ⟨steps,action,sha256,ok,planned.written,fun inert => ?_⟩
  have held : expressionMark <:+: expressive.trustRegistryDid := by decide
  exact ((Forgejo.workflow_exact planned).mp inert rfl).1 held

end VerifiableGit.Workflow
