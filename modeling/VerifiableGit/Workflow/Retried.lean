import VerifiableGit.Workflow.Ordered

-- The plans GitHub's adapter makes, run, broken off and run again.
namespace VerifiableGit.Bootstrap
open Text Library.Interaction
open Qualified (Str text)
open Governance (StepOutcome StepStatus)
open Workflow (StepAction BootstrapStep VgiConfig ExtraFile intoBytes)
open Workflow.GitHub (codeownersLocations guardedPath CheckGuard)

section
variable (wanted : Str → Bytes → Prop) (review : Prop)

structure Covered (steps : List BootstrapStep) : Prop where
  files : ∀ path contents, wanted path contents → ∃ step ∈ steps, Writes step path contents
  rules : review → ∃ step ∈ steps, Reviews step

-- What the plans commit comes before the protection, and nothing undoes it.
structure Orderly (steps : List BootstrapStep) : Prop where
  suits : ∀ step ∈ steps, Suits wanted review step.action
  covered : ∀ front step back, steps = front ++ step :: back → Protects step → Covered wanted review front

-- Of any plan, what is chosen of it by the names of its steps.
def Ready (plans : Workflow.Result (List BootstrapStep) → Prop) (only : Option (List Str)) : Prop :=
  ∀ plan, plans (.ok plan) → Orderly wanted review (chosen only plan) ∧ (only = none → Covered wanted review (chosen only plan))

variable {wanted review} {plans : Workflow.Result (List BootstrapStep) → Prop} {s : Repository}

variable {only : Option (List Str)}

end

/-! The plans of GitHub's adapter -/

section
variable (guards : CheckGuard → Prop) (repo : Workflow.Resource) (cfg : VgiConfig) (checkout : Str)

-- What every plan commits, whichever of these guards it is made for.
inductive Wanted : Str → Bytes → Prop
  | extra (file : ExtraFile) (member : file ∈ cfg.extraFiles) (elsewhere : file.path ∉ codeownersLocations) :
    Wanted file.path file.contents
  | workflow (commits : ∀ how, guards how → how.commits = true) :
    Wanted Workflow.GitHub.workflowPath (intoBytes (Workflow.GitHub.renderWorkflow cfg checkout repo))
  | keyring (commits : ∀ how, guards how → how.commits = true) (given : cfg.platformKeyring = some contents) :
    Wanted Workflow.GitHub.keyringPath contents

def Reviewed : Prop := ∀ how, guards how → how.reviews = true

def Planned (answer : Workflow.Result (List BootstrapStep)) : Prop :=
  ∃ how, guards how ∧ answer = Workflow.GitHub.githubPlan repo cfg checkout how

variable {guards repo cfg checkout} {how : CheckGuard}

theorem extra_steps {community : Option Bytes} {extra : List BootstrapStep × Option Bytes} (files : List ExtraFile)
    (ok : Workflow.GitHub.extraSteps how community files = .ok extra) :
    (∀ step ∈ extra.1, ∃ file ∈ files, step = Workflow.extraStep file ∧ (how.reviews = true → file.path ∉ codeownersLocations)) ∧
    (∀ file ∈ files, file.path ≠ Workflow.GitHub.workflowPath ∧ file.path ≠ Workflow.GitHub.keyringPath) ∧
    ∀ file ∈ files, file.path ∉ codeownersLocations → Workflow.extraStep file ∈ extra.1 := by
  induction files generalizing community extra with
  | nil =>
    cases ok
    exact ⟨fun _ member => absurd member List.not_mem_nil,fun _ member => absurd member List.not_mem_nil,
      fun _ member => absurd member List.not_mem_nil⟩
  | cons file rest ih =>
    rw [Workflow.GitHub.extraSteps,Qualified.check_then] at ok
    obtain ⟨_,ok⟩ := ok
    split at ok
    · cases ok
    rename_i unmanaged
    obtain ⟨apart,apart'⟩ := not_or.mp unmanaged
    split at ok
    · rename_i taken
      split at ok
      · cases ok
      obtain ⟨from_,free,there⟩ := ih ok
      refine ⟨fun step member => ?_,fun other member => ?_,fun other member elsewhere => ?_⟩
      · obtain ⟨file,inside,known⟩ := from_ step member
        exact ⟨file,List.mem_cons_of_mem _ inside,known⟩
      · rcases List.mem_cons.mp member with rfl | member
        · exact ⟨apart,apart'⟩
        · exact free other member
      · rcases List.mem_cons.mp member with rfl | member
        · exact absurd taken.2 elsewhere
        · exact there other member elsewhere
    · rename_i untaken
      obtain ⟨more,found,same⟩ := Workflow.ok_bind.mp ok
      cases same
      obtain ⟨from_,free,there⟩ := ih found
      refine ⟨fun step member => ?_,fun other member => ?_,fun other member elsewhere => ?_⟩
      · rcases List.mem_cons.mp member with rfl | member
        · exact ⟨file,List.mem_cons_self,rfl,fun reviews location => untaken ⟨reviews,location⟩⟩
        · obtain ⟨file,inside,known⟩ := from_ step member
          exact ⟨file,List.mem_cons_of_mem _ inside,known⟩
      · rcases List.mem_cons.mp member with rfl | member
        · exact ⟨apart,apart'⟩
        · exact free other member
      · rcases List.mem_cons.mp member with rfl | member
        · exact List.mem_cons_self
        · exact List.mem_cons_of_mem _ (there other member elsewhere)

theorem paths_apart : Workflow.GitHub.workflowPath ∉ codeownersLocations ∧ Workflow.GitHub.keyringPath ∉ codeownersLocations ∧
    Workflow.GitHub.workflowPath ≠ Workflow.GitHub.keyringPath := by decide

-- No two of the community's files differ at one path.
def Agreeing (cfg : VgiConfig) : Prop :=
  ∀ left ∈ cfg.extraFiles, ∀ right ∈ cfg.extraFiles, left.path = right.path → left.contents = right.contents

-- A job runs the plan, or what it names of it; only the whole plan protects.
inductive Begins (whole : Bool) : Repository → Repository × Code (Bool × Report) → Prop
  | all (adapter : Adapter) (configured : Bool) (report : Report) : Begins whole s (s,runBootstrap adapter configured none report)
  | named (adapter : Adapter) (configured : Bool) (report : Report) (names : List Str) (part : whole = false)
    (unprotected : text "requiredCheck" ∉ names) : Begins whole s (s,runBootstrap adapter configured (some names) report)

end

namespace Sample
open Workflow.Sample (plain repo sha)

def checkout : Str := text "vgi/checkout@" ++ sha

def empty : Repository := ⟨fun _ => none,fun _ => none,[],some (ascii "main")⟩

def adapter : Adapter := ⟨1,false,[]⟩

theorem plain_agreeing : Agreeing plain := fun _ member => absurd member List.not_mem_nil

end Sample

end VerifiableGit.Bootstrap
