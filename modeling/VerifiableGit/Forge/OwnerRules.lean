import VerifiableGit.Forge.ManagedRules
import VerifiableGit.Library.Contexts
import VerifiableGit.Workflow.Lines

-- The `CODEOWNERS` file as it is written and read back: the community's rules
-- first, the managed block last (vgi-forge-github, plan.rs).
namespace VerifiableGit.OwnerRules
open Qualified (Str text isWhitespace)
open Workflow
open Library.Contexts

def managedBegin : Str := text Managed.beginMarker
def managedEnd : Str := text Managed.endMarker

-- `str::split_whitespace`
def splitWhitespace (s : Str) : List Str := (s.splitOnP isWhitespace).filter (· ≠ [])

abbrev Rule := Managed.Rule Char

-- The kept lines; `inside`: after a begin marker that no end marker closed yet.
def keep : Bool → List Str → List Str
  | _,[] => []
  | inside,line :: rest =>
    if trim line = managedBegin then keep true rest
    else if trim line = managedEnd ∧ inside then keep false rest
    else if inside then keep inside rest
    else line :: keep inside rest

def stripManaged (s : Str) : Str :=
  let out := joined (keep false (linesOf s))
  if out = [] then out else out ++ [newline]

def preamble : List Str := [
  text "# Kept last by this community's VGI bridge: every change to the repository's",
  text "# workflows (and to this file) needs another owner's approving review, so the",
  text "# commit-trust check is not editable by the pull request it checks."]

def ruleLine (owners : List Str) (path : Str) : Str := path ++ ' ' :: [' '].intercalate owners

def ownersOf (logins : List Str) : List Str := logins.map ('@' :: ·)

-- The managed block, line by line.
def blockLines (paths logins : List Str) : List Str :=
  managedBegin :: preamble ++ paths.map (ruleLine (ownersOf logins)) ++ [managedEnd]

def renderCodeowners (communityRules : Str) (paths logins : List Str) : Str :=
  let community := stripManaged communityRules
  (if trim community = [] then [] else trimEnd community ++ [newline,newline]) ++
    (blockLines paths logins).flatMap (· ++ [newline])

def isRule : Str → Bool := Managed.isRule trim '#'

def ruleOf (line : Str) : Rule := Managed.ruleOf (splitWhitespace (line.takeWhile (· ≠ '#')))

def managedRules (s : Str) : Option (List (Rule × Nat)) :=
  Managed.managedRules trim managedBegin managedEnd isRule ruleOf (linesOf s)

-- What the file is for, by the places of its lines: a line stands in a block
-- when a begin marker is before it, no end marker between, and an end after it.
def withinBlock (before : List Str) : Bool :=
  (before.rtakeWhile fun l => trim l ≠ managedEnd).any fun l => trim l = managedBegin

def between (before after : List Str) : Bool := withinBlock before && after.any fun l => trim l = managedEnd

-- The rule lines of the community: those in no block.
def communityRules (lines : List Str) : List Str :=
  select (fun before line after => isRule line && !between before after) [] lines

-- The lines after no begin marker that is still open.
def outsideLines (lines : List Str) : List Str :=
  select (fun before line _ => !withinBlock before && trim line ≠ managedBegin) [] lines

theorem withinBlock_concat (before : List Str) (line : Str) : withinBlock (before ++ [line]) =
    if trim line = managedEnd then false else decide (trim line = managedBegin) || withinBlock before := by
  unfold withinBlock
  by_cases closes : trim line = managedEnd
  · rw [if_pos closes,List.rtakeWhile_concat_neg _ _ _ (by simpa using closes)]
    rfl
  · rw [if_neg closes,List.rtakeWhile_concat_pos _ _ _ (by simpa using closes),List.any_append]
    simp [Bool.or_comm]

theorem begin_open : managedBegin ≠ managedEnd := by decide

-- The scanner keeps the lines outside.
theorem keep_outside (before lines : List Str) : keep (withinBlock before) lines =
    select (fun before line _ => !withinBlock before && trim line ≠ managedBegin) before lines := by
  induction lines generalizing before with
  | nil => rfl
  | cons line rest ih =>
    have next := withinBlock_concat before line
    rw [select_cons,keep]
    by_cases opens : trim line = managedBegin
    · have open_ : withinBlock (before ++ [line]) = true := by rw [next,opens,if_neg begin_open]; simp
      have dropped : (!withinBlock before && decide (trim line ≠ managedBegin)) = false := by simp [opens]
      rw [if_pos opens,dropped,if_neg Bool.false_ne_true,← ih,open_]
    · rw [if_neg opens]
      by_cases inside : withinBlock before = true
      · have dropped : (!withinBlock before && decide (trim line ≠ managedBegin)) = false := by simp [inside]
        rw [dropped,if_neg Bool.false_ne_true,← ih,next,inside]
        by_cases closes : trim line = managedEnd
        · simp [closes]
        · simp [closes]
      · have outside : withinBlock before = false := by simpa using inside
        have kept : (!withinBlock before && decide (trim line ≠ managedBegin)) = true := by simp [outside,opens]
        have still : withinBlock (before ++ [line]) = false := by
          rw [next,outside,Bool.or_false]
          split
          · rfl
          · exact decide_eq_false opens
        rw [kept,if_pos rfl,← ih,still,outside]
        simp

theorem keep_lines (s : Str) : keep false (linesOf s) = outsideLines (linesOf s) := keep_outside [] (linesOf s)

end VerifiableGit.OwnerRules
