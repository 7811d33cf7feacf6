import VerifiableGit.Governance.Jobs
import VerifiableGit.Library.Interaction
import Mathlib.Data.List.Induction

-- `closePullRequest` (vgi-bridge, jobs.rs) over the pull-request gate on GitHub
-- (vgi-forge-github, pulls.rs), one question for each call to the forge.
namespace VerifiableGit.Pulls
open Text Library Library.Interaction
open Governance (ForgeError StepStatus Report StepReport errorCode sameIgnoringCase)

structure User where
  id : Nat
  login : Bytes
deriving DecidableEq

structure PullJson where
  state : Bytes
  merged : Option Bool := none
  mergedAt : Option Bytes := none
deriving DecidableEq

-- `created_at` as `unix_seconds` reads it.
structure IssueEvent where
  event : Bytes
  actor : Option User := none
  createdAt : Option Int := none
  app : Option Nat := none
deriving DecidableEq

structure Comment where
  body : Option Bytes := none
  user : Option User := none
  app : Option Nat := none
deriving DecidableEq

inductive PullRequestState where
  | opened | closed | merged
deriving DecidableEq

structure Reopen where
  login : Bytes
  at_ : Int
deriving DecidableEq

structure PullRequest where
  state : PullRequestState
  lastReopenByOther : Option Reopen := none
deriving DecidableEq

inductive Query where
  | pull
  | events (page : Nat)
  | comments (page : Nat)
  | post (body : Bytes)
  | close
  -- `probe_bridge_checks`: the installation is read again
  | probe

-- A page comes with whether another one follows.
@[reducible] def Query.Answer : Query → Type
  | .pull => Except ForgeError PullJson
  | .events _ => Except ForgeError (List IssueEvent × Bool)
  | .comments _ => Except ForgeError (List Comment × Bool)
  | .post _ | .close => Except ForgeError Unit
  | .probe => Unit

abbrev Code := Prog Query Query.Answer

def request (q : Query) : Code q.Answer := ask q

-- The App, and the job's members.
structure Job where
  appId : Nat
  appSlug : Bytes
  repo : Bytes
  number : Nat
  jobId : Bytes
  message : Bytes
  issuedAt : Option Int

def perPage : Nat := 100
def maxPages : Nat := 50

section
variable (job : Job)

def Job.isOwn (user : Option User) (app : Option Nat) : Bool :=
  if app = some job.appId then true
  else user.any fun u => sameIgnoringCase u.login (job.appSlug ++ ascii "[bot]")

def Job.missing : Bytes := ascii "pull request #" ++ ascii (toString job.number) ++ ascii " in " ++ job.repo

def Job.named : ForgeError → ForgeError
  | .notFound _ => .notFound job.missing
  | e => e

end

def getAll (page : Nat → Code (Except ForgeError (List α × Bool))) (what : Bytes) :
    Nat → Nat → List α → Code (Except ForgeError (List α))
  | 0,_,_ => pure (.error (.protocol (what ++ ascii ": more than " ++ ascii (toString maxPages) ++ ascii " pages")))
  | left + 1,n,out => do
    let answer ← page n
    match answer with
    | .error e => pure (.error e)
    | .ok (items,next) => if next then getAll page what left (n + 1) (out ++ items) else pure (.ok (out ++ items))

def stateOf (pr : PullJson) : PullRequestState :=
  if pr.merged = some true ∨ pr.mergedAt.isSome then .merged
  else if pr.state = ascii "open" then .opened
  else .closed

-- The reopen an event records, if it is somebody else's.
def reopenOf (job : Job) (e : IssueEvent) : Option Reopen :=
  if e.event = ascii "reopened" ∧ job.isOwn e.actor e.app = false then
    e.createdAt.map fun at_ => ⟨(e.actor.map (·.login)).getD (ascii "ghost"),at_⟩
  else none

-- `max_by_key`: the last of the latest.
def latest (reopens : List Reopen) : Option Reopen :=
  reopens.foldl (fun best r => if best.all fun b => b.at_ ≤ r.at_ then some r else best) none

section
variable (job : Job)

def readPullRequest : Code (Except ForgeError PullRequest) := do
  let pr : Except ForgeError PullJson ← request .pull
  match pr with
  | .error e => pure (.error (job.named e))
  | .ok pr =>
    if stateOf pr ≠ .opened then pure (.ok ⟨stateOf pr,none⟩)
    else do
      let events ← getAll (fun n => request (.events n)) (ascii "pull request events") maxPages 1 []
      match events with
      | .error e => pure (.error e)
      | .ok events => pure (.ok ⟨.opened,latest (events.filterMap (reopenOf job))⟩)

def Job.carries (marker : Bytes) (c : Comment) : Bool := job.isOwn c.user c.app && c.body.any fun body => marker <:+: body

def findOwnComment (marker : Bytes) : Code (Except ForgeError Bool) := do
  let comments ← getAll (fun n => request (.comments n)) (ascii "pull request comments") maxPages 1 []
  match comments with
  | .error e => pure (.error (job.named e))
  | .ok comments => pure (.ok (comments.any (job.carries marker)))

def commentMarker (jobId : Bytes) : Bytes := ascii "<!-- vgi-bridge job:" ++ jobId ++ ascii " -->"

def forbiddenReprobe (e : ForgeError) : Code Unit :=
  if errorCode e = ascii "forbidden" then request .probe else pure ()

def failed (report : Report) (step : Bytes) (e : ForgeError) : Report := (report.step step .failed (some e.text)).fail e

-- Nothing is commented, so nothing is closed.
def uncommented (why : Bytes) (e : ForgeError) : Code Report := do
  forbiddenReprobe e
  pure ((failed {} (ascii "comment") e).step (ascii "close") .skipped (some why))

def closeStep (report : Report) : Code Report := do
  let closed : Except ForgeError Unit ← request .close
  match closed with
  | .ok _ => pure (report.step (ascii "close") .applied none)
  | .error e => do
    forbiddenReprobe (job.named e)
    pure (failed report (ascii "close") (job.named e))

def commentStep : Code Report := do
  let found ← findOwnComment job (commentMarker job.jobId)
  match found with
  | .error e => uncommented (ascii "not commented") e
  | .ok true => closeStep job (StepReport.step {} (ascii "comment") .unchanged (some (ascii "already posted for this job")))
  | .ok false =>
    let body := job.message ++ ascii "\n\n" ++ commentMarker job.jobId
    let posted : Except ForgeError Unit ← request (.post body)
    match posted with
    | .error e => uncommented (ascii "not commented") (job.named e)
    | .ok _ => closeStep job (StepReport.step {} (ascii "comment") .applied none)

def left (comment close : Bytes) : Report :=
  (StepReport.step {} (ascii "comment") .unchanged (some comment)).step (ascii "close") .unchanged (some close)

def Job.standsDown (pr : PullRequest) : Option Reopen :=
  match pr.lastReopenByOther,job.issuedAt with
  | some reopen,some issued => if reopen.at_ > issued then some reopen else none
  | _,_ => none

def closePullRequest : Code Report := do
  let pr ← readPullRequest job
  match pr with
  | .error e => uncommented (ascii "the pull request could not be read") e
  | .ok pr =>
    if pr.state ≠ .opened then
      let why := if pr.state = .merged then ascii "already merged" else ascii "already closed"
      pure (left (why ++ ascii "; nothing posted") why)
    else
      match job.standsDown pr with
      | some reopen =>
        let why := ascii "reopened by " ++ reopen.login ++
          ascii " after the job was issued; left open for the VTC to judge the reopen"
        pure (left why why)
      | none => commentStep job

end

-- `Report::outcome`
def succeeded (report : Report) : Bool := report.failure.isNone && report.steps.all fun step => step.status ≠ .failed

theorem succeeded_failed (report : Report) (step : Bytes) (e : ForgeError) : succeeded (failed report step e) = false := by
  have recorded : (failed report step e).failure.isNone = false := by
    unfold failed StepReport.fail StepReport.failWith StepReport.failed
    cases (report.step step .failed (some e.text)).failure <;> rfl
  rw [succeeded,recorded,Bool.false_and]

theorem latest_concat (reopens : List Reopen) (r : Reopen) : latest (reopens ++ [r]) =
    if (latest reopens).all fun b => b.at_ ≤ r.at_ then some r else latest reopens := by
  rw [latest,List.foldl_append]
  rfl

theorem latest_max (reopens : List Reopen) : ∀ r ∈ reopens, ∃ best, latest reopens = some best ∧ r.at_ ≤ best.at_ := by
  induction reopens using List.reverseRecOn with
  | nil => exact fun _ member => nomatch member
  | append_singleton reopens last ih =>
    rw [latest_concat]
    intro r member
    cases found : latest reopens with
    | none =>
      rcases List.mem_append.mp member with old | new
      · obtain ⟨best,same,_⟩ := ih r old
        rw [found] at same
        cases same
      · rw [List.mem_singleton.mp new]
        exact ⟨last,rfl,Int.le_refl _⟩
    | some best =>
      by_cases later : best.at_ ≤ last.at_
      · refine ⟨last,if_pos (decide_eq_true later),?_⟩
        rcases List.mem_append.mp member with old | new
        · obtain ⟨other,same,before⟩ := ih r old
          rw [found] at same
          cases same
          exact Int.le_trans before later
        · rw [List.mem_singleton.mp new]
      · refine ⟨best,if_neg fun all_ => later (of_decide_eq_true all_),?_⟩
        rcases List.mem_append.mp member with old | new
        · obtain ⟨other,same,before⟩ := ih r old
          rw [found] at same
          cases same
          exact before
        · rw [List.mem_singleton.mp new]
          omega

theorem latest_mem (reopens : List Reopen) (found : latest reopens = some best) : best ∈ reopens := by
  induction reopens using List.reverseRecOn with
  | nil => cases found
  | append_singleton reopens last ih =>
    rw [latest_concat] at found
    split at found
    · cases found
      exact List.mem_append_right _ (List.mem_singleton_self _)
    · exact List.mem_append_left _ (ih found)

-- The reopens the job stands down for.
def Overrides (job : Job) (e : IssueEvent) : Prop :=
  ∃ r issued, reopenOf job e = some r ∧ job.issuedAt = some issued ∧ issued < r.at_

theorem standsDown_exact (job : Job) (events : List IssueEvent) :
    (job.standsDown ⟨.opened,latest (events.filterMap (reopenOf job))⟩).isSome ↔ ∃ e ∈ events, Overrides job e := by
  constructor
  · intro stands
    unfold Job.standsDown at stands
    split at stands
    · rename_i best issued found known
      split at stands
      · rename_i later
        obtain ⟨e,member,reopens⟩ := List.mem_filterMap.mp (latest_mem _ found)
        exact ⟨e,member,best,issued,reopens,known,later⟩
      · cases stands
    · cases stands
  · rintro ⟨e,member,r,issued,reopens,known,later⟩
    obtain ⟨best,found,before⟩ := latest_max _ r (List.mem_filterMap.mpr ⟨e,member,reopens⟩)
    unfold Job.standsDown
    rw [found,known]
    dsimp only
    rw [if_pos (by omega)]
    rfl

end VerifiableGit.Pulls
