import VerifiableGit.Forge.Pulls

-- Runs of one `closePullRequest` job, one after another, over a pull request that
-- others act on between any two of its calls.
namespace VerifiableGit.Pulls
open Text Library Library.Interaction
open Governance (ForgeError StepStatus Report)

structure Scene where
  state : PullRequestState
  events : List IssueEvent := []
  comments : List Comment := []
  -- a run is between two pages of the comments
  paging : Bool := false
  -- the comments the job has posted
  posted : Nat := 0
  -- the job has closed the pull request; then somebody opened it again; then the
  -- job closed that
  closed : Bool := false
  reopened : Bool := false
  reclosed : Bool := false
  -- what the last run to read or close the pull request left there
  left : Option PullRequestState := none

-- What others do.
inductive Act where
  | comment (c : Comment)
  | rewrite (i : Nat) (c : Comment)
  | delete (i : Nat)
  | close
  | merge
  | reopen (by_ : Option User) (app : Option Nat) (at_ : Int)
  | event (e : IssueEvent)

def Act.apply (s : Scene) : Act → Scene
  | .comment c => { s with comments := s.comments ++ [c] }
  | .rewrite i c => { s with comments := s.comments.set i c }
  | .delete i => { s with comments := s.comments.eraseIdx i }
  | .close => if s.state = .opened then { s with state := .closed } else s
  | .merge => if s.state = .opened then { s with state := .merged } else s
  | .reopen by_ app at_ =>
    if s.state = .closed then
      { s with
        state := .opened
        events := s.events ++ [⟨ascii "reopened",by_,some at_,app⟩]
        reopened := s.reopened || s.closed }
    else s
  | .event e => { s with events := s.events ++ [e] }

-- How the forge shows the state.
def Shows : PullRequestState → PullJson → Prop
  | .opened,pr => pr.state = ascii "open" ∧ pr.merged ≠ some true ∧ pr.mergedAt = none
  | .closed,pr => pr.state = ascii "closed" ∧ pr.merged ≠ some true ∧ pr.mergedAt = none
  | .merged,pr => pr.state = ascii "closed" ∧ (pr.merged = some true ∨ pr.mergedAt.isSome)

def page (items : List α) (n : Nat) : List α × Bool :=
  ((items.drop (perPage * (n - 1))).take perPage,decide (perPage * n < items.length))

def Scene.commented (s : Scene) (c : Comment) : Scene := { s with comments := s.comments ++ [c], posted := s.posted + 1 }

def Scene.shut (s : Scene) : Scene :=
  if s.state = .opened then
    { s with state := .closed, closed := true, reclosed := s.reclosed || s.reopened, left := some .closed }
  else { s with left := some s.state }

-- A call fails without effect, or takes effect, whatever its answer then is.
def Serves (job : Job) : (q : Query) → Scene → q.Answer → Scene → Prop
  | .pull,s,r,t => (∃ e, r = .error e ∧ t = s) ∨ ∃ pr, r = .ok pr ∧ Shows s.state pr ∧ t = { s with left := some s.state }
  | .events n,s,r,t => t = s ∧ ((∃ e, r = .error e) ∨ r = .ok (page s.events n))
  | .comments n,s,r,t => (∃ e, r = .error e ∧ t = { s with paging := false }) ∨
      (r = .ok (page s.comments n) ∧ t = { s with paging := (page s.comments n).2 })
  | .post body,s,r,t => (∃ e, r = .error e ∧ t = s) ∨ ∃ user, t = s.commented ⟨some body,user,some job.appId⟩
  | .close,s,r,t => (∃ e, r = .error e ∧ t = s) ∨ t = s.shut
  | .probe,s,_,t => t = s

-- `allowed` is what others may do.
def pulls (job : Job) (allowed : Scene → Act → Prop) (always : Scene → Prop) : Setting Query Query.Answer Scene where
  serve := Serves job
  rely := fun s t => ∃ act, allowed s act ∧ t = act.apply s
  guarantee := fun _ _ _ => True
  always := always

-- Another run of the job, after a crash or not.
def Again (job : Job) (s : Scene) (there : Scene × Code Report) : Prop :=
  there = ({ s with paging := false },closePullRequest job)

def Session (job : Job) (allowed : Scene → Act → Prop) : Scene × Code Report → Scene × Code Report → Prop :=
  (pulls job allowed fun _ => True).Session (Again job) (Again job)

-- Nothing has been run yet.
def Fresh (s : Scene) : Prop :=
  s.paging = false ∧ s.posted = 0 ∧ s.closed = false ∧ s.reopened = false ∧ s.reclosed = false

-- The job's own comment.
def Job.owns (job : Job) (c : Comment) : Prop := job.carries (commentMarker job.jobId) c = true

-- What others are asked to leave alone.
structure Care where
  comments : Prop
  reopens : Prop

-- Nobody deletes or rewrites the job's comment, nor deletes any while a run is
-- paging; a reopen after the job's close is not by the App, and stamped later than
-- the job's issue.
def Fair (job : Job) (care : Care) (s : Scene) : Act → Prop
  | .rewrite i _ => care.comments → ∀ c, s.comments[i]? = some c → ¬ job.owns c
  | .delete i => care.comments → s.paging = false ∧ ∀ c, s.comments[i]? = some c → ¬ job.owns c
  | .reopen by_ app at_ => care.reopens → s.closed = true →
      job.isOwn by_ app = false ∧ ∃ issued, job.issuedAt = some issued ∧ issued < at_
  | _ => True

-- What holds whenever the job and the others have acted.
structure Kept (job : Job) (care : Care) (s : Scene) : Prop where
  posted : care.comments → s.posted ≤ 1
  comment : care.comments → s.posted = 1 → ∃ c ∈ s.comments, job.owns c
  reopened : s.reopened = true → s.closed = true
  overridden : care.reopens → s.closed = true → s.state = .opened → ∃ e ∈ s.events, Overrides job e
  reclosed : care.reopens → s.reclosed = false

theorem fresh_kept {job : Job} {care : Care} {s : Scene} (fresh : Fresh s) : Kept job care s := by
  obtain ⟨_,posted,closed,reopened,reclosed⟩ := fresh
  refine ⟨fun _ => by omega,fun _ one => by omega,fun again => ?_,fun _ shut => ?_,fun _ => reclosed⟩
  · rw [reopened] at again
    cases again
  · rw [closed] at shut
    cases shut

section
variable {job : Job} {care : Care} {s t : Scene}

theorem owns_set {cs : List Comment} {i : Nat} (other : ∀ c, cs[i]? = some c → ¬ job.owns c) (c' : Comment) {c : Comment}
    (member : c ∈ cs) (own : job.owns c) : c ∈ cs.set i c' := by
  obtain ⟨j,found⟩ := List.mem_iff_getElem?.mp member
  have differ : i ≠ j := fun same => other c (same ▸ found) own
  exact List.mem_iff_getElem?.mpr ⟨j,by rw [List.getElem?_set_ne differ,found]⟩

theorem owns_erase {cs : List Comment} {i : Nat} (other : ∀ c, cs[i]? = some c → ¬ job.owns c) {c : Comment}
    (member : c ∈ cs) (own : job.owns c) : c ∈ cs.eraseIdx i := by
  obtain ⟨j,found⟩ := List.mem_iff_getElem?.mp member
  have differ : j ≠ i := fun same => other c (same ▸ found) own
  exact List.mem_eraseIdx_iff_getElem?.mpr ⟨j,differ,found⟩

theorem act_kept (kept : Kept job care s) (act : Act) (fair : Fair job care s act) : Kept job care (act.apply s) := by
  cases act with
  | comment c =>
    refine { kept with comment := fun asked one => ?_, overridden := ?_ }
    · obtain ⟨c',member,own⟩ := kept.comment asked one
      exact ⟨c',List.mem_append_left _ member,own⟩
    · exact kept.overridden
  | rewrite i c =>
    refine { kept with comment := fun asked one => ?_, overridden := ?_ }
    · obtain ⟨c',member,own⟩ := kept.comment asked one
      exact ⟨c',owns_set (fair asked) c member own,own⟩
    · exact kept.overridden
  | delete i =>
    refine { kept with comment := fun asked one => ?_, overridden := ?_ }
    · obtain ⟨c',member,own⟩ := kept.comment asked one
      exact ⟨c',owns_erase (fair asked).2 member own,own⟩
    · exact kept.overridden
  | close =>
    simp only [Act.apply]
    split
    · exact { kept with overridden := fun _ _ stays => nomatch stays }
    · exact kept
  | merge =>
    simp only [Act.apply]
    split
    · exact { kept with overridden := fun _ _ stays => nomatch stays }
    · exact kept
  | reopen by_ app at_ =>
    simp only [Act.apply]
    split
    · refine { kept with reopened := fun again => ?_, overridden := fun asked shut _ => ?_ }
      · exact (Bool.or_eq_true_iff.mp again).elim kept.reopened id
      · obtain ⟨other,issued,known,later⟩ := fair asked shut
        refine ⟨_,List.mem_append_right _ (List.mem_singleton_self _),
          ⟨(by_.map (·.login)).getD (ascii "ghost"),at_⟩,issued,?_,known,later⟩
        exact if_pos ⟨rfl,other⟩
    · exact kept
  | event e =>
    refine { kept with comment := ?_, overridden := fun asked shut stays => ?_ }
    · exact kept.comment
    · obtain ⟨e',member,overrides⟩ := kept.overridden asked shut stays
      exact ⟨e',List.mem_append_left _ member,overrides⟩

-- Others leave alone what the runs have counted, and add to the events.
theorem act_counts (act : Act) : (act.apply s).posted = s.posted ∧ (act.apply s).closed = s.closed ∧
    (act.apply s).paging = s.paging ∧ (act.apply s).left = s.left ∧ s.events <+: (act.apply s).events := by
  cases act with
  | comment c => exact ⟨rfl,rfl,rfl,rfl,List.prefix_rfl⟩
  | rewrite i c => exact ⟨rfl,rfl,rfl,rfl,List.prefix_rfl⟩
  | delete i => exact ⟨rfl,rfl,rfl,rfl,List.prefix_rfl⟩
  | close =>
    simp only [Act.apply]
    split <;> exact ⟨rfl,rfl,rfl,rfl,List.prefix_rfl⟩
  | merge =>
    simp only [Act.apply]
    split <;> exact ⟨rfl,rfl,rfl,rfl,List.prefix_rfl⟩
  | reopen by_ app at_ =>
    simp only [Act.apply]
    split
    · exact ⟨rfl,rfl,rfl,rfl,List.prefix_append _ _⟩
    · exact ⟨rfl,rfl,rfl,rfl,List.prefix_rfl⟩
  | event e => exact ⟨rfl,rfl,rfl,rfl,List.prefix_append _ _⟩

-- The pull request has been seen open.
structure Seen (job : Job) (care : Care) (s : Scene) : Prop where
  kept : Kept job care s
  overridden : care.reopens → s.closed = true → ∃ e ∈ s.events, Overrides job e

-- The events before page `n` have been read.
structure EventsRead (job : Job) (care : Care) (n : Nat) (out : List IssueEvent) (s : Scene) : Prop where
  seen : Seen job care s
  first : 1 ≤ n
  within : perPage * (n - 1) ≤ s.events.length
  read : out = s.events.take (perPage * (n - 1))

-- All of them have been.
structure Known (job : Job) (care : Care) (all : List IssueEvent) (s : Scene) : Prop where
  kept : Kept job care s
  overridden : care.reopens → s.closed = true → ∃ e ∈ all, Overrides job e
  events : ∀ e ∈ all, e ∈ s.events

-- No run has closed the pull request.
structure Unclosed (job : Job) (care : Care) (s : Scene) : Prop where
  kept : Kept job care s
  closed : care.reopens → s.closed = false

-- The comments before page `n` have been read.
structure CommentsRead (job : Job) (care : Care) (n : Nat) (out : List Comment) (s : Scene) : Prop where
  unclosed : Unclosed job care s
  first : 1 ≤ n
  paging : n = 1 ∨ s.paging = true
  ahead : care.comments → s.posted = 1 → (∃ c ∈ out, job.owns c) ∨ ∃ j c, perPage * (n - 1) ≤ j ∧ s.comments[j]? = some c ∧ job.owns c

-- All of them have been.
structure Searched (job : Job) (care : Care) (all : List Comment) (s : Scene) : Prop where
  unclosed : Unclosed job care s
  found : care.comments → s.posted = 1 → ∃ c ∈ all, job.owns c

-- How a run that succeeds leaves the pull request.
def Settled (job : Job) (s : Scene) : Prop :=
  s.left = some .closed ∨ s.left = some .merged ∨ ∃ e ∈ s.events, Overrides job e

structure Ended (job : Job) (care : Care) (report : Report) (s : Scene) : Prop where
  kept : Kept job care s
  settled : succeeded report = true → Settled job s

abbrev Job.gate (job : Job) (care : Care) : Setting Query Query.Answer Scene := pulls job (Fair job care) (Kept job care)

theorem kept_stable : (job.gate care).Stable (Kept job care) := by
  rintro s _ ⟨act,fair,rfl⟩ kept
  exact act_kept kept act fair

theorem seen_stable : (job.gate care).Stable (Seen job care) := by
  rintro s _ ⟨act,fair,rfl⟩ seen
  obtain ⟨_,closed,_,_,events⟩ := act_counts (s := s) act
  refine ⟨act_kept seen.kept act fair,fun asked shut => ?_⟩
  obtain ⟨e,member,overrides⟩ := seen.overridden asked (closed ▸ shut)
  exact ⟨e,events.subset member,overrides⟩

theorem eventsRead_stable (n : Nat) (out : List IssueEvent) : (job.gate care).Stable (EventsRead job care n out) := by
  intro s t act read
  have seen := seen_stable act read.seen
  obtain ⟨act,_,rfl⟩ := act
  obtain ⟨_,_,_,_,more,same⟩ := act_counts (s := s) act
  refine ⟨seen,read.first,?_,?_⟩
  · rw [← same,List.length_append]
    exact Nat.le_add_right_of_le read.within
  · rw [read.read,← same,List.take_append_of_le_length read.within]

theorem known_stable (all : List IssueEvent) : (job.gate care).Stable (Known job care all) := by
  rintro s _ ⟨act,fair,rfl⟩ known
  obtain ⟨_,closed,_,_,events⟩ := act_counts (s := s) act
  refine ⟨act_kept known.kept act fair,fun asked shut => known.overridden asked (closed ▸ shut),fun e member => ?_⟩
  exact events.subset (known.events e member)

theorem unclosed_stable : (job.gate care).Stable (Unclosed job care) := by
  rintro s _ ⟨act,fair,rfl⟩ unclosed
  obtain ⟨_,closed,_⟩ := act_counts (s := s) act
  exact ⟨act_kept unclosed.kept act fair,fun asked => closed.trans (unclosed.closed asked)⟩

-- While a run pages, the job's comment stays where it is.
theorem act_place (act : Act) (asked : care.comments) (fair : Fair job care s act) (paging : s.paging = true) {j : Nat} {c : Comment}
    (found : s.comments[j]? = some c) (own : job.owns c) : (act.apply s).comments[j]? = some c := by
  cases act with
  | comment c' =>
    obtain ⟨inside,_⟩ := List.getElem?_eq_some_iff.mp found
    exact (List.getElem?_append_left inside).trans found
  | rewrite i c' =>
    have differ : i ≠ j := fun same => fair asked c (same ▸ found) own
    exact (List.getElem?_set_ne differ).trans found
  | delete i =>
    have idle := (fair asked).1
    rw [paging] at idle
    cases idle
  | close =>
    simp only [Act.apply]
    split <;> exact found
  | merge =>
    simp only [Act.apply]
    split <;> exact found
  | reopen by_ app at_ =>
    simp only [Act.apply]
    split <;> exact found
  | event e => exact found

theorem commentsRead_stable (n : Nat) (out : List Comment) : (job.gate care).Stable (CommentsRead job care n out) := by
  intro s t act read
  have unclosed := unclosed_stable act read.unclosed
  obtain ⟨act,fair,rfl⟩ := act
  obtain ⟨posted,_,paging,_⟩ := act_counts (s := s) act
  refine ⟨unclosed,read.first,read.paging.imp id paging.trans,fun asked one => ?_⟩
  rcases read.paging with first | between
  · obtain ⟨c,member,own⟩ := unclosed.kept.comment asked one
    obtain ⟨j,found⟩ := List.mem_iff_getElem?.mp member
    exact .inr ⟨j,c,by rw [first]; exact Nat.zero_le j,found,own⟩
  · rcases read.ahead asked (posted ▸ one) with behind | ⟨j,c,after,found,own⟩
    · exact .inl behind
    · exact .inr ⟨j,c,after,act_place act asked fair between found own,own⟩

theorem searched_stable (all : List Comment) : (job.gate care).Stable (Searched job care all) := by
  intro s t act searched
  have unclosed := unclosed_stable act searched.unclosed
  obtain ⟨act,_,rfl⟩ := act
  exact ⟨unclosed,fun asked one => searched.found asked ((act_counts act).1 ▸ one)⟩

theorem ended_stable (report : Report) : (job.gate care).Stable (Ended job care report) := by
  rintro s _ ⟨act,fair,rfl⟩ ended
  obtain ⟨_,_,_,leave,events⟩ := act_counts (s := s) act
  refine ⟨act_kept ended.kept act fair,fun good => ?_⟩
  rcases ended.settled good with shut | merged | ⟨e,member,overrides⟩
  · exact .inl (leave.trans shut)
  · exact .inr (.inl (leave.trans merged))
  · exact .inr (.inr ⟨e,events.subset member,overrides⟩)

theorem page_next {n : Nat} (first : 1 ≤ n) : perPage * (n - 1) + perPage = perPage * n := by
  obtain ⟨m,rfl⟩ := Nat.exists_eq_add_of_le' first
  rfl

theorem page_take (items : List α) {n : Nat} (first : 1 ≤ n) :
    items.take (perPage * (n - 1)) ++ (page items n).1 = items.take (perPage * n) := by
  rw [← page_next first,List.take_add]
  rfl

theorem page_mem {items : List α} {n j : Nat} (first : 1 ≤ n) (after : perPage * (n - 1) ≤ j) (before : j < perPage * n)
    (found : items[j]? = some x) : x ∈ (page items n).1 := by
  have next := page_next first
  refine List.mem_iff_getElem?.mpr ⟨j - perPage * (n - 1),?_⟩
  have inside : j - perPage * (n - 1) < perPage := by omega
  rw [page,List.getElem?_take_of_lt inside,List.getElem?_drop,Nat.add_sub_cancel' after,found]

-- What a call that succeeds finds out; one that fails finds out nothing.
def Learnt (job : Job) (care : Care) (good : α → Scene → Prop) : Except ForgeError α → Scene → Prop
  | .ok a,s => good a s
  | .error _,s => Kept job care s

theorem learnt_holds {good : α → Scene → Prop} (stable : ∀ a, (job.gate care).Stable (good a))
    (kept : ∀ a s, good a s → Kept job care s) (result : Except ForgeError α) (here : Learnt job care good result s) :
    (job.gate care).Holds (Learnt job care good) (.done result) s := by
  cases result with
  | ok a => exact holds_done (stable a) (kept a) (fun _ there => there) here
  | error e => exact holds_done kept_stable (fun _ there => there) (fun _ there => there) here

-- What a page leads to: the next one, or the end.
def Paged (job : Job) (care : Care) (inv : Nat → List α → Scene → Prop) (good : List α → Scene → Prop) (n : Nat) (out : List α) :
    Except ForgeError (List α × Bool) → Scene → Prop
  | .ok (items,true),s => inv (n + 1) (out ++ items) s
  | .ok (items,false),s => good (out ++ items) s
  | .error _,s => Kept job care s

theorem paged_stable {inv : Nat → List α → Scene → Prop} {good : List α → Scene → Prop}
    (more : ∀ n out, (job.gate care).Stable (inv n out)) (last : ∀ out, (job.gate care).Stable (good out)) (n : Nat) (out : List α)
    (answer : Except ForgeError (List α × Bool)) : (job.gate care).Stable (Paged job care inv good n out answer) := by
  cases answer with
  | ok answer =>
    obtain ⟨items,next⟩ := answer
    cases next with
    | true => exact more (n + 1) (out ++ items)
    | false => exact last (out ++ items)
  | error e => exact kept_stable

theorem getAll_holds {inv : Nat → List α → Scene → Prop} {good : List α → Scene → Prop}
    (last : ∀ out, (job.gate care).Stable (good out)) (moreKept : ∀ n out s, inv n out s → Kept job care s)
    (lastKept : ∀ out s, good out s → Kept job care s) (q : Nat → Code (Except ForgeError (List α × Bool))) (what : Bytes)
    (paged : ∀ n out s, inv n out s → (job.gate care).Holds (Paged job care inv good n out) (q n) s)
    (left n : Nat) (out : List α) (s : Scene) (here : inv n out s) :
    (job.gate care).Holds (Learnt job care good) (getAll q what left n out) s := by
  induction left generalizing n out s with
  | zero => exact learnt_holds last lastKept _ (moreKept n out s here)
  | succ left ih =>
    refine holds_bind (q n) _ (paged n out s here) fun answer t read => ?_
    cases answer with
    | error e => exact learnt_holds last lastKept _ read
    | ok answer =>
      obtain ⟨items,next⟩ := answer
      cases next with
      | true => exact ih (n + 1) (out ++ items) t read
      | false => exact learnt_holds last lastKept _ read

theorem paged_kept {inv : Nat → List α → Scene → Prop} {good : List α → Scene → Prop}
    (moreKept : ∀ n out s, inv n out s → Kept job care s) (lastKept : ∀ out s, good out s → Kept job care s) (n : Nat) (out : List α)
    (answer : Except ForgeError (List α × Bool)) (here : Paged job care inv good n out answer s) : Kept job care s := by
  cases answer with
  | ok answer =>
    obtain ⟨items,next⟩ := answer
    cases next with
    | true => exact moreKept (n + 1) (out ++ items) s here
    | false => exact lastKept (out ++ items) s here
  | error e => exact here

theorem events_page (n : Nat) (out : List IssueEvent) (s : Scene) (read : EventsRead job care n out s) :
    (job.gate care).Holds (Paged job care (EventsRead job care) (Known job care) n out) (request (.events n)) s := by
  refine holds_call (eventsRead_stable n out) (fun t there => there.seen.kept) (fun t r u there served => ⟨trivial,?_⟩) read
  obtain ⟨rfl,served⟩ := served
  have stop : Paged job care (EventsRead job care) (Known job care) n out r u := by
    rcases served with ⟨e,rfl⟩ | rfl
    · exact there.seen.kept
    have items : out ++ (page u.events n).1 = u.events.take (perPage * n) := by
      rw [there.read,page_take u.events there.first]
    by_cases next : perPage * n < u.events.length
    · rw [page,decide_eq_true next]
      exact ⟨there.seen,Nat.le_add_left 1 n,Nat.le_of_lt next,items⟩
    · rw [page,decide_eq_false next]
      have all : out ++ (page u.events n).1 = u.events := items.trans (List.take_of_length_le (Nat.le_of_not_lt next))
      show Known job care (out ++ (page u.events n).1) u
      rw [all]
      exact ⟨there.seen.kept,there.seen.overridden,fun _ member => member⟩
  exact holds_done (paged_stable eventsRead_stable known_stable n out r)
    (fun _ => paged_kept (fun _ _ _ read => read.seen.kept) (fun _ _ known => known.kept) n out r) (fun _ here => here) stop

theorem comments_page (n : Nat) (out : List Comment) (s : Scene) (read : CommentsRead job care n out s) :
    (job.gate care).Holds (Paged job care (CommentsRead job care) (Searched job care) n out) (request (.comments n)) s := by
  refine holds_call (commentsRead_stable n out) (fun t there => there.unclosed.kept)
    (fun t r u there served => ⟨trivial,?_⟩) read
  have stop : Paged job care (CommentsRead job care) (Searched job care) n out r u := by
    rcases served with ⟨e,rfl,rfl⟩ | ⟨rfl,rfl⟩
    · exact { there.unclosed.kept with comment := there.unclosed.kept.comment }
    -- the job's comment was read before, is on this page, or comes later
    have found : care.comments → t.posted = 1 → (∃ c ∈ out ++ (page t.comments n).1, job.owns c) ∨
        ∃ j c, perPage * n ≤ j ∧ t.comments[j]? = some c ∧ job.owns c := by
      intro asked one
      rcases there.ahead asked one with ⟨c,member,own⟩ | ⟨j,c,after,found,own⟩
      · exact .inl ⟨c,List.mem_append_left _ member,own⟩
      · by_cases before : j < perPage * n
        · exact .inl ⟨c,List.mem_append_right _ (page_mem there.first after before found),own⟩
        · exact .inr ⟨j,c,Nat.le_of_not_lt before,found,own⟩
    have unclosed : Unclosed job care { t with paging := (page t.comments n).2 } :=
      ⟨{ there.unclosed.kept with comment := there.unclosed.kept.comment },there.unclosed.closed⟩
    by_cases next : perPage * n < t.comments.length
    · have flag : page t.comments n = ((page t.comments n).1,true) := by rw [page,decide_eq_true next]
      rw [flag] at unclosed ⊢
      exact ⟨unclosed,Nat.le_add_left 1 n,.inr rfl,found⟩
    · have flag : page t.comments n = ((page t.comments n).1,false) := by rw [page,decide_eq_false next]
      rw [flag] at unclosed ⊢
      refine ⟨unclosed,fun asked one => (found asked one).elim id ?_⟩
      rintro ⟨j,c,after,found,_⟩
      obtain ⟨inside,_⟩ := List.getElem?_eq_some_iff.mp found
      omega
  exact holds_done (paged_stable commentsRead_stable searched_stable n out r)
    (fun _ => paged_kept (fun _ _ _ read => read.unclosed.kept) (fun _ _ found => found.unclosed.kept) n out r)
    (fun _ here => here) stop

-- What the pull request is read as.
def Reads (job : Job) (care : Care) (pr : PullRequest) (s : Scene) : Prop :=
  (pr.state ≠ .opened ∧ Kept job care s ∧ s.left = some pr.state) ∨
  ∃ all, pr = ⟨.opened,latest (all.filterMap (reopenOf job))⟩ ∧ Known job care all s

theorem reads_kept (pr : PullRequest) (reads : Reads job care pr s) : Kept job care s := by
  rcases reads with ⟨_,kept,_⟩ | ⟨_,_,known⟩
  · exact kept
  · exact known.kept

theorem reads_stable (pr : PullRequest) : (job.gate care).Stable (Reads job care pr) := by
  intro s t act reads
  rcases reads with ⟨shut,kept,leave⟩ | ⟨all,same,known⟩
  · have still := kept_stable act kept
    obtain ⟨act,_,rfl⟩ := act
    exact .inl ⟨shut,still,(act_counts act).2.2.2.1.trans leave⟩
  · exact .inr ⟨all,same,known_stable all act known⟩

theorem shows_state {state : PullRequestState} {pr : PullJson} (shows : Shows state pr) : stateOf pr = state := by
  unfold stateOf
  cases state with
  | opened =>
    obtain ⟨stays,unmerged,never⟩ := shows
    rw [if_neg (by rw [never]; exact fun merged => merged.elim unmerged (nomatch ·)),if_pos stays]
  | closed =>
    obtain ⟨shut,unmerged,never⟩ := shows
    have differ : pr.state ≠ ascii "open" := by rw [shut]; decide
    rw [if_neg (by rw [never]; exact fun merged => merged.elim unmerged (nomatch ·)),if_neg differ]
  | merged => rw [if_pos shows.2]

theorem read_holds (kept : Kept job care s) : (job.gate care).Holds (Learnt job care (Reads job care)) (readPullRequest job) s := by
  refine holds_call kept_stable (fun _ there => there) (fun t r u there served => ⟨trivial,?_⟩) kept
  rcases served with ⟨e,rfl,rfl⟩ | ⟨pr,rfl,shows,rfl⟩
  · exact learnt_holds reads_stable (fun pr _ => reads_kept pr) _ there
  have still : Kept job care { t with left := some t.state } := { there with comment := there.comment }
  show (job.gate care).Holds _ (if stateOf pr ≠ .opened then _ else _) _
  rw [shows_state shows]
  by_cases stays : t.state = .opened
  · rw [if_neg (fun shut => shut stays)]
    have seen : Seen job care { t with left := some t.state } := ⟨still,fun asked shut => there.overridden asked shut stays⟩
    have start : EventsRead job care 1 [] { t with left := some t.state } := ⟨seen,Nat.le_refl 1,Nat.zero_le _,rfl⟩
    refine holds_bind _ _ (getAll_holds known_stable (fun _ _ _ read => read.seen.kept)
      (fun _ _ known => known.kept) _ _ events_page _ 1 [] _ start) fun result t read => ?_
    cases result with
    | error e => exact learnt_holds reads_stable (fun pr _ => reads_kept pr) (.error e) read
    | ok all => exact learnt_holds reads_stable (fun pr _ => reads_kept pr) (.ok _) (.inr ⟨all,rfl,read⟩)
  · rw [if_pos stays]
    exact learnt_holds reads_stable (fun pr _ => reads_kept pr) (.ok _) (.inl ⟨stays,still,rfl⟩)

-- Whether the job's comment was found.
structure Looked (job : Job) (care : Care) (found : Bool) (s : Scene) : Prop where
  unclosed : Unclosed job care s
  absent : care.comments → found = false → s.posted = 0

theorem looked_stable (found : Bool) : (job.gate care).Stable (Looked job care found) := by
  intro s t act looked
  have unclosed := unclosed_stable act looked.unclosed
  obtain ⟨act,_,rfl⟩ := act
  exact ⟨unclosed,fun asked absent => (act_counts act).1.trans (looked.absent asked absent)⟩

theorem find_holds (unclosed : Unclosed job care s) :
    (job.gate care).Holds (Learnt job care (Looked job care)) (findOwnComment job (commentMarker job.jobId)) s := by
  have start : CommentsRead job care 1 [] s := by
    refine ⟨unclosed,Nat.le_refl 1,.inl rfl,fun asked one => .inr ?_⟩
    obtain ⟨c,member,own⟩ := unclosed.kept.comment asked one
    obtain ⟨j,found⟩ := List.mem_iff_getElem?.mp member
    exact ⟨j,c,Nat.zero_le j,found,own⟩
  refine holds_bind _ _ (getAll_holds searched_stable (fun _ _ _ read => read.unclosed.kept)
    (fun _ _ found => found.unclosed.kept) _ _ comments_page _ 1 [] _ start) fun result t read => ?_
  cases result with
  | error e => exact learnt_holds looked_stable (fun _ _ looked => looked.unclosed.kept) (.error _) read
  | ok all =>
    have searched : Searched job care all t := read
    refine learnt_holds looked_stable (fun _ _ looked => looked.unclosed.kept) (.ok _)
      ⟨searched.unclosed,fun asked absent => ?_⟩
    have most := searched.unclosed.kept.posted asked
    by_contra some_
    obtain ⟨c,member,own⟩ := searched.found asked (by omega)
    exact Bool.false_ne_true (absent.symm.trans (List.any_eq_true.mpr ⟨c,member,own⟩))

theorem ended_holds (report : Report) (ended : Ended job care report s) : (job.gate care).Holds (Ended job care) (.done report) s :=
  holds_done (ended_stable report) (fun _ there => there.kept) (fun _ there => there) ended

theorem reprobe_holds (e : ForgeError) (kept : Kept job care s) :
    (job.gate care).Holds (fun _ t => Kept job care t) (forbiddenReprobe e) s := by
  unfold forbiddenReprobe
  split
  · refine holds_call kept_stable (fun _ there => there) (fun t r u there served => ⟨trivial,?_⟩) kept
    obtain rfl : u = t := served
    exact holds_done kept_stable (fun _ there => there) (fun _ there => there) there
  · exact holds_done kept_stable (fun _ there => there) (fun _ there => there) kept

theorem commented_kept (looked : Looked job care false s) (user : Option User) :
    Unclosed job care (s.commented ⟨some (job.message ++ ascii "\n\n" ++ commentMarker job.jobId),user,some job.appId⟩) := by
  have kept := looked.unclosed.kept
  have own : job.owns ⟨some (job.message ++ ascii "\n\n" ++ commentMarker job.jobId),user,some job.appId⟩ := by
    have marked : commentMarker job.jobId <:+: job.message ++ ascii "\n\n" ++ commentMarker job.jobId :=
      (List.suffix_append _ _).isInfix
    have app : job.isOwn user (some job.appId) = true := if_pos rfl
    simp only [Job.owns,Job.carries,app,Option.any_some,Bool.true_and]
    exact decide_eq_true marked
  refine ⟨{ kept with posted := fun asked => ?_, comment := fun _ _ => ?_, overridden := ?_ },looked.unclosed.closed⟩
  · have none_ := looked.absent asked rfl
    show s.posted + 1 ≤ 1
    omega
  · exact ⟨_,List.mem_append_right _ (List.mem_singleton_self _),own⟩
  · exact kept.overridden

theorem shut_kept (unclosed : Unclosed job care s) : Kept job care s.shut ∧ Settled job s.shut := by
  have kept := unclosed.kept
  have never (asked : care.reopens) : s.reopened = false := by
    by_contra again
    exact Bool.false_ne_true ((unclosed.closed asked).symm.trans (kept.reopened (Bool.not_eq_false _ ▸ again)))
  unfold Scene.shut
  split
  · refine ⟨{ kept with reopened := fun _ => rfl, overridden := fun _ _ stays => (nomatch stays), reclosed := fun asked => ?_ },.inl rfl⟩
    show (s.reclosed || s.reopened) = false
    rw [never asked,kept.reclosed asked]
    rfl
  · rename_i shut
    refine ⟨{ kept with comment := kept.comment },?_⟩
    cases state : s.state with
    | opened => exact absurd state shut
    | closed => exact .inl rfl
    | merged => exact .inr (.inl rfl)

theorem failed_ended (kept : Kept job care s) (report : Report) (step : Bytes) (e : ForgeError) : Ended job care (failed report step e) s :=
  ⟨kept,fun good => (Bool.false_ne_true ((succeeded_failed report step e).symm.trans good)).elim⟩

theorem succeeded_step (report : Report) (step : Bytes) (status : StepStatus) (why : Option Bytes)
    (good : succeeded (report.step step status why) = true) : succeeded report = true := by
  obtain ⟨none_,fine⟩ := Bool.and_eq_true_iff.mp good
  refine Bool.and_eq_true_iff.mpr ⟨none_,List.all_eq_true.mpr fun line member => decide_eq_true ?_⟩
  refine Governance.merged_failed ⟨step,status,why⟩ report.steps (fun l inside => ?_) line member
  exact of_decide_eq_true (List.all_eq_true.mp fine l inside)

theorem uncommented_holds (kept : Kept job care s) (why : Bytes) (e : ForgeError) :
    (job.gate care).Holds (Ended job care) (uncommented why e) s := by
  refine holds_bind _ _ (reprobe_holds e kept) fun _ t there => ended_holds _ ⟨there,fun good => ?_⟩
  exact (failed_ended there _ _ e).settled (succeeded_step _ _ _ _ good)

theorem close_holds (report : Report) (unclosed : Unclosed job care s) : (job.gate care).Holds (Ended job care) (closeStep job report) s := by
  refine holds_call unclosed_stable (fun _ there => there.kept) (fun t r u there served => ⟨trivial,?_⟩) unclosed
  have kept : Kept job care u ∧ ((∃ e, r = .error e) ∨ Settled job u) := by
    rcases served with ⟨e,rfl,rfl⟩ | rfl
    · exact ⟨there.kept,.inl ⟨e,rfl⟩⟩
    · exact ⟨(shut_kept there).1,.inr (shut_kept there).2⟩
  cases r with
  | error e =>
    refine holds_bind (forbiddenReprobe (job.named e)) _ (reprobe_holds _ kept.1) fun _ t still => ?_
    exact ended_holds _ (failed_ended still _ _ _)
  | ok done_ =>
    refine ended_holds _ ⟨kept.1,fun _ => ?_⟩
    rcases kept.2 with ⟨e,fails⟩ | settled
    · cases fails
    · exact settled

theorem comment_holds (unclosed : Unclosed job care s) : (job.gate care).Holds (Ended job care) (commentStep job) s := by
  refine holds_bind _ _ (find_holds unclosed) fun result t found => ?_
  cases result with
  | error e => exact uncommented_holds found _ e
  | ok carried =>
    have looked : Looked job care carried t := found
    cases carried with
    | true => exact close_holds _ looked.unclosed
    | false =>
      refine holds_call (looked_stable false) (fun _ there => there.unclosed.kept)
        (fun t r u there served => ⟨trivial,?_⟩) looked
      have unclosed : Unclosed job care u := by
        rcases served with ⟨e,rfl,rfl⟩ | ⟨user,rfl⟩
        · exact there.unclosed
        · exact commented_kept there user
      cases r with
      | error e => exact uncommented_holds unclosed.kept _ _
      | ok done_ => exact close_holds _ unclosed

-- A run.
theorem closePullRequest_holds (kept : Kept job care s) : (job.gate care).Holds (Ended job care) (closePullRequest job) s := by
  refine holds_bind _ _ (read_holds kept) fun result t read => ?_
  cases result with
  | error e => exact uncommented_holds read _ e
  | ok pr =>
    rcases read with ⟨shut,kept,leave⟩ | ⟨all,rfl,known⟩
    · show (job.gate care).Holds _ (if pr.state ≠ .opened then _ else _) _
      rw [if_pos shut]
      refine ended_holds _ ⟨kept,fun _ => ?_⟩
      cases state : pr.state with
      | opened => exact absurd state shut
      | closed => exact .inl (leave.trans (congrArg some state))
      | merged => exact .inr (.inl (leave.trans (congrArg some state)))
    · have exact_ := standsDown_exact job all
      dsimp only
      rw [if_neg (not_not_intro rfl)]
      cases stands : job.standsDown ⟨.opened,latest (all.filterMap (reopenOf job))⟩ with
      | some reopen =>
        rw [stands] at exact_
        obtain ⟨e,member,overrides⟩ := exact_.mp rfl
        exact ended_holds _ ⟨known.kept,fun _ => .inr (.inr ⟨e,known.events e member,overrides⟩)⟩
      | none =>
        rw [stands] at exact_
        refine comment_holds ⟨known.kept,fun asked => ?_⟩
        by_contra shut
        exact Bool.false_ne_true (exact_.mpr (known.overridden asked (Bool.not_eq_false _ ▸ shut)))

theorem again_holds (kept : Kept job care s) {there : Scene × Code Report} (again : Again job s there) :
    (job.gate care).Holds (Ended job care) there.2 there.1 := by
  rw [again]
  exact closePullRequest_holds { kept with comment := kept.comment }

theorem session_ended {here there : Scene × Code Report}
    (run : Relation.ReflTransGen (Session job (Fair job care)) here there)
    (start : (job.gate care).Holds (Ended job care) here.2 here.1) :
    (job.gate care).Holds (Ended job care) there.2 there.1 := by
  have same : Relation.ReflTransGen ((job.gate care).Session (Again job) (Again job)) here there :=
    session_mono (w := pulls job (Fair job care) fun _ => True) (fun _ _ _ _ served => served) (fun _ _ act => act) run
  refine (session_run (K := fun _ => True) ?_ ?_ ?_ same trivial start).2
  · exact fun report s there _ ended again => again_holds ended.kept again
  · exact fun s there _ kept down => again_holds kept down
  · exact fun _ _ _ _ => trivial

end

-- Whatever the runs and the others do.
theorem close_repeat_safe (job : Job) (care : Care) {start t : Scene} {p : Code Report} (fresh : Fresh start)
    (run : Relation.ReflTransGen (Session job (Fair job care)) (start,closePullRequest job) (t,p)) :
    (care.comments → t.posted ≤ 1) ∧ (care.reopens → t.reclosed = false) ∧
      ∀ report, p = .done report → succeeded report = true → Settled job t := by
  have holds := session_ended run (closePullRequest_holds (fresh_kept fresh))
  have kept := holds_always p holds
  refine ⟨kept.posted,kept.reclosed,fun report finished good => ?_⟩
  have ended : (job.gate care).Holds (Ended job care) p t := holds
  rw [finished] at ended
  exact (holds_value ended).settled good

namespace Sample

def job : Job := ⟨5,ascii "vgi",ascii "h/acme/lib",3,ascii "j1",ascii "Not signed.",some 10⟩

def shown : PullRequestState → PullJson
  | .opened => ⟨ascii "open",none,none⟩
  | .closed => ⟨ascii "closed",none,none⟩
  | .merged => ⟨ascii "closed",some true,none⟩

theorem shown_shows (state : PullRequestState) : Shows state (shown state) := by
  cases state with
  | opened => exact ⟨rfl,nofun,rfl⟩
  | closed => exact ⟨rfl,nofun,rfl⟩
  | merged => exact ⟨rfl,.inl rfl⟩

-- Every call does what it asks for.
def calm (job : Job) : (q : Query) → Scene → Option (q.Answer × Scene)
  | .pull,s => some (.ok (shown s.state),{ s with left := some s.state })
  | .events n,s => some (.ok (page s.events n),s)
  | .comments n,s => some (.ok (page s.comments n),{ s with paging := (page s.comments n).2 })
  | .post body,s => some (.ok (),s.commented ⟨some body,none,some job.appId⟩)
  | .close,s => some (.ok (),s.shut)
  | .probe,s => some ((),s)

theorem calm_serves (job : Job) (q : Query) (s : Scene) (r : q.Answer) (t : Scene) (answered : calm job q s = some (r,t)) :
    Serves job q s r t := by
  cases q with
  | pull =>
    cases answered
    exact .inr ⟨_,rfl,shown_shows s.state,rfl⟩
  | events n =>
    cases answered
    exact ⟨rfl,.inr rfl⟩
  | comments n =>
    cases answered
    exact .inr ⟨rfl,rfl⟩
  | post body =>
    cases answered
    exact .inr ⟨none,rfl⟩
  | close =>
    cases answered
    exact .inr rfl
  | probe =>
    cases answered
    rfl

-- So many calls; an act of somebody else; the next run, whatever the last had done.
inductive Move where
  | calls (n : Nat)
  | act (a : Act)
  | again

def play (job : Job) : List Move → Scene × Code Report → Option (Scene × Code Report)
  | [],here => some here
  | .calls n :: rest,here => (here.2.advance (calm job) n here.1).bind (play job rest)
  | .act a :: rest,here => play job rest (a.apply here.1,here.2)
  | .again :: rest,here => play job rest ({ here.1 with paging := false },closePullRequest job)

theorem play_session {job : Job} {allowed : Scene → Act → Prop} (moves : List Move) (fair : ∀ a, .act a ∈ moves → ∀ s, allowed s a)
    {here there : Scene × Code Report} (played : play job moves here = some there) :
    Relation.ReflTransGen (Session job allowed) here there := by
  induction moves generalizing here with
  | nil =>
    cases played
    exact .refl
  | cons move rest ih =>
    have later : ∀ a, .act a ∈ rest → ∀ s, allowed s a := fun a member => fair a (List.mem_cons_of_mem _ member)
    cases move with
    | calls n =>
      obtain ⟨mid,answered,after⟩ := Option.bind_eq_some_iff.mp played
      exact (session_steps (advance_steps (calm_serves job) n here.2 answered)).trans (ih later after)
    | act a => exact .head (.step (.other ⟨a,fair a List.mem_cons_self here.1,rfl⟩)) (ih later played)
    | again => exact .head (.crash rfl) (ih later played)

def report : Scene × Code Report → Option Report
  | (_,.done report) => some report
  | (_,.call _ _) => none

def opened : Scene := { state := .opened }

def reopen (at_ : Int) : Act := .reopen (some ⟨7,ascii "mallory"⟩) none at_

-- The first run is cut short after it posts, the second closes, and the third finds
-- the pull request opened again.
def reruns : List Move := [.calls 4,.again,.calls 4,.act (reopen 11),.again,.calls 2]

end Sample

open Sample in
theorem close_repeat_safe_sample : ∃ t done_, play job reruns (opened,closePullRequest job) = some (t,.done done_) ∧
    t.posted ≤ 1 ∧ t.reclosed = false ∧ Settled job t := by
  obtain ⟨⟨t,p⟩,played,seen⟩ := Option.map_eq_some_iff.mp
    (show (play job reruns (opened,closePullRequest job)).map (fun there => (report there).map succeeded) = some (some true) by
      decide)
  obtain ⟨done_,finished,good⟩ := Option.map_eq_some_iff.mp seen
  cases p with
  | call q next => cases finished
  | done value =>
    cases finished
    have fair : ∀ a, .act a ∈ reruns → ∀ s, Fair job ⟨True,True⟩ s a := by
      intro a member s
      obtain rfl : a = reopen 11 := by simpa [reruns] using member
      exact fun _ _ => ⟨rfl,10,rfl,by decide⟩
    obtain ⟨posted,reclosed,settled⟩ := close_repeat_safe job ⟨True,True⟩ ⟨rfl,rfl,rfl,rfl,rfl⟩ (play_session reruns fair played)
    exact ⟨t,done_,played,posted trivial,reclosed trivial,settled done_ rfl good⟩

namespace Sample

-- With nobody asked to leave anything alone.
theorem played_session (job : Job) {moves : List Move} {start : Scene} {there : Scene × Code Report}
    (played : play job moves (start,closePullRequest job) = some there) :
    Relation.ReflTransGen (Session job fun _ _ => True) (start,closePullRequest job) there :=
  play_session moves (fun _ _ _ => trivial) played

theorem played_scene (job : Job) (moves : List Move) {start : Scene} {look : Scene → α} {a : α}
    (played : (play job moves (start,closePullRequest job)).map (fun there => look there.1) = some a) :
    ∃ t p, Relation.ReflTransGen (Session job fun _ _ => True) (start,closePullRequest job) (t,p) ∧ look t = a := by
  obtain ⟨⟨t,p⟩,found,seen⟩ := Option.map_eq_some_iff.mp played
  exact ⟨t,p,played_session job found,seen⟩

-- A hundred comments before the job's, so that it is first on the second page.
def busy : Scene := { state := .opened, comments := List.replicate 100 {} }

-- The record of a job accepted before `issuedAt` was kept.
def undated : Job := { job with issuedAt := none }

end Sample

-- Somebody deletes the job's comment, or another one while a run is paging: it is
-- posted twice. A reopen after the job's issue, before its first run: the run succeeds,
-- and leaves the pull request open. A reopen stamped no later than the issue, or with
-- no issue known: the pull request is closed again.
open Sample in
theorem close_repeats :
    (∃ t p, Relation.ReflTransGen (Session job fun _ _ => True) (opened,closePullRequest job) (t,p) ∧ t.posted = 2) ∧
    (∃ t p, Relation.ReflTransGen (Session job fun _ _ => True) (busy,closePullRequest job) (t,p) ∧
      (t.posted,t.comments.countP (job.carries (commentMarker job.jobId))) = (2,2)) ∧
    (∃ t done_, Relation.ReflTransGen (Session job fun _ _ => True) (opened,closePullRequest job) (t,.done done_) ∧
      succeeded done_ = true ∧ t.left = some .opened) ∧
    (∃ t p, Relation.ReflTransGen (Session job fun _ _ => True) (opened,closePullRequest job) (t,p) ∧ t.reclosed = true) ∧
    ∃ t p, Relation.ReflTransGen (Session undated fun _ _ => True) (opened,closePullRequest undated) (t,p) ∧
      t.reclosed = true := by
  refine ⟨?_,?_,?_,?_,?_⟩
  · exact played_scene job [.calls 4,.act (.delete 0),.again,.calls 5] (by decide)
  · exact played_scene job [.calls 4,.again,.calls 3,.act (.delete 0),.calls 2] (by decide)
  · obtain ⟨⟨t,p⟩,played,seen⟩ := Option.map_eq_some_iff.mp
      (show (play job [.act .close,.act (reopen 11),.calls 2] (opened,closePullRequest job)).map
        (fun there => ((report there).map succeeded,there.1.left)) = some (some true,some .opened) by decide)
    obtain ⟨good,leave⟩ := Prod.mk.inj seen
    obtain ⟨done_,finished,fine⟩ := Option.map_eq_some_iff.mp good
    cases p with
    | call q next => cases finished
    | done value =>
      cases finished
      exact ⟨t,done_,played_session job played,fine,leave⟩
  · exact played_scene job [.calls 5,.act (reopen 10),.again,.calls 4] (by decide)
  · exact played_scene undated [.calls 5,.act (reopen 11),.again,.calls 4] (by decide)

end VerifiableGit.Pulls
