import VerifiableGit.Service.Filed

-- A job's result leaves the outbox when the VTC answered it.
namespace VerifiableGit.Service
open Text Library Library.Interaction

def Content.isResult : Content → Bool
  | .result _ => true
  | .event _ => false

-- A result response names the job; an unknownJob refusal threads to a document
-- that the entry was sent as.
inductive ResultAnswered (h : Handler) (seen : Seen) (jobId : Bytes) : Prop
  | response (own : h = .resultAck jobId)
  | refused (thread : Option Bytes) (entries : List (OutboxKey × OutboxEntry)) (e : OutboxEntry)
      (own : h = .refusal unknownJobCode thread) (first : First seen .listEntries entries)
      (listed : (.result jobId,e) ∈ entries) (sentAs : thread.getD [] ∈ e.docIds)

-- What a step does to the results in the outbox.
def ResultsStay (c : State) (act : Act Handler Query Query.Answer) (d : State) : Prop :=
  ∀ jobId e, c.1.outbox.lookup (.result jobId) = some e →
    (∃ e' p, d.1.outbox.lookup (.result jobId) = some e' ∧ e'.content = .result p ∧ p.jobId = jobId) ∨
    ∃ i r, act = .asked i (.deleteEntry (.result jobId)) r ∧ ResultAnswered (c.2 i).handler (c.2 i).seen jobId

-- The document by which a message clears an entry that is no result.
def clears : Handler → Option Bytes
  | .eventAck thread => thread
  | .refusal code thread => if code = unknownNamespaceCode then some (thread.getD []) else none
  | _ => none

-- When an event's acknowledgement or an unknownNamespace refusal is handled, the
-- entry it threads to is not a result.
def attributed (c : State) : Act Handler Query Query.Answer → Bool
  | .asked i .listEntries _ => !(c.2 i).seen.isEmpty || (clears (c.2 i).handler).all fun thread =>
      (threaded thread (listed OutboxKey.text c.1.outbox.rows)).all fun e => !e.2.content.isResult
  | _ => true

section
variable {cfg : Cfg} {c d : State} {act : Act Handler Query Query.Answer} {seen : Seen} {h : Handler}

def Threads (h : Handler) (seen : Seen) : Prop :=
  ∀ entries thread e, First seen .listEntries entries → clears h = some thread → threaded thread entries = some e →
    e.2.content.isResult = false

theorem first_cons {q other : Query} {r : q.Answer} {s : other.Answer} (first : First (⟨other,s⟩ :: seen) q r) :
    First seen q r ∨ (seen = [] ∧ (⟨other,s⟩ : Σ q : Query,q.Answer) = ⟨q,r⟩) := by
  cases seen with
  | nil =>
    right
    have same := first.eq_of_length rfl
    exact ⟨rfl,(List.cons.inj same).1.symm⟩
  | cons before rest =>
    rcases List.suffix_cons_iff.mp first with whole | inside
    · cases whole
    · exact .inl inside

theorem threads_step (step : (bridge cfg).Step c act d) (fits : attributed c act)
    (threads : ∀ i, Threads (c.2 i).handler (c.2 i).seen) (j : Nat) : Threads (d.2 j).handler (d.2 j).seen := by
  rcases step_seen step j with ⟨q,r,asked,seen,same⟩ | gone | same
  · intro entries thread e first clearing found
    rw [seen] at first
    rw [same] at clearing
    rcases first_cons first with before | ⟨start,now⟩
    · exact threads j entries thread e before clearing found
    · cases now
      subst asked
      have read : entries = listed OutboxKey.text c.1.outbox.rows := by
        cases step with
        | asked i asks served =>
          obtain ⟨outside,answered⟩ := served
          cases answered
          rfl
      simpa only [attributed,start,clearing,← read,found,List.isEmpty_nil,Bool.not_true,Bool.false_or,Option.all_some,
        Bool.not_eq_eq_eq_not] using fits
  · intro entries thread e first clearing found
    rw [gone] at first
    exact absurd (List.suffix_nil.mp first) (List.cons_ne_nil _ _)
  · rw [same]
    exact threads j

theorem heard_first {q : Query} {r : q.Answer} (first : First seen q r) : Heard seen q r :=
  first.subset List.mem_cons_self

-- Whoever deletes a result may.
theorem dropped_answered {jobId : Bytes} (dropped : Dropped h seen (.result jobId)) (threads : Threads h seen)
    (heard : ∀ q r, Heard seen q r → Reads w q r) : ResultAnswered h seen jobId := by
  generalize own : OutboxKey.result jobId = key at dropped
  have fits : ∀ e : OutboxKey × OutboxEntry, .result jobId = e.1 → KeyFits e.1 e.2.content → e.2.content.isResult = true := by
    intro e same fits
    rw [← same] at fits
    cases content : e.2.content with
    | result p => rfl
    | event p =>
      rw [content] at fits
      cases fits
  cases dropped with
  | acknowledged id mine =>
    cases own
    exact .response mine
  | eventAck thread entries e mine first found =>
    have result := fits e own (heard _ _ (heard_first first) e (List.mem_of_find?_eq_some found))
    rw [threads entries thread e first (by rw [mine]; rfl) found] at result
    cases result
  | refused code thread entries e mine known first found =>
    have inside := List.mem_of_find?_eq_some found
    cases known with
    | inl unknownJob =>
      subst unknownJob
      refine .refused thread entries e.2 mine first ?_ (by simpa using List.find?_some found)
      rw [own]
      exact inside
    | inr unknownNamespace =>
      have result := fits e own (heard _ _ (heard_first first) e inside)
      rw [threads entries (thread.getD []) e first (by rw [mine]; simp [clears,unknownNamespace]) found] at result
      cases result
  | listed entries e p read inside event =>
    have result := fits e own (heard _ _ read e inside)
    rw [event] at result
    cases result
  | orphaned key e p read event =>
    have result := fits (key,e) own (heard _ _ read e rfl)
    rw [event] at result
    cases result
  | roleMap ns => cases own

theorem result_kept {jobId : Bytes} {e : OutboxEntry} (fits : KeyFits (.result jobId) e.content) :
    ∃ p, e.content = .result p ∧ p.jobId = jobId := by
  cases content : e.content with
  | result p =>
    rw [content] at fits
    exact ⟨p,rfl,fits⟩
  | event p =>
    rw [content] at fits
    cases fits

theorem stays_step (ruled : (rules cfg).Ruled c.2) (filed : Filed c) (threads : ∀ i, Threads (c.2 i).handler (c.2 i).seen)
    (step : (bridge cfg).Step c act d) : ResultsStay c act d := by
  intro jobId e found
  have mine := filed.entries _ e found
  rcases step_asks ruled step with ⟨i,q,r,outside,asked,served,backed⟩ | ⟨_,stores⟩
  · have change := entry_change served (.result jobId)
    rw [found] at change
    generalize after : d.1.outbox.lookup (.result jobId) = new at change ⊢
    cases change with
    | same =>
      obtain ⟨p,content,same⟩ := result_kept mine
      exact .inl ⟨e,p,rfl,content,same⟩
    | put entry =>
      obtain ⟨fits,p,event,_⟩ := backed
      rw [event] at fits
      cases fits
    | notes docId at_ =>
      obtain ⟨p,content,same⟩ := result_kept mine
      exact .inl ⟨e.noteSent docId at_,p,rfl,content,same⟩
    | refreshed payload => cases backed.1
    | deleted => exact .inr ⟨i,r,asked,dropped_answered backed (threads i) (filed.heard i)⟩
    | finishes result at_ id own =>
      cases own
      exact .inl ⟨_,result,rfl,rfl,backed⟩
  · obtain ⟨p,content,same⟩ := result_kept mine
    exact .inl ⟨e,p,by rw [stores.outbox,found],content,same⟩

end

-- In a run where every message that clears by its thread is about what it
-- threads to, no step takes a result out unanswered.
theorem results_stay (cfg : Cfg) (c d : State) (act : Act Handler Query Query.Answer)
    (run : (bridge cfg).Run (fun c act => attributed c act) fresh c) (step : (bridge cfg).Step c act d) :
    ResultsStay c act d := by
  have start : ∀ i, Threads (fresh.2 i).handler (fresh.2 i).seen := fun i entries thread e first => by
    cases List.suffix_nil.mp first
  obtain ⟨ruled,filed,threads⟩ := run_filed (I := fun c => ∀ i, Threads (c.2 i).handler (c.2 i).seen)
    (fun c act d _ _ fits step threads => threads_step step fits threads) run (ruled_fresh cfg) filed_fresh start
  exact stays_step ruled filed threads step

namespace Sample

-- The job has failed, and its result was sent as the document `[1]`.
def refused : List (Move Handler ((q : Query) → q.Answer)) :=
  whole 0 .restore (calm [9]) ++ whole 0 (.job (bindJob j1 n1 acme)) (refusing [1])

def holdsResult (c : State) : Bool := (c.1.outbox.lookup (.result j1)).isSome

-- Its result response takes it out.
theorem results_stay_response : ∃ c act d, (bridge {}).Step c act d ∧ holdsResult c = true ∧ holdsResult d = false ∧
    ResultsStay c act d := by
  obtain ⟨c,q,r,d,run,_,step,before,after⟩ := played_step (bridge_plays {}) attributed fresh
    (refused ++ [.enter 0 (.resultAck j1)]) 0 (calm [1]) holdsResult holdsResult (true,false) (by decide)
  exact ⟨c,_,d,step,before,after,results_stay {} c d _ run step⟩

-- An event's acknowledgement does as well, threaded to what the result was sent as.
theorem event_ack_takes_result : ¬ ∀ (cfg : Cfg) (c d : State) (act : Act Handler Query Query.Answer),
    (bridge cfg).Run (fun _ _ => True) fresh c → (bridge cfg).Step c act d → ResultsStay c act d := by
  intro claim
  obtain ⟨c,q,r,d,run,_,step,before,after⟩ := played_step (bridge_plays {}) (fun _ _ => true) fresh
    (refused ++ [.enter 0 (.eventAck (some [1])),.ask 0 (calm [1])]) 0 (calm [1])
    (fun c => (holdsResult c,(c.2 0).handler)) holdsResult ((true,.eventAck (some [1])),false) (by decide)
  obtain ⟨held,own⟩ := Prod.mk.inj before
  obtain ⟨e,found⟩ := Option.isSome_iff_exists.mp held
  rcases claim {} c d _ (run_weaken (fun _ _ _ => trivial) run) step j1 e found with ⟨e',p,there,_⟩ | ⟨i,r',asked,answered⟩
  · rw [holdsResult,there] at after
    cases after
  · cases asked
    cases answered with
    | response mine => cases own.symm.trans mine
    | refused thread entries e mine first listed sentAs => cases own.symm.trans mine

end Sample

end VerifiableGit.Service
