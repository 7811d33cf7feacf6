import VerifiableGit.Bridge.Exclusive

-- All writers together, each with one program after another.
namespace VerifiableGit.Bridge.Writers
open VerifiableGit.Text VerifiableGit.Library.Interaction Mirror

section
variable (seal_ : MasterKey) (size : Value → Nat)

-- The programs that write under the lease; `put_sealed` is allowed any number of
-- attempts but none.
inductive Works (holder : Bytes) : Code (Except Fault Unit) → Prop
  | mirror (fuel : Nat) : Works holder (syncPass seal_ size holder fuel)
  | secretSet (attempts fuel : Nat) (name bytes : Bytes) :
      Works holder (secretSet seal_ (attempts + 1) holder fuel name bytes)
  | forget (fuel : Nat) (doomed : List (Bytes × Nat))
      (state : ∀ row ∈ doomed, ∃ table key, row.1 = stateKey table key) :
      Works holder (forgetRemote holder fuel doomed)

variable {ι : Type} [DecidableEq ι] (holder : ι → Bytes)

def waiting (millis : Nat) (work : Code (Except Fault Unit)) : Code (Except Fault Unit) :=
  .call (.sleep millis) fun _ => work

def writers : Team ι Request Request.Answer (Shared ι) (Except Fault Unit) where
  member := writing seal_ holder
  starts := fun i p => ∃ millis work, p = waiting millis work ∧ Works seal_ size (holder i) work
  post := Ended seal_

def Writes : Shared ι × (ι → Code (Except Fault Unit)) → Shared ι × (ι → Code (Except Fault Unit)) → Prop :=
  Relation.ReflTransGen (writers seal_ size holder).Step

end

section
variable {seal_ : MasterKey} {ι : Type} {holder : ι → Bytes} {s t : Shared ι} {i j : ι} {q : Request}

theorem promise_relied (distinct : Function.Injective holder) (other : i ≠ j)
    (promise : Promise seal_ holder i q s t) : Relied seal_ holder j s t := by
  obtain ⟨clock,held⟩ := promise.others j (Ne.symm other)
  exact ⟨promise.now,clock,held,⟨i,fun same => other (distinct same),promise.change⟩,promise.sound⟩

end

section
variable {seal_ : MasterKey} {size : Value → Nat} {ι : Type} [DecidableEq ι] {holder : ι → Bytes}
variable {start s : Shared ι} {progs : ι → Code (Except Fault Unit)} {i : ι}

theorem works_ended (work : Code (Except Fault Unit)) (works : Works seal_ size (holder i) work)
    (here : Sound seal_ s ∧ Idle i s) : (writing seal_ holder i).Holds (Ended seal_ i) work s := by
  cases works with
  | mirror fuel => exact syncPass_ended size fuel here
  | secretSet attempts fuel name bytes => exact secretSet_ended attempts fuel name bytes here
  | forget fuel doomed state =>
    refine forgetRemote_ended fuel doomed (fun row inside => ?_) here
    obtain ⟨table,key,same⟩ := state row inside
    rw [same]
    exact state_not_lease

theorem writers_fit (distinct : Function.Injective holder) : (writers seal_ size holder).Fits := by
  constructor
  · exact fun i j q s t other promise => promise_relied distinct other promise
  · intro i p a s first ended
    obtain ⟨millis,work,same,works⟩ := first
    subst same
    refine firm_call firm_idle (fun s r t idle served => ?_) ended.1
    obtain ⟨c,read⟩ := sleep_served served
    refine ⟨read_promise (.sleep millis) r served read,fun sound => ?_⟩
    exact works_ended work works ⟨sound,(congrFun read.held i).trans idle.2⟩

-- However the writers' requests interleave: every live secret opens at its version,
-- no sealed put ever gives up on its version, and a put applied under a held lease
-- takes the version that lease predicts.
theorem lease_makes_version_exact (distinct : Function.Injective holder) (sound : Sound seal_ start)
    (idle : ∀ i, start.held i = none)
    (run : Writes seal_ size holder (start,fun _ => .done (.ok ())) (s,progs)) :
    Sealed seal_ s.remote ∧ (∀ i key, progs i ≠ .done (.error (.unpredictable key))) ∧
      ∀ i q next r t, progs i = .call q next → s.Serves i q r t → Predicted seal_ i q s t := by
  have holds := team_run (writers_fit distinct) run fun i =>
    ended_done (fun e same => nomatch same) ⟨sound,idle i⟩
  refine ⟨?_,?_,?_⟩
  · by_cases writer : Nonempty ι
    · obtain ⟨i⟩ := writer
      exact (holds_always _ (holds i)).opens
    · have still : s = start := by
        cases run with
        | refl => rfl
        | tail _ step =>
          cases step with
          | own i _ _ => exact absurd ⟨i⟩ writer
          | start i _ _ => exact absurd ⟨i⟩ writer
      rw [still]
      exact sound.opens
  · intro i key same
    have mine := holds i
    simp only [same] at mine
    exact (holds_value mine).2 _ rfl key rfl
  · intro i q next r t asks served
    have mine := holds i
    simp only [asks] at mine
    exact (step_guarantee mine served).predicted

end

namespace Sample

def token : Bytes := ascii "forge/token"

def clerk : Bool → Bytes := fun first => if first then ascii "secret-set-1" else ascii "secret-set-2"

theorem clerks_distinct : Function.Injective clerk := by
  intro a b same
  cases a <;> cases b <;> first | rfl | exact absurd same (by decide)

def clerksIdle : Shared Bool := ⟨⟨Remote.empty,0,fun first => if first then 1000 else 2000⟩,fun _ => none⟩

def sets (first : Bool) : Code (Except Fault Unit) :=
  waiting 5 (secretSet plainKey 4 (clerk first) 1 token (ascii "key"))

-- One writer after the other; both found the lease free.
def bothSet : Option (Except Fault Unit × Shared Bool) :=
  ((sets true).run (Shared.answer true) clerksIdle).bind fun done =>
    (sets false).run (Shared.answer false) done.2

theorem lease_makes_version_exact_sample : ∃ s, bothSet = some (.ok (),s) ∧
    s.remote.live (secretKey token) = some 5 ∧ Sealed plainKey s.remote := by
  have facts : bothSet.map (fun done => (done.1,done.2.remote.live (secretKey token))) =
      some (.ok (),some 5) := by decide
  obtain ⟨⟨res,s⟩,ran,same⟩ := Option.map_eq_some_iff.mp facts
  obtain ⟨rfl,alive⟩ : res = .ok () ∧ s.remote.live (secretKey token) = some 5 := by simpa using same
  obtain ⟨⟨first,t⟩,one,two⟩ := Option.bind_eq_some_iff.mp ran
  have begins (i : Bool) : (writers plainKey jsonLength clerk).starts i (sets i) :=
    ⟨5,_,rfl,.secretSet 3 1 token (ascii "key")⟩
  have sound : Sound plainKey clerksIdle :=
    ⟨fun _ _ _ here => (nomatch here),fun _ _ here => (nomatch here)⟩
  have run : Writes plainKey jsonLength clerk (clerksIdle,fun _ => .done (.ok ()))
      (s,Function.update (Function.update (fun _ => .done (.ok ())) true (.done first)) false (.done (.ok ()))) := by
    refine .head (.start true rfl (begins true)) ((team_lift true Shared.answer_serves _ one _ ?_).trans ?_)
    · exact Function.update_self _ _ _
    rw [Function.update_idem]
    refine .head (.start false rfl (begins false)) ?_
    have rest (progs : Bool → Code (Except Fault Unit)) (own : progs false = sets false) :
        Writes plainKey jsonLength clerk (t,progs) (s,Function.update progs false (.done (.ok ()))) :=
      team_lift false Shared.answer_serves _ two progs own
    have last := rest _ (Function.update_self false (sets false)
      (Function.update (fun _ => Prog.done (.ok ())) true (Prog.done first)))
    rwa [Function.update_idem] at last
  exact ⟨s,ran,alive,(lease_makes_version_exact clerks_distinct sound (fun _ => rfl) run).1⟩

end Sample

end VerifiableGit.Bridge.Writers
