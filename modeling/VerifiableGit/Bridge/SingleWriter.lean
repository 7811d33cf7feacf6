import VerifiableGit.Bridge.Books
import VerifiableGit.Bridge.Restart

-- The runs of one host that is the only writer of its remote: passes, local
-- writers, requests that fail or lose their answer, and restarts anywhere.
namespace VerifiableGit.Bridge
open VerifiableGit.Text VerifiableGit.Library.Interaction Mirror

section
variable (seal_ : MasterKey) (size : Value → Nat) (careful : Prop)

def Tracked.nextPass (s : Tracked) (there : Tracked × Code (Except Fault Unit)) : Prop :=
  ∃ holder fuel, there = (s,syncPass seal_ size holder fuel)

def Tracked.pulls (s : Tracked) (there : Tracked × Code (Except Fault Unit)) : Prop :=
  ∃ host, (pull seal_ s.remote.list s.host.reopened = .ok host ∨
      pull seal_ s.remote.list s.host.reopened = .error host) ∧
    there = (s.restarted host,.done (.ok ()))

def Alone : Tracked × Code (Except Fault Unit) → Tracked × Code (Except Fault Unit) → Prop :=
  Relation.ReflTransGen ((tracking seal_ careful).Session (Tracked.nextPass seal_ size) (Tracked.pulls seal_))

end

section
variable {seal_ : MasterKey} {size : Value → Nat} {careful : Prop} {s t : Tracked}
variable {p : Code (Except Fault Unit)} {host : Host}

theorem opens_sealed {remote : Remote} (opens : Sealed seal_ remote) (row : Sigma fun _ : Bytes => Record)
    (inside : row ∈ (latest remote.list.records).entries) : Opens seal_ row := by
  intro name key live
  have found := entry_lookup.mp inside
  rw [latest_list,Option.map_eq_some_iff] at found
  obtain ⟨e,here,same⟩ := found
  rw [← same] at live ⊢
  cases held : e.value with
  | none =>
    simp only [Remote.Entry.record,held] at live
    cases live
  | some v =>
    simp only [Remote.Entry.record,held,Option.getD_some]
    exact opens name e v (key ▸ here) held

-- What the host has mirrored, its own remote still holds.
theorem core_takes (core : Core seal_ s) : Takes seal_ s.remote.list s.host.reopened := by
  refine ⟨fun key m known => (core.mirrored key m known).below,?_,opens_sealed core.secrets⟩
  intro key m known
  obtain ⟨e,here,later⟩ := (core.mirrored key m known).reached
  exact ⟨Remote.Entry.record e,by rw [latest_list,here]; rfl,later⟩

theorem pull_own (core : Core seal_ s) (done : pull seal_ s.remote.list s.host.reopened = .ok host ∨
      pull seal_ s.remote.list s.host.reopened = .error host) :
    host = pulledFrom seal_ s.remote s.host.reopened := by
  rw [pull_takes (core_takes core)] at done
  rcases done with taken | refused
  · exact (Except.ok.inj taken).symm
  · cases refused

theorem restarted_calm (core : Core seal_ s) (done : pull seal_ s.remote.list s.host.reopened = .ok host ∨
      pull seal_ s.remote.list s.host.reopened = .error host) :
    Calm seal_ careful none (s.restarted host) := by
  have takes := core_takes core
  have same := pull_own core done
  subst same
  constructor
  · refine ⟨core.unreaped,core.versions,core.secrets,?_,core.past⟩
    intro key m known
    rcases pulled_mirrored takes known with before | ⟨e,here,version⟩
    · obtain ⟨below,reached,past⟩ := core.mirrored key m before
      exact ⟨below,reached,past⟩
    · refine ⟨version ▸ core.versions key e here,⟨e,here,Nat.le_of_eq version.symm⟩,?_⟩
      intro earlier inside below
      have held := (core.past earlier inside).2.records key e here (version ▸ below)
      exact ⟨e,held,Nat.le_of_eq version.symm⟩
  · refine fun _ => ⟨(pulled_same takes).2.2.2.2.2,fun key _ _ _ => pulled_versions takes key⟩

theorem first_calm : Calm seal_ careful none .first := by
  refine ⟨⟨rfl,?_,?_,?_,?_⟩,fun _ => ⟨rfl,fun _ _ _ _ => rfl⟩⟩
  · exact fun key e here => nomatch here
  · exact fun name e v here => nomatch here
  · exact fun key m known => nomatch known
  · exact fun earlier inside => nomatch inside

theorem alone_calm (run : Alone seal_ size careful (.first,.done (.ok ())) (s,p)) :
    (tracking seal_ careful).Holds (fun _ => Calm seal_ careful none) p s := by
  refine (session_run (K := fun _ => True) ?_ ?_ (fun _ _ _ known => known) run trivial ?_).2
  · rintro a s there _ calm ⟨holder,fuel,rfl⟩
    exact syncPass_calm size holder fuel calm
  · rintro s there _ always ⟨host,done,rfl⟩
    exact steady_done (steady_calm none) (fun _ there => there) (restarted_calm always.1 done)
  · exact steady_done (steady_calm none) (fun _ there => there) first_calm

theorem alone_core (run : Alone seal_ size careful (.first,.done (.ok ())) (s,p)) : Core seal_ s :=
  (holds_always p (alone_calm run)).1

-- In a run that sends no request under a version it may not know, the host never
-- takes its own write for another's, and no restart is refused.
theorem single_writer_never_conflicts (run : Alone seal_ size True (.first,.done (.ok ())) (s,p)) :
    s.host.conflicts = 0 ∧ ∃ host, pull seal_ s.remote.list s.host.reopened = .ok host :=
  ⟨(holds_always p (alone_calm run)).2 trivial,_,pull_takes (core_takes (alone_core run))⟩

end

instance Tracked.decideCareful (s : Tracked) : (q : Request) → Decidable (s.Careful q)
  | .put _ _ _ => inferInstanceAs (Decidable (_ ∨ _))
  | .delete _ _ => inferInstanceAs (Decidable (_ ∨ _))
  | .get _ => .isTrue trivial
  | .timestamp => .isTrue trivial
  | .instant => .isTrue trivial
  | .sleep _ => .isTrue trivial
  | .nonce => .isTrue trivial
  | .host _ => .isTrue trivial

namespace Tracked

def answer (script : World.Script) (careful : Bool) (s : Tracked) (q : Request) :
    Option (q.Answer × Tracked) :=
  match s.world.answer script q with
  | some (r,w) =>
    if careful → s.Careful q then
      some (r,⟨w,s.lostAfter w q r,s.ackedAfter q r,s.remote :: s.past⟩)
    else none
  | none => none

def commits (s : Tracked) (op : StoreOp) : Tracked := { s with world := s.world.commits op }

def marks (s : Tracked) (d : Dirty) : Tracked := { s with world := s.world.marks d }

end Tracked

section
variable {seal_ : MasterKey} {size : Value → Nat} {careful : Bool} {s start : Tracked}
variable {p : Code (Except Fault Unit)}

variable (seal_ careful) in
theorem answer_tracked {script : World.Script} (q : Request) (r : q.Answer) {t : Tracked}
    (answered : s.answer script careful q = some (r,t)) : (tracking seal_ careful).serve q s r t := by
  simp only [Tracked.answer] at answered
  split at answered
  · rename_i r' w found
    split at answered
    · rename_i allowed
      cases answered
      exact ⟨World.answer_serves q _ found,rfl,rfl,rfl,allowed⟩
    · cases answered
  · cases answered

theorem alone_pass {script : World.Script} {res last : Except Fault Unit} (holder : Bytes) (fuel : Nat)
    (ran : (syncPass seal_ size holder fuel).run (fun q s => s.answer script careful q) start = some (res,s)) :
    Alone seal_ size careful (start,.done last) (s,.done res) := by
  refine .head (.again ⟨holder,fuel,rfl⟩) ?_
  exact session_steps
    (run_steps (fun q s r t answered => answer_tracked _ _ q r answered) _ ran)

theorem alone_marked (op : StoreOp) (d : Dirty) (owes : d ∈ (start.commits op).world.owed) :
    Alone seal_ size careful (start,p) ((start.commits op).marks d,p) :=
  .tail (.single (.step (.other (.commit start op)))) (.step (.other (.mark _ d owes)))

theorem alone_restart {host : Host} (done : pull seal_ start.remote.list start.host.reopened = .ok host) :
    Alone seal_ size careful (start,p) (start.restarted host,.done (.ok ())) :=
  .single (.crash ⟨host,.inl done,rfl⟩)

end

namespace Sample

def lostScript : World.Script :=
  ⟨1000,fun key => if key = place.remoteKey then .lost else .answered,[place]⟩

def passes (script : World.Script) (careful : Bool) (s : Tracked) :
    Option (Except Fault Unit × Tracked) :=
  (syncPass plainKey jsonLength (ascii "mirror-1") 1).run (fun q s => s.answer script careful q) s

def reopens (s : Tracked) : Option Tracked :=
  match pull plainKey s.remote.list s.host.reopened with
  | .ok host => some (s.restarted host)
  | .error _ => none

theorem reopens_pulled {s t : Tracked} (found : reopens s = some t) :
    ∃ host, pull plainKey s.remote.list s.host.reopened = .ok host ∧ t = s.restarted host := by
  unfold reopens at found
  split at found
  · rename_i host done
    cases found
    exact ⟨host,done,rfl⟩
  · cases found

def written : Tracked := (Tracked.first.commits rotated).marks place

-- The answer is lost, and a restart reads the version back before the change is
-- written again.
def reconciled : Option (Except Fault Unit × Tracked) :=
  (passes lostScript true written).bind fun first => (reopens first.2).bind fun again =>
    passes script true ((again.commits rotatedAgain).marks place)

theorem single_writer_never_conflicts_sample : ∃ s, reconciled = some (.ok (),s) ∧
    s.remote.counter = 6 ∧ s.host.conflicts = 0 := by
  have facts : reconciled.map (fun done => (done.1,done.2.remote.counter)) = some (.ok (),6) := by
    decide
  obtain ⟨⟨res,s⟩,ran,same⟩ := Option.map_eq_some_iff.mp facts
  obtain ⟨rfl,counter⟩ : res = .ok () ∧ s.remote.counter = 6 := by simpa using same
  obtain ⟨⟨_,t⟩,first,rest⟩ := Option.bind_eq_some_iff.mp ran
  obtain ⟨u,restarted,second⟩ := Option.bind_eq_some_iff.mp rest
  obtain ⟨host,done,rfl⟩ := reopens_pulled restarted
  have run : Alone plainKey jsonLength True (.first,.done (.ok ())) (s,.done (.ok ())) := by
    have run : Alone plainKey jsonLength (true = true) (.first,.done (.ok ())) (s,.done (.ok ())) := by
      refine (alone_marked rotated place (by decide)).trans ((alone_pass _ _ first).trans ?_)
      refine (alone_restart done).trans ((alone_marked rotatedAgain place ?_).trans (alone_pass _ _ second))
      exact List.mem_cons_self
    rwa [eq_self] at run
  exact ⟨s,ran,counter,(single_writer_never_conflicts run).1⟩

-- The answer is lost, and the next pass writes under the version it last knew.
def unreconciled : Option (Except Fault Unit × Tracked) :=
  (passes lostScript false written).bind fun first => passes script false first.2

theorem single_writer_conflicts : ¬ ∀ (seal_ : MasterKey) (size : Value → Nat) (s : Tracked)
    (p : Code (Except Fault Unit)),
    Alone seal_ size False (.first,.done (.ok ())) (s,p) → s.host.conflicts = 0 := by
  intro claim
  have facts : unreconciled.map (fun done => (done.1,done.2.host.conflicts)) =
      some (.error (.conflict place.remoteKey),1) := by decide
  obtain ⟨⟨res,s⟩,ran,same⟩ := Option.map_eq_some_iff.mp facts
  obtain ⟨_,conflicts⟩ : res = .error (.conflict place.remoteKey) ∧ s.host.conflicts = 1 := by
    simpa using same
  obtain ⟨⟨_,t⟩,first,second⟩ := Option.bind_eq_some_iff.mp ran
  have run : Alone plainKey jsonLength (false = true) (.first,.done (.ok ())) (s,.done res) :=
    (alone_marked rotated place (by decide)).trans ((alone_pass _ _ first).trans (alone_pass _ _ second))
  have run : Alone plainKey jsonLength False (.first,.done (.ok ())) (s,.done res) := by
    rwa [Bool.false_eq_true] at run
  have none_ := claim plainKey jsonLength s _ run
  rw [conflicts] at none_
  exact absurd none_ Nat.one_ne_zero

end Sample

end VerifiableGit.Bridge
