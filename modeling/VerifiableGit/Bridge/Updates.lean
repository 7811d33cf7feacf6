import VerifiableGit.Bridge.Pass

-- Any number of passes, one at a time, among the local writers.
namespace VerifiableGit.Bridge
open VerifiableGit.Text VerifiableGit.Library.Interaction Mirror

section
variable (seal_ : MasterKey) (size : Value → Nat)

def nextPass (s : Watched) (there : Watched × Code (Except Fault Unit)) : Prop :=
  ∃ holder fuel, there = (s,syncPass seal_ size holder fuel)

def noCrash (_ : Watched) (_ : Watched × Code (Except Fault Unit)) : Prop := False

def Passes : Watched × Code (Except Fault Unit) → Watched × Code (Except Fault Unit) → Prop :=
  Relation.ReflTransGen ((watching seal_ size).Session (nextPass seal_ size) noCrash)

-- Nothing watched yet: no mark, no batch. The rest of the world is as it may be.
structure Watched.Unmarked (s : Watched) : Prop where
  inFlight : s.host.inFlight = 0
  fresh : ∀ d, s.fresh d = none
  again : s.again = ∅
  taken : s.taken = []

end

section
variable {seal_ : MasterKey} {size : Value → Nat} {start s : Watched} {p : Code (Except Fault Unit)}

theorem unmarked_between (unmarked : start.Unmarked) :
    Between seal_ size [] False start := by
  refine ⟨⟨?_,?_,?_,?_⟩,unmarked.taken,False.elim⟩
  · rw [unmarked.inFlight,unmarked.taken,List.length_nil]
  · intro d
    refine .inr fun values found _ => ?_
    rw [unmarked.fresh] at found
    cases found
  · intro d values found
    rw [unmarked.fresh] at found
    cases found
  · rw [unmarked.again]
    exact Finset.empty_subset _

theorem passes_pending (unmarked : start.Unmarked)
    (run : Passes seal_ size (start,.done (.ok ())) (s,p)) : Pending seal_ size s := by
  have first : (watching seal_ size).Holds (fun _ => Between seal_ size [] False)
      (.done (.ok ()) : Code (Except Fault Unit)) start := ?first
  refine holds_always p (session_run (K := fun _ => True) ?_ ?_ (fun _ _ _ known => known) run trivial first).2
  · rintro a s there _ between ⟨holder,fuel,rfl⟩
    exact holds_weaken _ (syncPass_passed holder fuel between)
      fun _ _ passed => between_weaken False.elim passed
  · exact fun _ _ _ _ impossible => impossible.elim
  · exact holds_done (between_firm _ _).stable (between_firm _ _).pending (fun _ there => there)
      (unmarked_between unmarked)

theorem sync_pass_loses_no_update (unmarked : start.Unmarked)
    (run : Passes seal_ size (start,.done (.ok ())) (s,p)) :
    (s.host.pending = 0 → ∀ d values, s.fresh d = some values → AllFit seal_ size d values →
      remoteValue seal_ s.remote d ∈ values) ∧
    (∀ d, d ∈ s.again → d ∈ s.host.dirty) ∧
    (s.taken ≠ [] → s.host.pending ≠ 0) := by
  have valid := passes_pending unmarked run
  refine ⟨?_,fun d inside => valid.again inside,?_⟩
  · intro none_ d values found fit
    obtain ⟨clean,landed⟩ := Nat.add_eq_zero_iff.mp none_
    rw [valid.counted,List.length_eq_zero_iff] at landed
    rcases valid.kept d with inside | kept
    · rw [landed] at inside
      cases inside
    · rcases kept values found fit with dirty | shown
      · rw [Finset.card_eq_zero.mp clean] at dirty
        exact absurd dirty (Finset.notMem_empty d)
      · exact shown
  · intro some_ none_
    obtain ⟨_,landed⟩ := Nat.add_eq_zero_iff.mp none_
    rw [valid.counted,List.length_eq_zero_iff] at landed
    exact some_ landed

variable (seal_ size) in
theorem answer_watched {script : World.Script} (q : Request) (r : q.Answer) {t : Watched}
    (answered : s.answer script q = some (r,t)) : (watching seal_ size).serve q s r t := by
  simp only [Watched.answer] at answered
  split at answered
  · rename_i r' w found
    split at answered
    · rename_i again
      cases answered
      exact ⟨⟨World.answer_serves q _ found,rfl,rfl,rfl,rfl⟩,again⟩
    · cases answered
  · cases answered

theorem pass_runs {script : World.Script} {res : Except Fault Unit} (holder : Bytes) (fuel : Nat)
    (ran : (syncPass seal_ size holder fuel).run (fun q s => s.answer script q) start = some (res,s)) :
    Passes seal_ size (start,.done (.ok ())) (s,.done res) ∧ s.fresh = start.fresh := by
  constructor
  · refine .head (.again ⟨holder,fuel,rfl⟩) ?_
    exact session_steps
      (run_steps (fun q s r t answered => answer_watched _ _ q r answered) _ ran)
  · refine run_kept (K := fun t => t.fresh = start.fresh) ?_ _ ran rfl
    intro q s r t answered here
    have served := answer_watched seal_ size q r answered
    exact served.1.fresh.trans here

variable (seal_ size start) in
theorem marked_runs (op : StoreOp) (d : Dirty) (owes : d ∈ (start.commits op).world.owed) :
    Passes seal_ size (start,p) ((start.commits op).marks d,p) :=
  .tail (.single (.step (.other (.commit start op)))) (.step (.other (.mark _ d owes)))

end

namespace Sample

def name : Bytes := ascii "forge/github"
def place : Dirty := .record .meta_ (ascii "rotation")
def value : Value := .object [(ascii "at",.int 7)]

def idle : Watched := ⟨⟨Remote.empty,Host.empty,[]⟩,fun _ => none,∅,[],fun _ => none⟩

theorem idle_unmarked : idle.Unmarked := ⟨rfl,fun _ => rfl,rfl,rfl⟩

def changed : Watched := (idle.commits (.put .meta_ (ascii "rotation") value)).marks place

def script : World.Script := ⟨1000,fun _ => .answered,[place]⟩

def passed : Option (Except Fault Unit × Watched) :=
  (syncPass plainKey jsonLength (ascii "mirror-1") 1).run (fun q s => s.answer script q) changed

theorem sync_pass_loses_no_update_sample : ∃ res s, passed = some (res,s) ∧
    remoteValue plainKey s.remote place ∈ ({some (.json value)} : Set (Option Content)) := by
  have clean : passed.map (fun done => done.2.host.pending) = some 0 := by decide
  obtain ⟨⟨res,s⟩,ran,none_⟩ := Option.map_eq_some_iff.mp clean
  obtain ⟨run,fresh⟩ := pass_runs _ _ ran
  have first := marked_runs plainKey jsonLength idle
    (p := .done (.ok ())) (.put .meta_ (ascii "rotation") value) place (by decide)
  refine ⟨res,s,ran,(sync_pass_loses_no_update idle_unmarked (first.trans run)).1 none_ place _ ?_ ?_⟩
  · rw [fresh]
    rfl
  · intro c held
    cases held
    exact (by decide : jsonLength value ≤ maxValueBytes)

-- The sealed record of 65536 bytes is 87433 bytes long.
def token : Bytes := List.replicate 65536 0
def tokenSize (_ : Value) : Nat := 87433

def oversized : Watched := (idle.commits (.putSecret name token)).marks (.secret name)

def dropping : World.Script := ⟨1000,fun _ => .answered,[.secret name]⟩

def dropped : Option (Except Fault Unit × Watched) :=
  (syncPass plainKey tokenSize (ascii "mirror-1") 1).run (fun q s => s.answer dropping q) oversized

theorem sync_pass_drops_oversize_secrets : ¬ ∀ (seal_ : MasterKey) (size : Value → Nat)
    (start s : Watched) (p : Code (Except Fault Unit)), start.Unmarked →
    Passes seal_ size (start,.done (.ok ())) (s,p) → s.host.pending = 0 →
    ∀ d values, s.fresh d = some values →
      (∀ table key, d = .record table key → AllFit seal_ size d values) →
      remoteValue seal_ s.remote d ∈ values := by
  intro claim
  have clean : dropped.map (fun done =>
      (done.2.host.pending,remoteValue plainKey done.2.remote (.secret name))) = some (0,none) := by
    decide
  obtain ⟨⟨res,s⟩,ran,same⟩ := Option.map_eq_some_iff.mp clean
  obtain ⟨none_,absent⟩ := Prod.mk.inj same
  obtain ⟨run,fresh⟩ := pass_runs _ _ ran
  have first := marked_runs plainKey tokenSize idle
    (p := .done (.ok ())) (.putSecret name token) (.secret name) (by decide)
  have marked : s.fresh (.secret name) = some {some (.bytes token)} := by
    rw [fresh]
    rfl
  have held := claim plainKey tokenSize idle s _ idle_unmarked (first.trans run) none_ _ _ marked
    fun table key impossible => nomatch impossible
  rw [absent] at held
  exact nomatch held

end Sample

end VerifiableGit.Bridge
