import VerifiableGit.Bridge.SingleWriter

-- A remote set back to an earlier state of its own, and perhaps written to since
-- by others: when the pull of a restart refuses it.
namespace VerifiableGit.Bridge
open VerifiableGit.Text VerifiableGit.Library.Interaction Mirror

-- Writes of somebody else, on any key.
inductive Foreign (earlier : Remote) : Remote → Prop
  | same : Foreign earlier earlier
  | write (later : Foreign earlier remote) (now : Int) (key : Bytes) (v : Option Value) :
      Foreign earlier (remote.write now key v)

-- The change feed from the start.
def Remote.feed (remote : Remote) : Listing := { remote.list with mode := .feed }

-- A version mirrored after `earlier` that the remote, as it is now, does not reach.
def Missing (mirrored : Map Bytes Nat) (earlier remote : Remote) : Prop :=
  ∃ key m, mirrored.lookup key = some m ∧ earlier.counter < m ∧
    ∀ e, remote.entries.lookup key = some e → e.version < m

section
variable {seal_ : MasterKey} {size : Value → Nat} {careful : Prop} {s : Tracked}
variable {p : Code (Except Fault Unit)} {earlier remote : Remote} {host : Host} {key : Bytes}

theorem foreign_counter (later : Foreign earlier remote) : earlier.counter ≤ remote.counter := by
  induction later with
  | same => exact Nat.le_refl _
  | write _ now key v ih => exact Nat.le_succ_of_le ih

theorem foreign_reaches {m : Nat} (later : Foreign earlier remote) (below : m ≤ earlier.counter)
    (held : earlier.Reaches key m) : remote.Reaches key m := by
  induction later with
  | same => exact held
  | write later now other v ih =>
    exact Remote.reaches_write now v ih (Nat.le_trans below (foreign_counter later))

theorem foreign_counted (later : Foreign earlier remote) (counted : earlier.Counted) : remote.Counted := by
  induction later with
  | same => exact counted
  | write _ now key v ih => exact Remote.counted_write ih now key v

theorem feed_opens : (∀ row ∈ (latest remote.feed.records).entries, Opens seal_ row) ↔ Sealed seal_ remote := by
  constructor
  · intro opens name e v here held
    have row : (latest remote.list.records).lookup (secretKey name) = some (Remote.Entry.record e) := by
      rw [latest_list,here]
      rfl
    have live : (Remote.Entry.record e).deleted = false := by
      simp only [Remote.Entry.record,held,Option.isNone_some]
    have opened := opens _ (entry_lookup.mpr row) name rfl live
    simpa only [Remote.Entry.record,held,Option.getD_some] using opened
  · exact opens_sealed

-- Where all that was mirrored up to `earlier` is held still, the pull takes the
-- remote unless a later version is missing or a secret does not open.
theorem takes_feed (later : Foreign earlier remote) (counted : remote.Counted)
    (held : ∀ key m, host.mirrored.lookup key = some m → m ≤ earlier.counter → earlier.Reaches key m) :
    Takes seal_ remote.feed host ↔ ¬ Missing host.mirrored earlier remote ∧ Sealed seal_ remote := by
  constructor
  · intro takes
    refine ⟨?_,feed_opens.mp takes.secrets⟩
    rintro ⟨key,m,known,_,older⟩
    obtain ⟨r,found,reached⟩ := takes.records key m known
    have found : (latest remote.list.records).lookup key = some r := found
    rw [latest_list,Option.map_eq_some_iff] at found
    obtain ⟨e,here,same⟩ := found
    subst same
    exact absurd (older e here) (Nat.not_lt.mpr reached)
  · rintro ⟨complete,opens⟩
    have reaches (key : Bytes) (m : Nat) (known : host.mirrored.lookup key = some m) :
        remote.Reaches key m := by
      by_cases below : m ≤ earlier.counter
      · exact foreign_reaches later below (held key m known below)
      · refine Classical.byContradiction fun lost => complete ⟨key,m,known,Nat.not_le.mp below,?_⟩
        exact fun e here => Nat.not_le.mp fun reached => lost ⟨e,here,reached⟩
    refine ⟨fun key m known => ?_,fun key m known => ?_,feed_opens.mpr opens⟩
    · obtain ⟨e,here,reached⟩ := reaches key m known
      exact Nat.le_trans reached (counted key e here)
    · obtain ⟨e,here,reached⟩ := reaches key m known
      refine ⟨Remote.Entry.record e,?_,reached⟩
      show (latest remote.list.records).lookup key = some (Remote.Entry.record e)
      rw [latest_list,here]
      rfl

theorem refused_exact {listing : Listing} (feed : listing.mode = .feed) :
    (∃ after, pull seal_ listing host = .error after) ↔ ¬ Takes seal_ listing host := by
  constructor
  · rintro ⟨after,refused⟩ takes
    rw [pull_takes takes] at refused
    cases refused
  · exact pull_refuses feed

-- A remote set back to any earlier state of a run is refused exactly when some
-- version mirrored since is missing, or a live secret does not open.
theorem pull_refuses_rolled_back (run : Alone seal_ size careful (.first,.done (.ok ())) (s,p))
    (inside : earlier ∈ s.remote :: s.past) (later : Foreign earlier remote) :
    (∃ after, pull seal_ remote.feed s.host.reopened = .error after) ↔
      Missing s.host.mirrored earlier remote ∨ ¬ Sealed seal_ remote := by
  have core := alone_core run
  have counted : earlier.Counted := by
    rcases List.mem_cons.mp inside with here | before
    · rw [here]
      exact core.versions
    · exact (core.past earlier before).1
  have held (key : Bytes) (m : Nat) (known : s.host.mirrored.lookup key = some m)
      (below : m ≤ earlier.counter) : earlier.Reaches key m := by
    have booked := core.mirrored key m known
    rcases List.mem_cons.mp inside with here | before
    · rw [here]
      exact booked.reached
    · exact booked.past earlier before below
  have exact_ : Takes seal_ remote.feed s.host.reopened ↔ _ :=
    takes_feed later (foreign_counted later counted) held
  rw [refused_exact rfl,exact_]
  exact not_and_or.trans (or_congr_left not_not)

end

namespace Sample

theorem pass_past {script : World.Script} {start : Tracked} {res : Except Fault Unit}
    (ran : passes script false start = some (res,s)) : start.remote ∈ s.remote :: s.past := by
  refine run_kept (K := fun t => start.remote ∈ t.remote :: t.past) ?_ _ ran List.mem_cons_self
  intro q s r t answered inside
  have served := answer_tracked plainKey false q r answered
  rw [served.past]
  exact List.mem_cons_of_mem _ inside

-- Set back to before anything was written, and written to by somebody since.
def elsewhere : Remote :=
  ((Remote.empty.write 5 (ascii "other") none).write 6 (ascii "other") none).write 7 (ascii "other") none

theorem pull_refuses_rolled_back_sample : ∃ s, passes script false written = some (.ok (),s) ∧
    s.remote.counter = 3 ∧ elsewhere.counter = 3 ∧
    ∃ after, pull plainKey elsewhere.feed s.host.reopened = .error after := by
  have facts : (passes script false written).map (fun done =>
      (done.1,done.2.remote.counter,done.2.host.mirrored.lookup place.remoteKey)) =
      some (.ok (),3,some 2) := by decide
  obtain ⟨⟨res,s⟩,ran,same⟩ := Option.map_eq_some_iff.mp facts
  obtain ⟨rfl,counter,mirrored⟩ : res = .ok () ∧ s.remote.counter = 3 ∧
      s.host.mirrored.lookup place.remoteKey = some 2 := by simpa using same
  have run : Alone plainKey jsonLength (false = true) (.first,.done (.ok ())) (s,.done (.ok ())) :=
    (alone_marked rotated place (by decide)).trans (alone_pass _ _ ran)
  have later : Foreign Remote.empty elsewhere :=
    .write (.write (.write .same 5 (ascii "other") none) 6 (ascii "other") none) 7 (ascii "other") none
  refine ⟨s,ran,counter,rfl,(pull_refuses_rolled_back run (pass_past ran) later).mpr (.inl ?_)⟩
  refine ⟨place.remoteKey,2,mirrored,Nat.succ_pos 1,fun e here => ?_⟩
  have none_ : elsewhere.entries.lookup place.remoteKey = none := by decide
  rw [none_] at here
  cases here

def removed : StoreOp := .delete .meta_ (ascii "rotation")

-- Written, then deleted; the remote set back to what it was in between.
def deleted : Option (Tracked × Tracked) :=
  (passes script false written).bind fun first =>
    (passes script false ((first.2.commits removed).marks place)).map fun second => (first.2,second.2)

theorem pull_takes_rolled_back : ¬ ∀ (seal_ : MasterKey) (size : Value → Nat) (s : Tracked)
    (p : Code (Except Fault Unit)) (earlier remote : Remote),
    Alone seal_ size False (.first,.done (.ok ())) (s,p) → earlier ∈ s.remote :: s.past →
    earlier.counter < s.acked → Foreign earlier remote →
    ∃ after, pull seal_ remote.feed s.host.reopened = .error after := by
  intro claim
  have facts : deleted.map (fun both => (decide (place ∈ (both.1.commits removed).world.owed),
      decide (both.1.remote.counter < both.2.acked),
      (pull plainKey both.1.remote.feed both.2.host.reopened).toBool)) = some (true,true,true) := by
    decide
  obtain ⟨⟨t,s⟩,ran,same⟩ := Option.map_eq_some_iff.mp facts
  obtain ⟨owed,behind,taken⟩ : place ∈ (t.commits removed).world.owed ∧ t.remote.counter < s.acked ∧
      (pull plainKey t.remote.feed s.host.reopened).toBool = true := by simpa using same
  obtain ⟨⟨res,t'⟩,first,rest⟩ := Option.bind_eq_some_iff.mp ran
  obtain ⟨⟨last,s'⟩,second,both⟩ := Option.map_eq_some_iff.mp rest
  obtain ⟨rfl,rfl⟩ : t = t' ∧ s = s' := by simpa using both.symm
  have run : Alone plainKey jsonLength (false = true) (.first,.done (.ok ())) (s,.done last) := by
    refine (alone_marked rotated place (by decide)).trans ((alone_pass _ _ first).trans ?_)
    exact (alone_marked removed place owed).trans (alone_pass _ _ second)
  rw [Bool.false_eq_true] at run
  have inside : ((t.commits removed).marks place).remote ∈ s.remote :: s.past := pass_past second
  obtain ⟨after,refused⟩ := claim plainKey jsonLength s _ t.remote t.remote run inside behind .same
  rw [refused] at taken
  cases taken

end Sample

end VerifiableGit.Bridge
