import Mathlib.Data.Set.Insert
import VerifiableGit.Bridge.World

-- No update is lost: local writers and the mirror's passes interleaved, watched
-- by an observer that notes which values a key has had since its last mark.
namespace VerifiableGit.Bridge
open VerifiableGit.Text VerifiableGit.Library.Interaction Mirror

def StoreOp.place : StoreOp → Dirty
  | .put table key _ => .record table key
  | .putNew table key _ => .record table key
  | .update table key _ => .record table key
  | .delete table key => .record table key
  | .putSecret name _ => .secret name
  | .deleteSecret name => .secret name

-- `fresh`: the values the local store held at or after the key's last mark, if it
-- was marked; `again`: marked since the batch was taken; `taken`: of the batch,
-- what has not landed; `last`: what the last local write left.
structure Watched where
  world : World
  fresh : Dirty → Option (Set (Option Content))
  again : Finset Dirty
  taken : List Dirty
  last : Dirty → Option Content

namespace Watched

abbrev host (s : Watched) : Host := s.world.host
abbrev remote (s : Watched) : Remote := s.world.remote

def commits (s : Watched) (op : StoreOp) : Watched :=
  { s with
    world := s.world.commits op
    fresh := fun d => (s.fresh d).map (insert (localValue (s.host.commit op).1 d))
    last := Function.update s.last op.place (localValue (s.host.commit op).1 op.place) }

def marks (s : Watched) (d : Dirty) : Watched :=
  { s with
    world := s.world.marks d
    fresh := Function.update s.fresh d (some {localValue s.host d})
    again := insert d s.again }

inductive Local : Watched → Watched → Prop
  | commit (s : Watched) (op : StoreOp) : Local s (s.commits op)
  | mark (s : Watched) (d : Dirty) (owes : d ∈ s.world.owed) : Local s (s.marks d)

def takenAfter (s : Watched) : (q : Request) → q.Answer → List Dirty
  | .host .takeBatch,batch => batch
  | .host .landed,_ => s.taken.tail
  | _,_ => s.taken

def againAfter (s : Watched) : Request → Finset Dirty
  | .host .takeBatch => ∅
  | _ => s.again

structure Serves (s : Watched) (q : Request) (r : q.Answer) (t : Watched) : Prop where
  world : s.world.Serves q r t.world
  fresh : t.fresh = s.fresh
  again : t.again = s.againAfter q
  taken : t.taken = s.takenAfter q r
  last : t.last = s.last

end Watched

-- The second read of a secret finds one.
def FoundAgain : (q : Request) → q.Answer → Prop
  | .host (.secret true _),bytes => bytes ≠ none
  | _,_ => True

instance : (q : Request) → (r : q.Answer) → Decidable (FoundAgain q r)
  | .host (.secret true _),bytes => inferInstanceAs (Decidable ((bytes : Option Bytes) ≠ none))
  | .host (.secret false _),_ => .isTrue trivial
  | .host .dirtyIsEmpty,_ => .isTrue trivial
  | .host .takeBatch,_ => .isTrue trivial
  | .host (.putBack _),_ => .isTrue trivial
  | .host .landed,_ => .isTrue trivial
  | .host (.getRaw _ _),_ => .isTrue trivial
  | .host (.seen _),_ => .isTrue trivial
  | .host (.remember _ _),_ => .isTrue trivial
  | .host (.forget _),_ => .isTrue trivial
  | .host (.putMirror _ _),_ => .isTrue trivial
  | .host (.deleteMirror _),_ => .isTrue trivial
  | .host .conflict,_ => .isTrue trivial
  | .get _,_ => .isTrue trivial
  | .put _ _ _,_ => .isTrue trivial
  | .delete _ _,_ => .isTrue trivial
  | .timestamp,_ => .isTrue trivial
  | .instant,_ => .isTrue trivial
  | .sleep _,_ => .isTrue trivial
  | .nonce,_ => .isTrue trivial

def Watched.answer (script : World.Script) (s : Watched) (q : Request) : Option (q.Answer × Watched) :=
  match s.world.answer script q with
  | some (r,w) =>
    if FoundAgain q r then
      some (r,{ s with world := w, again := s.againAfter q, taken := s.takenAfter q r })
    else none
  | none => none

section
variable (seal_ : MasterKey) (size : Value → Nat)

-- Within the size the remote stores: a record as it is, a secret as sealed.
def Dirty.Fits : Dirty → Content → Prop
  | .record _ _,.json v => size v ≤ maxValueBytes
  | .secret name,.bytes b => ∀ nonce, size (secretValue seal_ name u64Max b nonce) ≤ maxValueBytes
  | _,_ => True

def AllFit (d : Dirty) (values : Set (Option Content)) : Prop := ∀ c, some c ∈ values → d.Fits seal_ size c

def Landed (d : Dirty) (s : Watched) : Prop := ∀ values, s.fresh d = some values →
  AllFit seal_ size d values → d ∈ s.host.dirty ∨ remoteValue seal_ s.remote d ∈ values

def HadFresh (d : Dirty) (x : Option Content) (s : Watched) : Prop := ∀ values,
  s.fresh d = some values → AllFit seal_ size d values → d ∈ s.host.dirty ∨ x ∈ values

structure Pending (s : Watched) : Prop where
  counted : s.host.inFlight = s.taken.length
  kept : ∀ d, d ∈ s.taken ∨ Landed seal_ size d s
  current : ∀ d values, s.fresh d = some values → localValue s.host d ∈ values
  again : s.again ⊆ s.host.dirty

def watching : Setting Request Request.Answer Watched where
  serve := fun q s r t => s.Serves q r t ∧ FoundAgain q r
  rely := Watched.Local
  guarantee := fun _ _ _ => True
  always := Pending seal_ size

-- All an assertion about the watched world looks at.
structure Alike (s t : Watched) : Prop where
  dirty : t.host.dirty = s.host.dirty
  inFlight : t.host.inFlight = s.host.inFlight
  held : ∀ d, localValue t.host d = localValue s.host d
  remote : ∀ d, remoteValue seal_ t.remote d = remoteValue seal_ s.remote d
  fresh : t.fresh = s.fresh
  again : t.again = s.again
  taken : t.taken = s.taken

-- Kept by the local writers and by every request that changes nothing it sees.
structure Firm (P : Watched → Prop) : Prop where
  stable : (watching seal_ size).Stable P
  alike : ∀ s t, Alike seal_ s t → P s → P t
  pending : ∀ s, P s → Pending seal_ size s

end

section
variable {seal_ : MasterKey} {size : Value → Nat} {s t : Watched} {d : Dirty}

theorem lease_alike (q : Request) (r : q.Answer) (kind : q.OfLease) (served : s.Serves q r t)
    (again : s.againAfter q = s.again) (taken : s.takenAfter q r = s.taken) : Alike seal_ s t := by
  have host : t.host = s.host := by
    rcases World.lease_served q r kind served.world with same | ⟨now,v,same⟩
    · simp only [Watched.host,same]
    · simp only [Watched.host,same]
      rfl
  refine ⟨by rw [host],by rw [host],fun d => by rw [host],fun d => ?_,served.fresh,
    served.again.trans again,served.taken.trans taken⟩
  rcases World.lease_served q r kind served.world with same | ⟨now,v,same⟩
  · simp only [Watched.remote,same]
  · simp only [Watched.remote,same]
    exact remoteValue_lease _

theorem host_alike (query : HostQuery) (r : query.Answer) (kind : (Request.host query).Quiet)
    (served : s.Serves (.host query) r t) (again : s.againAfter (.host query) = s.again)
    (taken : s.takenAfter (.host query) r = s.taken) : Alike seal_ s t := by
  obtain ⟨host,remote,_⟩ := served.world
  obtain ⟨dirty,inFlight,records,secrets⟩ := Host.quiet_kept query r kind host
  refine ⟨dirty,inFlight,fun d => localValue_same records secrets d,?_,served.fresh,
    served.again.trans again,served.taken.trans taken⟩
  intro d
  simp only [remote]

variable (seal_) in
theorem quiet_alike (q : Request) (r : q.Answer) (kind : q.Quiet) (served : s.Serves q r t) :
    Alike seal_ s t := by
  cases q with
  | host query =>
    cases query with
    | takeBatch => exact absurd kind id
    | putBack item => exact absurd kind id
    | landed => exact absurd kind id
    | _ => exact host_alike _ r kind served rfl rfl
  | _ => exact lease_alike _ r kind served rfl rfl

theorem commits_dirty (s : Watched) (op : StoreOp) : (s.commits op).host.dirty = s.host.dirty :=
  Host.commit_dirty _ _

theorem commits_fresh (op : StoreOp) {values : Set (Option Content)}
    (found : (s.commits op).fresh d = some values) : ∃ earlier, s.fresh d = some earlier ∧
      values = insert (localValue (s.commits op).host d) earlier := by
  obtain ⟨earlier,before,same⟩ := Option.map_eq_some_iff.mp found
  exact ⟨earlier,before,same.symm⟩

theorem allFit_earlier {values : Set (Option Content)} {x : Option Content}
    (fit : AllFit seal_ size d (insert x values)) : AllFit seal_ size d values :=
  fun c inside => fit c (Set.mem_insert_of_mem _ inside)

theorem marks_fresh (e : Dirty) {values : Set (Option Content)}
    (found : (s.marks e).fresh d = some values) :
    d = e ∧ values = {localValue s.host d} ∨ d ≠ e ∧ s.fresh d = some values := by
  by_cases same : d = e
  · subst same
    simp only [Watched.marks,Function.update_self,Option.some.injEq] at found
    exact .inl ⟨rfl,found.symm⟩
  · simp only [Watched.marks,Function.update_of_ne same] at found
    exact .inr ⟨same,found⟩

theorem marks_dirty (e : Dirty) : d ∈ (s.marks e).host.dirty ↔ d = e ∨ d ∈ s.host.dirty :=
  Finset.mem_insert

theorem fresh_stable {held : Watched → Option Content}
    (steady : ∀ s t, Watched.Local s t → held t = held s) :
    (watching seal_ size).Stable fun s => HadFresh seal_ size d (held s) s := by
  intro s t act had values found fit
  have same := steady s t act
  cases act with
  | commit op =>
    obtain ⟨earlier,before,rfl⟩ := commits_fresh op found
    rw [commits_dirty,same]
    exact (had earlier before (allFit_earlier fit)).imp_right (Set.mem_insert_of_mem _)
  | mark e owes =>
    rw [marks_dirty,same]
    rcases marks_fresh e found with ⟨here,_⟩ | ⟨_,before⟩
    · exact .inl (.inl here)
    · exact (had values before fit).imp_left .inr

theorem hadFresh_stable (x : Option Content) :
    (watching seal_ size).Stable (HadFresh seal_ size d x) := fresh_stable fun _ _ _ => rfl

theorem local_remote (act : Watched.Local s t) : t.remote = s.remote := by
  cases act <;> rfl

theorem landed_stable : (watching seal_ size).Stable (Landed seal_ size d) :=
  fresh_stable fun _ _ act => congrArg (fun remote => remoteValue seal_ remote d) (local_remote act)

theorem local_taken (act : Watched.Local s t) : t.taken = s.taken := by
  cases act <;> rfl

theorem local_inFlight (act : Watched.Local s t) : t.host.inFlight = s.host.inFlight := by
  cases act with
  | commit op => exact Host.commit_inFlight _ _
  | mark e owes => rfl

theorem pending_stable : (watching seal_ size).Stable (Pending seal_ size) := by
  intro s t act valid
  refine ⟨?_,?_,?_,?_⟩
  · rw [local_inFlight act,local_taken act,valid.counted]
  · intro d
    rw [local_taken act]
    exact (valid.kept d).imp_right (landed_stable act)
  · intro d values found
    cases act with
    | commit op =>
      obtain ⟨earlier,before,rfl⟩ := commits_fresh op found
      exact Set.mem_insert _ _
    | mark e owes =>
      rcases marks_fresh e found with ⟨_,rfl⟩ | ⟨_,before⟩
      · exact Set.mem_singleton _
      · exact valid.current d values before
  · intro d inside
    cases act with
    | commit op =>
      rw [commits_dirty]
      exact valid.again inside
    | mark e owes =>
      rcases Finset.mem_insert.mp inside with here | before
      · exact (marks_dirty e).mpr (.inl here)
      · exact (marks_dirty e).mpr (.inr (valid.again before))

theorem hadFresh_alike {x : Option Content} (alike : Alike seal_ s t)
    (had : HadFresh seal_ size d x s) : HadFresh seal_ size d x t := by
  intro values found fit
  rw [alike.fresh] at found
  rw [alike.dirty]
  exact had values found fit

theorem landed_alike (alike : Alike seal_ s t) (landed : Landed seal_ size d s) :
    Landed seal_ size d t := by
  intro values found fit
  rw [alike.fresh] at found
  rw [alike.dirty,alike.remote]
  exact landed values found fit

theorem pending_alike (alike : Alike seal_ s t) (valid : Pending seal_ size s) :
    Pending seal_ size t := by
  refine ⟨?_,?_,?_,?_⟩
  · rw [alike.inFlight,alike.taken,valid.counted]
  · intro d
    rw [alike.taken]
    exact (valid.kept d).imp_right (landed_alike alike)
  · intro d values found
    rw [alike.fresh] at found
    rw [alike.held]
    exact valid.current d values found
  · rw [alike.again,alike.dirty]
    exact valid.again

-- Between two items of a pass; `clean` as long as nothing was put back.
def Between (seal_ : MasterKey) (size : Value → Nat) (rest : List Dirty) (clean : Prop) (s : Watched) :
    Prop :=
  Pending seal_ size s ∧ s.taken = rest ∧ (clean → s.host.dirty ⊆ s.again)

theorem clean_stable (clean : Prop) :
    (watching seal_ size).Stable fun s => clean → s.host.dirty ⊆ s.again := by
  intro s t act kept still d inside
  cases act with
  | commit op =>
    rw [commits_dirty] at inside
    exact kept still inside
  | mark e owes =>
    exact Finset.mem_insert.mpr (((marks_dirty e).mp inside).imp_right fun before => kept still before)

theorem between_firm (rest : List Dirty) (clean : Prop) :
    Firm seal_ size (Between seal_ size rest clean) := by
  refine ⟨?_,?_,fun _ here => here.1⟩
  · intro s t act here
    exact ⟨pending_stable act here.1,(local_taken act).trans here.2.1,clean_stable clean act here.2.2⟩
  · intro s t alike here
    refine ⟨pending_alike alike here.1,alike.taken.trans here.2.1,?_⟩
    rw [alike.dirty,alike.again]
    exact here.2.2

theorem firm_and {P K : Watched → Prop} (firm : Firm seal_ size P)
    (stable : (watching seal_ size).Stable K) (alike : ∀ s t, Alike seal_ s t → K s → K t) :
    Firm seal_ size fun s => P s ∧ K s := by
  refine ⟨stable_and firm.stable stable,?_,fun s here => firm.pending s here.1⟩
  intro s t same here
  exact ⟨firm.alike s t same here.1,alike s t same here.2⟩

theorem quiet_call {P : Watched → Prop} {post : α → Watched → Prop} {q : Request}
    {next : q.Answer → Code α} (firm : Firm seal_ size P) (kind : q.Quiet)
    (rest : ∀ s r t, P s → P t → s.Serves q r t → FoundAgain q r →
      (watching seal_ size).Holds post (next r) t) (here : P s) :
    (watching seal_ size).Holds post (.call q next) s := by
  refine holds_call firm.stable firm.pending (fun s r t before served => ⟨trivial,?_⟩) here
  exact rest s r t before (firm.alike s t (quiet_alike _ q r kind served.1) before) served.1 served.2

theorem quiet_asks {P : Watched → Prop} (firm : Firm seal_ size P) (p : Code α)
    (asks : p.Asks Request.Quiet) (here : P s) :
    (watching seal_ size).Holds (fun _ t => P t) p s := by
  refine holds_asks firm.stable firm.pending (fun q s r t kind before served => ⟨trivial,?_⟩) p asks here
  exact firm.alike s t (quiet_alike _ q r kind served.1) before

-- A request about the item's own record: nothing else changes.
structure Wrote (seal_ : MasterKey) (d : Dirty) (s t : Watched) : Prop where
  host : t.host = s.host
  remote : ∀ e, e ≠ d → remoteValue seal_ t.remote e = remoteValue seal_ s.remote e
  fresh : t.fresh = s.fresh
  again : t.again = s.again
  taken : t.taken = s.taken

theorem between_wrote {clean : Prop} {rest : List Dirty} (wrote : Wrote seal_ d s t)
    (here : Between seal_ size (d :: rest) clean s) :
    Between seal_ size (d :: rest) clean t := by
  obtain ⟨valid,taken,still⟩ := here
  refine ⟨⟨?_,?_,?_,?_⟩,wrote.taken.trans taken,?_⟩
  · rw [wrote.host,wrote.taken,valid.counted]
  · intro e
    by_cases same : e = d
    · refine .inl ?_
      rw [wrote.taken,taken,same]
      exact List.mem_cons_self
    · rw [wrote.taken]
      refine (valid.kept e).imp_right fun landed values found fit => ?_
      rw [wrote.fresh] at found
      rw [wrote.host,wrote.remote e same]
      exact landed values found fit
  · intro e values found
    rw [wrote.fresh] at found
    rw [wrote.host]
    exact valid.current e values found
  · rw [wrote.again,wrote.host]
    exact valid.again
  · rw [wrote.again,wrote.host]
    exact still

theorem hadFresh_wrote {x : Option Content} {e : Dirty} (wrote : Wrote seal_ d s t)
    (had : HadFresh seal_ size e x s) : HadFresh seal_ size e x t := by
  intro values found fit
  rw [wrote.fresh] at found
  rw [wrote.host]
  exact had values found fit

theorem landed_shown {x : Option Content} (had : HadFresh seal_ size d x s)
    (shown : remoteValue seal_ s.remote d = x) : Landed seal_ size d s := by
  intro values found fit
  rw [shown]
  exact had values found fit

theorem wrote_same (served : s.Serves q r t) (same : t.world = s.world)
    (again : s.againAfter q = s.again) (taken : s.takenAfter q r = s.taken) : Wrote seal_ d s t :=
  ⟨by simp only [Watched.host,same],fun e _ => by simp only [Watched.remote,same],served.fresh,
    served.again.trans again,served.taken.trans taken⟩

theorem wrote_write {now : Int} {v : Option Value} (served : s.Serves q r t)
    (moved : t.world = s.world.writes now d.remoteKey v)
    (again : s.againAfter q = s.again) (taken : s.takenAfter q r = s.taken) : Wrote seal_ d s t := by
  refine ⟨by simp only [Watched.host,moved]; rfl,?_,served.fresh,served.again.trans again,
    served.taken.trans taken⟩
  intro e other
  simp only [Watched.remote,moved]
  exact remoteValue_other v fun same => other (remoteKey_inj same)

variable (seal_ d) in
theorem put_wrote {value : Value} {expected : Option Nat} {r : PutResult}
    (served : s.Serves (.put d.remoteKey value expected) r t) : Wrote seal_ d s t ∧
      ∀ n, r = .ok n → remoteValue seal_ t.remote d = some (d.content seal_ n value) := by
  generalize same : t.world = after
  have served' := World.put_served (same ▸ served.world)
  cases served' with
  | stored now passed =>
    refine ⟨wrote_write served same rfl rfl,fun n answer => ?_⟩
    cases answer
    simp only [Watched.remote,same]
    exact remoteValue_write _
  | refused e stopped => exact ⟨wrote_same served same rfl rfl,fun n answer => nomatch answer⟩
  | failed e => exact ⟨wrote_same served same rfl rfl,fun n answer => nomatch answer⟩
  | lost now e passed => exact ⟨wrote_write served same rfl rfl,fun n answer => nomatch answer⟩

variable (seal_ d) in
theorem delete_wrote {expected : Option Nat} {r : DeleteResult}
    (served : s.Serves (.delete d.remoteKey expected) r t) : Wrote seal_ d s t ∧
      ∀ n, r = .ok n → remoteValue seal_ t.remote d = none := by
  generalize same : t.world = after
  have served' := World.delete_served (same ▸ served.world)
  cases served' with
  | absent gone =>
    refine ⟨wrote_same served same rfl rfl,fun n _ => ?_⟩
    simp only [Watched.remote,same]
    exact remoteValue_gone gone
  | removed now c alive passed =>
    refine ⟨wrote_write served same rfl rfl,fun n _ => ?_⟩
    simp only [Watched.remote,same]
    exact remoteValue_write _
  | refused c e alive stopped => exact ⟨wrote_same served same rfl rfl,fun n answer => nomatch answer⟩
  | failed e => exact ⟨wrote_same served same rfl rfl,fun n answer => nomatch answer⟩
  | lost now e c alive passed =>
    exact ⟨wrote_write served same rfl rfl,fun n answer => nomatch answer⟩

end

end VerifiableGit.Bridge
