import Mathlib.Data.Prod.Lex
import VerifiableGit.Library.Choice
import VerifiableGit.Library.Table
import VerifiableGit.Bridge.Remote

-- Which listed key signs, and when the choice is made again (vgi-bridge, vta.rs).
namespace VerifiableGit.Rotation
open VerifiableGit.Text VerifiableGit.Library
open VerifiableGit.Bridge (i64Min i64Max)

def saturatingAdd (a b : Int) : Int := max i64Min (min i64Max (a + b))

structure SigningPolicy where
  firstListed : Table Bytes Int
  switchAfter : Int
  now : Int

-- A key the bridge may sign with: its creation in the VTA and the number in its
-- id break ties.
structure Usable where
  id : Bytes
  created : Int
  number : Int
deriving DecidableEq

namespace SigningPolicy

def fresh (signingSwitchAfterSecs : Nat) (now : Int) : SigningPolicy where
  firstListed := ∅
  switchAfter := min signingSwitchAfterSecs i64Max
  now := now

-- As it is loaded again at a later time.
def at_ (p : SigningPolicy) (now : Int) : SigningPolicy := { p with now := now }

def observe (p : SigningPolicy) (listed : List Bytes) : SigningPolicy :=
  let kept := p.firstListed.each (p.firstListed.keysWhere fun key _ => decide (key ∉ listed)) fun _ => none
  { p with firstListed := kept.each listed fun seen => some (seen.getD p.now) }

def seen (p : SigningPolicy) (id : Bytes) : Int := (p.firstListed.lookup id).getD p.now

def due (p : SigningPolicy) (time : Int) : Bool := decide (saturatingAdd time p.switchAfter ≤ p.now)

-- Tuples are compared first to last.
instance : Preorder (Int ×ₗ Int ×ₗ Int) :=
  @Prod.Lex.instPreorder _ _ Int.instLinearOrder.toPreorder
    (@Prod.Lex.instPreorder _ _ Int.instLinearOrder.toPreorder Int.instLinearOrder.toPreorder)

def rank (p : SigningPolicy) (key : Usable) : Int ×ₗ Int ×ₗ Int :=
  toLex (p.seen key.id,toLex (key.created,key.number))

-- `max_by_key` takes the last of several, `min_by_key` the first.
def choose (p : SigningPolicy) (usable : List Usable) : Option Usable :=
  ((usable.filter fun key => p.due (p.seen key.id)).reverse.argmax p.rank).or (usable.argmin p.rank)

def switchDue (p : SigningPolicy) (current : Bytes) : Bool :=
  match p.firstListed.lookup current with
  | none => false
  | some mine => p.firstListed.rows.any fun row =>
      decide (row.1 ≠ current) && decide (mine < row.2) && p.due row.2

end SigningPolicy

-- One listing of the document's signing keys, and when it was read.
structure Observation where
  time : Int
  listed : List Bytes

def SigningPolicy.after (secs : Nat) (history : List Observation) : SigningPolicy :=
  history.foldl (fun p o => (p.at_ o.time).observe o.listed) (.fresh secs 0)

-- The last second chrono has a name for.
def lastSecond : Int := 8210266876799

-- Listed at `time` and in every observation since.
def ListedSince (history : List Observation) (id : Bytes) (time : Int) : Prop :=
  ∃ before o rest, history = before ++ o :: rest ∧ o.time = time ∧ id ∈ o.listed ∧
    ∀ later ∈ rest, id ∈ later.listed

section
variable {p : SigningPolicy} {usable : List Usable} {listed : List Bytes} {id : Bytes} {c u : Usable}
variable {secs : Nat} {history : List Observation} {now time : Int}

theorem observe_lookup (p : SigningPolicy) (listed : List Bytes) (id : Bytes) :
    (p.observe listed).firstListed.lookup id = if id ∈ listed then some (p.seen id) else none := by
  simp only [SigningPolicy.observe]
  rw [Table.lookup_each _ _ (fun v => by simp),Table.lookup_eachWhere _ (fun _ => none) (fun _ => rfl)]
  by_cases here : id ∈ listed
  · simp [here,SigningPolicy.seen]
  · cases known : p.firstListed.lookup id with
    | none => simp [here]
    | some t => simp [here]

theorem after_snoc (secs : Nat) (history : List Observation) (o : Observation) :
    SigningPolicy.after secs (history ++ [o]) =
      ((SigningPolicy.after secs history).at_ o.time).observe o.listed := by
  simp only [SigningPolicy.after,List.foldl_append,List.foldl_cons,List.foldl_nil]

-- The recorded time is that of the first observation of the unbroken run.
theorem listed_since (known : (SigningPolicy.after secs history).firstListed.lookup id = some time) :
    ListedSince history id time := by
  induction history using List.reverseRecOn generalizing time with
  | nil => cases known
  | append_singleton before o ih =>
    rw [after_snoc,observe_lookup] at known
    split at known
    · rename_i here
      cases earlier : (SigningPolicy.after secs before).firstListed.lookup id with
      | none =>
        have same : o.time = time := by
          simpa [SigningPolicy.seen,SigningPolicy.at_,earlier] using known
        exact ⟨before,o,[],rfl,same,here,List.forall_mem_nil _⟩
      | some t =>
        have same : t = time := by simpa [SigningPolicy.seen,SigningPolicy.at_,earlier] using known
        obtain ⟨front,first,rest,split,at_,inside,all⟩ := ih (same ▸ earlier)
        refine ⟨front,first,rest ++ [o],by rw [split]; simp,at_,inside,fun later place => ?_⟩
        rcases List.mem_append.mp place with old | new
        · exact all later old
        · exact List.mem_singleton.mp new ▸ here
    · cases known

theorem saturating_mono {a b : Int} (s : Int) (below : a ≤ b) : saturatingAdd a s ≤ saturatingAdd b s := by
  simp only [saturatingAdd]
  omega

-- Before chrono's last second a sum that is due has not been cut off.
theorem due_reached (real : p.now ≤ lastSecond) (due : p.due time = true) : time + p.switchAfter ≤ p.now := by
  have below : saturatingAdd time p.switchAfter ≤ p.now := of_decide_eq_true due
  simp only [saturatingAdd,i64Max,lastSecond] at below real
  omega

def Usable.Precedes (a b : Bytes) : Prop := a < b

instance : IsTrans Bytes Usable.Precedes := ⟨fun _ _ _ first second => List.lt_trans first second⟩

theorem precedes_apart (id : Bytes) : ¬ Usable.Precedes id id := List.lt_irrefl id

-- A `BTreeMap`'s values, in the order of their ids.
def InOrder (usable : List Usable) : Prop := usable.Pairwise fun a b => Usable.Precedes a.id b.id

-- The newer of two keys, by the time they were first listed and then by the ties.
def SigningPolicy.Outranks (p : SigningPolicy) : Usable → Usable → Prop :=
  Above p.rank Usable.id Usable.Precedes

theorem rank_seen {a b : Usable} (below : p.rank a ≤ p.rank b) : p.seen a.id ≤ p.seen b.id := by
  have split := Prod.Lex.le_iff.mp below
  rcases split with less | ⟨same,_⟩
  · exact Int.le_of_lt less
  · exact Int.le_of_eq same

-- The first of the unmatured, or the last of the matured.
theorem choose_cases (ordered : InOrder usable) (chosen : p.choose usable = some c) :
    (p.due (p.seen c.id) = true ∧
      Highest p.rank Usable.id Usable.Precedes (usable.filter fun key => p.due (p.seen key.id)) c) ∨
    ((∀ u ∈ usable, p.due (p.seen u.id) = false) ∧ Lowest p.rank Usable.id Usable.Precedes usable c) := by
  have matured : InOrder (usable.filter fun key => p.due (p.seen key.id)) := ordered.filter _
  cases found : (usable.filter fun key => p.due (p.seen key.id)).reverse.argmax p.rank with
  | some d =>
    have same : d = c := by simpa [SigningPolicy.choose,found] using chosen
    have highest := argmax_highest matured found
    exact .inl ⟨same ▸ (List.mem_filter.mp highest.1).2,same ▸ highest⟩
  | none =>
    have least : usable.argmin p.rank = some c := by simpa [SigningPolicy.choose,found] using chosen
    refine .inr ⟨fun u inside => ?_,argmin_lowest ordered least⟩
    have empty := List.reverse_eq_nil_iff.mp (List.argmax_eq_none.mp found)
    exact Bool.eq_false_iff.mpr (List.filter_eq_nil_iff.mp empty u inside)

-- A key newer than another usable one signs only when it is due.
theorem chosen_due (ordered : InOrder usable) (chosen : p.choose usable = some c) (inside : u ∈ usable)
    (older : p.seen u.id < p.seen c.id) : p.due (p.seen c.id) = true := by
  rcases choose_cases ordered chosen with ⟨due,_⟩ | ⟨_,_,lowest⟩
  · exact due
  · have other : u ≠ c := fun same => absurd older (same ▸ lt_irrefl _)
    exact absurd (rank_seen (above_le (lowest u inside other))) (not_le.mpr older)

theorem switchDue_exact {mine : Int} (known : p.firstListed.lookup id = some mine) :
    p.switchDue id = true ↔ ∃ key t, p.firstListed.lookup key = some t ∧ mine < t ∧ p.due t = true := by
  simp only [SigningPolicy.switchDue,known,List.any_eq_true,Bool.and_eq_true,decide_eq_true_eq]
  constructor
  · intro some_
    obtain ⟨⟨key,t⟩,row,⟨_,later⟩,due⟩ := some_
    exact ⟨key,t,(Table.mem_rows _ _ _).mp row,later,due⟩
  · intro some_
    obtain ⟨key,t,row,later,due⟩ := some_
    refine ⟨(key,t),(Table.mem_rows _ _ _).mpr row,⟨?_,later⟩,due⟩
    intro same
    have same : key = id := same
    rw [same,known,Option.some.injEq] at row
    exact absurd later (row ▸ lt_irrefl _)

-- Nothing listed since, at a later time: the same ranks, and more keys due.
section
variable (known : ∀ u ∈ usable, (p.firstListed.lookup u.id).isSome) (later : p.now ≤ now)
include known

theorem at_seen (inside : u ∈ usable) : (p.at_ now).seen u.id = p.seen u.id := by
  obtain ⟨t,found⟩ := Option.isSome_iff_exists.mp (known u inside)
  have same : (p.at_ now).firstListed.lookup u.id = some t := found
  simp only [SigningPolicy.seen,found,same,Option.getD_some]

theorem at_rank (inside : u ∈ usable) : (p.at_ now).rank u = p.rank u := by
  simp only [SigningPolicy.rank,at_seen known inside]

theorem at_above {a b : Usable} (left : a ∈ usable) (right : b ∈ usable) :
    (p.at_ now).Outranks a b ↔ p.Outranks a b := by
  simp only [SigningPolicy.Outranks,Above,at_rank known left,at_rank known right]

include later

theorem at_due (inside : u ∈ usable) (due : p.due (p.seen u.id) = true) :
    (p.at_ now).due ((p.at_ now).seen u.id) = true := by
  rw [at_seen known inside]
  exact decide_eq_true (le_trans (of_decide_eq_true due) later)

-- The choice stands until a key that outranks it is due.
theorem rechosen (ordered : InOrder usable) (chosen : p.choose usable = some c) :
    (p.at_ now).choose usable = some c ↔ ∀ u ∈ usable, (p.at_ now).due ((p.at_ now).seen u.id) = true →
      u ≠ c → (p.at_ now).Outranks c u := by
  have member : c ∈ usable := by
    rcases choose_cases ordered chosen with ⟨_,highest⟩ | ⟨_,lowest⟩
    · exact (List.mem_filter.mp highest.1).1
    · exact lowest.1
  constructor
  · intro again u inside due other
    rcases choose_cases ordered again with ⟨_,highest⟩ | ⟨none_,_⟩
    · exact highest.2 u (List.mem_filter.mpr ⟨inside,due⟩) other
    · rw [none_ u inside] at due
      cases due
  · intro stands
    by_cases some_ : ∃ u ∈ usable, (p.at_ now).due ((p.at_ now).seen u.id) = true
    · -- The chosen key is due itself: it was, or it is the oldest.
      have due : (p.at_ now).due ((p.at_ now).seen c.id) = true := by
        rcases choose_cases ordered chosen with ⟨due,_⟩ | ⟨_,lowest⟩
        · exact at_due known later member due
        · obtain ⟨u,inside,due⟩ := some_
          by_cases same : u = c
          · exact same ▸ due
          · have below := rank_seen (above_le (lowest.2 u inside same))
            rw [at_seen known inside] at due
            rw [at_seen known member]
            exact decide_eq_true (le_trans (saturating_mono _ below) (of_decide_eq_true due))
      have matured : InOrder (usable.filter fun key => (p.at_ now).due ((p.at_ now).seen key.id)) :=
        ordered.filter _
      have highest := (argmax_last (c := c) matured precedes_apart).mpr
        ⟨List.mem_filter.mpr ⟨member,due⟩,fun u inside other =>
          stands u (List.mem_filter.mp inside).1 (List.mem_filter.mp inside).2 other⟩
      simp only [SigningPolicy.choose,highest,Option.some_or]
    · have none_ : usable.filter (fun key => (p.at_ now).due ((p.at_ now).seen key.id)) = [] :=
        List.filter_eq_nil_iff.mpr fun u inside due => some_ ⟨u,inside,due⟩
      have lowest : Lowest p.rank Usable.id Usable.Precedes usable c := by
        rcases choose_cases ordered chosen with ⟨due,_⟩ | ⟨_,lowest⟩
        · exact absurd ⟨c,member,at_due known later member due⟩ some_
        · exact lowest
      have first := (argmin_first (c := c) ordered precedes_apart).mpr
        (⟨member,fun u inside other => (at_above known inside member).mpr (lowest.2 u inside other)⟩ :
          Lowest (p.at_ now).rank Usable.id Usable.Precedes usable c)
      simp only [SigningPolicy.choose,none_,List.reverse_nil,List.argmax_nil,first,Option.none_or]

end

-- The due check tells when the choice would differ.
def DueExact (p : SigningPolicy) (usable : List Usable) (c : Usable) : Prop :=
  p.switchDue c.id = true ↔ p.choose usable ≠ some c

-- What the due check leaves out of the choice: that the key can be used, and ties.
structure Foreseen (p : SigningPolicy) (usable : List Usable) (c : Usable) : Prop where
  exported : ∀ key t, p.firstListed.lookup key = some t → (∀ u ∈ usable, u.id ≠ key) →
    p.seen c.id < t → p.due t = true → ∃ u ∈ usable, p.due (p.seen u.id) = true ∧ p.Outranks u c
  untied : ∀ u ∈ usable, p.due (p.seen u.id) = true → p.seen u.id = p.seen c.id → p.Outranks u c →
    ∃ key t, p.firstListed.lookup key = some t ∧ p.seen c.id < t ∧ p.due t = true

theorem dueExact_foreseen (known : ∀ u ∈ usable, (p.firstListed.lookup u.id).isSome) (later : p.now ≤ now)
    (ordered : InOrder usable) (chosen : p.choose usable = some c) :
    DueExact (p.at_ now) usable c ↔ Foreseen (p.at_ now) usable c := by
  have member : c ∈ usable := by
    rcases choose_cases ordered chosen with ⟨_,highest⟩ | ⟨_,lowest⟩
    · exact (List.mem_filter.mp highest.1).1
    · exact lowest.1
  obtain ⟨mine,here⟩ := Option.isSome_iff_exists.mp (known c member)
  have here : (p.at_ now).firstListed.lookup c.id = some mine := here
  have listed (u) (inside : u ∈ usable) :
      (p.at_ now).firstListed.lookup u.id = some ((p.at_ now).seen u.id) := by
    obtain ⟨t,found⟩ := Option.isSome_iff_exists.mp (known u inside)
    have found : (p.at_ now).firstListed.lookup u.id = some t := found
    simp only [SigningPolicy.seen,found,Option.getD_some]
  have own : (p.at_ now).seen c.id = mine := Option.some.inj ((listed c member).symm.trans here)
  have due_ := switchDue_exact here
  rw [← own] at due_
  have differs : (p.at_ now).choose usable ≠ some c ↔
      ∃ u ∈ usable, (p.at_ now).due ((p.at_ now).seen u.id) = true ∧ (p.at_ now).Outranks u c := by
    rw [ne_eq,rechosen known later ordered chosen]
    constructor
    · intro moved
      simp only [not_forall] at moved
      obtain ⟨u,inside,due,other,under⟩ := moved
      exact ⟨u,inside,due,(above_total ordered inside member other).resolve_right under⟩
    · intro above stands
      obtain ⟨u,inside,due,up⟩ := above
      have other : u ≠ c := fun same => above_irrefl precedes_apart (same ▸ up)
      exact above_irrefl precedes_apart (above_trans up (stands u inside due other))
  rw [DueExact,due_,differs]
  constructor
  · intro exact_
    refine ⟨fun key t row _ newer due => exact_.mp ⟨key,t,row,newer,due⟩,fun u inside due _ up => ?_⟩
    exact exact_.mpr ⟨u,inside,due,up⟩
  · intro foreseen
    constructor
    · intro some_
      obtain ⟨key,t,row,newer,due⟩ := some_
      by_cases other : ∀ u ∈ usable, u.id ≠ key
      · exact foreseen.exported key t row other newer due
      · simp only [not_forall,not_not] at other
        obtain ⟨u,inside,same⟩ := other
        subst same
        have time := Option.some.inj ((listed u inside).symm.trans row)
        rw [← time] at newer due
        exact ⟨u,inside,due,.inl (Prod.Lex.lt_iff.mpr (.inl newer))⟩
    · intro some_
      obtain ⟨u,inside,due,up⟩ := some_
      rcases lt_or_eq_of_le (rank_seen (above_le up)) with newer | tied
      · exact ⟨u.id,_,listed u inside,newer,due⟩
      · exact foreseen.untied u inside due tied.symm up

theorem after_known {before : List Observation} {o : Observation}
    (listed : ∀ u ∈ usable, u.id ∈ o.listed) :
    ∀ u ∈ usable, ((SigningPolicy.after secs (before ++ [o])).firstListed.lookup u.id).isSome := by
  intro u inside
  rw [after_snoc,observe_lookup,if_pos (listed u inside)]
  rfl

theorem after_now (before : List Observation) (o : Observation) :
    (SigningPolicy.after secs (before ++ [o])).now = o.time := by
  rw [after_snoc]
  rfl

-- After every history of observations, at every time since and over all keys of
-- the last listing that can be used: a key newer than another of them signs only
-- when it has been listed for the horizon without a break, and the due check
-- tells whether the choice would move on from the key it fell on exactly when
-- nothing is left out of it.
theorem signing_policy_exact (secs : Nat) (before : List Observation) (o : Observation)
    (usable : List Usable) (now : Int) (ordered : InOrder usable) (listed : ∀ u ∈ usable, u.id ∈ o.listed)
    (later : o.time ≤ now) (real : now ≤ lastSecond) :
    let p := SigningPolicy.after secs (before ++ [o])
    (∀ c u, (p.at_ now).choose usable = some c → u ∈ usable →
      (p.at_ now).seen u.id < (p.at_ now).seen c.id →
      ∃ time, ListedSince (before ++ [o]) c.id time ∧ time + p.switchAfter ≤ now) ∧
    ∀ c, p.choose usable = some c →
      (DueExact (p.at_ now) usable c ↔ Foreseen (p.at_ now) usable c) := by
  intro p
  have known : ∀ u ∈ usable, (p.firstListed.lookup u.id).isSome := after_known listed
  refine ⟨fun c u chosen inside older => ?_,fun c chosen => ?_⟩
  · have due := chosen_due ordered chosen inside older
    have member : c ∈ usable := by
      rcases choose_cases ordered chosen with ⟨_,highest⟩ | ⟨_,lowest⟩
      · exact (List.mem_filter.mp highest.1).1
      · exact lowest.1
    obtain ⟨time,found⟩ := Option.isSome_iff_exists.mp (known c member)
    have recorded : (p.at_ now).seen c.id = time := by
      rw [at_seen known member]
      simp only [SigningPolicy.seen,found,Option.getD_some]
    rw [recorded] at due
    exact ⟨time,listed_since found,due_reached real due⟩
  · exact dueExact_foreseen known ((after_now before o).symm ▸ later) ordered chosen

end

namespace Sample

def firstKey : Usable := ⟨ascii "did:x#key-0",0,0⟩

def newKey : Bytes := ascii "did:x#key-2"

-- A second key is listed that the VTA does not export.
def listings : List Observation := [⟨1000,[firstKey.id]⟩,⟨1050,[firstKey.id,newKey]⟩]

theorem switch_due_again : (SigningPolicy.after 100 listings).choose [firstKey] = some firstKey ∧
    ¬ DueExact ((SigningPolicy.after 100 listings).at_ 1150) [firstKey] firstKey := by
  refine ⟨by decide,fun exact_ => ?_⟩
  have due : ((SigningPolicy.after 100 listings).at_ 1150).switchDue firstKey.id = true := by decide
  exact exact_.mp due (by decide)

theorem signing_policy_sample :
    DueExact ((SigningPolicy.after 100 listings).at_ 1150) [firstKey] firstKey ↔
      Foreseen ((SigningPolicy.after 100 listings).at_ 1150) [firstKey] firstKey :=
  (signing_policy_exact 100 [⟨1000,[firstKey.id]⟩] ⟨1050,[firstKey.id,newKey]⟩ [firstKey] 1150
    (List.pairwise_singleton _ _) (by decide) (by decide) (by decide)).2 firstKey (by decide)

end Sample

end VerifiableGit.Rotation
