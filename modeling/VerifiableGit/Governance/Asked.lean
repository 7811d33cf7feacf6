import VerifiableGit.Library.OrderedMap
import VerifiableGit.Governance.RoleHistory

-- The map of wanted roles, read back: what a desired list asks for.
namespace VerifiableGit.Governance

instance : Library.Ordered Nat where
  irrefl := Nat.lt_irrefl
  trans _ _ _ := Nat.lt_trans
  tri := Nat.lt_trichotomy

theorem insertById_place (key : Nat) (value : β) (l : List (Nat × β)) : insertById key value l = Library.OrderedMap.place key value l := by
  induction l with
  | nil => rfl
  | cons head rest ih => rw [insertById,Library.OrderedMap.place,ih]

def Sorted (l : List (Nat × β)) : Prop := l.Pairwise fun a b => a.1 < b.1

theorem insertById_sorted (key : Nat) (value : β) {l : List (Nat × β)} (sorted : Sorted l) : Sorted (insertById key value l) :=
  insertById_place key value l ▸ Library.OrderedMap.place_sorted key value sorted

theorem sorted_keys {l : List (Nat × β)} (sorted : Sorted l) : (l.map Prod.fst).Nodup :=
  List.pairwise_map.mpr (sorted.imp fun less => Nat.ne_of_lt less)

theorem sorted_lookup {l : List (Nat × β)} (sorted : Sorted l) {key : Nat} {value : β} :
    (key,value) ∈ l ↔ l.lookup key = some value := by
  refine ⟨fun member => ?_,lookup_mem l key value⟩
  induction l with
  | nil => cases member
  | cons head rest ih =>
    obtain ⟨before,tail⟩ := List.pairwise_cons.mp sorted
    rw [show (head :: rest) = (head.1,head.2) :: rest from rfl,lookup_head]
    cases List.mem_cons.mp member with
    | inl here =>
      subst here
      exact if_pos rfl
    | inr later =>
      rw [if_neg fun same => Nat.lt_irrefl _ (same ▸ before _ later)]
      exact ih tail later

-- Two assignments of one account ask for the same role, once rounded down.
def NoConflict (adapter : Adapter) (desired : List RoleAssignment) : Prop :=
  ∀ a ∈ desired, ∀ b ∈ desired, a.account.id = b.account.id →
    collapseToLadder a.role adapter.ladder = collapseToLadder b.role adapter.ladder

theorem collapse_expressed (role : ForgeRole) (ladder : List ForgeRole) :
    collapseToLadder role ladder = .none ∨ collapseToLadder role ladder ∈ ladder := by
  have fold (levels : List ForgeRole) (inside : ∀ level ∈ levels, level ∈ ladder) (best : ForgeRole) (start : best = .none ∨ best ∈ ladder) :
      levels.foldl (fun best level => if best.level ≤ level.level then level else best) best = .none ∨
        levels.foldl (fun best level => if best.level ≤ level.level then level else best) best ∈ ladder := by
    induction levels generalizing best with
    | nil => exact start
    | cons level rest ih =>
      refine ih (fun l member => inside l (List.mem_cons_of_mem _ member)) _ ?_
      by_cases above : best.level ≤ level.level
      · simp only [if_pos above]
        exact .inr (inside level List.mem_cons_self)
      · simp only [if_neg above]
        exact start
  exact fold _ (fun level member => (List.mem_filter.mp member).1) _ (.inl rfl)

theorem wantedFrom_runs (adapter : Adapter) (desired : List RoleAssignment) (wanted : Wanted) (sorted : Sorted wanted)
    (agree : ∀ a ∈ desired, ∀ b ∈ desired, a.account.id = b.account.id →
      collapseToLadder a.role adapter.ladder = collapseToLadder b.role adapter.ladder)
    (known : ∀ a ∈ desired, ∀ entry, wanted.lookup a.account.id = some entry → entry.2 = collapseToLadder a.role adapter.ladder) :
    ∃ out, wantedFrom adapter wanted desired = .ok out ∧ Sorted out := by
  induction desired generalizing wanted with
  | nil => exact ⟨wanted,rfl,sorted⟩
  | cons a rest ih =>
    let next := insertById a.account.id (a.account,collapseToLadder a.role adapter.ladder) wanted
    have later : ∃ out, wantedFrom adapter next rest = .ok out ∧ Sorted out := by
      refine ih next (insertById_sorted _ _ sorted)
        (fun b left c right => agree b (List.mem_cons_of_mem _ left) c (List.mem_cons_of_mem _ right)) ?_
      intro b member entry found
      rw [lookup_insertById] at found
      split at found
      · rename_i same
        cases found
        exact agree a List.mem_cons_self b (List.mem_cons_of_mem _ member) same.symm
      · exact known b (List.mem_cons_of_mem _ member) entry found
    obtain ⟨out,run,ordered⟩ := later
    refine ⟨out,?_,ordered⟩
    rw [wantedFrom]
    cases before : wanted.lookup a.account.id with
    | none => exact run
    | some entry =>
      have same := known a List.mem_cons_self entry before
      exact (if_neg fun differs => differs same).trans run

section
variable {adapter : Adapter} {desired : List RoleAssignment} {wanted : Wanted}

-- The map the first loop builds, as the later ones read it.
structure Read (adapter : Adapter) (desired : List RoleAssignment) (wanted : Wanted) : Prop where
  sorted : Sorted wanted
  keyed : ∀ w ∈ wanted, w.1 = w.2.1.id
  asked : ∀ w ∈ wanted, ∃ a ∈ desired, a.account.id = w.1 ∧ w.2.2 = collapseToLadder a.role adapter.ladder ∧
    some w.1 ≠ adapter.personalOwner
  complete : ∀ a ∈ desired, some a.account.id ≠ adapter.personalOwner →
    ∃ account, wanted.lookup a.account.id = some (account,collapseToLadder a.role adapter.ladder)

theorem wanted_read (agree : NoConflict adapter desired) :
    ∃ wanted, wantedFrom adapter [] (adapter.expressible desired) = .ok wanted ∧ Read adapter desired wanted := by
  have inside : ∀ a ∈ adapter.expressible desired, a ∈ desired ∧ some a.account.id ≠ adapter.personalOwner := by
    intro a member
    obtain ⟨here,other⟩ := List.mem_filter.mp member
    exact ⟨here,of_decide_eq_true other⟩
  obtain ⟨wanted,run,sorted⟩ := wantedFrom_runs adapter (adapter.expressible desired) [] List.Pairwise.nil
    (fun a left b right => agree a (inside a left).1 b (inside b right).1) (fun _ _ _ found => by cases found)
  obtain ⟨complete,sound⟩ := wantedFrom_ok _ _ _ _ run
  have from_ : ∀ w ∈ wanted, ∃ a ∈ adapter.expressible desired,
      w = (a.account.id,a.account,collapseToLadder a.role adapter.ladder) := by
    intro w member
    cases sound w member with
    | inl empty => cases empty
    | inr found => exact found
  refine ⟨wanted,run,sorted,?_,?_,?_⟩
  · intro w member
    obtain ⟨a,_,equal⟩ := from_ w member
    rw [equal]
  · intro w member
    obtain ⟨a,listed,equal⟩ := from_ w member
    rw [equal]
    exact ⟨a,(inside a listed).1,rfl,rfl,(inside a listed).2⟩
  · intro a member other
    exact complete a (.inl (List.mem_filter.mpr ⟨member,decide_eq_true other⟩))

end

end VerifiableGit.Governance
