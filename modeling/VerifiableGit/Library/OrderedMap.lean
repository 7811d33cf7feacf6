import Mathlib.Data.List.Basic
import Mathlib.Data.List.Induction
import Mathlib.Data.List.Nodup

-- A map whose entries stand in the order of their keys, each key once.
namespace VerifiableGit.Library
universe u v

-- The order the keys are in.
class Ordered (κ : Type u) [LT κ] : Prop where
  irrefl : ∀ a : κ, ¬ a < a
  trans : ∀ a b c : κ, a < b → b < c → a < c
  tri : ∀ a b : κ, a < b ∨ a = b ∨ b < a

instance {α : Type u} [LT α] [ordered : Ordered α] : Ordered (List α) where
  irrefl l := by
    induction l with
    | nil => exact List.not_lt_nil []
    | cons a l ih =>
      intro less
      rcases List.cons_lt_cons_iff.mp less with first | ⟨_,rest⟩
      · exact ordered.irrefl a first
      · exact ih rest
  trans a b c first second := by
    induction a generalizing b c with
    | nil =>
      cases c with
      | nil => exact absurd second (List.not_lt_nil b)
      | cons z c => exact List.nil_lt_cons z c
    | cons x a ih =>
      cases b with
      | nil => exact absurd first (List.not_lt_nil _)
      | cons y b =>
        cases c with
        | nil => exact absurd second (List.not_lt_nil _)
        | cons z c =>
          refine List.cons_lt_cons_iff.mpr ?_
          rcases List.cons_lt_cons_iff.mp first with xy | ⟨xy,ab⟩
          · rcases List.cons_lt_cons_iff.mp second with yz | ⟨yz,_⟩
            · exact .inl (ordered.trans x y z xy yz)
            · exact .inl (yz ▸ xy)
          · rcases List.cons_lt_cons_iff.mp second with yz | ⟨yz,bc⟩
            · exact .inl (xy ▸ yz)
            · exact .inr ⟨xy.trans yz,ih b c ab bc⟩
  tri a b := by
    induction a generalizing b with
    | nil =>
      cases b with
      | nil => exact .inr (.inl rfl)
      | cons y b => exact .inl (List.nil_lt_cons y b)
    | cons x a ih =>
      cases b with
      | nil => exact .inr (.inr (List.nil_lt_cons x a))
      | cons y b =>
        rcases ordered.tri x y with less | same | more
        · exact .inl (List.cons_lt_cons_iff.mpr (.inl less))
        · subst same
          rcases ih b with less | same | more
          · exact .inl (List.cons_lt_cons_iff.mpr (.inr ⟨rfl,less⟩))
          · exact .inr (.inl (congrArg _ same))
          · exact .inr (.inr (List.cons_lt_cons_iff.mpr (.inr ⟨rfl,more⟩)))
        · exact .inr (.inr (List.cons_lt_cons_iff.mpr (.inl more)))

instance : Ordered UInt8 where
  irrefl a := UInt8.lt_irrefl a
  trans _ _ _ := UInt8.lt_trans
  tri a b := by
    rcases Nat.lt_trichotomy a.toNat b.toNat with less | same | more
    · exact .inl less
    · exact .inr (.inl (UInt8.toNat_inj.mp same))
    · exact .inr (.inr more)

structure OrderedMap (κ : Type u) (β : Type v) [LT κ] where
  entries : List (κ × β)
  sorted : entries.Pairwise fun a b => a.1 < b.1

namespace OrderedMap
variable {κ : Type u} {β : Type v} [LT κ] [DecidableLT κ] [DecidableEq κ] [ordered : Ordered κ]

def place (key : κ) (value : β) : List (κ × β) → List (κ × β)
  | [] => [(key,value)]
  | entry :: rest =>
    if key < entry.1 then (key,value) :: entry :: rest
    else if key = entry.1 then (key,value) :: rest
    else entry :: place key value rest

omit ordered in
theorem place_keys {key : κ} {value : β} {entries : List (κ × β)} {entry : κ × β} (member : entry ∈ place key value entries) :
    entry = (key,value) ∨ entry ∈ entries := by
  induction entries with
  | nil => exact .inl (List.mem_singleton.mp member)
  | cons first rest ih =>
    rw [place] at member
    split at member
    · exact List.mem_cons.mp member
    · split at member
      · exact (List.mem_cons.mp member).imp_right (List.mem_cons_of_mem _)
      · cases List.mem_cons.mp member with
        | inl here => exact .inr (here ▸ List.mem_cons_self)
        | inr later => exact (ih later).imp_right (List.mem_cons_of_mem _)

theorem place_sorted (key : κ) (value : β) {entries : List (κ × β)} (sorted : entries.Pairwise fun a b => a.1 < b.1) :
    (place key value entries).Pairwise fun a b => a.1 < b.1 := by
  induction entries with
  | nil => exact List.pairwise_singleton _ _
  | cons first rest ih =>
    obtain ⟨before,tail⟩ := List.pairwise_cons.mp sorted
    rw [place]
    split
    · rename_i less
      refine List.pairwise_cons.mpr ⟨fun entry member => ?_,sorted⟩
      cases List.mem_cons.mp member with
      | inl same => exact same ▸ less
      | inr later => exact ordered.trans _ _ _ less (before entry later)
    · split
      · rename_i same
        exact List.pairwise_cons.mpr ⟨fun entry member => same ▸ before entry member,tail⟩
      · rename_i below other
        refine List.pairwise_cons.mpr ⟨fun entry member => ?_,ih tail⟩
        cases place_keys member with
        | inl same =>
          subst same
          exact ((ordered.tri key first.1).resolve_left below).resolve_left other
        | inr later => exact before entry later

def empty : OrderedMap κ β := ⟨[],List.Pairwise.nil⟩

def insert (m : OrderedMap κ β) (key : κ) (value : β) : OrderedMap κ β :=
  ⟨place key value m.entries,place_sorted key value m.sorted⟩

def get? (m : OrderedMap κ β) (key : κ) : Option β := (m.entries.find? fun entry => entry.1 = key).map Prod.snd

def keys (m : OrderedMap κ β) : List κ := m.entries.map Prod.fst
def values (m : OrderedMap κ β) : List β := m.entries.map Prod.snd

-- One insertion after another: of two with one key the last stays.
def extend (m : OrderedMap κ β) (items : List (κ × β)) : OrderedMap κ β :=
  items.foldl (fun m item => m.insert item.1 item.2) m

def collect (items : List (κ × β)) : OrderedMap κ β := empty.extend items

omit ordered in
theorem find_place (key other : κ) (value : β) {entries : List (κ × β)} (sorted : entries.Pairwise fun a b => a.1 < b.1) :
    (place key value entries).find? (fun entry => entry.1 = other) =
      if other = key then some (key,value) else entries.find? fun entry => entry.1 = other := by
  induction entries with
  | nil =>
    by_cases same : other = key
    · simp [place,same]
    · simp [place,same,Ne.symm same]
  | cons first rest ih =>
    obtain ⟨before,tail⟩ := List.pairwise_cons.mp sorted
    rw [place]
    split
    · by_cases same : other = key
      · simp [same]
      · simp [same,Ne.symm same]
    · split
      · rename_i same
        by_cases here : other = key
        · simp [here]
        · have apart : ¬ first.1 = other := fun eq => here (eq.symm.trans same.symm)
          simp [here,Ne.symm here,apart]
      · rename_i other_
        rw [List.find?_cons,List.find?_cons,ih tail]
        by_cases here : first.1 = other
        · have apart : ¬ other = key := fun eq => other_ (eq.symm.trans here.symm)
          simp [here,apart]
        · simp [here]

theorem get_insert (m : OrderedMap κ β) (key other : κ) (value : β) :
    (m.insert key value).get? other = if other = key then some value else m.get? other := by
  rw [get?,insert,find_place key other value m.sorted]
  split
  · rfl
  · rfl

omit [DecidableLT κ] in
theorem find_member {key : κ} {value : β} {entries : List (κ × β)} (sorted : entries.Pairwise fun a b => a.1 < b.1)
    (member : (key,value) ∈ entries) : entries.find? (fun entry => entry.1 = key) = some (key,value) := by
  induction entries with
  | nil => cases member
  | cons first rest ih =>
    obtain ⟨before,tail⟩ := List.pairwise_cons.mp sorted
    cases List.mem_cons.mp member with
    | inl here => simp [← here]
    | inr later =>
      have apart : ¬ first.1 = key := fun same => ordered.irrefl key (same ▸ before (key,value) later)
      rw [List.find?_cons_of_neg (by simpa using apart)]
      exact ih tail later

omit [DecidableLT κ] in
theorem mem_entries (m : OrderedMap κ β) (key : κ) (value : β) : (key,value) ∈ m.entries ↔ m.get? key = some value := by
  constructor
  · intro member
    rw [get?,find_member m.sorted member]
    rfl
  · intro found
    obtain ⟨entry,here,value_⟩ := Option.map_eq_some_iff.mp found
    have same : entry.1 = key := by simpa using List.find?_some here
    have member := List.mem_of_find?_eq_some here
    rw [← same,← value_]
    exact member

omit [DecidableLT κ] [DecidableEq κ] in
theorem keys_nodup (m : OrderedMap κ β) : m.keys.Nodup := by
  refine List.pairwise_map.mpr (m.sorted.imp fun {a b} less same => ?_)
  rw [same] at less
  exact ordered.irrefl b.1 less

-- The last item under a key, or what was there.
theorem get_extend (m : OrderedMap κ β) (items : List (κ × β)) (key : κ) :
    (m.extend items).get? key = ((items.reverse.find? fun item => item.1 = key).map Prod.snd).or (m.get? key) := by
  induction items using List.reverseRecOn with
  | nil => rfl
  | append_singleton items item ih =>
    have step : m.extend (items ++ [item]) = (m.extend items).insert item.1 item.2 := by simp [extend]
    rw [step,get_insert,ih,List.reverse_append,List.reverse_singleton,List.singleton_append,List.find?_cons]
    by_cases same : item.1 = key
    · simp [same]
    · simp [same,Ne.symm same]

theorem get_collect (items : List (κ × β)) (key : κ) :
    (collect items).get? key = (items.reverse.find? fun item => item.1 = key).map Prod.snd := by
  rw [collect,get_extend]
  exact Option.or_none

end OrderedMap
end VerifiableGit.Library
