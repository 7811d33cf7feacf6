import Mathlib.Data.List.Basic
import Mathlib.Data.List.Nodup
import Mathlib.Data.List.Induction
import Mathlib.Data.List.Perm.Subperm

-- The items of a list, each where it first occurs.
namespace VerifiableGit.Library
universe u v
variable {α : Type u} {β : Type v}

section
variable [DecidableEq α]

def pushNew (kept : List α) (item : α) : List α := if item ∈ kept then kept else kept ++ [item]

def firsts (items : List α) : List α := items.foldl pushNew []

-- Whatever the items start with, they start with the items of that.
structure FirstsOf (items kept : List α) : Prop where
  nodup : kept.Nodup
  member : ∀ item, item ∈ kept ↔ item ∈ items
  order : ∀ n, ∃ front, front <+: kept ∧ ∀ item, item ∈ front ↔ item ∈ items.take n

theorem firsts_concat (items : List α) (item : α) : firsts (items ++ [item]) = pushNew (firsts items) item := by
  rw [firsts,List.foldl_append]
  rfl

theorem mem_pushNew (kept : List α) (item other : α) : other ∈ pushNew kept item ↔ other ∈ kept ∨ other = item := by
  unfold pushNew
  split
  · rename_i known
    exact ⟨.inl,fun either => either.elim id fun same => same ▸ known⟩
  · rw [List.mem_append,List.mem_singleton]

theorem prefix_pushNew (kept : List α) (item : α) : kept <+: pushNew kept item := by
  unfold pushNew
  split
  · exact List.prefix_refl kept
  · exact List.prefix_append kept [item]

theorem mem_firsts (items : List α) (item : α) : item ∈ firsts items ↔ item ∈ items := by
  induction items using List.reverseRecOn with
  | nil => exact Iff.rfl
  | append_singleton items last ih => rw [firsts_concat,mem_pushNew,ih,List.mem_append,List.mem_singleton]

theorem nodup_firsts (items : List α) : (firsts items).Nodup := by
  induction items using List.reverseRecOn with
  | nil => exact List.nodup_nil
  | append_singleton items last ih =>
    rw [firsts_concat,pushNew]
    split
    · exact ih
    · rename_i fresh
      exact List.nodup_append.mpr ⟨ih,List.nodup_singleton last,fun a inside b here same =>
        fresh (List.mem_singleton.mp here ▸ same ▸ inside)⟩

theorem prefix_firsts (front back : List α) : firsts front <+: firsts (front ++ back) := by
  induction back using List.reverseRecOn with
  | nil =>
    have same : front ++ [] = front := List.append_nil front
    exact same.symm ▸ List.prefix_refl _
  | append_singleton back last ih =>
    rw [← List.append_assoc,firsts_concat]
    exact ih.trans (prefix_pushNew _ last)

theorem firsts_of (items : List α) : FirstsOf items (firsts items) where
  nodup := nodup_firsts items
  member := mem_firsts items
  order := fun n => by
    refine ⟨firsts (items.take n),?_,mem_firsts _⟩
    have whole := prefix_firsts (items.take n) (items.drop n)
    rwa [List.take_append_drop] at whole

-- What comes after the front of all items but the last is the last one, if it is new.
theorem firstsOf_unique (items kept : List α) (holds : FirstsOf items kept) : kept = firsts items := by
  induction items using List.reverseRecOn generalizing kept with
  | nil => exact List.eq_nil_iff_forall_not_mem.mpr fun item member => List.not_mem_nil ((holds.member item).mp member)
  | append_singleton items last ih =>
    obtain ⟨front,⟨back,rfl⟩,same⟩ := holds.order items.length
    rw [List.take_left] at same
    obtain ⟨unique,unique',apart⟩ := List.nodup_append.mp holds.nodup
    have earlier : FirstsOf items front := by
      refine ⟨unique,same,fun n => ?_⟩
      obtain ⟨first,start,members⟩ := holds.order (min n items.length)
      have inside : (items ++ [last]).take (min n items.length) = items.take n := by
        rw [List.take_append_of_le_length (Nat.min_le_right n items.length),← List.take_eq_take_min]
      rw [inside] at members
      refine ⟨first,?_,members⟩
      have short : first.length ≤ front.length := by
        have fewer : first ⊆ front := fun item member => (same item).mpr (List.mem_of_mem_take ((members item).mp member))
        exact (List.subperm_of_subset (holds.nodup.sublist start.sublist) fewer).length_le
      exact List.prefix_of_prefix_length_le start (List.prefix_append front back) short
    have only : ∀ item ∈ back, item = last := by
      intro item member
      have inside := (holds.member item).mp (List.mem_append_right front member)
      rcases List.mem_append.mp inside with old | new
      · exact absurd rfl (apart item ((same item).mpr old) item member)
      · exact List.mem_singleton.mp new
    rw [firsts_concat,← ih front earlier,pushNew]
    split
    · rename_i known
      have none_ : back = [] := List.eq_nil_iff_forall_not_mem.mpr fun item member =>
        apart last known item member (only item member).symm
      rw [none_,List.append_nil]
    · rename_i fresh
      have inside := (holds.member last).mpr (List.mem_append_right items (List.mem_singleton_self last))
      have one := (List.mem_append.mp inside).resolve_left fresh
      rw [List.eq_replicate_iff.mpr ⟨rfl,only⟩] at unique' one ⊢
      have single := List.nodup_replicate.mp unique'
      have some_ : 0 < back.length := by
        rw [List.mem_replicate] at one
        exact Nat.pos_of_ne_zero one.1
      rw [show back.length = 1 by omega]
      rfl

end

-- A start of the items that a filter leaves is what it leaves of a start.
theorem filterMap_take (f : β → Option α) (items : List β) (n : Nat) :
    ∃ m, (items.take m).filterMap f = (items.filterMap f).take n := by
  induction items generalizing n with
  | nil => exact ⟨0,by simp⟩
  | cons item rest ih =>
    cases here : f item with
    | none =>
      obtain ⟨m,same⟩ := ih n
      exact ⟨m + 1,by rw [List.take_succ_cons,List.filterMap_cons_none here,List.filterMap_cons_none here,same]⟩
    | some value =>
      cases n with
      | zero => exact ⟨0,by simp⟩
      | succ n =>
        obtain ⟨m,same⟩ := ih n
        exact ⟨m + 1,by
          rw [List.take_succ_cons,List.filterMap_cons_some here,List.filterMap_cons_some here,List.take_succ_cons,same]⟩

-- Two items that give one key are one, when the keys are distinct.
theorem filterMap_once {α : Type u} {β : Type v} {g : α → Option β} {items : List α} (once : (items.filterMap g).Nodup) {a b : α} {k : β}
    (left : a ∈ items) (right : b ∈ items) (ga : g a = some k) (gb : g b = some k) : a = b := by
  induction items with
  | nil => cases left
  | cons item items ih =>
    have later : (items.filterMap g).Nodup := once.sublist ((List.sublist_cons_self item items).filterMap g)
    have first {x : α} (same : g item = some k) (inside : x ∈ items) (gx : g x = some k) : False := by
      rw [List.filterMap_cons_some same] at once
      exact (List.nodup_cons.mp once).1 (List.mem_filterMap.mpr ⟨x,inside,gx⟩)
    cases List.mem_cons.mp left with
    | inl leftHere =>
      cases List.mem_cons.mp right with
      | inl rightHere => rw [leftHere,rightHere]
      | inr rightIn => exact (first (leftHere ▸ ga) rightIn gb).elim
    | inr leftIn =>
      cases List.mem_cons.mp right with
      | inl rightHere => exact (first (rightHere ▸ gb) leftIn ga).elim
      | inr rightIn => exact ih later leftIn rightIn

-- An item is found alone by its key.
theorem filter_once {κ : Type v} [DecidableEq κ] {key : α → κ} {items : List α} (once : (items.map key).Nodup) {a : α} (inside : a ∈ items) :
    items.filter (fun b => key b = key a) = [a] := by
  induction items with
  | nil => cases inside
  | cons item items ih =>
    obtain ⟨first,later⟩ := List.nodup_cons.mp once
    cases List.mem_cons.mp inside with
    | inl here =>
      have rest : items.filter (fun b => key b = key a) = [] := by
        rw [List.filter_eq_nil_iff]
        intro b member same
        exact first (List.mem_map.mpr ⟨b,member,here ▸ of_decide_eq_true same⟩)
      rw [List.filter_cons,if_pos (by rw [here]; exact decide_eq_true rfl),rest,here]
    | inr there =>
      have other : key item ≠ key a := fun same => first (same ▸ List.mem_map_of_mem there)
      rw [List.filter_cons,if_neg (by simpa using other),ih later there]

section
variable {κ : Type v} {f : α → Option β} {key : α → κ} {kept : β → κ}

-- What a partial map keeps, it keeps under its key.
theorem filterMap_keys (same : ∀ a b, f a = some b → kept b = key a) (items : List α) :
    ((items.filterMap f).map kept).Sublist (items.map key) := by
  induction items with
  | nil => exact List.Sublist.refl _
  | cons a items ih =>
    cases here : f a with
    | none =>
      rw [List.filterMap_cons_none here,List.map_cons]
      exact ih.cons _
    | some b =>
      rw [List.filterMap_cons_some here,List.map_cons,List.map_cons,same a b here]
      exact ih.cons_cons _

theorem find_filterMap [DecidableEq κ] (same : ∀ a b, f a = some b → kept b = key a) {items : List α} (once : (items.map key).Nodup) (k : κ) :
    (items.filterMap f).find? (fun b => kept b = k) = (items.find? fun a => key a = k).bind f := by
  induction items with
  | nil => rfl
  | cons a items ih =>
    obtain ⟨first,later⟩ := List.nodup_cons.mp once
    by_cases here : key a = k
    · rw [List.find?_cons_of_pos (by simpa using here)]
      cases found : f a with
      | some b =>
        rw [List.filterMap_cons_some found,List.find?_cons_of_pos (by simpa [same a b found] using here)]
        exact found.symm
      | none =>
        rw [List.filterMap_cons_none found,Option.bind_some,found,List.find?_eq_none]
        intro b member equal
        have inside := (filterMap_keys same items).subset (List.mem_map_of_mem member)
        rw [of_decide_eq_true equal,← here] at inside
        exact first inside
    · rw [List.find?_cons_of_neg (by simpa using here),← ih later]
      cases found : f a with
      | some b => rw [List.filterMap_cons_some found,List.find?_cons_of_neg (by simpa [same a b found] using here)]
      | none => rw [List.filterMap_cons_none found]

end

end VerifiableGit.Library
