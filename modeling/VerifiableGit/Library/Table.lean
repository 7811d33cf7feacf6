import Mathlib.Data.List.AList

-- Tables of a key-value store: one transaction reads or rewrites one key, and
-- a listing is followed by one transaction for each key listed.
namespace VerifiableGit.Library
universe u v
variable {κ : Type u} {β : Type v} [DecidableEq κ]

abbrev Table (κ : Type u) (β : Type v) := AList fun _ : κ => β

namespace Table

def rows (t : Table κ β) : List (κ × β) := t.entries.map fun e => (e.1,e.2)

def put (t : Table κ β) (key : κ) : Option β → Table κ β
  | some value => t.insert key value
  | none => t.erase key

def update (t : Table κ β) (key : κ) (f : Option β → Option β) : Table κ β := t.put key (f (t.lookup key))

-- Writes only where the key is free; with whether it was.
def putNew (t : Table κ β) (key : κ) (value : β) : Bool × Table κ β :=
  if (t.lookup key).isSome then (false,t) else (true,t.insert key value)

-- `f` on each key listed, one transaction a key.
def each (keys : List κ) (f : Option β → Option β) (t : Table κ β) : Table κ β :=
  keys.foldl (fun t key => t.update key f) t

def keysWhere (p : κ → β → Bool) (t : Table κ β) : List κ := (t.rows.filter fun e => p e.1 e.2).map (·.1)

theorem mem_rows (t : Table κ β) (key : κ) (value : β) : (key,value) ∈ t.rows ↔ t.lookup key = some value := by
  constructor
  · intro member
    obtain ⟨e,inside,eq⟩ := List.mem_map.mp member
    cases eq
    exact AList.mem_lookup_iff.mpr inside
  · intro found
    exact List.mem_map.mpr ⟨⟨key,value⟩,AList.mem_lookup_iff.mp found,rfl⟩

omit [DecidableEq κ] in
theorem nodup_rows (t : Table κ β) : (t.rows.map (·.1)).Nodup := by
  have keys : t.rows.map (·.1) = t.entries.map Sigma.fst := by
    rw [rows,List.map_map]
    rfl
  rw [keys]
  exact t.nodupKeys

@[simp] theorem lookup_put (t : Table κ β) (key other : κ) (value : Option β) :
    (t.put key value).lookup other = if other = key then value else t.lookup other := by
  by_cases same : other = key
  · subst same
    cases value with
    | none => rw [if_pos rfl]; exact AList.lookup_erase other t
    | some value => rw [if_pos rfl]; exact AList.lookup_insert t
  · rw [if_neg same]
    cases value with
    | none => exact AList.lookup_erase_ne same
    | some value => exact AList.lookup_insert_ne same

@[simp] theorem lookup_update (t : Table κ β) (key other : κ) (f : Option β → Option β) :
    (t.update key f).lookup other = if other = key then f (t.lookup key) else t.lookup other :=
  lookup_put t key other _

theorem lookup_putNew (t : Table κ β) (key other : κ) (value : β) :
    (t.putNew key value).2.lookup other =
      if other = key ∧ t.lookup key = none then some value else t.lookup other := by
  unfold putNew
  cases found : t.lookup key with
  | some old => simp
  | none =>
    have step := lookup_put t key other (some value)
    simp only [put] at step
    simpa using step

theorem lookup_update_ne (t : Table κ β) {key other : κ} (f : Option β → Option β) (h : other ≠ key) :
    (t.update key f).lookup other = t.lookup other := by
  rw [lookup_update,if_neg h]

-- A second transaction on a key changes nothing more when `f` is idempotent.
theorem lookup_each (keys : List κ) (f : Option β → Option β) (again : ∀ v, f (f v) = f v) (t : Table κ β) (other : κ) :
    (t.each keys f).lookup other = if other ∈ keys then f (t.lookup other) else t.lookup other := by
  induction keys generalizing t with
  | nil => simp [each]
  | cons key rest ih =>
    have step : (t.each (key :: rest) f).lookup other = ((t.update key f).each rest f).lookup other := rfl
    rw [step,ih,lookup_update]
    by_cases same : other = key
    · subst same
      by_cases later : other ∈ rest <;> simp [later,again]
    · by_cases later : other ∈ rest <;> simp [later,same]

theorem mem_keysWhere (p : κ → β → Bool) (t : Table κ β) (key : κ) :
    key ∈ t.keysWhere p ↔ ∃ value, t.lookup key = some value ∧ p key value = true := by
  constructor
  · intro member
    obtain ⟨⟨k,value⟩,inside,rfl⟩ := List.mem_map.mp member
    obtain ⟨row,holds⟩ := List.mem_filter.mp inside
    exact ⟨value,(mem_rows t k value).mp row,holds⟩
  · intro ⟨value,found,holds⟩
    exact List.mem_map.mpr ⟨(key,value),List.mem_filter.mpr ⟨(mem_rows t key value).mpr found,holds⟩,rfl⟩

-- Rewriting every record that a listing picks.
theorem lookup_eachWhere (p : κ → β → Bool) (f : Option β → Option β) (again : ∀ v, f (f v) = f v)
    (t : Table κ β) (other : κ) :
    (t.each (t.keysWhere p) f).lookup other =
      if ∃ value, t.lookup other = some value ∧ p other value = true then f (t.lookup other) else t.lookup other := by
  rw [lookup_each _ f again]
  simp only [mem_keysWhere]

-- The first record of a listing that passes a test is a record of the table.
theorem find_row (t : Table κ β) (p : β → Bool) (value : β) (h : (t.rows.map (·.2)).find? p = some value) :
    p value = true ∧ ∃ key, t.lookup key = some value := by
  obtain ⟨e,member,rfl⟩ := List.mem_map.mp (List.mem_of_find?_eq_some h)
  exact ⟨List.find?_some h,e.1,(mem_rows t e.1 e.2).mp member⟩

end Table
end VerifiableGit.Library
