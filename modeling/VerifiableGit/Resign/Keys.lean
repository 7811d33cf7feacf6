import VerifiableGit.Resign.Provenance

-- The ledgers of one repository, and that writing them leaves every other's.
namespace VerifiableGit.Resign
open Text

def ledgerPrefix (host : Bytes) (repoId : Nat) : Bytes := host ++ hash :: ascii (toString repoId) ++ [hash]

theorem digits_plain (n : Nat) : hash ∉ ascii (toString n) := by
  rw [ascii_digits]
  intro member
  obtain ⟨c,inside,eq⟩ := List.mem_map.mp member
  have bounds := digit_byte n c inside
  have value := congrArg UInt8.toNat eq
  simp only [hash,Nat.toUInt8_eq,UInt8.toNat_ofNat',UInt8.toNat_ofNat] at value
  omega

theorem takeWhile_hash (plain rest : Bytes) (h : hash ∉ plain) :
    (plain ++ hash :: rest).takeWhile (· ≠ hash) = plain := by
  rw [List.takeWhile_append_of_pos]
  · simp
  · intro b member
    exact decide_eq_true fun eq => h (eq ▸ member)

-- A text starts with the prefix of one repository's ledgers at most.
theorem ledgerPrefix_unique (host other : Bytes) (m n : Nat) (text : Bytes) (plain : hash ∉ host)
    (plain' : hash ∉ other) (one : ledgerPrefix host m <+: text) (two : ledgerPrefix other n <+: text) :
    host = other ∧ m = n := by
  obtain ⟨rest,rfl⟩ := one
  obtain ⟨rest',eq⟩ := two
  simp only [ledgerPrefix,List.append_assoc,List.cons_append,List.nil_append] at eq
  have hosts : other = host := by
    have first := congrArg (List.takeWhile (· ≠ hash)) eq
    rwa [takeWhile_hash other _ plain',takeWhile_hash host _ plain] at first
  subst hosts
  have later := List.cons.inj (List.append_cancel_left eq)
  have digits := congrArg (List.takeWhile (· ≠ hash)) later.2
  rw [takeWhile_hash _ _ (digits_plain n),takeWhile_hash _ _ (digits_plain m)] at digits
  exact ⟨rfl,(digits_injective n m digits).symm⟩

theorem repoPrefix_ledgerKey (host branch : Bytes) (forgeId : Nat) (plain : hash ∉ host) :
    repoPrefix (ledgerKey host forgeId branch) = ledgerPrefix host forgeId := by
  have start : ∀ rest, (host ++ hash :: rest).dropWhile (· ≠ hash) = hash :: rest := by
    intro rest
    rw [List.dropWhile_append_of_pos]
    · simp
    · intro b member
      exact decide_eq_true fun eq => plain (eq ▸ member)
  simp only [repoPrefix,ledgerKey,ledgerPrefix,takeWhile_hash host _ plain,start,List.append_assoc,
    List.cons_append,List.drop_succ_cons,List.drop_zero,takeWhile_hash _ _ (digits_plain forgeId)]

theorem ledgerKey_prefix (host branch : Bytes) (forgeId : Nat) :
    ledgerPrefix host forgeId <+: ledgerKey host forgeId branch := by
  refine ⟨branch,?_⟩
  simp only [ledgerPrefix,ledgerKey,List.append_assoc,List.cons_append,List.nil_append]

-- The ledgers not under `start` stay as they are.
def LedgersKept (start : Bytes) (before after : Branches) : Prop :=
  ∀ key, ¬start <+: key → after.lookup key = before.lookup key

theorem deleteAll_kept (start : Bytes) (branches : Branches) (keys : List Bytes) (h : ∀ key ∈ keys, start <+: key) :
    LedgersKept start branches (deleteAll branches keys) := by
  intro key apart
  induction keys generalizing branches with
  | nil => rfl
  | cons other rest ih =>
    have different : key ≠ other := fun eq => apart (eq ▸ h other List.mem_cons_self)
    have later := ih (branches.erase other) fun k member => h k (List.mem_cons_of_mem _ member)
    exact later.trans (AList.lookup_erase_ne different)

theorem detach_kept (start : Bytes) (branches : Branches) :
    LedgersKept start branches (detach start branches) := by
  apply deleteAll_kept
  intro key member
  obtain ⟨row,inside,rfl⟩ := List.mem_map.mp member
  exact List.isPrefixOf_iff_prefix.mp (List.mem_filter.mp inside).2

theorem makeRoom_kept (key : Bytes) (branches : Branches) :
    LedgersKept (repoPrefix key) branches (makeRoom key branches) := by
  unfold makeRoom
  split
  · exact fun _ _ => rfl
  · apply deleteAll_kept
    intro other member
    obtain ⟨row,taken,rfl⟩ := List.mem_map.mp member
    obtain ⟨e,listed,rfl⟩ := List.mem_map.mp ((List.mergeSort_perm _ _).mem_iff.mp (List.mem_of_mem_take taken))
    exact List.isPrefixOf_iff_prefix.mp (List.mem_filter.mp listed).2

section ledger

variable (host branch : Bytes) (forgeId : Nat)

theorem apart_key (key : Bytes) (apart : ¬ledgerPrefix host forgeId <+: key) : key ≠ ledgerKey host forgeId branch :=
  fun eq => apart (eq ▸ ledgerKey_prefix host branch forgeId)

theorem remember_kept (plain : hash ∉ host) (number : Nat) (now : Int) (branches : Branches) :
    LedgersKept (ledgerPrefix host forgeId) branches
      (rememberPullRequest (ledgerKey host forgeId branch) number now branches) := by
  intro key apart
  have room := makeRoom_kept (ledgerKey host forgeId branch) branches key
  rw [repoPrefix_ledgerKey host branch forgeId plain] at room
  exact (AList.lookup_insert_ne (apart_key host branch forgeId key apart)).trans (room apart)

theorem recordOwn_kept (before after : Bytes) (now : Int) (branches : Branches) :
    LedgersKept (ledgerPrefix host forgeId) branches
      ((recordOwn (ledgerKey host forgeId branch) before after now branches).toOption.getD branches) := by
  intro key apart
  unfold recordOwn
  split
  · rfl
  · exact AList.lookup_insert_ne (apart_key host branch forgeId key apart)

theorem noteSkip_kept (head why : Bytes) (now : Int) (branches : Branches) :
    LedgersKept (ledgerPrefix host forgeId) branches
      (noteSkip (ledgerKey host forgeId branch) head why now branches) :=
  fun key apart => update_other (apart_key host branch forgeId key apart) _ _

end ledger

theorem recordPush_kept (host : Bytes) (push : PushEvent) (now : Int) (branches after : Branches)
    (pr : Option Nat) (plain : hash ∉ host) (done : recordPush host push now branches = .ok (pr,after)) :
    LedgersKept (ledgerPrefix host push.repoId) branches after := by
  intro key apart
  cases named : push.branch with
  | none => simp only [recordPush,named] at done; cases done
  | some branch =>
    by_cases stale : push.stale now
    · simp only [recordPush,named,if_pos stale] at done
      cases done
      rfl
    · simp only [recordPush,named,if_neg stale] at done
      cases done
      rw [update_other (apart_key host branch push.repoId key apart)]
      split
      · rfl
      · have room := makeRoom_kept (ledgerKey host push.repoId branch) branches key
        rw [repoPrefix_ledgerKey host branch push.repoId plain] at room
        exact room apart

end VerifiableGit.Resign
