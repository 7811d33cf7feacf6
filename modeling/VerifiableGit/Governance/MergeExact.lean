import VerifiableGit.Governance.MergeWrite

-- Exactly when permissions and the allow-list keep together.
namespace VerifiableGit.MergeList
open Text Governance

theorem applied_exact (turn : Turn) : turn.isApplied = true ↔ turn = .applied := by
  cases turn <;> simp [Turn.isApplied]

section
variable {site : Site} {fails : Call → Option ForgeError} {unlisted : Unlisted} {repo middle after : Repository}
  {desired : List RoleAssignment} {wanted : Wanted} {edits : Edits} {last : List Request} {id : Nat} {entry : ForgeAccount × ForgeRole}

theorem item_wanted (read : Read site.adapter desired wanted) (found : wanted.lookup id = some entry) {i : Item}
    (inside : i ∈ itemsOf site fails unlisted wanted repo) (same : i.id = id) : i = wantedItem site fails (site.haveOf repo id) (id,entry) := by
  cases List.mem_append.mp inside with
  | inl asked =>
    obtain ⟨x,member,here⟩ := List.mem_map.mp asked
    have key : x.1 = id := by rw [← same,← here]; rfl
    have value : x.2 = entry := by
      have looked := (sorted_lookup read.sorted).mp (show (x.1,x.2) ∈ wanted from member)
      rw [key,found] at looked
      exact (Option.some.inj looked).symm
    rw [← here,show x = (id,entry) from Prod.ext key value]
  | inr unasked_ =>
    obtain ⟨y,member,here⟩ := List.mem_map.mp unasked_
    have key : y.1 = id := by rw [← same,← here]; cases unlisted <;> rfl
    have absent := (List.mem_filter.mp member).2
    rw [key,found] at absent
    cases absent

theorem item_unasked (observed : Observed site.forgejo repo) (absent : wanted.lookup id = none) {i : Item} (inside : i ∈ itemsOf site fails unlisted wanted repo) (same : i.id = id)
    (read : Read site.adapter desired wanted) : ∃ h, site.haveOf repo id = some h ∧ i = unlistedItem fails unlisted (id,h) := by
  cases List.mem_append.mp inside with
  | inl asked =>
    obtain ⟨x,member,here⟩ := List.mem_map.mp asked
    have key : x.1 = id := by rw [← same,← here]; rfl
    have looked := (sorted_lookup read.sorted).mp (show (x.1,x.2) ∈ wanted from member)
    rw [key,absent] at looked
    cases looked
  | inr unasked_ =>
    obtain ⟨y,member,here⟩ := List.mem_map.mp unasked_
    have key : y.1 = id := by rw [← same,← here]; cases unlisted <;> rfl
    refine ⟨y.2,?_,by rw [← here,← key]⟩
    rw [← key]
    exact (mem_current observed y.1 y.2).mp (List.mem_of_mem_filter member)

theorem wanted_inside (site : Site) (fails : Call → Option ForgeError) (unlisted : Unlisted) (repo : Repository) (read : Read site.adapter desired wanted) (found : wanted.lookup id = some entry) :
    wantedItem site fails (site.haveOf repo id) (id,entry) ∈ itemsOf site fails unlisted wanted repo :=
  List.mem_append_left _ (List.mem_map.mpr ⟨(id,entry),(sorted_lookup read.sorted).mpr found,rfl⟩)

theorem unasked_inside (fails : Call → Option ForgeError) (unlisted : Unlisted) (observed : Observed site.forgejo repo) (absent : wanted.lookup id = none) {h : Have} (stands : site.haveOf repo id = some h) :
    unlistedItem fails unlisted (id,h) ∈ itemsOf site fails unlisted wanted repo :=
  List.mem_append_right _ (List.mem_map.mpr ⟨(id,h),List.mem_filter.mpr ⟨(mem_current observed id h).mpr stands,by simp [absent]⟩,rfl⟩)

section
variable (observed : Observed site.forgejo repo) (read : Read site.adapter desired wanted)
  (passed : Passed site (itemsOf site fails unlisted wanted repo) {} edits repo middle)
  (list : Written site (nextList unlisted (repo.current site) edits (allowOf repo.rule)) middle after last)

include list in
theorem perm_after (id : Nat) : after.perm id = middle.perm id := by
  rw [Repository.perm,Repository.perm,list.collaborators]

include read passed list

theorem perm_applied (found : wanted.lookup id = some entry) (applied : site.turn fails repo id entry.2 = .applied) :
    after.perm id = Perm.forRole entry.2 := by
  rw [perm_after list]
  refine passed.reached _ (wanted_inside site fails unlisted repo read found) _ ?_
  exact if_pos ((applied_exact _).mpr applied)

theorem perm_unapplied (found : wanted.lookup id = some entry) (other : site.turn fails repo id entry.2 ≠ .applied) :
    after.perm id = repo.perm id := by
  rw [perm_after list]
  refine passed.others id fun i inside same => ?_
  rw [item_wanted read found inside same]
  exact if_neg fun applied => other ((applied_exact _).mp applied)

include observed

omit read in
theorem perm_removed (absent : wanted.lookup id = none) {h : Have} (stands : site.haveOf repo id = some h) (remove : unlisted = .remove)
    (applied : removeTurn fails id = .applied) : after.perm id = none := by
  rw [perm_after list]
  have goal : (unlistedItem fails unlisted (id,h)).goal = some none := by
    rw [remove]
    exact if_pos ((applied_exact _).mpr applied)
  have item := passed.reached _ (unasked_inside fails unlisted observed absent stands) _ goal
  have key : (unlistedItem fails unlisted (id,h)).id = id := by cases unlisted <;> rfl
  rwa [key] at item

theorem perm_unasked (absent : wanted.lookup id = none)
    (other : unlisted = .keep ∨ site.haveOf repo id = none ∨ removeTurn fails id ≠ .applied) : after.perm id = repo.perm id := by
  rw [perm_after list]
  refine passed.others id fun i inside same => ?_
  obtain ⟨h,stands,item⟩ := item_unasked observed absent inside same read
  rw [item]
  rcases other with keep | none_ | failed
  · rw [keep]
    rfl
  · cases none_.symm.trans stands
  · cases unlisted with
    | keep => rfl
    | remove => exact if_neg fun applied => failed ((applied_exact _).mp applied)

/-! Who is on the list afterwards -/

omit read observed in
theorem listed_after (observed : Observed site.forgejo repo) (id : Nat) : after.listed site id = true ↔
    (repo.listed site id = true ∧ stays site repo unlisted edits id) ∨ ∃ i ∈ itemsOf site fails unlisted wanted repo, i.add = true ∧ id = i.id := by
  rw [Repository.listed,list.list,next_contains observed]
  refine or_congr_right ?_
  constructor
  · intro found
    obtain ⟨login,inside,same⟩ := found
    cases (passed.add login).mp inside with
    | inl none_ => cases none_
    | inr added =>
      obtain ⟨i,member,add,equal⟩ := added
      rw [equal] at same
      exact ⟨i,member,add,(site.forgejo.unique _ _ ((same_folded _ _).mpr same)).symm⟩
  · intro found
    obtain ⟨i,member,add,same⟩ := found
    exact ⟨_,(passed.add _).mpr (.inr ⟨i,member,add,rfl⟩),by rw [same]⟩

omit observed list in
theorem edits_wanted (found : wanted.lookup id = some entry) :
    (id ∈ edits.listDrop ↔ (wantedItem site fails (site.haveOf repo id) (id,entry)).drop = true) ∧
    (id ∈ edits.keepListed ↔ (wantedItem site fails (site.haveOf repo id) (id,entry)).keep = true) ∧
    ((∃ i ∈ itemsOf site fails unlisted wanted repo, i.add = true ∧ id = i.id) ↔
      (wantedItem site fails (site.haveOf repo id) (id,entry)).add = true) := by
  have inside := wanted_inside site fails unlisted repo read found
  have own (p : Item → Prop) : (∃ i ∈ itemsOf site fails unlisted wanted repo, p i ∧ id = i.id) ↔
      p (wantedItem site fails (site.haveOf repo id) (id,entry)) := by
    constructor
    · intro some_
      obtain ⟨i,member,holds,same⟩ := some_
      exact item_wanted read found member same.symm ▸ holds
    · exact fun holds => ⟨_,inside,holds,rfl⟩
  refine ⟨?_,?_,own fun i => i.add = true⟩
  · exact (passed.drop id).trans ((or_iff_right List.not_mem_nil).trans (own fun i => i.drop = true))
  · exact (passed.keep id).trans ((or_iff_right List.not_mem_nil).trans (own fun i => i.keep = true))

omit list in
theorem edits_unasked (absent : wanted.lookup id = none) {h : Have} (stands : site.haveOf repo id = some h) :
    (id ∈ edits.listDrop ↔ (unlistedItem fails unlisted (id,h)).drop = true) ∧
    (id ∈ edits.keepListed ↔ (unlistedItem fails unlisted (id,h)).keep = true) ∧
    ¬∃ i ∈ itemsOf site fails unlisted wanted repo, i.add = true ∧ id = i.id := by
  have inside := unasked_inside fails unlisted observed absent stands
  have key : (unlistedItem fails unlisted (id,h)).id = id := by cases unlisted <;> rfl
  have own (p : Item → Prop) : (∃ i ∈ itemsOf site fails unlisted wanted repo, p i ∧ id = i.id) ↔
      p (unlistedItem fails unlisted (id,h)) := by
    constructor
    · intro some_
      obtain ⟨i,member,holds,same⟩ := some_
      obtain ⟨g,found,item⟩ := item_unasked observed absent member same.symm read
      cases stands.symm.trans found
      exact item ▸ holds
    · exact fun holds => ⟨_,inside,holds,key.symm⟩
  refine ⟨?_,?_,?_⟩
  · exact (passed.drop id).trans ((or_iff_right List.not_mem_nil).trans (own fun i => i.drop = true))
  · exact (passed.keep id).trans ((or_iff_right List.not_mem_nil).trans (own fun i => i.keep = true))
  · rw [own fun i => i.add = true]
    cases unlisted <;> exact Bool.false_ne_true

theorem listed_wanted (found : wanted.lookup id = some entry) {h : Have} (stands : site.haveOf repo id = some h) :
    after.listed site id = true ↔ listNeeds entry.2 = true ∧ (h.listed = true ∨ site.turn fails repo id entry.2 = .applied) := by
  have listed : h.listed = repo.listed site id := (have_account stands).2.1
  obtain ⟨drop,keep,add⟩ := edits_wanted read passed found
  rw [listed_after passed list observed,stays,stands,Option.isSome_some,if_pos rfl,drop,keep,add,← listed,← applied_exact,Site.turn,turnFor,stands]
  simp only [wantedItem,Option.any_some]
  cases listNeeds entry.2 with
  | false => simp
  | true =>
    cases h.listed with
    | true => simp
    | false => simp

theorem listed_unasked (absent : wanted.lookup id = none) {h : Have} (stands : site.haveOf repo id = some h) :
    after.listed site id = true ↔ unlisted = .keep ∧ h.listed = true := by
  have listed : h.listed = repo.listed site id := (have_account stands).2.1
  obtain ⟨drop,keep,add⟩ := edits_unasked observed read passed absent stands
  rw [listed_after passed list observed,stays,stands,Option.isSome_some,if_pos rfl,drop,keep,← listed]
  cases unlisted with
  | keep => simp [unlistedItem,add]
  | remove => simp [unlistedItem,add]

theorem listed_joining (found : wanted.lookup id = some entry) (stands : site.haveOf repo id = none) :
    after.listed site id = true ↔ (repo.listed site id = true ∧ unlisted = .keep) ∨
      (site.turn fails repo id entry.2 = .applied ∧ listNeeds entry.2 = true) := by
  obtain ⟨drop,keep,add⟩ := edits_wanted read passed found
  rw [listed_after passed list observed,stays,stands,Option.isSome_none,if_neg Bool.false_ne_true,add,← applied_exact,Site.turn,turnFor,stands]
  simp only [wantedItem,Option.any_none,Bool.not_false,Bool.and_true,Bool.and_eq_true]

theorem listed_stranger (absent : wanted.lookup id = none) (stands : site.haveOf repo id = none) :
    after.listed site id = true ↔ repo.listed site id = true ∧ unlisted = .keep := by
  have none_ : ¬∃ i ∈ itemsOf site fails unlisted wanted repo, i.add = true ∧ id = i.id := by
    intro added
    obtain ⟨i,inside,_,same⟩ := added
    obtain ⟨h,found,_⟩ := item_unasked observed absent inside same.symm read
    cases stands.symm.trans found
  rw [listed_after passed list observed,stays,stands,Option.isSome_none,if_neg Bool.false_ne_true,or_iff_left none_]

end

end

end VerifiableGit.MergeList
