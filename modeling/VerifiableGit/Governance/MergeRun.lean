import VerifiableGit.Governance.MergeTurns

-- What the two loops leave, and the one write of the list after them.
namespace VerifiableGit.MergeList
open Text Governance

section
variable {site : Site} {fails : Call → Option ForgeError} {current : Current}

-- The standings a loop works with are still those of the repository.
structure Stands (site : Site) (current : Current) (repo : Repository) (ids : List Nat) : Prop where
  observed : Observed site.forgejo repo
  once : ids.Nodup
  perm : ∀ id ∈ ids, repo.perm id = (current.lookup id).map (·.perm)
  known : ∀ id ∈ ids, ∀ h ∈ current.lookup id, h.account = site.forgejo.user id

theorem stands_later {repo after : Repository} {id : Nat} {ids : List Nat} (stands : Stands site current repo (id :: ids))
    {item : Item} (same : item.id = id) {edits next : Edits} (passed : Passed site [item] edits next repo after) :
    Stands site current after ids := by
  obtain ⟨first,once⟩ := List.nodup_cons.mp stands.once
  refine ⟨passed.observed,once,fun other member => ?_,fun other member => stands.known other (List.mem_cons_of_mem _ member)⟩
  have still : after.perm other = repo.perm other := by
    refine passed.others other fun i inside here => ?_
    rw [List.mem_singleton.mp inside,same] at here
    exact absurd (here ▸ member) first
  exact still.trans (stands.perm other (List.mem_cons_of_mem _ member))

theorem wantedLoop_items {items : Wanted} {repo : Repository} (fails : Call → Option ForgeError) (edits : Edits) (stands : Stands site current repo (items.map Prod.fst)) :
    ((∃ x ∈ items, ∃ e, turnFor site fails x.1 (current.lookup x.1) x.2.2 = .stopped e) ∧ ∃ e after requests,
      wantedLoop site fails true current items edits repo = (.error e,after,requests) ∧ after.rule = repo.rule ∧
      ∀ r ∈ requests, r.isPatch = false) ∨
    (∀ x ∈ items, ∀ e, turnFor site fails x.1 (current.lookup x.1) x.2.2 ≠ .stopped e) ∧ ∃ next after requests,
      wantedLoop site fails true current items edits repo = (.ok next,after,requests) ∧
      Passed site (items.map fun x => wantedItem site fails (current.lookup x.1) x) edits next repo after ∧
      ∀ r ∈ requests, r.isPatch = false := by
  induction items generalizing repo edits with
  | nil => exact .inr ⟨fun _ member => absurd member List.not_mem_nil,edits,repo,[],rfl,passed_nil stands.observed edits,by simp⟩
  | cons x rest ih =>
    obtain ⟨id,account,role⟩ := x
    obtain ⟨e,stopped,run⟩ | ⟨going,next,after,requests,run,passed,plain⟩ :=
      wantedTurn_item fails account role edits stands.observed rfl (stands.perm id List.mem_cons_self) (stands.known id List.mem_cons_self)
    · refine .inl ⟨⟨_,List.mem_cons_self,e,stopped⟩,e,repo,[],?_,rfl,by simp⟩
      rw [wantedLoop,run]
    · obtain ⟨⟨y,member,e,stopped⟩,e',last,more,loop,rule,plain'⟩ | ⟨each,final,last,more,loop,passed',plain'⟩ :=
        ih next (stands_later stands rfl passed)
      · refine .inl ⟨⟨y,List.mem_cons_of_mem _ member,e,stopped⟩,e',last,requests ++ more,?_,rule.trans passed.rule,?_⟩
        · rw [wantedLoop,run]
          simp only [loop]
        · intro r inside
          exact (List.mem_append.mp inside).elim (plain r) (plain' r)
      · refine .inr ⟨?_,final,last,requests ++ more,?_,?_,?_⟩
        · intro y member
          cases List.mem_cons.mp member with
          | inl here => rw [here]; exact going
          | inr there => exact each y there
        · rw [wantedLoop,run]
          simp only [loop]
        · refine passed_append passed passed' fun i front j back => ?_
          rw [List.mem_singleton.mp front]
          obtain ⟨y,member,same⟩ := List.mem_map.mp back
          have apart := (List.nodup_cons.mp stands.once).1
          intro equal
          exact apart (List.mem_map.mpr ⟨y,member,(congrArg Item.id same).trans equal.symm⟩)
        · intro r inside
          exact (List.mem_append.mp inside).elim (plain r) (plain' r)

def removeTurn (fails : Call → Option ForgeError) (id : Nat) : Turn :=
  match fails (.set_ id) with
  | some e => if e.isFatal then .stopped e else .failed e
  | none => .applied

def unlistedItem (fails : Call → Option ForgeError) (unlisted : Unlisted) (x : Nat × Have) : Item :=
  let before := x.2.perm.observed x.2.listed
  match unlisted with
  | .keep => ⟨x.1,none,[],false,false,x.2.listed⟩
  | .remove =>
    { id := x.1
      goal := if (removeTurn fails x.1).isApplied then some none else none
      told := match removeTurn fails x.1 with
        | .failed e => [⟨x.2.account,before,.none,.failed e.text⟩]
        | .applied => [⟨x.2.account,before,.none,.applied⟩]
        | _ => []
      add := false
      drop := x.2.listed
      keep := false }

theorem unlistedTurn_item {id : Nat} {h : Have} {repo : Repository} (fails : Call → Option ForgeError) (edits : Edits) (unlisted : Unlisted) (observed : Observed site.forgejo repo)
    (known : h.account = site.forgejo.user id) :
    (unlisted = .remove ∧ ∃ e, removeTurn fails id = .stopped e ∧ unlistedTurn site fails unlisted id h edits repo = (.error e,repo,[])) ∨
    (unlisted = .remove → ∀ e, removeTurn fails id ≠ .stopped e) ∧ ∃ next after requests,
      unlistedTurn site fails unlisted id h edits repo = (.ok next,after,requests) ∧
      Passed site [unlistedItem fails unlisted (id,h)] edits next repo after ∧ ∀ r ∈ requests, r.isPatch = false := by
  cases unlisted with
  | keep =>
    refine .inr ⟨nofun,_,repo,[],rfl,?_,by simp⟩
    cases listed : h.listed with
    | true => exact ⟨by simp [unlistedItem],by simp [unlistedItem],by simp [unlistedItem],
        fun i => by simp [unlistedItem,listed,or_comm],observed,rfl,fun _ _ => rfl,by simp [unlistedItem]⟩
    | false => exact ⟨by simp [unlistedItem],by simp [unlistedItem],by simp [unlistedItem],
        fun i => by simp [unlistedItem,listed],observed,rfl,fun _ _ => rfl,by simp [unlistedItem]⟩
  | remove =>
    let dropped : Edits := if h.listed then { edits with listDrop := id :: edits.listDrop } else edits
    have drops (i : Nat) : i ∈ dropped.listDrop ↔ i ∈ edits.listDrop ∨ h.listed = true ∧ i = id := by
      simp only [dropped]
      cases h.listed with
      | true => simp [or_comm]
      | false => simp
    obtain ⟨changes,adds,keeps⟩ : dropped.changes = edits.changes ∧ dropped.listAdd = edits.listAdd ∧ dropped.keepListed = edits.keepListed := by
      simp only [dropped]
      split <;> exact ⟨rfl,rfl,rfl⟩
    cases answer : fails (.set_ id) with
    | some e =>
      cases fatal : e.isFatal with
      | true =>
        refine .inl ⟨rfl,e,by simp [removeTurn,answer,fatal],?_⟩
        simp only [unlistedTurn,setCollaborator,answer,fatal,if_true]
      | false =>
        have turn : removeTurn fails id = .failed e := by simp [removeTurn,answer,fatal]
        refine .inr ⟨fun _ e' stopped => (by cases turn.symm.trans stopped),
          dropped.tell ⟨h.account,h.perm.observed h.listed,.none,.failed e.text⟩,repo,[],?_,?_,by simp⟩
        · simp only [unlistedTurn,setCollaborator,answer,fatal,Bool.false_eq_true,if_false]
          rfl
        · have item : unlistedItem fails .remove (id,h) =
              ⟨id,none,[⟨h.account,h.perm.observed h.listed,.none,.failed e.text⟩],false,h.listed,false⟩ := by
            simp only [unlistedItem,turn]
            rfl
          rw [item]
          exact ⟨by simp [Edits.tell,changes],by simp [Edits.tell,adds],fun i => by simpa [Edits.tell] using drops i,
            by simp [Edits.tell,keeps],observed,rfl,fun _ _ => rfl,by simp⟩
    | none =>
      have turn : removeTurn fails id = .applied := by simp [removeTurn,answer]
      have moves := delete_moves id observed
      refine .inr ⟨fun _ e' stopped => (by cases turn.symm.trans stopped),
        dropped.tell ⟨h.account,h.perm.observed h.listed,.none,.applied⟩,
        site.forgejo.perform repo (.deleteCollaborator (site.forgejo.user id).login),[.deleteCollaborator (site.forgejo.user id).login],?_,?_,?_⟩
      · simp only [unlistedTurn,setCollaborator,answer,known]
        rfl
      · have item : unlistedItem fails .remove (id,h) =
            ⟨id,some none,[⟨h.account,h.perm.observed h.listed,.none,.applied⟩],false,h.listed,false⟩ := by
          simp only [unlistedItem,turn]
          rfl
        rw [item]
        refine ⟨by simp [Edits.tell,changes],by simp [Edits.tell,adds],fun i => by simpa [Edits.tell] using drops i,
          by simp [Edits.tell,keeps],moves.observed,moves.rule,?_,?_⟩
        · intro other none_
          refine moves.others other fun same => ?_
          have goal := none_ _ (List.mem_singleton.mpr rfl) same.symm
          cases goal
        · intro i member p goal
          rw [List.mem_singleton.mp member] at goal ⊢
          cases goal
          exact moves.reached
      · intro r member
        rw [List.mem_singleton.mp member]
        rfl

-- The collaborators nobody asked for.
def unasked (wanted : Wanted) (current : Current) : Current := current.filter fun x => (wanted.lookup x.1).isNone

theorem unlistedLoop_items (fails : Call → Option ForgeError) (unlisted : Unlisted) (wanted : Wanted) {rest : Current} {repo : Repository} (edits : Edits)
    (observed : Observed site.forgejo repo) (once : (rest.map Prod.fst).Nodup) (known : ∀ x ∈ rest, x.2.account = site.forgejo.user x.1) :
    ((unlisted = .remove ∧ ∃ x ∈ unasked wanted rest, ∃ e, removeTurn fails x.1 = .stopped e) ∧ ∃ e after requests,
      unlistedLoop site fails unlisted wanted rest edits repo = (.error e,after,requests) ∧ after.rule = repo.rule ∧
      ∀ r ∈ requests, r.isPatch = false) ∨
    (unlisted = .remove → ∀ x ∈ unasked wanted rest, ∀ e, removeTurn fails x.1 ≠ .stopped e) ∧ ∃ next after requests,
      unlistedLoop site fails unlisted wanted rest edits repo = (.ok next,after,requests) ∧
      Passed site ((unasked wanted rest).map (unlistedItem fails unlisted)) edits next repo after ∧ ∀ r ∈ requests, r.isPatch = false := by
  induction rest generalizing repo edits with
  | nil => exact .inr ⟨fun _ _ member => absurd member List.not_mem_nil,edits,repo,[],rfl,passed_nil observed edits,by simp⟩
  | cons x rest ih =>
    obtain ⟨id,h⟩ := x
    obtain ⟨first,tail⟩ := List.nodup_cons.mp once
    have known' : ∀ y ∈ rest, y.2.account = site.forgejo.user y.1 := fun y member => known y (List.mem_cons_of_mem _ member)
    cases asked : (wanted.lookup id).isSome with
    | true =>
      have skip : unasked wanted ((id,h) :: rest) = unasked wanted rest :=
        List.filter_cons_of_neg (by simp [Option.isSome_iff_ne_none.mp asked])
      have loop : unlistedLoop site fails unlisted wanted ((id,h) :: rest) edits repo = unlistedLoop site fails unlisted wanted rest edits repo := by
        rw [unlistedLoop,if_pos asked]
      rw [skip,loop]
      exact ih edits observed tail known'
    | false =>
      have take : unasked wanted ((id,h) :: rest) = (id,h) :: unasked wanted rest :=
        List.filter_cons_of_pos (by simpa using asked)
      have step := unlistedTurn_item fails edits unlisted observed (known _ List.mem_cons_self)
      have open_ : ¬(wanted.lookup id).isSome = true := by rw [asked]; exact Bool.false_ne_true
      rw [take,unlistedLoop,if_neg open_]
      obtain ⟨remove,e,stopped,run⟩ | ⟨going,next,after,requests,run,passed,plain⟩ := step
      · refine .inl ⟨⟨remove,_,List.mem_cons_self,e,stopped⟩,e,repo,[],?_,rfl,by simp⟩
        rw [run]
      · obtain ⟨⟨remove,y,member,e,stopped⟩,e',last,more,loop,rule,plain'⟩ | ⟨each,final,last,more,loop,passed',plain'⟩ :=
          ih next passed.observed tail known'
        · refine .inl ⟨⟨remove,y,List.mem_cons_of_mem _ member,e,stopped⟩,e',last,requests ++ more,?_,rule.trans passed.rule,?_⟩
          · rw [run]
            simp only [loop]
          · intro r inside
            exact (List.mem_append.mp inside).elim (plain r) (plain' r)
        · refine .inr ⟨?_,final,last,requests ++ more,?_,?_,?_⟩
          · intro remove y member
            cases List.mem_cons.mp member with
            | inl here => rw [here]; exact going remove
            | inr there => exact each remove y there
          · rw [run]
            simp only [loop]
          · refine passed_append passed passed' fun i front j back => ?_
            rw [List.mem_singleton.mp front]
            obtain ⟨y,member,same⟩ := List.mem_map.mp back
            intro equal
            have key : y.1 = id := by
              have item : (unlistedItem fails unlisted y).id = y.1 := by cases unlisted <;> rfl
              have own : (unlistedItem fails unlisted (id,h)).id = id := by cases unlisted <;> rfl
              rw [← item,same,← equal,own]
            exact first (List.mem_map.mpr ⟨y,List.mem_of_mem_filter member,key⟩)
          · intro r inside
            exact (List.mem_append.mp inside).elim (plain r) (plain' r)

end

end VerifiableGit.MergeList
