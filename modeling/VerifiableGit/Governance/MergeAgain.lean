import VerifiableGit.Governance.MergeTogether

-- A run that finds everything as asked changes nothing; when the next one does.
namespace VerifiableGit.MergeList
open Text Governance

section
variable {site : Site} {unlisted : Unlisted} {repo : Repository} {desired : List RoleAssignment} {wanted : Wanted}

theorem wantedLoop_quiet (fails : Call → Option ForgeError) {current : Current} {items : Wanted}
    (quiet : ∀ x ∈ items, ¬isBlocked site x.1 (current.lookup x.1) x.2.2 ∧ isSettled (current.lookup x.1) x.2.2) (edits : Edits) :
    ∃ next, wantedLoop site fails true current items edits repo = (.ok next,repo,[]) := by
  induction items generalizing edits with
  | nil => exact ⟨edits,rfl⟩
  | cons x rest ih =>
    obtain ⟨id,account,role⟩ := x
    obtain ⟨open_,settled⟩ := quiet _ List.mem_cons_self
    obtain ⟨next,loop⟩ := ih (fun y member => quiet y (List.mem_cons_of_mem _ member))
      (if role ≠ .none then { noted id role edits with unchanged := (noted id role edits).unchanged ++ [account] } else noted id role edits)
    refine ⟨next,?_⟩
    rw [wantedLoop,wantedTurn_settled rfl open_ settled]
    simp only [loop]
    rfl

theorem unlistedLoop_quiet (fails : Call → Option ForgeError) {rest : Current} (quiet : unlisted = .remove → unasked wanted rest = []) (edits : Edits) :
    ∃ next, unlistedLoop site fails unlisted wanted rest edits repo = (.ok next,repo,[]) := by
  induction rest generalizing edits with
  | nil => exact ⟨edits,rfl⟩
  | cons x rest ih =>
    obtain ⟨id,h⟩ := x
    have later : unlisted = .remove → unasked wanted rest = [] := fun remove => List.filter_eq_nil_iff.mpr fun y member =>
      List.filter_eq_nil_iff.mp (quiet remove) y (List.mem_cons_of_mem _ member)
    cases asked : (wanted.lookup id).isSome with
    | true =>
      obtain ⟨next,loop⟩ := ih later edits
      exact ⟨next,by rw [unlistedLoop,if_pos asked,loop]⟩
    | false =>
      cases unlisted with
      | remove =>
        have absent : wanted.lookup id = none := Option.isSome_eq_false_iff.mp asked |> Option.isNone_iff_eq_none.mp
        exact absurd (by rw [absent]; rfl) (List.filter_eq_nil_iff.mp (quiet rfl) _ List.mem_cons_self)
      | keep =>
        let kept : Edits := if h.listed then { edits with keepListed := id :: edits.keepListed } else edits
        obtain ⟨next,loop⟩ := ih later { kept with keptUnlisted := kept.keptUnlisted ++ [⟨h.account,h.perm.observed h.listed,false⟩] }
        refine ⟨next,?_⟩
        rw [unlistedLoop,if_neg (by rw [asked]; exact Bool.false_ne_true)]
        simp only [unlistedTurn,kept] at loop ⊢
        simp only [loop]
        rfl

-- Whose entry it is, if a collaborator's.
theorem idOf_cases (observed : Observed site.forgejo repo) (login : Bytes) :
    (∃ id h, site.haveOf repo id = some h ∧ folded login = folded (site.forgejo.user id).login ∧ idOf (repo.current site) login = some id) ∨
    idOf (repo.current site) login = none := by
  cases found : (repo.current site).find? fun c => sameIgnoringCase c.2.account.login login with
  | none => exact .inr (by rw [idOf,found]; rfl)
  | some c =>
    have inside := (mem_current observed c.1 c.2).mp (List.mem_of_find?_eq_some found)
    have here := List.find?_some (p := fun c : Nat × Have => sameIgnoringCase c.2.account.login login) found
    rw [(have_account inside).1,same_folded] at here
    refine .inl ⟨c.1,c.2,inside,here.symm,?_⟩
    rw [idOf_login observed here.symm,inside]
    rfl

theorem sameList_self {rule : ProtectionJson} (enabled : rule.enableMergeWhitelist = true) (allow : List Bytes) : sameList rule allow allow = true := by
  have all : allow.all (containsLogin allow) = true :=
    List.all_eq_true.mpr fun l member => (contains_folded _ _).mpr (List.mem_map_of_mem member)
  rw [sameList,all,enabled]
  simp

-- What leaves a run nothing to do.
structure Quiet (site : Site) (desired : List RoleAssignment) (unlisted : Unlisted) (repo : Repository) : Prop where
  observed : Observed site.forgejo repo
  ruled : ∃ rule, repo.rule = some rule ∧ rule.enableMergeWhitelist = true
  open_ : ∀ id role, Asks site desired id role → ¬isBlocked site id (site.haveOf repo id) role
  settled : ∀ id role, Asks site desired id role → isSettled (site.haveOf repo id) role
  spare : unlisted = .remove → ∀ id, Unasked site desired id → site.perm repo id = none
  entries : unlisted = .remove → ∀ login ∈ allowOf repo.rule, ∃ id, folded login = folded (site.forgejo.user id).login ∧ site.perm repo id ≠ none

theorem quiet_turn (fails : Call → Option ForgeError) {id : Nat} {have_ : Option Have} {role : ForgeRole} (open_ : ¬isBlocked site id have_ role)
    (settled : isSettled have_ role) : turnFor site fails id have_ role = .kept := by
  obtain ⟨blocked,_⟩ | ⟨_,⟨_,turn⟩ | ⟨unsettled,_⟩⟩ := turn_cases site fails id have_ role
  · exact absurd blocked open_
  · exact turn
  · exact absurd settled unsettled

theorem quiet_next (quiet : Quiet site desired unlisted repo) (read : Read site.adapter desired wanted) {fails : Call → Option ForgeError} {edits : Edits}
    {middle : Repository} (passed : Passed site (itemsOf site fails unlisted wanted repo) {} edits repo middle) :
    nextList unlisted (repo.current site) edits (allowOf repo.rule) = allowOf repo.rule := by
  have observed := quiet.observed
  have kept {id : Nat} {entry : ForgeAccount × ForgeRole} (found : wanted.lookup id = some entry) :
      turnFor site fails id (site.haveOf repo id) entry.2 = .kept := by
    have asks := (asks_lookup read id entry.2).mpr ⟨entry.1,found⟩
    exact quiet_turn fails (quiet.open_ id entry.2 asks) (quiet.settled id entry.2 asks)
  have item {id : Nat} {entry : ForgeAccount × ForgeRole} (found : wanted.lookup id = some entry) :
      wantedItem site fails (site.haveOf repo id) (id,entry) = ⟨id,none,[],false,false,listNeeds entry.2⟩ := by
    simp only [wantedItem,kept found]
    rfl
  have noAdd : edits.listAdd = [] := by
    refine List.eq_nil_iff_forall_not_mem.mpr fun login member => ?_
    cases (passed.add login).mp member with
    | inl none_ => cases none_
    | inr added =>
      obtain ⟨i,inside,add,_⟩ := added
      obtain ⟨id,entry,asked,same⟩ | ⟨x,_,same⟩ := mem_items.mp inside
      · rw [same,item ((sorted_lookup read.sorted).mp asked)] at add
        cases add
      · rw [same] at add
        cases unlisted <;> cases add
  have all : keptEntries unlisted (repo.current site) edits (allowOf repo.rule) = allowOf repo.rule := by
    refine List.filter_eq_self.mpr fun login member => ?_
    obtain ⟨id,h,stands,same,owner⟩ | stranger := idOf_cases observed login
    · have listed : h.listed = true := by
        rw [(have_account stands).2.1,Repository.listed,contains_folded,← same]
        exact List.mem_map_of_mem member
      have entry : id ∉ edits.listDrop ∧ id ∈ edits.keepListed := by
        cases found : wanted.lookup id with
        | some entry =>
          obtain ⟨drop,keep,_⟩ := edits_wanted read passed found
          rw [item found] at drop keep
          have settled := (quiet.settled id entry.2 ((asks_lookup read _ _).mpr ⟨entry.1,found⟩)).2
          rw [stands,Option.any_some,listed] at settled
          exact ⟨fun inside => (by cases drop.mp inside),keep.mpr settled.symm⟩
        | none =>
          obtain ⟨drop,keep,_⟩ := edits_unasked observed read passed found stands
          cases unlisted with
          | keep => exact ⟨fun inside => (by cases drop.mp inside),keep.mpr listed⟩
          | remove =>
            have none_ := quiet.spare rfl id ((unasked_lookup read id).mpr found)
            rw [(have_none id).mpr none_] at stands
            cases stands
      rw [owner]
      simpa using entry
    · rw [stranger]
      cases unlisted with
      | keep => rfl
      | remove =>
        obtain ⟨id,same,some_⟩ := quiet.entries rfl login member
        rw [idOf_login observed same] at stranger
        cases stands : site.haveOf repo id with
        | none => exact absurd ((have_none id).mp stands) some_
        | some h =>
          rw [stands] at stranger
          cases stranger
  rw [nextList,noAdd,all]
  rfl

theorem prepare_cases (later : Call → Option ForgeError) (repo : Repository)
    (run : wantedFrom site.adapter [] (site.adapter.expressible desired) = .ok wanted) :
    (∃ e, prepare site later desired repo = .error e) ∨ prepare site later desired repo = .ok (repo.current site,wanted) := by
  rw [prepare,run]
  cases ask later .locate with
  | error e => exact .inl ⟨e,rfl⟩
  | ok =>
    cases ask later .repo with
    | error e => exact .inl ⟨e,rfl⟩
    | ok =>
      cases ask later .rule with
      | error e => exact .inl ⟨e,rfl⟩
      | ok =>
        cases ask later .collaborators with
        | error e => exact .inl ⟨e,rfl⟩
        | ok => exact .inr rfl

theorem quiet_run (quiet : Quiet site desired unlisted repo) (read : Read site.adapter desired wanted)
    (run : wantedFrom site.adapter [] (site.adapter.expressible desired) = .ok wanted) (later : Call → Option ForgeError) :
    (applyRoles site later desired unlisted repo).2 = (repo,[]) := by
  obtain ⟨rule,ruled,enabled⟩ := quiet.ruled
  have observed := quiet.observed
  cases prepare_cases later repo run with
  | inl refused =>
    obtain ⟨e,failed⟩ := refused
    rw [applyRoles,failed]
  | inr ready =>
    rw [applyRoles_ruled ready ruled]
    have first : ∀ x ∈ wanted, ¬isBlocked site x.1 ((repo.current site).lookup x.1) x.2.2 ∧ isSettled ((repo.current site).lookup x.1) x.2.2 := by
      intro x member
      have asks := (asks_lookup read x.1 x.2.2).mpr ⟨x.2.1,(sorted_lookup read.sorted).mp member⟩
      rw [current_lookup observed]
      exact ⟨quiet.open_ _ _ asks,quiet.settled _ _ asks⟩
    have second : unlisted = .remove → unasked wanted (repo.current site) = [] := by
      intro remove
      refine List.filter_eq_nil_iff.mpr fun x member absent => ?_
      have none_ := quiet.spare remove x.1 ((unasked_lookup read x.1).mpr (by simpa using absent))
      have stands := (mem_current observed x.1 x.2).mp member
      rw [(have_none x.1).mpr none_] at stands
      cases stands
    obtain ⟨asked,loop⟩ : ∃ next, wantedLoop site later true (repo.current site) wanted {} repo = (.ok next,repo,[]) :=
      wantedLoop_quiet later first {}
    obtain ⟨edits,loop'⟩ : ∃ next, unlistedLoop site later unlisted wanted (repo.current site) asked repo = (.ok next,repo,[]) :=
      unlistedLoop_quiet later second asked
    have passed : Passed site (itemsOf site later unlisted wanted repo) {} edits repo repo := by
      have once : ((repo.current site).map Prod.fst).Nodup := sorted_keys (current_sorted site repo)
      have known : ∀ x ∈ repo.current site, x.2.account = site.forgejo.user x.1 :=
        fun x member => (have_account ((mem_current observed x.1 x.2).mp member)).1
      obtain ⟨_,_,_,_,stopped,_⟩ | ⟨_,_,_,_,run',passed,_⟩ := wantedLoop_items later {} (read_stands observed read)
      · cases loop.symm.trans stopped
      cases loop.symm.trans run'
      obtain ⟨_,_,_,_,stopped,_⟩ | ⟨_,_,_,_,run'',passed',_⟩ := unlistedLoop_items later unlisted wanted asked observed once known
      · cases loop'.symm.trans stopped
      cases loop'.symm.trans run''
      exact passed_whole observed read passed passed'
    have next := quiet_next quiet read passed
    rw [ruled] at next
    rw [loop]
    simp only [loop']
    have write : writeList site later unlisted (repo.current site) edits rule repo = (.ok edits.changes,repo,[]) := by
      rw [writeList,next]
      exact if_pos (sameList_self enabled _)
    rw [write]
    rfl

section
variable {fails : Call → Option ForgeError} {edits : Edits} {middle after : Repository} {last : List Request}
  (observed : Observed site.forgejo repo) (read : Read site.adapter desired wanted)
  (passed : Passed site (itemsOf site fails unlisted wanted repo) {} edits repo middle)
  (list : Written site (nextList unlisted (repo.current site) edits (allowOf repo.rule)) middle after last)
  (going : ¬Ends site fails desired unlisted repo) (fine : ∀ id, ¬Fails site fails desired unlisted repo id)

include going fine in
omit observed read passed list in
-- Without a failure a wanted account has its role, or gets it.
theorem turn_settled {id : Nat} {role : ForgeRole} (asks : Asks site desired id role) :
    (isSettled (site.haveOf repo id) role ∧ site.turn fails repo id role = .kept) ∨ site.turn fails repo id role = .applied := by
  obtain ⟨_,blocked⟩ | ⟨_,settled | ⟨_,⟨e,_,turn⟩ | ⟨_,applied⟩⟩⟩ := turn_cases site fails id (site.haveOf repo id) role
  · exact absurd (.inl ⟨role,asks,.inl blocked⟩) (fine id)
  · exact .inl settled
  · cases fatal : e.isFatal with
    | true => exact absurd (.inl ⟨id,role,asks,e,by rw [Site.turn,turn,fatal]; rfl⟩) going
    | false => exact absurd (.inl ⟨role,asks,.inr ⟨e,by rw [Site.turn,turn,fatal]; rfl⟩⟩) (fine id)
  · exact .inr applied

include read passed list going fine in
omit observed in
theorem perm_settled {id : Nat} {role : ForgeRole} (asks : Asks site desired id role) : site.perm after id = Perm.forRole role := by
  obtain ⟨account,found⟩ := (asks_lookup read _ _).mp asks
  have wanted := asks
  obtain ⟨_,_,_,other,_⟩ := wanted
  rw [Site.perm,if_neg other]
  cases turn_settled going fine asks with
  | inl settled =>
    have still := perm_unapplied read passed list found (by rw [settled.2]; exact fun same => by cases same)
    have before := settled.1.1
    rw [have_perm,Site.perm,if_neg other] at before
    exact still.trans before
  | inr applied => exact perm_applied read passed list found applied

include observed read passed list going fine in
theorem again_quiet (joined : unlisted = .keep → ∀ id role, Asks site desired id role → repo.listed site id = true → site.perm repo id = none →
    site.turn fails repo id role = .applied → role ≠ .write ∧ role ≠ .read) : Quiet site desired unlisted after where
  observed := observed_after passed list
  ruled := list.enabled
  open_ id role asks blocked := by
    have perm := perm_settled read passed list going fine asks
    rw [blocked.2.1] at perm
    have none_ : site.haveOf after id = none := (have_none id).mpr perm
    rw [isBlocked,none_] at blocked
    cases blocked.2.2
  settled id role asks := by
    have perm := perm_settled read passed list going fine asks
    refine ⟨(have_perm id).trans perm,?_⟩
    obtain ⟨account,found⟩ := (asks_lookup read _ _).mp asks
    have turn := turn_settled going fine asks
    cases standing : site.haveOf after id with
    | none =>
      have none_ := (have_none id).mp standing
      rw [perm] at none_
      cases needs : listNeeds role with
      | false => rfl
      | true => exact absurd none_ (needs_perm needs).1
    | some g =>
      have listed : g.listed = after.listed site id := (have_account standing).2.1
      have some_ : Perm.forRole role ≠ none := fun none_ => by
        rw [(have_none id).mpr (perm.trans none_)] at standing
        cases standing
      rw [Option.any_some,listed,Bool.eq_iff_iff]
      cases stands : site.haveOf repo id with
      | some h =>
        rw [listed_wanted observed read passed list found stands]
        refine ⟨And.left,fun needs => ⟨needs,?_⟩⟩
        cases turn with
        | inl kept =>
          have same := kept.1.2
          rw [stands,Option.any_some,needs] at same
          exact .inl same
        | inr applied => exact .inr applied
      | none =>
        have applied : site.turn fails repo id role = .applied := by
          cases turn with
          | inl kept =>
            have same := kept.1.1
            rw [stands] at same
            exact absurd same.symm some_
          | inr applied => exact applied
        rw [listed_joining observed read passed list found stands]
        constructor
        · intro either
          cases either with
          | inr both => exact both.2
          | inl both =>
            obtain ⟨notWrite,notRead⟩ := joined both.2 id role asks both.1 ((have_none id).mp stands) applied
            cases role with
            | none => exact absurd rfl some_
            | read => exact absurd rfl notRead
            | write => exact absurd rfl notWrite
            | triage => exact absurd (asks_expressed asks) (by decide)
            | maintain | admin => rfl
        · exact fun needs => .inr ⟨applied,needs⟩
  spare remove id unasked_ := by
    have absent := (unasked_lookup read id).mp unasked_
    by_contra some_
    rw [Site.perm] at some_
    split at some_
    · exact some_ rfl
    rename_i other
    cases stands : site.haveOf repo id with
    | none =>
      refine some_ ((perm_unasked observed read passed list absent (.inr (.inl stands))).trans ?_)
      have before := (have_none id).mp stands
      rwa [Site.perm,if_neg other] at before
    | some h =>
      have present : site.perm repo id ≠ none := fun none_ => by
        rw [(have_none id).mpr none_] at stands
        cases stands
      have applied : removeTurn fails id = .applied := by
        rw [removeTurn]
        cases answer : fails (.set_ id) with
        | none => rfl
        | some e =>
          cases fatal : e.isFatal with
          | true => exact absurd (.inr ⟨remove,id,unasked_,present,e,by simp [removeTurn,answer,fatal]⟩) going
          | false => exact absurd (.inr ⟨remove,unasked_,present,e,by simp [removeTurn,answer,fatal]⟩) (fine id)
      exact some_ (perm_removed observed passed list absent stands remove applied)
  entries remove login member := by
    have inside := (list.list login).mp ((contains_folded _ _).mpr (List.mem_map_of_mem member))
    -- a name on the new list is one the loops keep or add
    rw [nextList,added_contains] at inside
    have wanted_ {id : Nat} {entry : ForgeAccount × ForgeRole} (found : wanted.lookup id = some entry) (needs : listNeeds entry.2 = true) :
        site.perm after id ≠ none := by
      rw [perm_settled read passed list going fine ((asks_lookup read id entry.2).mpr ⟨entry.1,found⟩)]
      exact (needs_perm needs).1
    cases inside with
    | inl kept =>
      obtain ⟨a,here,same⟩ := List.mem_map.mp ((contains_folded _ _).mp kept)
      obtain ⟨_,holds⟩ := List.mem_filter.mp here
      obtain ⟨id,h,stands,owner,found⟩ | stranger := idOf_cases observed a
      · rw [found] at holds
        have keep : id ∈ edits.keepListed := by simpa using (Bool.and_eq_true_iff.mp holds).2
        refine ⟨id,same.symm.trans owner,?_⟩
        cases asked : wanted.lookup id with
        | some entry =>
          have item := (edits_wanted read passed asked).2.1.mp keep
          exact wanted_ asked item
        | none =>
          have item := (edits_unasked observed read passed asked stands).2.1.mp keep
          rw [remove] at item
          cases item
      · rw [stranger,remove] at holds
        simp at holds
    | inr added =>
      obtain ⟨a,inside,same⟩ := added
      cases (passed.add a).mp inside with
      | inl none_ => cases none_
      | inr added =>
        obtain ⟨i,item,add,equal⟩ := added
        obtain ⟨id,entry,asked,here⟩ | ⟨x,_,here⟩ := mem_items.mp item
        · rw [here] at add equal
          have needs : listNeeds entry.2 = true := by
            simp only [wantedItem,Bool.and_eq_true] at add
            exact add.1.2
          exact ⟨id,same.symm.trans (congrArg folded equal),wanted_ ((sorted_lookup read.sorted).mp asked) needs⟩
        · rw [here] at add
          cases unlisted <;> cases add

end

end

end VerifiableGit.MergeList
