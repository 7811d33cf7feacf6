import Mathlib.Data.List.Perm.Subperm
import VerifiableGit.Governance.MergeRun

-- The allow-list the run writes, and who is on it.
namespace VerifiableGit.MergeList
open Text Governance

-- A login, whatever its case.
def folded (login : Bytes) : Bytes := login.map lower

theorem same_folded (a b : Bytes) : sameIgnoringCase a b = true ↔ folded a = folded b := by
  rw [sameIgnoringCase,decide_eq_true_eq]
  rfl

theorem contains_folded (list : List Bytes) (login : Bytes) : containsLogin list login = true ↔ folded login ∈ list.map folded := by
  rw [containsLogin,List.any_eq_true,List.mem_map]
  exact exists_congr fun l => and_congr_right fun _ => same_folded l login

-- The accounts added at the end are there once each.
theorem added_contains (adds front : List Bytes) (login : Bytes) :
    containsLogin (adds.foldl (fun next login => if containsLogin next login then next else next ++ [login]) front) login = true ↔
      containsLogin front login = true ∨ ∃ a ∈ adds, folded a = folded login := by
  induction adds generalizing front with
  | nil => simp
  | cons a rest ih =>
    rw [List.foldl_cons,ih]
    have first : containsLogin (if containsLogin front a then front else front ++ [a]) login = true ↔
        containsLogin front login = true ∨ folded a = folded login := by
      split
      · rename_i here
        refine ⟨.inl,fun either => either.elim (fun known => known) fun same => ?_⟩
        rw [contains_folded,same] at here
        exact (contains_folded _ _).mpr here
      · rw [contains_folded,contains_folded,List.map_append,List.mem_append,List.map_singleton,List.mem_singleton]
        exact or_congr_right eq_comm
    rw [first,or_assoc]
    simp

theorem added_once (adds front : List Bytes) (once : (front.map folded).Nodup) :
    ((adds.foldl (fun next login => if containsLogin next login then next else next ++ [login]) front).map folded).Nodup := by
  induction adds generalizing front with
  | nil => exact once
  | cons a rest ih =>
    refine ih _ ?_
    by_cases here : containsLogin front a = true
    · simp only [if_pos here]
      exact once
    · simp only [if_neg here]
      rw [List.map_append]
      refine List.nodup_append.mpr ⟨once,List.nodup_singleton _,fun x member y new equal => here ?_⟩
      rw [List.map_singleton] at new
      have same : y = folded a := List.mem_singleton.mp new
      exact (contains_folded _ _).mpr (same ▸ equal ▸ member)

section
variable {site : Site} {repo : Repository}

theorem mem_current (observed : Observed site.forgejo repo) (id : Nat) (h : Have) :
    (id,h) ∈ repo.current site ↔ site.haveOf repo id = some h := by
  rw [sorted_lookup (current_sorted site repo),current_lookup observed]

theorem have_account {id : Nat} {h : Have} (found : site.haveOf repo id = some h) :
    h.account = site.forgejo.user id ∧ h.listed = repo.listed site id ∧ site.perm repo id = some h.perm := by
  obtain ⟨p,perm,same⟩ := Option.map_eq_some_iff.mp found
  rw [← same]
  exact ⟨rfl,rfl,perm⟩

-- An entry of the list is the account's whose login it is.
theorem idOf_login (observed : Observed site.forgejo repo) {id : Nat} {login : Bytes} (same : folded login = folded (site.forgejo.user id).login) :
    idOf (repo.current site) login = if (site.haveOf repo id).isSome then some id else none := by
  have owner (c : Nat × Have) (inside : c ∈ repo.current site) (here : sameIgnoringCase c.2.account.login login = true) : c.1 = id := by
    have account := (have_account ((mem_current observed c.1 c.2).mp inside)).1
    rw [account,same_folded,same] at here
    exact site.forgejo.unique _ _ ((same_folded _ _).mpr here)
  rw [idOf]
  cases found : (repo.current site).find? fun c => sameIgnoringCase c.2.account.login login with
  | some c =>
    have inside := List.mem_of_find?_eq_some found
    have key := owner c inside (List.find?_some (p := fun c : Nat × Have => sameIgnoringCase c.2.account.login login) found)
    have stands := (mem_current observed c.1 c.2).mp inside
    rw [key] at stands
    have account : c.2.account.id = id := by rw [(have_account stands).1,site.forgejo.user_id]
    rw [Option.map_some,account,stands]
    rfl
  | none =>
    cases stands : site.haveOf repo id with
    | none => rfl
    | some h =>
      have inside := (mem_current observed id h).mpr stands
      refine absurd ?_ (List.find?_eq_none.mp found _ inside)
      rw [(have_account stands).1,same_folded,same]

-- Whether an account's entry outlives the edits.
def stays (site : Site) (repo : Repository) (unlisted : Unlisted) (edits : Edits) (id : Nat) : Prop :=
  if (site.haveOf repo id).isSome then id ∉ edits.listDrop ∧ id ∈ edits.keepListed else unlisted = .keep

theorem next_contains (observed : Observed site.forgejo repo) (unlisted : Unlisted) (edits : Edits) (id : Nat) :
    containsLogin (nextList unlisted (repo.current site) edits (allowOf repo.rule)) (site.forgejo.user id).login = true ↔
      (repo.listed site id = true ∧ stays site repo unlisted edits id) ∨
        ∃ a ∈ edits.listAdd, folded a = folded (site.forgejo.user id).login := by
  rw [nextList,added_contains]
  refine or_congr_left ?_
  have entry (login : Bytes) (same : folded login = folded (site.forgejo.user id).login) :
      login ∈ keptEntries unlisted (repo.current site) edits (allowOf repo.rule) ↔ login ∈ allowOf repo.rule ∧ stays site repo unlisted edits id := by
    rw [keptEntries,List.mem_filter,idOf_login observed same,stays]
    refine and_congr_right fun _ => ?_
    cases (site.haveOf repo id).isSome with
    | true => simp
    | false => cases unlisted <;> simp
  rw [Repository.listed,contains_folded,contains_folded,List.mem_map,List.mem_map]
  constructor
  · intro found
    obtain ⟨login,inside,same⟩ := found
    obtain ⟨listed,kept⟩ := (entry login same).mp inside
    exact ⟨⟨login,listed,same⟩,kept⟩
  · intro both
    obtain ⟨⟨login,listed,same⟩,kept⟩ := both
    exact ⟨login,(entry login same).mpr ⟨listed,kept⟩,same⟩

theorem next_once (observed : Observed site.forgejo repo) (unlisted : Unlisted) (edits : Edits) :
    ((nextList unlisted (repo.current site) edits (allowOf repo.rule)).map folded).Nodup :=
  added_once _ _ (observed.names.sublist (List.filter_sublist.map _))

-- A list that is taken for the same has the same names.
theorem same_contains {rule : ProtectionJson} {allow next : List Bytes} (once : (next.map folded).Nodup) (same : sameList rule allow next = true)
    (login : Bytes) : containsLogin allow login = true ↔ containsLogin next login = true := by
  simp only [sameList,Bool.and_eq_true,decide_eq_true_eq,List.all_eq_true] at same
  obtain ⟨⟨length,inside⟩,_⟩ := same
  have sub : next.map folded ⊆ allow.map folded := by
    intro name member
    obtain ⟨l,listed,equal⟩ := List.mem_map.mp member
    exact equal ▸ (contains_folded _ _).mp (inside l listed)
  have perm : (next.map folded).Perm (allow.map folded) :=
    (once.subperm sub).perm_of_length_le (by simp [length])
  rw [contains_folded,contains_folded,perm.mem_iff]

-- What the write leaves of the list, when its request is answered.
structure Written (site : Site) (next : List Bytes) (repo after : Repository) (requests : List Request) : Prop where
  collaborators : after.collaborators = repo.collaborators
  enabled : ∃ rule, after.rule = some rule ∧ rule.enableMergeWhitelist = true
  list : ∀ login, containsLogin (allowOf after.rule) login = true ↔ containsLogin next login = true
  names : ((allowOf after.rule).map folded).Nodup
  once : (requests.filter Request.isPatch).length ≤ 1
  untouched : requests = [] → after = repo

theorem writeList_written {fails : Call → Option ForgeError} (answered : fails .allowList = none) {rule : ProtectionJson} {start : Repository}
    (unlisted : Unlisted) (edits : Edits) (observed : Observed site.forgejo start) (ruled : start.rule = some rule) (kept : repo.rule = some rule) :
    ∃ after requests, writeList site fails unlisted (start.current site) edits rule repo = (.ok edits.changes,after,requests) ∧
      Written site (nextList unlisted (start.current site) edits (allowOf start.rule)) repo after requests := by
  have once := next_once observed unlisted edits
  rw [ruled] at once ⊢
  rw [writeList]
  cases same : sameList rule (allowOf (some rule)) (nextList unlisted (start.current site) edits (allowOf (some rule))) with
  | true =>
    have enabled : rule.enableMergeWhitelist = true := by
      simp only [sameList,Bool.and_eq_true] at same
      exact same.2
    refine ⟨repo,[],rfl,rfl,⟨rule,kept,enabled⟩,fun login => ?_,?_,by simp,fun _ => rfl⟩
    · rw [kept]
      exact same_contains once same login
    · rw [kept,← ruled]
      exact observed.names
  | false =>
    let request : Request := .patchRule (rule.name.getD []) (nextList unlisted (start.current site) edits (allowOf (some rule)))
    refine ⟨site.forgejo.perform repo request,[request],?_,rfl,⟨_,by rw [Forgejo.perform,kept]; rfl,rfl⟩,fun login => ?_,?_,List.length_filter_le _ _,nofun⟩
    · rw [answered]
      rfl
    · rw [Forgejo.perform,kept]
      rfl
    · rw [Forgejo.perform,kept]
      exact once

end

/-! A whole run, with a rule to write to -/

section
variable {site : Site} {fails : Call → Option ForgeError} {unlisted : Unlisted} {repo : Repository} {desired : List RoleAssignment} {wanted : Wanted}

-- All requests but those for one account are answered.
structure PerAccount (fails : Call → Option ForgeError) : Prop where
  locate : fails .locate = none
  repo : fails .repo = none
  rule : fails .rule = none
  collaborators : fails .collaborators = none
  allowList : fails .allowList = none

theorem prepare_ready (answers : PerAccount fails) (repo : Repository) (run : wantedFrom site.adapter [] (site.adapter.expressible desired) = .ok wanted) :
    prepare site fails desired repo = .ok (repo.current site,wanted) := by
  simp only [prepare,ask,answers.locate,answers.repo,answers.rule,answers.collaborators,run]
  rfl

def itemsOf (site : Site) (fails : Call → Option ForgeError) (unlisted : Unlisted) (wanted : Wanted) (repo : Repository) : List Item :=
  (wanted.map fun x => wantedItem site fails (site.haveOf repo x.1) x) ++ (unasked wanted (repo.current site)).map (unlistedItem fails unlisted)

def Site.turn (site : Site) (fails : Call → Option ForgeError) (repo : Repository) (id : Nat) (role : ForgeRole) : Turn :=
  turnFor site fails id (site.haveOf repo id) role

-- Some request gets an answer that ends the run.
def Stopped (site : Site) (fails : Call → Option ForgeError) (unlisted : Unlisted) (wanted : Wanted) (repo : Repository) : Prop :=
  (∃ x ∈ wanted, ∃ e, site.turn fails repo x.1 x.2.2 = .stopped e) ∨
    unlisted = .remove ∧ ∃ x ∈ unasked wanted (repo.current site), ∃ e, removeTurn fails x.1 = .stopped e

theorem read_stands (observed : Observed site.forgejo repo) (read : Read site.adapter desired wanted) :
    Stands site (repo.current site) repo (wanted.map Prod.fst) where
  observed := observed
  once := sorted_keys read.sorted
  perm id member := by
    obtain ⟨x,inside,same⟩ := List.mem_map.mp member
    obtain ⟨_,_,_,_,other⟩ := read.asked x inside
    rw [current_lookup observed,Site.haveOf,Site.perm,if_neg (same ▸ other),Option.map_map]
    exact Option.map_id.symm ▸ rfl
  known id _ h found := by
    rw [current_lookup observed] at found
    exact (have_account found).1

theorem applyRoles_ruled {current : Current} (ready : prepare site fails desired repo = .ok (current,wanted)) {rule : ProtectionJson}
    (ruled : repo.rule = some rule) : applyRoles site fails desired unlisted repo =
      match wantedLoop site fails true current wanted {} repo with
      | (.error e,after,requests) => (.error e,after,requests)
      | (.ok asked,middle,first) =>
        match unlistedLoop site fails unlisted wanted current asked middle with
        | (.error e,after,requests) => (.error e,after,first ++ requests)
        | (.ok edits,last,second) =>
          let (result,after,third) := writeList site fails unlisted current edits rule last
          (result.map (reportOf edits),after,first ++ second ++ third) := by
  rw [applyRoles,ready,ruled]
  rfl

-- The loops one after the other.
theorem passed_whole {asked edits : Edits} {middle last : Repository} (observed : Observed site.forgejo repo) (read : Read site.adapter desired wanted)
    (passed : Passed site (wanted.map fun x => wantedItem site fails ((repo.current site).lookup x.1) x) {} asked repo middle)
    (passed' : Passed site ((unasked wanted (repo.current site)).map (unlistedItem fails unlisted)) asked edits middle last) :
    Passed site (itemsOf site fails unlisted wanted repo) {} edits repo last := by
  have looks : (fun x : Nat × ForgeAccount × ForgeRole => wantedItem site fails ((repo.current site).lookup x.1) x) =
      fun x => wantedItem site fails (site.haveOf repo x.1) x := funext fun x => by rw [current_lookup observed]
  rw [itemsOf,← looks]
  refine passed_append passed passed' fun i front j back => ?_
  obtain ⟨x,inside,here⟩ := List.mem_map.mp front
  obtain ⟨y,beyond,there⟩ := List.mem_map.mp back
  have key : j.id = y.1 := by rw [← there]; cases unlisted <;> rfl
  intro equal
  have same : y.1 = x.1 := by rw [← key,← equal,← here]; rfl
  have absent := (List.mem_filter.mp beyond).2
  rw [same,(sorted_lookup read.sorted).mp (show (x.1,x.2) ∈ wanted from inside)] at absent
  cases absent

variable (fails unlisted) in
theorem run_cases (answers : PerAccount fails) (observed : Observed site.forgejo repo) {rule : ProtectionJson} (ruled : repo.rule = some rule)
    (run : wantedFrom site.adapter [] (site.adapter.expressible desired) = .ok wanted) (read : Read site.adapter desired wanted) :
    (Stopped site fails unlisted wanted repo ∧ ∃ e after requests, applyRoles site fails desired unlisted repo = (.error e,after,requests) ∧
      after.rule = repo.rule ∧ ∀ r ∈ requests, r.isPatch = false) ∨
    ¬Stopped site fails unlisted wanted repo ∧ ∃ edits middle after last requests,
      applyRoles site fails desired unlisted repo = (.ok (reportOf edits edits.changes),after,requests) ∧
      Passed site (itemsOf site fails unlisted wanted repo) {} edits repo middle ∧
      Written site (nextList unlisted (repo.current site) edits (allowOf repo.rule)) middle after last ∧
      (requests.filter Request.isPatch).length ≤ 1 := by
  have unruled : ∀ l : List Request, (∀ r ∈ l, r.isPatch = false) → l.filter Request.isPatch = [] := by
    intro l plain
    rw [List.filter_eq_nil_iff]
    intro r member patch
    rw [plain r member] at patch
    cases patch
  rw [applyRoles_ruled (prepare_ready answers repo run) ruled]
  obtain ⟨⟨x,member,e,stopped⟩,e',after,requests,loop,kept,plain⟩ | ⟨going,asked,middle,first,loop,passed,plain⟩ :=
    wantedLoop_items fails {} (read_stands observed read)
  · rw [current_lookup observed] at stopped
    refine .inl ⟨.inl ⟨x,member,e,stopped⟩,e',after,requests,?_,kept,plain⟩
    rw [loop]
  rw [loop]
  dsimp only
  have once : ((repo.current site).map Prod.fst).Nodup := sorted_keys (current_sorted site repo)
  have known : ∀ x ∈ repo.current site, x.2.account = site.forgejo.user x.1 :=
    fun x member => (have_account ((mem_current observed x.1 x.2).mp member)).1
  obtain ⟨⟨remove,x,member,e,stopped⟩,e',after,requests,loop',kept,plain'⟩ | ⟨each,edits,last,second,loop',passed',plain'⟩ :=
    unlistedLoop_items fails unlisted wanted asked passed.observed once known
  · refine .inl ⟨.inr ⟨remove,x,member,e,stopped⟩,e',after,first ++ requests,?_,kept.trans passed.rule,?_⟩
    · rw [loop']
    · intro r inside
      exact (List.mem_append.mp inside).elim (plain r) (plain' r)
  rw [loop']
  dsimp only
  have whole := passed_whole observed read passed passed'
  obtain ⟨after,third,written,list⟩ := writeList_written answers.allowList unlisted edits observed ruled (whole.rule.trans ruled)
  refine .inr ⟨?_,edits,last,after,third,first ++ second ++ third,?_,whole,list,?_⟩
  · intro stopped
    cases stopped with
    | inl wanted_ =>
      obtain ⟨x,member,e,stops⟩ := wanted_
      refine going x member e ?_
      rw [current_lookup observed]
      exact stops
    | inr removed =>
      obtain ⟨remove,x,member,e,stops⟩ := removed
      exact each remove x member e stops
  · rw [written]
    rfl
  · rw [List.filter_append,List.filter_append,unruled first plain,unruled second plain']
    exact list.once

end

end VerifiableGit.MergeList
