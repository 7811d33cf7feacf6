import VerifiableGit.Governance.RoleMaps

-- Whether a repository that is not reported stale has the roles of the map in
-- force, over changes of the configuration, projections that take whole, ones
-- that do not and the ones that repair these.
namespace VerifiableGit.Governance
open Text Library

-- `holds`: the direct role each account has on the forge, a pending invitation's
-- included. `owed`: the right the VTC has an account at that the bridge gave a
-- role and that no later job was to remove. `mixed`: a job since the last that
-- took whole has left some accounts with other roles than the recorded map's.
structure Side where
  record : Option RepoRecord := none
  holds : Nat → ForgeRole := fun _ => .none
  owed : List (Nat × Right) := []
  mixed : Bool := false

-- The changes the forge carries out, up to a fatal answer.
def landed (adapter : Adapter) (answers : RolesAnswers) (current : Standing) :
    List (ForgeAccount × ForgeRole) → List (ForgeAccount × ForgeRole)
  | [] => []
  | x :: rest =>
    let sent := !(x.2 = .none && adapter.isOwnBot (current.of x.1.id))
    let here := if sent && ((answers.forge.reply x.1.id).isOk || answers.took x.1.id) then [x] else []
    if stops adapter answers.forge current x then here else here ++ landed adapter answers current rest

-- What the job is when it comes to the changes, the standing read and the roles
-- wanted.
structure Reached where
  job : RolesJob
  current : Standing
  wanted : Wanted

section
variable (ns : RoleNamespace) (map : RoleMap) (side : Side) (job : ProjectRoles) (answers : RolesAnswers)

def reachedForge : Option Reached :=
  match preparedJob ns map side.record job answers with
  | .error _ => none
  | .ok prepared =>
    match ns.adapter.prepare answers.forge (ns.adapter.expressible (wantOf side.record prepared)) with
    | .error _ => none
    | .ok (current,wanted) => some ⟨prepared,current,wanted⟩

def carriedOut : List (ForgeAccount × ForgeRole) :=
  match reachedForge ns map side job answers with
  | none => []
  | some r => landed ns.adapter answers r.current (todoOf r.current r.wanted)

-- Whom the job lists at a right the map has a role for, and does not remove.
def listedRoles : List (Nat × Right) :=
  (job.roles.filter fun r => ns.adapter.mapRole (.fromGranted [r.right]) map ≠ .none &&
    job.remove.all (·.id ≠ r.account.id)).map fun r => (r.account.id,r.right)

def takeEffect (holds : Nat → ForgeRole) (changes : List (ForgeAccount × ForgeRole)) : Nat → ForgeRole :=
  changes.foldl (fun holds x => Function.update holds x.1.id x.2) holds

def isChanged (changes : List (ForgeAccount × ForgeRole)) (account : Nat) : Bool := changes.any (·.1.id = account)

def isOwed (account : Nat) : Bool := side.owed.any (·.1 = account)

-- Whom the job lists that has a role from the bridge or gets one by it.
def concerned : List (Nat × Right) :=
  (listedRoles ns map job).filter fun x => isOwed side x.1 || isChanged (carriedOut ns map side job answers) x.1

-- The default map as the forge applies it.
def standardMap : RoleMap := (ns.adapter.effectiveFor RoleMap.default).getD RoleMap.default

-- The map the report takes the repository to be projected under, once its roles
-- are known.
def Side.recorded : Option RoleMap :=
  side.record.bind fun r => if r.rolesKnown then some (r.roleMap.getD (standardMap ns)) else none

-- Every request accepted, no removal refused, and nobody removed with other
-- access left.
def everyRoleTook : Bool :=
  match reachedForge ns map side job answers with
  | none => false
  | some r => ((todoOf r.current r.wanted).all fun x => (answers.forge.reply x.1.id).isOk &&
      !(x.2 = .none && ns.adapter.isOwnBot (r.current.of x.1.id))) &&
    r.job.removals.refused = [] && r.job.removals.remove.all fun a => answers.forge.indirect a.id matches .ok none

-- No answer is fatal.
def gotThrough : Bool :=
  match reachedForge ns map side job answers with
  | none => false
  | some r => (todoOf r.current r.wanted).all fun x => !stops ns.adapter answers.forge r.current x

-- The map the report goes by while the repository's last whole projection is the
-- one on record: the record's own, and the default one where it has none, once a
-- job has come to its end.
def readAs : Option RoleMap :=
  if gotThrough ns map side job answers then some ((side.record.bind (·.roleMap)).getD (standardMap ns))
  else side.recorded ns

-- The map in force's role for an account whose request the forge carries out, and
-- the role it has for any other.
def roleAfter (x : Nat × Right) : ForgeRole :=
  if isChanged (carriedOut ns map side job answers) x.1 then ns.adapter.mapRole (.fromGranted [x.2]) map else side.holds x.1

-- Some account is given, or left with, another role than the recorded map's.
def mixes : Bool :=
  (concerned ns map side job answers).any fun x =>
    (readAs ns map side job answers).map (·.role x.2) ≠ some (roleAfter ns map side job answers x)

def Side.project : Side :=
  { record := (projectRoles ns map side.record job answers).record
    holds := takeEffect side.holds (carriedOut ns map side job answers)
    owed := concerned ns map side job answers
    mixed := !everyRoleTook ns map side job answers && (side.mixed || mixes ns map side job answers) }

-- Projected under another map than the one in force, as far as is on record.
def Lags (recorded : Option RoleMap) : Prop := ∃ m, recorded = some m ∧ some m ≠ ns.adapter.effectiveFor map

-- No account that has a role from the bridge keeps one that is not the one it is
-- listed at: it has that already, or the forge carries its request out.
def LeavesNone : Prop := ∀ x ∈ listedRoles ns map job, isOwed side x.1 = true →
  isChanged (carriedOut ns map side job answers) x.1 = true ∨ side.holds x.1 = ns.adapter.mapRole (.fromGranted [x.2]) map

-- A job takes whole, or runs under another map than the record shows, or leaves
-- nobody behind. What ends a job before there is a record is in no report.
def JobFits : Prop :=
  everyRoleTook ns map side job answers = true ∨ side.record = none ∧ gotThrough ns map side job answers = false ∨
    Lags ns map (readAs ns map side job answers) ∨ LeavesNone ns map side job answers

-- While its roles are mixed, a repository with a record is not given the recorded
-- map back, nor, where the record shows no other map, other roles.
def MapFits (new : RoleMap) : Prop := side.mixed = true →
  side.record = none ∨ Lags ns new (side.recorded ns) ∨ ¬Lags ns map (side.recorded ns) ∧
    ∀ x ∈ side.owed, ns.adapter.mapRole (.fromGranted [x.2]) new = ns.adapter.mapRole (.fromGranted [x.2]) map

-- Nobody else changes roles: the forge lists what the bridge left.
def NobodyElse : Prop := ∀ collaborators invitations, answers.forge.collaborators = .ok collaborators →
  answers.forge.invitations = .ok invitations → ∀ account, some account ≠ ns.adapter.personalOwner →
  (currentOf ns.adapter collaborators invitations).have_ account = side.holds account

end

-- The recorded map has the role of every account the bridge owes one, unless the
-- roles are mixed; then a record there is shows another map than the one in force,
-- or the roles are those of the map in force.
structure Side.Sound (ns : RoleNamespace) (map : RoleMap) (side : Side) : Prop where
  known : side.mixed = false → ∀ x ∈ side.owed, (side.recorded ns).map (·.role x.2) = some (side.holds x.1)
  mixed : side.mixed = true → side.record = none ∨ Lags ns map (side.recorded ns) ∨
    ∀ x ∈ side.owed, side.holds x.1 = ns.adapter.mapRole (.fromGranted [x.2]) map
  other : ∀ x ∈ side.owed, some x.1 ≠ ns.adapter.personalOwner

section
variable {ns : RoleNamespace} {map : RoleMap} {side : Side} {job : ProjectRoles} {answers : RolesAnswers}

/-! What takes effect -/

theorem takeEffect_role (holds : Nat → ForgeRole) (changes : List (ForgeAccount × ForgeRole)) (account : Nat)
    (role : ForgeRole) (same : ∀ x ∈ changes, x.1.id = account → x.2 = role) :
    takeEffect holds changes account = if isChanged changes account then role else holds account := by
  induction changes generalizing holds with
  | nil => rfl
  | cons x rest ih =>
    have later := ih (Function.update holds x.1.id x.2) fun y member => same y (List.mem_cons_of_mem _ member)
    have step : takeEffect holds (x :: rest) account = takeEffect (Function.update holds x.1.id x.2) rest account := rfl
    have either : isChanged (x :: rest) account = (decide (x.1.id = account) || isChanged rest account) := rfl
    rw [step,later,either]
    by_cases here : x.1.id = account
    · have given := same x List.mem_cons_self here
      rw [decide_eq_true here,Bool.true_or,if_pos rfl,here.symm,Function.update_self,given,ite_self]
    · rw [decide_eq_false here,Bool.false_or,Function.update_of_ne (Ne.symm here)]

theorem landed_asked (adapter : Adapter) (current : Standing) (todo : List (ForgeAccount × ForgeRole))
    (x : ForgeAccount × ForgeRole) (member : x ∈ landed adapter answers current todo) : x ∈ todo := by
  induction todo with
  | nil => exact member
  | cons y rest ih =>
    simp only [landed] at member
    have one : ∀ sent : Bool, x ∈ (if sent then [y] else []) → x ∈ y :: rest := by
      intro sent here
      cases sent with
      | false => cases here
      | true => exact List.mem_cons.mpr (.inl (List.mem_singleton.mp here))
    split at member
    · exact one _ member
    · cases List.mem_append.mp member with
      | inl here => exact one _ here
      | inr later => exact List.mem_cons_of_mem _ (ih later)

-- With every request accepted, each is carried out.
theorem landed_all (adapter : Adapter) (current : Standing) (todo : List (ForgeAccount × ForgeRole))
    (accepted : ∀ x ∈ todo, Accepted answers.forge x.1.id ∧ ¬(x.2 = .none ∧ adapter.isOwnBot (current.of x.1.id) = true)) :
    landed adapter answers current todo = todo := by
  induction todo with
  | nil => rfl
  | cons x rest ih =>
    obtain ⟨ok,sent⟩ := accepted x List.mem_cons_self
    have later := ih fun y member => accepted y (List.mem_cons_of_mem _ member)
    have going : stops adapter answers.forge current x = false := by
      cases reply : answers.forge.reply x.1.id with
      | ok b => simp [stops,reply]
      | error e => simp [Accepted,reply,Except.isOk,Except.toBool] at ok
    have here : (!(x.2 = .none && adapter.isOwnBot (current.of x.1.id))) = true := by
      simpa only [Bool.not_eq_true',Bool.and_eq_false_iff,decide_eq_false_iff_not,Bool.not_eq_true,not_and_or] using sent
    have answered : (answers.forge.reply x.1.id).isOk = true := ok
    simp [landed,going,here,answered,later]

/-! What a listed account's request comes to -/

theorem dropAccount_other (account : ForgeAccount) (want : List RoleAssignment) (a : RoleAssignment) (member : a ∈ want)
    (other : a.account.id ≠ account.id) : a ∈ dropAccount account want := by
  induction want with
  | nil => cases member
  | cons w rest ih =>
    unfold dropAccount
    split
    · next same =>
      cases List.mem_cons.mp member with
      | inl first => exact absurd (first ▸ same) other
      | inr later => exact List.mem_cons_of_mem _ later
    · cases List.mem_cons.mp member with
      | inl first => exact first ▸ List.mem_cons_self
      | inr later => exact List.mem_cons_of_mem _ (ih later)

theorem want_kept (record : Option RepoRecord) (job : RolesJob) (a : RoleAssignment) (member : a ∈ job.desired)
    (stays : ∀ account ∈ job.removals.remove, a.account.id ≠ account.id) : a ∈ wantOf record job := by
  have removals : ∀ (accounts : List ForgeAccount) (want : List RoleAssignment),
      (∀ account ∈ accounts, a.account.id ≠ account.id) → a ∈ want →
      a ∈ accounts.foldl (fun want account => dropAccount account want) want := by
    intro accounts
    induction accounts with
    | nil => exact fun _ _ here => here
    | cons account rest ih =>
      intro want others here
      obtain ⟨first,later⟩ := List.forall_mem_cons.mp others
      exact ih _ later (dropAccount_other account want a here first)
  exact removals _ _ stays (dropFormers_keep _ _ _ member)

-- An account wanted at a role is asked for no other, and asked for where it has
-- another.
theorem wanted_asked (adapter : Adapter) (forge : RolesForge) (desired : List RoleAssignment) (current : Standing)
    (wanted : Wanted) (prepared : adapter.prepare forge desired = .ok (current,wanted)) (a : RoleAssignment)
    (member : a ∈ desired) (other : some a.account.id ≠ adapter.personalOwner) :
    (∀ x ∈ todoOf current wanted, x.1.id = a.account.id → x.2 = collapseToLadder a.role adapter.ladder) ∧
      (current.have_ a.account.id ≠ collapseToLadder a.role adapter.ladder →
        ∃ x ∈ todoOf current wanted, x.1.id = a.account.id) := by
  obtain ⟨listed,origin⟩ := wantedFrom_ok adapter _ _ _ (prepare_wanted adapter forge desired current wanted prepared)
  have kept : a ∈ adapter.expressible desired := List.mem_filter.mpr ⟨member,decide_eq_true other⟩
  obtain ⟨account,found⟩ := listed a (.inl kept)
  constructor
  · intro x asked same
    obtain ⟨w,inside,rfl⟩ := List.mem_map.mp asked
    obtain ⟨b,here,rfl⟩ := (origin w (List.mem_filter.mp inside).1).resolve_left List.not_mem_nil
    obtain ⟨_,there⟩ := listed b (.inl here)
    have key : b.account.id = a.account.id := same
    rw [key,found] at there
    exact (congrArg Prod.snd (Option.some.inj there)).symm
  · intro differs
    have inside := lookup_mem wanted _ _ found
    obtain ⟨b,_,eq⟩ := (origin _ inside).resolve_left List.not_mem_nil
    have key : account.id = a.account.id := by
      have first : a.account.id = b.account.id := congrArg Prod.fst eq
      have second : account = b.account := congrArg (·.2.1) eq
      rw [first,second]
    exact ⟨(account,_),List.mem_map.mpr ⟨_,List.mem_filter.mpr ⟨inside,decide_eq_true differs⟩,rfl⟩,key⟩

theorem desiredRoles_ok (roles : List DesiredRole) (desired : List RoleAssignment × List ForgeAccount)
    (h : desiredRoles ns map roles = .ok desired) :
    desired.1 = roles.map fun r => ⟨r.account,ns.adapter.mapRole (.fromGranted [r.right]) map⟩ := by
  induction roles generalizing desired with
  | nil =>
    cases h
    rfl
  | cons r rest ih =>
    unfold desiredRoles at h
    split at h
    · cases h
    · cases later : desiredRoles ns map rest with
      | error e => simp [later,bind,Except.bind] at h
      | ok found =>
        rw [later] at h
        cases h
        rw [List.map_cons,← ih found later]

theorem reached_prepared {r : Reached} (reached : reachedForge ns map side job answers = some r) :
    preparedJob ns map side.record job answers = .ok r.job ∧
      ns.adapter.prepare answers.forge (ns.adapter.expressible (wantOf side.record r.job)) = .ok (r.current,r.wanted) := by
  unfold reachedForge at reached
  split at reached
  · cases reached
  · next prepared found =>
    split at reached
    · cases reached
    · next current wanted read =>
      cases reached
      exact ⟨found,read⟩

theorem prepared_job {prepared : RolesJob} (h : preparedJob ns map side.record job answers = .ok prepared) :
    ∃ forgeId desired, desiredRoles ns map job.roles = .ok desired ∧ prepared = rolesJob ns map job forgeId desired := by
  unfold preparedJob at h
  split at h
  · cases h
  · next desired listed =>
    split at h
    · cases h
    · next forgeId _ =>
      cases h
      exact ⟨forgeId,desired,listed,rfl⟩

-- What is asked of the forge for an account that the job lists and removes not.
theorem listed_asked {r : Reached} (reached : reachedForge ns map side job answers = some r) {x : Nat × Right}
    (listed : x ∈ listedRoles ns map job) (other : some x.1 ≠ ns.adapter.personalOwner) :
    (∀ y ∈ todoOf r.current r.wanted, y.1.id = x.1 → y.2 = ns.adapter.mapRole (.fromGranted [x.2]) map) ∧
      (r.current.have_ x.1 ≠ ns.adapter.mapRole (.fromGranted [x.2]) map → ∃ y ∈ todoOf r.current r.wanted, y.1.id = x.1) := by
  obtain ⟨found,read⟩ := reached_prepared reached
  obtain ⟨forgeId,desired,roles,made⟩ := prepared_job found
  obtain ⟨d,inside,rfl⟩ := List.mem_map.mp listed
  obtain ⟨member,keeps⟩ := List.mem_filter.mp inside
  have stays : ∀ a ∈ job.remove, d.account.id ≠ a.id := by
    intro a removed
    have all := List.all_eq_true.mp (Bool.and_eq_true_iff.mp keeps).2 a removed
    exact fun same => of_decide_eq_true all same.symm
  have asked : ⟨d.account,ns.adapter.mapRole (.fromGranted [d.right]) map⟩ ∈ r.job.desired := by
    rw [made]
    show _ ∈ desired.1
    rw [desiredRoles_ok _ _ roles]
    exact List.mem_map.mpr ⟨d,member,rfl⟩
  have removals : ∀ a ∈ r.job.removals.remove, d.account.id ≠ a.id := by
    rw [made]
    exact fun a removed => stays a (List.mem_filter.mp removed).1
  have want := want_kept side.record r.job _ asked removals
  have express : ⟨d.account,ns.adapter.mapRole (.fromGranted [d.right]) map⟩ ∈
      ns.adapter.expressible (wantOf side.record r.job) := List.mem_filter.mpr ⟨want,decide_eq_true other⟩
  have facts := wanted_asked ns.adapter answers.forge _ r.current r.wanted read _ express other
  have round : collapseToLadder (ns.adapter.mapRole (.fromGranted [d.right]) map) ns.adapter.ladder =
      ns.adapter.mapRole (.fromGranted [d.right]) map := collapse_collapse _ _
  rw [round] at facts
  exact facts

theorem carriedOut_asked {r : Reached} (reached : reachedForge ns map side job answers = some r)
    (y : ForgeAccount × ForgeRole) (member : y ∈ carriedOut ns map side job answers) :
    y ∈ todoOf r.current r.wanted := by
  simp only [carriedOut,reached] at member
  exact landed_asked ns.adapter r.current _ y member

-- The personal account's owner is asked for nothing.
theorem changed_other (account : Nat) (changed : isChanged (carriedOut ns map side job answers) account = true) :
    some account ≠ ns.adapter.personalOwner := by
  obtain ⟨y,member,same⟩ := List.any_eq_true.mp changed
  cases reached : reachedForge ns map side job answers with
  | none => simp [carriedOut,reached] at member
  | some r =>
    obtain ⟨⟨a,_,eq,other⟩,_⟩ := todo_asked ns.adapter answers.forge _ r.current r.wanted (reached_prepared reached).2 y
      (carriedOut_asked reached y member)
    have key : y.1.id = account := of_decide_eq_true same
    rw [← key,congrArg Prod.fst eq]
    exact other

theorem project_holds {x : Nat × Right} (listed : x ∈ listedRoles ns map job)
    (other : some x.1 ≠ ns.adapter.personalOwner) :
    (side.project ns map job answers).holds x.1 = roleAfter ns map side job answers x := by
  refine takeEffect_role side.holds _ x.1 _ fun y member same => ?_
  cases reached : reachedForge ns map side job answers with
  | none => simp [carriedOut,reached] at member
  | some r => exact (listed_asked reached listed other).1 y (carriedOut_asked reached y member) same

/-! What the job records -/

theorem remaining_none (forge : RolesForge) (removed : List ForgeAccount) (applied : ApplyReport)
    (fine : ∀ c ∈ applied.changes, ∀ why, c.outcome ≠ .failed why) :
    remainingAccess forge removed applied = [] ↔ ∀ a ∈ removed, forge.indirect a.id = .ok none := by
  unfold remainingAccess
  rw [List.filterMap_eq_nil_iff]
  refine forall₂_congr fun a _ => ?_
  split
  · next failed =>
    obtain ⟨c,member,both⟩ := List.any_eq_true.mp failed
    have no := fine c member
    cases outcome : c.outcome with
    | failed why => exact absurd outcome (no why)
    | applied | invited => simp [outcome] at both
  · cases forge.indirect a.id with
    | error e => simp
    | ok access => cases access <;> simp

-- With no fatal answer, every change was made or failed, and none failed where
-- every request was accepted.
theorem changes_fine {r : Reached} (reached : reachedForge ns map side job answers = some r)
    (through : ∀ x ∈ todoOf r.current r.wanted, stops ns.adapter answers.forge r.current x = false) :
    (changeAll ns.adapter answers.forge r.current (todoOf r.current r.wanted)).2 = .ok () ∧
      ((∀ c ∈ (changeAll ns.adapter answers.forge r.current (todoOf r.current r.wanted)).1, ∀ why, c.outcome ≠ .failed why) ↔
        ∀ x ∈ todoOf r.current r.wanted, Accepted answers.forge x.1.id ∧
          ¬(x.2 = .none ∧ ns.adapter.isOwnBot (r.current.of x.1.id) = true)) := by
  have asked := todo_asked ns.adapter answers.forge _ r.current r.wanted (reached_prepared reached).2
  obtain ⟨made,all,broken⟩ := changeAll_facts ns.adapter answers.forge r.current _ fun x member => (asked x member).2
  have whole : Governance.reached ns.adapter answers.forge r.current (todoOf r.current r.wanted) = todoOf r.current r.wanted :=
    List.takeWhile_eq_self_iff.mpr fun x member => by rw [through x member]; rfl
  have ended : (changeAll ns.adapter answers.forge r.current (todoOf r.current r.wanted)).2 = .ok () := by
    cases result : (changeAll ns.adapter answers.forge r.current (todoOf r.current r.wanted)).2 with
    | ok _ => rfl
    | error e => exact absurd whole (broken e result)
  refine ⟨ended,?_,?_⟩
  · intro fine x member
    obtain ⟨c,here,done⟩ := (all ended).2 x member
    obtain ⟨d,found,accepted⟩ := (change_cases ns.adapter answers.forge r.current x (asked x member).2).2 (through x member)
    rw [found] at done
    cases done
    exact accepted.mp (fine c here)
  · intro accepted c member
    obtain ⟨x,here,done⟩ := made c member
    have inside : x ∈ todoOf r.current r.wanted := List.takeWhile_subset _ here
    obtain ⟨d,found,iff⟩ := (change_cases ns.adapter answers.forge r.current x (asked x inside).2).2 (through x inside)
    rw [found] at done
    cases done
    exact iff.mpr (accepted x inside)

theorem unreached_record (reached : reachedForge ns map side job answers = none) :
    (projectRoles ns map side.record job answers).record = side.record := by
  unfold projectRoles
  unfold reachedForge at reached
  cases found : preparedJob ns map side.record job answers with
  | error failure => rfl
  | ok prepared =>
    simp only [found] at reached
    cases read : ns.adapter.prepare answers.forge (ns.adapter.expressible (wantOf side.record prepared)) with
    | error e =>
      have eq : ns.adapter.applyRoles answers.forge (ns.adapter.expressible (wantOf side.record prepared)) = (none,.error e) := by
        simp only [Adapter.applyRoles,read]
      simp only [applyRoles,eq]
    | ok both => simp [read] at reached

theorem reached_record {r : Reached} (reached : reachedForge ns map side job answers = some r) :
    (projectRoles ns map side.record job answers).record =
      (applyRoles ns.adapter answers.forge side.record r.job).record ∧
    ns.adapter.applyRoles answers.forge (ns.adapter.expressible (wantOf side.record r.job)) =
      (some (r.current,(changeAll ns.adapter answers.forge r.current (todoOf r.current r.wanted)).1),
        (changeAll ns.adapter answers.forge r.current (todoOf r.current r.wanted)).2.map fun _ =>
          reportOf r.current r.wanted (changeAll ns.adapter answers.forge r.current (todoOf r.current r.wanted)).1) := by
  obtain ⟨found,read⟩ := reached_prepared reached
  constructor
  · unfold projectRoles
    rw [found]
  · simp only [Adapter.applyRoles,read]

theorem fatal_record {r : Reached} (reached : reachedForge ns map side job answers = some r)
    (fatal : ¬∀ x ∈ todoOf r.current r.wanted, stops ns.adapter answers.forge r.current x = false) :
    (projectRoles ns map side.record job answers).record = side.record := by
  obtain ⟨same,applied⟩ := reached_record reached
  have asked := todo_asked ns.adapter answers.forge _ r.current r.wanted (reached_prepared reached).2
  obtain ⟨_,all,_⟩ := changeAll_facts ns.adapter answers.forge r.current _ fun x member => (asked x member).2
  cases result : (changeAll ns.adapter answers.forge r.current (todoOf r.current r.wanted)).2 with
  | ok _ =>
    have whole := List.takeWhile_eq_self_iff.mp (all result).1
    exact absurd (fun x member => by simpa using whole x member) fatal
  | error e =>
    rw [result] at applied
    rw [same]
    simp only [applyRoles,applied,Except.map]

theorem unfailed_outcome (c : RoleChange) : c.failure = none ↔ ∀ why, c.outcome ≠ .failed why := by
  unfold RoleChange.failure
  cases c.outcome <;> simp

theorem took_exact {r : Reached} (reached : reachedForge ns map side job answers = some r) :
    everyRoleTook ns map side job answers = true ↔
      (∀ x ∈ todoOf r.current r.wanted, Accepted answers.forge x.1.id ∧
        ¬(x.2 = .none ∧ ns.adapter.isOwnBot (r.current.of x.1.id) = true)) ∧
      r.job.removals.refused = [] ∧ ∀ a ∈ r.job.removals.remove, answers.forge.indirect a.id = .ok none := by
  have ask (x : ForgeAccount × ForgeRole) : ((answers.forge.reply x.1.id).isOk &&
      !(x.2 = .none && ns.adapter.isOwnBot (r.current.of x.1.id))) = true ↔
      Accepted answers.forge x.1.id ∧ ¬(x.2 = .none ∧ ns.adapter.isOwnBot (r.current.of x.1.id) = true) := by
    rw [Bool.and_eq_true]
    refine and_congr_right fun _ => ?_
    by_cases none_ : x.2 = .none <;> simp [none_]
  have left (a : ForgeAccount) : (answers.forge.indirect a.id matches .ok none) = true ↔
      answers.forge.indirect a.id = .ok none := by
    cases answers.forge.indirect a.id with
    | error e => simp
    | ok access => cases access <;> simp
  simp only [everyRoleTook,reached,Bool.and_eq_true,List.all_eq_true,decide_eq_true_eq,and_assoc]
  simp only [← Bool.and_eq_true,ask,left]

-- A report without a failure is one of a job whose roles all took.
theorem took_failures {r : Reached} (reached : reachedForge ns map side job answers = some r)
    (through : ∀ x ∈ todoOf r.current r.wanted, stops ns.adapter answers.forge r.current x = false) :
    r.job.removals.refused ++
      (changeAll ns.adapter answers.forge r.current (todoOf r.current r.wanted)).1.filterMap RoleChange.failure ++
      remainingAccess answers.forge r.job.removals.remove (reportOf r.current r.wanted
        (changeAll ns.adapter answers.forge r.current (todoOf r.current r.wanted)).1) = [] ↔
      everyRoleTook ns map side job answers = true := by
  have fine := (changes_fine reached through).2
  have remaining := remaining_none answers.forge r.job.removals.remove (reportOf r.current r.wanted
    (changeAll ns.adapter answers.forge r.current (todoOf r.current r.wanted)).1)
  rw [took_exact reached,List.append_eq_nil_iff,List.append_eq_nil_iff,List.filterMap_eq_nil_iff]
  simp only [unfailed_outcome,fine]
  constructor
  · intro ⟨⟨refused,accepted⟩,left⟩
    exact ⟨accepted,refused,(remaining (fine.mpr accepted)).mp left⟩
  · intro ⟨accepted,refused,left⟩
    exact ⟨⟨refused,accepted⟩,(remaining (fine.mpr accepted)).mpr left⟩

theorem through_record {r : Reached} (reached : reachedForge ns map side job answers = some r)
    (through : ∀ x ∈ todoOf r.current r.wanted, stops ns.adapter answers.forge r.current x = false) :
    (projectRoles ns map side.record job answers).record =
      some (recordRoles side.record r.job (if everyRoleTook ns map side job answers then r.job.effective else none)) := by
  obtain ⟨same,applied⟩ := reached_record reached
  rw [(changes_fine reached through).1] at applied
  have complete := took_failures reached through
  rw [same]
  simp only [applyRoles,applied,Except.map,reportOf]
  by_cases took : everyRoleTook ns map side job answers = true
  · have none_ := complete.mpr took
    simp only [reportOf] at none_
    rw [if_pos none_,if_pos took]
  · have some_ := mt complete.mp took
    simp only [reportOf] at some_
    rw [if_neg some_,if_neg took]

theorem through_exact {r : Reached} (reached : reachedForge ns map side job answers = some r) :
    gotThrough ns map side job answers = true ↔
      ∀ x ∈ todoOf r.current r.wanted, stops ns.adapter answers.forge r.current x = false := by
  simp only [gotThrough,reached,List.all_eq_true,Bool.not_eq_true']

-- A job that does not come to its end writes no record.
theorem short_record (short : gotThrough ns map side job answers = false) :
    (projectRoles ns map side.record job answers).record = side.record := by
  cases reached : reachedForge ns map side job answers with
  | none => exact unreached_record reached
  | some r =>
    refine fatal_record reached fun through => ?_
    rw [(through_exact reached).mpr through] at short
    cases short

-- One whose roles all took comes to its end.
theorem took_through (took : everyRoleTook ns map side job answers = true) : gotThrough ns map side job answers = true := by
  cases reached : reachedForge ns map side job answers with
  | none => simp only [everyRoleTook,reached,Bool.false_eq_true] at took
  | some r =>
    refine (through_exact reached).mpr fun x member => ?_
    have ok := (((took_exact reached).mp took).1 x member).1
    cases reply : answers.forge.reply x.1.id with
    | ok b => simp [stops,reply]
    | error e => simp [Accepted,reply,Except.isOk,Except.toBool] at ok

-- What the report takes the repository for afterwards.
theorem project_recorded (effective : RoleMap) (applied : ns.adapter.effectiveFor map = some effective) :
    (side.project ns map job answers).recorded ns =
      if everyRoleTook ns map side job answers then some effective else readAs ns map side job answers := by
  have record : (side.project ns map job answers).record = (projectRoles ns map side.record job answers).record := rfl
  cases through : gotThrough ns map side job answers with
  | false =>
    have took : everyRoleTook ns map side job answers = false := by
      by_contra yes
      rw [took_through (by simpa using yes)] at through
      cases through
    rw [took,readAs,through,Side.recorded,record,short_record through]
    rfl
  | true =>
    cases reached : reachedForge ns map side job answers with
    | none => simp only [gotThrough,reached,Bool.false_eq_true] at through
    | some r =>
      have effective_ : r.job.effective = some effective := by
        obtain ⟨_,_,_,made⟩ := prepared_job (reached_prepared reached).1
        rw [made]
        exact applied
      rw [Side.recorded,record,through_record reached ((through_exact reached).mp through),readAs,through]
      cases took : everyRoleTook ns map side job answers with
      | true => simp [recordRoles,projectedRecord,effective_]
      | false => cases before : side.record <;> simp [recordRoles,projectedRecord]

/-! One job -/

theorem prepare_current {adapter : Adapter} {forge : RolesForge} {desired : List RoleAssignment} {current : Standing}
    {wanted : Wanted} (h : adapter.prepare forge desired = .ok (current,wanted)) :
    ∃ collaborators invitations, forge.collaborators = .ok collaborators ∧ forge.invitations = .ok invitations ∧
      current = currentOf adapter collaborators invitations := by
  unfold Adapter.prepare at h
  cases located : forge.located with
  | error e => simp [located,bind,Except.bind] at h
  | ok _ =>
    cases eq : wantedFrom adapter [] (adapter.expressible desired) with
    | error e => simp [located,eq,bind,Except.bind] at h
    | ok out =>
      cases token : forge.token <;> cases listing : forge.collaborators <;> cases pending : forge.invitations <;>
        simp [located,eq,token,listing,pending,bind,Except.bind,pure,Except.pure] at h
      exact ⟨_,_,rfl,rfl,h.1.symm⟩

-- Where every role took, each account listed has the role of the map in force.
theorem took_role (nobody : NobodyElse ns side answers) (took : everyRoleTook ns map side job answers = true)
    {x : Nat × Right} (listed : x ∈ listedRoles ns map job) (other : some x.1 ≠ ns.adapter.personalOwner) :
    roleAfter ns map side job answers x = ns.adapter.mapRole (.fromGranted [x.2]) map := by
  unfold roleAfter
  cases reached : reachedForge ns map side job answers with
  | none => simp [everyRoleTook,reached] at took
  | some r =>
    split
    · rfl
    · next unchanged =>
      by_contra differs
      obtain ⟨collaborators,invitations,members,pending,read⟩ := prepare_current (reached_prepared reached).2
      have shown := nobody collaborators invitations members pending x.1 other
      rw [← read] at shown
      obtain ⟨y,member,same⟩ := (listed_asked reached listed other).2 (shown.symm ▸ differs)
      have all := landed_all ns.adapter r.current _ ((took_exact reached).mp took).1
      have carried : carriedOut ns map side job answers = todoOf r.current r.wanted := by
        simp only [carriedOut,reached,all]
      exact unchanged (List.any_eq_true.mpr ⟨y,carried ▸ member,decide_eq_true same⟩)

theorem project_owes (other : ∀ x ∈ side.owed, some x.1 ≠ ns.adapter.personalOwner) {x : Nat × Right}
    (member : x ∈ concerned ns map side job answers) : x ∈ listedRoles ns map job ∧ some x.1 ≠ ns.adapter.personalOwner := by
  obtain ⟨listed,kept⟩ := List.mem_filter.mp member
  refine ⟨listed,?_⟩
  cases Bool.or_eq_true_iff.mp kept with
  | inl before =>
    obtain ⟨y,owed,same⟩ := List.any_eq_true.mp before
    exact of_decide_eq_true same ▸ other y owed
  | inr changed => exact changed_other x.1 changed

-- A job that leaves nobody behind leaves everybody concerned with the role of the
-- map in force.
theorem none_left (leaves : LeavesNone ns map side job answers) {x : Nat × Right}
    (member : x ∈ concerned ns map side job answers) :
    roleAfter ns map side job answers x = ns.adapter.mapRole (.fromGranted [x.2]) map := by
  obtain ⟨listed,kept⟩ := List.mem_filter.mp member
  unfold roleAfter
  cases changed : isChanged (carriedOut ns map side job answers) x.1 with
  | true => rfl
  | false =>
    rw [changed,Bool.or_false] at kept
    refine (leaves x listed kept).resolve_left ?_
    rw [changed]
    exact Bool.false_ne_true

theorem unmixed_role (unmixed : mixes ns map side job answers = false) {x : Nat × Right}
    (member : x ∈ concerned ns map side job answers) :
    (readAs ns map side job answers).map (·.role x.2) = some (roleAfter ns map side job answers x) := by
  have here := List.any_eq_false.mp unmixed x member
  simpa using here

theorem project_sound (ordered : map.Ordered) (sound : side.Sound ns map) (nobody : NobodyElse ns side answers)
    (fits : JobFits ns map side job answers) : (side.project ns map job answers).Sound ns map := by
  have applied := effectiveFor_some ns.adapter map ordered
  have recorded : (side.project ns map job answers).recorded ns = _ := project_recorded _ applied
  have holds : ∀ x ∈ concerned ns map side job answers,
      (side.project ns map job answers).holds x.1 = roleAfter ns map side job answers x := fun x member =>
    project_holds (project_owes sound.other member).1 (project_owes sound.other member).2
  have mixed : (side.project ns map job answers).mixed =
      (!everyRoleTook ns map side job answers && (side.mixed || mixes ns map side job answers)) := rfl
  refine ⟨fun pure_ x member => ?_,fun mixes_ => ?_,fun x member => (project_owes sound.other member).2⟩
  · rw [holds x member,recorded]
    cases took : everyRoleTook ns map side job answers with
    | true =>
      obtain ⟨listed,other⟩ := project_owes sound.other member
      rw [took_role nobody took listed other]
      exact congrArg some (effective_role ns.adapter map _ applied ordered x.2)
    | false =>
      rw [mixed,took,Bool.not_false,Bool.true_and,Bool.or_eq_false_iff] at pure_
      exact unmixed_role pure_.2 member
  · rw [mixed,Bool.and_eq_true,Bool.not_eq_true'] at mixes_
    rcases fits with took | ⟨nothing,short⟩ | lags | leaves
    · rw [mixes_.1] at took
      cases took
    · exact .inl ((short_record short).trans nothing)
    · rw [recorded,mixes_.1]
      exact .inr (.inl lags)
    · exact .inr (.inr fun x member => (holds x member).trans (none_left leaves member))

-- A change of the configuration.
theorem configured_sound {new : RoleMap} (sound : side.Sound ns map) (fits : MapFits ns map side new) : side.Sound ns new := by
  refine ⟨sound.known,fun mixed => ?_,sound.other⟩
  rcases fits mixed with nothing | lags | ⟨shown,same⟩
  · exact .inl nothing
  · exact .inr (.inl lags)
  · rcases sound.mixed mixed with nothing | lags | held
    · exact .inl nothing
    · exact absurd lags shown
    · exact .inr (.inr fun x member => (held x member).trans (same x member).symm)

-- Where the record shows no other map, the roles are those of the map in force.
theorem sound_role (ordered : map.Ordered) (sound : side.Sound ns map) (there : side.record ≠ none)
    (unlagging : ¬Lags ns map (side.recorded ns)) {x : Nat × Right} (member : x ∈ side.owed) : side.holds x.1 = ns.adapter.mapRole (.fromGranted [x.2]) map := by
  cases mixed : side.mixed with
  | true => exact ((sound.mixed mixed).resolve_left there).resolve_left unlagging x member
  | false =>
    have known := sound.known mixed x member
    cases recorded : side.recorded ns with
    | none => simp [recorded] at known
    | some m =>
      have current : some m = ns.adapter.effectiveFor map := by
        by_contra differs
        exact unlagging ⟨m,recorded,differs⟩
      rw [recorded,Option.map_some,Option.some_inj] at known
      rw [← known]
      exact effective_role ns.adapter map m current.symm ordered x.2

-- A record stays with its repository.
theorem project_filed (filed : ∀ record ∈ side.record, record.resource = job.repo) :
    ∀ record ∈ (side.project ns map job answers).record, record.resource = job.repo := by
  intro record there
  have here : (projectRoles ns map side.record job answers).record = some record := there
  cases reached : reachedForge ns map side job answers with
  | none =>
    rw [unreached_record reached] at here
    exact filed record here
  | some r =>
    by_cases through : ∀ x ∈ todoOf r.current r.wanted, stops ns.adapter answers.forge r.current x = false
    · rw [through_record reached through] at here
      cases here
      cases before : side.record with
      | none =>
        obtain ⟨_,_,_,made⟩ := prepared_job (reached_prepared reached).1
        rw [made]
        rfl
      | some old => exact filed old before
    · rw [fatal_record reached through] at here
      exact filed record here

end

/-! Configurations and jobs -/

structure MappedRepos where
  roleMap : Resource → OrderedMap
  sides : Table Resource Side

def MappedRepos.side (s : MappedRepos) (repo : Resource) : Side := (s.sides.lookup repo).getD {}

def MappedRepos.records (s : MappedRepos) : List RepoRecord := s.sides.rows.filterMap (·.2.record)

-- The bridge restarted with another configuration, or a `projectRoles` job.
inductive Turn where
  | configured (roleMap : Resource → OrderedMap)
  | projected (job : ProjectRoles) (answers : RolesAnswers)

section
variable (ns : RoleNamespace)

def MappedRepos.step (s : MappedRepos) : Turn → MappedRepos
  | .configured roleMap => { s with roleMap := roleMap }
  | .projected job answers =>
    { s with sides := s.sides.insert job.repo ((s.side job.repo).project ns (s.roleMap job.repo).1 job answers) }

def MappedRepos.run (s : MappedRepos) (turns : List Turn) : MappedRepos := turns.foldl (·.step ns) s

def Turn.Alone (s : MappedRepos) : Turn → Prop
  | .configured _ => True
  | .projected job answers => NobodyElse ns (s.side job.repo) answers

def Turn.Fits (s : MappedRepos) : Turn → Prop
  | .configured roleMap => ∀ repo, MapFits ns (s.roleMap repo).1 (s.side repo) (roleMap repo).1
  | .projected job answers => JobFits ns (s.roleMap job.repo).1 (s.side job.repo) job answers

-- Every turn of a run is such in the state it starts from.
def EveryTurn (such : MappedRepos → Turn → Prop) (s : MappedRepos) : List Turn → Prop
  | [] => True
  | turn :: rest => such s turn ∧ EveryTurn such (s.step ns turn) rest

structure MappedRepos.Sound (s : MappedRepos) : Prop where
  side : ∀ repo, (s.side repo).Sound ns (s.roleMap repo).1
  filed : ∀ repo, ∀ record ∈ (s.side repo).record, record.resource = repo

-- Nothing projected yet, and each record with its repository.
structure MappedRepos.Fresh (s : MappedRepos) : Prop where
  owed : ∀ repo, (s.side repo).owed = []
  pure_ : ∀ repo, (s.side repo).mixed = false
  filed : ∀ repo, ∀ record ∈ (s.side repo).record, record.resource = repo

end

section
variable {ns : RoleNamespace} {s : MappedRepos}

theorem fresh_sound (ns : RoleNamespace) (fresh : s.Fresh) : s.Sound ns := by
  refine ⟨fun repo => ⟨fun _ => ?_,fun mixed => ?_,?_⟩,fresh.filed⟩
  · rw [fresh.owed repo]
    exact List.forall_mem_nil _
  · rw [fresh.pure_ repo] at mixed
    cases mixed
  · rw [fresh.owed repo]
    exact List.forall_mem_nil _

theorem step_sound (sound : s.Sound ns) (turn : Turn) (alone : turn.Alone ns s) (fits : turn.Fits ns s) :
    (s.step ns turn).Sound ns := by
  cases turn with
  | configured roleMap => exact ⟨fun repo => configured_sound (sound.side repo) (fits repo),sound.filed⟩
  | projected job answers =>
    have after (repo : Resource) : (s.step ns (.projected job answers)).side repo =
        if repo = job.repo then (s.side job.repo).project ns (s.roleMap job.repo).1 job answers else s.side repo := by
      by_cases same : repo = job.repo
      · subst same
        simp [MappedRepos.side,MappedRepos.step]
      · simp [MappedRepos.side,MappedRepos.step,same]
    constructor
    · intro repo
      rw [after repo]
      split
      · next same =>
        subst same
        exact project_sound (s.roleMap job.repo).2 (sound.side job.repo) alone fits
      · exact sound.side repo
    · intro repo record there
      rw [after repo] at there
      split at there
      · next same => exact same ▸ project_filed (sound.filed job.repo) record there
      · exact sound.filed repo record there

theorem run_sound (turns : List Turn) (sound : s.Sound ns) (alone : EveryTurn ns (fun s turn => turn.Alone ns s) s turns)
    (fit : EveryTurn ns (fun s turn => turn.Fits ns s) s turns) : (s.run ns turns).Sound ns := by
  induction turns generalizing s with
  | nil => exact sound
  | cons turn rest ih => exact ih (step_sound sound turn alone.1 fit.1) alone.2 fit.2

theorem ownMaps_some (adapter : Adapter) (roleMap : Resource → OrderedMap) (base : RoleMap) (configured : List Resource) :
    ∃ repos, ownMaps adapter (fun r => (roleMap r).1) base configured = some repos := by
  induction configured with
  | nil => exact ⟨[],rfl⟩
  | cons r rest ih =>
    obtain ⟨repos,others⟩ := ih
    simp only [ownMaps,effectiveFor_some adapter _ (roleMap r).2,others]
    exact ⟨_,rfl⟩

-- A map that is ordered is always reported.
theorem event_reported (ns : RoleNamespace) (roleMap : Resource → OrderedMap) (configured : List Resource) (records : List RepoRecord) :
    ∃ ev, roleMapEvent ns (fun r => (roleMap r).1) configured records = some ev ∧
      ev.stale = (records.filter (isStale ns (fun r => (roleMap r).1) (standardMap ns))).map (·.resource) := by
  obtain ⟨base,applied⟩ : ∃ base, ns.adapter.effectiveFor (roleMap ns.resource).1 = some base :=
    ⟨_,effectiveFor_some ns.adapter _ (roleMap ns.resource).2⟩
  obtain ⟨repos,own⟩ := ownMaps_some ns.adapter roleMap base configured
  have standard : ns.adapter.effectiveFor RoleMap.default = some (standardMap ns) := by
    rw [standardMap,effectiveFor_some ns.adapter _ default_ordered]
    rfl
  simp only [roleMapEvent,applied,own,standard,Option.bind_eq_bind,Option.bind_some]
  exact ⟨_,rfl,rfl⟩

theorem side_recorded (repo : Resource) (record : RepoRecord) (there : (s.side repo).record = some record) :
    record ∈ s.records := by
  unfold MappedRepos.side at there
  cases found : s.sides.lookup repo with
  | none =>
    rw [found] at there
    cases there
  | some side =>
    rw [found] at there
    exact List.mem_filterMap.mpr ⟨(repo,side),(Table.mem_rows s.sides repo side).mpr found,there⟩

-- A repository is reported stale unless its accounts have the roles of the map in
-- force, in every run where no projection under the recorded map leaves anybody
-- behind, and the recorded map does not come back while the roles are mixed.
theorem stale_reported (ns : RoleNamespace) (s : MappedRepos) (turns : List Turn) (fresh : s.Fresh)
    (alone : EveryTurn ns (fun s turn => turn.Alone ns s) s turns)
    (fit : EveryTurn ns (fun s turn => turn.Fits ns s) s turns) (configured : List Resource) :
    ∃ ev, roleMapEvent ns (fun r => ((s.run ns turns).roleMap r).1) configured (s.run ns turns).records = some ev ∧
      ∀ repo record, ((s.run ns turns).side repo).record = some record → record.ns = ns.id → record.archived = false →
        ns.resource.contains repo = true → repo ∉ ev.stale → ∀ x ∈ ((s.run ns turns).side repo).owed,
          ((s.run ns turns).side repo).holds x.1 =
            ns.adapter.mapRole (.fromGranted [x.2]) ((s.run ns turns).roleMap repo).1 := by
  have sound := run_sound turns (fresh_sound ns fresh) alone fit
  generalize s.run ns turns = t at sound ⊢
  obtain ⟨ev,reported,stale⟩ := event_reported ns t.roleMap configured t.records
  refine ⟨ev,reported,fun repo record there own live inside unstale x owed => ?_⟩
  obtain rfl := sound.filed repo record there
  refine sound_role (t.roleMap record.resource).2 (sound.side record.resource) (by simp [there]) ?_ owed
  rintro ⟨m,recorded,differs⟩
  refine unstale ?_
  rw [stale]
  simp only [Side.recorded,there,Option.bind_some] at recorded
  cases roles : record.rolesKnown with
  | false => simp [roles] at recorded
  | true =>
    rw [roles,if_pos rfl,Option.some_inj] at recorded
    subst recorded
    refine List.mem_map.mpr ⟨record,List.mem_filter.mpr ⟨side_recorded record.resource record there,?_⟩,rfl⟩
    simp [isStale,own,live,inside,roles,differs]

end

namespace MapSample

def adapter : Adapter := ⟨[.read,.triage,.write,.maintain,.admin],none,[]⟩
theorem no_host : (35 : UInt8) ∉ ([] : Bytes) := List.not_mem_nil

def repo : Resource := ⟨[],[],[[120]],no_host⟩
def acme : RoleNamespace := { id := [1], resource := ⟨[],[],[],no_host⟩, adapter := adapter }
def bob : ForgeAccount := ⟨2,[98]⟩
def carol : ForgeAccount := ⟨3,[99]⟩

def usual : OrderedMap := ⟨.default,default_ordered⟩
def lowered : OrderedMap := ⟨⟨.admin,.write,.none⟩,by constructor <;> decide⟩

def record : RepoRecord := { ns := [1], resource := repo, forgeId := 7 }

def start : MappedRepos where
  roleMap := fun _ => usual
  sides := AList.singleton repo { record := some record }

def job : ProjectRoles where
  repo := repo
  roles := [⟨[],[],bob,.repoMaintain⟩,⟨[],[],carol,.repoMaintain⟩]

def shows (collaborators : List Collaborator) (reply : Nat → Except ForgeError Bool) : RolesAnswers where
  forge := { collaborators := .ok collaborators, reply := reply }

def both : List Collaborator := [⟨bob,.maintain,false⟩,⟨carol,.maintain,false⟩]
def fine : Nat → Except ForgeError Bool := fun _ => .ok false
def carolFails : Nat → Except ForgeError Bool := fun account => if account = 3 then .error (.rejected 500 []) else .ok false

def granted : Turn := .projected job (shows [] fine)
def partly : Turn := .projected job (shows both carolFails)
def wholly : Turn := .projected job (shows [⟨bob,.write,false⟩,⟨carol,.maintain,false⟩] fine)

theorem first_alone : granted.Alone acme start := by
  rintro _ _ ⟨⟩ ⟨⟩ account _
  rfl

theorem granted_holds (account : Nat) : ((start.step acme granted).side repo).holds account =
    if account = 3 then .maintain else if account = 2 then .maintain else .none := by
  have changes : carriedOut acme usual.1 (start.side repo) job (shows [] fine) = [(bob,.maintain),(carol,.maintain)] := by
    decide
  have holds : ((start.step acme granted).side repo).holds =
      takeEffect (fun _ => .none) (carriedOut acme usual.1 (start.side repo) job (shows [] fine)) := rfl
  rw [holds,changes]
  simp [takeEffect,Function.update_apply,bob,carol]

theorem second_alone (reply : Nat → Except ForgeError Bool) :
    (Turn.projected job (shows both reply)).Alone acme ((start.step acme granted).step acme (.configured fun _ => lowered)) := by
  rintro _ _ ⟨⟩ ⟨⟩ account _
  have listing : currentOf acme.adapter both [] = [(2,bob,.member [98] .maintain),(3,carol,.member [99] .maintain)] := by
    decide
  refine Eq.trans ?_ (granted_holds account).symm
  rw [listing]
  by_cases two : account = 2
  · subst two
    rfl
  · by_cases three : account = 3
    · subst three
      rfl
    · simp [Standing.have_,Standing.of,lookup_head,two,three]

-- Carol's request fails under the lowered map, which is then taken back: Bob
-- keeps the role it gave him.
def takenBack : List Turn := [granted,.configured fun _ => lowered,partly,.configured fun _ => usual]

theorem unstale_lowered : EveryTurn acme (fun s turn => turn.Alone acme s) start takenBack ∧
    ∃ ev after, roleMapEvent acme (fun r => ((start.run acme takenBack).roleMap r).1) [] (start.run acme takenBack).records =
      some ev ∧ ((start.run acme takenBack).side repo).record = some after ∧ after.ns = acme.id ∧ after.archived = false ∧
      repo ∉ ev.stale ∧ (2,.repoMaintain) ∈ ((start.run acme takenBack).side repo).owed ∧
      ((start.run acme takenBack).side repo).holds 2 = .write ∧
      acme.adapter.mapRole (.fromGranted [.repoMaintain]) ((start.run acme takenBack).roleMap repo).1 = .maintain := by
  refine ⟨⟨first_alone,trivial,second_alone carolFails,trivial,trivial⟩,?_⟩
  obtain ⟨ev,reported,stale⟩ := event_reported acme (start.run acme takenBack).roleMap [] (start.run acme takenBack).records
  have none_ : ev.stale = [] := by
    rw [stale]
    decide
  obtain ⟨after,there⟩ : ∃ after, ((start.run acme takenBack).side repo).record = some after := ⟨_,rfl⟩
  have facts : ((start.run acme takenBack).side repo).record.map (fun r => (r.ns,r.archived)) = some (acme.id,false) := by
    decide
  rw [there] at facts
  have both := Option.some.inj facts
  refine ⟨ev,after,reported,there,congrArg Prod.fst both,congrArg Prod.snd both,by simp [none_],?_,?_,?_⟩
  all_goals decide

theorem start_side (r : Resource) : start.side r = if r = repo then { record := some record } else {} := by
  by_cases same : r = repo
  · subst same
    rfl
  · have missing : start.sides.lookup r = none := by
      rw [AList.lookup_eq_none,AList.mem_keys]
      simpa [start] using same
    rw [MappedRepos.side,missing,if_neg same]
    rfl

theorem start_fresh : start.Fresh := by
  refine ⟨fun r => ?_,fun r => ?_,fun r => ?_⟩
  · rw [start_side r]
    split <;> rfl
  · rw [start_side r]
    split <;> rfl
  · rw [start_side r]
    split
    · next same =>
      rintro _ ⟨⟩
      exact same.symm
    · rintro _ ⟨⟩

-- The lowered map is kept until a job takes whole.
def repaired : List Turn := [granted,.configured fun _ => lowered,partly,wholly]

def lowering : MappedRepos := (start.step acme granted).step acme (.configured fun _ => lowered)

theorem granted_unmixed (r : Resource) : ((start.step acme granted).side r).mixed = false := by
  by_cases same : r = repo
  · subst same
    decide
  · have other : (start.step acme granted).side r = start.side r := by
      simp [MappedRepos.side,MappedRepos.step,granted,job,same]
    rw [other,start_side r,if_neg same]

theorem lowering_fits : (Turn.configured fun _ => lowered).Fits acme (start.step acme granted) := by
  intro r mixed
  rw [granted_unmixed r] at mixed
  cases mixed

-- Bob has the lowered role, Carol not yet.
theorem partly_holds (account : Nat) : ((lowering.step acme partly).side repo).holds account =
    if account = 2 then .write else if account = 3 then .maintain else .none := by
  have changes : carriedOut acme lowered.1 (lowering.side repo) job (shows both carolFails) = [(bob,.write)] := by
    decide
  have holds : ((lowering.step acme partly).side repo).holds =
      takeEffect ((start.step acme granted).side repo).holds
        (carriedOut acme lowered.1 (lowering.side repo) job (shows both carolFails)) := rfl
  rw [holds,changes]
  by_cases two : account = 2
  · subst two
    rfl
  · simp [takeEffect,bob,granted_holds,two]

theorem third_alone : wholly.Alone acme (lowering.step acme partly) := by
  rintro _ _ ⟨⟩ ⟨⟩ account _
  have listing : currentOf acme.adapter [⟨bob,.write,false⟩,⟨carol,.maintain,false⟩] [] =
      [(2,bob,.member [98] .write),(3,carol,.member [99] .maintain)] := by
    decide
  refine Eq.trans ?_ (partly_holds account).symm
  rw [listing]
  by_cases two : account = 2
  · subst two
    rfl
  · by_cases three : account = 3
    · subst three
      rfl
    · simp [Standing.have_,Standing.of,lookup_head,two,three]

-- After the job that failed in part the record is behind, and says so.
theorem partly_fits : partly.Fits acme lowering := by
  refine .inr (.inr (.inl ⟨standardMap acme,?_,?_⟩))
  all_goals decide

-- The roles are mixed in between, and right at the end.
theorem stale_reported_sample : ((lowering.step acme partly).side repo).mixed = true ∧
    (3,.repoMaintain) ∈ ((start.run acme repaired).side repo).owed ∧
    ((start.run acme repaired).side repo).holds 3 = .write := by
  have owed : (3,.repoMaintain) ∈ ((start.run acme repaired).side repo).owed := by decide
  have mixed : ((lowering.step acme partly).side repo).mixed = true := by decide
  obtain ⟨ev,reported,held⟩ := stale_reported acme start repaired
    start_fresh
    ⟨first_alone,trivial,second_alone carolFails,third_alone,trivial⟩
    ⟨.inl (by decide),lowering_fits,partly_fits,.inl (by decide),trivial⟩ []
  have unstale : ev.stale = [] := by
    obtain ⟨other,told,stale⟩ := event_reported acme (start.run acme repaired).roleMap []
      (start.run acme repaired).records
    rw [reported] at told
    cases told
    rw [stale]
    decide
  have role := held repo _ rfl (by decide) (by decide) (by decide) (by simp [unstale]) _ owed
  exact ⟨mixed,owed,role⟩

end MapSample
end VerifiableGit.Governance
