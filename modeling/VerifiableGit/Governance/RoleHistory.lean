import VerifiableGit.Governance.Roles

-- Whom the bridge gave a role on a repository over a run of projections, and
-- whether the record still knows.
namespace VerifiableGit.Governance
open Text

-- `given` is not kept by the bridge: the accounts it gave a role that was not
-- taken away since, by it or (as a listing shows) by someone else.
structure RolesState where
  record : Option RepoRecord
  desired : List RoleAssignment
  given : List Nat

def noteChange (given : List Nat) (c : RoleChange) : List Nat :=
  match c.outcome with
  | .failed _ => given
  | _ => if c.after = .none then given.filter (· ≠ c.account.id) else c.account.id :: given

def learned (given : List Nat) : Option (Standing × List RoleChange) → List Nat
  | none => given
  | some (current,changes) => changes.foldl noteChange (given.filter fun account => current.have_ account ≠ .none)

def project (adapter : Adapter) (s : RolesState) (job : RolesJob × RolesForge) : RolesState :=
  let done := applyRoles adapter job.2 s.record job.1
  { record := done.record, desired := job.1.desired, given := learned s.given done.seen }

def GivesRole (desired : List RoleAssignment) (account : Nat) : Prop :=
  ∃ a ∈ desired, a.account.id = account ∧ a.role ≠ .none

def Held (record : Option RepoRecord) (account : Nat) : Prop := GivesRole (formerRoles record) account

-- An account given a role and no longer to have one is in the record, and
-- whatever job comes next asks for its removal.
def Remembered (s : RolesState) : Prop := ∀ account ∈ s.given, ¬GivesRole s.desired account →
  Held s.record account ∧
    ∀ job : RolesJob, ¬GivesRole job.desired account →
      ∃ a ∈ wantOf s.record job, a.account.id = account ∧ a.role = .none

-- The request to change `x` ends the job: a fatal answer.
def stops (adapter : Adapter) (forge : RolesForge) (current : Standing) (x : ForgeAccount × ForgeRole) : Bool :=
  !(x.2 = .none && adapter.isOwnBot (current.of x.1.id)) &&
    (match forge.reply x.1.id with
    | .error e => e.isFatal
    | .ok _ => false)

def reached (adapter : Adapter) (forge : RolesForge) (current : Standing)
    (todo : List (ForgeAccount × ForgeRole)) : List (ForgeAccount × ForgeRole) :=
  todo.takeWhile fun x => !stops adapter forge current x

def Accepted (forge : RolesForge) (account : Nat) : Prop := (forge.reply account).isOk

-- Each removal of an account given a role is accepted, and none is of the
-- bridge's own bot.
def RemovalsAccepted (adapter : Adapter) (s : RolesState) (job : RolesJob × RolesForge) (current : Standing)
    (todo : List (ForgeAccount × ForgeRole)) : Prop :=
  ∀ x ∈ todo, x.2 = .none → x.1.id ∈ s.given → ¬GivesRole job.1.desired x.1.id →
    Accepted job.2 x.1.id ∧ adapter.isOwnBot (current.of x.1.id) = false

-- Whoever is given a role is in the record already.
def GrantsHeld (s : RolesState) (forge : RolesForge) (before : List (ForgeAccount × ForgeRole)) : Prop :=
  ∀ x ∈ before, x.2 ≠ .none → Accepted forge x.1.id → Held s.record x.1.id

-- The first with no fatal answer, the second, of the changes before it, with one.
def CarefulWith (adapter : Adapter) (s : RolesState) (job : RolesJob × RolesForge) (current : Standing)
    (todo : List (ForgeAccount × ForgeRole)) : Prop :=
  (reached adapter job.2 current todo = todo → RemovalsAccepted adapter s job current todo) ∧
    (reached adapter job.2 current todo ≠ todo → GrantsHeld s job.2 (reached adapter job.2 current todo))

def Careful (adapter : Adapter) (s : RolesState) (job : RolesJob × RolesForge) : Prop :=
  match adapter.prepare job.2 (adapter.expressible (wantOf s.record job.1)) with
  | .error _ => True
  | .ok (current,wanted) => CarefulWith adapter s job current (todoOf current wanted)

instance : DecidablePred (GivesRole desired) := fun account =>
  inferInstanceAs (Decidable (∃ a ∈ desired, a.account.id = account ∧ a.role ≠ .none))

instance : DecidablePred (Held record) := fun account =>
  inferInstanceAs (Decidable (GivesRole (formerRoles record) account))

instance : DecidablePred (Accepted forge) := fun account =>
  inferInstanceAs (Decidable ((forge.reply account).isOk = true))

instance : Decidable (RemovalsAccepted adapter s job current todo) :=
  inferInstanceAs (Decidable (∀ x ∈ todo, _ → _ → _ → _))

instance : Decidable (GrantsHeld s forge before) :=
  inferInstanceAs (Decidable (∀ x ∈ before, _ → _ → _))

instance : Decidable (CarefulWith adapter s job current todo) :=
  inferInstanceAs (Decidable ((_ → _) ∧ (_ → _)))

instance : Decidable (Careful adapter s job) :=
  match h : adapter.prepare job.2 (adapter.expressible (wantOf s.record job.1)) with
  | .error _ => .isTrue (by simp only [Careful,h])
  | .ok (current,wanted) => decidable_of_iff (CarefulWith adapter s job current (todoOf current wanted))
      (by simp only [Careful,h])

/-! What a job asks for -/

theorem dropFormer_keeps (want : List RoleAssignment) (p a : RoleAssignment) (h : a ∈ want) : a ∈ dropFormer want p := by
  unfold dropFormer
  split
  · exact List.mem_append_left _ h
  · exact h

theorem dropFormers_keep (former want : List RoleAssignment) (a : RoleAssignment) (h : a ∈ want) :
    a ∈ former.foldl dropFormer want := by
  induction former generalizing want with
  | nil => exact h
  | cons p rest ih => exact ih _ (dropFormer_keeps want p a h)

theorem dropFormers_role (former want : List RoleAssignment) (a : RoleAssignment)
    (h : a ∈ former.foldl dropFormer want) (role : a.role ≠ .none) : a ∈ want := by
  induction former generalizing want with
  | nil => exact h
  | cons p rest ih =>
    have inner := ih _ h
    unfold dropFormer at inner
    split at inner
    · cases List.mem_append.mp inner with
      | inl old => exact old
      | inr new => exact absurd (by rw [List.mem_singleton.mp new]) role
    · exact inner

-- Whoever is in the record and gets no role is asked to be removed.
theorem dropFormers_drop (former want : List RoleAssignment) (account : Nat)
    (held : GivesRole former account) : ∃ a ∈ former.foldl dropFormer want, a.account.id = account := by
  induction former generalizing want with
  | nil =>
    obtain ⟨a,member,_⟩ := held
    cases member
  | cons p rest ih =>
    obtain ⟨a,member,same,role⟩ := held
    cases List.mem_cons.mp member with
    | inr later => exact ih _ ⟨a,later,same,role⟩
    | inl first =>
      subst first
      by_cases listed : want.any (·.account.id = a.account.id)
      · obtain ⟨w,here,eq⟩ := List.any_eq_true.mp listed
        exact ⟨w,dropFormers_keep rest _ _ (dropFormer_keeps want a w here),(of_decide_eq_true eq).trans same⟩
      · have added : ⟨a.account,.none⟩ ∈ dropFormer want a := by
          unfold dropFormer
          rw [if_pos ⟨role,listed⟩]
          exact List.mem_append_right _ (List.mem_singleton.mpr rfl)
        exact ⟨_,dropFormers_keep rest _ _ added,same⟩

theorem dropAccount_role (account : ForgeAccount) (want : List RoleAssignment) (a : RoleAssignment)
    (h : a ∈ dropAccount account want) (role : a.role ≠ .none) : a ∈ want := by
  induction want with
  | nil => exact absurd (by rw [List.mem_singleton.mp h]) role
  | cons w rest ih =>
    unfold dropAccount at h
    split at h
    · cases List.mem_cons.mp h with
      | inl first => exact absurd (by rw [first]) role
      | inr later => exact List.mem_cons_of_mem _ later
    · cases List.mem_cons.mp h with
      | inl first => exact first ▸ List.mem_cons_self
      | inr later => exact List.mem_cons_of_mem _ (ih later)

theorem dropAccount_keeps (account : ForgeAccount) (want : List RoleAssignment) (key : Nat)
    (h : ∃ a ∈ want, a.account.id = key) : ∃ a ∈ dropAccount account want, a.account.id = key := by
  induction want with
  | nil =>
    obtain ⟨a,member,_⟩ := h
    cases member
  | cons w rest ih =>
    obtain ⟨a,member,same⟩ := h
    unfold dropAccount
    split
    · cases List.mem_cons.mp member with
      | inl first => exact ⟨_,List.mem_cons_self,first ▸ same⟩
      | inr later => exact ⟨a,List.mem_cons_of_mem _ later,same⟩
    · cases List.mem_cons.mp member with
      | inl first => exact ⟨w,List.mem_cons_self,first ▸ same⟩
      | inr later =>
        obtain ⟨b,here,eq⟩ := ih ⟨a,later,same⟩
        exact ⟨b,List.mem_cons_of_mem _ here,eq⟩

theorem want_role (record : Option RepoRecord) (job : RolesJob) (a : RoleAssignment)
    (h : a ∈ wantOf record job) (role : a.role ≠ .none) : a ∈ job.desired := by
  have removals : ∀ (accounts : List ForgeAccount) (want : List RoleAssignment),
      a ∈ accounts.foldl (fun want account => dropAccount account want) want → a ∈ want := by
    intro accounts
    induction accounts with
    | nil => exact fun _ here => here
    | cons account rest ih => exact fun want here => dropAccount_role account want a (ih _ here) role
  exact dropFormers_role _ _ a (removals _ _ h) role

theorem want_listed (record : Option RepoRecord) (job : RolesJob) (account : Nat) (held : Held record account) :
    ∃ a ∈ wantOf record job, a.account.id = account := by
  have removals : ∀ (accounts : List ForgeAccount) (want : List RoleAssignment),
      (∃ a ∈ want, a.account.id = account) →
      ∃ a ∈ accounts.foldl (fun want account => dropAccount account want) want, a.account.id = account := by
    intro accounts
    induction accounts with
    | nil => exact fun _ here => here
    | cons other rest ih => exact fun want here => ih _ (dropAccount_keeps other want account here)
  exact removals _ _ (dropFormers_drop _ job.desired account held)

theorem want_drops (record : Option RepoRecord) (job : RolesJob) (account : Nat) (held : Held record account)
    (unwanted : ¬GivesRole job.desired account) :
    ∃ a ∈ wantOf record job, a.account.id = account ∧ a.role = .none := by
  obtain ⟨a,member,same⟩ := want_listed record job account held
  refine ⟨a,member,same,?_⟩
  by_contra role
  exact unwanted ⟨a,want_role record job a member role,same,role⟩

/-! What the adapter makes of it -/

theorem collapse_none (ladder : List ForgeRole) : collapseToLadder .none ladder = .none := by
  have only : ∀ level ∈ ladder.filter (fun level => level.level ≤ ForgeRole.none.level), level = .none := by
    intro level member
    have small := of_decide_eq_true (List.mem_filter.mp member).2
    cases level <;> simp_all [ForgeRole.level]
  unfold collapseToLadder
  generalize ladder.filter (fun level => level.level ≤ ForgeRole.none.level) = levels at only
  induction levels with
  | nil => rfl
  | cons level rest ih =>
    have first := only level List.mem_cons_self
    simp only [List.foldl_cons,first,Nat.le_refl,if_true]
    exact ih fun other member => only other (List.mem_cons_of_mem _ member)

theorem lookup_head (key other : Nat) (value : β) (l : List (Nat × β)) :
    ((other,value) :: l).lookup key = if key = other then some value else l.lookup key := by
  by_cases same : key = other
  · subst same
    rw [List.lookup_cons_self,if_pos rfl]
  · rw [List.lookup_cons,show (key == other) = false from beq_eq_false_iff_ne.mpr same,if_neg same]

theorem lookup_insertById (key other : Nat) (value : β) (l : List (Nat × β)) :
    (insertById key value l).lookup other = if other = key then some value else l.lookup other := by
  induction l with
  | nil => exact lookup_head other key value []
  | cons head rest ih =>
    obtain ⟨id,old⟩ := head
    unfold insertById
    split
    · exact lookup_head other key value _
    · split
      · next eq =>
        subst eq
        simp only [lookup_head]
        by_cases same : other = key <;> simp only [same,if_true,if_false]
      · next different =>
        simp only [lookup_head,ih]
        by_cases here : other = id
        · have apart : ¬id = key := fun eq => different eq.symm
          simp only [here,if_true,apart,if_false]
        · simp only [here,if_false]

theorem mem_insertById (key : Nat) (value : β) (l : List (Nat × β)) (x : Nat × β)
    (h : x ∈ insertById key value l) : x = (key,value) ∨ x ∈ l := by
  induction l with
  | nil => exact .inl (List.mem_singleton.mp h)
  | cons head rest ih =>
    obtain ⟨id,old⟩ := head
    unfold insertById at h
    split at h
    · exact List.mem_cons.mp h
    · split at h
      · cases List.mem_cons.mp h with
        | inl first => exact .inl first
        | inr later => exact .inr (List.mem_cons_of_mem _ later)
      · cases List.mem_cons.mp h with
        | inl first => exact .inr (first ▸ List.mem_cons_self)
        | inr later => exact (ih later).imp_right (List.mem_cons_of_mem _)

def WantedFor (adapter : Adapter) (wanted : Wanted) (a : RoleAssignment) : Prop :=
  ∃ account, wanted.lookup a.account.id = some (account,collapseToLadder a.role adapter.ladder)

theorem wantedFrom_ok (adapter : Adapter) (desired : List RoleAssignment) (wanted out : Wanted)
    (h : wantedFrom adapter wanted desired = .ok out) :
    (∀ a, a ∈ desired ∨ WantedFor adapter wanted a → WantedFor adapter out a) ∧
      ∀ x ∈ out, x ∈ wanted ∨ ∃ a ∈ desired,
        x = (a.account.id,a.account,collapseToLadder a.role adapter.ladder) := by
  induction desired generalizing wanted with
  | nil =>
    cases h
    refine ⟨fun a known => known.resolve_left (List.not_mem_nil),fun x member => .inl member⟩
  | cons a rest ih =>
    -- the insertion loses no one: who is there already has the same role
    have step : wantedFrom adapter (insertById a.account.id
          (a.account,collapseToLadder a.role adapter.ladder) wanted) rest = .ok out ∧
        ∀ account role, wanted.lookup a.account.id = some (account,role) →
          role = collapseToLadder a.role adapter.ladder := by
      simp only [wantedFrom] at h
      split at h
      · next account prev found =>
        split at h
        · cases h
        · next same =>
          refine ⟨h,fun account' role eq => ?_⟩
          rw [found] at eq
          cases eq
          exact not_not.mp same
      · next missing =>
        refine ⟨h,fun account role eq => ?_⟩
        rw [missing] at eq
        cases eq
    obtain ⟨listed,origin⟩ := ih _ step.1
    constructor
    · intro b known
      apply listed
      by_cases same : b.account.id = a.account.id
      · cases known with
        | inl member =>
          cases List.mem_cons.mp member with
          | inl first => exact .inr ⟨a.account,by rw [lookup_insertById,if_pos same,first]⟩
          | inr later => exact .inl later
        | inr before =>
          obtain ⟨account,found⟩ := before
          rw [same] at found
          exact .inr ⟨a.account,by rw [lookup_insertById,if_pos same,step.2 _ _ found]⟩
      · cases known with
        | inl member => exact .inl (Or.resolve_left (List.mem_cons.mp member) fun eq => same (eq ▸ rfl))
        | inr before =>
          obtain ⟨account,found⟩ := before
          exact .inr ⟨account,by rw [lookup_insertById,if_neg same,found]⟩
    · intro x member
      cases origin x member with
      | inr later =>
        obtain ⟨b,here,eq⟩ := later
        exact .inr ⟨b,List.mem_cons_of_mem _ here,eq⟩
      | inl old =>
        cases mem_insertById _ _ _ _ old with
        | inl new => exact .inr ⟨a,List.mem_cons_self,new⟩
        | inr older => exact .inl older

theorem lookup_mem (l : List (Nat × β)) (key : Nat) (value : β) (h : l.lookup key = some value) : (key,value) ∈ l := by
  obtain ⟨before,after,rfl,_⟩ := List.lookup_eq_some_iff.mp h
  exact List.mem_append_right _ List.mem_cons_self

theorem prepare_wanted (adapter : Adapter) (forge : RolesForge) (desired : List RoleAssignment)
    (current : Standing) (wanted : Wanted) (h : adapter.prepare forge desired = .ok (current,wanted)) :
    wantedFrom adapter [] (adapter.expressible desired) = .ok wanted := by
  unfold Adapter.prepare at h
  cases located : forge.located with
  | error e => simp [located,bind,Except.bind] at h
  | ok _ =>
    cases eq : wantedFrom adapter [] (adapter.expressible desired) with
    | error e => simp [located,eq,bind,Except.bind] at h
    | ok out =>
      cases token : forge.token <;> cases listing : forge.collaborators <;> cases pending : forge.invitations <;>
        simp [located,eq,token,listing,pending,bind,Except.bind,pure,Except.pure] at h
      rw [h.2]

-- Each change asked is of an assignment of the job, to the role it rounds to.
theorem todo_asked (adapter : Adapter) (forge : RolesForge) (desired : List RoleAssignment) (current : Standing)
    (wanted : Wanted) (h : adapter.prepare forge desired = .ok (current,wanted)) (x : ForgeAccount × ForgeRole)
    (member : x ∈ todoOf current wanted) :
    (∃ a ∈ desired, x = (a.account,collapseToLadder a.role adapter.ladder) ∧
      some a.account.id ≠ adapter.personalOwner) ∧ current.have_ x.1.id ≠ x.2 := by
  have origin := (wantedFrom_ok adapter _ _ _ (prepare_wanted adapter forge desired current wanted h)).2
  obtain ⟨w,listed,rfl⟩ := List.mem_map.mp member
  obtain ⟨inside,differs⟩ := List.mem_filter.mp listed
  obtain ⟨a,here,rfl⟩ := (origin w inside).resolve_left List.not_mem_nil
  obtain ⟨asked,other⟩ := List.mem_filter.mp here
  exact ⟨⟨a,asked,rfl,of_decide_eq_true other⟩,of_decide_eq_true differs⟩

theorem drop_asked (adapter : Adapter) (forge : RolesForge) (desired : List RoleAssignment) (current : Standing)
    (wanted : Wanted) (h : adapter.prepare forge desired = .ok (current,wanted)) (a : RoleAssignment)
    (member : a ∈ desired) (role : a.role = .none) (other : some a.account.id ≠ adapter.personalOwner)
    (stands : current.have_ a.account.id ≠ .none) :
    ∃ x ∈ todoOf current wanted, x.1.id = a.account.id ∧ x.2 = .none := by
  have facts := wantedFrom_ok adapter _ _ _ (prepare_wanted adapter forge desired current wanted h)
  have kept : a ∈ adapter.expressible desired := List.mem_filter.mpr ⟨member,decide_eq_true other⟩
  obtain ⟨account,found⟩ := facts.1 a (.inl kept)
  rw [role,collapse_none] at found
  have inside := lookup_mem wanted _ _ found
  obtain ⟨b,_,eq⟩ := (facts.2 _ inside).resolve_left List.not_mem_nil
  have key : a.account.id = account.id := by
    have first : a.account.id = b.account.id := congrArg Prod.fst eq
    have second : account = b.account := congrArg (·.2.1) eq
    rw [first,second]
  exact ⟨(account,.none),List.mem_map.mpr ⟨_,List.mem_filter.mpr ⟨inside,decide_eq_true stands⟩,rfl⟩,key.symm,rfl⟩

/-! The changes -/

theorem change_made (adapter : Adapter) (forge : RolesForge) (current : Standing) (account : ForgeAccount)
    (role : ForgeRole) (made : RoleChange) (h : change adapter forge current account role = .ok made) :
    made.account = account ∧ made.after = role := by
  simp only [change] at h
  split at h
  · cases h; exact ⟨rfl,rfl⟩
  · split at h
    · cases h; exact ⟨rfl,rfl⟩
    · split at h
      · cases h
      · cases h; exact ⟨rfl,rfl⟩

theorem changeRole_reply (current : Option Current) (role : ForgeRole) (reply : Except ForgeError Bool)
    (h : (current.map (·.role)).getD .none ≠ role) :
    (∀ e, reply = .error e → changeRole current role reply = .error e) ∧
      (∀ b, reply = .ok b → ∃ outcome, changeRole current role reply = .ok outcome ∧
        ∀ why, outcome ≠ .failed why) := by
  cases current with
  | none =>
    constructor
    · intro e eq
      subst eq
      cases role <;> first | exact absurd rfl h | rfl
    · intro b eq
      subst eq
      cases role <;> cases b <;> first | exact absurd rfl h | exact ⟨_,rfl,fun _ => nofun⟩
  | some stands =>
    constructor
    · intro e eq
      subst eq
      cases stands <;> cases role <;> rfl
    · intro b eq
      subst eq
      cases stands <;> cases role <;> cases b <;> exact ⟨_,rfl,fun _ => nofun⟩

-- What one change comes to: the job's end, a failure, or the change.
theorem change_cases (adapter : Adapter) (forge : RolesForge) (current : Standing) (x : ForgeAccount × ForgeRole)
    (differs : current.have_ x.1.id ≠ x.2) :
    (stops adapter forge current x = true → ∃ e, change adapter forge current x.1 x.2 = .error e) ∧
    (stops adapter forge current x = false → ∃ made, change adapter forge current x.1 x.2 = .ok made ∧
      ((∀ why, made.outcome ≠ .failed why) ↔
        Accepted forge x.1.id ∧ ¬(x.2 = .none ∧ adapter.isOwnBot (current.of x.1.id) = true))) := by
  have replies := changeRole_reply (current.of x.1.id) x.2 (forge.reply x.1.id) differs
  by_cases bot : x.2 = .none ∧ adapter.isOwnBot (current.of x.1.id) = true
  · have no : stops adapter forge current x = false := by simp [stops,bot]
    refine ⟨fun yes => absurd (no.symm.trans yes) Bool.false_ne_true,fun _ => ?_⟩
    unfold change
    simp only [if_pos bot]
    exact ⟨_,rfl,fun fine => absurd rfl (fine _),fun fine => absurd bot fine.2⟩
  · have ask : stops adapter forge current x =
        (match forge.reply x.1.id with | .error e => e.isFatal | .ok _ => false) := by
      have one : (decide (x.2 = .none) && adapter.isOwnBot (current.of x.1.id)) = false := by
        simpa using bot
      simp only [stops,one,Bool.not_false,Bool.true_and]
    unfold change Accepted
    simp only [if_neg bot,ask]
    cases answer : forge.reply x.1.id with
    | ok b =>
      obtain ⟨outcome,eq,fine⟩ := replies.2 b answer
      rw [answer] at eq
      simp only [eq]
      exact ⟨fun yes => absurd yes Bool.false_ne_true,
        fun _ => ⟨_,rfl,fun _ => ⟨rfl,fun both => bot both⟩,fun _ => fine⟩⟩
    | error e =>
      have eq := replies.1 e answer
      rw [answer] at eq
      simp only [eq]
      constructor
      · intro fatal
        exact ⟨e,if_pos fatal⟩
      · intro fatal
        simp only [fatal,Bool.false_eq_true,if_false]
        exact ⟨_,rfl,fun fine => absurd rfl (fine _),fun both => absurd both.1 Bool.false_ne_true⟩

theorem changeAll_facts (adapter : Adapter) (forge : RolesForge) (current : Standing)
    (todo : List (ForgeAccount × ForgeRole)) (differs : ∀ x ∈ todo, current.have_ x.1.id ≠ x.2) :
    (∀ c ∈ (changeAll adapter forge current todo).1, ∃ x ∈ reached adapter forge current todo,
      change adapter forge current x.1 x.2 = .ok c) ∧
    ((changeAll adapter forge current todo).2 = .ok () → reached adapter forge current todo = todo ∧
      ∀ x ∈ todo, ∃ c ∈ (changeAll adapter forge current todo).1, change adapter forge current x.1 x.2 = .ok c) ∧
    (∀ e, (changeAll adapter forge current todo).2 = .error e → reached adapter forge current todo ≠ todo) := by
  induction todo with
  | nil => exact ⟨fun c member => absurd member List.not_mem_nil,fun _ => ⟨rfl,fun x member => absurd member List.not_mem_nil⟩,
      fun e eq => nomatch eq⟩
  | cons x rest ih =>
    obtain ⟨made,all,broken⟩ := ih fun y member => differs y (List.mem_cons_of_mem _ member)
    have one := change_cases adapter forge current x (differs x List.mem_cons_self)
    cases stop : stops adapter forge current x with
    | true =>
      obtain ⟨e,eq⟩ := one.1 stop
      have short : reached adapter forge current (x :: rest) = [] := by simp [reached,stop]
      simp only [changeAll,eq,short]
      refine ⟨fun c member => absurd member List.not_mem_nil,fun ok => ?_,fun _ _ same => nomatch same⟩
      cases ok
    | false =>
      obtain ⟨c,eq,_⟩ := one.2 stop
      have long : reached adapter forge current (x :: rest) = x :: reached adapter forge current rest := by
        simp [reached,stop]
      simp only [changeAll,eq,long]
      refine ⟨?_,?_,?_⟩
      · intro d member
        cases List.mem_cons.mp member with
        | inl first => exact ⟨x,List.mem_cons_self,first ▸ eq⟩
        | inr later =>
          obtain ⟨y,here,found⟩ := made d later
          exact ⟨y,List.mem_cons_of_mem _ here,found⟩
      · intro ok
        obtain ⟨whole,each⟩ := all ok
        refine ⟨by rw [whole],fun y member => ?_⟩
        cases List.mem_cons.mp member with
        | inl first => exact ⟨c,List.mem_cons_self,first ▸ eq⟩
        | inr later =>
          obtain ⟨d,here,found⟩ := each y later
          exact ⟨d,List.mem_cons_of_mem _ here,found⟩
      · intro e failed same
        exact broken e failed (List.cons.inj same).2

-- Who is known to have a role after some changes: who had one and lost it by
-- none of them, or was given one by some.
theorem noteChanges_cases (changes : List RoleChange) (given : List Nat) (account : Nat)
    (h : account ∈ changes.foldl noteChange given) :
    (account ∈ given ∧ ∀ c ∈ changes, c.account.id = account → c.after = .none → ∃ why, c.outcome = .failed why) ∨
      ∃ c ∈ changes, c.account.id = account ∧ c.after ≠ .none ∧ ∀ why, c.outcome ≠ .failed why := by
  induction changes generalizing given with
  | nil => exact .inl ⟨h,fun c member => absurd member List.not_mem_nil⟩
  | cons c rest ih =>
    cases ih _ h with
    | inr granted =>
      obtain ⟨d,member,facts⟩ := granted
      exact .inr ⟨d,List.mem_cons_of_mem _ member,facts⟩
    | inl kept =>
      obtain ⟨before,lost⟩ := kept
      -- what `c` itself did to the list
      have turn : (∃ why, c.outcome = .failed why) ∧ account ∈ given ∨
          (∀ why, c.outcome ≠ .failed why) ∧
            account ∈ if c.after = .none then given.filter (· ≠ c.account.id) else c.account.id :: given := by
        unfold noteChange at before
        split at before
        · next why eq => exact .inl ⟨⟨why,eq⟩,before⟩
        · next fine => exact .inr ⟨fine,before⟩
      cases turn with
      | inl failed =>
        refine .inl ⟨failed.2,fun d member same none_ => ?_⟩
        cases List.mem_cons.mp member with
        | inl first => exact first ▸ failed.1
        | inr later => exact lost d later same none_
      | inr made =>
        by_cases none_ : c.after = .none
        · rw [if_pos none_] at made
          obtain ⟨old,differs⟩ := List.mem_filter.mp made.2
          refine .inl ⟨old,fun d member same gone => ?_⟩
          cases List.mem_cons.mp member with
          | inl first => exact absurd (first ▸ same).symm (of_decide_eq_true differs)
          | inr later => exact lost d later same gone
        · rw [if_neg none_] at made
          cases List.mem_cons.mp made.2 with
          | inl new => exact .inr ⟨c,List.mem_cons_self,new.symm,none_,made.1⟩
          | inr old =>
            refine .inl ⟨old,fun d member same gone => ?_⟩
            cases List.mem_cons.mp member with
            | inl first => exact absurd (first ▸ gone) none_
            | inr later => exact lost d later same gone

/-! One job -/

-- Everyone the bridge gave a role and did not take it from is in the record.
def Kept (adapter : Adapter) (s : RolesState) : Prop := ∀ account ∈ s.given,
  Held s.record account ∧ some account ≠ adapter.personalOwner

theorem kept_remembered (adapter : Adapter) (s : RolesState) (h : Kept adapter s) : Remembered s := by
  intro account given _
  have held := (h account given).1
  exact ⟨held,fun job unwanted => want_drops s.record job account held unwanted⟩

-- What an `apply_roles` of the adapter leaves, by how far it came.
theorem applyRoles_cases (adapter : Adapter) (forge : RolesForge) (record : Option RepoRecord) (job : RolesJob) :
    let prepared := adapter.prepare forge (adapter.expressible (wantOf record job))
    let done := applyRoles adapter forge record job
    (∃ e, prepared = .error e ∧ done.record = record ∧ done.seen = none) ∨
    ∃ current wanted, prepared = .ok (current,wanted) ∧
      done.seen = some (current,(changeAll adapter forge current (todoOf current wanted)).1) ∧
      ((∃ e, (changeAll adapter forge current (todoOf current wanted)).2 = .error e ∧ done.record = record) ∨
        ((changeAll adapter forge current (todoOf current wanted)).2 = .ok () ∧
          formerRoles done.record = job.desired.filter (·.role ≠ .none))) := by
  intro prepared done
  cases read : prepared with
  | error e =>
    have eq : adapter.applyRoles forge (adapter.expressible (wantOf record job)) = (none,.error e) := by
      simp only [Adapter.applyRoles,show adapter.prepare forge _ = _ from read]
    refine .inl ⟨e,rfl,?_⟩
    simp only [done,applyRoles,eq,and_self]
  | ok found =>
    obtain ⟨current,wanted⟩ := found
    refine .inr ⟨current,wanted,rfl,?_⟩
    cases result : (changeAll adapter forge current (todoOf current wanted)).2 with
    | error e =>
      have eq : adapter.applyRoles forge (adapter.expressible (wantOf record job)) =
          (some (current,(changeAll adapter forge current (todoOf current wanted)).1),.error e) := by
        simp only [Adapter.applyRoles,show adapter.prepare forge _ = _ from read,result,Except.map]
      simp only [done,applyRoles,eq]
      exact ⟨trivial,.inl ⟨e,rfl,trivial⟩⟩
    | ok _ =>
      have eq : adapter.applyRoles forge (adapter.expressible (wantOf record job)) =
          (some (current,(changeAll adapter forge current (todoOf current wanted)).1),
            .ok (reportOf current wanted (changeAll adapter forge current (todoOf current wanted)).1)) := by
        simp only [Adapter.applyRoles,show adapter.prepare forge _ = _ from read,result,Except.map]
      simp only [done,applyRoles,eq]
      exact ⟨trivial,.inr ⟨trivial,rfl⟩⟩

section job

variable {adapter : Adapter} {s : RolesState} {job : RolesJob × RolesForge} {current : Standing} {wanted : Wanted}
  (prepared : adapter.prepare job.2 (adapter.expressible (wantOf s.record job.1)) = .ok (current,wanted))
include prepared

-- A role the job gave is one it was asked for, and not the owner's.
theorem granted_asked (c : RoleChange)
    (made : c ∈ (changeAll adapter job.2 current (todoOf current wanted)).1) (role : c.after ≠ .none)
    (fine : ∀ why, c.outcome ≠ .failed why) :
    GivesRole job.1.desired c.account.id ∧ some c.account.id ≠ adapter.personalOwner ∧
      ∃ x ∈ reached adapter job.2 current (todoOf current wanted), x.1 = c.account ∧ x.2 ≠ .none ∧ Accepted job.2 x.1.id := by
  have asked := todo_asked adapter job.2 _ current wanted prepared
  obtain ⟨x,here,done⟩ := (changeAll_facts adapter job.2 current _ fun x member => (asked x member).2).1 c made
  obtain ⟨account,after⟩ := change_made adapter job.2 current x.1 x.2 c done
  have inside : x ∈ todoOf current wanted := List.takeWhile_subset _ here
  obtain ⟨⟨a,member,eq,other⟩,differs⟩ := asked x inside
  have wants : a.role ≠ .none := by
    intro none_
    rw [none_,collapse_none] at eq
    exact role (after.trans (congrArg Prod.snd eq))
  have same : a.account = c.account := (congrArg Prod.fst eq).symm.trans account.symm
  have desired := want_role s.record job.1 a (List.mem_filter.mp member).1 wants
  have going : stops adapter job.2 current x = false := by
    cases stop : stops adapter job.2 current x with
    | false => rfl
    | true =>
      obtain ⟨e,failed⟩ := (change_cases adapter job.2 current x differs).1 stop
      rw [failed] at done
      cases done
  obtain ⟨d,found,accepted⟩ := (change_cases adapter job.2 current x differs).2 going
  rw [found] at done
  cases done
  exact ⟨⟨a,desired,by rw [same],wants⟩,same ▸ other,x,here,account.symm,after ▸ role,(accepted.mp fine).1⟩

theorem given_after (account : Nat) (given : account ∈ learned s.given
      (some (current,(changeAll adapter job.2 current (todoOf current wanted)).1))) :
    (account ∈ s.given ∧ current.have_ account ≠ .none ∧
      ∀ c ∈ (changeAll adapter job.2 current (todoOf current wanted)).1,
        c.account.id = account → c.after = .none → ∃ why, c.outcome = .failed why) ∨
    (GivesRole job.1.desired account ∧ some account ≠ adapter.personalOwner ∧
      ∃ x ∈ reached adapter job.2 current (todoOf current wanted), x.1.id = account ∧ x.2 ≠ .none ∧ Accepted job.2 x.1.id) := by
  cases noteChanges_cases _ _ account given with
  | inl old =>
    obtain ⟨before,stands⟩ := List.mem_filter.mp old.1
    exact .inl ⟨before,of_decide_eq_true stands,old.2⟩
  | inr new =>
    obtain ⟨c,made,rfl,role,fine⟩ := new
    obtain ⟨asked,other,x,here,same,facts⟩ := granted_asked prepared c made role fine
    exact .inr ⟨asked,other,x,here,by rw [same],facts⟩

-- In a job that comes to its end, whoever loses no role was asked to keep one.
theorem unremoved_desired (h : Kept adapter s) (careful : CarefulWith adapter s job current (todoOf current wanted))
    (ended : (changeAll adapter job.2 current (todoOf current wanted)).2 = .ok ())
    (account : Nat) (before : account ∈ s.given) (stands : current.have_ account ≠ .none)
    (lost : ∀ c ∈ (changeAll adapter job.2 current (todoOf current wanted)).1,
      c.account.id = account → c.after = .none → ∃ why, c.outcome = .failed why) :
    GivesRole job.1.desired account := by
  by_contra unwanted
  obtain ⟨held,other⟩ := h account before
  obtain ⟨a,member,rfl,none_⟩ := want_drops s.record job.1 account held unwanted
  have express : a ∈ adapter.expressible (wantOf s.record job.1) :=
    List.mem_filter.mpr ⟨member,decide_eq_true other⟩
  obtain ⟨x,inside,key,drop⟩ := drop_asked adapter job.2 _ current wanted prepared a express none_ other stands
  have asked := todo_asked adapter job.2 _ current wanted prepared
  have run := (changeAll_facts adapter job.2 current _ fun y inner => (asked y inner).2).2.1 ended
  obtain ⟨c,made,done⟩ := run.2 x inside
  obtain ⟨who,after⟩ := change_made adapter job.2 current x.1 x.2 c done
  obtain ⟨why,failed⟩ := lost c made (by rw [who,key]) (after.trans drop)
  have answered := careful.1 run.1 x inside drop (key.symm ▸ before) (key.symm ▸ unwanted)
  have going : stops adapter job.2 current x = false := by
    cases stop : stops adapter job.2 current x with
    | false => rfl
    | true =>
      obtain ⟨e,broken⟩ := (change_cases adapter job.2 current x (asked x inside).2).1 stop
      rw [broken] at done
      cases done
  obtain ⟨d,found,accepted⟩ := (change_cases adapter job.2 current x (asked x inside).2).2 going
  rw [found] at done
  cases done
  have fine := accepted.mpr ⟨answered.1,fun bot => Bool.false_ne_true (answered.2.symm.trans bot.2)⟩
  exact fine why failed

end job

theorem project_kept (adapter : Adapter) (s : RolesState) (job : RolesJob × RolesForge) (h : Kept adapter s)
    (careful : Careful adapter s job) : Kept adapter (project adapter s job) := by
  have cases_ := applyRoles_cases adapter job.2 s.record job.1
  cases cases_ with
  | inl unread =>
    obtain ⟨e,_,record,seen⟩ := unread
    simpa only [Kept,project,record,seen,learned] using h
  | inr ran =>
    obtain ⟨current,wanted,prepared,seen,result⟩ := ran
    have guarded : CarefulWith adapter s job current (todoOf current wanted) := by
      simpa only [Careful,prepared] using careful
    intro account given
    simp only [project,seen] at given
    have origin := given_after prepared account given
    cases result with
    | inl broken =>
      obtain ⟨e,failed,record⟩ := broken
      simp only [project,record]
      cases origin with
      | inl old => exact h account old.1
      | inr new =>
        obtain ⟨_,other,x,here,rfl,role,accepted⟩ := new
        have asked := todo_asked adapter job.2 _ current wanted prepared
        have short := (changeAll_facts adapter job.2 current _ fun y inner => (asked y inner).2).2.2 e failed
        exact ⟨guarded.2 short x here role accepted,other⟩
    | inr ended =>
      obtain ⟨ok,roles⟩ := ended
      have desired : GivesRole job.1.desired account ∧ some account ≠ adapter.personalOwner := by
        cases origin with
        | inl old => exact ⟨unremoved_desired prepared h guarded ok account old.1 old.2.1 old.2.2,(h account old.1).2⟩
        | inr new => exact ⟨new.1,new.2.1⟩
      obtain ⟨⟨a,member,same,role⟩,other⟩ := desired
      refine ⟨?_,other⟩
      simp only [Held,project,roles]
      exact ⟨a,List.mem_filter.mpr ⟨member,decide_eq_true role⟩,same,role⟩

/-! Any number of jobs -/

def projectAll (adapter : Adapter) (s : RolesState) (jobs : List (RolesJob × RolesForge)) : RolesState :=
  jobs.foldl (project adapter) s

-- Every job of the run meets the condition in the state it starts from.
def AllCareful (adapter : Adapter) (s : RolesState) : List (RolesJob × RolesForge) → Prop
  | [] => True
  | job :: rest => Careful adapter s job ∧ AllCareful adapter (project adapter s job) rest

theorem projectAll_kept (adapter : Adapter) (s : RolesState) (before after : List (RolesJob × RolesForge))
    (h : Kept adapter s) (careful : AllCareful adapter s (before ++ after)) :
    Kept adapter (projectAll adapter s before) := by
  induction before generalizing s with
  | nil => exact h
  | cons job rest ih => exact ih (project adapter s job) (project_kept adapter s job h careful.1) careful.2

-- No failed removal is forgotten, from a state in which the bridge gave no role.
theorem failed_removal_remembered (adapter : Adapter) (s : RolesState) (before after : List (RolesJob × RolesForge))
    (fresh : s.given = []) (careful : AllCareful adapter s (before ++ after)) :
    Remembered (projectAll adapter s before) := by
  have start : Kept adapter s := by
    intro account given
    rw [fresh] at given
    cases given
  exact kept_remembered adapter _ (projectAll_kept adapter s before after start careful)

namespace RolesSample

def adapter : Adapter := ⟨[.read,.triage,.write,.maintain,.admin],none,[]⟩
def repo : Resource := { host := [], owner := [], rest := [] }
def bob : ForgeAccount := ⟨2,[98]⟩
def carol : ForgeAccount := ⟨3,[99]⟩
def fresh : RolesState := ⟨none,[],[]⟩

def job (desired : List RoleAssignment) : RolesJob := { ns := [], repo := repo, forgeId := 7, desired := desired }
def shows (collaborators : List Collaborator) (reply : Nat → Except ForgeError Bool) : RolesForge :=
  { collaborators := .ok collaborators, reply := reply }

def granted : RolesJob × RolesForge := (job [⟨bob,.write⟩,⟨carol,.write⟩],shows [] fun _ => .ok false)
def removed : RolesJob × RolesForge :=
  (job [⟨carol,.write⟩],shows [⟨bob,.write,false⟩,⟨carol,.write,false⟩] fun _ => .ok false)

theorem failed_removal_remembered_sample : Remembered (projectAll adapter fresh [granted,removed]) :=
  failed_removal_remembered adapter fresh [granted,removed] [] rfl (by
    refine ⟨?_,?_,trivial⟩ <;> decide)

-- Bob's removal is refused, and the record written after it no longer has him.
def refused : RolesJob × RolesForge := (job [],shows [⟨bob,.write,false⟩] fun _ => .error (.rejected 500 []))
-- Bob gets a role before the answer about Carol ends the job.
def limited : RolesJob × RolesForge :=
  (job [⟨bob,.write⟩,⟨carol,.write⟩],shows [] fun account =>
    if account = 3 then .error (.rateLimited none) else .ok false)
def unlisted : RolesJob × RolesForge := (job [],shows [⟨bob,.write,false⟩] fun _ => .ok false)

theorem failed_removal_forgotten :
    ¬Remembered (projectAll adapter fresh [(job [⟨bob,.write⟩],shows [] fun _ => .ok false),refused]) ∧
      ¬Remembered (projectAll adapter fresh [limited,unlisted]) := by
  constructor
  · intro known
    exact absurd (known 2 (by decide) (by decide)).1 (by decide)
  · intro known
    exact absurd (known 2 (by decide) (by decide)).1 (by decide)

end RolesSample
end VerifiableGit.Governance
