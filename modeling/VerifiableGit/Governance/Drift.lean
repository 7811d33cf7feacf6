import VerifiableGit.Governance.Model
import VerifiableGit.Governance.RoleMaps

-- A repository as the forge shows it against the VTC's projection (vgi-forge,
-- event.rs).
namespace VerifiableGit.Diff
open Text
open Governance (Resource ForgeAccount ForgeRole RoleAssignment Collaborator Visibility MergeMethod ProtectionGap ProtectionState
  RepoState Projection)

inductive Drift where
  | unexpectedRole (account : ForgeAccount) (observed : ForgeRole)
  | missingRole (account : ForgeAccount) (expected : ForgeRole)
  | roleMismatch (account : ForgeAccount) (expected observed : ForgeRole)
  | protectionWeakened (gaps : List ProtectionGap)
  | renamed (expected observed : Resource)
  | replaced (expected observed : Nat)
  | archiveMismatch (expected observed : Bool)
  | visibilityMismatch (expected observed : Visibility)
deriving DecidableEq

def protectionGaps (observed : ProtectionState) (check : Bytes) : List ProtectionGap :=
  if observed.present then
    (if observed.enforced then [] else [.notEnforced]) ++
    (if observed.coversDefaultBranch then [] else [.defaultBranchNotCovered]) ++
    (if observed.requiresPullRequest then [] else [.pullRequestNotRequired]) ++
    (if check ∈ observed.requiredChecks then [] else [.checkNotRequired check]) ++
    (if observed.blocksForcePush then [] else [.forcePushAllowed]) ++
    (if observed.blocksDeletion then [] else [.deletionAllowed]) ++
    (if observed.bypassActors = [] then [] else [.bypassActors observed.bypassActors]) ++ observed.otherGaps
  else .missing :: observed.otherGaps

-- The first loop of `role_drift`: one account the VTC lists.
def wantedDrift (collaborators : List Collaborator) (want : RoleAssignment) : List Drift :=
  match collaborators.find? fun c => c.account.id = want.account.id with
  | none => if want.role ≠ .none then [.missingRole want.account want.role] else []
  | some c =>
    if want.role = .none then [.unexpectedRole c.account c.role]
    else if c.role ≠ want.role then [.roleMismatch c.account want.role c.role]
    else []

-- The second: one collaborator the forge shows.
def unlistedDrift (desired : List RoleAssignment) (c : Collaborator) : List Drift :=
  if c.role ≠ .none ∧ ¬desired.any (·.account.id = c.account.id) then [.unexpectedRole c.account c.role] else []

def roleDrift (collaborators : List Collaborator) (desired : List RoleAssignment) : List Drift :=
  desired.flatMap (wantedDrift collaborators) ++ collaborators.flatMap (unlistedDrift desired)

def approvalGap (observed : ProtectionState) (required : UInt8) : List ProtectionGap :=
  if observed.present ∧ observed.requiredApprovals < required then [.approvalsBelow required observed.requiredApprovals]
  else []

def protectionDrift (observed : ProtectionState) (desired : Projection) : List Drift :=
  match desired.requiredCheck with
  | none => []
  | some check =>
    let gaps := protectionGaps observed check ++ approvalGap observed desired.requiredApprovals
    if gaps = [] then [] else [.protectionWeakened gaps]

-- Of a different repository nothing else is compared.
def defaultDiff (observed : RepoState) (desired : Projection) : List Drift :=
  match desired.forgeId.filter (· ≠ observed.forgeId) with
  | some expected => [.replaced expected observed.forgeId]
  | none =>
    (if observed.resource ≠ desired.resource then [.renamed desired.resource observed.resource] else []) ++
    (if observed.archived ≠ desired.archived then [.archiveMismatch desired.archived observed.archived] else []) ++
    (match desired.visibility.filter (· ≠ observed.visibility) with
      | some expected => [.visibilityMismatch expected observed.visibility]
      | none => []) ++
    protectionDrift observed.protection desired ++ roleDrift observed.collaborators desired.roles

/-! Roles as maps from accounts -/

inductive RoleDifference where
  | unexpected (account : Nat) (observed : ForgeRole)
  | missing (account : Nat) (expected : ForgeRole)
  | wrong (account : Nat) (expected observed : ForgeRole)
deriving DecidableEq

def RoleDifference.account : RoleDifference → Nat
  | .unexpected account _ | .missing account _ | .wrong account _ _ => account

def Drift.role : Drift → Option RoleDifference
  | .unexpectedRole account observed => some (.unexpected account.id observed)
  | .missingRole account expected => some (.missing account.id expected)
  | .roleMismatch account expected observed => some (.wrong account.id expected observed)
  | _ => none

def higher (a b : ForgeRole) : ForgeRole := if a.level ≤ b.level then b else a

def entries (collaborators : List Collaborator) (account : Nat) : List ForgeRole :=
  (collaborators.filter fun c => c.account.id = account).map (·.role)

-- The highest role an account is listed with, pending invitations included.
def effectiveRole (collaborators : List Collaborator) (account : Nat) : ForgeRole :=
  (entries collaborators account).foldr higher .none

def desiredRole (desired : List RoleAssignment) (account : Nat) : ForgeRole :=
  ((desired.find? fun d => d.account.id = account).map (·.role)).getD .none

-- What two maps differ in at one account.
def difference (account : Nat) (want have_ : ForgeRole) : List RoleDifference :=
  if want = have_ then []
  else if want = .none then [.unexpected account have_]
  else if have_ = .none then [.missing account want]
  else [.wrong account want have_]

def reportedFor (drift : List Drift) (account : Nat) : List RoleDifference :=
  (drift.filterMap Drift.role).filter fun d => d.account = account

structure RolesReported (collaborators : List Collaborator) (desired : List RoleAssignment) (drift : List Drift) : Prop where
  empty : drift.filterMap Drift.role = [] ↔ ∀ account, effectiveRole collaborators account = desiredRole desired account
  each : ∀ account, reportedFor drift account =
    difference account (desiredRole desired account) (effectiveRole collaborators account)

-- The first entry of a listed account has its highest role, and an account not
-- listed has one at most.
def PlainEntries (collaborators : List Collaborator) (desired : List RoleAssignment) : Prop := ∀ account,
  (desired.any (·.account.id = account) = true →
    ∀ first ∈ (entries collaborators account).head?, first ≠ .none ∧ first = effectiveRole collaborators account) ∧
  (desired.any (·.account.id = account) = false →
    ((entries collaborators account).filter (· ≠ .none)).length ≤ 1)

section
variable (collaborators : List Collaborator) (desired : List RoleAssignment)

theorem first_entry (account : Nat) :
    (collaborators.find? fun c => c.account.id = account).map (·.role) = (entries collaborators account).head? := by
  rw [entries,List.head?_map,← List.head?_filter]

theorem find_account (account : Nat) (c : Collaborator)
    (found : (collaborators.find? fun c => c.account.id = account) = some c) : c.account.id = account :=
  of_decide_eq_true (List.find?_some (p := fun c : Collaborator => decide (c.account.id = account)) found)

theorem wanted_role (want : RoleAssignment) : (wantedDrift collaborators want).filterMap Drift.role =
    match (entries collaborators want.account.id).head? with
    | none => if want.role ≠ .none then [.missing want.account.id want.role] else []
    | some role =>
      if want.role = .none then [.unexpected want.account.id role]
      else if role ≠ want.role then [.wrong want.account.id want.role role]
      else [] := by
  rw [← first_entry,wantedDrift]
  cases found : collaborators.find? fun c => c.account.id = want.account.id with
  | none =>
    dsimp only [Option.map_none]
    split <;> rfl
  | some c =>
    have same := find_account collaborators _ c found
    dsimp only [Option.map_some]
    rw [← same]
    split
    · rfl
    · split <;> rfl

theorem wanted_account (want : RoleAssignment) (d : RoleDifference)
    (member : d ∈ (wantedDrift collaborators want).filterMap Drift.role) : d.account = want.account.id := by
  rw [wanted_role] at member
  split at member
  · split at member
    · rw [List.mem_singleton.mp member]; rfl
    · cases member
  · split at member
    · rw [List.mem_singleton.mp member]; rfl
    · split at member
      · rw [List.mem_singleton.mp member]; rfl
      · cases member

theorem unlisted_role (c : Collaborator) : (unlistedDrift desired c).filterMap Drift.role =
    if c.role ≠ .none ∧ ¬desired.any (·.account.id = c.account.id) then [.unexpected c.account.id c.role] else [] := by
  unfold unlistedDrift
  split <;> rfl

-- What the first loop reports of one account.
theorem wanted_reported (distinct : (desired.map (·.account.id)).Nodup) (account : Nat) :
    reportedFor (desired.flatMap (wantedDrift collaborators)) account =
      match desired.find? fun d => d.account.id = account with
      | some want => (wantedDrift collaborators want).filterMap Drift.role
      | none => [] := by
  induction desired with
  | nil => rfl
  | cons want rest ih =>
    obtain ⟨fresh,later⟩ := List.nodup_cons.mp distinct
    have step : reportedFor ((want :: rest).flatMap (wantedDrift collaborators)) account =
        ((wantedDrift collaborators want).filterMap Drift.role).filter (fun d => d.account = account) ++
          reportedFor (rest.flatMap (wantedDrift collaborators)) account := by
      simp only [reportedFor,List.flatMap_cons,List.filterMap_append,List.filter_append]
    rw [step,ih later]
    by_cases same : want.account.id = account
    · have others : (rest.find? fun d => d.account.id = account) = none := by
        refine List.find?_eq_none.mpr fun d member => ?_
        have here : d.account.id ∈ rest.map (·.account.id) := List.mem_map.mpr ⟨d,member,rfl⟩
        intro eq
        rw [of_decide_eq_true eq,← same] at here
        exact fresh here
      have kept : ((wantedDrift collaborators want).filterMap Drift.role).filter (fun d => d.account = account) =
          (wantedDrift collaborators want).filterMap Drift.role := by
        refine List.filter_eq_self.mpr fun d member => ?_
        exact decide_eq_true ((wanted_account collaborators want d member).trans same)
      rw [others,kept,List.find?_cons_of_pos (p := fun d : RoleAssignment => decide (d.account.id = account)) (decide_eq_true same)]
      exact List.append_nil _
    · have dropped : ((wantedDrift collaborators want).filterMap Drift.role).filter (fun d => d.account = account) = [] := by
        refine List.filter_eq_nil_iff.mpr fun d member eq => same ?_
        exact (wanted_account collaborators want d member).symm.trans (of_decide_eq_true eq)
      rw [dropped,List.find?_cons_of_neg (p := fun d : RoleAssignment => decide (d.account.id = account)) (by simpa using same)]
      rfl

-- What the second loop does.
theorem unlisted_reported (account : Nat) : reportedFor (collaborators.flatMap (unlistedDrift desired)) account =
    if desired.any (·.account.id = account) then []
    else ((entries collaborators account).filter (· ≠ .none)).map (.unexpected account) := by
  induction collaborators with
  | nil => simp [reportedFor,entries]
  | cons c rest ih =>
    have step : reportedFor ((c :: rest).flatMap (unlistedDrift desired)) account =
        ((unlistedDrift desired c).filterMap Drift.role).filter (fun d => d.account = account) ++
          reportedFor (rest.flatMap (unlistedDrift desired)) account := by
      simp only [reportedFor,List.flatMap_cons,List.filterMap_append,List.filter_append]
    rw [step,ih,unlisted_role]
    by_cases same : c.account.id = account
    · subst same
      cases listed : desired.any (·.account.id = c.account.id) with
      | true => simp
      | false =>
        by_cases none_ : c.role = .none
        · simp [entries,none_]
        · simp [entries,none_,RoleDifference.account]
    · have apart : (entries (c :: rest) account) = entries rest account := by simp [entries,same]
      rw [apart]
      split
      · simp [RoleDifference.account,same]
      · simp

theorem higher_none (role : ForgeRole) : higher .none role = role ∧ higher role .none = role := by
  cases role <;> exact ⟨rfl,rfl⟩

-- Entries with no role do not count.
theorem effective_given (account : Nat) : effectiveRole collaborators account =
    ((entries collaborators account).filter (· ≠ .none)).foldr higher .none := by
  unfold effectiveRole
  induction entries collaborators account with
  | nil => rfl
  | cons role rest ih =>
    by_cases none_ : role = .none
    · rw [List.foldr_cons,ih,none_,(higher_none _).1]
      simp
    · simp [none_,ih]

-- One account that the VTC lists at `want`.
theorem listed_exact (account : Nat) (want : ForgeRole) :
    (match (entries collaborators account).head? with
      | none => if want ≠ .none then [.missing account want] else []
      | some role =>
        if want = .none then [.unexpected account role]
        else if role ≠ want then [.wrong account want role]
        else []) = difference account want (effectiveRole collaborators account) ↔
      ∀ first ∈ (entries collaborators account).head?, first ≠ .none ∧ first = effectiveRole collaborators account := by
  cases shown : (entries collaborators account).head? with
  | none =>
    have empty : effectiveRole collaborators account = .none := by
      rw [effectiveRole,List.head?_eq_none_iff.mp shown]
      rfl
    rw [empty]
    by_cases none_ : want = .none <;> simp [difference,none_]
  | some first =>
    generalize effectiveRole collaborators account = role
    by_cases none_ : want = .none
    · subst none_
      by_cases away : role = .none
      · subst away
        by_cases same : first = .none <;> simp [difference,same]
      · by_cases same : first = role
        · subst same
          simp [difference,away,Ne.symm away]
        · simp [difference,Ne.symm away,same]
    · by_cases same : first = want
      · subst same
        by_cases agrees : first = role
        · subst agrees
          simp [difference,none_]
        · by_cases away : role = .none <;> simp [difference,none_,agrees,away]
      · by_cases agrees : first = role
        · subst agrees
          by_cases away : first = .none <;> simp [difference,none_,Ne.symm none_,same,Ne.symm same,away]
        · by_cases held : want = role
          · subst held
            simp [difference,none_,same]
          · by_cases away : role = .none <;> simp [difference,none_,same,agrees,held,away]

-- And one it does not.
theorem unlisted_exact (account : Nat) :
    ((entries collaborators account).filter (· ≠ .none)).map (.unexpected account) =
      difference account .none (effectiveRole collaborators account) ↔
    ((entries collaborators account).filter (· ≠ .none)).length ≤ 1 := by
  have given : ∀ role ∈ (entries collaborators account).filter (· ≠ .none), role ≠ .none :=
    fun role member => of_decide_eq_true (List.mem_filter.mp member).2
  rw [effective_given]
  generalize (entries collaborators account).filter (· ≠ .none) = roles at given ⊢
  rcases roles with _ | ⟨role,_ | ⟨other,rest⟩⟩
  · simp [difference]
  · have here := given role List.mem_cons_self
    simp [difference,(higher_none role).2,Ne.symm here]
  · have long (held : ForgeRole) : (difference account .none held).length ≤ 1 := by
      unfold difference
      split <;> [simp; (split <;> [simp; (split <;> simp)])]
    constructor
    · intro same
      have short := long (List.foldr higher .none (role :: other :: rest))
      rw [← same] at short
      simp at short
    · intro short
      simp at short

theorem difference_empty (account : Nat) (want held : ForgeRole) : difference account want held = [] ↔ held = want := by
  unfold difference
  by_cases same : want = held
  · simp [same]
  · rw [if_neg same]
    have apart : ¬held = want := fun eq => same eq.symm
    split
    · simp [apart]
    · split <;> simp [apart]

theorem reported_exact (distinct : (desired.map (·.account.id)).Nodup) (account : Nat) :
    reportedFor (roleDrift collaborators desired) account =
      difference account (desiredRole desired account) (effectiveRole collaborators account) ↔
    (desired.any (·.account.id = account) = true →
      ∀ first ∈ (entries collaborators account).head?, first ≠ .none ∧ first = effectiveRole collaborators account) ∧
    (desired.any (·.account.id = account) = false →
      ((entries collaborators account).filter (· ≠ .none)).length ≤ 1) := by
  have parts : reportedFor (roleDrift collaborators desired) account =
      reportedFor (desired.flatMap (wantedDrift collaborators)) account ++
        reportedFor (collaborators.flatMap (unlistedDrift desired)) account := by
    simp only [roleDrift,reportedFor,List.filterMap_append,List.filter_append]
  rw [parts,wanted_reported collaborators desired distinct,unlisted_reported]
  cases found : desired.find? fun d => d.account.id = account with
  | some want =>
    have same : want.account.id = account :=
      of_decide_eq_true (List.find?_some (p := fun d : RoleAssignment => decide (d.account.id = account)) found)
    have listed : desired.any (·.account.id = account) = true :=
      List.any_eq_true.mpr ⟨want,List.mem_of_find?_eq_some found,decide_eq_true same⟩
    have role : desiredRole desired account = want.role := by simp [desiredRole,found]
    simp only [listed,if_true,List.append_nil,role,true_implies,Bool.true_eq_false,false_implies,and_true]
    rw [wanted_role,same]
    exact listed_exact collaborators account want.role
  | none =>
    have unlisted : desired.any (·.account.id = account) = false := by
      refine List.any_eq_false.mpr fun d member => ?_
      exact List.find?_eq_none.mp found d member
    have role : desiredRole desired account = .none := by simp [desiredRole,found]
    simp only [unlisted,Bool.false_eq_true,if_false,List.nil_append,role,false_implies,true_implies,true_and]
    exact unlisted_exact collaborators account

end

theorem role_empty (drift : List Drift) : drift.filterMap Drift.role = [] ↔ ∀ account, reportedFor drift account = [] := by
  unfold reportedFor
  constructor
  · intro none_ account
    rw [none_]
    rfl
  · intro each
    refine List.eq_nil_iff_forall_not_mem.mpr fun d member => ?_
    have gone := each d.account
    exact List.not_mem_nil (gone ▸ List.mem_filter.mpr ⟨member,decide_eq_true rfl⟩)

-- The roles reported are the points where the two maps differ exactly when no
-- entry hides or repeats another.
theorem role_drift_exact (collaborators : List Collaborator) (desired : List RoleAssignment)
    (distinct : (desired.map (·.account.id)).Nodup) :
    RolesReported collaborators desired (roleDrift collaborators desired) ↔ PlainEntries collaborators desired := by
  constructor
  · exact fun reported account => (reported_exact collaborators desired distinct account).mp (reported.each account)
  · intro plain
    have each (account : Nat) := (reported_exact collaborators desired distinct account).mpr (plain account)
    refine ⟨?_,each⟩
    rw [role_empty]
    refine forall_congr' fun account => ?_
    rw [each account,difference_empty]

theorem protection_role (observed : ProtectionState) (desired : Projection) :
    (protectionDrift observed desired).filterMap Drift.role = [] := by
  unfold protectionDrift
  split
  · rfl
  · dsimp only
    split <;> rfl

-- Of the repository that is recorded, the roles are those of the loops.
theorem default_diff_roles (observed : RepoState) (desired : Projection)
    (compared : desired.forgeId.filter (· ≠ observed.forgeId) = none) :
    (defaultDiff observed desired).filterMap Drift.role =
      (roleDrift observed.collaborators desired.roles).filterMap Drift.role := by
  have renamed : (if observed.resource ≠ desired.resource then [Drift.renamed desired.resource observed.resource]
      else []).filterMap Drift.role = [] := by
    split <;> rfl
  have archived : (if observed.archived ≠ desired.archived then
      [Drift.archiveMismatch desired.archived observed.archived] else []).filterMap Drift.role = [] := by
    split <;> rfl
  simp only [defaultDiff,compared,List.filterMap_append,renamed,archived,protection_role,List.nil_append]
  split <;> rfl

-- Of another one, none are.
theorem default_diff_exact (observed : RepoState) (desired : Projection)
    (distinct : (desired.roles.map (·.account.id)).Nodup) :
    RolesReported observed.collaborators desired.roles (defaultDiff observed desired) ↔
      if desired.forgeId.any (· ≠ observed.forgeId) then
        ∀ account, effectiveRole observed.collaborators account = desiredRole desired.roles account
      else PlainEntries observed.collaborators desired.roles := by
  cases other : desired.forgeId.filter (· ≠ observed.forgeId) with
  | some expected =>
    have replaced : desired.forgeId.any (· ≠ observed.forgeId) = true := by
      obtain ⟨found,differs⟩ := Option.filter_eq_some_iff.mp other
      simpa [found] using differs
    have silent : (defaultDiff observed desired).filterMap Drift.role = [] := by
      simp only [defaultDiff,other]
      rfl
    have none_ (account : Nat) : reportedFor (defaultDiff observed desired) account = [] := by
      rw [reportedFor,silent]
      rfl
    rw [if_pos replaced]
    constructor
    · exact fun reported => reported.empty.mp silent
    · intro equal
      refine ⟨⟨fun _ => equal,fun _ => silent⟩,fun account => ?_⟩
      exact (none_ account).trans ((difference_empty _ _ _).mpr (equal account)).symm
  | none =>
    have same : desired.forgeId.any (· ≠ observed.forgeId) = false := by
      cases known : desired.forgeId with
      | none => rfl
      | some expected => simpa [known] using other
    have roles := default_diff_roles observed desired other
    have each (account : Nat) : reportedFor (defaultDiff observed desired) account =
        reportedFor (roleDrift observed.collaborators desired.roles) account := by
      simp only [reportedFor,roles]
    rw [same,if_neg Bool.false_ne_true,← role_drift_exact observed.collaborators desired.roles distinct]
    constructor
    · exact fun reported => ⟨roles ▸ reported.empty,fun account => (each account) ▸ reported.each account⟩
    · exact fun reported => ⟨roles.symm ▸ reported.empty,fun account => (each account).symm ▸ reported.each account⟩

namespace Sample

def repo : Resource := ⟨[104],[97],[[120]],by decide⟩
def bob : ForgeAccount := ⟨2,[98]⟩
def wanted : Projection := { resource := repo, roles := [⟨bob,.read⟩] }

-- A collaborator who reads, and a pending invitation of the same account at admin.
def hidden : RepoState := { resource := repo, forgeId := 7, collaborators := [⟨bob,.read,false⟩,⟨bob,.admin,true⟩] }
def shown : RepoState := { resource := repo, forgeId := 7, collaborators := [⟨bob,.admin,true⟩,⟨bob,.read,false⟩] }

theorem hidden_unreported : ¬RolesReported hidden.collaborators wanted.roles (defaultDiff hidden wanted) ∧
    defaultDiff hidden wanted = [] ∧ effectiveRole hidden.collaborators 2 = .admin ∧ desiredRole wanted.roles 2 = .read := by
  have silent : defaultDiff hidden wanted = [] := by decide
  refine ⟨fun reported => ?_,silent,by decide,by decide⟩
  have same := reported.empty.mp (by rw [silent]; rfl) 2
  exact absurd same (by decide)

theorem shown_reported : RolesReported shown.collaborators wanted.roles (defaultDiff shown wanted) := by
  refine (default_diff_exact shown wanted (by decide)).mpr ?_
  intro account
  by_cases same : account = 2
  · subst same
    exact ⟨fun _ first member => by cases member; decide,fun unlisted => by cases unlisted⟩
  · have apart : ¬2 = account := fun eq => same eq.symm
    simp [wanted,shown,entries,bob,apart]

end Sample

end VerifiableGit.Diff
