import Mathlib.Data.Fintype.EquivFin
import VerifiableGit.Governance.Outside

-- A delivery verified for one owner, and the namespaces of every other.
namespace VerifiableGit.Governance
open Text Library

variable {v : View} {s : Store}

theorem confirmTransferIn_spares (h : Outside v s) (setup : Setup) (answers : Answers) (toNs : NamespaceRecord)
    (forgeId : Nat) (covered : v.scope.covers toNs.resource = true)
    (moves : ∀ now oldNs, answers.movedTo toNs.resource forgeId = .ok (some now) → toNs.resource.contains now = true →
      s.namespaces.lookup v.ns = some oldNs → oldNs.resource.contains now = false →
      v.moved (oldNs.resource.host,forgeId)) :
    Spares v s (s.confirmTransferIn setup answers toNs forgeId) := by
  unfold Store.confirmTransferIn
  cases found : s.record toNs.resource.host forgeId with
  | none => exact .refl h.keyed
  | some r =>
    dsimp only
    split
    · exact .refl h.keyed
    · cases old : s.namespaceRecord r.ns with
      | none => exact .refl h.keyed
      | some oldNs =>
        dsimp only
        split
        · split
          · next now asked =>
            split
            · next confirmed =>
              simp only [Bool.and_eq_true,Bool.not_eq_true'] at confirmed
              apply transferredOut_spares h
              · by_cases mine : oldNs.id = v.ns
                · refine .inl (moves now oldNs asked confirmed.1 ?_ confirmed.2)
                  rw [← mine,h.keyed.namespaces r.ns oldNs old]
                  exact old
                · exact .inr mine
              · have here := contains_covered v.scope toNs.resource now covered confirmed.1
                exact fun other first second => receives_within v.scope oldNs now other here first second
            · exact .refl h.keyed
          · exact .refl h.keyed
        · exact .refl h.keyed

theorem renameRecord_spares (h : Outside v s) (ns : Bytes) (forgeId : Nat) (after : Resource) (ours : v.ours ns) :
    Spares v s (s.renameRecord ns forgeId after) := by
  apply updateRecord_spares h.keyed
  · intro r found
    have own := h.keyed.records _ r found
    have same : r.forgeId = forgeId := congrArg Prod.snd own
    split
    · exact ⟨rfl,by rw [RepoRecord.key,same]⟩
    · exact ⟨rfl,own⟩
  · refine .inr fun r found => ?_
    by_cases mine : r.ns = ns
    · exact .inl fun eq => h.apart (eq ▸ mine ▸ ours)
    · exact .inr (if_neg mine)

theorem markSeen_spares (h : Outside v s) (host : Bytes) (delivery : Option Bytes) :
    Spares v s (s.markSeen host delivery) := .same h.keyed rfl rfl rfl

-- What a transfer into a namespace in scope may move out of this one.
def Moves (v : View) (answers : Answers) (s : Store) (kind : ForgeEventKind) : Prop :=
  ∀ forgeId fromNamespace after, kind = .repoTransferred forgeId fromNamespace after →
    ∀ toNs now oldNs, s.namespaceIn v.scope after = some toNs →
      answers.movedTo toNs.resource forgeId = .ok (some now) → toNs.resource.contains now = true →
      s.namespaces.lookup v.ns = some oldNs → oldNs.resource.contains now = false →
      v.moved (oldNs.resource.host,forgeId)

theorem arrived_spares (h : Outside v s) (setup : Setup) (answers : Answers) (forgeId : Nat)
    (fromNamespace : Option Resource) (after : Resource)
    (moves : Moves v answers s (.repoTransferred forgeId fromNamespace after)) :
    Spares v s (match s.namespaceIn v.scope after with
      | some t => (s.confirmTransferIn setup answers t forgeId).reportUnmanaged t after forgeId
      | none => s) := by
  cases found : s.namespaceIn v.scope after with
  | none => exact .refl h.keyed
  | some t =>
    obtain ⟨_,_,covered,_⟩ := namespaceIn_facts h.keyed _ _ _ found
    have ours := namespaceIn_ours h after t found
    refine (confirmTransferIn_spares h setup answers t forgeId covered fun now oldNs => ?_).andThen h fun outside =>
      reportUnmanaged_spares outside t after forgeId ours
    exact moves forgeId fromNamespace after rfl t now oldNs found

section
variable (h : Outside v s) (setup : Setup) (answers : Answers)
include h

theorem ours_other (ours : v.ours ns) : ns ≠ v.ns := fun eq => h.apart (eq ▸ ours)

theorem created_spares (repo : Resource) (forgeId : Nat) :
    Spares v s (s.handle setup answers v.scope (.repoCreated repo forgeId)) := by
  unfold Store.handle
  dsimp only
  cases found : s.namespaceIn v.scope repo with
  | none => exact .refl h.keyed
  | some ns =>
    dsimp only
    split
    · exact .refl h.keyed
    · exact reportUnmanaged_spares h ns repo forgeId (namespaceIn_ours h repo ns found)

theorem deleted_spares (repo : Resource) (forgeId : Nat) :
    Spares v s (s.handle setup answers v.scope (.repoDeleted repo forgeId)) := by
  unfold Store.handle
  dsimp only
  cases found : s.namespaceIn v.scope repo with
  | none => exact .refl h.keyed
  | some ns =>
    dsimp only
    split
    · exact .refl h.keyed
    · cases done : s.detachFrom ns forgeId with
      | none => exact .refl h.keyed
      | some t =>
        have other := ours_other h (namespaceIn_ours h repo ns found)
        exact (detachFrom_spares h.keyed ns forgeId t done (.inr other)).andThen h fun outside =>
          report_spares outside ns.id _

theorem renamed_spares (forgeId : Nat) (before after : Resource) :
    Spares v s (s.handle setup answers v.scope (.repoRenamed forgeId before after)) := by
  unfold Store.handle
  dsimp only
  cases found : s.namespaceIn v.scope after with
  | none => exact .refl h.keyed
  | some ns =>
    have ours := namespaceIn_ours h after ns found
    dsimp only
    split
    · exact .refl h.keyed
    · refine (detachReusedName_spares h ns.id after forgeId ours).andThen h fun outside => ?_
      refine (renameRecord_spares outside ns.id forgeId after ours).andThen outside fun outside => ?_
      exact report_spares outside ns.id _

theorem transferred_spares (forgeId : Nat) (fromNamespace : Option Resource) (after : Resource)
    (moves : Moves v answers s (.repoTransferred forgeId fromNamespace after)) :
    Spares v s (s.handle setup answers v.scope (.repoTransferred forgeId fromNamespace after)) := by
  unfold Store.handle
  dsimp only
  have arrived := arrived_spares h setup answers forgeId fromNamespace after moves
  split
  · exact arrived
  · next source _ =>
    split
    · exact arrived
    · next fromNs found =>
      split
      · obtain ⟨_,_,covered,_⟩ := namespaceIn_facts h.keyed _ _ _ found
        have other := ours_other h (namespaceIn_ours h source fromNs found)
        exact transferredOut_spares h fromNs source after forgeId (.inr other) (receives_own fromNs after covered)
      · exact arrived

theorem collaborator_spares (repo : Resource) (forgeId : Nat) (account : ForgeAccount)
    (seen : ∀ n r, Seen v (answers.inspect n r)) :
    Spares v s (s.handle setup answers v.scope (.collaboratorChanged repo forgeId account)) := by
  unfold Store.handle
  dsimp only
  cases found : (s.namespaceIn v.scope repo).bind fun ns => s.load setup ns.id with
  | none => exact .refl h.keyed
  | some ctx =>
    obtain ⟨ns,inside,loaded⟩ := Option.bind_eq_some_iff.mp found
    have ours : v.ours ctx.id := by
      rw [(load_facts h.keyed setup ns.id ctx loaded).2]
      exact namespaceIn_ours h repo ns inside
    dsimp only
    split
    · exact .refl h.keyed
    · next state _ =>
      let role := (state.collaborators.find? (·.account.id = account.id)).map (·.role)
      refine (report_spares h ctx.id (.roleChanged forgeId repo account role)).andThen h fun outside => ?_
      split
      · exact inspectIn_spares outside setup ctx _ ours (seen 1 repo)
      · exact .refl outside.keyed

theorem protection_spares (repo : Option Resource) (ns : Resource)
    (seen : ∀ n r, Seen v (answers.inspect n r)) :
    Spares v s (s.handle setup answers v.scope (.protectionChanged repo ns)) := by
  cases repo with
  | some repo =>
    unfold Store.handle
    dsimp only
    cases found : s.namespaceIn v.scope repo with
    | none => exact .refl h.keyed
    | some ns => exact inspectIn_spares h setup ns _ (namespaceIn_ours h repo ns found) (seen 0 repo)
  | none =>
    unfold Store.handle
    dsimp only
    cases found : (s.namespaceIn v.scope ns).bind fun ns => s.load setup ns.id with
    | none => exact .refl h.keyed
    | some ctx =>
      obtain ⟨n,inside,loaded⟩ := Option.bind_eq_some_iff.mp found
      obtain ⟨row,named⟩ := load_facts h.keyed setup n.id ctx loaded
      have ours : v.ours ctx.id := named.symm ▸ namespaceIn_ours h ns n inside
      have covered := (h.within ctx.id ctx (named.symm ▸ row)).mpr ours
      exact sweepFrom_spares h setup ctx false answers.inspect 0 _ covered ours seen

theorem installation_spares (ns : Resource) (installationId : Nat) (change : InstallationChange) :
    Spares v s (s.handle setup answers v.scope (.installationChanged ns installationId change)) := by
  unfold Store.handle
  dsimp only
  cases found : s.namespaceIn v.scope ns with
  | none => exact .refl h.keyed
  | some n =>
    dsimp only
    split
    · exact .refl h.keyed
    · cases change <;> first | exact report_spares h n.id _ | exact .refl h.keyed

end

theorem handle_spares (h : Outside v s) (setup : Setup) (answers : Answers) (kind : ForgeEventKind)
    (seen : ∀ n r, Seen v (answers.inspect n r)) (moves : Moves v answers s kind) :
    Spares v s (s.handle setup answers v.scope kind) := by
  cases kind with
  | repoCreated repo forgeId => exact created_spares h setup answers repo forgeId
  | repoDeleted repo forgeId => exact deleted_spares h setup answers repo forgeId
  | repoRenamed forgeId before after => exact renamed_spares h setup answers forgeId before after
  | repoTransferred forgeId fromNamespace after => exact transferred_spares h setup answers forgeId fromNamespace after moves
  | collaboratorChanged repo forgeId account => exact collaborator_spares h setup answers repo forgeId account seen
  | protectionChanged repo ns => exact protection_spares h setup answers repo ns seen
  | installationChanged ns installationId change => exact installation_spares h setup answers ns installationId change
  | repoArchived | repoVisibilityChanged | orgMembershipChanged | teamMembershipChanged | pullRequestOpened =>
    exact .refl h.keyed

/-! Pushes and pull requests -/

-- The repository a delivery names by its id is recorded for no namespace, or
-- for one in scope.
def Admitted (v : View) (s : Store) (key : RepoKey) : Prop := ∀ r, s.repos.lookup key = some r → v.ours r.ns

theorem Admitted.later {t : Store} {key : RepoKey} (h : Admitted v s key) (stems : Stems s t) : Admitted v t key := by
  intro r found
  obtain ⟨_,old,was,same⟩ := stems.records key r found
  exact same ▸ h old was

theorem admitsRepo_admitted (h : Outside v s) (repo : Resource) (forgeId : Nat) (need : Bool)
    (admits : s.admitsRepo v.scope repo forgeId need = true) :
    repo.host = v.scope.host ∧ Admitted v s (v.scope.host,forgeId) := by
  simp only [Store.admitsRepo,Bool.and_eq_true] at admits
  refine ⟨covered_host v.scope repo admits.1,fun r found => ?_⟩
  have inner := admits.2
  simp only [Store.record,found,Bool.and_eq_true] at inner
  cases row : s.namespaceRecord r.ns with
  | none => simp [row] at inner
  | some n =>
    simp only [row,Option.any_some] at inner
    exact (h.within r.ns n row).mp inner.2

theorem branches_spares (h : Outside v s) (host : Bytes) (forgeId : Nat) (branches : Resign.Branches)
    (plain : Resign.hash ∉ host) (admitted : Admitted v s (host,forgeId))
    (kept : Resign.LedgersKept (Resign.ledgerPrefix host forgeId) s.branches branches) :
    Spares v s { s with branches := branches } where
  stems := ⟨(Stems.refl h.keyed).records,(Stems.refl h.keyed).namespaces⟩
  kept := fun key r found ours _ => ⟨r,found,ours⟩
  records := fun key r found _ _ _ => found
  managed := fun n found => ⟨n,found,fun _ member _ _ => member⟩
  ledgers := fun key r found ours _ branch start => by
    apply kept
    intro under
    have own := h.keyed.records key r found
    have keyPlain : Resign.hash ∉ key.1 := by
      rw [← own]
      exact r.resource.plain
    obtain ⟨hosts,ids⟩ := Resign.ledgerPrefix_unique key.1 host key.2 forgeId branch keyPlain plain start under
    have same : key = (host,forgeId) := Prod.ext hosts ids
    exact h.apart (ours ▸ admitted r (same ▸ found))

theorem resign_spares (h : Outside v s) (setup : Setup) (repo : Resource) (repoId number : Nat) (run : ResignRun) (now : Int)
    (admitted : Admitted v s (repo.host,repoId)) : Spares v s (s.resign setup repo repoId number run now) := by
  unfold Store.resign
  split
  · exact .refl h.keyed
  · let key := Resign.ledgerKey repo.host repoId run.headRef
    let branches := if run.dependabots && checkBranchName run.headRef then
        Resign.rememberPullRequest key number now s.branches
      else s.branches
    have noted : Resign.LedgersKept (Resign.ledgerPrefix repo.host repoId) s.branches branches := by
      intro other apart
      simp only [branches]
      split
      · exact Resign.remember_kept repo.host run.headRef repoId repo.plain number now s.branches other apart
      · rfl
    have sparing : ∀ after, Resign.LedgersKept (Resign.ledgerPrefix repo.host repoId) branches after →
        Spares v s { s with branches := after } := fun after kept =>
      branches_spares h repo.host repoId after repo.plain admitted fun other apart =>
        (kept other apart).trans (noted other apart)
    cases run.note with
    | nothing => exact sparing branches fun _ _ => rfl
    | skip head why => exact sparing _ (Resign.noteSkip_kept repo.host run.headRef repoId head why now branches)
    | own before after => exact sparing _ (Resign.recordOwn_kept repo.host run.headRef repoId before after now branches)

theorem onPush_spares (h : Outside v s) (setup : Setup) (delivery : Option Bytes) (repo : Resource)
    (push : Resign.PushEvent) (resumed : Option ResignRun) (now : Int)
    (admits : s.admitsRepo v.scope repo push.repoId true = true) :
    Spares v s (s.onPush setup v.scope.host delivery repo push resumed now) := by
  obtain ⟨host,admitted⟩ := admitsRepo_admitted h repo push.repoId true admits
  have plain : Resign.hash ∉ v.scope.host := host ▸ repo.plain
  unfold Store.onPush
  split
  · exact .refl h.keyed
  · split
    · exact .refl h.keyed
    · cases done : Resign.recordPush v.scope.host push now s.branches with
      | error e => exact .refl h.keyed
      | ok out =>
        have kept := Resign.recordPush_kept v.scope.host push now s.branches out.2 out.1 plain done
        have recorded := (branches_spares h v.scope.host push.repoId out.2 plain admitted kept).andThen h fun outside =>
          markSeen_spares outside v.scope.host delivery
        dsimp only
        split
        · split
          · exact recorded
          · refine recorded.andThen h fun outside => resign_spares outside setup repo push.repoId _ _ now ?_
            rw [host]
            exact admitted.later recorded.stems
        · exact recorded

theorem resignTrigger_spares (h : Outside v s) (setup : Setup) (dependabot : Resource → Option Bytes) (now : Int)
    (t : CheckTrigger × TriggerRun) (admitted : Admitted v s (t.1.repo.host,t.1.repoId)) :
    Spares v s (s.resignTrigger setup dependabot now t) := by
  unfold Store.resignTrigger
  split
  · split
    · exact resign_spares h setup t.1.repo t.1.repoId _ _ now admitted
    · exact .refl h.keyed
  · exact .refl h.keyed

theorem checkTrigger_spares (h : Outside v s) (setup : Setup) (t : CheckTrigger × TriggerRun)
    (admitted : Admitted v s (t.1.repo.host,t.1.repoId)) (seen : ∀ found, t.2.report = some found → Seen v found) :
    Spares v s (s.checkTrigger setup t) := by
  unfold Store.checkTrigger
  split
  · exact .refl h.keyed
  · exact .refl h.keyed
  · next check _ =>
    have posted : Spares v s (s.updateRecord (t.1.repo.host,t.1.repoId) fun r => { r with lastCheck := some check }) := by
      apply updateRecord_spares h.keyed
      · exact fun r found => ⟨rfl,h.keyed.records _ r found⟩
      · exact .inr fun r found => .inl fun eq => h.apart (eq ▸ admitted r found)
    dsimp only
    split
    · next r found recorded answer =>
      split
      · next ctx repo loaded =>
        refine posted.andThen h fun outside => ?_
        obtain ⟨row,named⟩ := load_facts outside.keyed setup r.ns ctx loaded
        have ours : v.ours ctx.id := named.symm ▸ admitted.later posted.stems r recorded
        have covered := (outside.within ctx.id ctx (named.symm ▸ row)).mpr ours
        apply inspectRepo_spares outside setup ctx true repo covered ours
        rw [covered_host v.scope ctx.resource covered]
        exact seen _ answer repo rfl
      · exact posted
    · exact posted

theorem onTriggers_spares (h : Outside v s) (setup : Setup) (dependabot : Resource → Option Bytes) (now : Int)
    (delivery : Option Bytes) (triggers : List (CheckTrigger × TriggerRun))
    (seen : ∀ t ∈ triggers, ∀ found, t.2.report = some found → Seen v found) :
    Spares v s (s.onTriggers setup dependabot now v.scope delivery triggers) := by
  unfold Store.onTriggers
  have admitted : ∀ t ∈ triggers.filter (fun t => s.admitsRepo v.scope t.1.repo t.1.repoId false),
      Admitted v s (t.1.repo.host,t.1.repoId) := by
    intro t member
    obtain ⟨host,admits⟩ := admitsRepo_admitted h t.1.repo t.1.repoId false (List.mem_filter.mp member).2
    rwa [host]
  dsimp only
  split
  · exact .refl h.keyed
  · have resigned : Spares v s ((triggers.filter fun t => s.admitsRepo v.scope t.1.repo t.1.repoId false).foldl
        (·.resignTrigger setup dependabot now) s) :=
      foldl_spares _ _ s h fun u t member stems outside =>
        resignTrigger_spares outside setup dependabot now t ((admitted t member).later stems)
    have checked := resigned.andThen h fun outside =>
      foldl_spares (·.checkTrigger setup) (triggers.filter fun t => s.admitsRepo v.scope t.1.repo t.1.repoId false) _ outside
        fun u t member stems outside => checkTrigger_spares outside setup t
          ((admitted t member).later (resigned.stems.trans stems)) (seen t (List.mem_filter.mp member).1)
    split
    · exact checked.andThen h fun outside => markSeen_spares outside v.scope.host delivery
    · exact checked

theorem onPullRequest_spares (h : Outside v s) (delivery : Option Bytes) (event : Option ForgeEventKind) :
    Spares v s (s.onPullRequest v.scope delivery event) := by
  unfold Store.onPullRequest
  split
  · unfold Store.pullRequestOpened
    split
    · split
      · exact .refl h.keyed
      · dsimp only
        split
        · exact .refl h.keyed
        · split
          · exact .refl h.keyed
          · exact .same h.keyed rfl rfl rfl
    · exact .refl h.keyed
  · exact .refl h.keyed

theorem onEvent_spares (h : Outside v s) (setup : Setup) (answers : Answers) (delivery : Option Bytes)
    (event : Option ForgeEventKind) (seen : ∀ n r, Seen v (answers.inspect n r))
    (moves : ∀ kind, event = some kind → Moves v answers s kind) :
    Spares v s (s.onEvent setup answers v.scope delivery event) := by
  unfold Store.onEvent
  cases event with
  | none => exact .refl h.keyed
  | some kind =>
    have handled : Spares v s (if s.seen v.scope.host delivery then s
        else (s.markSeen v.scope.host delivery).handle setup answers v.scope kind) := by
      split
      · exact .refl h.keyed
      · exact (markSeen_spares h v.scope.host delivery).andThen h fun outside =>
          handle_spares outside setup answers kind seen (moves kind rfl)
    dsimp only
    split
    · cases kind with
      | pullRequestOpened => exact onPullRequest_spares h delivery _
      | _ => exact handled
    · exact .refl h.keyed

theorem onWebhook_spares (h : Outside v s) (setup : Setup) (answers : Answers) (dependabot : Resource → Option Bytes)
    (now : Int) (d : Delivery) (seen : ∀ n r, Seen v (answers.inspect n r))
    (reported : ∀ t ∈ d.triggers, ∀ found, t.2.report = some found → Seen v found)
    (moves : ∀ kind, d.event = some kind → Moves v answers s kind) :
    Spares v s (s.onWebhook setup answers dependabot now v.scope d) := by
  unfold Store.onWebhook
  split
  · exact onEvent_spares h setup answers d.id d.event seen moves
  · split
    · next repo push _ =>
      split
      · next admits => exact onPush_spares h setup d.id repo push d.resumed now admits
      · exact .refl h.keyed
    · have opened := onPullRequest_spares h d.id d.event
      have tables : (s.onPullRequest v.scope d.id d.event).namespaces = s.namespaces := by
        unfold Store.onPullRequest
        split
        · unfold Store.pullRequestOpened
          split
          · split
            · rfl
            · dsimp only
              split
              · rfl
              · split <;> rfl
          · rfl
        · rfl
      dsimp only
      split
      · exact opened.andThen h fun outside => onTriggers_spares outside setup dependabot now d.id d.triggers reported
      · refine opened.andThen h fun outside => onEvent_spares outside setup answers d.id d.event seen fun kind eq => ?_
        have same := moves kind eq
        unfold Moves Store.namespaceIn at same ⊢
        rwa [tables]

-- A delivery leaves the tables keyed: to a namespace the bridge does not know
-- every scope is another's.
theorem onWebhook_stems (h : Keyed s) (setup : Setup) (answers : Answers) (dependabot : Resource → Option Bytes)
    (now : Int) (scope : Scope) (d : Delivery) : Stems s (s.onWebhook setup answers dependabot now scope d) := by
  obtain ⟨stranger,unknown⟩ := Infinite.exists_notMem_finset s.namespaces.keys.toFinset
  have missing : s.namespaces.lookup stranger = none :=
    AList.lookup_eq_none.mpr fun member => unknown (List.mem_toFinset.mpr (AList.mem_keys.mp member))
  let v : View := {
    scope := scope
    ns := stranger
    ours := fun id => ∃ n, s.namespaces.lookup id = some n ∧ scope.covers n.resource = true
    moved := fun _ => True
    inspected := fun _ => True
    shared := fun _ => True }
  have outside : Outside v s := {
    keyed := h
    apart := fun ⟨n,row,_⟩ => absurd (missing.symm.trans row) nofun
    within := fun id n row => ⟨fun covered => ⟨n,row,covered⟩,fun ⟨n',row',covered⟩ => by
      cases row.symm.trans row'
      exact covered⟩
    shared := fun _ _ _ _ => trivial }
  exact (onWebhook_spares outside setup answers dependabot now d (fun _ _ _ _ => trivial)
    (fun _ _ _ _ _ _ => trivial) fun _ _ _ _ _ _ _ _ _ _ _ _ _ _ => trivial).stems

/-! Two owners -/

-- `ns` is a namespace of an owner not in scope.
def Foreign (s : Store) (scope : Scope) (ns : Bytes) : Prop :=
  ∃ n, s.namespaceRecord ns = some n ∧ scope.covers n.resource = false

-- GitHub, asked with the installation of the namespace a repository was
-- transferred into, shows it there and no longer in `ns`.
def MoveConfirmed (s : Store) (answers : Answers) (scope : Scope) (d : Delivery) (ns : Bytes) (key : RepoKey) : Prop :=
  ∃ forgeId fromNamespace after, d.event = some (.repoTransferred forgeId fromNamespace after) ∧
    ∃ toNs now oldNs, s.namespaceIn scope after = some toNs ∧
      answers.movedTo toNs.resource forgeId = .ok (some now) ∧ toNs.resource.contains now = true ∧
      s.namespaceRecord ns = some oldNs ∧ oldNs.resource.contains now = false ∧ key = (oldNs.resource.host,forgeId)

-- An inspection the delivery prompts finds the repository under this id.
def Inspected (answers : Answers) (scope : Scope) (d : Delivery) (key : RepoKey) : Prop :=
  key.1 = scope.host ∧ ∃ repo, repo.id = key.2 ∧
    ((∃ n r, answers.inspect n r = .ok repo) ∨ ∃ t ∈ d.triggers, t.2.report = some (.ok repo))

-- The repository is recorded for a namespace in scope.
def RecordedIn (s : Store) (scope : Scope) (key : RepoKey) : Prop :=
  ∃ r n, s.repos.lookup key = some r ∧ s.namespaceRecord r.ns = some n ∧ scope.covers n.resource = true

def viewOf (s : Store) (answers : Answers) (scope : Scope) (d : Delivery) (ns : Bytes) : View where
  scope := scope
  ns := ns
  ours := fun id => ∃ n, s.namespaceRecord id = some n ∧ scope.covers n.resource = true
  moved := MoveConfirmed s answers scope d ns
  inspected := Inspected answers scope d
  shared := RecordedIn s scope

theorem viewOf_outside (s : Store) (answers : Answers) (scope : Scope) (d : Delivery) (ns : Bytes) (keyed : Keyed s)
    (other : Foreign s scope ns) : Outside (viewOf s answers scope d ns) s where
  keyed := keyed
  apart := fun ⟨n,row,covered⟩ => by
    obtain ⟨n',row',uncovered⟩ := other
    cases (show s.namespaceRecord ns = some n from row).symm.trans row'
    exact absurd (uncovered.symm.trans covered) nofun
  within := fun id n row => ⟨fun covered => ⟨n,row,covered⟩,fun ⟨n',row',covered⟩ => by
    rw [show s.namespaceRecord id = some n from row] at row'
    cases row'
    exact covered⟩
  shared := fun key r found ⟨n,row,covered⟩ => ⟨r,n,found,row,covered⟩

-- The state of another owner's namespace: its records, its managed set, and the
-- ledgers of its repositories.
theorem webhook_scoped (setup : Setup) (answers : Answers) (dependabot : Resource → Option Bytes) (now : Int)
    (scope : Scope) (d : Delivery) (s : Store) (ns : Bytes) (keyed : Keyed s) (other : Foreign s scope ns) :
    let t := s.onWebhook setup answers dependabot now scope d
    let moved := MoveConfirmed s answers scope d ns
    (∀ key, ¬moved key → ¬Inspected answers scope d key → ∀ r, r.ns = ns →
      (t.repos.lookup key = some r ↔ s.repos.lookup key = some r)) ∧
    (∀ n, s.namespaceRecord ns = some n → ∃ n', t.namespaceRecord ns = some n' ∧
      ∀ forgeId, ¬moved (n.resource.host,forgeId) → ¬RecordedIn s scope (n.resource.host,forgeId) →
        (forgeId ∈ n'.managed ↔ forgeId ∈ n.managed)) ∧
    ∀ key r, s.repos.lookup key = some r → r.ns = ns → ¬moved key →
      ∀ branch, Resign.ledgerPrefix key.1 key.2 <+: branch → t.branches.lookup branch = s.branches.lookup branch := by
  intro t moved
  have outside := viewOf_outside s answers scope d ns keyed other
  have spares : Spares (viewOf s answers scope d ns) s t := by
    apply onWebhook_spares outside
    · exact fun n r repo answer => ⟨rfl,repo,rfl,.inl ⟨n,r,answer⟩⟩
    · exact fun t member found report repo answer => ⟨rfl,repo,rfl,.inr ⟨t,member,report.trans (congrArg some answer)⟩⟩
    · intro kind event forgeId fromNamespace after eq toNs now oldNs found asked inside row left
      exact ⟨forgeId,fromNamespace,after,event.trans (congrArg some eq),toNs,now,oldNs,found,asked,inside,row,left,rfl⟩
  refine ⟨fun key still unseen r ours => ⟨fun found => ?_,fun found => spares.records key r found ours still unseen⟩,
    fun n row => ?_,spares.ledgers⟩
  · obtain ⟨_,old,was,same⟩ := spares.stems.records key r found
    have kept := spares.records key old was (same.trans ours) still unseen
    rw [found] at kept
    cases kept
    exact was
  · obtain ⟨n',row',kept⟩ := spares.managed n row
    refine ⟨n',row',fun forgeId still apart => ⟨fun member => ?_,fun member => kept forgeId member still apart⟩⟩
    obtain ⟨old,was,_,_,less⟩ := spares.stems.namespaces ns n' row'
    rw [show s.namespaces.lookup ns = some n from row] at was
    cases was
    exact less member

namespace TwoOwners

def setup : Setup where
  serves := fun _ => true
  github := fun _ => true
  vgi := fun _ => none
  judge := fun _ _ _ => ⟨true,[],[]⟩

theorem host_plain : (35 : UInt8) ∉ [104] := by decide

def acme : Resource := ⟨[104],[97],[],host_plain⟩
def beta : Resource := ⟨[104],[98],[],host_plain⟩
def acmeRepo : Resource := { acme with rest := [[120]] }
def betaRepo : Resource := { beta with rest := [[120]] }
def acmeScope : Scope := ⟨[104],some [97]⟩

def bound (id : Bytes) (r : Resource) (managed : Finset Nat) : NamespaceRecord :=
  { id := id, resource := r, state := .bound, binding := some ⟨r,true,none,none⟩, managed := managed }

def record : RepoRecord := { ns := [2], resource := betaRepo, forgeId := 7 }

def spaces : Store :=
  { namespaces := ((∅ : Table Bytes NamespaceRecord).insert [1] (bound [1] acme ∅)).insert [2] (bound [2] beta {7}) }

-- Repository 7 is governed by beta's namespace.
def store : Store := { spaces with repos := spaces.repos.insert ([104],7) record }

theorem store_keyed : Keyed store := ((Keyed.empty.bind (bound [1] acme ∅)).bind (bound [2] beta {7})).put record

-- The installation of acme sees it as acme's, beta's does not find it.
def answers : Answers where
  inspect := fun _ _ => .ok { owner := [97], name := [120], id := 7 }
  repositoryById := fun ns _ => .ok (if ns = acme then some { owner := [97], name := [120], id := 7 } else none)

def transferred : Delivery := { id := none, event := some (.repoTransferred 7 (some beta) acmeRepo) }
def protection : Delivery := { id := none, event := some (.protectionChanged (some acmeRepo) acme) }

def after (d : Delivery) : Store := store.onWebhook setup answers (fun _ => none) 0 acmeScope d

-- The move was confirmed with acme's installation only; and an inspection of a
-- repository of acme's renames beta's record of the same id.
theorem webhook_crosses_owners :
    Foreign store acmeScope [2] ∧ store.record [104] 7 = some record ∧
      (answers.movedTo beta 7).toOption = some none ∧ (after transferred).record [104] 7 = none ∧
      (after protection).record [104] 7 ≠ some record := by
  refine ⟨⟨bound [2] beta {7},?_⟩,?_⟩ <;> decide

-- A delivery of acme's naming beta's repository by its id deletes nothing.
def deleted : Delivery := { id := none, event := some (.repoDeleted acmeRepo 7) }
def quiet : Answers := ⟨fun _ _ => .error (.unavailable []),fun _ _ => .ok none⟩

theorem webhook_scoped_sample :
    (store.onWebhook setup quiet (fun _ => none) 0 acmeScope deleted).repos.lookup ([104],7) = some record := by
  have facts := webhook_scoped setup quiet (fun _ => none) 0 acmeScope deleted store [2] store_keyed
    ⟨bound [2] beta {7},by decide,by decide⟩
  refine (facts.1 ([104],7) ?_ ?_ record rfl).mpr (by decide)
  · intro ⟨_,_,_,other,_⟩
    cases other
  · intro ⟨_,_,_,found⟩
    cases found with
    | inl asked =>
      obtain ⟨_,_,answer⟩ := asked
      cases answer
    | inr reported =>
      obtain ⟨_,member,_⟩ := reported
      cases member

end TwoOwners
end VerifiableGit.Governance
