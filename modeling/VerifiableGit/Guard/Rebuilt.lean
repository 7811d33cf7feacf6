import VerifiableGit.Guard.Covered
import VerifiableGit.Library.Heeds

-- Whether an adapter that is built again from the namespace's record holds what
-- the one that never stopped does.
namespace VerifiableGit.Guard
open Text Library Library.Interaction
open Governance (Resource Namespace Pin NamespaceRecord RepoRecord RepoKey ForgeAccount RoleAssignment ForgeError StepOutcome)
open Governance.NamespaceRecord (Held Earlier takeOver)

-- The record of a namespace bound to its own resource.
structure Fits (ns : Bytes) (r : Resource) (n : NamespaceRecord) : Prop where
  own : n.id = ns ∧ n.resource = r
  bound : n.isBound = true
  binding : ∃ b, n.binding = some b ∧ b.resource = r

-- What the adapter makes of the record alone.
def rebuilt (n : NamespaceRecord) : Memory :=
  ⟨n.binding,n.requiredWorkflow.or n.capabilities,some n.managed,n.pin⟩

def Kept (ns : Bytes) (r : Resource) (w : World) : Prop := ∃ n, w.namespaces.lookup ns = some n ∧ Fits ns r n

def Agrees (ns : Bytes) (r : Resource) (w : World) : Prop :=
  ∃ n, w.namespaces.lookup ns = some n ∧ Fits ns r n ∧ w.memory r = rebuilt n

-- The adapter has moved on, and what it has is what will be persisted.
structure Follows (n : NamespaceRecord) (m : Memory) : Prop where
  registered : m.registered = n.binding
  requiredWorkflow : m.requiredWorkflow = n.requiredWorkflow.or n.capabilities
  managed : m.managed.isSome = true
  pin : m.pin.or n.pin = m.pin

def Ahead (ns : Bytes) (r : Resource) (w : World) : Prop :=
  ∃ n, w.namespaces.lookup ns = some n ∧ Fits ns r n ∧ Follows n (w.memory r)

-- GitHub takes the ruleset's workflows rule or fails, and a request to archive
-- that is made is carried out.
def Sure : (q : Query) → q.Answer → Prop
  | .forge (.writeRuleset _ _ _ _ _),answer => ∀ refusal, answer ≠ .ok (.error refusal)
  | .forge (.patchArchived _),answer => answer = .ok ()
  | _,_ => True

def steady (ns : Bytes) (r : Resource) : Setting Query Query.Answer World where
  serve q w a u := Served q w a u ∧ Sure q a
  rely _ _ := False
  guarantee _ _ _ := True
  always := Kept ns r

-- Neither the records of namespaces nor the adapter change.
def Query.Mild : Query → Prop
  | .deleteNamespace _ | .putNamespace _ _ | .manageNamespace _ _ | .persist _ _ _ | .changeCapability _ _ _ | .unmanage _ _
  | .setManaged _ _ | .addManaged _ _ | .dropManaged _ _ | .setRequiredWorkflow _ _ | .setPin _ _ | .restore _ => False
  | _ => True

-- Or they do, in a way that persisting makes good.
def Query.Moves : Query → Prop
  | .addManaged _ _ | .dropManaged _ _ | .setPin _ _ | .unmanage _ _ => True
  | q => q.Mild

variable {ns : Bytes} {r : Resource} {w u : World}

theorem steady_alone : (steady ns r).Solitary := fun _ _ act => act

theorem agrees_ahead (agrees : Agrees ns r w) : Ahead ns r w := by
  obtain ⟨n,found,fits,same⟩ := agrees
  refine ⟨n,found,fits,?_⟩
  rw [same]
  exact ⟨rfl,rfl,rfl,Option.or_self⟩

theorem ahead_kept (ahead : Ahead ns r w) : Kept ns r w := by
  obtain ⟨n,found,fits,_⟩ := ahead
  exact ⟨n,found,fits⟩

theorem agrees_kept (agrees : Agrees ns r w) : Kept ns r w := ahead_kept (agrees_ahead agrees)

theorem served_mild {q : Query} {a : q.Answer} (mild : q.Mild) (served : Served q w a u) :
    u.namespaces = w.namespaces ∧ u.memory = w.memory := by
  cases served with
  | at_once answered =>
    cases q with
    | deleteNamespace | putNamespace | manageNamespace | persist | changeCapability | unmanage | setManaged | addManaged
    | dropManaged | setRequiredWorkflow | setPin | restore => exact mild.elim
    | forge => cases answered
    | _ =>
      cases answered
      exact ⟨rfl,rfl⟩
  | _ => exact ⟨rfl,rfl⟩

theorem mild_agrees {q : Query} {a : q.Answer} (mild : q.Mild) (served : Served q w a u) (agrees : Agrees ns r w) :
    Agrees ns r u := by
  obtain ⟨namespaces,memory⟩ := served_mild mild served
  rwa [Agrees,namespaces,memory]

-- Nothing calls for another plan.
def Planned : Except Failure α → Prop
  | .error (.capabilityChanged _ _ _ _) => False
  | _ => True

abbrev Seen := Library.Interaction.History Query Query.Answer

theorem steady_return {post : α → World → Prop} (kept : Kept ns r w) (here : post a w) :
    (steady ns r).Holds post (.done a) w := solitary_done steady_alone kept here

theorem steady_query {q : Query} {next : q.Answer → Code α} {post : α → World → Prop} (kept : Kept ns r w)
    (answered : ∀ a u, Served q w a u → Sure q a → (steady ns r).Holds post (next a) u) :
    (steady ns r).Holds post (.call q next) w :=
  solitary_call steady_alone kept fun a u served => ⟨trivial,answered a u served.1 served.2⟩

theorem steady_txn {q : Query} {f : q.Answer → Job α} {post : Option α → World → Prop} (kept : Kept ns r w)
    (answered : ∀ a t, Served q w a t → Sure q a → (steady ns r).Holds post (f a).run t) :
    (steady ns r).Holds post (txn q >>= f).run w := steady_query kept answered

-- What a job comes to when it keeps the two together.
abbrev Job.Settles (p : Job α) (ns : Bytes) (r : Resource) (w : World) : Prop :=
  (steady ns r).Holds (fun _ => Agrees ns r) p.run w

theorem settles_pure {a : α} (agrees : Agrees ns r w) : (pure a : Job α).Settles ns r w :=
  steady_return (agrees_kept agrees) agrees

section
variable {ctx : NamespaceRecord} (own : ctx.id = ns) (here : ctx.resource = r)

end

-- The record found is still there, and the adapter knows no pin but the record's.
structure Binding (ns : Bytes) (r : Resource) (pin : Option Pin) (w : World) : Prop where
  kept : Kept ns r w
  pin : (w.memory r).pin = pin

-- A record that is to be put: it fits, and has the pin if there is one.
structure Taking (ns : Bytes) (r : Resource) (pin : Option Pin) (n : NamespaceRecord) : Prop where
  fits : Fits ns r n
  capabilities : n.capabilities.isSome = true
  pin : n.pin.or pin = n.pin

theorem takeOver_taking {pin : Option Pin} {n : NamespaceRecord} (old : NamespaceRecord) (taking : Taking ns r pin n) :
    Taking ns r pin (takeOver n old) := by
  refine ⟨⟨taking.fits.own,taking.fits.bound,taking.fits.binding⟩,taking.capabilities,?_⟩
  show (n.pin.or old.pin).or pin = n.pin.or old.pin
  have known := taking.pin
  cases there : n.pin with
  | some p => rfl
  | none =>
    rw [there] at known
    rw [Option.none_or] at known ⊢
    rw [known,Option.or_none]

theorem mild_binding {q : Query} {a : q.Answer} {pin : Option Pin} (mild : q.Mild) (served : Served q w a u)
    (binding : Binding ns r pin w) : Binding ns r pin u := by
  obtain ⟨namespaces,memory⟩ := served_mild mild served
  refine ⟨?_,by rw [memory,binding.pin]⟩
  rw [Kept,namespaces]
  exact binding.kept

theorem moveRepos_holds {pin : Option Pin} (old new : Bytes) (rows : List (RepoKey × RepoRecord)) (binding : Binding ns r pin w) :
    (steady ns r).Holds (fun o u => o = some () ∧ Binding ns r pin u) (moveRepos old new rows).run w := by
  induction rows generalizing w with
  | nil => exact steady_return binding.kept ⟨rfl,binding⟩
  | cons row rest ih =>
    unfold moveRepos
    split
    · exact steady_txn binding.kept fun _ t served _ => ih (mild_binding (by trivial) served binding)
    · exact ih binding

theorem deleted_binding {id : Bytes} {a : Unit} {pin : Option Pin} (served : Served (.deleteNamespace id) w a u) (other : id ≠ ns)
    (binding : Binding ns r pin w) : Binding ns r pin u := by
  cases at_once_answered (fun _ => by simp) served
  obtain ⟨n,found,fits⟩ := binding.kept
  exact ⟨⟨n,by simp [AList.lookup_erase_ne other.symm,found],fits⟩,binding.pin⟩

theorem supersede_holds {pin : Option Pin} (earlier : List NamespaceRecord) (new : NamespaceRecord)
    (others : ∀ old ∈ earlier, old.id ≠ ns) (taking : Taking ns r pin new) (binding : Binding ns r pin w) :
    (steady ns r).Holds (fun o u => (∃ n, o = some n ∧ Taking ns r pin n) ∧ Binding ns r pin u) (supersede earlier new).run w := by
  induction earlier generalizing new w with
  | nil => exact steady_return binding.kept ⟨⟨new,rfl,taking⟩,binding⟩
  | cons old rest ih =>
    refine steady_query binding.kept fun _ t served _ => ?_
    have binding := mild_binding (by trivial) served binding
    refine steady_query binding.kept fun repos t served _ => ?_
    have binding := mild_binding (by trivial) served binding
    refine holds_optional _ _ (moveRepos_holds _ _ _ binding) ?_ ?_
    · rintro _ t ⟨_,binding⟩
      refine steady_query binding.kept fun _ t served _ => ?_
      have binding := deleted_binding served (others old List.mem_cons_self) binding
      exact ih _ (fun n inside => others n (List.mem_cons_of_mem _ inside)) (takeOver_taking old taking) binding
    · rintro t ⟨bad,_⟩
      cases bad

-- What the adapter makes of the record it is handed, with a pin of the record's.
theorem restored_agrees {n : NamespaceRecord} {pin : Option Pin} (taking : Taking ns r pin n) (known : (w.memory r).pin = pin)
    (found : w.namespaces.lookup ns = some n) : Agrees ns r (w.restore n) := by
  obtain ⟨binding,there,same⟩ := taking.fits.binding
  have held : Held n := .inl (by simpa using (Bool.and_eq_true_iff.mp taking.fits.bound).1)
  have restored : w.restore n = (w.remember binding.resource (·.register binding)).remember n.resource (·.restoreGuard n) := by
    rw [World.restore,there]
    exact if_pos held
  refine ⟨n,by rw [restored]; exact found,taking.fits,?_⟩
  have workflow : (n.requiredWorkflow.or n.capabilities).or (w.memory r).requiredWorkflow =
      n.requiredWorkflow.or n.capabilities := by
    obtain ⟨capable,there⟩ := Option.isSome_iff_exists.mp taking.capabilities
    rw [there]
    cases n.requiredWorkflow with
    | none => rfl
    | some _ => rfl
  rw [restored]
  simp only [World.remember,taking.fits.own.2,same,if_true,Memory.register,Memory.restoreGuard,rebuilt,workflow,
    known,taking.pin,there]

theorem storeBound_settles (bound : Bound) (capable : Bool) {pin : Option Pin} (binding : Binding ns r pin w)
    (stored : ∀ n, w.namespaces.lookup ns = some n → n.pin = pin) : (storeBound ns r bound capable).Settles ns r w := by
  refine steady_txn binding.kept fun existing t served _ => ?_
  obtain ⟨n,found,fits⟩ := binding.kept
  cases at_once_answered (fun _ => by simp) served
  rw [found]
  have taking : Taking ns r pin (boundRecord n r bound capable) := by
    refine ⟨⟨fits.own,rfl,_,rfl,rfl⟩,rfl,?_⟩
    show n.pin.or pin = n.pin
    rw [stored n found,Option.or_self]
  refine steady_txn binding.kept fun earlier t served _ => ?_
  cases at_once_answered (fun _ => by simp) served
  have others : ∀ old ∈ (w.namespaces.rows.map (·.2)).filter fun old => Earlier old (boundRecord n r bound capable), old.id ≠ ns := by
    intro old inside same
    have apart := (of_decide_eq_true (List.mem_filter.mp inside).2).1
    exact apart (same.trans fits.own.1.symm)
  refine holds_optional _ _ (supersede_holds _ _ others taking binding) ?_ ?_
  · rintro new u ⟨⟨_,same,taking⟩,binding⟩
    cases same
    refine steady_txn binding.kept fun _ t served _ => ?_
    cases at_once_answered (fun _ => by simp) served
    have found : AList.lookup ns (u.namespaces.insert ns new) = some new := AList.lookup_insert _
    refine steady_query ⟨new,found,taking.fits⟩ fun _ v served _ => ?_
    cases at_once_answered (fun _ => by simp) served
    have agrees := restored_agrees (w := { u with namespaces := u.namespaces.insert ns new }) taking binding.pin found
    exact steady_return (agrees_kept agrees) agrees
  · rintro u ⟨⟨_,bad,_⟩,_⟩
    cases bad

-- What a bind that the forge has proved leaves, before anything is stored.
structure Proved (ns : Bytes) (r : Resource) (pin : Option Pin) (w : World) : Prop where
  binding : Binding ns r pin w
  stored : ∀ n, w.namespaces.lookup ns = some n → n.pin = pin

theorem completeBind_holds {pin : Option Pin} (agrees : Agrees ns r w) (known : (w.memory r).pin = pin) :
    (steady ns r).Holds (fun result u => (∀ e, result = .error e → Agrees ns r u) ∧ (∀ done, result = .ok done → Proved ns r pin u))
      (completeBind r).run w := by
  have proved : ∀ u : World, u.namespaces = w.namespaces → (u.memory r).pin = (w.memory r).pin → Proved ns r pin u := by
    intro u namespaces memory
    obtain ⟨n,found,fits,same⟩ := agrees
    refine ⟨⟨⟨n,by rw [namespaces,found],fits⟩,memory.trans known⟩,fun other there => ?_⟩
    rw [namespaces,found] at there
    cases there
    rw [← known,same]
    rfl
  refine steady_query (agrees_kept agrees) fun answer t served _ => ?_
  obtain ⟨namespaces,memory⟩ := served_mild (by trivial) served
  have agrees := mild_agrees (by trivial) served agrees
  cases answer with
  | error e => exact steady_return (agrees_kept agrees) ⟨fun _ _ => agrees,fun _ bad => by cases bad⟩
  | ok bound =>
    have last : ∀ u : World, u.namespaces = w.namespaces → (u.memory r).pin = (w.memory r).pin →
        (steady ns r).Holds (fun result u => (∀ e, result = .error e → Agrees ns r u) ∧
          (∀ done, result = .ok done → Proved ns r pin u))
          (do
            let m : Memory ← run (.memory r)
            pure (bound,m.capable ⟨r,bound.organization,bound.ownerId,bound.installationId⟩) : Method (Bound × Bool)).run u := by
      intro u here there
      have done := proved u here there
      refine steady_query done.binding.kept fun m v served _ => ?_
      obtain ⟨rfl,rfl⟩ := memory_answer served
      exact steady_return done.binding.kept ⟨fun _ bad => (by cases bad),fun _ _ => done⟩
    obtain ⟨organization,ownerId,installationId,available⟩ := bound
    cases available with
    | none => exact last t namespaces (by rw [memory])
    | some available =>
      refine steady_query (agrees_kept agrees) fun _ u served _ => ?_
      cases at_once_answered (fun _ => by simp) served
      refine last _ namespaces ?_
      show (if r = r then _ else _ : Memory).pin = _
      rw [if_pos rfl,memory]

theorem bindCallback_settles (agrees : Agrees ns r w) : (bindCallback ns r).Settles ns r w := by
  have proved : (steady ns r).Holds (fun o u => ∃ result, o = some result ∧ (∀ e, result = .error e → Agrees ns r u) ∧
      (∀ done, result = .ok done → Proved ns r (w.memory r).pin u)) (attempt (completeBind r)).run w := by
    refine holds_bind _ _ (completeBind_holds agrees rfl) fun result u reached => ?_
    refine steady_return ?_ ⟨result,rfl,reached⟩
    cases result with
    | error e => exact agrees_kept (reached.1 e rfl)
    | ok done => exact (reached.2 done rfl).binding.kept
  refine holds_optional _ _ proved ?_ ?_
  · rintro result u ⟨_,same,failed,done⟩
    cases same
    cases result with
    | error e => exact settles_pure (failed e rfl)
    | ok bound =>
      have proved := done bound rfl
      exact storeBound_settles bound.1 bound.2 proved.binding proved.stored
  · rintro u ⟨_,bad,_⟩
    cases bad

/-! Runs -/

inductive Work where
  | job (kind : JobKind)
  | bind

def Work.code (setup : Setup) (ns : Bytes) (r : Resource) : Work → Code Unit
  | .job kind => do
    let _ ← (runJob setup ns kind).run
    pure ()
  | .bind => do
    let _ ← (bindCallback ns r).run
    pure ()

namespace Sample

end Sample

end VerifiableGit.Guard
