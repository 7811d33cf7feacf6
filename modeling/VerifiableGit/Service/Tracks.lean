import VerifiableGit.Service.Effects

-- What a task's answers so far say of where it is.
namespace VerifiableGit.Service
open Text Library Library.Interaction
open Governance (NamespaceRecord RepoRecord RepoKey)

abbrev Seen := History Query Query.Answer

def Heard (seen : Seen) (q : Query) (r : q.Answer) : Prop := ⟨q,r⟩ ∈ seen

-- A callback between listing the earlier records of its owner and storing its
-- own: the record it is to store, and the earlier ones not deleted yet.
abbrev Window := Option (NamespaceRecord × List NamespaceRecord)

def windowNote : (q : Query) → q.Answer → Window → Window
  | .sameOwner new,earlier,_ => some (new,earlier)
  | .deleteNamespace id,_,w => w.map fun w => (w.1,w.2.filter (·.id ≠ id))
  | .putNamespace _ _,_,_ => none
  | _,_,w => w

def window (seen : Seen) : Window := gather windowNote none seen

-- The ids it has retired and not deleted yet.
def leavingNote : (q : Query) → q.Answer → List Bytes → List Bytes
  | .retire id _,_,ids => id :: ids
  | .deleteNamespace id,_,ids => ids.filter (· ≠ id)
  | _,_,ids => ids

def leaving (seen : Seen) : List Bytes := gather leavingNote [] seen

-- The namespace it found not orphaned, while it queues or sends an event for it.
def passNote : (q : Query) → q.Answer → Option Bytes → Option Bytes
  | .isOrphaned ns,gone,_ => bif gone then none else some ns
  | .getNamespace ns,n,pass => bif (n : Option NamespaceRecord).any (·.isOrphaned) then pass else some ns
  | .checkEvent _ _,fits,pass => bif fits then pass else none
  | .flush,flushed,pass => bif flushed then pass else none
  | .sign _,signed,pass => (signed : Option Bytes).bind fun _ => pass
  | .roleMap _,report,pass => (report : Option RoleMapReport).bind fun _ => pass
  | .status _,_,pass | .newId,_,pass | .now,_,pass | .noteSent _ _ _,_,pass => pass
  | _,_,_ => none

def pass (seen : Seen) : Option Bytes := gather passNote none seen

-- The namespace it found orphaned and is forgetting, with the repository records
-- it lists for that.
abbrev Doom := Option (Bytes × List RepoKey)

def doomNote : (q : Query) → q.Answer → Doom → Doom
  | .getNamespace id,n,_ => if (n : Option NamespaceRecord).any (·.isOrphaned) then some (id,[]) else none
  | .listRepos,repos,doom => doom.map fun d => (d.1,((repos : List (RepoKey × RepoRecord)).filter (·.2.ns = d.1)).map (·.1))
  | .deleteNamespace _,_,_ => none
  | _,_,doom => doom

def doom (seen : Seen) : Doom := gather doomNote none seen

-- A callback gets the flow it is for: its kind, its host, its App's own route.
def suits (cfg : Cfg) : Handler → PendingFlow → Bool
  | .bindCallback host routeOwner _,.bind _ _ r _ => rightRoute cfg host routeOwner r
  | .linkCallback host _,.link _ _ flowHost _ _ none => flowHost = host
  | _,_ => false

-- The jobs whose flow it has consumed and that it is yet to finish.
def holdingNote (cfg : Cfg) (h : Handler) : (q : Query) → q.Answer → List Bytes → List Bytes
  | .takeFlow _,some f,ids => if suits cfg h f then f.jobId.toList ++ ids else ids
  | .deleteFlow _ f,_,ids => f.jobId.toList ++ ids
  | .finishJob id _ _,_,ids => ids.filter (· ≠ id)
  | .isWaiting id,waits,ids => bif waits then ids else ids.filter (· ≠ id)
  | .past _,late,ids => bif late then [] else ids
  | .adapter _,served,ids | .linkAdapter _ _,served,ids | .restoreAdapter _,served,ids => bif served then ids else []
  | .checkEvent _ event,fits,ids => bif fits || event.isRoleMap then ids else []
  | _,_,ids => ids

def holding (cfg : Cfg) (h : Handler) (seen : Seen) : List Bytes := gather (holdingNote cfg h) [] seen

-- Where a job's admission is: it has read that its namespace may be served, or
-- it has answered.
inductive Admission where
  | asking | reading (ns : Bytes) | decided
deriving DecidableEq

def admissionNote : (q : Query) → q.Answer → Admission → Admission
  | .newJob _ _,_,_ | .answer _,_,_ => .decided
  | .isRetired ns,retired,a => bif retired || a = .decided then a else .reading ns
  | .getNamespace ns,n,a =>
    bif (n : Option NamespaceRecord).any (·.isBound) && a ≠ .decided then .reading ns else a
  | _,_,a => a

def admission (seen : Seen) : Admission := gather admissionNote .asking seen

-- A question that neither retires nor stores a namespace, and consumes no flow.
def Query.plain : Query → Bool
  | .sameOwner _ | .deleteNamespace _ | .putNamespace _ _ | .retire _ _ | .takeFlow _ | .deleteFlow _ _ => false
  | _ => true

structure Quiet (cfg : Cfg) (h : Handler) (before after : Seen) : Prop where
  window : window after = window before
  leaving : leaving after = leaving before
  holding : holding cfg h after ⊆ holding cfg h before
  suffix : before <:+ after

variable {cfg : Cfg} {h : Handler} {seen before middle after : Seen}

theorem quiet_refl : Quiet cfg h seen seen := ⟨rfl,rfl,fun _ inside => inside,List.suffix_rfl⟩

theorem quiet_trans (first : Quiet cfg h before middle) (second : Quiet cfg h middle after) : Quiet cfg h before after :=
  ⟨second.window.trans first.window,second.leaving.trans first.leaving,
    fun _ inside => first.holding (second.holding inside),first.suffix.trans second.suffix⟩

theorem heard_later {q : Query} {r : q.Answer} (suffix : before <:+ after) (heard : Heard before q r) : Heard after q r :=
  suffix.subset heard

theorem heard_now {q : Query} {r : q.Answer} : Heard (⟨q,r⟩ :: seen) q r := List.mem_cons_self

theorem heard_before {q other : Query} {r : q.Answer} {s : other.Answer} (heard : Heard seen q r) :
    Heard (⟨other,s⟩ :: seen) q r := List.mem_cons_of_mem _ heard

theorem holdingNote_shrinks {q : Query} (plain : q.plain) (r : q.Answer) (ids : List Bytes) :
    holdingNote cfg h q r ids ⊆ ids := by
  cases q with
  | takeFlow _ | deleteFlow _ _ => cases plain
  | finishJob id result at_ => exact List.filter_sublist.subset
  | isWaiting id =>
    cases r with
    | true => exact fun _ inside => inside
    | false => exact List.filter_sublist.subset
  | past _ | adapter _ | linkAdapter _ _ | restoreAdapter _ =>
    cases r <;> simp [holdingNote]
  | checkEvent _ event =>
    simp only [holdingNote]
    cases r || event.isRoleMap <;> simp
  | _ => exact fun _ inside => inside

theorem quiet_plain {q : Query} (plain : q.plain) (r : q.Answer) : Quiet cfg h seen (⟨q,r⟩ :: seen) := by
  refine ⟨?_,?_,holdingNote_shrinks plain r _,List.suffix_cons _ _⟩
  · cases q with
    | sameOwner _ | deleteNamespace _ | putNamespace _ _ => cases plain
    | _ => rfl
  · cases q with
    | retire _ _ | deleteNamespace _ => cases plain
    | _ => rfl

end VerifiableGit.Service
