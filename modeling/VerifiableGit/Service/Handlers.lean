import VerifiableGit.Service.Rules

-- The handlers one by one, and with them the whole code.
namespace VerifiableGit.Service
open Text Library Library.Interaction
open Governance (Resource NamespaceRecord RepoRecord RepoKey ForgeAccount Report)

variable {cfg : Cfg} {h : Handler} {seen before after : Seen} {jobId : Bytes}

-- Nothing half done but the flow of one job.
structure Owing (cfg : Cfg) (h : Handler) (jobId : Bytes) (seen : Seen) : Prop where
  window : window seen = none
  leaving : leaving seen = []
  holding : holding cfg h seen ⊆ [jobId]

theorem owing_quiet (owing : Owing cfg h jobId before) (quiet : Quiet cfg h before after) : Owing cfg h jobId after where
  window := quiet.window.trans owing.window
  leaving := quiet.leaving.trans owing.leaving
  holding := fun _ inside => owing.holding (quiet.holding inside)

theorem owing_dropped (owing : Owing cfg h jobId seen) (dropped : holding cfg h seen = []) : Settled cfg h seen :=
  ⟨owing.window,owing.leaving,dropped⟩

theorem owing_paid (owing : Owing cfg h jobId seen) (gone : jobId ∉ holding cfg h seen) : Settled cfg h seen := by
  refine owing_dropped owing (List.eq_nil_iff_forall_not_mem.mpr fun id inside => gone ?_)
  have same := List.mem_singleton.mp (owing.holding inside)
  exact same ▸ inside

theorem finishJob_settles (report : Report) (owing : Owing cfg h jobId seen) :
    (finishJob jobId report).Follows (Backed h) (fun after _ => Settled cfg h after) seen :=
  follows_weaken _ (finishJob_lets_go cfg jobId report) fun _ _ done => owing_paid (owing_quiet owing done.1) done.2

-- A flow consumed.
def Took (cfg : Cfg) (h : Handler) (state : Bytes) (after : Seen) : Except Bytes PendingFlow → Prop
  | .error _ => Settled cfg h after
  | .ok f => Heard after (.takeFlow state) (some f) ∧ window after = none ∧ leaving after = [] ∧
      holding cfg h after = if suits cfg h f then f.jobId.toList else []

theorem take_follows (state : Bytes) (settled : Settled cfg h seen) :
    (take state).Follows (Backed h) (Took cfg h state) seen := by
  obtain ⟨open_,left,held⟩ := settled
  refine follows_request trivial fun flow => ?_
  cases flow with
  | none => exact follows_done ⟨open_,left,held⟩
  | some f =>
    have holds : holding cfg h (⟨.takeFlow state,some f⟩ :: seen) = if suits cfg h f then f.jobId.toList else [] := by
      simp only [holding] at held
      simp [holding,holdingNote,held]
    refine follows_request trivial fun late => ?_
    cases late with
    | true => exact follows_done ⟨open_,left,rfl⟩
    | false => exact follows_done ⟨heard_before heard_now,open_,left,holds⟩

theorem took_dropped {f : PendingFlow} {state : Bytes} (took : Took cfg h state seen (.ok f)) (other : suits cfg h f = false) :
    Settled cfg h seen := by
  obtain ⟨_,open_,left,holds⟩ := took
  refine ⟨open_,left,?_⟩
  rw [holds,other]
  rfl

theorem took_owes {f : PendingFlow} {state : Bytes} (took : Took cfg h state seen (.ok f)) (own : f.jobId = some jobId) :
    Owing cfg h jobId seen := by
  obtain ⟨_,open_,left,holds⟩ := took
  refine ⟨open_,left,?_⟩
  rw [holds,own]
  split
  · exact fun _ inside => inside
  · exact List.nil_subset _

-- A callback that gives up on its job before it is proved.
theorem owing_unserved {q : Query} {r : q.Answer} (owing : Owing cfg h jobId seen) (plain : q.plain)
    (drops : ∀ ids, holdingNote cfg h q r ids = []) : Settled cfg h (⟨q,r⟩ :: seen) :=
  owing_dropped (owing_quiet owing (quiet_plain plain r)) (drops _)

theorem owing_plain {q : Query} {r : q.Answer} (owing : Owing cfg h jobId seen) (plain : q.plain) :
    Owing cfg h jobId (⟨q,r⟩ :: seen) := owing_quiet owing (quiet_plain plain r)

theorem reportMoved_tame (cfg : Cfg) (ns : Bytes) (records : List RepoRecord) :
    (reportMoved ns records).Follows (Tame h) (Ended cfg h) seen := by
  induction records generalizing seen with
  | nil => exact follows_done trivial
  | cons r rest ih =>
    unfold reportMoved
    split
    · exact ih
    · refine follows_bind _ _ (sendEvent_tame cfg ns _ [] rfl) fun after sent ended => ?_
      cases sent with
      | error e => exact follows_done ended
      | ok _ => exact ih

-- The record is stored on the window it listed; what comes after owes the job.
theorem completeBind_settles (ns : Bytes) (resource : Resource) (binding : Binding)
    (flow : ∃ host owner state jobId r at_, h = .bindCallback host owner state ∧
      Heard seen (.takeFlow state) (some (.bind jobId ns r at_))) (owing : Owing cfg h jobId seen) :
    (completeBind jobId ns resource binding).Follows (Backed h) (fun after _ => Settled cfg h after) seen := by
  refine follows_request trivial fun existing => ?_
  have here : Owing cfg h jobId (⟨.getNamespace ns,existing⟩ :: seen) := owing_plain owing rfl
  have binds : h.forgets = false := by
    obtain ⟨_,_,_,_,_,_,own,_⟩ := flow
    rw [own]
    rfl
  refine follows_bind _ _ (supersede_takes cfg _ binds here.leaving) fun after s taken => ?_
  have known := heard_later taken.suffix (heard_now : Heard (⟨.getNamespace ns,existing⟩ :: seen) _ _)
  have stored : Stored h after ns s.new := by
    refine ⟨taken.state,⟨_,taken.window,taken.id,taken.resource,taken.binding⟩,?_,?_⟩
    · rw [taken.id]
      cases existing with
      | none => exact .inl rfl
      | some existing => exact .inr ⟨existing,known,rfl⟩
    · obtain ⟨host,owner,state,job,r,at_,own,heard⟩ := flow
      exact ⟨host,owner,state,job,r,at_,own,heard_later taken.suffix (heard_before heard)⟩
  refine follows_request stored fun put => ?_
  have there : Owing cfg h jobId (⟨.putNamespace ns s.new,put⟩ :: after) :=
    ⟨rfl,taken.leaving,fun _ inside => here.holding (taken.holding inside)⟩
  refine follows_request trivial fun restored => ?_
  cases restored with
  | false => exact follows_done (owing_unserved there rfl fun _ => rfl)
  | true =>
    have served : Owing cfg h jobId (⟨.restoreAdapter s.new,true⟩ :: _) := owing_plain there rfl
    refine tame_bind cfg _ _ (sendEvent_tame cfg ns _ [] rfl) fun later sent ended quiet => ?_
    have told := owing_quiet served quiet
    cases sent with
    | error e => exact follows_done (owing_dropped told ended)
    | ok _ =>
      refine tame_bind cfg _ _ (reportRoleMap_tame ns) fun later' _ _ quiet' => ?_
      refine tame_bind cfg _ _ (reportMoved_tame cfg ns s.moved) fun last sent ended quiet'' => ?_
      have reported := owing_quiet (owing_quiet told quiet') quiet''
      cases sent with
      | error e => exact follows_done (owing_dropped reported ended)
      | ok _ => exact follows_bind _ _ (finishJob_settles _ reported) fun _ _ settled => follows_done settled

theorem bindCallback_settles (host : Bytes) (routeOwner : Option Bytes) (state : Bytes)
    (own : h = .bindCallback host routeOwner state) (settled : Settled cfg h seen) :
    (bindCallback cfg host routeOwner state).Follows (Backed h) (fun after _ => Settled cfg h after) seen := by
  refine follows_bind _ _ (take_follows state settled) fun after flow took => ?_
  cases flow with
  | error e => exact follows_done took
  | ok flow =>
    cases flow with
    | link _ _ _ _ _ _ | manifest _ _ _ => exact follows_done (took_dropped took (by rw [own]; rfl))
    | bind jobId ns resource at_ =>
      have owing : Owing cfg h jobId after := took_owes took rfl
      by_cases right : rightRoute cfg host routeOwner resource = true
      · simp only [right,if_true]
        refine follows_request trivial fun served => ?_
        cases served with
        | false => exact follows_done (owing_unserved owing rfl fun _ => rfl)
        | true =>
          refine follows_request trivial fun outcome => ?_
          have asked : Owing cfg h jobId (⟨.completeBind resource state,outcome⟩ :: ⟨.adapter resource,true⟩ :: after) :=
            owing_plain (owing_plain owing rfl) rfl
          cases outcome with
          | error e => exact follows_bind _ _ (finishJob_settles _ asked) fun _ _ settled => follows_done settled
          | ok binding =>
            refine completeBind_settles ns resource binding ?_ asked
            exact ⟨host,routeOwner,state,jobId,resource,at_,own,heard_before (heard_before took.1)⟩
      · simp only [right]
        refine follows_done (took_dropped took ?_)
        rw [own]
        simpa only [suits,Bool.not_eq_true] using right

theorem completeLink_settles (ns : Bytes) (outcome : Except LinkError ForgeAccount) (owing : Owing cfg h jobId seen) :
    (completeLink jobId ns outcome).Follows (Backed h) (fun after _ => Settled cfg h after) seen := by
  cases outcome with
  | error e => exact finishJob_settles _ owing
  | ok account =>
    refine tame_bind cfg _ _ (sendEvent_tame cfg ns _ [] rfl) fun after sent ended quiet => ?_
    have told := owing_quiet owing quiet
    cases sent with
    | error e => exact follows_done (owing_dropped told ended)
    | ok _ => exact finishJob_settles _ told

theorem linkCallback_settles (host state : Bytes) (own : h = .linkCallback host state) (settled : Settled cfg h seen) :
    (linkCallback host state).Follows (Backed h) (fun after _ => Settled cfg h after) seen := by
  refine follows_bind _ _ (take_follows state settled) fun after flow took => ?_
  cases flow with
  | error e => exact follows_done took
  | ok flow =>
    cases flow with
    | bind _ _ _ _ | manifest _ _ _ => exact follows_done (took_dropped took (by rw [own]; rfl))
    | link jobId ns flowHost member at_ device =>
      cases device with
      | some _ => exact follows_done (took_dropped took (by rw [own]; rfl))
      | none =>
        have owing : Owing cfg h jobId after := took_owes took rfl
        by_cases right : flowHost = host
        · simp only [right,if_true]
          refine follows_request trivial fun served => ?_
          cases served with
          | false => exact follows_done (owing_unserved owing rfl fun _ => rfl)
          | true =>
            refine follows_request trivial fun outcome => ?_
            exact completeLink_settles ns outcome (owing_plain (owing_plain owing rfl) rfl)
        · simp only [right]
          refine follows_done (took_dropped took ?_)
          rw [own]
          simpa only [suits,decide_eq_false_iff_not] using right

-- What is deleted after it was read leaves its job to the one who deletes it.
theorem deleted_owes {state : Bytes} {f : PendingFlow} (own : f.jobId = some jobId) (deleted : Bool)
    (settled : Settled cfg h seen) : Owing cfg h jobId (⟨.deleteFlow state f,deleted⟩ :: seen) := by
  obtain ⟨open_,left,held⟩ := settled
  refine ⟨open_,left,?_⟩
  simp only [holding] at held
  simp [holding,holdingNote,held,own]

theorem pollDevice_settles (state : Bytes) (settled : Settled cfg h seen) :
    (pollDevice state).Follows (Backed h) (fun after _ => Settled cfg h after) seen := by
  refine follows_request trivial fun flow => ?_
  have here := settled_quiet settled (quiet_plain (q := .getFlow state) rfl flow)
  cases flow with
  | none => exact follows_done here
  | some flow =>
    have heard : Heard (⟨.getFlow state,some flow⟩ :: seen) (.getFlow state) (some flow) := heard_now
    cases flow with
    | bind _ _ _ _ | manifest _ _ _ => exact follows_done here
    | link jobId ns host member at_ device =>
      cases device with
      | none => exact follows_done here
      | some poll =>
        refine follows_request trivial fun code => ?_
        have there := settled_quiet here (quiet_plain (q := .getDeviceCode state) rfl code)
        cases code with
        | none => exact follows_done there
        | some code =>
          refine follows_request trivial fun served => ?_
          have last := settled_quiet there (quiet_plain (q := .linkAdapter ns host) rfl served)
          cases served with
          | false => exact follows_done last
          | true =>
            refine follows_request trivial fun outcome => ?_
            have asked := settled_quiet last (quiet_plain (q := .completeAccountLink state (some code)) rfl outcome)
            refine follows_request (.inl ?_) fun deleted => follows_request trivial fun gone => ?_
            · exact heard_before (heard_before (heard_before heard))
            · exact completeLink_settles ns outcome (owing_plain (deleted_owes rfl deleted asked) rfl)

theorem expireJob_settles (job : Option Bytes) (nobody : job = none → Settled cfg h seen)
    (owes : ∀ id, job = some id → Owing cfg h id seen) :
    (expireJob job).Follows (Backed h) (fun after _ => Settled cfg h after) seen := by
  cases job with
  | none => exact follows_done (nobody rfl)
  | some jobId =>
    refine follows_request trivial fun waits => ?_
    have asked : Owing cfg h jobId (⟨.isWaiting jobId,waits⟩ :: seen) := owing_plain (owes jobId rfl) rfl
    cases waits with
    | true => exact finishJob_settles _ asked
    | false =>
      refine follows_done (owing_paid asked ?_)
      simp [holding,holdingNote]

theorem deleted_settles {state : Bytes} {f : PendingFlow} (nobody : f.jobId = none) (deleted : Bool)
    (settled : Settled cfg h seen) : Settled cfg h (⟨.deleteFlow state f,deleted⟩ :: seen) := by
  obtain ⟨open_,left,held⟩ := settled
  refine ⟨open_,left,?_⟩
  simp only [holding] at held
  simp [holding,holdingNote,held,nobody]

theorem expireOne_settles (flows : List (Bytes × PendingFlow)) (now : Int) (f : Bytes × PendingFlow) (inside : f ∈ flows)
    (heard : Heard seen .listFlows flows) (settled : Settled cfg h seen) :
    (expireOne now f).Follows (Backed h) (fun after _ => Settled cfg h after) seen := by
  unfold expireOne
  split
  · exact follows_done settled
  · refine follows_request (.inr ⟨flows,heard,inside⟩) fun deleted => follows_request trivial fun gone => ?_
    refine expireJob_settles f.2.jobId (fun nobody => ?_) fun id own => owing_plain (deleted_owes own deleted settled) rfl
    exact settled_quiet (deleted_settles nobody deleted settled) (quiet_plain rfl gone)

theorem expire_settles (settled : Settled cfg h seen) :
    expire.Follows (Backed h) (fun after _ => Settled cfg h after) seen := by
  refine follows_request trivial fun flows => follows_request trivial fun now => ?_
  refine follows_weaken _ (follows_each (fun rest later =>
    rest ⊆ flows ∧ Heard later .listFlows flows ∧ Settled cfg h later) _ flows ?_
    ⟨fun _ inside => inside,heard_before heard_now,?_⟩) fun _ _ kept => kept.2.2
  · intro f rest later here
    obtain ⟨inside,heard,there⟩ := here
    have others : rest ⊆ flows := fun x later => inside (List.mem_cons_of_mem _ later)
    refine follows_weaken _ (follows_suffix _ (expireOne_settles flows now f (inside List.mem_cons_self) heard there)) ?_
    exact fun _ _ both => ⟨others,heard_later both.2 heard,both.1⟩
  · exact settled_quiet settled (quiet_trans (quiet_plain rfl flows) (quiet_plain rfl now))

theorem resumeDevicePolls_tame : resumeDevicePolls.Follows (Tame h) Anything seen := by
  refine follows_request ⟨rfl,trivial⟩ fun flows => each_tame flows fun f _ later => ?_
  split
  · refine follows_request ⟨rfl,trivial⟩ fun expired => ?_
    cases expired with
    | true => exact follows_done trivial
    | false => exact follows_last ⟨rfl,trivial⟩ fun _ => trivial
  · exact follows_done trivial

theorem offerOne_tame (g : Bytes × Bytes) : (offerOne g).Follows (Tame h) Anything seen := by
  refine follows_request ⟨rfl,trivial⟩ fun registered => ?_
  cases registered with
  | true => exact follows_done trivial
  | false =>
    refine follows_request ⟨rfl,trivial⟩ fun flows => follows_request ⟨rfl,trivial⟩ fun now => ?_
    dsimp only
    split
    · exact follows_done trivial
    · exact follows_request ⟨rfl,trivial⟩ fun state => follows_last ⟨rfl,trivial⟩ fun _ => trivial

theorem manifestCallback_settles (host owner state : Bytes) (settled : Settled cfg h seen) :
    (manifestCallback cfg host owner state).Follows (Backed h) (fun after _ => Settled cfg h after) seen := by
  refine follows_request trivial fun flow => ?_
  have here := settled_quiet settled (quiet_plain (q := .getFlow state) rfl flow)
  cases flow with
  | none => exact follows_done here
  | some flow =>
    have heard : Heard (⟨.getFlow state,some flow⟩ :: seen) (.getFlow state) (some flow) := heard_now
    cases flow with
    | bind _ _ _ _ | link _ _ _ _ _ _ => exact follows_done here
    | manifest flowHost flowOwner at_ =>
      cases flowOwner with
      | none => exact follows_done here
      | some o =>
        refine follows_request trivial fun expired => follows_request trivial fun registered => ?_
        have there := settled_quiet here (quiet_trans (quiet_plain (q := .past at_) rfl expired)
          (quiet_plain (q := .registered host owner) rfl registered))
        split
        · refine follows_request trivial fun exchanged => ?_
          have last := settled_quiet there (quiet_plain (q := .exchangeCode host owner) rfl exchanged)
          cases exchanged with
          | false => exact follows_done last
          | true =>
            refine follows_request (.inl (heard_before (heard_before (heard_before heard)))) fun deleted => ?_
            exact follows_done (deleted_settles rfl deleted last)
        · exact follows_done there

-- Jobs.
theorem nextOf_tame (url : Bytes) (userCode : Option Bytes) (expiresAt : Int) :
    (nextOf url userCode expiresAt).Follows (Tame h) Anything seen := by
  refine follows_request ⟨rfl,trivial⟩ fun bad => ?_
  cases bad with
  | none => exact follows_done trivial
  | some e => exact follows_done trivial

theorem beginBind_tame (jobId ns : Bytes) (target : Except Bytes Resource) (expiresAt : Int)
    (begun : ∃ p target, h.brings p ∧ p.kind = .beginBind target ∧ p.ns = ns ∧ p.jobId = jobId) :
    (beginBind jobId ns target expiresAt).Follows (Tame h) Anything seen := by
  cases target with
  | error e => exact follows_done trivial
  | ok resource =>
    refine follows_request ⟨rfl,trivial⟩ fun served => ?_
    cases served with
    | false => exact follows_done trivial
    | true =>
      refine follows_request ⟨rfl,rfl,rfl⟩ fun new => follows_request ⟨rfl,trivial⟩ fun state => ?_
      refine follows_request ⟨rfl,trivial⟩ fun step => ?_
      cases step with
      | error e => exact follows_done trivial
      | ok step =>
        cases step with
        | other shown => exact follows_done trivial
        | redirect url => exact follows_request ⟨rfl,begun⟩ fun _ => nextOf_tame _ _ _

theorem loadCtx_tame (ns : Bytes) : (loadCtx ns).Follows (Tame h) Anything seen := by
  refine follows_request ⟨rfl,trivial⟩ fun n => ?_
  split
  · exact follows_done trivial
  · refine follows_request ⟨rfl,trivial⟩ fun served => ?_
    cases served with
    | true => exact follows_done trivial
    | false => exact follows_done trivial

theorem beginDevice_tame (jobId ns host member code userCode uri : Bytes) (expiresIn interval : Nat)
    (begun : ∃ p, h.brings p ∧ p.ns = ns ∧ p.jobId = jobId) :
    (beginDevice jobId ns host member code userCode uri expiresIn interval).Follows (Tame h) Anything seen := by
  refine follows_request ⟨rfl,trivial⟩ fun state => follows_request ⟨rfl,trivial⟩ fun now => ?_
  refine follows_bind _ _ (nextOf_tame _ _ _) fun after next _ => ?_
  cases next with
  | error r => exact follows_done trivial
  | ok next =>
    refine follows_request ⟨rfl,trivial⟩ fun _ => follows_request ⟨rfl,begun⟩ fun _ => ?_
    exact follows_request ⟨rfl,trivial⟩ fun _ => follows_done trivial

theorem beginAccountLink_tame (jobId ns member : Bytes) (expiresAt : Int)
    (begun : ∃ p, h.brings p ∧ p.ns = ns ∧ p.jobId = jobId) :
    (beginAccountLink jobId ns member expiresAt).Follows (Tame h) Anything seen := by
  refine follows_bind _ _ (loadCtx_tame ns) fun after ctx _ => ?_
  cases ctx with
  | error m => exact follows_done trivial
  | ok n =>
    refine follows_request ⟨rfl,trivial⟩ fun step => ?_
    cases step with
    | error e => exact follows_done trivial
    | ok step =>
      cases step with
      | other shown => exact follows_done trivial
      | deviceCode code userCode uri expiresIn interval => exact beginDevice_tame _ _ _ _ _ _ _ _ _ begun
      | redirect url state =>
        cases state with
        | none => exact follows_done trivial
        | some state =>
          refine follows_bind _ _ (nextOf_tame _ _ _) fun later next _ => ?_
          cases next with
          | error r => exact follows_done trivial
          | ok next => exact follows_request ⟨rfl,begun⟩ fun _ => follows_done trivial

theorem beginFlow_tame (p : JobPayload) (brings : h.brings p) : (beginFlow cfg p).Follows (Tame h) Anything seen := by
  refine follows_request ⟨rfl,trivial⟩ fun now => ?_
  split
  · rename_i target kind
    exact beginBind_tame _ _ _ _ ⟨p,target,brings,kind,rfl,rfl⟩
  · exact beginAccountLink_tame _ _ _ _ ⟨p,brings,rfl,rfl⟩
  · exact follows_done trivial

theorem startKind_tame (p : JobPayload) (brings : h.brings p) : (startKind cfg p).Follows (Tame h) Anything seen := by
  unfold startKind
  split
  · refine follows_bind _ _ (beginFlow_tame p brings) fun after begun _ => ?_
    cases begun with
    | ok next => exact follows_request ⟨rfl,p,brings,rfl⟩ fun _ => follows_last ⟨rfl,trivial⟩ fun _ => trivial
    | error report => exact follows_request ⟨rfl,trivial⟩ fun _ => finishJob_tame _ _
  · exact follows_request ⟨rfl,trivial⟩ fun _ => follows_last ⟨rfl,trivial⟩ fun _ => trivial

def Admits (p : JobPayload) (after : Seen) : Except Refusal Unit → Prop
  | .error _ => True
  | .ok _ => admission after = .reading p.ns

theorem admission_retired (ns : Bytes) (asking : admission seen ≠ .decided) :
    admission (⟨.isRetired ns,false⟩ :: seen) = .reading ns := by
  simp only [admission] at asking
  simp [admission,admissionNote,asking]

theorem admission_bound (ns : Bytes) {n : NamespaceRecord} (asking : admission seen ≠ .decided) (bound : n.isBound = true) :
    admission (⟨.getNamespace ns,some n⟩ :: seen) = .reading ns := by
  simp only [admission] at asking
  simp [admission,admissionNote,asking,bound]

-- Once it has read that the namespace may be served, a second look changes nothing.
theorem admission_again {ns : Bytes} (n : Option NamespaceRecord) (reading : admission seen = .reading ns) :
    admission (⟨.getNamespace ns,n⟩ :: seen) = .reading ns := by
  simp only [admission] at reading
  simp only [admission,gather_cons,admissionNote,reading]
  cases n.any (·.isBound) <;> rfl

theorem admitBind_tame (p : JobPayload) (target : Except Bytes Resource) (asking : admission seen ≠ .decided) :
    (admitBind p.ns target).Follows (Tame h) (Admits p) seen := by
  refine follows_request ⟨rfl,trivial⟩ fun retired => ?_
  cases retired with
  | true => exact follows_done trivial
  | false =>
    have reading := admission_retired p.ns asking
    cases target with
    | error e => exact follows_done trivial
    | ok resource =>
      refine follows_request ⟨rfl,trivial⟩ fun served => ?_
      cases served with
      | false => exact follows_done trivial
      | true =>
        refine follows_request ⟨rfl,trivial⟩ fun existing => ?_
        split
        · exact follows_done (admission_again existing reading)
        · exact follows_done trivial

theorem admitBound_tame (p : JobPayload) (asking : admission seen ≠ .decided) :
    (admitBound p).Follows (Tame h) (Admits p) seen := by
  refine follows_request ⟨rfl,trivial⟩ fun n => ?_
  split
  · exact follows_done trivial
  · rename_i n' found
    obtain ⟨rfl,bound⟩ := Option.filter_eq_some_iff.mp found
    have reading := admission_bound p.ns asking bound
    refine follows_request ⟨rfl,trivial⟩ fun served => ?_
    split
    · exact follows_done trivial
    · split
      · exact follows_done trivial
      · split
        · exact follows_done trivial
        · refine follows_request ⟨rfl,trivial⟩ fun caps => ?_
          split
          · exact follows_done trivial
          · exact follows_done reading

theorem admitJob_tame (p : JobPayload) (asking : admission seen ≠ .decided) :
    (admitJob p).Follows (Tame h) (Admits p) seen := by
  unfold admitJob
  split
  · exact admitBind_tame p _ asking
  · exact admitBound_tame p asking

theorem admitted_tame (doc : JobDoc) (p : JobPayload) (brings : h.brings p) (reading : admission seen = .reading p.ns) :
    (admitted cfg doc p).Follows (Tame h) Anything seen := by
  refine follows_request ⟨rfl,trivial⟩ fun now => ?_
  refine follows_request ⟨rfl,rfl,rfl,p,brings,rfl,rfl,rfl,reading⟩ fun new => ?_
  cases new with
  | false => exact follows_done trivial
  | true => exact follows_bind _ _ (startKind_tame p brings) fun _ _ _ => follows_done trivial

theorem sendError_tame (e : Refusal) : (sendError e).Follows (Tame h) Anything seen :=
  follows_last ⟨rfl,trivial⟩ fun _ => trivial

theorem respond_tame (jobId : Bytes) (accepted : Bool) (next : Option Next) :
    (respond jobId accepted next).Follows (Tame h) Anything seen := follows_last ⟨rfl,trivial⟩ fun _ => trivial

theorem answerAgain_tame (doc : JobDoc) (jobId : Bytes) (existing : JobRecord)
    (heard : Heard seen (.getJob jobId) (some existing)) :
    (answerAgain doc jobId existing).Follows (Tame h) Anything seen := by
  unfold answerAgain
  split
  · split
    · rename_i finished
      refine follows_request ⟨rfl,trivial⟩ fun _ => ?_
      cases result : existing.result with
      | none => exact sendOutbox_tame _
      | some result' =>
        refine follows_request ⟨rfl,jobId,existing,result',rfl,heard_before heard,finished,result,rfl⟩ fun _ => ?_
        exact sendOutbox_tame _
    · exact respond_tame _ _ _
  · exact sendError_tame _

theorem onJob_tame (doc : JobDoc) (own : h = .job doc) : (onJob cfg doc).Follows (Tame h) Anything [] := by
  unfold onJob
  split
  · exact sendError_tame _
  · rename_i p payload
    have brings : h.brings p := ⟨doc,own,payload⟩
    refine follows_request ⟨rfl,trivial⟩ fun existing => ?_
    cases existing with
    | some existing => exact answerAgain_tame doc p.jobId existing heard_now
    | none =>
      refine follows_request ⟨rfl,p,brings,rfl⟩ fun revived => ?_
      refine follows_bind _ _ (admitJob_tame p fun decided => nomatch decided) fun after refused admits => ?_
      cases refused with
      | error e =>
        refine follows_bind _ _ (sendError_tame e) fun later _ _ => ?_
        split
        · exact reportRoleMap_tame _
        · exact follows_done trivial
      | ok _ =>
        refine follows_bind _ _ (admitted_tame doc p brings admits) fun later new _ => ?_
        split
        · exact reportRoleMap_tame _
        · exact follows_done trivial

theorem workOne_tame (ns : Bytes) (act : WorkAct) : (workOne ns act).Follows (Tame h) Anything seen := by
  cases act with
  | event body drift =>
    refine follows_bind _ _ (sendEventKeyed_tame {} ns body drift none ?_) fun _ _ _ => follows_done trivial
    exact fun _ none => nomatch none
  | adjust change => exact follows_last ⟨rfl,trivial⟩ fun _ => trivial
  | repo key record => exact follows_last ⟨rfl,trivial⟩ fun _ => trivial

theorem work_tame (ns : Bytes) (acts : List WorkAct) : (work ns acts).Follows (Tame h) Anything seen :=
  each_tame acts fun act _ _ => workOne_tame ns act

theorem runWork_tame (p : JobPayload) : (runWork p).Follows (Tame h) Anything seen := by
  refine follows_bind _ _ (loadCtx_tame p.ns) fun after ctx _ => ?_
  cases ctx with
  | error m => exact follows_done trivial
  | ok n =>
    dsimp only
    split
    · exact follows_done trivial
    · refine follows_request ⟨rfl,trivial⟩ fun done => ?_
      exact follows_bind _ _ (work_tame p.ns done.acts) fun _ _ _ => follows_done trivial

theorem runPayload_tame (jobId ns : Bytes) (p : JobPayload) : (runPayload jobId ns p).Follows (Tame h) Anything seen := by
  refine follows_request ⟨rfl,trivial⟩ fun _ => follows_request ⟨rfl,trivial⟩ fun _ => ?_
  refine follows_bind _ _ (runWork_tame p) fun after report _ => ?_
  cases report with
  | none => exact follows_last ⟨rfl,trivial⟩ fun _ => trivial
  | some report =>
    exact follows_bind _ _ (finishJob_tame jobId report) fun _ _ _ => follows_last ⟨rfl,trivial⟩ fun _ => trivial

theorem runJob_tame (jobId : Bytes) : (runJob jobId).Follows (Tame h) Anything seen := by
  refine follows_request ⟨rfl,trivial⟩ fun record => ?_
  cases record with
  | none => exact finishJob_tame _ _
  | some r =>
    dsimp only
    split
    · exact follows_done trivial
    · split
      · exact finishJob_tame _ _
      · exact runPayload_tame _ _ _

-- Answers from the VTC.
def Cleared (thread : Bytes) (after : Seen) (entry : Option OutboxEntry) : Prop :=
  ∃ entries : List (OutboxKey × OutboxEntry), First after .listEntries entries ∧ (threaded thread entries).map (·.2) = entry

theorem clearOutboxThread_tame (thread : Bytes)
    (dropped : ∀ seen entries e, First seen .listEntries entries → threaded thread entries = some e → Dropped h seen e.1) :
    (clearOutboxThread thread).Follows (Tame h) (Cleared thread) [] := by
  refine follows_request ⟨rfl,trivial⟩ fun entries => ?_
  have first : First [⟨.listEntries,entries⟩] .listEntries entries := List.suffix_rfl
  cases found : threaded thread entries with
  | none => exact follows_done ⟨entries,first,by rw [found]; rfl⟩
  | some e =>
    refine follows_request ⟨rfl,dropped _ entries e first found⟩ fun _ => follows_done ?_
    exact ⟨entries,first.trans (List.suffix_cons _ _),by rw [found]; rfl⟩

theorem onEventAck_tame (thread : Option Bytes) (own : h = .eventAck thread) :
    (onEventAck thread).Follows (Tame h) Anything [] := by
  cases thread with
  | none => exact follows_done trivial
  | some thread =>
    refine follows_bind _ _ (clearOutboxThread_tame thread ?_) fun _ _ _ => follows_done trivial
    exact fun seen entries e first found => .eventAck thread entries e own first found

theorem onRefusal_tame (code : Bytes) (thread : Option Bytes) (own : h = .refusal code thread) :
    (onRefusal code thread).Follows (Tame h) Anything [] := by
  unfold onRefusal
  split
  · rename_i known
    refine follows_bind _ _ (clearOutboxThread_tame (thread.getD []) ?_) fun _ _ _ => follows_done trivial
    exact fun seen entries e first found => .refused code thread entries e own (.inl known) first found
  · split
    · rename_i known
      refine follows_bind _ _ (clearOutboxThread_tame (thread.getD []) ?_) fun after entry cleared => ?_
      · exact fun seen entries e first found => .refused code thread entries e own (.inr known) first found
      · obtain ⟨entries,first,found⟩ := cleared
        cases entry with
        | none => exact follows_done trivial
        | some entry =>
          obtain ⟨e,listed,rfl⟩ := Option.map_eq_some_iff.mp found
          cases content : e.2.content with
          | result p =>
            simp only [content]
            exact follows_done trivial
          | event p =>
            simp only [content]
            split
            · exact follows_done trivial
            · rename_i given
              cases thread with
              | none => exact absurd rfl given
              | some thread =>
                subst known
                exact orphanNamespace_tame p.ns ⟨thread,entries,e,p,own,first,listed,content,rfl⟩
    · exact follows_done trivial

theorem onResultAck_tame (jobId : Bytes) (own : h = .resultAck jobId) :
    (onResultAck jobId).Follows (Tame h) Anything seen :=
  follows_request ⟨rfl,.acknowledged jobId own⟩ fun _ => follows_done trivial

-- Restarts and ticks.
theorem restoreJobs_tame : restoreJobs.Follows (Tame h) Anything seen := by
  refine follows_request ⟨rfl,trivial⟩ fun jobs => each_tame jobs fun j _ later => ?_
  split
  · exact follows_last ⟨rfl,trivial⟩ fun _ => trivial
  · exact follows_done trivial

theorem restore_tame : (restore cfg).Follows (Tame h) Anything seen := by
  refine follows_request ⟨rfl,trivial⟩ fun all => ?_
  refine follows_bind _ _ (each_tame all fun n _ later => follows_request ⟨rfl,trivial⟩ fun _ => follows_done trivial) ?_
  intro after _ _
  refine follows_bind _ _ restoreJobs_tame fun later _ _ => ?_
  exact follows_bind _ _ resumeDevicePolls_tame fun last _ _ => linkUp_tame

theorem pruneOne_tame (now : Int) (j : Bytes × JobRecord) : (pruneOne now j).Follows (Tame h) Anything seen := by
  refine follows_request ⟨rfl,trivial⟩ fun entry => ?_
  split
  · exact follows_request ⟨rfl,trivial⟩ fun _ => follows_done trivial
  · exact follows_done trivial

theorem maintenance_settles (forgets : h.forgets = true) (settled : Settled cfg h seen) :
    (maintenance cfg).Follows (Backed h) (fun after _ => Settled cfg h after) seen := by
  refine follows_request trivial fun now => follows_request trivial fun jobs => ?_
  have here := settled_quiet settled (quiet_trans (quiet_plain (q := .now) rfl now) (quiet_plain (q := .listJobs) rfl jobs))
  refine tame_bind cfg _ _ (each_tame jobs fun j _ later => pruneOne_tame now j) fun after _ _ quiet => ?_
  exact sweepOrphaned_settles forgets (settled_quiet here quiet)

-- Every handler.
theorem code_follows (cfg : Cfg) (h : Handler) :
    (code cfg h).Follows (Backed h) (fun after _ => Settled cfg h after) [] := by
  cases h with
  | job doc => exact tame_settles _ (onJob_tame doc rfl) settled_start
  | runJob jobId => exact tame_settles _ (runJob_tame jobId) settled_start
  | bindCallback host routeOwner state =>
    exact follows_bind _ _ (bindCallback_settles host routeOwner state rfl settled_start) fun _ _ there => follows_done there
  | linkCallback host state => exact linkCallback_settles host state rfl settled_start
  | pollDevice state => exact pollDevice_settles state settled_start
  | expire => exact expire_settles settled_start
  | resend all => exact tame_settles (resendUnacknowledged cfg all) (resendMatching_tame all fun _ => true) settled_start
  | linkUp => exact tame_settles _ linkUp_tame settled_start
  | restore => exact tame_settles _ restore_tame settled_start
  | maintenance => exact maintenance_settles rfl settled_start
  | resultAck jobId => exact tame_settles _ (onResultAck_tame jobId rfl) settled_start
  | eventAck thread => exact tame_settles _ (onEventAck_tame thread rfl) settled_start
  | refusal code thread => exact tame_settles _ (onRefusal_tame code thread rfl) settled_start
  | work ns acts => exact tame_settles _ (work_tame ns acts) settled_start
  | forget ns => exact forget_settles ns rfl settled_start
  | offerRegistrations => exact tame_settles _ (each_tame cfg.github fun g _ _ => offerOne_tame g) settled_start
  | manifestCallback host owner state => exact manifestCallback_settles host owner state settled_start

def rules (cfg : Cfg) : (bridge cfg).Rules where
  allowed := Backed
  post := Settled cfg
  idle := fun _ => settled_start
  follows := code_follows cfg

end VerifiableGit.Service
