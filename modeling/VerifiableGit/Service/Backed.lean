import VerifiableGit.Service.Tracks

-- Why the bridge may ask what it asks: of every question of every handler, what
-- the answers before it say.
namespace VerifiableGit.Service
open Text Library Library.Interaction
open Governance (NamespaceRecord RepoRecord RepoKey)

-- What is kept under a key of the outbox.
def KeyFits : OutboxKey → Content → Prop
  | .result id,.result p => p.jobId = id
  | .event _,.event _ => True
  | .roleMap ns,.event p => p.ns = ns
  | _,_ => False

def Handler.forgets : Handler → Bool
  | .forget _ | .maintenance => true
  | _ => false

-- The answer to its first question.
def First (seen : Seen) (q : Query) (r : q.Answer) : Prop := [⟨q,r⟩] <:+ seen

def Handler.brings (h : Handler) (p : JobPayload) : Prop := ∃ doc, h = .job doc ∧ doc.payload = .ok p

-- The job a flow is put for.
def Begun (h : Handler) : PendingFlow → Prop
  | .bind jobId ns _ _ => ∃ p target, h.brings p ∧ p.kind = .beginBind target ∧ p.ns = ns ∧ p.jobId = jobId
  | .link jobId ns _ _ _ _ => ∃ p, h.brings p ∧ p.ns = ns ∧ p.jobId = jobId
  | .manifest _ _ _ => True

-- Why an entry leaves the outbox.
inductive Dropped (h : Handler) (seen : Seen) : OutboxKey → Prop
  | acknowledged (jobId : Bytes) (own : h = .resultAck jobId) : Dropped h seen (.result jobId)
  | eventAck (thread : Bytes) (entries : List (OutboxKey × OutboxEntry)) (e : OutboxKey × OutboxEntry)
      (own : h = .eventAck (some thread)) (first : First seen .listEntries entries)
      (found : threaded thread entries = some e) : Dropped h seen e.1
  | refused (code : Bytes) (thread : Option Bytes) (entries : List (OutboxKey × OutboxEntry)) (e : OutboxKey × OutboxEntry)
      (own : h = .refusal code thread) (known : code = unknownJobCode ∨ code = unknownNamespaceCode)
      (first : First seen .listEntries entries) (found : threaded (thread.getD []) entries = some e) : Dropped h seen e.1
  | listed (entries : List (OutboxKey × OutboxEntry)) (e : OutboxKey × OutboxEntry) (p : EventPayload)
      (heard : Heard seen .listEntries entries) (inside : e ∈ entries) (event : e.2.content = .event p) :
      Dropped h seen e.1
  | orphaned (key : OutboxKey) (e : OutboxEntry) (p : EventPayload) (heard : Heard seen (.getEntry key) (some e))
      (event : e.content = .event p) : Dropped h seen key
  | roleMap (ns : Bytes) : Dropped h seen (.roleMap ns)

structure Stored (h : Handler) (seen : Seen) (id : Bytes) (n : NamespaceRecord) : Prop where
  bound : n.state = .bound
  window : ∃ new, window seen = some (new,[]) ∧ n.id = new.id ∧ n.resource = new.resource ∧ n.binding = new.binding
  own : n.id = id ∨ ∃ existing, Heard seen (.getNamespace id) (some existing) ∧ n.id = existing.id
  flow : ∃ host owner state jobId r at_, h = .bindCallback host owner state ∧
    Heard seen (.takeFlow state) (some (.bind jobId id r at_))

structure Refused (h : Handler) (seen : Seen) (ns : Bytes) : Prop where
  entry : ∃ thread entries e p, h = .refusal unknownNamespaceCode (some thread) ∧ First seen .listEntries entries ∧
    threaded thread entries = some e ∧ e.2.content = .event p ∧ p.ns = ns

def Backed (h : Handler) (seen : Seen) : Query → Prop
  | .newJob id r => r.state = .queued ∧ r.result = none ∧
      ∃ p, h.brings p ∧ p.jobId = id ∧ p.ns = r.ns ∧ p.kind.text = r.kind ∧ admission seen = .reading p.ns
  | .waitJob id _ => ∃ p, h.brings p ∧ p.jobId = id
  | .finishJob id result _ => result.jobId = id
  | .newNamespace id n => n.id = id ∧ n.state = .pending
  | .putNamespace id n => Stored h seen id n
  | .orphan ns _ => Refused h seen ns
  | .unorphan ns => ∃ p, h.brings p ∧ p.ns = ns
  | .deleteNamespace id => (h.forgets = false ∧ id ∈ leaving seen) ∨ (h.forgets ∧ ∃ keys, doom seen = some (id,keys))
  | .deleteRepo key => h.forgets ∧ ∃ id keys, doom seen = some (id,keys) ∧ key ∈ keys
  | .putFlow _ flow => Begun h flow
  | .deleteFlow state flow => Heard seen (.getFlow state) (some flow) ∨
      ∃ flows : List (Bytes × PendingFlow), Heard seen .listFlows flows ∧ (state,flow) ∈ flows
  | .putEntry key e => KeyFits key e.content ∧ ∃ p, e.content = .event p ∧ pass seen = some p.ns
  | .newEntry key e => ∃ id r result, key = .result id ∧ Heard seen (.getJob id) (some r) ∧ r.state = .finished ∧
      r.result = some result ∧ e.content = .result result
  | .refreshEntry key p => key = .roleMap p.ns ∧ pass seen = some p.ns
  | .deleteEntry key => Dropped h seen key
  | .send content => (∃ key e, Heard seen (.getEntry key) (some e) ∧ e.content = content) ∧
      ∀ p, content = .event p → pass seen = some p.ns
  | _ => True

-- A question of a part that handles no flow and stores no namespace.
def Tame (h : Handler) (seen : Seen) (q : Query) : Prop := q.plain ∧ Backed h seen q

variable {cfg : Cfg} {h : Handler} {seen : Seen} {α β : Type} {post : Seen → α → Prop}

theorem follows_request {allowed : Seen → Query → Prop} {q : Query} {f : q.Answer → Code β} {post : Seen → β → Prop}
    (here : allowed seen q) (rest : ∀ r, (f r).Follows allowed post (⟨q,r⟩ :: seen)) :
    (request q >>= f).Follows allowed post seen := ⟨here,rest⟩

theorem follows_last {allowed : Seen → Query → Prop} {q : Query} {post : Seen → q.Answer → Prop}
    (here : allowed seen q) (last : ∀ r, post (⟨q,r⟩ :: seen) r) : (request q).Follows allowed post seen := ⟨here,last⟩

-- A tame part leaves a callback's window, the ids it retires and the flows it
-- holds alone.
theorem tame_quiet (cfg : Cfg) (p : Code α) (tame : p.Follows (Tame h) post seen) :
    p.Follows (Backed h) (fun after a => post after a ∧ Quiet cfg h seen after) seen := by
  induction p generalizing seen with
  | done a => exact ⟨tame,quiet_refl⟩
  | call q next ih =>
    refine ⟨tame.1.2,fun r => follows_weaken _ (ih r (tame.2 r)) ?_⟩
    exact fun after a both => ⟨both.1,quiet_trans (quiet_plain tame.1.1 r) both.2⟩

theorem tame_bind {mid : Seen → α → Prop} {post : Seen → β → Prop} (cfg : Cfg) (p : Code α) (f : α → Code β)
    (tame : p.Follows (Tame h) mid seen)
    (rest : ∀ after a, mid after a → Quiet cfg h seen after → (f a).Follows (Backed h) post after) :
    (p >>= f).Follows (Backed h) post seen :=
  follows_bind p f (tame_quiet cfg p tame) fun after a both => rest after a both.1 both.2

def Anything (_ : Seen) (_ : α) : Prop := True

theorem follows_anything (p : Code α) {allowed : Seen → Query → Prop} (follows : p.Follows allowed post seen) :
    p.Follows allowed Anything seen := follows_weaken p follows fun _ _ _ => trivial

theorem each_tame {f : α → Code Unit} (items : List α)
    (step : ∀ a ∈ items, ∀ seen, (f a).Follows (Tame h) Anything seen) :
    (Prog.each f items).Follows (Tame h) Anything seen := by
  refine follows_anything _ (follows_each (fun rest _ => ∀ a ∈ rest, a ∈ items) f items ?_ fun a inside => inside)
  intro a rest seen all
  refine follows_weaken _ (step a (all a List.mem_cons_self) seen) ?_
  exact fun _ _ _ b inside => all b (List.mem_cons_of_mem _ inside)

-- The outbox.
theorem isOrphaned_tame (ns : Bytes) :
    (isOrphaned ns).Follows (Tame h) (fun after gone => gone = false → pass after = some ns) seen :=
  follows_last ⟨rfl,trivial⟩ fun r open_ => by
    subst open_
    rfl

-- What does not fit its schema ends a callback, a role map's report apart.
def Ended (cfg : Cfg) (h : Handler) (after : Seen) : Except Bytes α → Prop
  | .error _ => holding cfg h after = []
  | .ok _ => True

def Built (cfg : Cfg) (h : Handler) (ns : Bytes) (event : EventBody) (seen after : Seen) :
    Except Bytes (Option EventPayload) → Prop
  | .error _ => event.isRoleMap = false → holding cfg h after = []
  | .ok none => True
  | .ok (some p) => p.ns = ns ∧ (pass seen = some ns → pass after = some ns)

theorem pass_getNamespace (ns : Bytes) (n : Option NamespaceRecord) (passed : pass seen = some ns) :
    pass (⟨.getNamespace ns,n⟩ :: seen) = some ns := by
  simp only [pass] at passed
  simp only [pass,gather_cons,passNote,passed]
  cases n.any (·.isOrphaned) <;> rfl

theorem eventOutboxPayload_tame (cfg : Cfg) (ns : Bytes) (event : EventBody)
    (drift : List (Option Governance.Resource)) :
    (eventOutboxPayload ns event drift).Follows (Tame h) (Built cfg h ns event seen) seen := by
  refine follows_request ⟨rfl,trivial⟩ fun n => ?_
  split
  · exact follows_done trivial
  · refine follows_request ⟨rfl,trivial⟩ fun fits => ?_
    cases fits with
    | false =>
      refine follows_done fun plain => ?_
      simp [holding,holdingNote,plain]
    | true =>
      refine follows_request ⟨rfl,trivial⟩ fun ext => follows_done ⟨rfl,fun passed => ?_⟩
      exact pass_getNamespace ns n passed

theorem roleMapEvent_tame (n : NamespaceRecord) :
    (roleMapEvent n).Follows (Tame h)
      (fun after event => event.isSome → n.state = .bound ∧ pass after = pass seen) seen := by
  unfold roleMapEvent
  split
  · rename_i bound
    refine follows_request ⟨rfl,trivial⟩ fun report => follows_done ?_
    cases report with
    | none => exact fun some => nomatch some
    | some report => exact fun _ => ⟨bound.1,rfl⟩
  · exact follows_done fun some => nomatch some

theorem roleMapPayload_tame (ns : Bytes) :
    (roleMapPayload ns).Follows (Tame h) (fun after a => ∀ p, a = some p → p.ns = ns ∧ pass after = some ns) seen := by
  refine follows_request ⟨rfl,trivial⟩ fun n => ?_
  cases n with
  | none => exact follows_done fun p none => nomatch none
  | some n =>
    refine follows_bind _ _ (roleMapEvent_tame n) fun after event mapped => ?_
    cases event with
    | none => exact follows_done fun p none => nomatch none
    | some event =>
      obtain ⟨bound,same⟩ := mapped rfl
      have passed : pass after = some ns := by
        rw [same]
        simp [pass,passNote,NamespaceRecord.isOrphaned,bound]
      refine follows_bind _ _ (eventOutboxPayload_tame {} ns event []) fun later a built => follows_done ?_
      intro p found
      cases a with
      | error e => cases found
      | ok payload =>
        cases payload with
        | none => cases found
        | some payload =>
          cases found
          exact ⟨built.1,built.2 passed⟩

theorem refreshRoleMapEntry_tame (ns : Bytes) : (refreshRoleMapEntry ns).Follows (Tame h) Anything seen := by
  refine follows_bind _ _ (roleMapPayload_tame ns) fun after fresh own => ?_
  cases fresh with
  | none => exact follows_request ⟨rfl,.roleMap ns⟩ fun _ => follows_done trivial
  | some p =>
    obtain ⟨mine,passed⟩ := own p rfl
    subst mine
    exact follows_request ⟨rfl,rfl,passed⟩ fun _ => follows_done trivial

theorem sendContent_tame (key : OutboxKey) (content : Content)
    (entry : ∃ key e, Heard seen (.getEntry key) (some e) ∧ e.content = content)
    (passed : ∀ p, content = .event p → pass seen = some p.ns) :
    (sendContent key content).Follows (Tame h) Anything seen := by
  refine follows_request ⟨rfl,trivial⟩ fun flushed => ?_
  cases flushed with
  | false => exact follows_done trivial
  | true =>
    refine follows_request ⟨rfl,trivial⟩ fun signed => ?_
    cases signed with
    | none => exact follows_done trivial
    | some docId =>
      refine follows_request ⟨rfl,trivial⟩ fun at_ => follows_request ⟨rfl,trivial⟩ fun _ => ?_
      refine follows_last ⟨rfl,?_,passed⟩ fun _ => trivial
      obtain ⟨key,e,heard,same⟩ := entry
      exact ⟨key,e,heard_before (heard_before (heard_before (heard_before heard))),same⟩

theorem sendEntry_tame (key : OutboxKey) : (sendEntry key).Follows (Tame h) Anything seen := by
  refine follows_request ⟨rfl,trivial⟩ fun entry => ?_
  cases entry with
  | none => exact follows_done trivial
  | some e =>
    have heard : Heard (⟨.getEntry key,some e⟩ :: seen) (.getEntry key) (some e) := heard_now
    cases content : e.content with
    | result p =>
      simp only [content]
      exact sendContent_tame key _ ⟨key,e,heard,content⟩ fun p other => nomatch other
    | event p =>
      simp only [content]
      refine follows_bind _ _ (follows_suffix _ (isOrphaned_tame p.ns)) fun after gone passed => ?_
      have later := heard_later passed.2 heard
      cases gone with
      | true => exact follows_request ⟨rfl,.orphaned key e p later content⟩ fun _ => follows_done trivial
      | false =>
        refine sendContent_tame key _ ⟨key,e,later,content⟩ fun other same => ?_
        cases same
        exact passed.1 rfl

theorem sendOutbox_tame (key : OutboxKey) : (sendOutbox key).Follows (Tame h) Anything seen := by
  cases key with
  | result id => exact sendEntry_tame _
  | event id => exact sendEntry_tame _
  | roleMap ns =>
    refine follows_bind _ _ (refreshRoleMapEntry_tame ns) fun after fresh _ => ?_
    cases fresh with
    | false => exact follows_done trivial
    | true => exact sendEntry_tame _

theorem eventKey_tame (key : Option OutboxKey) (ns : Bytes) (own : ∀ k, key = some k → k = .roleMap ns) :
    (eventKey key).Follows (Tame h)
      (fun after k => (k = .roleMap ns ∨ ∃ id, k = .event id) ∧ pass after = pass seen) seen := by
  cases key with
  | none => exact follows_request ⟨rfl,trivial⟩ fun id => follows_done ⟨.inr ⟨id,rfl⟩,rfl⟩
  | some k => exact follows_done ⟨.inl (own k rfl),rfl⟩

theorem sendEventKeyed_tame (cfg : Cfg) (ns : Bytes) (event : EventBody) (drift : List (Option Governance.Resource))
    (key : Option OutboxKey) (own : ∀ k, key = some k → k = .roleMap ns) :
    (sendEventKeyed ns event drift key).Follows (Tame h)
      (fun after sent => event.isRoleMap = false → Ended cfg h after sent) seen := by
  refine follows_bind _ _ (isOrphaned_tame ns) fun after gone passed => ?_
  cases gone with
  | true => exact follows_done fun _ => trivial
  | false =>
    have open_ := passed rfl
    refine follows_bind _ _ (eventOutboxPayload_tame cfg ns event drift) fun later a built => ?_
    cases a with
    | error e => exact follows_done built
    | ok payload =>
      cases payload with
      | none => exact follows_done fun _ => trivial
      | some p =>
        obtain ⟨mine,kept⟩ := built
        refine follows_bind _ _ (eventKey_tame key ns own) fun last k chosen => ?_
        obtain ⟨kind,still⟩ := chosen
        refine follows_request ⟨rfl,?_,p,rfl,?_⟩ fun _ => ?_
        · cases kind with
          | inl roleMap =>
            subst roleMap
            exact mine
          | inr fresh =>
            obtain ⟨id,rfl⟩ := fresh
            trivial
        · rw [still,kept open_,mine]
        · exact follows_bind _ _ (sendOutbox_tame k) fun _ _ _ => follows_done fun _ => trivial

theorem sendEvent_tame (cfg : Cfg) (ns : Bytes) (event : EventBody) (drift : List (Option Governance.Resource))
    (plain : event.isRoleMap = false) : (sendEvent ns event drift).Follows (Tame h) (Ended cfg h) seen :=
  follows_weaken _ (sendEventKeyed_tame cfg ns event drift none fun _ none => nomatch none) fun _ _ ended => ended plain

theorem reportRoleMap_tame (ns : Bytes) : (reportRoleMap ns).Follows (Tame h) Anything seen := by
  refine follows_request ⟨rfl,trivial⟩ fun n => ?_
  cases n with
  | none => exact follows_done trivial
  | some n =>
    refine follows_bind _ _ (roleMapEvent_tame n) fun after event _ => ?_
    cases event with
    | none => exact follows_done trivial
    | some event =>
      refine follows_bind _ _ (sendEventKeyed_tame {} ns event [] _ ?_) fun _ _ _ => follows_done trivial
      intro k same
      cases same
      rfl

theorem reportRoleMaps_tame : reportRoleMaps.Follows (Tame h) Anything seen := by
  refine follows_request ⟨rfl,trivial⟩ fun all => each_tame all fun n _ later => ?_
  split
  · exact reportRoleMap_tame _
  · exact follows_done trivial

theorem resendMatching_tame (all : Bool) (pick : OutboxKey → Bool) :
    (resendMatching cfg all pick).Follows (Tame h) Anything seen := by
  refine follows_request ⟨rfl,trivial⟩ fun entries => follows_request ⟨rfl,trivial⟩ fun now => ?_
  refine each_tame entries fun e _ later => ?_
  split
  · exact sendOutbox_tame _
  · exact follows_done trivial

theorem linkUp_tame : (linkUp cfg).Follows (Tame h) Anything seen :=
  follows_bind _ _ (resendMatching_tame true _) fun _ _ _ => reportRoleMaps_tame

theorem statusOf_tame (job : Option JobRecord) : (statusOf job).Follows (Tame h) Anything seen := by
  cases job with
  | none => exact follows_done trivial
  | some j => exact follows_last ⟨rfl,trivial⟩ fun _ => trivial

theorem finishJob_tame (jobId : Bytes) (report : Governance.Report) :
    (finishJob jobId report).Follows (Tame h) Anything seen := by
  refine follows_request ⟨rfl,trivial⟩ fun fits => follows_request ⟨rfl,trivial⟩ fun job => ?_
  refine follows_bind _ _ (statusOf_tame job) fun after ext _ => follows_request ⟨rfl,trivial⟩ fun at_ => ?_
  refine follows_request ⟨rfl,rfl⟩ fun closed => ?_
  cases closed with
  | false => exact follows_done trivial
  | true => exact sendOutbox_tame (.result jobId)

theorem finishJob_lets_go (cfg : Cfg) (jobId : Bytes) (report : Governance.Report) :
    (finishJob jobId report).Follows (Backed h)
      (fun after _ => Quiet cfg h seen after ∧ jobId ∉ holding cfg h after) seen := by
  refine follows_request trivial fun fits => follows_request trivial fun job => ?_
  refine tame_bind cfg _ _ (statusOf_tame job) fun after ext _ quiet => follows_request trivial fun at_ => ?_
  refine follows_request rfl fun closed => ?_
  have start : Quiet cfg h seen (⟨.getJob jobId,job⟩ :: ⟨.checkResult jobId report,fits⟩ :: seen) :=
    quiet_trans (quiet_plain rfl fits) (quiet_plain rfl job)
  have told : Quiet cfg h seen (⟨.finishJob jobId _ at_,closed⟩ :: ⟨.now,at_⟩ :: after) :=
    quiet_trans start (quiet_trans quiet (quiet_trans (quiet_plain rfl at_) (quiet_plain rfl closed)))
  have gone : jobId ∉ holding cfg h (⟨.finishJob jobId _ at_,closed⟩ :: ⟨.now,at_⟩ :: after) := by
    simp [holding,holdingNote]
  cases closed with
  | false => exact follows_done ⟨told,gone⟩
  | true =>
    refine follows_weaken _ (tame_quiet cfg _ (sendOutbox_tame (.result jobId))) fun last _ both => ?_
    exact ⟨quiet_trans told both.2,fun inside => gone (both.2.holding inside)⟩

end VerifiableGit.Service
