import VerifiableGit.Bridge.Pending

-- A pass, step by step: what each part of it leaves true of the item it writes.
namespace VerifiableGit.Bridge
open VerifiableGit.Text VerifiableGit.Library.Interaction Mirror

section
variable {seal_ : MasterKey} {size : Value → Nat} {d : Dirty} {rest : List Dirty} {clean : Prop}

-- The item is written: what the remote shows of it was held since its last mark.
def Written (seal_ : MasterKey) (size : Value → Nat) (d : Dirty) (rest : List Dirty) (clean ok : Prop)
    (s : Watched) : Prop :=
  Between seal_ size (d :: rest) clean s ∧ (ok → Landed seal_ size d s)

theorem written_firm (ok : Prop) : Firm seal_ size (Written seal_ size d rest clean ok) := by
  refine firm_and (between_firm (d :: rest) clean) ?_ ?_
  · exact fun s t act landed yes => landed_stable act (landed yes)
  · exact fun s t alike landed yes => landed_alike alike (landed yes)

theorem hadFresh_firm (x : Option Content) : Firm seal_ size fun s =>
    Between seal_ size (d :: rest) clean s ∧ HadFresh seal_ size d x s :=
  firm_and (between_firm (d :: rest) clean) (hadFresh_stable x) fun _ _ alike had =>
    hadFresh_alike alike had

theorem written_done {ok : Prop} {post : α → Watched → Prop} {a : α}
    (last : ∀ t, Written seal_ size d rest clean ok t → post a t)
    (here : Written seal_ size d rest clean ok s) :
    (watching seal_ size).Holds post (.done a) s :=
  holds_done (written_firm ok).stable (written_firm ok).pending last here

theorem unwritten (here : Between seal_ size (d :: rest) clean s) :
    Written seal_ size d rest clean False s := ⟨here,fun impossible => impossible.elim⟩

theorem settle_written (key : Bytes) (answer : Except PutError (Option Nat)) (lease : Lease)
    (here : Written seal_ size d rest clean (∃ o, answer = .ok o) s) :
    (watching seal_ size).Holds (fun res => Written seal_ size d rest clean (res.1 = .ok ()))
      (settle key answer lease) s := by
  match answer with
  | .ok (some version) =>
    simp only [settle,access_bind,pure_done]
    refine quiet_call (written_firm _) trivial (fun _ _ _ _ kept _ _ => ?_) here
    refine quiet_call (written_firm _) trivial (fun _ _ _ _ kept _ _ => ?_) kept
    exact written_done (fun t there => ⟨there.1,fun _ => there.2 ⟨_,rfl⟩⟩) kept
  | .ok none =>
    simp only [settle,access_bind,pure_done]
    refine quiet_call (written_firm _) trivial (fun _ _ _ _ kept _ _ => ?_) here
    refine quiet_call (written_firm _) trivial (fun _ _ _ _ kept _ _ => ?_) kept
    exact written_done (fun t there => ⟨there.1,fun _ => there.2 ⟨_,rfl⟩⟩) kept
  | .error (.conflict _) =>
    simp only [settle,access_bind,pure_done]
    refine quiet_call (written_firm _) trivial (fun _ _ _ _ kept _ _ => ?_) here
    exact written_done (fun t there => ⟨there.1,nofun⟩) kept
  | .error (.other e) =>
    exact written_done (fun t there => ⟨there.1,nofun⟩) here

theorem putSealed_written (name bytes : Bytes) (attempts expected : Nat) (lease : Lease)
    (here : Between seal_ size (.secret name :: rest) clean s ∧
      HadFresh seal_ size (.secret name) (some (.bytes bytes)) s) :
    (watching seal_ size).Holds
      (fun res => Written seal_ size (.secret name) rest clean (∃ v, res.1 = .ok v))
      (putSealedLoop seal_ name bytes attempts expected lease) s := by
  have firm : Firm seal_ size fun s => Between seal_ size (.secret name :: rest) clean s ∧
      HadFresh seal_ size (.secret name) (some (.bytes bytes)) s := hadFresh_firm _
  induction attempts generalizing expected lease s with
  | zero =>
    exact holds_done firm.stable firm.pending
      (fun t there => ⟨there.1,fun done => nomatch done⟩) here
  | succ attempts ih =>
    rw [putSealedLoop]
    refine holds_bind _ _ (quiet_asks firm _ (renewIfDue_quiet lease) here) ?_
    rintro ⟨renewed,lease⟩ t kept
    cases renewed with
    | error e =>
      exact holds_done firm.stable firm.pending
        (fun t there => ⟨there.1,fun done => nomatch done⟩) kept
    | ok _ =>
      simp only [request_bind]
      refine quiet_call firm trivial (fun _ nonce t _ kept _ _ => ?_) kept
      cases nonce with
      | none =>
        exact holds_done firm.stable firm.pending
          (fun t there => ⟨there.1,fun done => nomatch done⟩) kept
      | some nonce =>
        refine holds_call firm.stable firm.pending (fun s r t before served => ⟨trivial,?_⟩) kept
        obtain ⟨wrote,shown⟩ := put_wrote seal_ (.secret name) served.1
        have kept := between_wrote wrote before.1
        have had := hadFresh_wrote wrote before.2
        cases r with
        | error e =>
          exact holds_done firm.stable firm.pending
            (fun t there => ⟨there.1,fun done => nomatch done⟩) ⟨kept,had⟩
        | ok v =>
          by_cases landed : v = lease.next
          · simp only [landed,if_true]
            refine written_done (fun t (there : Written seal_ size (.secret name) rest clean True t) =>
              ⟨there.1,fun _ => there.2 trivial⟩) ?_
            refine ⟨kept,fun _ => landed_shown had ?_⟩
            rw [shown v rfl,landed]
            exact congrArg some (content_sealed name bytes nonce lease.next)
          · simp only [landed,if_false]
            exact ih v (lease.observe v) ⟨kept,had⟩

-- What `currentValue` answers for a content: a secret's stand-in is its sealed
-- form at the largest version.
inductive Stands (seal_ : MasterKey) : Dirty → Option Value → Option Content → Prop
  | absent (d : Dirty) : Stands seal_ d none none
  | record (table : Table) (key : Bytes) (v : Value) :
      Stands seal_ (.record table key) (some v) (some (.json v))
  | secret (name bytes nonce : Bytes) : Stands seal_ (.secret name)
      (some (secretValue seal_ name u64Max bytes nonce)) (some (.bytes bytes))

def Reading (seal_ : MasterKey) (size : Value → Nat) (d : Dirty) (rest : List Dirty) (clean : Prop)
    (x : Option Value) (s : Watched) : Prop :=
  ∃ c, Stands seal_ d x c ∧ Between seal_ size (d :: rest) clean s ∧
    HadFresh seal_ size d c s

theorem reading_firm (x : Option Value) : Firm seal_ size (Reading seal_ size d rest clean x) := by
  refine ⟨?_,?_,fun s ⟨c,_,here⟩ => here.1.1⟩
  · rintro s t act ⟨c,stands,here⟩
    exact ⟨c,stands,(hadFresh_firm c).stable act here⟩
  · rintro s t alike ⟨c,stands,here⟩
    exact ⟨c,stands,(hadFresh_firm c).alike s t alike here⟩

def HasRead (seal_ : MasterKey) (size : Value → Nat) (d : Dirty) (rest : List Dirty) (clean : Prop)
    (res : Except Fault (Option Value)) (t : Watched) : Prop :=
  Between seal_ size (d :: rest) clean t ∧
    ∀ x, res = .ok x → Reading seal_ size d rest clean x t

theorem current_fresh (valid : Pending seal_ size s) (same : localValue s.host d = c) :
    HadFresh seal_ size d c s := fun values found _ => .inr (same ▸ valid.current d values found)

theorem currentValue_reads (here : Between seal_ size (d :: rest) clean s) :
    (watching seal_ size).Holds (HasRead seal_ size d rest clean) (currentValue seal_ d) s := by
  have done {x : Option Value} {s : Watched} (reading : Reading seal_ size d rest clean x s) :
      (watching seal_ size).Holds (HasRead seal_ size d rest clean) (.done (.ok x)) s := by
    refine holds_done (reading_firm x).stable (reading_firm x).pending (fun t there => ?_) reading
    refine ⟨there.choose_spec.2.1,fun y same => ?_⟩
    cases same
    exact there
  cases d with
  | record table key =>
    simp only [currentValue,access_bind,pure_done]
    refine quiet_call (between_firm _ _) trivial (fun s r t before after served _ => done ?_) here
    have read : r = s.host.getRaw table key := served.world.1.1
    have had : HadFresh seal_ size (.record table key) (r.map .json) s :=
      current_fresh before.1 (congrArg (Option.map Content.json) read.symm)
    have had := hadFresh_alike (quiet_alike seal_ _ r trivial served) had
    cases r with
    | none => exact ⟨none,.absent _,after,had⟩
    | some v => exact ⟨some (.json v),.record table key v,after,had⟩
  | secret name =>
    simp only [currentValue,access_bind,request_bind,pure_done]
    refine quiet_call (between_firm _ _) trivial (fun s r t before after served _ => ?_) here
    have read : r = s.host.secrets.lookup name := served.world.1.1
    have had : HadFresh seal_ size (.secret name) (r.map .bytes) s :=
      current_fresh before.1 (congrArg (Option.map Content.bytes) read.symm)
    have had := hadFresh_alike (quiet_alike seal_ _ r trivial served) had
    cases r with
    | none => exact done ⟨none,.absent _,after,had⟩
    | some bytes =>
      refine quiet_call (hadFresh_firm (some (.bytes bytes))) trivial
        (fun _ nonce t _ kept _ _ => ?_) ⟨after,had⟩
      cases nonce with
      | none =>
        exact holds_done (between_firm _ _).stable (between_firm _ _).pending
          (fun u there => ⟨there,fun x same => nomatch same⟩) kept.1
      | some nonce => exact done ⟨_,.secret name bytes nonce,kept.1,kept.2⟩

theorem oversize_landed {x : Option Value} (reading : Reading seal_ size d rest clean x s)
    (large : oversize size x = true) : Landed seal_ size d s := by
  obtain ⟨c,stands,_,had⟩ := reading
  intro values found fit
  rcases had values found fit with again | inside
  · exact .inl again
  · cases stands with
    | absent => exact nomatch large
    | record table key v =>
      have small : size v ≤ maxValueBytes := fit _ inside
      simp only [oversize,Option.any_some,decide_eq_true_eq] at large
      omega
    | secret name bytes nonce =>
      have small := fit _ inside nonce
      simp only [oversize,Option.any_some,decide_eq_true_eq] at large
      omega

theorem send_written (x : Option Value) (seen : Option Nat) (lease : Lease)
    (here : Reading seal_ size d rest clean x s) :
    (watching seal_ size).Holds (fun res => Written seal_ size d rest clean (res.1 = .ok ()))
      (send seal_ d x seen lease) s := by
  obtain ⟨c,stands,here⟩ := here
  have firm : Firm seal_ size fun s => Between seal_ size (d :: rest) clean s ∧ HadFresh seal_ size d c s :=
    hadFresh_firm c
  cases stands with
  | absent =>
    obtain ⟨after,code,removed,gone,failed⟩ := send_absent seal_ d seen lease
    rw [code]
    refine holds_call firm.stable firm.pending (fun s r t before served => ⟨trivial,?_⟩) here
    obtain ⟨wrote,shown⟩ := delete_wrote seal_ d served.1
    have kept := between_wrote wrote before.1
    have had := hadFresh_wrote wrote before.2
    cases r with
    | ok removed_ =>
      cases removed_ with
      | some tombstone =>
        rw [removed]
        exact settle_written _ _ _ ⟨kept,fun _ => landed_shown had (shown _ rfl)⟩
      | none =>
        rw [gone]
        exact settle_written _ _ _ ⟨kept,fun _ => landed_shown had (shown _ rfl)⟩
    | error e =>
      rw [failed]
      refine settle_written _ _ _ ⟨kept,?_⟩
      rintro ⟨o,answer⟩
      cases answer
  | record table key v =>
    simp only [send,request_bind]
    refine holds_call firm.stable firm.pending (fun s r t before served => ⟨trivial,?_⟩) here
    obtain ⟨wrote,shown⟩ := put_wrote seal_ (.record table key) served.1
    refine settle_written _ _ _ ⟨between_wrote wrote before.1,?_⟩
    rintro ⟨o,answer⟩
    cases r with
    | error e => cases answer
    | ok n => exact landed_shown (hadFresh_wrote wrote before.2) (shown n rfl)
  | secret name bytes nonce =>
    simp only [send,access_bind]
    refine quiet_call firm trivial (fun s r t before after served found => ?_) here
    have read : r = s.host.secrets.lookup name := served.world.1.1
    cases r with
    | none => exact absurd rfl found
    | some bytes =>
      have had : HadFresh seal_ size (.secret name) (some (.bytes bytes)) s :=
        current_fresh before.1.1 (congrArg (Option.map Content.bytes) read.symm)
      have had := hadFresh_alike
        (quiet_alike seal_ (.host (.secret true name)) (some bytes) trivial served) had
      refine holds_bind _ _ (putSealed_written name bytes _ _ lease ⟨after.1,had⟩) ?_
      rintro ⟨answer,lease⟩ u kept
      refine settle_written _ _ _ ⟨kept.1,?_⟩
      rintro ⟨o,same⟩
      cases answer with
      | error e => cases same
      | ok v => exact kept.2 ⟨v,rfl⟩

theorem write_written (lease : Lease)
    (here : Between seal_ size (d :: rest) clean s) :
    (watching seal_ size).Holds (fun res => Written seal_ size d rest clean (res.1 = .ok ()))
      (write seal_ size d lease) s := by
  rw [write]
  refine holds_bind _ _ (currentValue_reads here) fun value t read => ?_
  cases value with
  | error e => exact written_done (fun u there => ⟨there.1,nofun⟩) (unwritten read.1)
  | ok x =>
    have reading := read.2 x rfl
    dsimp only
    split
    · rename_i large
      refine written_done (fun u (there : Written seal_ size d rest clean True u) =>
        ⟨there.1,fun _ => there.2 trivial⟩) ?_
      exact ⟨read.1,fun _ => oversize_landed reading large⟩
    · simp only [access_bind]
      refine quiet_call (reading_firm x) trivial (fun s r t _ kept _ _ => ?_) reading
      exact send_written x r lease kept

theorem between_weaken {clean other : Prop} (weaker : other → clean)
    (here : Between seal_ size rest clean s) :
    Between seal_ size rest other s :=
  ⟨here.1,here.2.1,fun yes => here.2.2 (weaker yes)⟩

theorem writeItem_written (failed : Option Fault) (lease : Lease)
    (here : Between seal_ size (d :: rest) (failed = none) s) :
    (watching seal_ size).Holds (fun res => Written seal_ size d rest (res.1 = none) (res.1 = none))
      (writeItem seal_ size d failed lease) s := by
  have fails {e : Fault} {lease : Lease} {s : Watched}
      (here : Between seal_ size (d :: rest) (failed = none) s) :
      (watching seal_ size).Holds (fun res => Written seal_ size d rest (res.1 = none) (res.1 = none))
        (.done (some e,lease)) s :=
    written_done (fun u (there : Written seal_ size d rest False False u) =>
        ⟨between_weaken (fun impossible => nomatch impossible) there.1,nofun⟩)
      (unwritten (between_weaken False.elim here))
  cases failed with
  | some e => exact fails here
  | none =>
    simp only [writeItem,pure_done]
    refine holds_bind _ _ (quiet_asks (between_firm _ _) _ (renewIfDue_quiet lease) here) ?_
    rintro ⟨renewed,lease⟩ t kept
    cases renewed with
    | error e => exact fails kept
    | ok _ =>
      refine holds_bind _ _ (write_written lease kept) ?_
      rintro ⟨res,lease⟩ u written
      cases res with
      | error e => exact fails written.1
      | ok _ =>
        refine written_done (fun v (there : Written seal_ size d rest True True v) => ?_)
          ⟨between_weaken (fun _ => rfl) written.1,fun _ => written.2 rfl⟩
        exact ⟨between_weaken (fun _ => trivial) there.1,fun _ => there.2 trivial⟩

-- Written, or pending again.
theorem putBack_landed (failed : Option Fault)
    (here : Written seal_ size d rest (failed = none) (failed = none) s) :
    (watching seal_ size).Holds (fun _ => Written seal_ size d rest (failed = none) True)
      (putBack d failed) s := by
  cases failed with
  | none => exact written_done (fun t there => ⟨there.1,fun _ => there.2 rfl⟩) here
  | some e =>
    have firm : Firm seal_ size (Written seal_ size d rest (some e = none) True) := written_firm True
    refine holds_call (between_firm (d :: rest) (some e = none)).stable (fun s before => before.1)
      (fun s r t before served => ⟨trivial,?_⟩) here.1
    refine holds_done firm.stable firm.pending (fun u there => there) ?_
    obtain ⟨world,fresh,again,taken,_⟩ := served.1
    obtain ⟨host,remote,_⟩ := world
    have host : t.host = s.host.mark d := host
    have dirty {e : Dirty} : e ∈ t.host.dirty ↔ e = d ∨ e ∈ s.host.dirty := by
      rw [host]
      exact Finset.mem_insert
    have taken : t.taken = d :: rest := taken.trans before.2.1
    refine ⟨⟨⟨?_,?_,?_,?_⟩,taken,fun impossible => nomatch impossible⟩,?_⟩
    · rw [host,taken,← before.2.1]
      exact before.1.counted
    · intro e
      rw [taken,← before.2.1]
      refine (before.1.kept e).imp_right fun landed values found fit => ?_
      rw [fresh] at found
      rw [show t.remote = s.remote from remote,dirty]
      exact (landed values found fit).imp_left .inr
    · intro e values found
      rw [fresh] at found
      rw [host]
      exact before.1.current e values found
    · intro e inside
      rw [again] at inside
      exact dirty.mpr (.inr (before.1.again inside))
    · exact fun _ values _ _ => .inl (dirty.mpr (.inl rfl))

theorem landed_between (here : Written seal_ size d rest clean True s)
    (served : s.Serves (.host .landed) r t) :
    Between seal_ size rest clean t := by
  obtain ⟨world,fresh,again,taken,_⟩ := served
  obtain ⟨host,remote,_⟩ := world
  have host : t.host = { s.host with inFlight := s.host.inFlight - 1 } := host
  have taken : t.taken = rest := taken.trans (congrArg List.tail here.1.2.1)
  have again : t.again = s.again := again
  obtain ⟨⟨valid,before,still⟩,landed⟩ := here
  have dirty : t.host.dirty = s.host.dirty := by rw [host]
  have keeps {e : Dirty} (landed : Landed seal_ size e s) : Landed seal_ size e t := by
    intro values found fit
    rw [fresh] at found
    rw [show t.remote = s.remote from remote,dirty]
    exact landed values found fit
  refine ⟨⟨?_,?_,?_,?_⟩,taken,?_⟩
  · rw [taken,host]
    have counted := valid.counted
    rw [before,List.length_cons] at counted
    exact Nat.sub_eq_of_eq_add counted
  · intro e
    rw [taken]
    rcases valid.kept e with inside | landed
    · rw [before] at inside
      rcases List.mem_cons.mp inside with here | later
      · exact .inr (here ▸ keeps (landed trivial))
      · exact .inl later
    · exact .inr (keeps landed)
  · intro e values found
    rw [fresh] at found
    rw [host]
    exact valid.current e values found
  · rw [again,dirty]
    exact valid.again
  · rw [again,dirty]
    exact still

theorem passItems_between (items : List Dirty) (failed : Option Fault) (lease : Lease)
    (here : Between seal_ size items (failed = none) s) :
    (watching seal_ size).Holds
      (fun res => Between seal_ size [] (res.1 = none))
      (passItems seal_ size items failed lease) s := by
  induction items generalizing failed lease s with
  | nil => exact holds_done (between_firm _ _).stable (between_firm _ _).pending (fun t there => there) here
  | cons item rest ih =>
    rw [passItems]
    refine holds_bind _ _ (writeItem_written failed lease here) ?_
    rintro ⟨failed,lease⟩ t written
    refine holds_bind _ _ (putBack_landed failed written) fun _ u landed => ?_
    simp only [access_bind]
    have firm : Firm seal_ size (Written seal_ size item rest (failed = none) True) := written_firm True
    refine holds_call firm.stable firm.pending (fun s r t before served => ⟨trivial,?_⟩) landed
    exact ih failed lease (landed_between before served.1)

theorem takeBatch_between {batch : List Dirty}
    (here : Between seal_ size [] False s)
    (served : s.Serves (.host .takeBatch) batch t) :
    Between seal_ size batch ((none : Option Fault) = none) t := by
  obtain ⟨world,fresh,again,taken,_⟩ := served
  obtain ⟨⟨_,all,host⟩,remote,_⟩ := world
  have host : t.host = { s.host with dirty := ∅, inFlight := s.host.inFlight + batch.length } := host
  have taken : t.taken = batch := taken
  have again : t.again = ∅ := again
  have counted := here.1.counted
  rw [here.2.1,List.length_nil] at counted
  refine ⟨⟨?_,?_,?_,?_⟩,taken,?_⟩
  · rw [host,taken]
    show s.host.inFlight + batch.length = batch.length
    rw [counted,Nat.zero_add]
  · intro e
    rw [taken]
    by_cases inside : e ∈ batch
    · exact .inl inside
    · refine .inr fun values found fit => .inr ?_
      rw [fresh] at found
      rcases here.1.kept e with impossible | landed
      · rw [here.2.1] at impossible
        exact nomatch impossible
      · rcases landed values found fit with dirty | shown
        · exact absurd (List.mem_toFinset.mp (all ▸ dirty)) inside
        · rw [show t.remote = s.remote from remote]
          exact shown
  · intro e values found
    rw [fresh] at found
    rw [host]
    exact here.1.current e values found
  · rw [again]
    exact Finset.empty_subset _
  · rw [host]
    exact fun _ => Finset.empty_subset _

-- What a pass leaves: nothing in flight, and after a pass that worked nothing
-- pending but what was marked since its batch was taken.
def Passed (seal_ : MasterKey) (size : Value → Nat) (res : Except Fault Unit) (s : Watched) : Prop :=
  Between seal_ size [] (res = .ok ()) s

theorem passed_done {res : Except Fault Unit}
    (here : Between seal_ size [] (res = .ok ()) s) :
    (watching seal_ size).Holds (Passed seal_ size) (.done res) s :=
  holds_done (between_firm _ _).stable (between_firm _ _).pending (fun _ there => there) here

theorem syncPass_passed (holder : Bytes) (fuel : Nat)
    (here : Between seal_ size [] False s) :
    (watching seal_ size).Holds (Passed seal_ size) (syncPass seal_ size holder fuel) s := by
  have fails {e : Fault} {s : Watched} (here : Between seal_ size [] False s) :
      (watching seal_ size).Holds (Passed seal_ size) (.done (.error e)) s :=
    passed_done (between_weaken (fun impossible => nomatch impossible) here)
  simp only [syncPass,access_bind,pure_done]
  refine quiet_call (between_firm _ _) trivial (fun s idle t before after served _ => ?_) here
  obtain ⟨answer,host⟩ := served.world.1
  cases idle with
  | true =>
    have empty : s.host.dirty = ∅ := of_decide_eq_true answer.symm
    simp only [if_true]
    refine passed_done ⟨after.1,after.2.1,fun _ => ?_⟩
    rw [show t.host = s.host from host,empty]
    exact Finset.empty_subset _
  | false =>
    simp only [Bool.false_eq_true,if_false]
    refine holds_bind _ _ (quiet_asks (between_firm _ _) _
      (asks_weaken ofLease_quiet _ (Lease.acquire_asks fuel holder 10000)) after) ?_
    intro acquired u kept
    cases acquired with
    | error e => exact fails kept
    | ok lease =>
      refine holds_call (between_firm _ _).stable (fun s before => before.1)
        (fun s batch t before served => ⟨trivial,?_⟩) kept
      refine holds_bind _ _ (passItems_between batch none lease (takeBatch_between before served.1)) ?_
      rintro ⟨failed,lease⟩ v between
      refine holds_bind _ _ (quiet_asks (between_firm _ _) _
        (asks_weaken ofLease_quiet _ lease.release_asks) between) fun _ z between => ?_
      cases failed with
      | some e => exact fails (between_weaken False.elim between)
      | none => exact passed_done (between_weaken (fun _ => rfl) between)

end

end VerifiableGit.Bridge
