import VerifiableGit.Bridge.Replies

-- Each step of an exchange, of a document and of the map keeps what isolates
-- the queries from each other.
namespace VerifiableGit.Replies
open Text
open Did (Value)
open Library (Table)

section
variable {cfg : Config} {w : World}

structure Inv (cfg : Config) (w : World) : Prop where
  table : ∀ id via i, w.pending.lookup id = some (via,i) ↔ ∃ e, Unanswered w i e ∧ e.id = id ∧ e.via = via
  distinct : ∀ i j e f, w.exchange i = some e → w.exchange j = some f → e.live = true → f.live = true → e.id = f.id → i = j
  given : ∀ k inbound handling i, w.inbound k = some (inbound,handling) → handling = .holding i ∨ handling = .taken i →
    ∃ e, w.exchange i = some e ∧ Answers cfg inbound e
  cell : ∀ i k doc, w.channel i = .sent k doc → ∃ inbound, w.inbound k = some (inbound,.taken i) ∧ inbound.doc = doc
  result : ∀ i e doc, w.exchange i = some e → e.result = some (.ok doc) → ∃ k, w.channel i = .sent k doc

theorem put_exchange (w : World) (i j : Nat) (e : Exchange) :
    (w.put i e).exchange j = if j = i then some e else w.exchange j := Function.update_apply w.exchange i (some e) j

theorem put_same (w : World) (i : Nat) (e : Exchange) : (w.put i e).exchange i = some e := by
  rw [put_exchange,if_pos rfl]

theorem put_other (w : World) {i j : Nat} (e : Exchange) (other : j ≠ i) : (w.put i e).exchange j = w.exchange j := by
  rw [put_exchange,if_neg other]

-- A closed channel was empty.
theorem close_cases (w : World) (old : Option Waiter) : w.close old = w ∨
    ∃ j, w.channel j = .empty ∧ w.close old = { w with channel := Function.update w.channel j .closed } := by
  cases old with
  | none => exact .inl rfl
  | some waiter =>
    obtain ⟨via,j⟩ := waiter
    unfold World.close
    dsimp only
    split
    · rename_i empty
      exact .inr ⟨j,empty,rfl⟩
    · exact .inl rfl

theorem close_exchange (w : World) (old : Option Waiter) : (w.close old).exchange = w.exchange := by
  rcases close_cases w old with same | ⟨j,_,closed⟩
  · rw [same]
  · rw [closed]

theorem close_inbound (w : World) (old : Option Waiter) : (w.close old).inbound = w.inbound := by
  rcases close_cases w old with same | ⟨j,_,closed⟩
  · rw [same]
  · rw [closed]

theorem close_sent (w : World) (old : Option Waiter) (i k : Nat) (doc : Value) :
    (w.close old).channel i = .sent k doc ↔ w.channel i = .sent k doc := by
  rcases close_cases w old with same | ⟨j,empty,closed⟩
  · rw [same]
  · rw [closed]
    dsimp only
    rw [Function.update_apply]
    by_cases here : i = j
    · subst here
      simp [empty]
    · rw [if_neg here]

theorem answers_phase (inbound : InboundDoc) (e : Exchange) (phase : Phase) :
    Answers cfg inbound e ↔ Answers cfg inbound { e with phase := phase } :=
  ⟨fun answers => ⟨answers.sender,answers.via,answers.thread⟩,fun answers => ⟨answers.sender,answers.via,answers.thread⟩⟩

-- What is done to the map and the exchanges under an id: nothing else changes
-- but channels that close.
theorem inv_rest {next : World} (inv : Inv cfg w) (inbound : next.inbound = w.inbound)
    (channel : ∀ i k doc, next.channel i = .sent k doc ↔ w.channel i = .sent k doc)
    (table : ∀ id via i, next.pending.lookup id = some (via,i) ↔ ∃ e, Unanswered next i e ∧ e.id = id ∧ e.via = via)
    (distinct : ∀ i j e f, next.exchange i = some e → next.exchange j = some f → e.live = true → f.live = true →
      e.id = f.id → i = j)
    (kept : ∀ i e, w.exchange i = some e → ∃ phase, next.exchange i = some { e with phase := phase })
    (result : ∀ i e doc, next.exchange i = some e → e.result = some (.ok doc) → ∃ k, w.channel i = .sent k doc) :
    Inv cfg next where
  table := table
  distinct := distinct
  given k doc handling i found mine := by
    rw [inbound] at found
    obtain ⟨e,there,answers⟩ := inv.given k doc handling i found mine
    obtain ⟨phase,still⟩ := kept i e there
    exact ⟨_,still,(answers_phase doc e phase).mp answers⟩
  cell i k doc sent := by
    rw [inbound]
    exact inv.cell i k doc ((channel i k doc).mp sent)
  result i e doc there done := by
    obtain ⟨k,sent⟩ := result i e doc there done
    exact ⟨k,(channel i k doc).mpr sent⟩

theorem open_other (w : World) {i j : Nat} (e f : Exchange) (other : j ≠ i) : Unanswered (w.put i e) j f ↔ Unanswered w j f := by
  unfold Unanswered
  rw [put_other w e other]
  exact Iff.rfl

-- An exchange goes on, and stays live.
theorem inv_advance (inv : Inv cfg w) {i : Nat} {e : Exchange} (there : w.exchange i = some e) (live : e.live = true)
    (phase : Phase) (still : ({ e with phase := phase } : Exchange).live = true)
    (got : ∀ doc, ({ e with phase := phase } : Exchange).result = some (.ok doc) → ∃ k, w.channel i = .sent k doc) :
    Inv cfg (w.put i { e with phase := phase }) := by
  refine inv_rest inv rfl (fun _ _ _ => Iff.rfl) ?_ ?_ ?_ ?_
  · intro id via j
    refine (inv.table id via j).trans ?_
    by_cases same : j = i
    · subst same
      constructor
      · rintro ⟨f,⟨found,_,unanswered⟩,named,carried⟩
        cases there.symm.trans found
        exact ⟨_,⟨put_same w j _,still,unanswered⟩,named,carried⟩
      · rintro ⟨f,⟨found,_,unanswered⟩,named,carried⟩
        rw [put_same] at found
        cases found
        exact ⟨e,⟨there,live,unanswered⟩,named,carried⟩
    · exact exists_congr fun f => and_congr_left fun _ => (open_other w _ f same).symm
  · intro a b f g foundA foundB liveA liveB same
    by_cases hereA : a = i
    · subst hereA
      rw [put_same] at foundA
      cases foundA
      by_cases hereB : b = a
      · exact hereB.symm
      · rw [put_other w _ hereB] at foundB
        exact inv.distinct a b e g there foundB live liveB same
    · rw [put_other w _ hereA] at foundA
      by_cases hereB : b = i
      · subst hereB
        rw [put_same] at foundB
        cases foundB
        exact inv.distinct a b f e foundA there liveA live same
      · rw [put_other w _ hereB] at foundB
        exact inv.distinct a b f g foundA foundB liveA liveB same
  · intro j f found
    by_cases same : j = i
    · subst same
      cases there.symm.trans found
      exact ⟨phase,put_same w j _⟩
    · exact ⟨f.phase,(put_other w _ same).trans found⟩
  · intro j f doc found done
    by_cases same : j = i
    · subst same
      rw [put_same] at found
      cases found
      exact got doc done
    · rw [put_other w _ same] at found
      exact inv.result j f doc found done

-- An exchange that has not started has no document.
theorem unstarted (inv : Inv cfg w) {i : Nat} (free : w.exchange i = none) : ¬Answered w i := by
  rintro ⟨k,inbound,handling,found,mine⟩
  obtain ⟨e,there,_⟩ := inv.given k inbound handling i found mine
  rw [free] at there
  cases there

theorem inv_refused (inv : Inv cfg w) {i : Nat} (free : w.exchange i = none) (id : Bytes) (via : Via) (e : TrqlError) :
    Inv cfg (w.put i ⟨id,via,.ended (some (.error e))⟩) := by
  refine inv_rest inv rfl (fun _ _ _ => Iff.rfl) ?_ ?_ ?_ ?_
  · intro name over_ j
    refine (inv.table name over_ j).trans ?_
    by_cases same : j = i
    · subst same
      constructor
      · rintro ⟨f,⟨found,_⟩,_⟩
        rw [free] at found
        cases found
      · rintro ⟨f,⟨found,live,_⟩,_⟩
        rw [put_same] at found
        cases found
        cases live
    · exact exists_congr fun f => and_congr_left fun _ => (open_other w _ f same).symm
  · intro a b f g foundA foundB liveA liveB same
    by_cases hereA : a = i
    · rw [hereA,put_same] at foundA
      cases foundA
      cases liveA
    · by_cases hereB : b = i
      · rw [hereB,put_same] at foundB
        cases foundB
        cases liveB
      · rw [put_other w _ hereA] at foundA
        rw [put_other w _ hereB] at foundB
        exact inv.distinct a b f g foundA foundB liveA liveB same
  · intro j f found
    by_cases same : j = i
    · rw [same,free] at found
      cases found
    · exact ⟨f.phase,(put_other w _ same).trans found⟩
  · intro j f doc found done
    by_cases same : j = i
    · rw [same,put_same] at found
      cases found
      cases done
    · rw [put_other w _ same] at found
      exact inv.result j f doc found done

-- No live exchange has the id of one that starts.
theorem inv_register (inv : Inv cfg w) {i : Nat} (free : w.exchange i = none) (id : Bytes) (via : Via)
    (fresh : ∀ j e, w.exchange j = some e → e.live = true → e.id ≠ id) :
    Inv cfg ((w.register id via i).put i ⟨id,via,.sending⟩) := by
  have vacant : w.pending.lookup id = none := by
    cases found : w.pending.lookup id with
    | none => rfl
    | some waiter =>
      obtain ⟨over_,j⟩ := waiter
      obtain ⟨e,⟨there,live,_⟩,named,_⟩ := (inv.table id over_ j).mp found
      exact absurd named (fresh j e there live)
  have registered : w.register id via i = { w with pending := w.pending.insert id (via,i) } := by
    rw [World.register,vacant]
    rfl
  have looked (name : Bytes) : (w.pending.insert id (via,i)).lookup name = if name = id then some (via,i) else w.pending.lookup name :=
    Table.lookup_put w.pending id name (some (via,i))
  rw [registered]
  refine inv_rest inv rfl (fun _ _ _ => Iff.rfl) ?_ ?_ ?_ ?_
  · intro name over_ j
    refine (Eq.congr_left (looked name)).trans ?_
    by_cases here : name = id
    · rw [if_pos here]
      constructor
      · intro same
        cases same
        exact ⟨_,⟨put_same _ i _,rfl,unstarted inv free⟩,here.symm,rfl⟩
      · rintro ⟨e,⟨there,live,_⟩,named,carried⟩
        by_cases same : j = i
        · subst same
          rw [put_same] at there
          cases there
          exact congrArg some (Prod.ext carried rfl)
        · rw [put_other _ _ same] at there
          exact absurd (named.trans here) (fresh j e there live)
    · rw [if_neg here]
      refine (inv.table name over_ j).trans ?_
      by_cases same : j = i
      · subst same
        constructor
        · rintro ⟨e,⟨there,_⟩,_⟩
          rw [free] at there
          cases there
        · rintro ⟨e,⟨there,_⟩,named,_⟩
          rw [put_same] at there
          cases there
          exact absurd named.symm here
      · exact exists_congr fun e => and_congr_left fun _ => (open_other _ _ e same).symm
  · intro a b f g foundA foundB liveA liveB same
    by_cases hereA : a = i
    · by_cases hereB : b = i
      · exact hereA.trans hereB.symm
      · rw [hereA,put_same] at foundA
        cases foundA
        rw [put_other _ _ hereB] at foundB
        exact absurd same.symm (fresh b g foundB liveB)
    · rw [put_other _ _ hereA] at foundA
      by_cases hereB : b = i
      · rw [hereB,put_same] at foundB
        cases foundB
        exact absurd same (fresh a f foundA liveA)
      · rw [put_other _ _ hereB] at foundB
        exact inv.distinct a b f g foundA foundB liveA liveB same
  · intro j f found
    by_cases same : j = i
    · rw [same,free] at found
      cases found
    · exact ⟨f.phase,(put_other _ _ same).trans found⟩
  · intro j f doc found done
    by_cases same : j = i
    · rw [same,put_same] at found
      cases found
      cases done
    · rw [put_other _ _ same] at found
      exact inv.result j f doc found done

theorem inv_unregister (inv : Inv cfg w) {i : Nat} {id : Bytes} {via : Via} {result : Option (Except TrqlError Value)}
    (there : w.exchange i = some ⟨id,via,.leaving result⟩) :
    Inv cfg ((w.unregister id).put i ⟨id,via,.ended result⟩) := by
  have looked (name : Bytes) : (w.pending.erase id).lookup name = if name = id then none else w.pending.lookup name :=
    Table.lookup_put w.pending id name none
  have exchanges : (w.unregister id).exchange = w.exchange := close_exchange w _
  have documents : (w.unregister id).inbound = w.inbound := close_inbound w _
  have opens (j : Nat) (e : Exchange) : Unanswered (w.unregister id) j e ↔ Unanswered w j e := by
    simp only [Unanswered,Answered,GivenTo,exchanges,documents]
  refine inv_rest inv documents (fun j k doc => close_sent w _ j k doc) ?_ ?_ ?_ ?_
  · intro name over_ j
    refine (Eq.congr_left (looked name)).trans ?_
    by_cases here : name = id
    · rw [if_pos here]
      refine ⟨fun none_ => (by cases none_),?_⟩
      rintro ⟨e,⟨found,live,_⟩,named,_⟩
      by_cases same : j = i
      · rw [same,put_same] at found
        cases found
        cases live
      · rw [put_other _ _ same,exchanges] at found
        exact absurd (inv.distinct j i e _ found there live rfl (named.trans here)) same
    · rw [if_neg here]
      refine (inv.table name over_ j).trans ?_
      by_cases same : j = i
      · subst same
        constructor
        · rintro ⟨e,⟨found,_⟩,named,_⟩
          cases there.symm.trans found
          exact absurd named.symm here
        · rintro ⟨e,⟨found,live,_⟩,_⟩
          rw [put_same] at found
          cases found
          cases live
      · exact exists_congr fun e => and_congr_left fun _ => ((open_other _ _ e same).trans (opens j e)).symm
  · intro a b f g foundA foundB liveA liveB same
    by_cases hereA : a = i
    · rw [hereA,put_same] at foundA
      cases foundA
      cases liveA
    · by_cases hereB : b = i
      · rw [hereB,put_same] at foundB
        cases foundB
        cases liveB
      · rw [put_other _ _ hereA,exchanges] at foundA
        rw [put_other _ _ hereB,exchanges] at foundB
        exact inv.distinct a b f g foundA foundB liveA liveB same
  · intro j f found
    by_cases same : j = i
    · subst same
      cases there.symm.trans found
      exact ⟨.ended result,put_same _ j _⟩
    · exact ⟨f.phase,(put_other _ _ same).trans ((congrFun exchanges j).trans found)⟩
  · intro j f doc found done
    by_cases same : j = i
    · subst same
      rw [put_same] at found
      cases found
      exact inv.result j _ doc there done
    · rw [put_other _ _ same,exchanges] at found
      exact inv.result j f doc found done

/-! Documents -/

theorem handle_inbound (w : World) (k a : Nat) (inbound : InboundDoc) (handling : Handling) :
    (w.handle k inbound handling).inbound a = if a = k then some (inbound,handling) else w.inbound a :=
  Function.update_apply w.inbound k (some (inbound,handling)) a

-- Of a document not offered before, nothing was given.
theorem given_offered {k : Nat} (free : w.inbound k = none) (inbound : InboundDoc) (handling : Handling) (a i : Nat) :
    GivenTo (w.handle k inbound handling) a i ↔ GivenTo w a i ∨ a = k ∧ (handling = .holding i ∨ handling = .taken i) := by
  unfold GivenTo
  rw [handle_inbound]
  by_cases here : a = k
  · subst here
    simp [free]
  · simp [here]

theorem inv_jobs (inv : Inv cfg w) {k : Nat} (free : w.inbound k = none) (inbound : InboundDoc) :
    Inv cfg (w.handle k inbound .jobs) := by
  have answered (i : Nat) : Answered (w.handle k inbound .jobs) i ↔ Answered w i := by
    refine exists_congr fun a => (given_offered free inbound .jobs a i).trans ?_
    simp
  have opens (i : Nat) (e : Exchange) : Unanswered (w.handle k inbound .jobs) i e ↔ Unanswered w i e :=
    and_congr_right fun _ => and_congr_right fun _ => not_congr (answered i)
  refine ⟨fun id via i => (inv.table id via i).trans (exists_congr fun e => and_congr_left fun _ => (opens i e).symm),
    inv.distinct,?_,?_,inv.result⟩
  · intro a doc handling i found mine
    rw [handle_inbound] at found
    split at found
    · cases found
      rcases mine with other | other <;> cases other
    · exact inv.given a doc handling i found mine
  · intro i a doc sent
    obtain ⟨from_,found,same⟩ := inv.cell i a doc sent
    refine ⟨from_,?_,same⟩
    rw [handle_inbound,if_neg fun here : a = k => by rw [here,free] at found; cases found]
    exact found

-- What `route` takes is the answer to the query it takes it for.
theorem take_exact (inv : Inv cfg w) (inbound : InboundDoc) {i : Nat} {pending : Table Bytes Waiter} :
    take cfg w.pending inbound = some (i,pending) ↔
      ∃ e, Unanswered w i e ∧ Answers cfg inbound e ∧ pending = w.pending.erase e.id := by
  have proven : fromRegistry cfg inbound = true ↔
      ∃ sender, inbound.authenticatedSender = some sender ∧ senderDid sender = cfg.registryDid := by
    rw [fromRegistry,decide_eq_true_eq,Option.map_eq_some_iff]
  constructor
  · intro taken
    unfold take at taken
    split at taken
    · rename_i from_
      split at taken
      · cases taken
      · rename_i thread named
        split at taken
        · cases taken
        · rename_i via waiter found
          split at taken
          · cases taken
          · rename_i same
            cases taken
            obtain ⟨e,open_,id,carried⟩ := (inv.table thread via i).mp found
            refine ⟨e,open_,⟨proven.mp from_,?_,named.trans (congrArg some id.symm)⟩,by rw [id]⟩
            exact (not_not.mp same).symm.trans carried.symm
    · cases taken
  · rintro ⟨e,open_,answers,rest⟩
    subst rest
    have found := (inv.table e.id e.via i).mpr ⟨e,open_,rfl,rfl⟩
    unfold take
    rw [if_pos (proven.mpr answers.sender),answers.thread]
    dsimp only
    rw [found]
    dsimp only
    exact if_neg (not_not_intro answers.via.symm)

theorem take_none (inv : Inv cfg w) (inbound : InboundDoc) (left : take cfg w.pending inbound = none) :
    ¬∃ i e, Unanswered w i e ∧ Answers cfg inbound e := by
  rintro ⟨i,e,open_,answers⟩
  have taken := (take_exact inv inbound).mpr ⟨e,open_,answers,rfl⟩
  rw [left] at taken
  cases taken

theorem inv_taken (inv : Inv cfg w) {k i : Nat} {e : Exchange} (free : w.inbound k = none) (inbound : InboundDoc)
    (open_ : Unanswered w i e) (answers : Answers cfg inbound e) :
    Inv cfg ({ w with pending := w.pending.erase e.id }.handle k inbound (.holding i)) := by
  have given (a j : Nat) : GivenTo ({ w with pending := w.pending.erase e.id }.handle k inbound (.holding i)) a j ↔
      GivenTo w a j ∨ a = k ∧ j = i := by
    refine (given_offered (w := { w with pending := w.pending.erase e.id }) free inbound (.holding i) a j).trans ?_
    refine or_congr Iff.rfl (and_congr_right fun _ => ?_)
    simp only [Handling.holding.injEq,reduceCtorEq,or_false]
    exact eq_comm
  have answered (j : Nat) : Answered ({ w with pending := w.pending.erase e.id }.handle k inbound (.holding i)) j ↔
      Answered w j ∨ j = i := by
    simp only [Answered,given,exists_or,exists_eq_left]
  have looked (name : Bytes) : (w.pending.erase e.id).lookup name = if name = e.id then none else w.pending.lookup name :=
    Table.lookup_put w.pending e.id name none
  refine ⟨?_,inv.distinct,?_,?_,inv.result⟩
  · intro name via j
    refine (Eq.congr_left (looked name)).trans ?_
    by_cases here : name = e.id
    · rw [if_pos here]
      refine ⟨fun none_ => (by cases none_),?_⟩
      rintro ⟨f,⟨found,live,unanswered⟩,named,_⟩
      rw [answered,not_or] at unanswered
      exact absurd (inv.distinct j i f e found open_.1 live open_.2.1 (named.trans here)) unanswered.2
    · rw [if_neg here]
      refine (inv.table name via j).trans (exists_congr fun f => and_congr_left fun named => ?_)
      refine and_congr_right fun found => and_congr_right fun _ => not_congr ?_
      rw [answered]
      refine ⟨.inl,fun either => either.resolve_right fun same => ?_⟩
      subst same
      cases open_.1.symm.trans found
      exact here named.1.symm
  · intro a doc handling j found mine
    rw [handle_inbound] at found
    split at found
    · cases found
      rcases mine with same | other
      · cases same
        exact ⟨e,open_.1,answers⟩
      · cases other
    · exact inv.given a doc handling j found mine
  · intro j a doc sent
    obtain ⟨from_,found,same⟩ := inv.cell j a doc sent
    refine ⟨from_,?_,same⟩
    rw [handle_inbound,if_neg fun here : a = k => by rw [here,free] at found; cases found]
    exact found

-- The document goes into the channel, or nowhere once the receiver is gone.
theorem inv_deliver (inv : Inv cfg w) {k i : Nat} {inbound : InboundDoc} (held : w.inbound k = some (inbound,.holding i))
    (sent : Nat → Channel) (cells : ∀ j, sent j = w.channel j ∨ j = i ∧ receiving w i = true ∧ sent j = .sent k inbound.doc) :
    Inv cfg ({ w with channel := sent }.handle k inbound (.taken i)) := by
  have given (a j : Nat) : GivenTo ({ w with channel := sent }.handle k inbound (.taken i)) a j ↔ GivenTo w a j := by
    unfold GivenTo
    rw [handle_inbound]
    by_cases here : a = k
    · subst here
      simp [held]
    · rw [if_neg here]
  have opens (j : Nat) (e : Exchange) : Unanswered ({ w with channel := sent }.handle k inbound (.taken i)) j e ↔ Unanswered w j e :=
    and_congr_right fun _ => and_congr_right fun _ => not_congr (exists_congr fun a => given a j)
  refine ⟨fun id via j => (inv.table id via j).trans (exists_congr fun e => and_congr_left fun _ => (opens j e).symm),
    inv.distinct,?_,?_,?_⟩
  · intro a doc handling j found mine
    rw [handle_inbound] at found
    split at found
    · cases found
      refine inv.given k _ _ j held (mine.elim (fun other => ?_) fun same => ?_)
      · cases other
      · cases same
        exact .inl rfl
    · exact inv.given a doc handling j found mine
  · intro j a doc filled
    rcases cells j with before | ⟨here,_,now_⟩
    · obtain ⟨from_,found,same⟩ := inv.cell j a doc (before.symm.trans filled)
      refine ⟨from_,?_,same⟩
      rw [handle_inbound,if_neg fun here : a = k => by rw [here,held] at found; cases found]
      exact found
    · cases now_.symm.trans filled
      subst here
      exact ⟨inbound,(handle_inbound _ _ _ _ _).trans (if_pos rfl),rfl⟩
  · intro j e doc there done
    obtain ⟨a,filled⟩ := inv.result j e doc there done
    rcases cells j with before | ⟨here,receives,_⟩
    · exact ⟨a,before.trans filled⟩
    · have found : w.exchange i = some e := here ▸ there
      rw [receiving,found] at receives
      cases shape : e.phase with
      | sending | waiting =>
        rw [Exchange.result,shape] at done
        cases done
      | leaving result | ended result =>
        simp [Phase.receives,shape] at receives

/-! Steps and runs -/

theorem receives_live (e : Exchange) (receives : e.phase.receives = true) : e.live = true := by
  cases shape : e.phase with
  | sending | waiting | leaving _ =>
    unfold Exchange.live
    rw [shape]
  | ended _ =>
    rw [shape] at receives
    cases receives

-- An await ends in a live phase, and a result is what the channel held.
theorem next_live {e : Exchange} {i : Nat} {act : Act} {phase : Phase} (going : e.next cfg w i act = some phase) :
    e.live = true ∧ ({ e with phase := phase } : Exchange).live = true ∧
      ∀ doc, ({ e with phase := phase } : Exchange).result = some (.ok doc) → ∃ k, w.channel i = .sent k doc := by
  unfold Exchange.next at going
  split at going
  · split at going
    · rename_i outcome _ sending
      cases going
      refine ⟨receives_live e (by rw [sending]; rfl),?_,?_⟩
      · cases outcome <;> rfl
      · intro doc got
        cases outcome <;> cases got
    · cases going
  · split at going
    · rename_i waiting filled
      cases going
      refine ⟨receives_live e (by rw [waiting]; rfl),rfl,fun doc got => ?_⟩
      cases got
      exact ⟨_,filled⟩
    · rename_i waiting closed
      cases going
      exact ⟨receives_live e (by rw [waiting]; rfl),rfl,fun doc got => by cases got⟩
    · cases going
  · split at going
    · rename_i waiting
      cases going
      exact ⟨receives_live e (by rw [waiting]; rfl),rfl,fun doc got => by cases got⟩
    · cases going
  · split at going
    · rename_i receives
      cases going
      exact ⟨receives_live e receives,rfl,fun doc got => by cases got⟩
    · cases going
  · cases going

theorem advance_inv (inv : Inv cfg w) {i : Nat} {act : Act} {next : World} (ran : advance cfg w i act = some next) :
    Inv cfg next := by
  unfold advance at ran
  split at ran
  · cases ran
  · rename_i e there
    obtain ⟨phase,going,same⟩ := Option.map_eq_some_iff.mp ran
    cases same
    obtain ⟨live,still,got⟩ := next_live going
    exact inv_advance inv there live phase still got

theorem checked_id {recipient : Bytes} {request : Value} {id : Bytes} (ran : checked cfg recipient request = .ok id) :
    requestId request = some id := by
  unfold checked at ran
  split at ran
  · cases ran
  · split at ran
    · cases ran
    · rename_i found
      cases ran
      exact found

theorem offer_cases (inv : Inv cfg w) {k : Nat} {inbound : InboundDoc} {next : World}
    (ran : step cfg w (.offer k inbound) = some next) : w.inbound k = none ∧
      ((next = w.handle k inbound .jobs ∧ ¬∃ i e, Unanswered w i e ∧ Answers cfg inbound e) ∨
        ∃ i e, next = { w with pending := w.pending.erase e.id }.handle k inbound (.holding i) ∧
          Unanswered w i e ∧ Answers cfg inbound e) := by
  simp only [step] at ran
  split at ran
  · cases ran
  · rename_i free
    refine ⟨free,?_⟩
    split at ran
    · rename_i left
      cases ran
      exact .inl ⟨rfl,take_none inv inbound left⟩
    · rename_i i pending taken
      cases ran
      obtain ⟨e,open_,answers,rest⟩ := (take_exact inv inbound).mp taken
      subst rest
      exact .inr ⟨i,e,rfl,open_,answers⟩

theorem step_inv (inv : Inv cfg w) {act : Act} (fresh : Fresh w act) {next : World} (ran : step cfg w act = some next) :
    Inv cfg next := by
  cases act with
  | start i via recipient request =>
    simp only [step] at ran
    split at ran
    · cases ran
    · rename_i free
      split at ran
      · cases ran
        exact inv_refused inv free _ _ _
      · rename_i id found
        cases ran
        refine inv_register inv free id via fun j e there live same => ?_
        exact fresh j e there live ((checked_id found).trans (congrArg some same.symm))
  | unregister i =>
    simp only [step] at ran
    split at ran
    · rename_i id via result there
      cases ran
      exact inv_unregister inv there
    · cases ran
  | offer k inbound =>
    obtain ⟨free,⟨same,_⟩ | ⟨i,e,same,open_,answers⟩⟩ := offer_cases inv ran
    · rw [same]
      exact inv_jobs inv free inbound
    · rw [same]
      exact inv_taken inv free inbound open_ answers
  | deliver k =>
    simp only [step] at ran
    split at ran
    · rename_i inbound i held
      cases ran
      split
      · rename_i receives
        refine inv_deliver inv held (Function.update w.channel i (.sent k inbound.doc)) fun j => ?_
        rw [Function.update_apply]
        by_cases here : j = i
        · rw [if_pos here]
          exact .inr ⟨here,receives,rfl⟩
        · rw [if_neg here]
          exact .inl rfl
      · exact inv_deliver inv held w.channel fun j => .inl rfl
    · cases ran
  | sent i outcome | poll i | timeout i | drop i => exact advance_inv inv ran

theorem start_inv (cfg : Config) : Inv cfg {} where
  table id via i := by
    refine iff_of_false (fun found => by cases found) ?_
    rintro ⟨e,⟨there,_⟩,_⟩
    cases there
  distinct i j e f there := by cases there
  given k inbound handling i found := by cases found
  cell i k doc sent := by cases sent
  result i e doc there := by cases there

theorem reachable_inv (reached : Reachable cfg w) : Inv cfg w := by
  induction reached with
  | refl => exact start_inv cfg
  | tail _ taken ih =>
    obtain ⟨act,fresh,ran⟩ := taken
    exact step_inv ih fresh ran

-- Whatever runs beside what, a query gets only its own registry's answer, and
-- every document that answers none goes to the job path.
theorem replies_isolated (cfg : Config) (w : World) (reached : Reachable cfg w) : Isolated cfg w := by
  have inv := reachable_inv reached
  refine ⟨?_,?_,inv.table,?_⟩
  · intro i e doc there done
    obtain ⟨k,filled⟩ := inv.result i e doc there done
    obtain ⟨inbound,found,same⟩ := inv.cell i k doc filled
    obtain ⟨f,here,answers⟩ := inv.given k inbound _ i found (.inr rfl)
    cases there.symm.trans here
    exact ⟨k,inbound,found,same,answers⟩
  · rintro k i j ⟨inbound,handling,found,mine⟩ ⟨other,handling',found',yours⟩
    cases found.symm.trans found'
    rcases mine with mine | mine <;> rcases yours with yours | yours <;> cases mine.symm.trans yours <;> rfl
  · intro k inbound next ran
    obtain ⟨_,⟨same,none_⟩ | ⟨i,e,same,open_,answers⟩⟩ := offer_cases inv ran
    · refine .inl ⟨?_,none_⟩
      rw [same]
      exact (handle_inbound _ _ _ _ _).trans (if_pos rfl)
    · refine .inr ⟨i,e,?_,open_,answers⟩
      rw [same]
      exact (handle_inbound _ _ _ _ _).trans (if_pos rfl)

end

namespace Sample

def cfg : Config := { registryDid := ascii "r" }
def request : Value := .object [(ascii "id",.string (ascii "q"))]
def reply : InboundDoc := ⟨.object [(ascii "threadId",.string (ascii "q"))],some (ascii "r#1"),.tsp⟩
-- The right thread over the other transport.
def astray : InboundDoc := { reply with via := .didcomm }

def after (w : World) (act : Act) : World := (step cfg w act).getD w

theorem reachable_after {w : World} {act : Act} (reached : Reachable cfg w) (fresh : Fresh w act)
    (ran : (step cfg w act).isSome = true) : Reachable cfg (after w act) := by
  obtain ⟨next,same⟩ := Option.isSome_iff_exists.mp ran
  refine reached.tail ⟨act,fresh,?_⟩
  rw [after,same,Option.getD_some]

def asked : World := after (after {} (.start 0 .tsp (ascii "r") request)) (.sent 0 (.ok ()))
def offered : World := after (after asked (.offer 5 astray)) (.offer 6 reply)
def answered : World := after (after offered (.deliver 6)) (.poll 0)

theorem answered_reachable : Reachable cfg answered := by
  have started : Reachable cfg (after {} (.start 0 .tsp (ascii "r") request)) :=
    reachable_after .refl (fun j e there => by cases there) rfl
  have asked_ : Reachable cfg asked := reachable_after started trivial rfl
  have passed : Reachable cfg (after asked (.offer 5 astray)) := reachable_after asked_ trivial rfl
  have offered_ : Reachable cfg offered := reachable_after passed trivial rfl
  have delivered : Reachable cfg (after offered (.deliver 6)) := reachable_after offered_ trivial rfl
  exact reachable_after delivered trivial rfl

theorem replies_isolated_answered : answered.exchange 0 = some ⟨ascii "q",.tsp,.leaving (some (.ok reply.doc))⟩ ∧
    answered.inbound 5 = some (astray,.jobs) ∧ Isolated cfg answered :=
  ⟨rfl,rfl,replies_isolated cfg answered answered_reachable⟩

end Sample

end VerifiableGit.Replies
