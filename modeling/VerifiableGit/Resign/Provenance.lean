import VerifiableGit.Resign.Ledger

-- What a clean ledger says about the pushes to its branch, whatever order the
-- deliveries came in.
namespace VerifiableGit.Resign
open Text

structure State where
  branches : Branches := ∅
  -- Re-signs on record that are still to be pushed.
  ready : List (Bytes × Bytes × Bytes) := []

-- Every writer of the ledgers, and the bridge's own push of a re-signed head.
inductive Event where
  | delivered (host : Bytes) (push : PushEvent) (now : Int)
  | noted (key : Bytes) (number : Nat) (now : Int)
  | recorded (key before after : Bytes) (now : Int)
  | sent (key before after : Bytes)
  | skipped (key head why : Bytes) (now : Int)
  | pruned (now : Int)
  | detached (start : Bytes)
deriving DecidableEq

def Event.apply (s : State) : Event → Option State
  | .delivered host push now =>
    match recordPush host push now s.branches with
    | .ok (_,branches) => some { s with branches := branches }
    | .error _ => some s
  | .noted key number now => some { s with branches := rememberPullRequest key number now s.branches }
  | .recorded key before after now =>
    match recordOwn key before after now s.branches with
    | .ok branches => some { branches := branches, ready := (key,before,after) :: s.ready }
    -- The re-sign stops here.
    | .error _ => some s
  -- `run` pushes what it has just recorded, and nothing else.
  | .sent key before after =>
    if (key,before,after) ∈ s.ready then some { s with ready := s.ready.erase (key,before,after) }
    else none
  | .skipped key head why now => some { s with branches := noteSkip key head why now s.branches }
  | .pruned now => some { s with branches := prune now s.branches }
  | .detached start => some { s with branches := detach start s.branches }

def play (s : State) : List Event → Option State
  | [] => some s
  | e :: rest => (e.apply s).bind (play · rest)

theorem play_append (s : State) (one two : List Event) :
    play s (one ++ two) = (play s one).bind (play · two) := by
  induction one generalizing s with
  | nil => rfl
  | cons e rest ih =>
    simp only [List.cons_append,play]
    cases e.apply s with
    | none => rfl
    | some t => exact ih t

def PushEvent.keyed (push : PushEvent) (host key : Bytes) : Prop :=
  ∃ branch, push.branch = some branch ∧ ledgerKey host push.repoId branch = key

-- What an event can do to the ledger under one key.
inductive Turned (key : Bytes) : Event → Option BranchLedger → Option BranchLedger → Prop where
  | same : Turned key e x x
  | evicted (other : ∀ host push now, e = .delivered host push now → ¬ push.keyed host key) :
      Turned key e (some l) none
  | delivered (branch : push.branch = some b) (at_ : ledgerKey host push.repoId b = key)
      (fresh : ¬ push.stale now) : Turned key (.delivered host push now) x (recordIn push b now x).1
  | noted : Turned key (.noted key number now) x
      (some { x.getD {} with pullRequest := some number, touched := now })
  | recorded : Turned key (.recorded key before after now) (some l)
      (some { l with
        own := (if l.own.length ≥ maxOwn then l.own.drop 1 else l.own) ++ [⟨before,after,now⟩]
        touched := now })
  | skipped : Turned key (.skipped key head why now) (some l)
      (some { l with lastSkip := some (head,why), touched := now })

theorem deleteAll_lookup (branches : Branches) (keys : List Bytes) (key : Bytes) :
    (deleteAll branches keys).lookup key = branches.lookup key ∨
      (deleteAll branches keys).lookup key = none := by
  induction keys generalizing branches with
  | nil => exact .inl rfl
  | cons other keys ih =>
    rcases ih (branches.erase other) with same | gone
    · by_cases here : key = other
      · subst here
        exact .inr (same.trans (AList.lookup_erase _ _))
      · exact .inl (same.trans (AList.lookup_erase_ne here))
    · exact .inr gone

theorem makeRoom_other (branches : Branches) (key other : Bytes) :
    (makeRoom other branches).lookup key = branches.lookup key ∨
      (makeRoom other branches).lookup key = none := by
  unfold makeRoom
  split
  · exact .inl rfl
  · exact deleteAll_lookup _ _ _

theorem makeRoom_self (branches : Branches) (key : Bytes) :
    (makeRoom key branches).lookup key = branches.lookup key := by
  cases found : branches.lookup key with
  | some l => simp only [makeRoom,found,Option.isSome_some,if_true]
  | none =>
    rcases makeRoom_other branches key key with same | gone
    · exact same.trans found
    · exact gone

theorem update_self (key : Bytes) (ledger : Option BranchLedger) (branches : Branches) :
    (update key ledger branches).lookup key = ledger := by
  cases ledger with
  | none => exact AList.lookup_erase _ _
  | some l => exact AList.lookup_insert _

theorem update_other (different : key ≠ other) (ledger : Option BranchLedger) (branches : Branches) :
    (update other ledger branches).lookup key = branches.lookup key := by
  cases ledger with
  | none => exact AList.lookup_erase_ne different
  | some l => exact AList.lookup_insert_ne different

theorem kept_or_gone {before after : Option BranchLedger} (kept : after = before ∨ after = none)
    (other : ∀ host push now, e = .delivered host push now → ¬ push.keyed host key) :
    Turned key e before after := by
  rcases kept with rfl | rfl
  · exact .same
  · cases before with
    | none => exact .same
    | some l => exact .evicted other

theorem recordPush_self (named : push.branch = some b) (fresh : ¬ push.stale now)
    (done : recordPush host push now branches = .ok (pr,next)) :
    next.lookup (ledgerKey host push.repoId b) =
      (recordIn push b now (branches.lookup (ledgerKey host push.repoId b))).1 := by
  simp only [recordPush,named,if_neg fresh] at done
  cases done
  rw [update_self]
  split
  · rfl
  · rw [makeRoom_self]

theorem recordPush_turned (done : recordPush host push now branches = .ok (pr,next)) :
    Turned key (.delivered host push now) (branches.lookup key) (next.lookup key) := by
  cases named : push.branch with
  | none => simp only [recordPush,named] at done; cases done
  | some b =>
    by_cases stale : push.stale now
    · simp only [recordPush,named,if_pos stale] at done
      cases done
      exact .same
    · by_cases here : key = ledgerKey host push.repoId b
      · subst here
        rw [recordPush_self named stale done]
        exact .delivered named rfl stale
      · simp only [recordPush,named,if_neg stale] at done
        cases done
        rw [update_other here]
        refine kept_or_gone ?_ fun host' push' now' same keyed => ?_
        · split
          · exact .inl rfl
          · exact makeRoom_other _ _ _
        · cases same
          obtain ⟨b',named',at_⟩ := keyed
          cases named.symm.trans named'
          exact here at_.symm

theorem apply_turned (key : Bytes) (done : Event.apply s e = some t) :
    Turned key e (s.branches.lookup key) (t.branches.lookup key) := by
  cases e with
  | delivered host push now =>
    simp only [Event.apply] at done
    cases result : recordPush host push now s.branches with
    | error why =>
      simp only [result] at done
      cases done
      exact .same
    | ok next =>
      simp only [result] at done
      cases done
      exact recordPush_turned result
  | noted other number now =>
    cases done
    by_cases here : key = other
    · subst here
      simp only [rememberPullRequest,AList.lookup_insert,makeRoom_self]
      exact .noted
    · simp only [rememberPullRequest,AList.lookup_insert_ne here]
      exact kept_or_gone (makeRoom_other _ _ _) fun _ _ _ same => nomatch same
  | recorded other before after now =>
    simp only [Event.apply,recordOwn] at done
    cases found : s.branches.lookup other with
    | none =>
      simp only [found] at done
      cases done
      exact .same
    | some l =>
      simp only [found] at done
      cases done
      by_cases here : key = other
      · subst here
        simp only [AList.lookup_insert,found]
        exact .recorded
      · simp only [AList.lookup_insert_ne here]
        exact .same
  | sent other before after =>
    simp only [Event.apply] at done
    split at done
    · cases done
      exact .same
    · cases done
  | skipped other head why now =>
    cases done
    by_cases here : key = other
    · subst here
      simp only [noteSkip,update_self]
      cases s.branches.lookup key with
      | none => exact .same
      | some l => exact .skipped
    · simp only [noteSkip,update_other here]
      exact .same
  | pruned now =>
    cases done
    exact kept_or_gone (deleteAll_lookup _ _ _) fun _ _ _ same => nomatch same
  | detached start =>
    cases done
    exact kept_or_gone (deleteAll_lookup _ _ _) fun _ _ _ same => nomatch same

-- A delivery on record under a key, and a push of the bridge's own on record
-- there and on record before the bridge made it.
def Delivered (run : List Event) (key : Bytes) (p : PushRecord) : Prop :=
  ∃ host push now, .delivered host push now ∈ run ∧ push.keyed host key ∧ p = push.record now

structure Owned (run : List Event) (key before after : Bytes) : Prop where
  recorded : ∃ now, .recorded key before after now ∈ run
  first : ∀ earlier, earlier ++ [.sent key before after] <+: run →
    ∃ now, .recorded key before after now ∈ earlier

-- A chain of recorded pushes, from a creation by Dependabot to a head.
inductive Chain (run : List Event) (key login : Bytes) (id : Nat) (l : BranchLedger) : Bytes → Prop where
  | created (inside : p ∈ l.pushes) (recorded : Delivered run key p) (creates : p.created = true)
      (author : p.byDependabot login id = true) : Chain run key login id l p.after
  | pushed (inside : p ∈ l.pushes) (recorded : Delivered run key p)
      (author : p.byDependabot login id = true) (chain : Chain run key login id l p.before) :
      Chain run key login id l p.after
  | own (recorded : Owned run key before after) (chain : Chain run key login id l before) :
      Chain run key login id l after

-- Every record of a ledger is of something that happened.
structure Genuine (run : List Event) (key : Bytes) (l : BranchLedger) : Prop where
  pushes : ∀ p ∈ l.pushes, Delivered run key p
  own : ∀ o ∈ l.own, .recorded key o.before o.after o.recordedAt ∈ run

theorem delivered_later (delivered : Delivered run key p) (more : List Event) :
    Delivered (run ++ more) key p := by
  obtain ⟨host,push,now,inside,keyed,same⟩ := delivered
  exact ⟨host,push,now,List.mem_append_left _ inside,keyed,same⟩

theorem genuine_empty (run : List Event) (key : Bytes) : Genuine run key {} :=
  ⟨fun _ inside => (nomatch inside),fun _ inside => nomatch inside⟩

theorem genuine_later (genuine : Genuine run key l) (more : List Event) : Genuine (run ++ more) key l :=
  ⟨fun p inside => delivered_later (genuine.pushes p inside) more,
    fun o inside => List.mem_append_left _ (genuine.own o inside)⟩

theorem addPush_pushes {l : BranchLedger} (inside : p ∈ (l.addPush push now).pushes) :
    p ∈ l.pushes ∨ p = push.record now := by
  unfold BranchLedger.addPush at inside
  split at inside
  · exact .inl inside
  · split at inside
    · exact .inl inside
    · rcases List.mem_append.mp inside with old | new
      · exact .inl old
      · exact .inr (List.mem_singleton.mp new)

@[simp] theorem addPush_own (l : BranchLedger) (push : PushEvent) (now : Int) :
    (l.addPush push now).own = l.own := by
  unfold BranchLedger.addPush
  split
  · rfl
  · split <;> rfl

@[simp] theorem addPush_newest (l : BranchLedger) (push : PushEvent) (now : Int) :
    (l.addPush push now).lastPushedAt = l.lastPushedAt := by
  unfold BranchLedger.addPush
  split
  · rfl
  · split <;> rfl

-- What a delivery leaves: the ledger it found or an empty one, with its record.
theorem recordIn_genuine (known : ∀ l, x = some l → Genuine run key l)
    (delivered : Delivered run key (push.record now)) (left : (recordIn push b now x).1 = some l) :
    Genuine run key l := by
  have before : Genuine run key (x.getD {}) := by
    cases x with
    | none => exact genuine_empty run key
    | some l => exact known l rfl
  unfold recordIn at left
  split at left
  · split at left
    · cases left
    · exact known l left
  · cases left
    refine ⟨fun p inside => ?_,fun o inside => ?_⟩
    · rcases addPush_pushes inside with old | rfl
      · split at old
        · exact nomatch old
        · exact before.pushes p old
      · exact delivered
    · rw [addPush_own] at inside
      split at inside
      · exact nomatch inside
      · exact before.own o inside

theorem turned_genuine (turned : Turned key e x y) (inside : e ∈ run)
    (known : ∀ l, x = some l → Genuine run key l) (left : y = some l) : Genuine run key l := by
  cases turned with
  | same => exact known l left
  | evicted other => cases left
  | delivered branch at_ fresh => exact recordIn_genuine known ⟨_,_,_,inside,⟨_,branch,at_⟩,rfl⟩ left
  | noted =>
    cases left
    cases x with
    | none => exact ⟨fun _ absent => (nomatch absent),fun _ absent => nomatch absent⟩
    | some l => exact ⟨(known l rfl).pushes,(known l rfl).own⟩
  | recorded =>
    cases left
    refine ⟨(known _ rfl).pushes,fun o member => ?_⟩
    rcases List.mem_append.mp member with old | new
    · split at old
      · exact (known _ rfl).own o (List.mem_of_mem_drop old)
      · exact (known _ rfl).own o old
    · cases List.mem_singleton.mp new
      exact inside
  | skipped =>
    cases left
    exact ⟨(known _ rfl).pushes,(known _ rfl).own⟩

theorem play_genuine (done : List Event) (rest : List Event) {s t : State}
    (known : ∀ key l, s.branches.lookup key = some l → Genuine done key l)
    (played : play s rest = some t) (key : Bytes) (l : BranchLedger)
    (left : t.branches.lookup key = some l) : Genuine (done ++ rest) key l := by
  induction rest generalizing done s with
  | nil =>
    cases played
    rw [List.append_nil]
    exact known key l left
  | cons e rest ih =>
    simp only [play] at played
    cases stepped : e.apply s with
    | none => simp only [stepped] at played; cases played
    | some u =>
      simp only [stepped,Option.bind_some] at played
      have after := ih (done ++ [e]) (fun key l found => ?_) played
      · rwa [List.append_assoc] at after
      · exact turned_genuine (apply_turned key stepped) (List.mem_append_right _ List.mem_cons_self)
          (fun l before => genuine_later (known key l before) [e]) found

-- What is ready to be pushed is on record.
def Ready (run : List Event) (s : State) : Prop :=
  ∀ key before after, (key,before,after) ∈ s.ready → ∃ now, .recorded key before after now ∈ run

theorem apply_ready (ready : Ready run s) (applied : Event.apply s e = some t) : Ready (run ++ [e]) t := by
  have later (same : t.ready = s.ready) : Ready (run ++ [e]) t := by
    intro key before after inside
    rw [same] at inside
    obtain ⟨now,recorded⟩ := ready key before after inside
    exact ⟨now,List.mem_append_left _ recorded⟩
  cases e with
  | delivered host push now =>
    simp only [Event.apply] at applied
    split at applied <;> cases applied <;> exact later rfl
  | recorded other before after now =>
    simp only [Event.apply] at applied
    split at applied
    · cases applied
      intro key b a inside
      rcases List.mem_cons.mp inside with same | old
      · cases same
        exact ⟨now,List.mem_append_right _ List.mem_cons_self⟩
      · obtain ⟨at_,recorded⟩ := ready key b a old
        exact ⟨at_,List.mem_append_left _ recorded⟩
    · cases applied
      exact later rfl
  | sent other before after =>
    simp only [Event.apply] at applied
    split at applied
    · cases applied
      intro key b a inside
      obtain ⟨at_,recorded⟩ := ready key b a (List.mem_of_mem_erase inside)
      exact ⟨at_,List.mem_append_left _ recorded⟩
    · cases applied
  | _ => cases applied; exact later rfl

theorem play_ready (done rest : List Event) {s t : State} (ready : Ready done s)
    (played : play s rest = some t) : Ready (done ++ rest) t := by
  induction rest generalizing done s with
  | nil =>
    cases played
    rwa [List.append_nil]
  | cons e rest ih =>
    simp only [play] at played
    cases stepped : e.apply s with
    | none => simp only [stepped] at played; cases played
    | some u =>
      simp only [stepped,Option.bind_some] at played
      have after := ih (done ++ [e]) (apply_ready ready stepped) played
      rwa [List.append_assoc] at after

-- No push of the bridge's own is sent before it is on record.
theorem sent_recorded (played : play {} run = some s) (sent : earlier ++ [.sent key before after] <+: run) :
    ∃ now, .recorded key before after now ∈ earlier := by
  obtain ⟨rest,rfl⟩ := sent
  rw [List.append_assoc,play_append] at played
  cases before_ : play {} earlier with
  | none => simp only [before_] at played; cases played
  | some u =>
    have ready := play_ready [] earlier (fun _ _ _ absent => absurd absent List.not_mem_nil) before_
    simp only [before_,Option.bind_some,List.singleton_append,play,Event.apply] at played
    split at played
    · rename_i inside
      exact ready key before after inside
    · cases played

theorem played_genuine (played : play {} run = some s) (found : s.branches.lookup key = some l) :
    Genuine run key l := by
  refine play_genuine [] run (fun key l found => ?_) played key l found
  rw [AList.lookup_empty] at found
  cases found

section
variable {login : Bytes} {id : Nat}

theorem isOwn_exact {l : BranchLedger} (own : l.isOwn p = true) :
    ∃ o ∈ l.own, o.before = p.before ∧ o.after = p.after := by
  simpa [BranchLedger.isOwn] using own

theorem walk_chain {l : BranchLedger} (genuine : Genuine run key l)
    (own : ∀ o ∈ l.own, Owned run key o.before o.after)
    (all : ∀ p ∈ l.pushes, p.byDependabot login id = true ∨ l.isOwn p = true)
    (walked : walk login id l n cur = .ok ()) : Chain run key login id l cur := by
  induction n generalizing cur with
  | zero => cases walked
  | succ n ih =>
    simp only [walk] at walked
    cases found : l.pushes.find? fun p => p.after = cur with
    | none =>
      simp only [found] at walked
      cases mine : l.own.find? fun o => o.after = cur with
      | none => simp only [mine] at walked; cases walked
      | some o =>
        simp only [mine] at walked
        have inside := List.mem_of_find?_eq_some mine
        have at_ : o.after = cur := by simpa using List.find?_some mine
        subst at_
        exact .own (own o inside) (ih walked)
    | some p =>
      simp only [found] at walked
      have inside := List.mem_of_find?_eq_some found
      have at_ : p.after = cur := by simpa using List.find?_some found
      subst at_
      split at walked
      · rename_i creates
        split at walked
        · rename_i author
          exact .created inside (genuine.pushes p inside) creates author
        · cases walked
      · split at walked
        · cases walked
        · rcases all p inside with author | mine
          · exact .pushed inside (genuine.pushes p inside) author (ih walked)
          · obtain ⟨o,member,before,after⟩ := isOwn_exact mine
            have recorded := own o member
            rw [before,after] at recorded
            exact .own recorded (ih walked)

theorem clean_chain {l : BranchLedger} (played : play {} run = some s)
    (found : s.branches.lookup key = some l) (clean : isClean login id l head = .ok ()) :
    Chain run key login id l head := by
  have genuine := played_genuine played found
  unfold isClean at clean
  split at clean
  · cases clean
  · split at clean
    · cases clean
    · rename_i others
      refine walk_chain genuine (fun o inside => ?_) (fun p inside => ?_) clean
      · exact ⟨⟨_,genuine.own o inside⟩,fun earlier sent => sent_recorded played sent⟩
      · have mine := List.find?_eq_none.mp others p inside
        simpa [or_iff_not_imp_left] using mine

end

-- What keeps a branch unclean: a push on record, or one the ledger had no room
-- for, and a newest time no older than it.
def Shows (push : PushEvent) (l : BranchLedger) : Prop :=
  l.overflow = true ∨ ∃ p ∈ l.pushes, p.before = push.before ∧ p.after = push.after ∧
    p.senderLogin = push.senderLogin ∧ p.senderId = push.senderId

def Stained (push : PushEvent) (t : Int) (l : BranchLedger) : Prop :=
  Shows push l ∧ ∃ last, l.lastPushedAt = some last ∧ t ≤ last

-- A deletion or a creation of the branch at least as new.
def Event.Clears (key : Bytes) (t : Int) (e : Event) : Prop :=
  ∃ host push now t', e = .delivered host push now ∧ push.keyed host key ∧
    (push.deleted = true ∨ push.created = true) ∧ push.pushedAt = some t' ∧ t ≤ t'

def Event.Evicts (key : Bytes) (s : State) (e : Event) : Prop :=
  (∀ host push now, e = .delivered host push now → ¬ push.keyed host key) ∧
    ∃ t, e.apply s = some t ∧ (s.branches.lookup key).isSome = true ∧ t.branches.lookup key = none

-- Neither cleared nor evicted on the way.
def Uncleared (key : Bytes) (t : Int) : State → List Event → Prop
  | _,[] => True
  | s,e :: rest => ¬ e.Clears key t ∧ ¬ e.Evicts key s ∧
      ∀ u, e.apply s = some u → Uncleared key t u rest

theorem addPush_shows (push other : PushEvent) (now : Int) {l : BranchLedger} (shows : Shows push l) :
    Shows push (l.addPush other now) := by
  unfold BranchLedger.addPush
  split
  · exact shows
  · split
    · exact .inl rfl
    · exact shows.imp_right fun ⟨p,inside,same⟩ => ⟨p,List.mem_append_left _ inside,same⟩

-- A delivery that does not clear the branch leaves what is on record there.
theorem recordIn_stained (calm : ¬ Event.Clears key t (.delivered host other now))
    (keyed : other.keyed host key) (stained : Stained push t l) :
    ∃ l', (recordIn other b now (some l)).1 = some l' ∧ Stained push t l' := by
  obtain ⟨shows,last,newest_,below⟩ := stained
  have stale (ends : other.deleted = true ∨ other.created = true) : newest other (some l) = false := by
    simp only [newest,Option.getD_some,newest_]
    cases at_ : other.pushedAt with
    | none => rfl
    | some t' =>
      refine decide_eq_false fun newer => calm ?_
      exact ⟨host,other,now,t',rfl,keyed,ends,at_,Int.le_trans below newer⟩
  unfold recordIn
  cases deleted : other.deleted with
  | true =>
    rw [stale (.inl deleted)]
    exact ⟨l,rfl,shows,last,newest_,below⟩
  | false =>
    have kept : (other.created && newest other (some l)) = false := by
      cases created : other.created with
      | false => rfl
      | true => exact stale (.inr created)
    simp only [kept,Option.getD_some,Bool.false_eq_true,if_false]
    refine ⟨_,rfl,addPush_shows push other now shows,?_⟩
    simp only [addPush_newest,newest_,Option.map_some,Option.getD_some]
    cases other.pushedAt with
    | none => exact ⟨last,rfl,below⟩
    | some t' => exact ⟨max last t',rfl,Int.le_trans below (Int.le_max_left _ _)⟩

theorem apply_stained {e : Event} {s u : State} {key : Bytes} {t : Int} (calm : ¬ e.Clears key t) (held : ¬ e.Evicts key s) (applied : e.apply s = some u)
    (found : s.branches.lookup key = some l) (stained : Stained push t l) :
    ∃ l', u.branches.lookup key = some l' ∧ Stained push t l' := by
  have turned := apply_turned key applied
  generalize after : u.branches.lookup key = y at turned
  rw [found] at turned
  cases turned with
  | same => exact ⟨l,rfl,stained⟩
  | evicted other => exact absurd ⟨other,u,applied,by rw [found]; rfl,after⟩ held
  | delivered branch at_ fresh => exact recordIn_stained calm ⟨_,branch,at_⟩ stained
  | noted => exact ⟨_,rfl,stained⟩
  | recorded => exact ⟨_,rfl,stained⟩
  | skipped => exact ⟨_,rfl,stained⟩

theorem play_stained (rest : List Event) {s u : State} (uncleared : Uncleared key t s rest)
    (played : play s rest = some u) (found : s.branches.lookup key = some l)
    (stained : Stained push t l) : ∃ l', u.branches.lookup key = some l' ∧ Stained push t l' := by
  induction rest generalizing s l with
  | nil =>
    cases played
    exact ⟨l,found,stained⟩
  | cons e rest ih =>
    simp only [play] at played
    cases stepped : e.apply s with
    | none => simp only [stepped] at played; cases played
    | some v =>
      simp only [stepped,Option.bind_some] at played
      obtain ⟨calm,held,more⟩ := uncleared
      obtain ⟨l',found,stained⟩ := apply_stained calm held stepped found stained
      exact ih (more v stepped) played found stained

theorem addPush_recorded (l : BranchLedger) (push : PushEvent) (now : Int)
    (same : ∀ p ∈ l.pushes, p.senderId = push.senderId → p.senderLogin = push.senderLogin) :
    Shows push (l.addPush push now) := by
  unfold BranchLedger.addPush
  split
  · rename_i repeated
    obtain ⟨p,inside,repeats_⟩ := List.any_eq_true.mp repeated
    simp only [repeats,Bool.and_eq_true,decide_eq_true_eq] at repeats_
    exact .inr ⟨p,inside,repeats_.1.1,repeats_.1.2,same p inside repeats_.2,repeats_.2⟩
  · split
    · exact .inl rfl
    · exact .inr ⟨push.record now,List.mem_append_right _ List.mem_cons_self,rfl,rfl,rfl,rfl⟩

-- A push that is not a deletion is on record once it is delivered, as long as
-- no account id was seen under two logins.
theorem delivered_shows (deleted : push.deleted = false)
    (same : ∀ l, x = some l → ∀ p ∈ l.pushes, p.senderId = push.senderId → p.senderLogin = push.senderLogin) :
    ∃ l, (recordIn push b now x).1 = some l ∧ Shows push l := by
  simp only [recordIn,deleted,Bool.false_eq_true,if_false]
  refine ⟨_,rfl,addPush_recorded _ push now fun p inside => ?_⟩
  cases x with
  | none => split at inside <;> exact nomatch inside
  | some l =>
    split at inside
    · exact nomatch inside
    · exact same l rfl p inside

theorem delivered_newest (deleted : push.deleted = false) (at_ : push.pushedAt = some t)
    (left : (recordIn push b now x).1 = some l) : ∃ last, l.lastPushedAt = some last ∧ t ≤ last := by
  simp only [recordIn,deleted,at_,Bool.false_eq_true,if_false] at left
  cases left
  rw [addPush_newest]
  refine ⟨_,rfl,?_⟩
  generalize (if push.created && newest push x then
    ({ pullRequest := (x.getD {}).pullRequest, lastPushedAt := (x.getD {}).lastPushedAt } : BranchLedger)
    else x.getD {}).lastPushedAt = last
  cases last with
  | none => exact Int.le_refl _
  | some last => exact Int.le_max_right _ _

-- The delivery `e` of a push put it on record under a key.
structure Recorded (key : Bytes) (push : PushEvent) (now : Int) (host : Bytes) (u : State) : Prop where
  keyed : push.keyed host key
  fresh : ¬ push.stale now
  kept : push.deleted = false
  shows : ∃ l, u.branches.lookup key = some l ∧ Shows push l

-- Neither Dependabot's nor one the bridge has on record as its own.
structure ByAnyoneElse (run : List Event) (key login : Bytes) (id : Nat) (push : PushEvent) : Prop where
  author : ¬ (push.senderLogin = login ∧ push.senderId = id)
  own : ∀ now, .recorded key push.before push.after now ∉ run

theorem recorded_stained (applied : Event.apply s (.delivered host push now) = some u)
    (recorded : Recorded key push now host u) (at_ : push.pushedAt = some t) :
    ∃ l, u.branches.lookup key = some l ∧ Stained push t l := by
  obtain ⟨b,named,rfl⟩ := recorded.keyed
  obtain ⟨l,found,shows⟩ := recorded.shows
  refine ⟨l,found,shows,?_⟩
  simp only [Event.apply] at applied
  cases done : recordPush host push now s.branches with
  | error why =>
    simp only [recordPush,named] at done
    split at done <;> cases done
  | ok next =>
    simp only [done] at applied
    cases applied
    exact delivered_newest recorded.kept at_ ((recordPush_self named recorded.fresh done).symm.trans found)

section
variable {login : Bytes} {id : Nat}

theorem shown_unclean {l : BranchLedger} (genuine : Genuine run key l)
    (else_ : ByAnyoneElse run key login id push) (shows : Shows push l) (head : Bytes) :
    isClean login id l head ≠ .ok () := by
  intro clean
  unfold isClean at clean
  rcases shows with overflow | ⟨p,inside,before,after,account,number⟩
  · simp only [overflow,if_true] at clean
    cases clean
  · split at clean
    · cases clean
    · split at clean
      · cases clean
      · rename_i others
        have mine := List.find?_eq_none.mp others p inside
        cases author : p.byDependabot login id with
        | true =>
          simp only [PushRecord.byDependabot,Bool.and_eq_true,decide_eq_true_eq,account,number] at author
          exact else_.author author
        | false =>
          have own : l.isOwn p = true := by simpa [author] using mine
          obtain ⟨o,member,same,same'⟩ := isOwn_exact own
          have recorded := genuine.own o member
          rw [same,same',before,after] at recorded
          exact else_.own _ recorded

end

theorem dependabot_provenance_sound (login : Bytes) (id : Nat) (key : Bytes) (run : List Event) (s : State)
    (played : play {} run = some s) :
    (∀ l head, s.branches.lookup key = some l → isClean login id l head = .ok () →
      Chain run key login id l head) ∧
    (∀ done host push now rest u t, run = done ++ .delivered host push now :: rest →
      play {} (done ++ [.delivered host push now]) = some u → Recorded key push now host u →
      ByAnyoneElse run key login id push → push.pushedAt = some t → Uncleared key t u rest →
      ∃ l, s.branches.lookup key = some l ∧ ∀ head, isClean login id l head ≠ .ok ()) := by
  refine ⟨fun l head found clean => clean_chain played found clean,?_⟩
  intro done host push now rest u t same reached recorded else_ at_ uncleared
  have split : run = (done ++ [.delivered host push now]) ++ rest := by rw [same]; simp
  have later : play u rest = some s := by
    rw [split,play_append,reached] at played
    exact played
  obtain ⟨v,before,applied⟩ : ∃ v, play {} done = some v ∧ Event.apply v (.delivered host push now) = some u := by
    rw [play_append] at reached
    obtain ⟨v,before,applied⟩ := Option.bind_eq_some_iff.mp reached
    refine ⟨v,before,?_⟩
    simpa [play,Option.bind_eq_some_iff] using applied
  obtain ⟨l,found,stained⟩ := recorded_stained applied recorded at_
  obtain ⟨l',found',stained'⟩ := play_stained rest uncleared later found stained
  exact ⟨l',found',fun head => shown_unclean (played_genuine played found') else_ stained'.1 head⟩

namespace Sample

def bot : Bytes := ascii "dependabot[bot]"

def push (before after login : String) (id : Nat) (created : Bool) (t : Option Int) : PushEvent :=
  { repo := ascii "h/o/r", repoId := 1, gitRef := ascii "refs/heads/dependabot/x"
    before := ascii before, after := ascii after, created := created, deleted := false
    senderLogin := ascii login, senderId := id, deliveryId := none, pushedAt := t }

def key : Bytes := ascii "h#1#dependabot/x"

def opened : Event := .delivered (ascii "h") (push "0" "a" "dependabot[bot]" 7 true (some 1)) 9
def pushed : Event := .delivered (ascii "h") (push "a" "b" "eve" 8 false (some 5)) 9
-- A creation delivered late, without a time.
def replayed : Event := .delivered (ascii "h") (push "0" "c" "dependabot[bot]" 7 true none) 9

def after (run : List Event) : State := (play {} run).getD {}

theorem dependabot_provenance_sound_sample :
    (∃ l, (after [opened]).branches.lookup key = some l ∧ Chain [opened] key bot 7 l (ascii "a")) ∧
      ∃ l, (after [opened,pushed,replayed]).branches.lookup key = some l ∧
        ∀ head, isClean bot 7 l head ≠ .ok () := by
  constructor
  · have found : ((after [opened]).branches.lookup key).isSome = true := by decide
    obtain ⟨l,found⟩ := Option.isSome_iff_exists.mp found
    refine ⟨l,found,(dependabot_provenance_sound bot 7 key [opened] _ rfl).1 l _ found ?_⟩
    have clean : ((after [opened]).branches.lookup key).map (isClean bot 7 · (ascii "a")) = some (.ok ()) := by
      decide
    simpa [found] using clean
  · refine (dependabot_provenance_sound bot 7 key [opened,pushed,replayed] _ rfl).2 [opened] (ascii "h")
      (push "a" "b" "eve" 8 false (some 5)) 9 [replayed] (after [opened,pushed]) 5 rfl rfl ?_ ?_ rfl ?_
    · refine ⟨⟨ascii "dependabot/x",by decide,by decide⟩,by decide,rfl,?_⟩
      have found : ((after [opened,pushed]).branches.lookup key).map (fun l => l.pushes.any fun p =>
          decide (p.before = ascii "a" ∧ p.after = ascii "b" ∧ p.senderLogin = ascii "eve" ∧ p.senderId = 8)) =
          some true := by decide
      obtain ⟨l,found,some_⟩ := Option.map_eq_some_iff.mp found
      obtain ⟨p,inside,same⟩ := List.any_eq_true.mp some_
      exact ⟨l,found,.inr ⟨p,inside,of_decide_eq_true same⟩⟩
    · exact ⟨by decide,fun now inside => by simp [opened,pushed,replayed] at inside⟩
    · refine ⟨?_,?_,fun u _ => trivial⟩
      · rintro ⟨host,push,now,t',same,_,_,at_,_⟩
        cases same
        cases at_
      · rintro ⟨other,_⟩
        exact other _ _ _ rfl ⟨ascii "dependabot/x",by decide,by decide⟩

end Sample

end VerifiableGit.Resign
