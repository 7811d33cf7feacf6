import VerifiableGit.Library.Removal
import VerifiableGit.Signing.Includes

-- Exactly when `enable_repo` and `disable_repo` change their own include lines
-- whole or not at all.
namespace VerifiableGit.Signing
open Qualified (Str text isWhitespace)
open Workflow
open Library.Removal

theorem ours_trim (m : Machine) (value : Str) : isOurInclude m (trim value) = isOurInclude m value := by
  simp only [isOurInclude,trim_trim]

-- The own lines as they are read, and what of the values is not ours.
def ownLines (m : Machine) (fails : Call → Bool) (values : List Str) : List Str :=
  match gitOut (getAll fails values) with
  | none => []
  | some all => ((linesOf all).filter (isOurInclude m)).map trim

def foreign (m : Machine) (values : List Str) : List Str := values.filter fun v => !isOurInclude m v

theorem own_ours (m : Machine) (fails : Call → Bool) (values : List Str) :
    ∀ line ∈ ownLines m fails values, isOurInclude m line = true := by
  intro line member
  unfold ownLines at member
  split at member
  · cases member
  · obtain ⟨read,inside,same⟩ := List.mem_map.mp member
    rw [← same,ours_trim]
    exact (List.mem_filter.mp inside).2

-- The n-th removal fails.
def unsetFails (fails : Call → Bool) (nth : Nat) : Bool := fails (.unsetAll nth)

theorem unsetAll_remove (fails : Call → Bool) (nth : Nat) (line : Str) (values : List Str) :
    unsetAll fails nth (valuePattern line) values = remove (unsetFails fails) nth (trim line) values := by
  have present : values.any (matched (valuePattern line)) = true ↔ trim line ∈ values := by
    simp [matched_exact]
  have kept : (values.filter fun v => !matched (valuePattern line) v) = values.filter (· ≠ trim line) :=
    List.filter_congr fun v _ => by simp [matched_exact]
  by_cases stuck : fails (.unsetAll nth) = true ∨ trim line ∉ values
  · rw [remove,unsetFails,unsetAll,if_pos stuck,if_pos (stuck.imp_right (mt present.mp))]
  · rw [remove,unsetFails,unsetAll,if_neg stuck,if_neg (mt (Or.imp_right (mt present.mpr)) stuck),kept]

theorem unsetEach_removes (fails : Call → Bool) (nth : Nat) (lines values : List Str) :
    ((unsetEach fails nth lines values).1 = .ok () ↔
      (removeEach (unsetFails fails) nth (lines.map trim) values).1 = true) ∧
    (unsetEach fails nth lines values).2 = (removeEach (unsetFails fails) nth (lines.map trim) values).2 := by
  induction lines generalizing nth values with
  | nil => simp [unsetEach,removeEach]
  | cons line lines ih =>
    rw [List.map_cons,unsetEach,removeEach,unsetAll_remove]
    cases remove (unsetFails fails) nth (trim line) values with
    | none => simp
    | some left => exact ih (nth+1) left

-- What the own lines make of the values.
def removal (m : Machine) (fails : Call → Bool) (values : List Str) : Bool × List Str :=
  removeEach (unsetFails fails) 0 (ownLines m fails values) values

theorem includes_removed (m : Machine) (fails : Call → Bool) (values : List Str) :
    ((removeRepoIncludes m fails values).1.isOk = (removal m fails values).1) ∧
    (removeRepoIncludes m fails values).2 = (removal m fails values).2 := by
  unfold removal removeRepoIncludes ownLines
  cases gitOut (getAll fails values) with
  | none => simp [removeEach,Except.isOk,Except.toBool]
  | some all =>
    obtain ⟨done,left⟩ := unsetEach_removes fails 0 ((linesOf all).filter (isOurInclude m)) values
    dsimp only
    rw [← left]
    cases run : unsetEach fails 0 ((linesOf all).filter (isOurInclude m)) values with
    | mk outcome rest =>
      rw [run] at done
      cases outcome with
      | ok _ => exact ⟨(done.mp rfl).symm,rfl⟩
      | error e =>
        refine ⟨?_,rfl⟩
        cases stopped : (removeEach (unsetFails fails) 0 (((linesOf all).filter (isOurInclude m)).map trim) values).1 with
        | false => rfl
        | true => cases done.mpr stopped

-- When a run over these values keeps them or leaves the foreign ones only.
-- `refused`: it was refused before they were read. `failed`: the step after the
-- removal fails.
inductive Whole (m : Machine) (fails : Call → Bool) (values : List Str) (refused failed : Prop) : Prop
  | refused : refused → Whole m fails values refused failed
  | nothing : ownLines m fails values = [] → (failed ∨ ∀ v ∈ values, isOurInclude m v = false) →
      Whole m fails values refused failed
  | atOnce : (line : Str) → (ownLines m fails values).head? = some line → (unsetFails fails 0 = true ∨ line ∉ values) →
      Whole m fails values refused failed
  | all : Removable (unsetFails fails) 0 (ownLines m fails values) values →
      (∀ v ∈ values, isOurInclude m v = true → v ∈ ownLines m fails values) → ¬ failed →
      Whole m fails values refused failed

theorem foreign_left (m : Machine) (fails : Call → Bool) (values : List Str) :
    values.filter (· ∉ ownLines m fails values) = foreign m values ↔
    ∀ v ∈ values, isOurInclude m v = true → v ∈ ownLines m fails values := by
  constructor
  · intro same v member ours
    by_contra unlisted
    have kept : v ∈ foreign m values := same ▸ List.mem_filter.mpr ⟨member,by simpa using unlisted⟩
    simp [foreign,ours] at kept
  · intro all
    refine List.filter_congr fun v member => ?_
    by_cases listed : v ∈ ownLines m fails values
    · simp [listed,own_ours m fails values v listed]
    · have other : isOurInclude m v = false := by simpa using mt (all v member) listed
      simp [listed,other]

-- What the removal is, in each case.
theorem removal_cases (m : Machine) (fails : Call → Bool) (values : List Str) :
    (ownLines m fails values = [] ∧ removal m fails values = (true,values)) ∨
    (∃ line, (ownLines m fails values).head? = some line ∧ (unsetFails fails 0 = true ∨ line ∉ values) ∧
      removal m fails values = (false,values)) ∨
    ((removal m fails values).2.length < values.length ∧ ∃ line, (ownLines m fails values).head? = some line ∧
      unsetFails fails 0 = false ∧ line ∈ values) := by
  unfold removal
  cases own : ownLines m fails values with
  | nil => exact .inl ⟨rfl,rfl⟩
  | cons line more =>
    by_cases stuck : unsetFails fails 0 = true ∨ line ∉ values
    · exact .inr (.inl ⟨line,rfl,stuck,removeEach_stuck stuck⟩)
    · obtain ⟨answered,present⟩ := not_or.mp stuck
      have answered : unsetFails fails 0 = false := by simpa using answered
      have present : line ∈ values := not_not.mp present
      exact .inr (.inr ⟨removeEach_shorter answered present,line,rfl,answered,present⟩)

theorem removal_all (done : (removal m fails values).1 = true) :
    Removable (unsetFails fails) 0 (ownLines m fails values) values ∧
    (removal m fails values).2 = values.filter (· ∉ ownLines m fails values) := by
  have all := removeEach_ok done
  refine ⟨all,?_⟩
  rw [removal,removeEach_all all]
  exact List.filter_congr fun _ _ => decide_eq_decide.mpr Iff.rfl

-- What a call promises of the values: the foreign ones and what it added, or no change.
def Enabled (m : Machine) (include_ : List UInt8) (values : List Str) : Result Unit × List Str → Prop
  | (.ok _,after) => ∃ value, fromUtf8 include_ = some value ∧ after = foreign m values ++ [value] ∧
      (isOurInclude m value = true → after.count value = 1)
  | (.error _,after) => after = values

def Disabled (m : Machine) (values : List Str) : Result Bool × List Str → Prop
  | (.ok _,after) => after = foreign m values
  | (.error _,after) => after = values

theorem added_once (ours : isOurInclude m value = true) (values : List Str) :
    (foreign m values ++ [value]).count value = 1 := by
  have none_ : value ∉ foreign m values := fun member => by simp [foreign,ours] at member
  rw [List.count_append,List.count_eq_zero.mpr none_,List.count_singleton_self]

theorem foreign_all (m : Machine) (values : List Str) : foreign m values = values ↔ ∀ v ∈ values, isOurInclude m v = false := by
  simp [foreign,List.filter_eq_self]

-- The step after the removal, and the promise with it.
def Promised (m : Machine) (values : List Str) (failed : Prop) (left : Bool × List Str) : Prop :=
  if left.1 = true then (failed ∧ left.2 = values) ∨ (¬ failed ∧ left.2 = foreign m values) else left.2 = values

theorem promised_exact (m : Machine) (fails : Call → Bool) (values : List Str) (failed : Prop) :
    Promised m values failed (removal m fails values) ↔ Whole m fails values False failed := by
  constructor
  · intro promised
    rcases removal_cases m fails values with ⟨own,run⟩ | ⟨line,first,stuck,_⟩ | ⟨shorter,line,first,_,_⟩
    · rw [run,Promised,if_pos rfl] at promised
      refine .nothing own (promised.imp And.left fun kept => ?_)
      exact (foreign_all m values).mp kept.2.symm
    · exact .atOnce line first stuck
    · have changed : (removal m fails values).2 ≠ values := fun same => by simp [same] at shorter
      by_cases done : (removal m fails values).1 = true
      · rw [Promised,if_pos done] at promised
        obtain ⟨removable,left⟩ := removal_all done
        cases promised with
        | inl kept => exact absurd kept.2 changed
        | inr kept => exact .all removable ((foreign_left m fails values).mp (left.symm.trans kept.2)) kept.1
      · rw [Promised,if_neg done] at promised
        exact absurd promised changed
  · intro whole
    cases whole with
    | refused never => exact never.elim
    | nothing own kept =>
      have run : removal m fails values = (true,values) := by rw [removal,own]; rfl
      rw [run,Promised,if_pos rfl]
      by_cases failed_ : failed
      · exact .inl ⟨failed_,rfl⟩
      · exact .inr ⟨failed_,((foreign_all m values).mpr (kept.resolve_left failed_)).symm⟩
    | atOnce line first stuck =>
      obtain ⟨more,own⟩ := List.head?_eq_some_iff.mp first
      have run : removal m fails values = (false,values) := by rw [removal,own]; exact removeEach_stuck stuck
      rw [run,Promised,if_neg Bool.false_ne_true]
    | all removable own answered =>
      have run : removal m fails values = (true,foreign m values) := by
        rw [removal,removeEach_all removable,← (foreign_left m fails values).mpr own]
        exact congrArg _ (List.filter_congr fun _ _ => decide_eq_decide.mpr Iff.rfl)
      rw [run,Promised,if_pos rfl]
      exact .inr ⟨answered,rfl⟩

theorem whole_unrefused (refused : Prop) (never : ¬ refused) :
    Whole m fails values refused failed ↔ Whole m fails values False failed := by
  constructor
  · intro whole
    cases whole with
    | refused asked => exact absurd asked never
    | nothing own kept => exact .nothing own kept
    | atOnce line first stuck => exact .atOnce line first stuck
    | all removable own answered => exact .all removable own answered
  · intro whole
    cases whole with
    | refused asked => exact asked.elim
    | nothing own kept => exact .nothing own kept
    | atOnce line first stuck => exact .atOnce line first stuck
    | all removable own answered => exact .all removable own answered

def EnableRefused (m : Machine) (fails : Call → Bool) (repo : Repo) : Prop := ∃ e, enableChecks m fails repo = .error e
def DisableRefused (fails : Call → Bool) (repo : Repo) : Prop := ∃ e, requireWorkTree fails repo = .error e

-- The include cannot be added.
def AddFails (fails : Call → Bool) (include_ : List UInt8) : Prop := fromUtf8 include_ = none ∨ fails .add = true

theorem add_exact (m : Machine) (fails : Call → Bool) (include_ : List UInt8) (values left : List Str) :
    Enabled m include_ values (addInclude fails include_ left) ↔
    (AddFails fails include_ ∧ left = values) ∨ (¬ AddFails fails include_ ∧ left = foreign m values) := by
  unfold addInclude AddFails
  cases read : fromUtf8 include_ with
  | none => simp [Enabled]
  | some value =>
    cases answer : fails .add with
    | true => simp [Enabled]
    | false =>
      simp only [reduceCtorEq,Bool.false_eq_true,or_self,false_and,not_false_eq_true,true_and,false_or,if_false]
      constructor
      · intro ⟨other,same,kept,_⟩
        cases read.symm.trans same
        exact List.append_cancel_right kept
      · intro same
        exact ⟨value,read,by rw [same],fun ours => same ▸ added_once ours values⟩

theorem enable_whole (m : Machine) (fails : Call → Bool) (include_ : List UInt8) (repo : Repo) :
    Enabled m include_ repo.includes (enableRepo m fails include_ repo) ↔
    Whole m fails repo.includes (EnableRefused m fails repo) (AddFails fails include_) := by
  unfold enableRepo EnableRefused
  cases enableChecks m fails repo with
  | error e => exact ⟨fun _ => .refused ⟨e,rfl⟩,fun _ => rfl⟩
  | ok _ =>
    rw [whole_unrefused _ nofun,← promised_exact]
    obtain ⟨done,left⟩ := includes_removed m fails repo.includes
    rw [Promised,← done,← left]
    cases removeRepoIncludes m fails repo.includes with
    | mk outcome after =>
      cases outcome with
      | error e => rfl
      | ok _ => exact add_exact m fails include_ repo.includes after

theorem disable_whole (m : Machine) (fails : Call → Bool) (repo : Repo) :
    Disabled m repo.includes (disableRepo m fails repo) ↔
    Whole m fails repo.includes (DisableRefused fails repo) False := by
  unfold disableRepo DisableRefused
  cases requireWorkTree fails repo with
  | error e => exact ⟨fun _ => .refused ⟨e,rfl⟩,fun _ => rfl⟩
  | ok _ =>
    rw [whole_unrefused _ nofun,← promised_exact]
    obtain ⟨done,left⟩ := includes_removed m fails repo.includes
    rw [Promised,← done,← left]
    cases removeRepoIncludes m fails repo.includes with
    | mk outcome after =>
      cases outcome with
      | error e => rfl
      | ok _ => simp [Disabled,Except.isOk,Except.toBool]

theorem includes_exact (m : Machine) (fails : Call → Bool) (repo : Repo) :
    (∀ include_, Enabled m include_ repo.includes (enableRepo m fails include_ repo) ↔
      Whole m fails repo.includes (EnableRefused m fails repo) (AddFails fails include_)) ∧
    (Disabled m repo.includes (disableRepo m fails repo) ↔
      Whole m fails repo.includes (DisableRefused fails repo) False) :=
  ⟨fun include_ => enable_whole m fails include_ repo,disable_whole m fails repo⟩

-- A value as a path is written: one line, with no blank at either end.
structure OneLine (v : Str) : Prop where
  some_ : v ≠ []
  trimmed : Trimmed v
  line : newline ∉ v

theorem lines_printed (each : ∀ v ∈ values, OneLine v) (some_ : values ≠ []) :
    ∃ printed, values.flatMap (· ++ [newline]) = printed ++ [newline] ∧ linesOf printed = values ∧ printed ≠ [] ∧
      Trimmed printed := by
  induction values with
  | nil => exact absurd rfl some_
  | cons v values ih =>
    have first := each v List.mem_cons_self
    cases values with
    | nil => exact ⟨v,by simp,linesOf_last first.some_ first.line,first.some_,first.trimmed⟩
    | cons next values =>
      obtain ⟨printed,same,back,full,trimmed⟩ := ih (fun v member => each v (List.mem_cons_of_mem _ member)) (List.cons_ne_nil _ _)
      refine ⟨v ++ newline :: printed,?_,?_,by simp,?_,?_⟩
      · rw [List.flatMap_cons,same]
        simp
      · rw [linesOf_line first.line,unreturned_visible first.trimmed.2,back]
      · intro c here
        refine first.trimmed.1 c ?_
        cases v with
        | nil => exact absurd rfl first.some_
        | cons d v => exact here
      · intro c here
        refine trimmed.2 c ?_
        rw [List.getLast?_append_of_ne_nil _ (List.cons_ne_nil _ _)] at here
        cases printed with
        | nil => exact absurd rfl full
        | cons d printed => rwa [List.getLast?_cons_cons] at here

theorem ownLines_plain (each : ∀ v ∈ values, OneLine v) (answered : fails .getAll = false) (m : Machine) :
    ownLines m fails values = values.filter (isOurInclude m) := by
  unfold ownLines getAll
  by_cases empty : values = []
  · simp [empty,gitOut]
  · obtain ⟨printed,same,back,full,trimmed⟩ := lines_printed each empty
    have out : gitOut (some (printed ++ [newline])) = some printed := by
      have blank : Blank [newline] := fun c member => List.mem_singleton.mp member ▸ blank_newline
      have cut : trim (printed ++ [newline]) = printed := (trim_append blank printed).trans (trim_self trimmed)
      simp [gitOut,cut,full]
    rw [if_neg (by simp [answered,empty]),same,out]
    dsimp only
    rw [back]
    have same_ : ∀ v ∈ values.filter (isOurInclude m), trim v = id v :=
      fun v member => trim_self (each v (List.mem_of_mem_filter member)).trimmed
    rw [List.map_congr_left same_,List.map_id]

-- An own value that stands twice breaks the promise, with every command answered.
theorem whole_distinct (each : ∀ v ∈ values, OneLine v) (answered : ∀ call, fails call = false) (m : Machine)
    (whole : Whole m fails values False failed) : (values.filter (isOurInclude m)).Nodup := by
  have own := ownLines_plain each (answered .getAll) m
  cases whole with
  | refused never => exact never.elim
  | nothing none_ _ => rw [← own,none_]; exact List.nodup_nil
  | atOnce line first stuck =>
    rw [own] at first
    have member := List.mem_of_mem_filter (List.mem_of_mem_head? first)
    cases stuck with
    | inl failed => simp [unsetFails,answered] at failed
    | inr absent => exact absurd member absent
  | all removable _ _ => exact own ▸ removable.distinct

-- Nothing else does.
theorem whole_plain (each : ∀ v ∈ values, OneLine v) (answered : ∀ call, fails call = false) (m : Machine) :
    Whole m fails values False False ↔ (values.filter (isOurInclude m)).Nodup := by
  have own := ownLines_plain each (answered .getAll) m
  refine ⟨whole_distinct each answered m,fun distinct => ?_⟩
  refine .all ⟨own ▸ distinct,?_,fun i _ => answered _⟩ ?_ id
  · exact fun line member => List.mem_of_mem_filter (own ▸ member)
  · exact fun v member ours => own ▸ List.mem_filter.mpr ⟨member,ours⟩

namespace Sample

def machine : Machine := ⟨some (text "/home/u"),some (text "/home/u/.config")⟩
def own : Str := text "/home/u/.config/did-git-sign/gitconfig/default.gitconfig"
def repo : Repo := ⟨some true,fun _ => none,[own,own]⟩

theorem own_line : OneLine own where
  some_ := by decide
  trimmed := trimmed_ends (c := '/') (d := 'g') (by decide) (by decide) (by decide) (by decide)
  line := by decide

theorem own_ours : isOurInclude machine own = true := by decide

theorem asked : enableChecks machine (fun _ => false) repo = .ok () := by decide

end Sample

-- The first removal takes both values, the second has nothing to take, and the
-- repository is left without signing.
theorem enable_twice : ¬ ∀ (m : Machine) (fails : Call → Bool) (include_ : List UInt8) (repo : Repo),
    Enabled m include_ repo.includes (enableRepo m fails include_ repo) := by
  intro always
  have whole : ∀ (m : Machine) (fails : Call → Bool) (include_ : List UInt8) (repo : Repo),
      Whole m fails repo.includes (EnableRefused m fails repo) (AddFails fails include_) :=
    fun m fails include_ repo => (enable_whole m fails include_ repo).mp (always m fails include_ repo)
  have free : ¬ EnableRefused Sample.machine (fun _ => false) Sample.repo := by
    intro refused
    obtain ⟨e,failed⟩ := refused
    rw [Sample.asked] at failed
    exact absurd failed nofun
  have each : ∀ v ∈ Sample.repo.includes, OneLine v := by
    intro v member
    have same : v = Sample.own := by simpa [Sample.repo] using member
    exact same ▸ Sample.own_line
  have distinct := whole_distinct each (fun _ => rfl) Sample.machine
    ((whole_unrefused _ free).mp (whole Sample.machine (fun _ => false) [] Sample.repo))
  have twice : Sample.repo.includes.filter (isOurInclude Sample.machine) = [Sample.own,Sample.own] := by
    rw [Sample.repo,List.filter_cons,if_pos Sample.own_ours,List.filter_cons,if_pos Sample.own_ours,List.filter_nil]
  rw [twice] at distinct
  exact (List.nodup_cons.mp distinct).1 List.mem_cons_self

end VerifiableGit.Signing
