import VerifiableGit.Qualified.Resource

-- Texts cut to the length the wire types allow (vgi-bridge, wire.rs).
namespace VerifiableGit.Clip
open Qualified (Str text byteLength takeBytes)

inductive Panic where
  | slice
  | underflow
deriving DecidableEq

-- `str::is_char_boundary`: where a character starts, or the text ends.
def isCharBoundary : Str → Nat → Bool
  | _,0 => true
  | [],_ + 1 => false
  | c :: rest,n + 1 => c.utf8Size ≤ n + 1 && isCharBoundary rest (n + 1 - c.utf8Size)

-- `&s[..end]`
def sliceTo (s : Str) (end_ : Nat) : Except Panic Str :=
  if isCharBoundary s end_ then .ok (takeBytes end_ s) else .error .slice

-- `while !s.is_char_boundary(end) { end -= 1 }`
def backUp (s : Str) : Nat → Except Panic Nat
  | 0 => if isCharBoundary s 0 then .ok 0 else .error .underflow
  | n + 1 => if isCharBoundary s (n + 1) then .ok (n + 1) else backUp s n

def ellipsis : Str := text "…"

def clip (s : Str) (max : Nat) : Except Panic Str :=
  if byteLength s ≤ max then .ok s
  else do
    let end_ ← backUp s (max - 1)
    let head ← sliceTo s (end_ - 2)
    return head ++ ellipsis

def detailMax : Nat := 1024

def clipSome : Option Str → Except Panic (Option Str)
  | some s => do return some (← clip s detailMax)
  | none => .ok none

-- The texts of a job's report as its result carries them: each step's detail,
-- and the message of the error.
def resultTexts (details : List (Option Str)) (message : Option Str) : Except Panic (List (Option Str) × Option Str) := do
  let steps ← details.mapM clipSome
  return (steps,← clipSome message)

-- What a cut text is to be.
def Clipped (s : Str) (max : Nat) (result : Except Panic Str) : Prop :=
  ∃ out, result = .ok out ∧ byteLength out ≤ max ∧ (byteLength s ≤ max → out = s) ∧
    (max < byteLength s → ∃ kept, kept <+: s ∧ out = kept ++ ellipsis)

-- The text ends on a character of two bytes or on two characters of one byte,
-- or has no more than two bytes.
def EndsOnTwo (w : Str) : Prop :=
  byteLength w ≤ 2 ∨ (∃ front c, w = front ++ [c] ∧ c.utf8Size = 2) ∨
    ∃ front a b, w = front ++ [a,b] ∧ a.utf8Size = 1 ∧ b.utf8Size = 1

section
variable {s w : Str} {c : Char} {n : Nat}

@[simp] theorem byteLength_nil : byteLength [] = 0 := rfl

@[simp] theorem byteLength_cons (c : Char) (s : Str) : byteLength (c :: s) = c.utf8Size + byteLength s := by
  rw [byteLength,List.map_cons,List.sum_cons,byteLength]

@[simp] theorem byteLength_append (front s : Str) : byteLength (front ++ s) = byteLength front + byteLength s := by
  rw [byteLength,List.map_append,List.sum_append,byteLength,byteLength]

theorem boundary_cons : isCharBoundary (c :: s) n = true ↔ n = 0 ∨ c.utf8Size ≤ n ∧ isCharBoundary s (n - c.utf8Size) = true := by
  cases n with
  | zero => exact ⟨fun _ => .inl rfl,fun _ => rfl⟩
  | succ n =>
    rw [isCharBoundary,Bool.and_eq_true,decide_eq_true_iff]
    exact ⟨.inr,fun either => either.resolve_left (Nat.succ_ne_zero n)⟩

-- A boundary stands behind some characters of the text.
theorem boundary_exact : isCharBoundary s n = true ↔ ∃ front, front <+: s ∧ byteLength front = n := by
  induction s generalizing n with
  | nil =>
    cases n with
    | zero => exact ⟨fun _ => ⟨[],List.prefix_rfl,rfl⟩,fun _ => rfl⟩
    | succ n =>
      refine ⟨fun wrong => (by cases wrong),fun some_ => ?_⟩
      obtain ⟨front,start,long⟩ := some_
      rw [List.prefix_nil.mp start] at long
      cases long
  | cons c s ih =>
    rw [boundary_cons,ih]
    constructor
    · intro either
      cases either with
      | inl zero => exact ⟨[],List.nil_prefix,zero.symm⟩
      | inr later =>
        obtain ⟨fits,front,start,long⟩ := later
        exact ⟨c :: front,List.cons_prefix_cons.mpr ⟨rfl,start⟩,by rw [byteLength_cons,long]; omega⟩
    · intro some_
      obtain ⟨front,start,long⟩ := some_
      cases front with
      | nil => exact .inl long.symm
      | cons d front =>
        obtain ⟨same,tail⟩ := List.cons_prefix_cons.mp start
        subst same
        rw [byteLength_cons] at long
        exact .inr ⟨by omega,front,tail,by omega⟩

theorem takeBytes_start (n : Nat) (s : Str) : takeBytes n s <+: s := by
  induction s generalizing n with
  | nil => exact List.nil_prefix
  | cons c s ih =>
    rw [takeBytes]
    split
    · exact List.cons_prefix_cons.mpr ⟨rfl,ih _⟩
    · exact List.nil_prefix

theorem takeBytes_fits (n : Nat) (s : Str) : byteLength (takeBytes n s) ≤ n := by
  induction s generalizing n with
  | nil => exact Nat.zero_le n
  | cons c s ih =>
    rw [takeBytes]
    split
    · have rest := ih (n - c.utf8Size)
      rw [byteLength_cons]
      omega
    · exact Nat.zero_le n

-- Whatever else fits is among them.
theorem takeBytes_most {front : Str} (start : front <+: s) (fits : byteLength front ≤ n) : front <+: takeBytes n s := by
  induction s generalizing n front with
  | nil => exact start
  | cons c s ih =>
    cases front with
    | nil => exact List.nil_prefix
    | cons d front =>
      obtain ⟨same,tail⟩ := List.cons_prefix_cons.mp start
      subst same
      rw [byteLength_cons] at fits
      rw [takeBytes,if_pos (by omega)]
      exact List.cons_prefix_cons.mpr ⟨rfl,ih tail (by omega)⟩

theorem byteLength_start {front : Str} (start : front <+: s) : byteLength front ≤ byteLength s := by
  obtain ⟨rest,whole⟩ := start
  rw [← whole,byteLength_append]
  exact Nat.le_add_right _ _

-- The loop stops behind the last character that fits, never below the start.
theorem backUp_exact (s : Str) (n : Nat) : backUp s n = .ok (byteLength (takeBytes n s)) := by
  induction n with
  | zero =>
    have empty : byteLength (takeBytes 0 s) = 0 := Nat.le_zero.mp (takeBytes_fits 0 s)
    have start : isCharBoundary s 0 = true := boundary_exact.mpr ⟨[],List.nil_prefix,rfl⟩
    rw [backUp,if_pos start,empty]
  | succ n ih =>
    rw [backUp]
    cases here : isCharBoundary s (n + 1) with
    | true =>
      obtain ⟨front,start,long⟩ := boundary_exact.mp here
      have most := byteLength_start (takeBytes_most start (Nat.le_of_eq long))
      rw [if_pos rfl,Nat.le_antisymm (takeBytes_fits (n + 1) s) (long ▸ most)]
    | false =>
      rw [if_neg Bool.false_ne_true,ih]
      have lower : byteLength (takeBytes (n + 1) s) ≤ n := by
        have fits := takeBytes_fits (n + 1) s
        have other : byteLength (takeBytes (n + 1) s) ≠ n + 1 := fun same =>
          Bool.false_ne_true (here.symm.trans (boundary_exact.mpr ⟨_,takeBytes_start (n + 1) s,same⟩))
        omega
      have one := byteLength_start (takeBytes_most (takeBytes_start (n + 1) s) lower)
      have two := byteLength_start (takeBytes_most (takeBytes_start n s) (Nat.le_succ_of_le (takeBytes_fits n s)))
      rw [Nat.le_antisymm two one]

theorem two_bytes (tail : Str) (long : byteLength tail = 2) :
    (∃ c, tail = [c] ∧ c.utf8Size = 2) ∨ ∃ a b, tail = [a,b] ∧ a.utf8Size = 1 ∧ b.utf8Size = 1 := by
  cases tail with
  | nil => cases long
  | cons a rest =>
    have first := a.utf8Size_pos
    cases rest with
    | nil => exact .inl ⟨a,rfl,long⟩
    | cons b rest =>
      have second := b.utf8Size_pos
      rw [byteLength_cons,byteLength_cons] at long
      cases rest with
      | nil =>
        rw [byteLength_nil] at long
        exact .inr ⟨a,b,rfl,by omega,by omega⟩
      | cons d rest =>
        have third := d.utf8Size_pos
        rw [byteLength_cons] at long
        omega

-- Two bytes before the end of some characters of the text.
theorem boundary_back (start : w <+: s) : isCharBoundary s (byteLength w - 2) = true ↔ EndsOnTwo w := by
  rw [boundary_exact]
  constructor
  · intro some_
    obtain ⟨front,start',long⟩ := some_
    by_cases short : byteLength w ≤ 2
    · exact .inl short
    · refine .inr ?_
      have inside : front <+: w := by
        cases List.prefix_or_prefix_of_prefix start' start with
        | inl inside => exact inside
        | inr outside =>
          have more := byteLength_start outside
          omega
      obtain ⟨tail,whole⟩ := inside
      rw [← whole,byteLength_append] at long short
      obtain ⟨c,same,two⟩ | ⟨a,b,same,one,one'⟩ := two_bytes tail (by omega)
      · exact .inl ⟨front,c,by rw [← whole,same],two⟩
      · exact .inr ⟨front,a,b,by rw [← whole,same],one,one'⟩
  · intro ends
    obtain short | ⟨front,c,whole,two⟩ | ⟨front,a,b,whole,one,one'⟩ := ends
    · exact ⟨[],List.nil_prefix,by rw [byteLength_nil]; omega⟩
    · rw [whole] at start
      refine ⟨front,(List.prefix_append _ _).trans start,?_⟩
      rw [whole,byteLength_append,byteLength_cons,byteLength_nil,two]
      omega
    · rw [whole] at start
      refine ⟨front,(List.prefix_append _ _).trans start,?_⟩
      rw [whole,byteLength_append,byteLength_cons,byteLength_cons,byteLength_nil,one,one']
      omega

theorem clip_long (s : Str) (max : Nat) (long : max < byteLength s) : clip s max =
    if isCharBoundary s (byteLength (takeBytes (max - 1) s) - 2) then
      .ok (takeBytes (byteLength (takeBytes (max - 1) s) - 2) s ++ ellipsis)
    else .error .slice := by
  rw [clip,if_neg (Nat.not_le.mpr long),backUp_exact]
  simp only [bind,Except.bind,pure,Except.pure,sliceTo]
  cases isCharBoundary s (byteLength (takeBytes (max - 1) s) - 2) <;> rfl

-- The text fits, or the characters that fit whole into one byte less than
-- allowed end on two bytes that can go.
def Cuts (s : Str) (max : Nat) : Prop := byteLength s ≤ max ∨ EndsOnTwo (takeBytes (max - 1) s)

theorem clip_cuts (s : Str) (max : Nat) : (∃ out, clip s max = .ok out) ↔ Cuts s max := by
  by_cases fits : byteLength s ≤ max
  · exact ⟨fun _ => .inl fits,fun _ => ⟨s,if_pos fits⟩⟩
  · rw [clip_long s max (Nat.lt_of_not_le fits),Cuts,← boundary_back (takeBytes_start (max - 1) s)]
    cases isCharBoundary s (byteLength (takeBytes (max - 1) s) - 2) with
    | true => exact ⟨fun _ => .inr rfl,fun _ => ⟨_,rfl⟩⟩
    | false =>
      refine ⟨fun some_ => ?_,fun either => absurd (either.resolve_left fits) Bool.false_ne_true⟩
      obtain ⟨_,result⟩ := some_
      cases result

theorem ascii_cuts (s : Str) (max : Nat) (ascii : ∀ c ∈ s, c.utf8Size = 1) : Cuts s max := by
  refine .inr ?_
  have inside : ∀ c ∈ takeBytes (max - 1) s, c.utf8Size = 1 := fun c member => ascii c ((takeBytes_start _ s).subset member)
  cases last : (takeBytes (max - 1) s).reverse with
  | nil => exact .inl (by rw [List.reverse_eq_nil_iff.mp last]; exact Nat.zero_le 2)
  | cons b rest =>
    have whole := List.reverse_eq_cons_iff.mp last
    cases rest with
    | nil =>
      have one : b.utf8Size = 1 := inside b (by rw [whole]; simp)
      exact .inl (by rw [whole]; simp [one])
    | cons a rest =>
      rw [List.reverse_cons,List.append_assoc,List.singleton_append] at whole
      exact .inr (.inr ⟨rest.reverse,a,b,whole,inside a (by rw [whole]; simp),inside b (by rw [whole]; simp)⟩)

theorem clipSome_cuts (s : Option Str) : (∃ out, clipSome s = .ok out) ↔ ∀ t ∈ s, Cuts t detailMax := by
  cases s with
  | none => exact ⟨fun _ t none_ => (by cases none_),fun _ => ⟨none,rfl⟩⟩
  | some t =>
    have only : (∀ u ∈ some t, Cuts u detailMax) ↔ Cuts t detailMax := by simp
    rw [only,← clip_cuts,clipSome]
    cases clip t detailMax with
    | error e =>
      refine ⟨fun some_ => ?_,fun some_ => ?_⟩ <;>
        obtain ⟨_,result⟩ := some_ <;> cases result
    | ok out => exact ⟨fun _ => ⟨out,rfl⟩,fun _ => ⟨some out,rfl⟩⟩

theorem mapM_clips (details : List (Option Str)) :
    (∃ outs, details.mapM clipSome = .ok outs) ↔ ∀ d ∈ details, ∃ out, clipSome d = .ok out := by
  induction details with
  | nil => exact ⟨fun _ d none_ => (by cases none_),fun _ => ⟨[],rfl⟩⟩
  | cons d rest ih =>
    rw [List.forall_mem_cons,← ih,List.mapM_cons]
    cases clipSome d with
    | error e =>
      refine ⟨fun some_ => ?_,fun both => ?_⟩
      · obtain ⟨_,result⟩ := some_
        cases result
      · obtain ⟨_,result⟩ := both.1
        cases result
    | ok out =>
      refine ⟨fun some_ => ⟨⟨out,rfl⟩,?_⟩,fun both => ?_⟩
      · obtain ⟨outs,result⟩ := some_
        cases later : rest.mapM clipSome with
        | error e =>
          rw [later] at result
          cases result
        | ok outs => exact ⟨outs,rfl⟩
      · obtain ⟨outs,later⟩ := both.2
        rw [later]
        exact ⟨_,rfl⟩

-- One text that is not cut loses the whole result.
theorem texts_exact (details : List (Option Str)) (message : Option Str) : (∃ texts, resultTexts details message = .ok texts) ↔
    (∀ d ∈ details, ∀ t ∈ d, Cuts t detailMax) ∧ ∀ t ∈ message, Cuts t detailMax := by
  rw [← clipSome_cuts,← forall₂_congr fun d (_ : d ∈ details) => clipSome_cuts d,← mapM_clips,resultTexts]
  cases details.mapM clipSome with
  | error e =>
    refine ⟨fun some_ => ?_,fun both => ?_⟩
    · obtain ⟨_,result⟩ := some_
      cases result
    · obtain ⟨_,result⟩ := both.1
      cases result
  | ok steps =>
    cases clipSome message with
    | error e =>
      refine ⟨fun some_ => ?_,fun both => ?_⟩
      · obtain ⟨_,result⟩ := some_
        cases result
      · obtain ⟨_,result⟩ := both.2
        cases result
    | ok m => exact ⟨fun _ => ⟨⟨steps,rfl⟩,m,rfl⟩,fun _ => ⟨(steps,m),rfl⟩⟩

theorem ellipsis_bytes : byteLength ellipsis = 3 := by decide

theorem clip_exact (s : Str) (max : Nat) (room : 3 ≤ max) : Clipped s max (clip s max) ↔ Cuts s max := by
  by_cases fits : byteLength s ≤ max
  · refine ⟨fun _ => .inl fits,fun _ => ⟨s,if_pos fits,fits,fun _ => rfl,fun long => absurd fits (Nat.not_le.mpr long)⟩⟩
  · have long := Nat.lt_of_not_le fits
    have back := boundary_back (takeBytes_start (max - 1) s)
    rw [clip_long s max long,Cuts,← back]
    constructor
    · intro clipped
      obtain ⟨out,result,_⟩ := clipped
      split at result
      · exact .inr (by assumption)
      · cases result
    · intro either
      have here := either.resolve_left fits
      rw [if_pos here]
      refine ⟨_,rfl,?_,fun short => absurd short fits,fun _ => ⟨_,takeBytes_start _ s,rfl⟩⟩
      have last := takeBytes_fits (max - 1) s
      have kept := takeBytes_fits (byteLength (takeBytes (max - 1) s) - 2) s
      rw [byteLength_append,ellipsis_bytes]
      omega

theorem clip_exact_accents : Clipped (text "éééé") 5 (clip (text "éééé") 5) :=
  (clip_exact (text "éééé") 5 (by decide)).mpr (.inr (.inr (.inl ⟨text "é",'é',by decide,by decide⟩)))

-- A detail of 1026 bytes, all of its characters three bytes long.
theorem clip_wide : ¬Clipped (List.replicate 342 '€') detailMax (clip (List.replicate 342 '€') detailMax) := by
  have panics : clip (List.replicate 342 '€') detailMax = .error .slice := by decide +kernel
  intro clipped
  obtain ⟨_,result,_⟩ := clipped
  rw [panics] at result
  cases result

end

end VerifiableGit.Clip
