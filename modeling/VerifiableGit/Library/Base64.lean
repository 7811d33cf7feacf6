import Mathlib.Algebra.Group.Nat.Defs
import Mathlib.Data.List.Basic

-- Base64 with the standard alphabet and padding, and big-endian lengths.
namespace VerifiableGit.Library.Base64

-- The character of a six-bit value.
def digit (n : Nat) : UInt8 :=
  if n < 26 then (65 + n).toUInt8
  else if n < 52 then (71 + n).toUInt8
  else if n < 62 then (n - 4).toUInt8
  else if n = 62 then 43
  else 47

def pad : UInt8 := 61

def triple (a b c : UInt8) : List UInt8 :=
  [digit (a.toNat / 4),digit (a.toNat % 4 * 16 + b.toNat / 16),digit (b.toNat % 16 * 4 + c.toNat / 64),digit (c.toNat % 64)]

def encode : List UInt8 → List UInt8
  | [] => []
  | [a] => [digit (a.toNat / 4),digit (a.toNat % 4 * 16),pad,pad]
  | [a,b] => [digit (a.toNat / 4),digit (a.toNat % 4 * 16 + b.toNat / 16),digit (b.toNat % 16 * 4),pad]
  | a :: b :: c :: rest => triple a b c ++ encode rest

def IsDigit (b : UInt8) : Prop := ∃ n < 64, b = digit n

def IsText (b : UInt8) : Prop := IsDigit b ∨ b = pad

theorem digit_inj : ∀ m < 64, ∀ n < 64, digit m = digit n → m = n := by decide +kernel

theorem digit_not_pad : ∀ n < 64, digit n ≠ pad := by decide

theorem byte_eq {a b : UInt8} (same : a.toNat = b.toNat) : a = b := UInt8.toNat_inj.mp same

theorem byte_below (a : UInt8) : a.toNat < 256 := a.toNat_lt

theorem triple_inj {a b c a' b' c' : UInt8} (same : triple a b c = triple a' b' c') : a = a' ∧ b = b' ∧ c = c' := by
  have ha := byte_below a; have hb := byte_below b; have hc := byte_below c
  have ha' := byte_below a'; have hb' := byte_below b'; have hc' := byte_below c'
  simp only [triple,List.cons.injEq,and_true] at same
  obtain ⟨one,two,three,four⟩ := same
  have first := digit_inj _ (by omega) _ (by omega) one
  have second := digit_inj _ (by omega) _ (by omega) two
  have third := digit_inj _ (by omega) _ (by omega) three
  have fourth := digit_inj _ (by omega) _ (by omega) four
  exact ⟨byte_eq (by omega),byte_eq (by omega),byte_eq (by omega)⟩

theorem single_inj {a a' : UInt8} (same : encode [a] = encode [a']) : a = a' := by
  have ha := byte_below a; have ha' := byte_below a'
  simp only [encode,List.cons.injEq,and_true] at same
  have first := digit_inj _ (by omega) _ (by omega) same.1
  have second := digit_inj _ (by omega) _ (by omega) same.2
  exact byte_eq (by omega)

theorem double_inj {a b a' b' : UInt8} (same : encode [a,b] = encode [a',b']) : a = a' ∧ b = b' := by
  have ha := byte_below a; have hb := byte_below b
  have ha' := byte_below a'; have hb' := byte_below b'
  simp only [encode,List.cons.injEq,and_true] at same
  obtain ⟨one,two,three⟩ := same
  have first := digit_inj _ (by omega) _ (by omega) one
  have second := digit_inj _ (by omega) _ (by omega) two
  have third := digit_inj _ (by omega) _ (by omega) three
  exact ⟨byte_eq (by omega),byte_eq (by omega)⟩

-- Where one text pads and the other does not.
theorem triple_unpadded (a b c : UInt8) (rest : List UInt8) :
    (triple a b c ++ rest)[2]? ≠ some pad ∧ (triple a b c ++ rest)[3]? ≠ some pad := by
  have hb := byte_below b; have hc := byte_below c
  constructor
  · intro same
    exact digit_not_pad _ (by omega) (Option.some.inj same)
  · intro same
    exact digit_not_pad _ (by omega) (Option.some.inj same)

theorem encode_inj (left right : List UInt8) (same : encode left = encode right) : left = right := by
  induction left using encode.induct generalizing right with
  | case1 =>
    rcases right with _ | ⟨a,_ | ⟨b,_ | ⟨c,rest⟩⟩⟩ <;> [rfl; cases same; cases same; cases same]
  | case2 a =>
    rcases right with _ | ⟨a',_ | ⟨b',_ | ⟨c',rest⟩⟩⟩
    · cases same
    · rw [single_inj same]
    · simp only [encode,List.cons.injEq,and_true] at same
      have bound := byte_below b'
      exact absurd same.2.2.symm (digit_not_pad _ (by omega))
    · exact absurd (congrArg (·[2]?) same.symm) (triple_unpadded a' b' c' (encode rest)).1
  | case3 a b =>
    rcases right with _ | ⟨a',_ | ⟨b',_ | ⟨c',rest⟩⟩⟩
    · cases same
    · simp only [encode,List.cons.injEq,and_true] at same
      have bound := byte_below b
      exact absurd same.2.2 (digit_not_pad _ (by omega))
    · obtain ⟨rfl,rfl⟩ := double_inj same
      rfl
    · exact absurd (congrArg (·[3]?) same.symm) (triple_unpadded a' b' c' (encode rest)).2
  | case4 a b c rest ih =>
    rcases right with _ | ⟨a',_ | ⟨b',_ | ⟨c',rest'⟩⟩⟩
    · cases same
    · exact absurd (congrArg (·[2]?) same) (triple_unpadded a b c (encode rest)).1
    · exact absurd (congrArg (·[3]?) same) (triple_unpadded a b c (encode rest)).2
    · obtain ⟨first,later⟩ := List.append_inj same rfl
      obtain ⟨rfl,rfl,rfl⟩ := triple_inj first
      rw [ih rest' later]

theorem encode_text (bytes : List UInt8) : ∀ b ∈ encode bytes, IsText b := by
  have of (n : Nat) (below : n < 64) : IsText (digit n) := .inl ⟨n,below,rfl⟩
  induction bytes using encode.induct with
  | case1 => exact fun b member => nomatch member
  | case2 a =>
    have ha := byte_below a
    simp only [encode,List.forall_mem_cons]
    exact ⟨of _ (by omega),of _ (by omega),.inr rfl,.inr rfl,fun b member => nomatch member⟩
  | case3 a b =>
    have ha := byte_below a; have hb := byte_below b
    simp only [encode,List.forall_mem_cons]
    exact ⟨of _ (by omega),of _ (by omega),of _ (by omega),.inr rfl,fun b member => nomatch member⟩
  | case4 a b c rest ih =>
    have ha := byte_below a; have hb := byte_below b; have hc := byte_below c
    simp only [encode,triple,List.forall_mem_append,List.forall_mem_cons]
    exact ⟨⟨of _ (by omega),of _ (by omega),of _ (by omega),of _ (by omega),fun b member => nomatch member⟩,ih⟩

-- A text is printed in ASCII, without white space or a dash.
theorem text_plain (b : UInt8) (text : IsText b) : 43 ≤ b ∧ b < 128 ∧ b ≠ 45 := by
  have each : ∀ n < 64, 43 ≤ digit n ∧ digit n < 128 ∧ digit n ≠ 45 := by decide
  rcases text with ⟨n,below,rfl⟩ | rfl
  · exact each n below
  · decide

-- `u32::to_be_bytes`.
def be32 (n : Nat) : List UInt8 :=
  [(n / 16777216 % 256).toUInt8,(n / 65536 % 256).toUInt8,(n / 256 % 256).toUInt8,(n % 256).toUInt8]

theorem low_byte {m n : Nat} (same : (m % 256).toUInt8 = (n % 256).toUInt8) : m % 256 = n % 256 := by
  have values := congrArg UInt8.toNat same
  simpa using values

theorem be32_inj {m n : Nat} (hm : m < 2 ^ 32) (hn : n < 2 ^ 32) (same : be32 m = be32 n) : m = n := by
  simp only [be32,List.cons.injEq,and_true] at same
  obtain ⟨one,two,three,four⟩ := same
  have first := low_byte one
  have second := low_byte two
  have third := low_byte three
  have fourth := low_byte four
  omega

end VerifiableGit.Library.Base64
