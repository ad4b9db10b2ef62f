import MessageMapping.Proofs.NumericOrder
import MessageMapping.Value.Arithmetic

/-!
# Arithmetic on integers

`Operator.Exact` says what an operator gives on two integers, division truncating toward zero.
Integers that meet in one integer subtype give that result whenever some subtype of the lattice
holds it, and the binary64 operation on the converted operands otherwise (`arithmetic_integers`).
One result misses a subtype that would hold it: a remainder of signed integers is only taken
together with its quotient, and the quotient of `-2 ^ 63` and `-1` does not fit
(`arithmetic_remainder_iff`).
-/

namespace MessageMapping

/-! ### Exact results -/

/-- Division truncated toward zero: the remainder is smaller than the divisor, and it is zero or
has the sign of the dividend. -/
structure Truncated (m n quotient remainder : Int) : Prop where
  eq : m = n * quotient + remainder
  lt : remainder.natAbs < n.natAbs
  sign : remainder = 0 ∨ (0 < m ∧ 0 < remainder) ∨ (m < 0 ∧ remainder < 0)

theorem truncated_tdiv (m : Int) {n : Int} (hn : n ≠ 0) : Truncated m n (m.tdiv n) (m.tmod n) where
  eq := (Int.mul_tdiv_add_tmod m n).symm
  lt := by
    rw [Int.natAbs_tmod]
    exact Nat.mod_lt _ (Int.natAbs_pos.2 hn)
  sign := by
    rcases lt_trichotomy m 0 with hm | rfl | hm
    · have hneg := Int.tmod_nonneg n (show 0 ≤ -m by omega)
      rw [Int.neg_tmod] at hneg
      omega
    · exact .inl (Int.zero_tmod n)
    · have hpos := Int.tmod_nonneg n hm.le
      omega

/-- Quotient and remainder are the only ones. -/
theorem Truncated.eq_tdiv {m n q r : Int} (h : Truncated m n q r) :
    n ≠ 0 ∧ q = m.tdiv n ∧ r = m.tmod n := by
  have hn : n ≠ 0 := by
    have := h.lt
    omega
  have ht := truncated_tdiv m hn
  have hsum : n * (q - m.tdiv n) = m.tmod n - r := by
    rw [Int.mul_sub]
    have := h.eq
    have := ht.eq
    omega
  -- both remainders are on one side of zero, so their difference is smaller than the divisor
  have hr : m.tmod n - r = 0 := by
    refine Int.eq_zero_of_dvd_of_natAbs_lt_natAbs ⟨_, hsum.symm⟩ ?_
    have := h.lt
    have := ht.lt
    have := h.sign
    have := ht.sign
    omega
  rw [hr, Int.mul_eq_zero] at hsum
  exact ⟨hn, by omega, by omega⟩

/-- What an operator of arithmetic gives on two integers. -/
inductive Operator.Exact : Operator → Int → Int → Int → Prop
  | add (m n : Int) : Exact .add m n (m + n)
  | sub (m n : Int) : Exact .sub m n (m - n)
  | mul (m n : Int) : Exact .mul m n (m * n)
  | div {m n q r : Int} (h : Truncated m n q r) : Exact .div m n q
  | mod {m n q r : Int} (h : Truncated m n q r) : Exact .mod m n r

/-- The operators of arithmetic. -/
def Operator.arithmetical : List Operator :=
  [add, sub, mul, div, mod]

theorem Operator.exists_onInts {op : Operator} (hop : op ∈ arithmetical) (m : Int) {n : Int}
    (hzero : op = .div ∨ op = .mod → n ≠ 0) :
    ∃ z, op.onInts m n = some z ∧ ∀ z', op.Exact m n z' ↔ z' = z := by
  simp only [arithmetical, List.mem_cons, List.not_mem_nil, or_false] at hop
  rcases hop with rfl | rfl | rfl | rfl | rfl
  · exact ⟨_, rfl, fun z' => ⟨fun h => by cases h; rfl, fun h => h ▸ .add m n⟩⟩
  · exact ⟨_, rfl, fun z' => ⟨fun h => by cases h; rfl, fun h => h ▸ .sub m n⟩⟩
  · exact ⟨_, rfl, fun z' => ⟨fun h => by cases h; rfl, fun h => h ▸ .mul m n⟩⟩
  · have ht := truncated_tdiv m (hzero (.inl rfl))
    refine ⟨_, rfl, fun z' => ⟨fun h => ?_, fun h => h ▸ .div ht⟩⟩
    cases h with | div h
    exact h.eq_tdiv.2.1
  · have ht := truncated_tdiv m (hzero (.inr rfl))
    refine ⟨_, rfl, fun z' => ⟨fun h => ?_, fun h => h ▸ .mod ht⟩⟩
    cases h with | mod h
    exact h.eq_tdiv.2.2

/-! ### Subtypes -/

namespace Numeric

def isSigned : Numeric → Bool
  | int _ => true
  | _ => false

/-- The signed number of this value. -/
def IsInt (r : Numeric) (z : Int) : Prop :=
  ∃ i : Int64, r = int i ∧ i.toInt = z

/-- The unsigned number of this value. -/
def IsUint (r : Numeric) (z : Int) : Prop :=
  ∃ u : UInt64, r = uint u ∧ (u.toNat : Int) = z

/-- `r` is the exact result `z` of signed integers if it fits, and the approximation if not. -/
def SignedResult (z : Int) (approximation : Double) (r : Numeric) : Prop :=
  if -2 ^ 63 ≤ z ∧ z < 2 ^ 63 then r.IsInt z else r = float approximation

/-- The same if one of the integers is unsigned; then only negative results are signed. -/
def UnsignedResult (z : Int) (approximation : Double) (r : Numeric) : Prop :=
  if 0 ≤ z ∧ z < 2 ^ 64 then r.IsUint z
  else if -2 ^ 63 ≤ z ∧ z < 0 then r.IsInt z
  else r = float approximation

theorem signed?_of_fits {z : Int} (h : -2 ^ 63 ≤ z ∧ z < 2 ^ 63) :
    ∃ r, signed? z = some r ∧ r.IsInt z :=
  ⟨_, if_pos h, _, rfl, Int64.toInt_ofInt_of_le h.1 h.2⟩

theorem unsigned?_of_fits {z : Int} (h : 0 ≤ z ∧ z < 2 ^ 64) :
    ∃ r, unsigned? z = some r ∧ r.IsUint z := by
  refine ⟨_, if_pos h, _, rfl, ?_⟩
  rw [UInt64.toNat_ofNat']
  omega

theorem signedResult_getD (z : Int) (approximation : Double) :
    SignedResult z approximation ((signed? z).getD (float approximation)) := by
  unfold SignedResult
  split
  · rename_i h
    obtain ⟨r, hr, hz⟩ := signed?_of_fits h
    rw [hr]
    exact hz
  · rename_i h
    rw [signed?, if_neg h]
    rfl

theorem unsignedResult_getD (z : Int) (approximation : Double) :
    UnsignedResult z approximation
      (((unsigned? z).or (signed? z)).getD (float approximation)) := by
  unfold UnsignedResult
  split
  · rename_i h
    obtain ⟨r, hr, hz⟩ := unsigned?_of_fits h
    rw [hr]
    exact hz
  · rename_i h
    rw [unsigned?, if_neg h, Option.none_or]
    have hsigned := signedResult_getD z approximation
    unfold SignedResult at hsigned
    split
    · rwa [if_pos (by omega)] at hsigned
    · rwa [if_neg (by omega)] at hsigned

/-! ### Pairs of operands -/

variable {x y : Numeric} {m n : Int}

theorem ofPair_signed (hx : x.integer? = some m) (hy : y.integer? = some n)
    (hsigned : x.isSigned = true ∧ y.isSigned = true) :
    ∃ a b, Operands.ofPair x y = .ints a b ∧ a.toInt = m ∧ b.toInt = n := by
  obtain ⟨hsx, hsy⟩ := hsigned
  cases x with
  | int a =>
    cases y with
    | int b => exact ⟨a, b, rfl, Option.some.inj hx, Option.some.inj hy⟩
    | _ => cases hsy
  | _ => cases hsx

/-- A signed integer that is not negative, as an unsigned one. -/
theorem toNat_ofNat_toInt {a : Int64} (ha : 0 ≤ a.toInt) :
    ((UInt64.ofNat a.toInt.toNat).toNat : Int) = a.toInt := by
  have := a.toInt_lt
  rw [UInt64.toNat_ofNat']
  omega

theorem ofPair_unsigned (hx : x.integer? = some m) (hy : y.integer? = some n)
    (hunsigned : ¬ (x.isSigned = true ∧ y.isSigned = true)) (hm : 0 ≤ m) (hn : 0 ≤ n) :
    ∃ a b, Operands.ofPair x y = .uints a b ∧ (a.toNat : Int) = m ∧ (b.toNat : Int) = n := by
  cases x with
  | float d => cases hx
  | int a =>
    obtain rfl := Option.some.inj hx
    cases y with
    | float d => cases hy
    | int b => exact absurd ⟨rfl, rfl⟩ hunsigned
    | uint b => exact ⟨_, b, if_pos hm, toNat_ofNat_toInt hm, Option.some.inj hy⟩
  | uint a =>
    cases y with
    | float d => cases hy
    | int b =>
      obtain rfl := Option.some.inj hy
      exact ⟨a, _, if_pos hn, Option.some.inj hx, toNat_ofNat_toInt hn⟩
    | uint b => exact ⟨a, b, rfl, Option.some.inj hx, Option.some.inj hy⟩

theorem toDoubles_ints {a b : Int64} (hx : x.integer? = some a.toInt)
    (hy : y.integer? = some b.toInt) :
    (Operands.ints a b).toDoubles = (x.toDouble, y.toDouble) := by
  rw [toDouble_of_integer? hx, toDouble_of_integer? hy]
  rfl

theorem toDoubles_uints {a b : UInt64} (hx : x.integer? = some (a.toNat : Int))
    (hy : y.integer? = some (b.toNat : Int)) :
    (Operands.uints a b).toDoubles = (x.toDouble, y.toDouble) := by
  have ha : (uint a).toDouble = _ := toDouble_of_integer? rfl
  have hb : (uint b).toDouble = _ := toDouble_of_integer? rfl
  rw [toDouble_of_integer? hx, toDouble_of_integer? hy, ← ha, ← hb]
  rfl

theorem rightIsZero_ints {a b : Int64} (hb : b.toInt ≠ 0) :
    (Operands.ints a b).rightIsZero = false := by
  refine beq_eq_false_iff_ne.2 ?_
  rintro rfl
  exact hb rfl

theorem rightIsZero_uints {a b : UInt64} (hb : (b.toNat : Int) ≠ 0) :
    (Operands.uints a b).rightIsZero = false := by
  refine beq_eq_false_iff_ne.2 ?_
  rintro rfl
  exact hb rfl

/-- Unless it divides by zero, arithmetic has a result. -/
theorem arithmetic_of_ne_zero {op : Operator} {operands : Operands}
    (hpair : Operands.ofPair x y = operands)
    (hzero : op = .div ∨ op = .mod → operands.rightIsZero = false)
    (hdoubles : operands.toDoubles = (x.toDouble, y.toDouble)) :
    Value.arithmetic op (.number x) (.number y) =
      .ok (.number ((integral? op operands).getD
        (float (op.onDoubles x.toDouble y.toDouble)))) := by
  have hcond : ¬ ((op = .div ∨ op = .mod) ∧ operands.rightIsZero = true) := by
    rintro ⟨hop, hright⟩
    rw [hzero hop] at hright
    cases hright
  simp only [Value.arithmetic, arithmetic, hpair, if_neg hcond, hdoubles]
  rfl

end Numeric

/-! ### Results -/

namespace Value

open Numeric

/-- Arithmetic on two integers, of which none is negative if one is unsigned, is exact whenever a
subtype holds the result; it never wraps around and never fails. A remainder of two signed
integers is left out. -/
theorem arithmetic_integers {op : Operator} {x y : Numeric} {m n : Int}
    (hop : op ∈ Operator.arithmetical) (hx : x.integer? = some m) (hy : y.integer? = some n)
    (hmeet : x.isSigned = true ∧ y.isSigned = true ∨ 0 ≤ m ∧ 0 ≤ n)
    (hzero : op = .div ∨ op = .mod → n ≠ 0)
    (hmod : op = .mod → ¬ (x.isSigned = true ∧ y.isSigned = true)) :
    ∃ z r, (∀ z', op.Exact m n z' ↔ z' = z) ∧
      arithmetic op (.number x) (.number y) = .ok (.number r) ∧
      let approximation := op.onDoubles x.toDouble y.toDouble
      (x.isSigned = true ∧ y.isSigned = true → SignedResult z approximation r) ∧
      (¬ (x.isSigned = true ∧ y.isSigned = true) → UnsignedResult z approximation r) := by
  obtain ⟨z, hz, hexact⟩ := Operator.exists_onInts hop m hzero
  by_cases hsigned : x.isSigned = true ∧ y.isSigned = true
  · obtain ⟨a, b, hpair, rfl, rfl⟩ := ofPair_signed hx hy hsigned
    have hresult := arithmetic_of_ne_zero hpair (fun h => rightIsZero_ints (hzero h))
      (toDoubles_ints hx hy)
    have hintegral : integral? op (.ints a b) = signed? z := by
      have hne : op ≠ .mod := fun h => hmod h hsigned
      simp [integral?, hne, hz]
    rw [hintegral] at hresult
    exact ⟨z, _, hexact, hresult, fun _ => signedResult_getD _ _, fun h => absurd hsigned h⟩
  · obtain ⟨hm, hn⟩ := hmeet.resolve_left hsigned
    obtain ⟨a, b, hpair, rfl, rfl⟩ := ofPair_unsigned hx hy hsigned hm hn
    have hresult := arithmetic_of_ne_zero hpair (fun h => rightIsZero_uints (hzero h))
      (toDoubles_uints hx hy)
    have hintegral : integral? op (.uints a b) = (unsigned? z).or (signed? z) := by
      simp [integral?, hz]
    rw [hintegral] at hresult
    exact ⟨z, _, hexact, hresult, fun h => absurd h hsigned, fun _ => unsignedResult_getD _ _⟩

/-- The least signed integer comes out of a difference below zero exactly. -/
theorem arithmetic_integers_least :
    (Numeric.int 1).integer? = some 1 ∧
      (Numeric.uint 9223372036854775809).integer? = some 9223372036854775809 ∧
      arithmetic .sub (.number (.int 1)) (.number (.uint 9223372036854775809)) =
        .ok (.number (.int Int64.minValue)) := by
  have hx : (Numeric.int 1).integer? = some 1 := rfl
  have hy : (Numeric.uint 9223372036854775809).integer? = some 9223372036854775809 := rfl
  obtain ⟨z, r, hexact, hresult, -, hunsigned⟩ :=
    @arithmetic_integers .sub _ _ _ _ (by decide) hx hy (by decide) (by decide) (by decide)
  obtain rfl := (hexact _).1 (.sub _ _)
  obtain ⟨i, rfl, hi⟩ : r.IsInt (1 - 9223372036854775809) := hunsigned (by decide)
  obtain rfl : i = Int64.minValue := Int64.toInt_inj.1 hi
  exact ⟨hx, hy, hresult⟩

/-! ### Remainders of signed integers -/

theorem quotient_fits_iff {m n : Int} (hm : -2 ^ 63 ≤ m ∧ m < 2 ^ 63) (hn : n ≠ 0) :
    -2 ^ 63 ≤ m.tdiv n ∧ m.tdiv n < 2 ^ 63 ↔ ¬ (m = -2 ^ 63 ∧ n = -1) := by
  by_cases hone : n.natAbs = 1
  · rcases Int.natAbs_eq_iff.1 hone with rfl | rfl
    · rw [Nat.cast_one, Int.tdiv_one]
      omega
    · rw [Nat.cast_one, Int.tdiv_neg, Int.tdiv_one]
      omega
  · have habs : (m.tdiv n).natAbs = m.natAbs / n.natAbs := Int.natAbs_tdiv m n
    have hhalf : m.natAbs / n.natAbs ≤ m.natAbs / 2 := Nat.div_le_div_left (by omega) (by decide)
    omega

theorem integral?_mod (a b : Int64) :
    integral? .mod (.ints a b) =
      (signed? (a.toInt.tdiv b.toInt)).bind fun _ => signed? (a.toInt.tmod b.toInt) := by
  simp [integral?, Operator.onInts]

/-- The quotient `2 ^ 63` does not fit, so its remainder `0` is computed in binary64. -/
theorem arithmetic_mod_minValue :
    arithmetic .mod (.number (.int Int64.minValue)) (.number (.int (-1))) =
      .ok (.number (.float (.zero true))) :=
  congrArg (fun x => Except.ok (number (float x))) (by decide +kernel)

/-- The remainder of two signed integers is signed, unless their quotient overflows; then it is the
float `-0` in place of the integer `0`. -/
theorem arithmetic_remainder_iff (a b : Int64) (hb : b ≠ 0) :
    ∃ (q : Int) (r : Int64), Truncated a.toInt b.toInt q r.toInt ∧
      (arithmetic .mod (.number (.int a)) (.number (.int b)) = .ok (.number (.int r)) ↔
        ¬ (a = Int64.minValue ∧ b = -1)) ∧
      (a = Int64.minValue ∧ b = -1 → r = 0 ∧
        arithmetic .mod (.number (.int a)) (.number (.int b)) =
          .ok (.number (.float (.zero true)))) := by
  have hn : b.toInt ≠ 0 := fun h => hb (Int64.toInt_inj.1 h)
  have ht := truncated_tdiv a.toInt hn
  have hfits : -2 ^ 63 ≤ a.toInt.tmod b.toInt ∧ a.toInt.tmod b.toInt < 2 ^ 63 := by
    have := ht.lt
    have := b.le_toInt
    have := b.toInt_lt
    omega
  obtain ⟨_, hsigned, r, rfl, hr⟩ := signed?_of_fits hfits
  rw [← hr] at ht
  refine ⟨_, r, ht, ⟨?_, fun h => ?_⟩, ?_⟩
  · rintro h ⟨rfl, rfl⟩
    rw [arithmetic_mod_minValue] at h
    cases h
  · have hquotient : ¬ (a.toInt = -2 ^ 63 ∧ b.toInt = -1) := fun ⟨ha, hb⟩ =>
      h ⟨Int64.toInt_inj.1 ha, Int64.toInt_inj.1 hb⟩
    obtain ⟨q, hq, -⟩ := signed?_of_fits
      ((quotient_fits_iff ⟨a.le_toInt, a.toInt_lt⟩ hn).2 hquotient)
    have hpair : Operands.ofPair (int a) (int b) = .ints a b := rfl
    rw [arithmetic_of_ne_zero hpair (fun _ => rightIsZero_ints hn) (toDoubles_ints rfl rfl),
      integral?_mod, hq, Option.bind_some, hsigned]
    rfl
  · rintro ⟨rfl, rfl⟩
    refine ⟨Int64.toInt_inj.1 ?_, arithmetic_mod_minValue⟩
    rw [hr]
    decide

/-- Remainders of a negative dividend and of the least integer. -/
theorem arithmetic_remainder_iff_negative :
    ((3 : Int64) ≠ 0 ∧
      arithmetic .mod (.number (.int (-7))) (.number (.int 3)) = .ok (.number (.int (-1)))) ∧
    (-1 : Int64) ≠ 0 ∧
      arithmetic .mod (.number (.int Int64.minValue)) (.number (.int (-1))) =
        .ok (.number (.float (.zero true))) := by
  have h3 : (3 : Int64) ≠ 0 := by decide
  have h1 : (-1 : Int64) ≠ 0 := by decide
  obtain ⟨q, r, ht, hiff, -⟩ := arithmetic_remainder_iff (-7) 3 h3
  obtain ⟨_, _, -, -, hleast⟩ := arithmetic_remainder_iff Int64.minValue (-1) h1
  obtain rfl : r = -1 := Int64.toInt_inj.1 ht.eq_tdiv.2.2
  exact ⟨⟨h3, hiff.2 (by decide)⟩, h1, (hleast ⟨rfl, rfl⟩).2⟩

/-- The remainder of `-2 ^ 63` and `-1` is `0`, which a signed integer holds, but no signed integer
comes out. -/
theorem remainder_not_signed :
    ¬ ∀ a b : Int64, b ≠ 0 → ∃ (q : Int) (r : Int64), Truncated a.toInt b.toInt q r.toInt ∧
      arithmetic .mod (.number (.int a)) (.number (.int b)) = .ok (.number (.int r)) := by
  intro h
  obtain ⟨q, r, -, hr⟩ := h Int64.minValue (-1) (by decide)
  rw [arithmetic_mod_minValue] at hr
  cases hr

end Value

end MessageMapping
