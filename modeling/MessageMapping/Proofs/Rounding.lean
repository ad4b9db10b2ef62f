import MessageMapping.Double.Rounding
import Mathlib

/-!
# Integers as binary64 numbers

Rounding an integer of at most 64 bits to binary64 gives no NaN and keeps the order, though not
strictly: the bits of a number grow with its binade, from one power of two to the next, and inside a
binade the significand is a quotient rounded half to even. Below `2 ^ 53` that quotient is exact, so
there the order is kept strictly.
-/

namespace MessageMapping

namespace Double

/-! ### Rounding half to even -/

theorem roundHalfEven_mono {num num' : Nat} (h : num ≤ num') (den : Nat) :
    roundHalfEven num den ≤ roundHalfEven num' den := by
  have hdiv : num / den ≤ num' / den := Nat.div_le_div_right h
  have hmod : num / den = num' / den → num % den ≤ num' % den := fun hq => by
    have hnum := Nat.div_add_mod num den
    have hnum' := Nat.div_add_mod num' den
    rw [hq] at hnum
    omega
  simp only [roundHalfEven, Bool.or_eq_true, Bool.and_eq_true, decide_eq_true_eq, beq_iff_eq]
  split_ifs <;> omega

theorem roundHalfEven_mul {den : Nat} (hden : 0 < den) (n : Nat) :
    roundHalfEven (n * den) den = n := by
  simp [roundHalfEven, Nat.mul_div_cancel n hden, hden]

/-! ### Binades -/

/-- The magnitude of the number nearest to an integer if exponents had no limit. -/
def nearest (n : Nat) : Nat :=
  if n = 0 then 0
  else
    (n.log2 + 1022) * 2 ^ 52 + roundHalfEven (n * 2 ^ (52 - n.log2)) (2 ^ (n.log2 - 52))

def rounded (n : Nat) : Nat :=
  min infinityMagnitude (nearest n)

theorem floorLog2_one {n : Nat} (hn : n ≠ 0) : floorLog2 n 1 = n.log2 := by
  have hle : 2 ^ n.log2 ≤ n := Nat.log2_self_le hn
  have hone : Nat.log2 1 = 0 := by decide
  simp [floorLog2, shifted, hone, hle]

theorem ofRatio_one (negative : Bool) (n : Nat) :
    ofRatio negative n 1 = ofMagnitude negative (rounded n) := by
  rw [ofRatio, rounded, nearest]
  split_ifs with hn
  · rw [Nat.min_zero]
    rfl
  · have hexponent : max ((n.log2 : Int) - 52) (-1074) = n.log2 - 52 := by omega
    have hbinade : ((n.log2 : Int) - 52 + 1074).toNat = n.log2 + 1022 := by omega
    have hup : (-((n.log2 : Int) - 52)).toNat = 52 - n.log2 := by omega
    have hdown : (- -((n.log2 : Int) - 52)).toNat = n.log2 - 52 := by omega
    simp only [floorLog2_one hn, hexponent, shifted, hbinade, hup, hdown, Nat.one_mul]

theorem two_pow_binade (k : Nat) : 2 ^ 52 * 2 ^ (k - 52) = 2 ^ k * 2 ^ (52 - k) := by
  rw [← Nat.pow_add, ← Nat.pow_add]
  congr 1
  omega

theorem le_nearest {n : Nat} (hn : n ≠ 0) : (n.log2 + 1023) * 2 ^ 52 ≤ nearest n := by
  have hnum : 2 ^ 52 * 2 ^ (n.log2 - 52) ≤ n * 2 ^ (52 - n.log2) := by
    rw [two_pow_binade]
    exact Nat.mul_le_mul_right _ (Nat.log2_self_le hn)
  have hround := roundHalfEven_mono hnum (2 ^ (n.log2 - 52))
  rw [roundHalfEven_mul (Nat.two_pow_pos _)] at hround
  rw [nearest, if_neg hn]
  simp only [Nat.add_mul]
  omega

theorem nearest_le {n : Nat} (hn : n ≠ 0) : nearest n ≤ (n.log2 + 1024) * 2 ^ 52 := by
  have hnum : n * 2 ^ (52 - n.log2) ≤ 2 ^ 53 * 2 ^ (n.log2 - 52) := by
    have hlt : n ≤ 2 * 2 ^ n.log2 := by
      have := Nat.lt_log2_self (n := n)
      omega
    calc n * 2 ^ (52 - n.log2)
      _ ≤ 2 * 2 ^ n.log2 * 2 ^ (52 - n.log2) := Nat.mul_le_mul_right _ hlt
      _ = 2 ^ 53 * 2 ^ (n.log2 - 52) := by
        rw [Nat.mul_assoc, ← two_pow_binade, ← Nat.mul_assoc]
  have hround := roundHalfEven_mono hnum (2 ^ (n.log2 - 52))
  rw [roundHalfEven_mul (Nat.two_pow_pos _)] at hround
  rw [nearest, if_neg hn]
  simp only [Nat.add_mul]
  omega

/-- Integers of different binades. -/
theorem nearest_le_of_log2_lt {m n : Nat} (hm : m ≠ 0) (h : m.log2 < n.log2) :
    nearest m ≤ (m.log2 + 1024) * 2 ^ 52 ∧ (m.log2 + 1024) * 2 ^ 52 ≤ nearest n := by
  have hn : n ≠ 0 := by
    rintro rfl
    simp at h
  refine ⟨nearest_le hm, le_trans ?_ (le_nearest hn)⟩
  exact Nat.mul_le_mul_right _ (by omega)

theorem log2_mono {m n : Nat} (hm : m ≠ 0) (h : m ≤ n) : m.log2 ≤ n.log2 :=
  (Nat.le_log2 (by omega)).2 ((Nat.log2_self_le hm).trans h)

theorem nearest_mono {m n : Nat} (h : m ≤ n) : nearest m ≤ nearest n := by
  by_cases hm : m = 0
  · simp [nearest, hm]
  -- the bounds of two binades meet, and in one binade the numerators grow over one denominator
  rcases (log2_mono hm h).lt_or_eq with hlt | heq
  · exact (nearest_le_of_log2_lt hm hlt).1.trans (nearest_le_of_log2_lt hm hlt).2
  · rw [nearest, nearest, if_neg hm, if_neg (by omega), heq]
    exact Nat.add_le_add_left (roundHalfEven_mono (Nat.mul_le_mul_right _ h) _) _

theorem nearest_of_lt {n : Nat} (hn : n ≠ 0) (h : n < 2 ^ 53) :
    nearest n = (n.log2 + 1022) * 2 ^ 52 + n * 2 ^ (52 - n.log2) := by
  have hlog : n.log2 - 52 = 0 := by
    have := (Nat.log2_lt hn).2 h
    omega
  have hround := roundHalfEven_mul Nat.one_pos (n * 2 ^ (52 - n.log2))
  rw [Nat.mul_one] at hround
  rw [nearest, if_neg hn, hlog, Nat.pow_zero, hround]

theorem nearest_lt_of_lt {n : Nat} (hn : n ≠ 0) (h : n < 2 ^ 53) :
    nearest n < (n.log2 + 1024) * 2 ^ 52 := by
  have hlog : n.log2 < 53 := (Nat.log2_lt hn).2 h
  have hround : n * 2 ^ (52 - n.log2) < 2 ^ 53 := by
    calc n * 2 ^ (52 - n.log2)
      _ < 2 ^ (n.log2 + 1) * 2 ^ (52 - n.log2) :=
        Nat.mul_lt_mul_of_pos_right Nat.lt_log2_self (Nat.two_pow_pos _)
      _ = 2 ^ 53 := by
        rw [← Nat.pow_add]
        congr 1
        omega
  rw [nearest_of_lt hn h]
  simp only [Nat.add_mul]
  omega

/-- Below `2 ^ 53` no two integers are rounded to one number. -/
theorem nearest_lt {m n : Nat} (h : m < n) (hm : m < 2 ^ 53) : nearest m < nearest n := by
  by_cases hm0 : m = 0
  · have hn := le_nearest (n := n) (by omega)
    have hpos : 0 < (n.log2 + 1023) * 2 ^ 52 := by positivity
    rw [nearest, if_pos hm0]
    omega
  rcases (log2_mono hm0 h.le).lt_or_eq with hlt | heq
  · exact (nearest_lt_of_lt hm0 hm).trans_le (nearest_le_of_log2_lt hm0 hlt).2
  · have hn : n < 2 ^ 53 := by
      rw [← Nat.log2_lt (by omega), ← heq]
      exact (Nat.log2_lt hm0).2 hm
    rw [nearest_of_lt hm0 hm, nearest_of_lt (by omega) hn, heq]
    exact Nat.add_lt_add_left (Nat.mul_lt_mul_of_pos_right h (Nat.two_pow_pos _)) _

/-! ### Order -/

section

variable {negative : Bool} {size : Nat}

theorem toNat_bits_ofMagnitude (h : size < 2 ^ 63) :
    (ofMagnitude negative size).bits.toNat = if negative then 2 ^ 63 + size else size := by
  rw [ofMagnitude, UInt64.toNat_ofNat']
  exact Nat.mod_eq_of_lt (by split <;> omega)

theorem magnitude_ofMagnitude (h : size < 2 ^ 63) :
    (ofMagnitude negative size).magnitude = size := by
  rw [magnitude, toNat_bits_ofMagnitude h]
  split <;> omega

theorem isNegative_ofMagnitude (h : size < 2 ^ 63) :
    (ofMagnitude negative size).isNegative = negative := by
  rw [isNegative, toNat_bits_ofMagnitude h]
  cases negative
  · exact decide_eq_false (by simpa using h)
  · exact decide_eq_true (Nat.le_add_right _ _)

end

theorem rounded_lt (n : Nat) : rounded n < 2 ^ 63 :=
  (min_le_left _ _).trans_lt (by decide)

theorem rounded_mono {m n : Nat} (h : m ≤ n) : rounded m ≤ rounded n :=
  min_le_min_left _ (nearest_mono h)

theorem rounded_lt_rounded {m n : Nat} (h : m < n) (hm : m < 2 ^ 53) : rounded m < rounded n := by
  have hlt := nearest_lt h hm
  have hle : nearest m ≤ nearest (2 ^ 53) := nearest_mono hm.le
  have hfinite : nearest (2 ^ 53) < infinityMagnitude := by decide
  rw [rounded, rounded]
  omega

theorem isNaN_ofInt (n : Int) : (ofInt n).isNaN = false := by
  rw [isNaN, ofInt, ofRatio_one, magnitude_ofMagnitude (rounded_lt _)]
  exact decide_eq_false (Nat.not_lt.2 (min_le_left _ _))

theorem orderKey_ofInt (n : Int) :
    (ofInt n).orderKey = if n < 0 then -(rounded n.natAbs : Int) else rounded n.natAbs := by
  rw [orderKey, ofInt, ofRatio_one, magnitude_ofMagnitude (rounded_lt _),
    isNegative_ofMagnitude (rounded_lt _)]
  simp only [decide_eq_true_eq]

theorem orderKey_ofInt_mono {m n : Int} (h : m ≤ n) :
    (ofInt m).orderKey ≤ (ofInt n).orderKey := by
  rw [orderKey_ofInt, orderKey_ofInt]
  split_ifs with hm hn hn
  · have := rounded_mono (show n.natAbs ≤ m.natAbs by omega)
    omega
  · omega
  · omega
  · have := rounded_mono (show m.natAbs ≤ n.natAbs by omega)
    omega

theorem orderKey_ofInt_lt {m n : Int} (h : m < n)
    (hsmall : m.natAbs < 2 ^ 53 ∨ n.natAbs < 2 ^ 53) :
    (ofInt m).orderKey < (ofInt n).orderKey := by
  rw [orderKey_ofInt, orderKey_ofInt]
  split_ifs with hm hn hn
  · have := rounded_lt_rounded (show n.natAbs < m.natAbs by omega) (by omega)
    omega
  · have := rounded_lt_rounded (show 0 < m.natAbs by omega) (by decide)
    omega
  · omega
  · have := rounded_lt_rounded (show m.natAbs < n.natAbs by omega) (by omega)
    omega

end Double

end MessageMapping
