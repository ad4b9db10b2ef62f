import MessageMapping.Proofs.ErrorCauses
import MessageMapping.Proofs.IntegerArithmetic

/-!
# When arithmetic fails

Arithmetic asks first what its operands are, and `/` and `%` then ask whether the right one is zero.
That is asked after the operands have been brought to one subtype, but this neither makes a zero nor
loses one (`Operands.rightIsZero_ofPair`). So the zeros of the subtypes are refused and no other
number is, whatever stands on the left. Main result: which of the two errors arises, what a mismatch
reports, and that there is a result in all other cases.
-/

namespace MessageMapping

/-! ### Zeros -/

namespace Double

/-- No other integer is rounded to zero. -/
theorem isZero_ofInt {n : Int} : (ofInt n).isZero = true ↔ n = 0 := by
  rw [isZero, decide_eq_true_eq, ofInt, ofRatio_one, magnitude_ofMagnitude (rounded_lt _)]
  constructor
  · intro h
    by_contra hn
    have := rounded_lt_rounded (show 0 < n.natAbs by omega) (by decide)
    omega
  · rintro rfl
    decide

theorem isZero_iff {x : Double} : x.isZero = true ↔ x = zero false ∨ x = zero true := by
  rw [isZero, decide_eq_true_eq]
  constructor
  · intro h
    have hbits : x.bits.toNat = 0 ∨ x.bits.toNat = 2 ^ 63 := by
      have := x.bits.toNat_lt
      rw [magnitude] at h
      omega
    obtain ⟨bits⟩ := x
    exact hbits.imp (fun h => congrArg mk (UInt64.toNat_inj.1 h))
      (fun h => congrArg mk (UInt64.toNat_inj.1 h))
  · rintro (rfl | rfl) <;> decide

end Double

namespace Numeric

/-- The zeros of all subtypes; a float zero has a sign. -/
def zeros : List Numeric :=
  [int 0, uint 0, float (.zero false), float (.zero true)]

theorem isZero_toDouble {y : Numeric} : y.toDouble.isZero = true ↔ y ∈ zeros := by
  cases y with
  | float d => simp [toDouble, Double.isZero_iff, zeros]
  | int n =>
    rw [toDouble_of_integer? rfl, Double.isZero_ofInt]
    simp [zeros, ← Int64.toInt_inj]
  | uint n =>
    rw [toDouble_of_integer? rfl, Double.isZero_ofInt]
    simp [zeros, ← UInt64.toNat_inj]

end Numeric

/-- Whatever subtype the pair is brought to, its right operand is zero exactly if it was zero. -/
theorem Operands.rightIsZero_ofPair {x y : Numeric} :
    (ofPair x y).rightIsZero = true ↔ y ∈ Numeric.zeros := by
  cases x with
  | float a => cases y <;> exact Numeric.isZero_toDouble
  | int a =>
    cases y with
    | float b => exact Numeric.isZero_toDouble
    | int b => simp [ofPair, rightIsZero, Numeric.zeros]
    | uint b =>
      rw [ofPair]
      split
      · simp [rightIsZero, Numeric.zeros]
      · exact Numeric.isZero_toDouble (y := .uint b)
  | uint a =>
    cases y with
    | float b => exact Numeric.isZero_toDouble
    | uint b => simp [ofPair, rightIsZero, Numeric.zeros]
    | int b =>
      rw [ofPair]
      split
      · rename_i hb
        have hzero : UInt64.ofNat b.toInt.toNat = 0 ↔ b = 0 := by
          rw [← UInt64.toNat_inj, ← Int64.toInt_inj, ← Int.natCast_inj,
            Numeric.toNat_ofNat_toInt hb]
          rfl
        rw [rightIsZero, beq_iff_eq, hzero]
        simp [Numeric.zeros]
      · exact Numeric.isZero_toDouble (y := .int b)

/-! ### Outcomes -/

namespace Value

variable {op : Operator} {left right : Value}

theorem kind_eq_number_iff {v : Value} : v.kind = .number ↔ ∃ x, v = number x := by
  cases v <;> simp [kind]

theorem kind_eq_string_iff {v : Value} : v.kind = .string ↔ ∃ s, v = string s := by
  cases v <;> simp [kind]

/-- Two numbers can only fail to be divided. -/
theorem arithmetic_numbers (op : Operator) (x y : Numeric) :
    ∃ r, arithmetic op (number x) (number y) =
      if (op = .div ∨ op = .mod) ∧ y ∈ Numeric.zeros then .error .divideByZero
      else .ok (number r) := by
  simp only [arithmetic, Numeric.arithmetic, Operands.rightIsZero_ofPair]
  split
  · exact ⟨x, rfl⟩
  · exact ⟨_, rfl⟩

theorem arithmetic_mismatch (hnumbers : ¬ (left.kind = .number ∧ right.kind = .number))
    (hstrings : ¬ (op = .add ∧ left.kind = .string ∧ right.kind = .string)) :
    arithmetic op left right = .error (mismatch left right) := by
  unfold arithmetic
  split
  · exact absurd ⟨rfl, rfl⟩ hnumbers
  · exact if_neg fun hop => hstrings ⟨hop, rfl, rfl⟩
  · rfl

/-- The operand that a mismatch reports: the right one, unless already the left one is neither a
number nor a string. -/
def reported (left right : Value) : Value :=
  if left.kind = .string ∨ left.kind = .number then right else left

theorem mismatch_eq_reported (left right : Value) :
    mismatch left right = .mismatch (if left.kind = .string then .string else .number)
      (reported left right) := by
  cases left <;> rfl

/-- Operands that do not go together are a mismatch. Two numbers only fail if they are divided and
the divisor is a zero. Otherwise strings give a string and numbers a number. -/
theorem arithmetic_failures (op : Operator) (left right : Value) :
    let numbers := left.kind = .number ∧ right.kind = .number
    let strings := op = .add ∧ left.kind = .string ∧ right.kind = .string
    let byZero := numbers ∧ (op = .div ∨ op = .mod) ∧ ∃ y ∈ Numeric.zeros, right = number y
    ((∃ expected found text,
        arithmetic op left right = .error (.typeMismatch expected found text)) ↔
      ¬ numbers ∧ ¬ strings) ∧
    (arithmetic op left right = .error .divideByZero ↔ byZero) ∧
    ((numbers ∨ strings) ∧ ¬ byZero → ∃ v, arithmetic op left right = .ok v ∧
      v.kind = if left.kind = .string ∧ right.kind = .string then .string else .number) ∧
    ∀ expected found text, arithmetic op left right = .error (.typeMismatch expected found text) →
      found = (reported left right).kind ∧ text = (reported left right).text := by
  intro numbers strings byZero
  by_cases hnumbers : numbers
  · obtain ⟨x, rfl⟩ := kind_eq_number_iff.1 hnumbers.1
    obtain ⟨y, rfl⟩ := kind_eq_number_iff.1 hnumbers.2
    obtain ⟨r, hr⟩ := arithmetic_numbers op x y
    by_cases hzero : (op = .div ∨ op = .mod) ∧ y ∈ Numeric.zeros
    · rw [hr, if_pos hzero]
      simpa [byZero, hnumbers] using hzero
    · rw [hr, if_neg hzero]
      simpa [byZero, hnumbers, kind] using hzero
  have hbyZero : ¬ byZero := fun h => hnumbers h.1
  by_cases hstrings : strings
  · obtain ⟨rfl, hleft, hright⟩ := hstrings
    obtain ⟨s, rfl⟩ := kind_eq_string_iff.1 hleft
    obtain ⟨t, rfl⟩ := kind_eq_string_iff.1 hright
    simp [arithmetic, strings, hbyZero, kind]
  · rw [arithmetic_mismatch hnumbers hstrings, mismatch_eq_reported, EvalError.mismatch]
    refine ⟨by simp [hnumbers, hstrings], by simp [hbyZero], by simp [hnumbers, hstrings], ?_⟩
    intro expected found text h
    obtain ⟨-, rfl, rfl⟩ := EvalError.typeMismatch.inj (Except.error.inj h)
    exact ⟨rfl, rfl⟩

/-- A negative integer and an unsigned zero, which meet as floats, and strings that are added and
subtracted. -/
theorem arithmetic_failures_mixed :
    arithmetic .mod (.number (.int (-1))) (.number (.uint 0)) = .error .divideByZero ∧
      (∃ v, arithmetic .add (.string "a") (.string "b") = .ok v ∧ v.kind = .string) ∧
      ∃ expected, arithmetic .sub (.string "a") (.string "b") =
        .error (.typeMismatch expected .string "b") := by
  obtain ⟨-, hzero, -⟩ := arithmetic_failures .mod (.number (.int (-1))) (.number (.uint 0))
  obtain ⟨-, -, hok, -⟩ := arithmetic_failures .add (.string "a") (.string "b")
  obtain ⟨hmismatch, -, -, hreported⟩ := arithmetic_failures .sub (.string "a") (.string "b")
  obtain ⟨expected, found, text, h⟩ := hmismatch.2 ⟨by decide, by decide⟩
  obtain ⟨rfl, rfl⟩ := hreported expected found text h
  exact ⟨hzero.2 ⟨⟨rfl, rfl⟩, .inr rfl, .uint 0, by decide, rfl⟩,
    hok ⟨.inr ⟨rfl, rfl, rfl⟩, by simp⟩, expected, h⟩

end Value

end MessageMapping
