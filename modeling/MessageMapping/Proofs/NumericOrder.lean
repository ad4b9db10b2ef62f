import MessageMapping.Proofs.Rounding
import MessageMapping.Proofs.Trees
import MessageMapping.Value.Comparison

/-!
# Order and equality across subtypes

Two integers are compared exactly and a pair with a float as binary64 numbers. Both keep the order
of the binary64 numbers, so order and equality are transitive but for one case: a float between two
integers that are rounded to one number does not tell them apart. Such integers are `2 ^ 53` or more
in absolute value.
-/

namespace MessageMapping

namespace Numeric

variable {x y z : Numeric} {m n : Int}

/-! ### Numbers -/

/-- The first number is at most the second; a NaN is in no order. -/
def Le (x y : Numeric) : Prop :=
  ∃ order, x.compare? y = some order ∧ order ≠ .gt

theorem toDouble_of_integer? (h : x.integer? = some n) : x.toDouble = Double.ofInt n := by
  cases x with
  | int i =>
    obtain rfl := Option.some.inj h
    rfl
  | uint u =>
    obtain rfl := Option.some.inj h
    have hsign : decide ((u.toNat : Int) < 0) = false := decide_eq_false (by omega)
    rw [toDouble, Double.ofNat, Double.ofInt, hsign, Int.natAbs_natCast]
  | float d => cases h

theorem doubles_or_integers (x y : Numeric) : (x.integer? = none ∨ y.integer? = none) ∨
    ∃ m n, x.integer? = some m ∧ y.integer? = some n := by
  cases hx : x.integer? with
  | none => exact .inl (.inl rfl)
  | some m =>
    cases hy : y.integer? with
    | none => exact .inl (.inr rfl)
    | some n => exact .inr ⟨m, n, rfl, rfl⟩

theorem compare?_integers (hx : x.integer? = some m) (hy : y.integer? = some n) :
    x.compare? y = some (compare m n) := by
  rw [compare?, hx, hy]

theorem compare?_doubles (h : x.integer? = none ∨ y.integer? = none) :
    x.compare? y = x.toDouble.compare? y.toDouble := by
  rw [compare?]
  split
  · rename_i hx hy
    rw [hx, hy] at h
    simp at h
  · rfl

theorem le_integers (hx : x.integer? = some m) (hy : y.integer? = some n) : x.Le y ↔ m ≤ n := by
  simp [Le, compare?_integers hx hy, compare_le_iff_le]

theorem le_doubles (h : x.integer? = none ∨ y.integer? = none) :
    x.Le y ↔ x.toDouble.isNaN = false ∧ y.toDouble.isNaN = false ∧
      x.toDouble.orderKey ≤ y.toDouble.orderKey := by
  simp only [Le, compare?_doubles h, Double.compare?]
  cases x.toDouble.isNaN <;> cases y.toDouble.isNaN <;> simp [compare_le_iff_le]

/-- However two numbers are compared, the order of the binary64 numbers is kept. -/
theorem Le.doubles (h : x.Le y) : x.toDouble.isNaN = false ∧ y.toDouble.isNaN = false ∧
    x.toDouble.orderKey ≤ y.toDouble.orderKey := by
  rcases doubles_or_integers x y with hfloat | ⟨m, n, hx, hy⟩
  · exact (le_doubles hfloat).1 h
  · rw [toDouble_of_integer? hx, toDouble_of_integer? hy]
    exact ⟨Double.isNaN_ofInt m, Double.isNaN_ofInt n,
      Double.orderKey_ofInt_mono ((le_integers hx hy).1 h)⟩

theorem compare?_eq_iff : x.compare? y = some .eq ↔ x.Le y ∧ y.Le x := by
  rcases doubles_or_integers x y with h | ⟨m, n, hx, hy⟩
  · rw [compare?_doubles h, le_doubles h, le_doubles h.symm, Double.compare?]
    cases x.toDouble.isNaN <;> cases y.toDouble.isNaN <;> simp [le_antisymm_iff]
  · rw [compare?_integers hx hy, le_integers hx hy, le_integers hy hx, Option.some.injEq,
      compare_eq_iff_eq, le_antisymm_iff]

theorem compare?_eq_comm : x.compare? y = some .eq ↔ y.compare? x = some .eq := by
  rw [compare?_eq_iff, compare?_eq_iff, and_comm]

/-- A float is between two large integers of which `R` holds. -/
def FloatBetween (R : Int → Int → Prop) (x y z : Numeric) : Prop :=
  y.integer? = none ∧ ∃ m n, x.integer? = some m ∧ z.integer? = some n ∧ R m n ∧
    2 ^ 53 ≤ m.natAbs ∧ 2 ^ 53 ≤ n.natAbs

theorem Le.trans_iff (hxy : x.Le y) (hyz : y.Le z) :
    x.Le z ↔ ¬ FloatBetween (· > ·) x y z := by
  obtain ⟨hx, -, hkeys⟩ := hxy.doubles
  obtain ⟨-, hz, hkeys'⟩ := hyz.doubles
  rcases doubles_or_integers x z with h | ⟨m, n, hm, hn⟩
  · refine iff_of_true ((le_doubles h).2 ⟨hx, hz, hkeys.trans hkeys'⟩) ?_
    rintro ⟨-, m, n, hm, hn, -⟩
    simp [hm, hn] at h
  · rw [le_integers hm hn]
    constructor
    · rintro hle ⟨-, m', n', hm', hn', hlt, -⟩
      rw [hm] at hm'
      rw [hn] at hn'
      obtain rfl := Option.some.inj hm'
      obtain rfl := Option.some.inj hn'
      omega
    · intro hbetween
      by_contra hlt
      -- an integer in the middle compares exactly; a float has both integers rounded to its key
      cases hy : y.integer? with
      | some k => exact hlt (((le_integers hm hy).1 hxy).trans ((le_integers hy hn).1 hyz))
      | none =>
        have hle := hkeys.trans hkeys'
        rw [toDouble_of_integer? hm, toDouble_of_integer? hn] at hle
        have hlarge : ¬ (n.natAbs < 2 ^ 53 ∨ m.natAbs < 2 ^ 53) := fun hsmall =>
          absurd (Double.orderKey_ofInt_lt (not_le.1 hlt) hsmall) (not_lt.2 hle)
        exact hbetween ⟨hy, m, n, hm, hn, not_le.1 hlt, by omega, by omega⟩

theorem eq_trans_iff (hxy : x.compare? y = some .eq) (hyz : y.compare? z = some .eq) :
    x.compare? z = some .eq ↔ ¬ FloatBetween (· ≠ ·) x y z := by
  rw [compare?_eq_iff] at hxy hyz ⊢
  rw [hxy.1.trans_iff hyz.1, hyz.2.trans_iff hxy.2]
  constructor
  · rintro ⟨hgt, hlt⟩ ⟨hy, m, n, hm, hn, hne, hlm, hln⟩
    rcases lt_or_gt_of_ne hne with h | h
    · exact hlt ⟨hy, n, m, hn, hm, h, hln, hlm⟩
    · exact hgt ⟨hy, m, n, hm, hn, h, hlm, hln⟩
  · intro hne
    refine ⟨fun ⟨hy, m, n, hm, hn, h, hlm, hln⟩ => ?_, fun ⟨hy, n, m, hn, hm, h, hln, hlm⟩ => ?_⟩
    · exact hne ⟨hy, m, n, hm, hn, h.ne', hlm, hln⟩
    · exact hne ⟨hy, m, n, hm, hn, h.ne, hlm, hln⟩

end Numeric

namespace Value

theorem compare_le_iff {x y : Numeric} :
    compare .le (.number x) (.number y) = .ok true ↔ x.Le y := by
  rw [compare, Numeric.Le]
  cases x.compare? y with
  | none => simp
  | some order => cases order <;> simp [Operator.accepts]

/-! ### Equality -/

theorem equalsItems_iff {xs ys : List Value} :
    equalsItems xs ys = true ↔ List.Forall₂ (fun x y => x.equals y = true) xs ys := by
  induction xs generalizing ys with
  | nil => cases ys <;> simp [equalsItems]
  | cons x xs ih => cases ys <;> simp [equalsItems, ih]

theorem equalsMembers_iff {xs ys : List (String × Value)} :
    equalsMembers xs ys = true ↔
      ∀ p ∈ xs, ∃ y, Entries.get? p.1 ys = some y ∧ p.2.equals y = true := by
  induction xs with
  | nil => simp [equalsMembers]
  | cons p xs ih =>
    rw [equalsMembers, Bool.and_eq_true, ih, List.forall_mem_cons]
    cases Entries.get? p.1 ys <;> simp

/-- What is equal to nothing but itself. -/
def IsAtom : Value → Prop
  | number _ | array _ | object _ => False
  | _ => True

theorem eq_of_equals_atom {a b : Value} (hab : a.equals b = true) (ha : a.IsAtom) : a = b := by
  cases a with
  | number | array | object => cases ha
  | _ => cases b <;> simp_all [equals]

theorem equals_number_iff {x : Numeric} {v : Value} :
    (number x).equals v = true ↔ ∃ y, v = number y ∧ x.compare? y = some .eq := by
  cases v <;> simp [equals]

theorem equals_array_iff {xs : List Value} {v : Value} :
    (array xs).equals v = true ↔
      ∃ ys, v = array ys ∧ List.Forall₂ (fun x y => x.equals y = true) xs ys := by
  cases v <;> simp [equals, equalsItems_iff]

theorem equals_object_iff {xs : List (String × Value)} {v : Value} :
    (object xs).equals v = true ↔
      ∃ ys, v = object ys ∧ xs.length = ys.length ∧
        ∀ p ∈ xs, ∃ y, Entries.get? p.1 ys = some y ∧ p.2.equals y = true := by
  cases v <;> simp [equals, equalsMembers_iff]

theorem equals_get? {xs ys : Entries Value} {key : String} {x y : Value}
    (h : ∀ p ∈ xs, ∃ y, ys.get? p.1 = some y ∧ p.2.equals y = true) (hx : (key, x) ∈ xs)
    (hy : ys.get? key = some y) : x.equals y = true := by
  obtain ⟨y', hy', h⟩ := h _ hx
  obtain rfl := Option.some.inj (hy.symm.trans hy')
  exact h

/-- At one place of all three values, a float is between two different integers. -/
inductive Merged : Value → Value → Value → Prop
  | number {x y z : Numeric} (h : Numeric.FloatBetween (· ≠ ·) x y z) :
    Merged (.number x) (.number y) (.number z)
  | item {xs ys zs : List Value} {x y z : Value} {i : Nat} (hx : xs[i]? = some x)
    (hy : ys[i]? = some y) (hz : zs[i]? = some z) (h : Merged x y z) :
    Merged (.array xs) (.array ys) (.array zs)
  | member {xs ys zs : Entries Value} {key : String} {x y z : Value} (hx : (key, x) ∈ xs)
    (hy : ys.get? key = some y) (hz : zs.get? key = some z) (h : Merged x y z) :
    Merged (.object xs) (.object ys) (.object zs)

theorem equals_trans_iff {a b c : Value} (hab : a.equals b = true) (hbc : b.equals c = true) :
    a.equals c = true ↔ ¬ Merged a b c := by
  -- the places of containers are compared one by one, so a merge of the whole is one at some place
  induction a using Value.induct generalizing b c with
  | null | absent | delete | bool | string =>
    obtain rfl := eq_of_equals_atom hab trivial
    exact iff_of_true hbc nofun
  | number x =>
    obtain ⟨y, rfl, hxy⟩ := equals_number_iff.1 hab
    obtain ⟨z, rfl, hyz⟩ := equals_number_iff.1 hbc
    simp only [equals_number_iff, number.injEq, exists_eq_left', Numeric.eq_trans_iff hxy hyz]
    exact not_congr ⟨.number, fun | .number h => h⟩
  | array xs ih =>
    obtain ⟨ys, rfl, hxy⟩ := equals_array_iff.1 hab
    obtain ⟨zs, rfl, hyz⟩ := equals_array_iff.1 hbc
    rw [List.forall₂_iff_get] at hxy hyz
    obtain ⟨hlength, hxy⟩ := hxy
    obtain ⟨hlength', hyz⟩ := hyz
    simp only [equals_array_iff, array.injEq, exists_eq_left', List.forall₂_iff_get]
    constructor
    · rintro ⟨-, hxz⟩ h
      cases h with | item hx hy hz h
      obtain ⟨hi, rfl⟩ := List.getElem?_eq_some_iff.1 hx
      obtain ⟨hj, rfl⟩ := List.getElem?_eq_some_iff.1 hy
      obtain ⟨hk, rfl⟩ := List.getElem?_eq_some_iff.1 hz
      exact (ih _ (List.getElem_mem hi) (hxy _ hi hj) (hyz _ hj hk)).1 (hxz _ hi hk) h
    · intro hmerged
      refine ⟨hlength.trans hlength', fun i hi hi' => ?_⟩
      have hj : i < ys.length := hlength ▸ hi
      refine (ih _ (List.get_mem xs ⟨i, hi⟩) (hxy i hi hj) (hyz i hj hi')).2 fun h => hmerged ?_
      exact .item (i := i) (by simp [hi]) (by simp [hj]) (by simp [hi']) h
  | object xs ih =>
    obtain ⟨ys, rfl, hlength, hxy⟩ := equals_object_iff.1 hab
    obtain ⟨zs, rfl, hlength', hyz⟩ := equals_object_iff.1 hbc
    simp only [equals_object_iff, object.injEq, exists_eq_left']
    constructor
    · rintro ⟨-, hxz⟩ h
      cases h with | member hx hy hz h
      have hxy' := equals_get? hxy hx hy
      have hyz' := equals_get? hyz (Entries.mem_of_get? hy) hz
      exact (ih _ hx hxy' hyz').1 (equals_get? hxz hx hz) h
    · intro hmerged
      refine ⟨hlength.trans hlength', fun ⟨key, x⟩ hx => ?_⟩
      obtain ⟨y, hy, hxy'⟩ := hxy _ hx
      obtain ⟨z, hz, hyz'⟩ := hyz _ (Entries.mem_of_get? hy)
      exact ⟨z, hz, (ih _ hx hxy' hyz').2 fun h => hmerged (.member hx hy hz h)⟩

/-- Equality of values and the order of numbers are transitive unless a float merges two different
integers of at least `2 ^ 53`; then they never are. NaN needs no exception: it is equal to nothing
and in no order. -/
theorem equals_and_le_trans_iff (a b c : Value) (x y z : Numeric) :
    (a.equals b = true → b.equals c = true → (a.equals c = true ↔ ¬ Merged a b c)) ∧
    (compare .le (.number x) (.number y) = .ok true →
      compare .le (.number y) (.number z) = .ok true →
      (compare .le (.number x) (.number z) = .ok true ↔
        ¬ Numeric.FloatBetween (· > ·) x y z)) := by
  refine ⟨equals_trans_iff, fun hxy hyz => ?_⟩
  rw [compare_le_iff] at hxy hyz ⊢
  exact hxy.trans_iff hyz

/-- The float `2 ^ 53` inside of containers, and the integers that it merges. -/
theorem equals_and_le_trans_iff_nested :
    let x : Numeric := .int 9007199254740993
    let y : Numeric := .float ⟨0x4340000000000000⟩
    let z : Numeric := .uint 9007199254740992
    let nest (n : Numeric) : Value := .array [.null, .object [("a", .number n)]]
    (nest x).equals (nest y) = true ∧ (nest y).equals (nest z) = true ∧
      (nest x).equals (nest z) ≠ true ∧
      compare .le (.number x) (.number y) = .ok true ∧
      compare .le (.number y) (.number z) = .ok true ∧
      compare .le (.number x) (.number z) ≠ .ok true := by
  intro x y z nest
  have hxy : (nest x).equals (nest y) = true := by decide +kernel
  have hyz : (nest y).equals (nest z) = true := by decide +kernel
  have hle : compare .le (.number x) (.number y) = .ok true :=
    congrArg Except.ok (by decide +kernel)
  have hle' : compare .le (.number y) (.number z) = .ok true :=
    congrArg Except.ok (by decide +kernel)
  have hmerged : Merged (nest x) (nest y) (nest z) := by
    refine .item (i := 1) rfl rfl rfl (.member List.mem_cons_self rfl rfl (.number ?_))
    exact ⟨rfl, _, _, rfl, rfl, by decide, by decide, by decide⟩
  have hbetween : Numeric.FloatBetween (· > ·) x y z :=
    ⟨rfl, _, _, rfl, rfl, by decide, by decide, by decide⟩
  obtain ⟨hequals, hcompare⟩ := equals_and_le_trans_iff (nest x) (nest y) (nest z) x y z
  exact ⟨hxy, hyz, fun h => (hequals hxy hyz).1 h hmerged, hle, hle',
    fun h => (hcompare hle hle').1 h hbetween⟩

/-- Neither equality nor order is transitive from `2 ^ 53 + 1` through the float `2 ^ 53` to the
integer `2 ^ 53`. -/
theorem equals_and_le_not_trans :
    let a : Value := .number (.int 9007199254740993)
    let b : Value := .number (.float ⟨0x4340000000000000⟩)
    let c : Value := .number (.int 9007199254740992)
    (a.equals b = true ∧ b.equals c = true ∧ a.equals c = false) ∧
      compare .le a b = .ok true ∧ compare .le b c = .ok true ∧ compare .le a c = .ok false := by
  refine ⟨by decide +kernel, congrArg Except.ok ?_, congrArg Except.ok ?_, congrArg Except.ok ?_⟩
  all_goals decide +kernel

end Value

end MessageMapping
