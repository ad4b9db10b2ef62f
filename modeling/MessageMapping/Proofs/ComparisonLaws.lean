import MessageMapping.Proofs.NumericOrder

/-!
# Laws of comparisons

Comparisons take two numbers or two strings (`Value.Comparable`). All four of them and equality ask
one question of such a pair, its `order?`, which is there unless one side is a NaN and turns around
with the pair. So they form one order: of the integers, of the binary64 numbers as soon as one side
is a float, and of the sequences of code points.
-/

namespace MessageMapping

/-! ### Orders that turn around -/

theorem Double.compare?_swap (x y : Double) : y.compare? x = (x.compare? y).map Ordering.swap := by
  unfold compare?
  rw [Bool.or_comm, Std.OrientedOrd.eq_swap (a := y.orderKey)]
  split <;> rfl

theorem Double.compare?_eq_none_iff {x y : Double} :
    x.compare? y = none ↔ x.isNaN = true ∨ y.isNaN = true := by
  rw [compare?, ← Bool.or_eq_true]
  split
  · rename_i hnan
    exact iff_of_true rfl hnan
  · rename_i hnan
    exact iff_of_false (Option.some_ne_none _) hnan

namespace Numeric

theorem compare?_swap (x y : Numeric) : y.compare? x = (x.compare? y).map Ordering.swap := by
  rcases doubles_or_integers x y with h | ⟨m, n, hx, hy⟩
  · rw [compare?_doubles h, compare?_doubles h.symm, Double.compare?_swap]
  · rw [compare?_integers hx hy, compare?_integers hy hx, Std.OrientedOrd.eq_swap (a := n)]
    rfl

/-- Only floats can be NaN. -/
def isNaN : Numeric → Bool
  | float x => x.isNaN
  | _ => false

theorem isNaN_toDouble (x : Numeric) : x.toDouble.isNaN = x.isNaN := by
  cases x with
  | float d => rfl
  | int n => exact (congrArg _ (toDouble_of_integer? rfl)).trans (Double.isNaN_ofInt _)
  | uint n => exact (congrArg _ (toDouble_of_integer? rfl)).trans (Double.isNaN_ofInt _)

theorem isNaN_of_integer? {x : Numeric} {n : Int} (h : x.integer? = some n) : x.isNaN = false := by
  cases x with
  | float d => cases h
  | _ => rfl

theorem compare?_eq_none_iff {x y : Numeric} :
    x.compare? y = none ↔ x.isNaN = true ∨ y.isNaN = true := by
  rcases doubles_or_integers x y with h | ⟨m, n, hx, hy⟩
  · rw [compare?_doubles h, Double.compare?_eq_none_iff, isNaN_toDouble, isNaN_toDouble]
  · simp [compare?_integers hx hy, isNaN_of_integer? hx, isNaN_of_integer? hy]

end Numeric

/-! ### Strings -/

/-- The code points of a string, which are compared lexicographically. -/
def codePoints (s : String) : List Nat :=
  s.toList.map Char.toNat

theorem map_toNat_lt_iff {s t : List Char} : s.map Char.toNat < t.map Char.toNat ↔ s < t := by
  induction s generalizing t with
  | nil => cases t <;> simp
  | cons c s ih =>
    cases t with
    | nil => simp
    | cons d t =>
      have hlt : c.toNat < d.toNat ↔ c < d := Iff.rfl
      have heq : c.toNat = d.toNat ↔ c = d := Char.toNat_inj
      rw [List.map_cons, List.map_cons, List.cons_lt_cons_iff, List.cons_lt_cons_iff, ih, hlt, heq]

theorem codePoints_lt_iff {s t : String} : codePoints s < codePoints t ↔ s < t := by
  rw [codePoints, codePoints, map_toNat_lt_iff, String.lt_iff_toList_lt]

theorem codePoints_le_iff {s t : String} : codePoints s ≤ codePoints t ↔ s ≤ t := by
  rw [← not_lt, ← not_lt, codePoints_lt_iff]

theorem Operator.accepts_compare {α : Type} [LinearOrder α] (a b : α) :
    Operator.lt.accepts (compare a b) = decide (a < b) ∧
      Operator.le.accepts (compare a b) = decide (a ≤ b) := by
  constructor
  · rw [accepts, Bool.eq_iff_iff, beq_iff_eq, decide_eq_true_iff, compare_lt_iff_lt]
  · rw [accepts, Bool.eq_iff_iff, bne_iff_ne, decide_eq_true_iff, compare_le_iff_le]

namespace Value

variable {l r : Value}

/-! ### Pairs that have an order -/

/-- Two numbers or two strings. -/
inductive Comparable : Value → Value → Prop
  | numbers (x y : Numeric) : Comparable (.number x) (.number y)
  | strings (s t : String) : Comparable (.string s) (.string t)

theorem Comparable.symm (h : Comparable l r) : Comparable r l := by
  cases h with
  | numbers x y => exact .numbers y x
  | strings s t => exact .strings t s

theorem comparable_comm : Comparable l r ↔ Comparable r l :=
  ⟨.symm, .symm⟩

def isNaN : Value → Bool
  | number x => x.isNaN
  | _ => false

/-- The order of two numbers or of two strings, which a NaN does not have. -/
def order? : Value → Value → Option Ordering
  | number x, number y => x.compare? y
  | string s, string t => some (Ord.compare s t)
  | _, _ => none

theorem compare_of_comparable (h : Comparable l r) (op : Operator) :
    compare op l r = .ok ((order? l r).any op.accepts) := by
  cases h with
  | numbers x y => rfl
  | strings s t => rfl

theorem compare_error_iff (op : Operator) :
    (∃ e, compare op l r = .error e) ↔ ¬ Comparable l r := by
  constructor
  · rintro ⟨e, he⟩ h
    rw [compare_of_comparable h] at he
    cases he
  · intro h
    refine ⟨mismatch l r, ?_⟩
    unfold compare
    split
    · exact absurd (.strings _ _) h
    · exact absurd (.numbers _ _) h
    · rfl

theorem order?_swap (h : Comparable l r) : order? r l = (order? l r).map Ordering.swap := by
  cases h with
  | numbers x y => exact Numeric.compare?_swap x y
  | strings s t => exact congrArg some Std.OrientedOrd.eq_swap

theorem order?_eq_none_iff (h : Comparable l r) :
    order? l r = none ↔ l.isNaN = true ∨ r.isNaN = true := by
  cases h with
  | numbers x y => exact Numeric.compare?_eq_none_iff
  | strings s t => simp [order?, isNaN]

theorem equals_eq_order? (h : Comparable l r) : l.equals r = (order? l r == some .eq) := by
  cases h with
  | numbers x y => rfl
  | strings s t =>
    rw [equals, order?, Bool.eq_iff_iff, beq_iff_eq, beq_iff_eq, Option.some.injEq,
      compare_eq_iff_eq]

/-! ### Laws -/

theorem compare_swap (h : Comparable l r) :
    compare .lt l r = compare .gt r l ∧ compare .le l r = compare .ge r l := by
  simp only [compare_of_comparable h, compare_of_comparable h.symm, order?_swap h]
  cases order? l r with
  | none => exact ⟨rfl, rfl⟩
  | some order => cases order <;> exact ⟨rfl, rfl⟩

theorem compare_or_equals (h : Comparable l r) :
    compare .le l r = (compare .lt l r).map (· || l.equals r) ∧
      compare .ge l r = (compare .gt l r).map (· || l.equals r) := by
  simp only [compare_of_comparable h, equals_eq_order? h]
  cases order? l r with
  | none => exact ⟨rfl, rfl⟩
  | some order => cases order <;> exact ⟨rfl, rfl⟩

theorem compare_nan (h : Comparable l r) (hnan : l.isNaN = true ∨ r.isNaN = true) :
    (∀ op, compare op l r = .ok false) ∧ l.equals r = false := by
  have horder := (order?_eq_none_iff h).2 hnan
  constructor
  · intro op
    rw [compare_of_comparable h, horder]
    rfl
  · rw [equals_eq_order? h, horder]
    rfl

theorem compare_trichotomy (h : Comparable l r) (hnan : ¬ (l.isNaN = true ∨ r.isNaN = true)) :
    (compare .lt l r, l.equals r, compare .gt l r) ∈
      [(.ok true, false, .ok false), (.ok false, true, .ok false),
        (.ok false, false, .ok true)] := by
  rw [← order?_eq_none_iff h] at hnan
  obtain ⟨order, horder⟩ := Option.ne_none_iff_exists'.1 hnan
  rw [compare_of_comparable h, compare_of_comparable h, equals_eq_order? h, horder]
  cases order with
  | lt => exact .head _
  | eq => exact .tail _ (.head _)
  | gt => exact .tail _ (.tail _ (.head _))

theorem compare_integers {x y : Numeric} {m n : Int} (hx : x.integer? = some m)
    (hy : y.integer? = some n) :
    compare .lt (.number x) (.number y) = .ok (decide (m < n)) ∧
      compare .le (.number x) (.number y) = .ok (decide (m ≤ n)) ∧
      (number x).equals (.number y) = decide (m = n) := by
  obtain ⟨hlt, hle⟩ := Operator.accepts_compare m n
  have heq : (Ord.compare m n == .eq) = decide (m = n) := by
    rw [Bool.eq_iff_iff, beq_iff_eq, decide_eq_true_iff, compare_eq_iff_eq]
  rw [compare, compare, equals, Numeric.compare?_integers hx hy, ← hlt, ← hle, ← heq]
  exact ⟨rfl, rfl, rfl⟩

theorem compare_strings (s t : String) :
    compare .lt (.string s) (.string t) = .ok (decide (codePoints s < codePoints t)) ∧
      compare .le (.string s) (.string t) = .ok (decide (codePoints s ≤ codePoints t)) := by
  obtain ⟨hlt, hle⟩ := Operator.accepts_compare s t
  rw [decide_eq_decide.2 codePoints_lt_iff, decide_eq_decide.2 codePoints_le_iff, ← hlt, ← hle]
  exact ⟨rfl, rfl⟩

/-- The four comparisons fail for all pairs but two numbers and two strings, whichever of them it is
and however the pair is turned. On the others they are one order that agrees with equality, total
but for NaN: that of the integers, if both sides are integers, and that of the code points of
strings. -/
theorem compare_consistent (l r : Value) :
    (∀ op, ((∃ e, compare op l r = .error e) ↔ ¬ Comparable l r) ∧
      ((∃ e, compare op r l = .error e) ↔ ¬ Comparable l r)) ∧
    (Comparable l r →
      (compare .lt l r = compare .gt r l ∧ compare .le l r = compare .ge r l) ∧
      (compare .le l r = (compare .lt l r).map (· || l.equals r) ∧
        compare .ge l r = (compare .gt l r).map (· || l.equals r)) ∧
      (l.isNaN = true ∨ r.isNaN = true →
        (∀ op, compare op l r = .ok false) ∧ l.equals r = false) ∧
      (¬ (l.isNaN = true ∨ r.isNaN = true) →
        (compare .lt l r, l.equals r, compare .gt l r) ∈
          [(.ok true, false, .ok false), (.ok false, true, .ok false),
            (.ok false, false, .ok true)])) ∧
    (∀ x y m n, l = .number x → r = .number y → x.integer? = some m → y.integer? = some n →
      compare .lt l r = .ok (decide (m < n)) ∧ compare .le l r = .ok (decide (m ≤ n)) ∧
        l.equals r = decide (m = n)) ∧
    ∀ s t, l = .string s → r = .string t →
      compare .lt l r = .ok (decide (codePoints s < codePoints t)) ∧
        compare .le l r = .ok (decide (codePoints s ≤ codePoints t)) := by
  refine ⟨fun op => ⟨compare_error_iff op, ?_⟩, fun h => ?_, ?_, ?_⟩
  · rw [compare_error_iff, comparable_comm]
  · exact ⟨compare_swap h, compare_or_equals h, compare_nan h, compare_trichotomy h⟩
  · rintro x y m n rfl rfl hx hy
    exact compare_integers hx hy
  · rintro s t rfl rfl
    exact compare_strings s t

/-- Integers on either side of both ranges, a NaN, and two characters that UTF-16 has in the other
order. -/
theorem compare_consistent_mixed :
    let least : Value := .number (.int (-9223372036854775808))
    let greatest : Value := .number (.uint 18446744073709551615)
    let nan : Value := .number (.float .nan)
    Comparable least greatest ∧ compare .lt least greatest = .ok true ∧
      compare .gt greatest least = .ok true ∧ least.equals greatest = false ∧
      Comparable least nan ∧ compare .le least nan = .ok false ∧
      compare .lt (.string "\uffff") (.string "😀") = .ok true := by
  intro least greatest nan
  have hless : Comparable least greatest := .numbers _ _
  have hnan : Comparable least nan := .numbers _ _
  obtain ⟨-, hlaws, hintegers, -⟩ := compare_consistent least greatest
  obtain ⟨hlt, -, hequals⟩ := hintegers _ _ _ _ rfl rfl rfl rfl
  obtain ⟨⟨hswap, -⟩, -⟩ := hlaws hless
  obtain ⟨-, hlaws', -⟩ := compare_consistent least nan
  obtain ⟨-, -, hfalse, -⟩ := hlaws' hnan
  obtain ⟨-, -, -, hstrings⟩ := compare_consistent (.string "\uffff") (.string "😀")
  exact ⟨hless, hlt, hswap ▸ hlt, hequals, hnan, (hfalse (.inr (by decide))).1 .le,
    (hstrings _ _ rfl rfl).1.trans (congrArg _ (by decide +kernel))⟩

end Value

end MessageMapping
