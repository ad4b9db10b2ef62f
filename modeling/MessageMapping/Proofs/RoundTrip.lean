import MessageMapping.Proofs.Instructions
import MessageMapping.Proofs.NumericOrder

/-!
# Through JSON and back

A JSON value comes back as it was. A value comes back in its `jsonForm`, which has no instruction
inside, no float that JSON cannot hold and one subtype for each integer; this form comes back as it
is. Main result: what is lost on the way is nothing that `equals` sees, unless an instruction or an
infinity or a NaN was there.
-/

namespace MessageMapping

namespace Numeric

theorem toInt_ofNat_of_lt {n : Nat} (h : n < 2 ^ 63) : (Int64.ofNat n).toInt = n := by
  rw [← Int64.ofInt_eq_ofNat, Int64.toInt_ofInt_of_le (by omega) (by omega)]

theorem toNumber?_ofNumber (n : Number) : (ofNumber n).toNumber? = some n := by
  cases n with
  | float x finite => exact dif_pos finite
  | int n lower upper =>
    rw [ofNumber]
    split
    · have hn : (Int64.ofInt n).toInt = n := Int64.toInt_ofInt_of_le (by omega) (by omega)
      simp only [toNumber?, hn]
    · have hn : ((UInt64.ofNat n.toNat).toNat : Int) = n := by
        rw [UInt64.toNat_ofNat_of_lt' (by simp only [UInt64.size]; omega)]
        omega
      simp only [toNumber?, hn]

/-- A number as JSON gives it back: an integer is signed if it can be, and a float that JSON does
not have is `null`. -/
def jsonForm : Numeric → Value
  | int n => .number (.int n)
  | uint n => .number (if n.toNat < 2 ^ 63 then .int (.ofNat n.toNat) else .uint n)
  | float x => if x.isFinite then .number (.float x) else .null

theorem ofJson_toNumber? (n : Numeric) :
    Value.ofJson ((n.toNumber?.map Json.number).getD .null) = n.jsonForm := by
  cases n with
  | int n =>
    have hn : n.toInt < 2 ^ 63 := n.toInt_lt
    rw [toNumber?, Option.map_some, Option.getD_some, Value.ofJson, ofNumber, if_pos hn,
      Int64.ofInt_toInt, jsonForm]
  | uint n =>
    rw [toNumber?, Option.map_some, Option.getD_some, Value.ofJson, ofNumber, jsonForm,
      Int64.ofInt_eq_ofNat, Int.toNat_natCast, UInt64.ofNat_toNat]
    norm_cast
  | float x =>
    rw [toNumber?, jsonForm]
    split <;> rfl

theorem jsonForm_of_finite (n : Numeric) (h : ∀ x, n = float x → x.isFinite = true) :
    ∃ m, n.jsonForm = .number m ∧ m.compare? n = some .eq := by
  cases n with
  | int n => exact ⟨int n, rfl, by rw [compare?_integers rfl rfl, compare_eq_iff_eq.2 rfl]⟩
  | uint n =>
    refine ⟨_, rfl, ?_⟩
    rw [compare?_integers (m := n.toNat) ?_ rfl, compare_eq_iff_eq.2 rfl]
    split
    · rename_i hn
      rw [integer?, toInt_ofNat_of_lt hn]
    · rfl
  | float x =>
    have hx := h x rfl
    have hnan : x.isNaN = false :=
      decide_eq_false (not_lt.2 (of_decide_eq_true hx).le)
    refine ⟨float x, by rw [jsonForm, if_pos hx], ?_⟩
    rw [compare?_doubles (.inl rfl), toDouble, Double.compare?, hnan]
    simp

end Numeric

namespace Value

/-! ### JSON first -/

theorem toJson?_ofJson (j : Json) : (ofJson j).toJson? = some j := by
  induction j using Json.induct with
  | null | bool | string => rfl
  | number n => rw [ofJson, toJson?, Numeric.toNumber?_ofNumber, Option.map_some, Option.getD_some]
  | array items ih =>
    have hitems : toItems (ofItems items) = items := by
      rw [toItems_eq, ofItems_eq, List.filterMap_map]
      exact (List.filterMap_congr ih).trans List.filterMap_some
    rw [ofJson, toJson?, hitems]
  | object members ih =>
    have hmembers : toMembers (ofMembers members) = members := by
      rw [toMembers_eq, ofMembers_eq, List.filterMap_map]
      refine (List.filterMap_congr fun p hp => ?_).trans List.filterMap_some
      exact congrArg (Option.map (Prod.mk p.1)) (ih p hp)
    rw [ofJson, toJson?, hmembers]

theorem toJson?_eq_none_iff {v : Value} : v.toJson? = none ↔ v = .absent ∨ v = .delete := by
  cases v <;> simp [toJson?]

/-! ### Values first -/

mutual

/-- Data as JSON gives it back: the instructions inside are gone and the numbers have their
`Numeric.jsonForm`. -/
def jsonForm : Value → Value
  | number n => n.jsonForm
  | array items => array (jsonItems items)
  | object members => object (jsonMembers members)
  | v => v

def jsonItems : List Value → List Value
  | [] => []
  | item :: rest => if item.isDomain then item.jsonForm :: jsonItems rest else jsonItems rest

def jsonMembers : List (String × Value) → List (String × Value)
  | [] => []
  | (key, value) :: rest =>
    if value.isDomain then (key, value.jsonForm) :: jsonMembers rest else jsonMembers rest

end

theorem jsonItems_eq (items : List Value) :
    jsonItems items = (items.filter isDomain).map jsonForm := by
  induction items with
  | nil => rfl
  | cons item rest ih => cases h : item.isDomain <;> simp [jsonItems, h, ih]

theorem jsonMembers_eq (members : List (String × Value)) :
    jsonMembers members =
      (members.filter fun p => p.2.isDomain).map fun p => (p.1, p.2.jsonForm) := by
  induction members with
  | nil => rfl
  | cons p rest ih => cases h : p.2.isDomain <;> simp [jsonMembers, h, ih]

/-- A value through JSON and back. -/
def throughJson? (v : Value) : Option Value :=
  v.toJson?.map ofJson

theorem throughJson?_eq (v : Value) :
    v.throughJson? = if v.isDomain then some v.jsonForm else none := by
  induction v using induct with
  | null | bool | string | absent | delete => rfl
  | number n => exact congrArg some n.ofJson_toNumber?
  | array items ih =>
    have hitems : ofItems (toItems items) = jsonItems items := calc
      _ = items.filterMap throughJson? := by
        rw [ofItems_eq, toItems_eq, List.map_filterMap]
        rfl
      _ = items.filterMap fun v => if v.isDomain then some v.jsonForm else none :=
        List.filterMap_congr ih
      _ = jsonItems items := by
        rw [jsonItems_eq, ← List.filterMap_eq_map, List.filterMap_filter]
        rfl
    exact congrArg (fun items => some (array items)) hitems
  | object members ih =>
    have hmembers : ofMembers (toMembers members) = jsonMembers members := calc
      _ = members.filterMap fun p => p.2.throughJson?.map (Prod.mk p.1) := by
        rw [ofMembers_eq, toMembers_eq, List.map_filterMap]
        simp only [throughJson?, Option.map_map]
        rfl
      _ = members.filterMap fun p => if p.2.isDomain then some (p.1, p.2.jsonForm) else none :=
        List.filterMap_congr fun p hp => by rw [ih p hp]; split <;> rfl
      _ = jsonMembers members := by
        rw [jsonMembers_eq, ← List.filterMap_eq_map, List.filterMap_filter]
        rfl
    exact congrArg (fun members => some (object members)) hmembers

/-! ### What is lost -/

/-- No infinity and no NaN, at any depth. -/
def FiniteFloats (v : Value) : Prop :=
  ∀ x, Within (.number (.float x)) v → x.isFinite = true

theorem equals_jsonForm {v : Value} (hplain : v.Plain) (hfinite : v.FiniteFloats)
    (hkeys : v.DistinctKeys) : v.jsonForm.equals v = true ∧ v.equals v.jsonForm = true := by
  induction v using induct with
  | null | bool | string => simp [jsonForm, equals]
  | number n =>
    obtain ⟨m, hm, heq⟩ := n.jsonForm_of_finite fun x hx => hfinite x (hx ▸ .refl)
    rw [jsonForm, hm, equals_number_iff, equals_number_iff]
    exact ⟨⟨n, rfl, heq⟩, m, rfl, Numeric.compare?_eq_comm.1 heq⟩
  | array items ih =>
    cases hplain with | array hplain
    have hall : ∀ v ∈ items, v.jsonForm.equals v = true ∧ v.equals v.jsonForm = true :=
      fun v hv => ih v hv (hplain v hv) (fun x hx => hfinite x (.item hv hx))
        fun inner h => hkeys inner (.item hv h)
    have hitems : jsonItems items = items.map jsonForm := by
      rw [jsonItems_eq, List.filter_eq_self.2 fun v hv => (hplain v hv).isDomain]
    rw [jsonForm, hitems, equals_array_iff, equals_array_iff]
    refine ⟨⟨_, rfl, ?_⟩, _, rfl, ?_⟩
    · rw [List.forall₂_map_left_iff, List.forall₂_same]
      exact fun v hv => (hall v hv).1
    · rw [List.forall₂_map_right_iff, List.forall₂_same]
      exact fun v hv => (hall v hv).2
  | object members ih =>
    cases hplain with | object hplain
    have hall : ∀ p ∈ members,
        p.2.jsonForm.equals p.2 = true ∧ p.2.equals p.2.jsonForm = true :=
      fun p hp => ih p hp (hplain p hp) (fun x hx => hfinite x (.member hp hx))
        fun inner h => hkeys inner (.member hp h)
    have hmembers : jsonMembers members = members.map fun p => (p.1, p.2.jsonForm) := by
      rw [jsonMembers_eq, List.filter_eq_self.2 fun p hp => (hplain p hp).isDomain]
    -- each member is found under its key, on both sides, because the keys are distinct
    have hnodup := hkeys members .refl
    rw [jsonForm, hmembers, equals_object_iff, equals_object_iff]
    refine ⟨⟨_, rfl, List.length_map _, List.forall_mem_map.2 fun p hp => ?_⟩, _, rfl,
      (List.length_map _).symm, fun p hp => ?_⟩
    · exact ⟨p.2, Entries.get?_of_mem hnodup hp, (hall p hp).1⟩
    · refine ⟨p.2.jsonForm, Entries.get?_of_mem ?_ (List.mem_map.2 ⟨p, hp, rfl⟩), (hall p hp).2⟩
      rw [List.map_map]
      exact hnodup
  | absent | delete => cases hplain

/-- JSON comes back as it was. A value that is not an instruction comes back in its `jsonForm`,
which then stays; plain data with finite floats is equal to its form. -/
theorem json_round_trip :
    (∀ j : Json, (ofJson j).toJson? = some j) ∧
    ∀ v : Value, (v.toJson? = none ↔ v = .absent ∨ v = .delete) ∧
      (v.isDomain = true →
        v.throughJson? = some v.jsonForm ∧ v.jsonForm.throughJson? = some v.jsonForm ∧
        (v.Plain → v.FiniteFloats → v.DistinctKeys →
          v.jsonForm.equals v = true ∧ v.equals v.jsonForm = true)) := by
  refine ⟨toJson?_ofJson, fun v => ⟨toJson?_eq_none_iff, fun hv => ?_⟩⟩
  have hform : v.throughJson? = some v.jsonForm := by rw [throughJson?_eq, if_pos hv]
  obtain ⟨j, -, hj⟩ := Option.map_eq_some_iff.1 hform
  have hagain : v.jsonForm.throughJson? = some v.jsonForm := by
    rw [← hj, throughJson?, toJson?_ofJson, Option.map_some]
  exact ⟨hform, hagain, equals_jsonForm⟩

/-- A value that loses two instructions and a NaN, and data of which only a subtype changes. -/
theorem json_round_trip_nested :
    let v : Value := .array [.number (.float .nan), .absent, .object [("a", .delete),
      ("b", .array [.number (.uint 7), .number (.uint 9223372036854775808)])]]
    let form : Value := .array [.null, .object [
      ("b", .array [.number (.int 7), .number (.uint 9223372036854775808)])]]
    let data : Value := .object [("b", .number (.float ⟨0⟩)), ("a", .array [.number (.uint 7)])]
    v.throughJson? = some form ∧ form.throughJson? = some form ∧
      data.Plain ∧ data.FiniteFloats ∧ data.DistinctKeys ∧
      data.jsonForm = .object [("b", .number (.float ⟨0⟩)), ("a", .array [.number (.int 7)])] ∧
      data.jsonForm.equals data = true ∧ data.equals data.jsonForm = true := by
  intro v form data
  have hform : v.jsonForm = form := rfl
  have hplain : data.Plain := by
    refine .object (List.forall_mem_cons.2 ⟨.number _, List.forall_mem_singleton.2 ?_⟩)
    exact .array (List.forall_mem_singleton.2 (.number _))
  have hfinite : data.FiniteFloats := by
    rintro x (h : Within _ (.object _))
    cases h with | member hp h
    obtain rfl | rfl : _ ∨ _ := by simpa using hp
    · cases h
      decide
    · cases h with | item hv h
      obtain rfl := List.mem_singleton.1 hv
      cases h
  have hkeys : data.DistinctKeys := by
    rintro members (h : Within _ (.object _))
    cases h with
    | refl => decide
    | member hp h =>
      obtain rfl | rfl : _ ∨ _ := by simpa using hp
      · cases h
      · cases h with | item hv h
        obtain rfl := List.mem_singleton.1 hv
        cases h
  obtain ⟨hv, hagain, -⟩ := (json_round_trip.2 v).2 rfl
  obtain ⟨-, -, hequals⟩ := (json_round_trip.2 data).2 rfl
  rw [hform] at hv hagain
  exact ⟨hv, hagain, hplain, hfinite, hkeys, rfl, hequals hplain hfinite hkeys⟩

end Value

end MessageMapping
