import MessageMapping.Proofs.NumericOrder

/-!
# Laws of equality

`Value.equals` looks up each member of one object in the other and compares sizes, which says
nothing by itself about the members of the other. Keys are distinct, so it does not have to: equality
is symmetric, and it does not see a value being `Reordered`, which moves members of objects at any
depth. What is not equal to itself has a NaN in it.
-/

namespace MessageMapping

namespace Numeric

theorem compare?_self_iff (x : Numeric) :
    x.compare? x = some .eq ↔ ∀ d, x = float d → d.isNaN = false := by
  rw [compare?_eq_iff, and_self]
  cases x with
  | int n => exact iff_of_true ((le_integers rfl rfl).2 le_rfl) nofun
  | uint n => exact iff_of_true ((le_integers rfl rfl).2 le_rfl) nofun
  | float d =>
    rw [le_doubles (.inl rfl)]
    constructor
    · rintro ⟨hnan, -, -⟩ d' hd
      obtain rfl := float.inj hd
      exact hnan
    · intro hnan
      exact ⟨hnan d rfl, hnan d rfl, le_rfl⟩

theorem compare?_of_same {x y : Numeric} (h : x.same y = true) : x.compare? y = some .eq := by
  unfold same at h
  split at h
  · obtain rfl := eq_of_beq h
    exact (compare?_self_iff _).2 nofun
  · obtain rfl := eq_of_beq h
    exact (compare?_self_iff _).2 nofun
  · rw [compare?_doubles (.inl rfl)]
    exact eq_of_beq h
  · cases h

end Numeric

namespace Value

variable {l r v w : Value}

/-! ### Symmetry -/

/-- If all keys of an object are keys of another one that is not larger, both have the same keys. -/
theorem perm_keys {xs ys : Entries Value} (hkeys : (xs.map Prod.fst).Nodup)
    (hlength : xs.length = ys.length) (h : ∀ p ∈ xs, ∃ y, ys.get? p.1 = some y) :
    (xs.map Prod.fst).Perm (ys.map Prod.fst) := by
  have hsubset : xs.map Prod.fst ⊆ ys.map Prod.fst := by
    intro key hkey
    obtain ⟨p, hp, rfl⟩ := List.mem_map.1 hkey
    obtain ⟨y, hy⟩ := h p hp
    exact List.mem_map.2 ⟨_, Entries.mem_of_get? hy, rfl⟩
  have hsubperm := List.subperm_of_subset hkeys hsubset
  refine hsubperm.perm_of_length_le ?_
  rw [List.length_map, List.length_map, hlength]

theorem equals_flip (hl : l.DistinctKeys) (hr : r.DistinctKeys) (h : l.equals r = true) :
    r.equals l = true := by
  induction l using Value.induct generalizing r with
  | null | bool | string | absent | delete =>
    obtain rfl := eq_of_equals_atom h trivial
    exact h
  | number x =>
    obtain ⟨y, rfl, hxy⟩ := equals_number_iff.1 h
    exact equals_number_iff.2 ⟨x, rfl, Numeric.compare?_eq_comm.1 hxy⟩
  | array xs ih =>
    obtain ⟨ys, rfl, hxy⟩ := equals_array_iff.1 h
    obtain ⟨hlength, hxy⟩ := List.forall₂_iff_get.1 hxy
    refine equals_array_iff.2 ⟨xs, rfl, List.forall₂_iff_get.2 ⟨hlength.symm, fun i hi hj => ?_⟩⟩
    have hx := List.get_mem xs ⟨i, hj⟩
    have hy := List.get_mem ys ⟨i, hi⟩
    exact ih _ hx (hl.item hx) (hr.item hy) (hxy i hj hi)
  | object xs ih =>
    obtain ⟨ys, rfl, hlength, hxy⟩ := equals_object_iff.1 h
    refine equals_object_iff.2 ⟨xs, rfl, hlength.symm, fun ⟨key, y⟩ hy => ?_⟩
    -- by counting, a key on the right is one on the left, and then its members are the compared ones
    have hperm := perm_keys hl.keys hlength fun p hp => (hxy p hp).imp fun _ h => h.1
    have hkey : key ∈ xs.map Prod.fst := hperm.mem_iff.2 (List.mem_map.2 ⟨_, hy, rfl⟩)
    obtain ⟨⟨_, x⟩, hx, rfl⟩ := List.mem_map.1 hkey
    have hequal := equals_get? hxy hx (Entries.get?_of_mem hr.keys hy)
    exact ⟨x, Entries.get?_of_mem hl.keys hx, ih _ hx (hl.member hx) (hr.member hy) hequal⟩

theorem equals_comm (hl : l.DistinctKeys) (hr : r.DistinctKeys) : l.equals r = r.equals l := by
  rw [Bool.eq_iff_iff]
  exact ⟨equals_flip hl hr, equals_flip hr hl⟩

/-! ### Values that are not equal to themselves -/

/-- No NaN, at any depth. -/
def NoNaN (v : Value) : Prop :=
  ∀ x, Within (.number (.float x)) v → x.isNaN = false

theorem noNaN_array_iff {items : List Value} : (array items).NoNaN ↔ ∀ v ∈ items, v.NoNaN := by
  constructor
  · intro h v hv x hx
    exact h x (.item hv hx)
  · intro h x hx
    cases hx with | item hv hx
    exact h _ hv x hx

theorem noNaN_object_iff {members : List (String × Value)} :
    (object members).NoNaN ↔ ∀ p ∈ members, p.2.NoNaN := by
  constructor
  · intro h p hp x hx
    exact h x (.member hp hx)
  · intro h x hx
    cases hx with | member hp hx
    exact h _ hp x hx

theorem equals_self_iff (hv : v.DistinctKeys) : v.equals v = true ↔ v.NoNaN := by
  induction v using Value.induct with
  | null | bool | string | absent | delete =>
    refine iff_of_true (by simp [equals]) fun x hx => ?_
    cases hx
  | number x =>
    rw [equals, beq_iff_eq, Numeric.compare?_self_iff]
    constructor
    · intro h d hd
      cases hd
      exact h d rfl
    · rintro h d rfl
      exact h d .refl
  | array items ih =>
    rw [equals, equalsItems_iff, List.forall₂_same, noNaN_array_iff]
    exact forall₂_congr fun v hitem => ih v hitem (hv.item hitem)
  | object members ih =>
    rw [equals, beq_self_eq_true, Bool.true_and, equalsMembers_iff, noNaN_object_iff]
    refine forall₂_congr fun p hp => ?_
    rw [← ih p hp (hv.member hp), Entries.get?_of_mem hv.keys hp]
    simp

/-! ### Order of members -/

/-- The second value is the first one with members of objects, at any depth, in another order. -/
inductive Reordered : Value → Value → Prop
  | refl (v : Value) : Reordered v v
  | members {xs ys : List (String × Value)} (h : xs.Perm ys) : Reordered (.object xs) (.object ys)
  | item {before after : List Value} {v w : Value} (h : Reordered v w) :
    Reordered (.array (before ++ v :: after)) (.array (before ++ w :: after))
  | member {before after : List (String × Value)} {key : String} {v w : Value}
    (h : Reordered v w) :
    Reordered (.object (before ++ (key, v) :: after)) (.object (before ++ (key, w) :: after))
  | trans {u v w : Value} (huv : Reordered u v) (hvw : Reordered v w) : Reordered u w

namespace Reordered

/-- An object inside of the reordered value has the keys of one inside of the original. -/
theorem exists_object (h : Reordered v w) {ys : List (String × Value)}
    (hys : Within (.object ys) w) :
    ∃ xs, Within (.object xs) v ∧ (xs.map Prod.fst).Perm (ys.map Prod.fst) := by
  induction h generalizing ys with
  | refl v => exact ⟨ys, hys, .refl _⟩
  | members h =>
    cases hys with
    | refl => exact ⟨_, .refl, h.map _⟩
    | member hp hys => exact ⟨ys, .member (h.mem_iff.2 hp) hys, .refl _⟩
  | item h ih =>
    cases hys with | item hv hys
    rw [List.mem_append, List.mem_cons] at hv
    rcases hv with hv | rfl | hv
    · exact ⟨ys, .item (by simp [hv]) hys, .refl _⟩
    · obtain ⟨xs, hxs, hperm⟩ := ih hys
      exact ⟨xs, .item (by simp) hxs, hperm⟩
    · exact ⟨ys, .item (by simp [hv]) hys, .refl _⟩
  | @member before after key v w h ih =>
    cases hys with
    | refl => exact ⟨_, .refl, by simp⟩
    | member hp hys =>
      rw [List.mem_append, List.mem_cons] at hp
      rcases hp with hp | rfl | hp
      · exact ⟨ys, .member (by simp [hp]) hys, .refl _⟩
      · obtain ⟨xs, hxs, hperm⟩ := ih hys
        exact ⟨xs, .member (p := (key, v)) (by simp) hxs, hperm⟩
      · exact ⟨ys, .member (by simp [hp]) hys, .refl _⟩
  | trans _ _ ihuv ihvw =>
    obtain ⟨ms, hms, hperm⟩ := ihvw hys
    obtain ⟨xs, hxs, hperm'⟩ := ihuv hms
    exact ⟨xs, hxs, hperm'.trans hperm⟩

theorem distinctKeys (h : Reordered v w) (hv : v.DistinctKeys) : w.DistinctKeys := by
  intro ys hys
  obtain ⟨xs, hxs, hperm⟩ := h.exists_object hys
  exact hperm.nodup_iff.1 (hv xs hxs)

theorem equalsItems_item (h : ∀ u, v.equals u = w.equals u) (before after zs : List Value) :
    equalsItems (before ++ v :: after) zs = equalsItems (before ++ w :: after) zs := by
  induction before generalizing zs with
  | nil => cases zs <;> simp [equalsItems, h]
  | cons b before ih => cases zs <;> simp [equalsItems, ih]

/-- The left side is read member by member, so its order never counts. -/
theorem equals_left (h : Reordered v w) (u : Value) : v.equals u = w.equals u := by
  induction h generalizing u with
  | refl v => rfl
  | members h =>
    rw [Bool.eq_iff_iff, equals_object_iff, equals_object_iff, h.length_eq]
    simp only [h.mem_iff]
  | item h ih =>
    cases u with
    | array zs => exact equalsItems_item ih _ _ zs
    | _ => rfl
  | member h ih =>
    rw [Bool.eq_iff_iff, equals_object_iff, equals_object_iff]
    simp [or_imp, forall_and, ih]
  | trans _ _ ihuv ihvw => rw [ihuv, ihvw]

theorem equals_eq {l' r' : Value} (hleft : Reordered l l') (hright : Reordered r r')
    (hl : l.DistinctKeys) (hr : r.DistinctKeys) : l'.equals r' = l.equals r := by
  have hl' := hleft.distinctKeys hl
  have hr' := hright.distinctKeys hr
  calc l'.equals r' = r'.equals l' := equals_comm hl' hr'
    _ = r.equals l' := (hright.equals_left l').symm
    _ = l'.equals r := equals_comm hr hl'
    _ = l.equals r := (hleft.equals_left r).symm

end Reordered

/-! ### Sameness -/

theorem equalsItems_of_sameItems {xs ys : List Value}
    (ih : ∀ x ∈ xs, ∀ y, x.same y = true → x.equals y = true) (h : sameItems xs ys = true) :
    equalsItems xs ys = true := by
  induction xs generalizing ys with
  | nil =>
    cases ys with
    | nil => rfl
    | cons y ys => cases h
  | cons x xs ihs =>
    obtain ⟨ihx, ihxs⟩ := List.forall_mem_cons.1 ih
    cases ys with
    | nil => cases h
    | cons y ys =>
      rw [sameItems, Bool.and_eq_true] at h
      rw [equalsItems, ihx y h.1, ihs ihxs h.2, Bool.and_self]

theorem equalsMembers_of_sameMembers {xs ys : List (String × Value)}
    (ih : ∀ p ∈ xs, ∀ y, p.2.same y = true → p.2.equals y = true)
    (h : sameMembers xs ys = true) : equalsMembers xs ys = true := by
  induction xs with
  | nil => rfl
  | cons p xs ihs =>
    obtain ⟨ihp, ihxs⟩ := List.forall_mem_cons.1 ih
    rw [sameMembers, Bool.and_eq_true] at h
    rw [equalsMembers, ihs ihxs h.2, Bool.and_true]
    cases hy : Entries.get? p.1 ys with
    | none =>
      rw [hy] at h
      cases h.1
    | some y =>
      rw [hy] at h
      exact ihp y h.1

theorem equals_of_same (h : l.same r = true) : l.equals r = true := by
  induction l using Value.induct generalizing r with
  | null | bool | string | absent | delete => cases r <;> simp_all [same, equals]
  | number x =>
    cases r with
    | number y => exact equals_number_iff.2 ⟨y, rfl, Numeric.compare?_of_same h⟩
    | _ => cases h
  | array xs ih =>
    cases r with
    | array ys =>
      rw [same] at h
      rw [equals]
      exact equalsItems_of_sameItems (fun x hx y => ih x hx) h
    | _ => cases h
  | object xs ih =>
    cases r with
    | object ys =>
      rw [same, Bool.and_eq_true] at h
      rw [equals, h.1, Bool.true_and]
      exact equalsMembers_of_sameMembers (fun p hp y => ih p hp) h.2
    | _ => cases h

/-! ### All laws -/

theorem kind_eq_of_equals (h : l.equals r = true) : l.kind = r.kind := by
  cases l <;> cases r <;> first | rfl | cases h

/-- Equality is symmetric, reflexive but for values with a NaN in them, and blind to the order of
members at any depth. It holds of values that are the same, and only of values of one kind. -/
theorem equals_laws (hl : l.DistinctKeys) (hr : r.DistinctKeys) :
    l.equals r = r.equals l ∧
    (l.equals l = true ↔ l.NoNaN) ∧
    (∀ l' r', Reordered l l' → Reordered r r' → l'.equals r' = l.equals r) ∧
    (l.same r = true → l.equals r = true) ∧
    (l.equals r = true → l.kind = r.kind) :=
  ⟨equals_comm hl hr, equals_self_iff hl, fun _ _ hleft hright => hleft.equals_eq hright hl hr,
    equals_of_same, kind_eq_of_equals⟩

/-- Members moved inside of an array, and one number in two subtypes. -/
theorem equals_laws_moved :
    let l : Value := .array [.object [("a", .number (.int 1)), ("b", .number (.float ⟨0⟩))]]
    let l' : Value := .array [.object [("b", .number (.float ⟨0⟩)), ("a", .number (.int 1))]]
    let r : Value := .array [.object [("a", .number (.uint 1)), ("b", .number (.int 0))]]
    l.DistinctKeys ∧ r.DistinctKeys ∧ Reordered l l' ∧ l.same r = false ∧
      l'.equals r = true ∧ r.equals l = true ∧ l.NoNaN ∧ l.kind = r.kind := by
  intro l l' r
  have hl : l.DistinctKeys := .of_items (List.forall_mem_singleton.2
    (.of_members (by decide) (by simp [DistinctKeys.of_number])))
  have hr : r.DistinctKeys := .of_items (List.forall_mem_singleton.2
    (.of_members (by decide) (by simp [DistinctKeys.of_number])))
  have hmoved : Reordered l l' := @Reordered.item [] [] _ _ (.members (.swap _ _ _))
  have hequal : l.equals r = true := by decide +kernel
  obtain ⟨hcomm, hself, hreordered, -, hkind⟩ := equals_laws hl hr
  refine ⟨hl, hr, hmoved, by decide, ?_, hcomm ▸ hequal, hself.1 (by decide +kernel), hkind hequal⟩
  rw [hreordered l' r hmoved (.refl r)]
  exact hequal

end Value

end MessageMapping
