import MessageMapping.Value.Json
import Mathlib

/-!
# Values and JSON values as trees

Induction over values and over JSON values, with what is known of all items and all members, what
stands within a value, and the conversions between the two kinds of trees as maps over lists.
-/

namespace MessageMapping

theorem forall₂_filterMap {α β : Type} {R : α → β → Prop} {f : α → Option β} {as : List α}
    (h : ∀ a ∈ as, ∃ b, f a = some b ∧ R a b) : List.Forall₂ R as (as.filterMap f) := by
  induction as with
  | nil => exact .nil
  | cons a rest ih =>
    obtain ⟨⟨b, hb, hab⟩, hrest⟩ := List.forall_mem_cons.1 h
    rw [List.filterMap_cons_some hb]
    exact .cons hab (ih hrest)

@[elab_as_elim]
theorem Json.induct {P : Json → Prop} (null : P .null) (bool : ∀ b, P (.bool b))
    (number : ∀ n, P (.number n)) (string : ∀ s, P (.string s))
    (array : ∀ items, (∀ j ∈ items, P j) → P (.array items))
    (object : ∀ members, (∀ p ∈ members, P p.2) → P (.object members)) (j : Json) : P j :=
  @Json.rec P (fun items => ∀ j ∈ items, P j) (fun members => ∀ p ∈ members, P p.2)
    (fun p => P p.2) null bool number string array object
    (by simp) (fun _ _ hj hitems => List.forall_mem_cons.2 ⟨hj, hitems⟩)
    (by simp) (fun _ _ hp hmembers => List.forall_mem_cons.2 ⟨hp, hmembers⟩)
    (fun _ _ hj => hj) j

namespace Value

@[elab_as_elim]
theorem induct {P : Value → Prop} (null : P .null) (bool : ∀ b, P (.bool b))
    (number : ∀ n, P (.number n)) (string : ∀ s, P (.string s))
    (array : ∀ items, (∀ v ∈ items, P v) → P (.array items))
    (object : ∀ members, (∀ p ∈ members, P p.2) → P (.object members))
    (absent : P .absent) (delete : P .delete) (v : Value) : P v :=
  @Value.rec P (fun items => ∀ v ∈ items, P v) (fun members => ∀ p ∈ members, P p.2)
    (fun p => P p.2) null bool number string array object absent delete
    (by simp) (fun _ _ hv hitems => List.forall_mem_cons.2 ⟨hv, hitems⟩)
    (by simp) (fun _ _ hp hmembers => List.forall_mem_cons.2 ⟨hp, hmembers⟩)
    (fun _ _ hv => hv) v

/-- The first value stands in the second one, at any depth, or is the whole of it. -/
inductive Within (w : Value) : Value → Prop
  | refl : Within w w
  | item {items : List Value} {v : Value} (hv : v ∈ items) (h : Within w v) :
    Within w (.array items)
  | member {members : List (String × Value)} {p : String × Value} (hp : p ∈ members)
    (h : Within w p.2) : Within w (.object members)

/-- No object has two members of one name, at any depth; setting members never makes such. -/
def DistinctKeys (v : Value) : Prop :=
  ∀ members, Within (.object members) v → (members.map Prod.fst).Nodup

namespace DistinctKeys

variable {v : Value} {items : List Value} {members : List (String × Value)} {p : String × Value}

theorem keys (h : (object members).DistinctKeys) : (members.map Prod.fst).Nodup :=
  h members .refl

theorem item (h : (array items).DistinctKeys) (hv : v ∈ items) : v.DistinctKeys :=
  fun inner hinner => h inner (.item hv hinner)

theorem member (h : (object members).DistinctKeys) (hp : p ∈ members) : p.2.DistinctKeys :=
  fun inner hinner => h inner (.member hp hinner)

theorem of_number (x : Numeric) : (number x).DistinctKeys :=
  nofun

theorem of_items (h : ∀ v ∈ items, v.DistinctKeys) : (array items).DistinctKeys := by
  intro inner hinner
  cases hinner with | item hv hinner
  exact h _ hv inner hinner

theorem of_members (hkeys : (members.map Prod.fst).Nodup)
    (h : ∀ p ∈ members, p.2.DistinctKeys) : (object members).DistinctKeys := by
  intro inner hinner
  cases hinner with
  | refl => exact hkeys
  | member hp hinner => exact h _ hp inner hinner

end DistinctKeys

theorem ofItems_eq (items : List Json) : ofItems items = items.map ofJson := by
  induction items with
  | nil => rfl
  | cons item rest ih => simp [ofItems, ih]

theorem ofMembers_eq (members : List (String × Json)) :
    ofMembers members = members.map fun p => (p.1, ofJson p.2) := by
  induction members with
  | nil => rfl
  | cons p rest ih => simp [ofMembers, ih]

theorem toItems_eq (items : List Value) : toItems items = items.filterMap toJson? := by
  induction items with
  | nil => rfl
  | cons item rest ih => cases h : item.toJson? <;> simp [toItems, h, ih]

theorem toMembers_eq (members : List (String × Value)) :
    toMembers members = members.filterMap fun p => p.2.toJson?.map (Prod.mk p.1) := by
  induction members with
  | nil => rfl
  | cons p rest ih => cases h : p.2.toJson? <;> simp [toMembers, h, ih]

end Value

end MessageMapping
