import MessageMapping.Proofs.Unambiguity

/-!
# Layers of a grouping

What grouping does to the shape of a row. A grouping reads from left to right as a row
(`Grouping.row`), and grouping a row gives one that reads as this row (`Terms.row_group`). It is
`Layered`: a chain joins at least two operands by operators of one tier, and only chains of tighter
tiers stand in it. So chains do not nest deeper than there are tiers, however long the row is.
-/

namespace MessageMapping

namespace Grouping

variable {α β : Type u}

/-! ### Reading a grouping -/

mutual

/-- The row that a grouping reads as, with the operands of a chain between its operators. -/
def row : Grouping α → Terms α
  | .operand a => ⟨a, []⟩
  | .chain first rest => ⟨(row first).first, (row first).rest ++ rowRest rest⟩

def rowRest : List (Operator × Grouping α) → List (Operator × α)
  | [] => []
  | (op, g) :: rest => (op, (row g).first) :: (row g).rest ++ rowRest rest

end

@[simp] theorem row_operand (a : α) : row (.operand a) = ⟨a, []⟩ := by
  simp [row]

theorem row_chain (first : Grouping α) (rest : List (Operator × Grouping α)) :
    row (.chain first rest) = Terms.flatten ⟨first.row, rest.map fun p => (p.1, p.2.row)⟩ := by
  have : ∀ rest : List (Operator × Grouping α),
      rowRest rest = rest.flatMap fun p => (p.1, p.2.row.first) :: p.2.row.rest := by
    intro rest
    induction rest with
    | nil => simp [rowRest]
    | cons p rest ih => simp [rowRest, ih]
  simp [row, this, Terms.flatten, List.flatMap_map]

/-! ### Layers -/

/-- Each chain joins two operands or more, by operators of one tier that is below `bound`, and its
operands are layered below that tier. -/
inductive Layered : Nat → Grouping α → Prop
  | operand (bound : Nat) (a : α) : Layered bound (.operand a)
  | chain {bound tier : Nat} {first : Grouping α} {rest : List (Operator × Grouping α)}
    (hbound : tier < bound) (hne : rest ≠ []) (htier : ∀ p ∈ rest, p.1.tier = tier)
    (hfirst : Layered tier first) (hrest : ∀ p ∈ rest, Layered tier p.2) :
    Layered bound (.chain first rest)

theorem Layered.mono {bound bound' : Nat} {g : Grouping α} (h : g.Layered bound)
    (hle : bound ≤ bound') : g.Layered bound' := by
  cases h with
  | operand => exact .operand _ _
  | chain hbound hne htier hfirst hrest =>
    exact .chain (hbound.trans_le hle) hne htier hfirst hrest

theorem Layered.map {bound : Nat} {g : Grouping α} (h : g.Layered bound) (f : α → β) :
    (g.map f).Layered bound := by
  induction h with
  | operand =>
    rw [map_operand]
    exact .operand _ _
  | chain hbound hne htier _ _ ihf ihr =>
    rw [map_chain]
    exact .chain hbound (fun h => hne (List.map_eq_nil_iff.1 h)) (List.forall_mem_map.2 htier) ihf
      (List.forall_mem_map.2 ihr)

mutual

/-- How many chains nest in each other. -/
def height : Grouping α → Nat
  | .operand _ => 0
  | .chain first rest => max (height first) (heightRest rest) + 1

def heightRest : List (Operator × Grouping α) → Nat
  | [] => 0
  | (_, g) :: rest => max (height g) (heightRest rest)

end

theorem heightRest_le {n : Nat} {rest : List (Operator × Grouping α)}
    (h : ∀ p ∈ rest, p.2.height ≤ n) : heightRest rest ≤ n := by
  induction rest with
  | nil => simp [heightRest]
  | cons p rest ih =>
    obtain ⟨hp, hrest⟩ := List.forall_mem_cons.1 h
    rw [heightRest]
    exact max_le hp (ih hrest)

theorem Layered.height_le {bound : Nat} {g : Grouping α} (h : g.Layered bound) :
    g.height ≤ bound := by
  induction h with
  | operand => simp [height]
  | chain hbound _ _ _ _ ihf ihr =>
    rw [height]
    exact Nat.succ_le_of_lt ((max_le ihf (heightRest_le ihr)).trans_lt hbound)

end Grouping

/-! ### Grouping a row -/

namespace Terms

variable {α : Type u}

theorem row_chain (terms : Terms (Grouping α)) :
    terms.chain.row = (terms.map Grouping.row).flatten := by
  obtain ⟨first, rest⟩ := terms
  cases rest with
  | nil => exact (flatten_nil _).symm
  | cons p rest => exact Grouping.row_chain first (p :: rest)

theorem row_groupBelow (tiers : Nat) (terms : Terms α) : (groupBelow tiers terms).row = terms := by
  induction tiers generalizing terms with
  | zero =>
    rw [groupBelow, row_chain, map_map]
    simp [flatten, map, List.flatMap_map]
  | succ tier ih =>
    rw [groupBelow, row_chain, map_map]
    simp only [ih]
    simpa [map] using flatten_splitAt tier terms

theorem row_group (terms : Terms α) : terms.group.row = terms :=
  row_groupBelow _ terms

theorem layered_chain {tier : Nat} {terms : Terms (Grouping α)}
    (htier : ∀ p ∈ terms.rest, p.1.tier = tier) (h : ∀ g ∈ terms.operands, g.Layered tier) :
    terms.chain.Layered (tier + 1) := by
  obtain ⟨first, rest⟩ := terms
  obtain ⟨hfirst, hrest⟩ := List.forall_mem_cons.1 h
  cases rest with
  | nil => exact hfirst.mono (Nat.le_succ tier)
  | cons p rest =>
    exact .chain (Nat.lt_succ_self tier) (List.cons_ne_nil p rest) htier hfirst
      (List.forall_mem_map.1 hrest)

theorem layered_groupBelow {tiers : Nat} {terms : Terms α} (h : terms.Below tiers) :
    (groupBelow tiers terms).Layered tiers := by
  induction tiers generalizing terms with
  | zero =>
    obtain ⟨first, rest⟩ := terms
    cases rest with
    | nil => exact .operand 0 first
    | cons p rest => exact absurd (h p List.mem_cons_self) (Nat.not_lt_zero _)
  | succ tier ih =>
    refine layered_chain (fun p hp => ?_) ?_
    · obtain ⟨q, hq, rfl⟩ := List.mem_map.1 hp
      exact tier_of_mem_splitAt q hq
    · rw [operands_map]
      exact List.forall_mem_map.2 fun piece hpiece => ih (h.splitAt piece hpiece)

theorem layered_group (terms : Terms α) : terms.group.Layered Operator.tiers :=
  layered_groupBelow terms.below_tiers

end Terms

theorem Grouping.layered_of_ofLists? {α : Type u} {operands : List α} {operators : List Operator}
    {g : Grouping α} (h : ofLists? operands operators = .ok g) : g.Layered Operator.tiers := by
  cases hterms : Terms.ofLists? operands operators with
  | error e => rw [ofLists?, hterms] at h; cases h
  | ok terms =>
    rw [ofLists?, hterms] at h
    obtain rfl := Except.ok.inj h
    exact terms.layered_group

end MessageMapping
