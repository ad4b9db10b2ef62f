import MessageMapping.Proofs.Shape

/-!
# Reducing operators two at a time

The textbook reading of precedence, beside the grouping into chains: `Terms.reduceTier` joins the
operands around the operators of one tier from left to right, `Terms.collapse` does so for the
tightest tier first and the loosest last, and what remains is one tree of binary nodes. The grouping
goes the other way and splits at the loosest tier first. `reduceBelow_succ` is where the two meet:
to reduce a row up to some tier is to split it at the operators of that tier, to reduce the pieces
by themselves, and to join what they leave from left to right.
-/

namespace MessageMapping

/-- Operands joined two at a time. -/
inductive OpTree (α : Type u)
  | leaf (a : α)
  | node (op : Operator) (left right : OpTree α)

namespace OpTree

variable {α β : Type u}

def map (f : α → β) : OpTree α → OpTree β
  | leaf a => leaf (f a)
  | node op left right => node op (left.map f) (right.map f)

/-- The operands from left to right. -/
def leaves : OpTree α → List α
  | leaf a => [a]
  | node _ left right => left.leaves ++ right.leaves

/-- Joins trees from left to right. -/
def chain (first : OpTree α) (rest : List (Operator × OpTree α)) : OpTree α :=
  rest.foldl (fun left p => node p.1 left p.2) first

end OpTree

namespace Terms

variable {α β γ : Type u}

/-- The operands from left to right. -/
def operands (terms : Terms α) : List α :=
  terms.first :: terms.rest.map Prod.snd

/-- All operators are of tiers below `tier`. -/
def Below (tier : Nat) (terms : Terms α) : Prop :=
  ∀ p ∈ terms.rest, p.1.tier < tier

/-- Joins operands around the operators of a tier; `first` is the tree joined so far. -/
def joinTier (tier : Nat) (first : OpTree α) : List (Operator × OpTree α) → Terms (OpTree α)
  | [] => ⟨first, []⟩
  | (op, t) :: rest =>
    if op.tier = tier then joinTier tier (.node op first t) rest
    else ⟨first, (op, (joinTier tier t rest).first) :: (joinTier tier t rest).rest⟩

/-- Joins the operands around the operators of a tier, from left to right. -/
def reduceTier (tier : Nat) (terms : Terms (OpTree α)) : Terms (OpTree α) :=
  joinTier tier terms.first terms.rest

/-- Reduces all tiers below `tiers`, the tightest first. -/
def reduceBelow : Nat → Terms α → Terms (OpTree α)
  | 0, terms => terms.map .leaf
  | tier + 1, terms => (reduceBelow tier terms).reduceTier tier

/-- The tree that remains when all tiers are reduced. -/
def collapse (terms : Terms α) : OpTree α :=
  (reduceBelow Operator.tiers terms).first

/-- Two rows with an operator between them. -/
def link (left : Terms α) (op : Operator) (right : Terms α) : Terms α :=
  ⟨left.first, left.rest ++ (op, right.first) :: right.rest⟩

/-- The row that pieces come from. -/
def flatten (pieces : Terms (Terms α)) : Terms α :=
  ⟨pieces.first.first,
    pieces.first.rest ++ pieces.rest.flatMap fun p => (p.1, p.2.first) :: p.2.rest⟩

theorem flatten_nil (piece : Terms α) : flatten ⟨piece, []⟩ = piece := by
  simp [flatten]

theorem flatten_cons (first : Terms α) (op : Operator) (piece : Terms α)
    (rest : List (Operator × Terms α)) :
    flatten ⟨first, (op, piece) :: rest⟩ = first.link op (flatten ⟨piece, rest⟩) := by
  simp [flatten, link]

/-! ### Splitting a row -/

theorem splitAt_nil (tier : Nat) (a : α) : splitAt tier ⟨a, []⟩ = ⟨⟨a, []⟩, []⟩ := rfl

theorem splitAt_cons (tier : Nat) (a b : α) (op : Operator) (rest : List (Operator × α)) :
    splitAt tier ⟨a, (op, b) :: rest⟩ =
      if op.tier = tier then
        ⟨⟨a, []⟩, (op, (splitAt tier ⟨b, rest⟩).first) :: (splitAt tier ⟨b, rest⟩).rest⟩
      else
        ⟨⟨a, (op, b) :: (splitAt tier ⟨b, rest⟩).first.rest⟩, (splitAt tier ⟨b, rest⟩).rest⟩ := by
  simp only [splitAt, List.foldr_cons]
  split <;> rfl

theorem splitAt_first (tier : Nat) (terms : Terms α) :
    (terms.splitAt tier).first.first = terms.first := rfl

theorem flatten_splitAt (tier : Nat) (terms : Terms α) : (terms.splitAt tier).flatten = terms := by
  obtain ⟨a, rest⟩ := terms
  induction rest generalizing a with
  | nil => rfl
  | cons p rest ih =>
    obtain ⟨op, b⟩ := p
    have hb := ih b
    simp only [flatten, splitAt_first, mk.injEq, true_and] at hb
    rw [splitAt_cons]
    split <;> simp [flatten, splitAt_first, hb]

theorem tier_of_mem_splitAt {tier : Nat} {terms : Terms α} :
    ∀ p ∈ (terms.splitAt tier).rest, p.1.tier = tier := by
  obtain ⟨a, rest⟩ := terms
  induction rest generalizing a with
  | nil => simp [splitAt_nil]
  | cons p rest ih =>
    obtain ⟨op, b⟩ := p
    rw [splitAt_cons]
    split
    · exact List.forall_mem_cons.2 ⟨‹_›, ih b⟩
    · exact ih b

theorem Below.splitAt {tier : Nat} {terms : Terms α} (h : terms.Below (tier + 1)) :
    ∀ piece ∈ (terms.splitAt tier).operands, piece.Below tier := by
  obtain ⟨a, rest⟩ := terms
  induction rest generalizing a with
  | nil => simp [splitAt_nil, operands, Below]
  | cons p rest ih =>
    obtain ⟨op, b⟩ := p
    obtain ⟨hop, hrest⟩ := List.forall_mem_cons.1 h
    obtain ⟨hfirst, hpieces⟩ := List.forall_mem_cons.1 (ih b hrest)
    rw [splitAt_cons]
    split
    · refine List.forall_mem_cons.2 ⟨by simp [Below], ?_⟩
      exact List.forall_mem_cons.2 ⟨hfirst, hpieces⟩
    · refine List.forall_mem_cons.2 ⟨List.forall_mem_cons.2 ⟨?_, hfirst⟩, hpieces⟩
      show op.tier < tier
      change op.tier < tier + 1 at hop
      omega

/-! ### Reducing a row -/

theorem joinTier_all {tier : Nat} {rest : List (Operator × OpTree α)}
    (h : ∀ p ∈ rest, p.1.tier = tier) (first : OpTree α) :
    joinTier tier first rest = ⟨.chain first rest, []⟩ := by
  induction rest generalizing first with
  | nil => rfl
  | cons p rest ih =>
    obtain ⟨hp, hrest⟩ := List.forall_mem_cons.1 h
    rw [joinTier, if_pos hp, ih hrest]
    rfl

theorem reduceTier_link {tier : Nat} {op : Operator} (hop : op.tier ≠ tier)
    (left right : Terms (OpTree α)) :
    (left.link op right).reduceTier tier =
      (left.reduceTier tier).link op (right.reduceTier tier) := by
  obtain ⟨first, rest⟩ := left
  simp only [reduceTier, link]
  induction rest generalizing first with
  | nil => simp [joinTier, hop]
  | cons p rest ih =>
    obtain ⟨op', t⟩ := p
    simp only [List.cons_append, joinTier]
    split
    · exact ih _
    · rw [ih]; rfl

theorem reduceTier_flatten {tier : Nat} {pieces : Terms (Terms (OpTree α))}
    (h : ∀ p ∈ pieces.rest, p.1.tier ≠ tier) :
    pieces.flatten.reduceTier tier = (pieces.map (reduceTier tier)).flatten := by
  obtain ⟨first, rest⟩ := pieces
  induction rest generalizing first with
  | nil => simp [flatten_nil, map]
  | cons p rest ih =>
    obtain ⟨hop, hrest⟩ := List.forall_mem_cons.1 h
    rw [flatten_cons, reduceTier_link hop, ih p.2 hrest]
    exact (flatten_cons _ _ _ _).symm

theorem map_leaf_flatten (pieces : Terms (Terms α)) :
    pieces.flatten.map OpTree.leaf = (pieces.map fun piece => piece.map OpTree.leaf).flatten := by
  simp [flatten, map, List.map_flatMap, List.flatMap_map]

/-- Pieces between operators of tiers that are not reduced are reduced by themselves. -/
theorem reduceBelow_flatten {tiers : Nat} {pieces : Terms (Terms α)}
    (h : ∀ p ∈ pieces.rest, tiers ≤ p.1.tier) :
    reduceBelow tiers pieces.flatten = (pieces.map (reduceBelow tiers)).flatten := by
  induction tiers with
  | zero => exact map_leaf_flatten pieces
  | succ tier ih =>
    rw [reduceBelow, ih fun p hp => Nat.le_of_succ_le (h p hp), reduceTier_flatten]
    · simp [map, reduceBelow, Function.comp_def]
    · intro p hp
      obtain ⟨q, hq, rfl⟩ := List.mem_map.1 hp
      have := h q hq
      show q.1.tier ≠ tier
      omega

theorem joinTier_rest {tier : Nat} {rest : List (Operator × OpTree α)} (first : OpTree α) :
    ∀ p ∈ (joinTier tier first rest).rest, p.1.tier ≠ tier ∧ ∃ q ∈ rest, q.1 = p.1 := by
  induction rest generalizing first with
  | nil => simp [joinTier]
  | cons q rest ih =>
    obtain ⟨op, t⟩ := q
    rw [joinTier]
    split
    · intro p hp
      obtain ⟨hne, q, hq, hqp⟩ := ih _ p hp
      exact ⟨hne, q, List.mem_cons_of_mem _ hq, hqp⟩
    · refine List.forall_mem_cons.2 ⟨⟨‹_›, _, List.mem_cons_self, rfl⟩, fun p hp => ?_⟩
      obtain ⟨hne, q, hq, hqp⟩ := ih _ p hp
      exact ⟨hne, q, List.mem_cons_of_mem _ hq, hqp⟩

theorem reduceBelow_rest (tiers : Nat) (terms : Terms α) :
    ∀ p ∈ (reduceBelow tiers terms).rest, tiers ≤ p.1.tier ∧ ∃ q ∈ terms.rest, q.1 = p.1 := by
  induction tiers with
  | zero =>
    intro p hp
    obtain ⟨q, hq, rfl⟩ := List.mem_map.1 hp
    exact ⟨Nat.zero_le _, q, hq, rfl⟩
  | succ tier ih =>
    intro p hp
    obtain ⟨hne, q, hq, hqp⟩ := joinTier_rest _ p hp
    obtain ⟨hle, r, hr, hrq⟩ := ih q hq
    rw [hqp] at hle
    exact ⟨by omega, r, hr, hrq.trans hqp⟩

/-- Reducing all tiers that occur leaves one tree. -/
theorem Below.reduceBelow_rest {tiers : Nat} {terms : Terms α} (h : terms.Below tiers) :
    (reduceBelow tiers terms).rest = [] := by
  refine List.eq_nil_iff_forall_not_mem.2 fun p hp => ?_
  obtain ⟨hle, q, hq, hqp⟩ := Terms.reduceBelow_rest tiers terms p hp
  have := h q hq
  rw [hqp] at this
  omega

/-- Reducing up to a tier is joining what the pieces between its operators reduce to. -/
theorem reduceBelow_succ {tier : Nat} {terms : Terms α} (h : terms.Below (tier + 1)) :
    reduceBelow (tier + 1) terms =
      ⟨.chain (reduceBelow tier (terms.splitAt tier).first).first
        ((terms.splitAt tier).rest.map fun p => (p.1, (reduceBelow tier p.2).first)), []⟩ := by
  have hpieces : ∀ piece ∈ (terms.splitAt tier).operands,
      reduceBelow tier piece = ⟨(reduceBelow tier piece).first, []⟩ := fun piece hp => by
    rw [← (h.splitAt piece hp).reduceBelow_rest]
  have htier : ∀ p ∈ (terms.splitAt tier).rest, p.1.tier = tier := tier_of_mem_splitAt
  have hflat : reduceBelow tier terms = ⟨(reduceBelow tier (terms.splitAt tier).first).first,
      (terms.splitAt tier).rest.map fun p => (p.1, (reduceBelow tier p.2).first)⟩ := by
    obtain ⟨hfirst, hrest⟩ := List.forall_mem_cons.1 hpieces
    conv_lhs => rw [← flatten_splitAt tier terms]
    rw [reduceBelow_flatten fun p hp => Nat.le_of_eq (htier p hp).symm]
    simp only [flatten, map, List.flatMap_map, mk.injEq, true_and]
    rw [hfirst, List.nil_append, List.map_eq_flatMap]
    exact List.flatMap_congr fun p hp => by rw [hrest p.2 (List.mem_map_of_mem hp)]
  rw [reduceBelow, hflat, reduceTier, joinTier_all]
  intro p hp
  obtain ⟨q, hq, rfl⟩ := List.mem_map.1 hp
  exact htier q hq

theorem below_tiers (terms : Terms α) : terms.Below Operator.tiers :=
  fun p _ => p.1.tier_lt

/-! ### Operands are kept -/

theorem joinTier_leaves (tier : Nat) (first : OpTree α) (rest : List (Operator × OpTree α)) :
    (joinTier tier first rest).operands.flatMap OpTree.leaves =
      first.leaves ++ rest.flatMap fun p => p.2.leaves := by
  induction rest generalizing first with
  | nil => rfl
  | cons p rest ih =>
    obtain ⟨op, t⟩ := p
    rw [joinTier]
    split
    · rw [ih, OpTree.leaves, List.flatMap_cons, List.append_assoc]
    · rw [List.flatMap_cons, ← ih t]
      rfl

theorem reduceBelow_leaves (tiers : Nat) (terms : Terms α) :
    (reduceBelow tiers terms).operands.flatMap OpTree.leaves = terms.operands := by
  induction tiers with
  | zero =>
    obtain ⟨first, rest⟩ := terms
    simp [reduceBelow, operands, map, OpTree.leaves, List.flatMap_map, ← List.map_eq_flatMap]
  | succ tier ih =>
    rw [reduceBelow, reduceTier, joinTier_leaves, ← ih, operands, List.flatMap_cons,
      List.flatMap_map]

theorem leaves_collapse (terms : Terms α) : terms.collapse.leaves = terms.operands := by
  rw [← reduceBelow_leaves Operator.tiers terms, operands,
    terms.below_tiers.reduceBelow_rest]
  simp [collapse]

/-! ### Rows of other operands -/

theorem map_map (f : α → β) (g : β → γ) (terms : Terms α) :
    (terms.map f).map g = terms.map fun a => g (f a) := by
  simp [map]

theorem ofLists?_of_length {operands : List α} {operators : List Operator}
    (h : operands.length = operators.length + 1) :
    ∃ terms, ofLists? operands operators = .ok terms ∧ terms.operands = operands := by
  cases operands with
  | nil => simp at h
  | cons first others =>
    have h : others.length = operators.length := Nat.succ.inj h
    refine ⟨_, if_pos h, ?_⟩
    show first :: (operators.zip others).map Prod.snd = first :: others
    rw [List.map_snd_zip (Nat.le_of_eq h)]

theorem ofLists?_map (f : α → β) (operands : List α) (operators : List Operator) :
    ofLists? (operands.map f) operators = (ofLists? operands operators).map (map f) := by
  cases operands with
  | nil => rfl
  | cons first others =>
    simp only [List.map_cons, ofLists?, List.length_map]
    split
    · simp [Except.map, map, List.zipWith_map_right, List.map_zipWith]
    · rfl

theorem splitAt_map (f : α → β) (tier : Nat) (terms : Terms α) :
    (terms.map f).splitAt tier = (terms.splitAt tier).map (map f) := by
  obtain ⟨a, rest⟩ := terms
  induction rest generalizing a with
  | nil => rfl
  | cons p rest ih =>
    obtain ⟨op, b⟩ := p
    have hb : splitAt tier ⟨f b, rest.map fun p => (p.1, f p.2)⟩ = _ := ih b
    show splitAt tier ⟨f a, (op, f b) :: rest.map fun p => (p.1, f p.2)⟩ = _
    rw [splitAt_cons, splitAt_cons, hb]
    split <;> simp [map]

theorem groupBelow_map (f : α → β) (tiers : Nat) (terms : Terms α) :
    groupBelow tiers (terms.map f) = (groupBelow tiers terms).map f := by
  have hchain : ∀ terms : Terms (Grouping α),
      (terms.map (Grouping.map f)).chain = terms.chain.map f := by
    rintro ⟨first, rest⟩
    cases rest <;> simp [chain, map]
  induction tiers generalizing terms with
  | zero => rw [groupBelow, groupBelow, ← hchain, map_map, map_map]; simp
  | succ tier ih =>
    rw [groupBelow, groupBelow, splitAt_map, ← hchain, map_map, map_map]
    simp only [ih]

theorem group_map (f : α → β) (terms : Terms α) : (terms.map f).group = terms.group.map f :=
  groupBelow_map f _ terms

end Terms

end MessageMapping
