import MessageMapping.Proofs.Building

/-!
# Rows have one tree

A tree of binary nodes reads from left to right as a row of operands, and it is `Ordered` if it
follows precedence: operators of looser tiers stand above tighter ones, and operators of one tier
associate to the left. The tree that is left when a row is reduced is one such tree, and there is no
other (`OpTree.Ordered.eq_of_row`). So a row may be reduced in blocks, as long as each block binds
tighter than the operator on its left and no looser than the one on its right (`collapse_flatten`).
-/

namespace MessageMapping

/-! ### Rows -/

namespace Terms

variable {α β : Type u}

/-- The operators from left to right. -/
def operators (terms : Terms α) : List Operator :=
  terms.rest.map Prod.fst

theorem ofLists?_eq_ok {operands : List α} {operators : List Operator} {terms : Terms α}
    (h : terms.operands = operands) (h' : terms.operators = operators) :
    ofLists? operands operators = .ok terms := by
  subst h h'
  obtain ⟨first, rest⟩ := terms
  have hlength : (rest.map Prod.snd).length = (rest.map Prod.fst).length := by simp
  have hzip : (rest.map Prod.fst).zip (rest.map Prod.snd) = rest := (List.zip_of_prod rfl rfl).symm
  rw [Terms.operands, Terms.operators, ofLists?, if_pos hlength, ← List.zip, hzip]

theorem operators_of_ofLists? {operands : List α} {operators : List Operator} {terms : Terms α}
    (h : ofLists? operands operators = .ok terms) : terms.operators = operators := by
  cases operands with
  | nil => cases h
  | cons first others =>
    rw [ofLists?] at h
    split at h
    · rename_i hlength
      obtain rfl := Except.ok.inj h
      exact List.map_fst_zip (Nat.le_of_eq hlength.symm)
    · cases h

theorem operators_map (f : α → β) (terms : Terms α) :
    (terms.map f).operators = terms.operators := by
  simp [map, operators]

theorem operators_link (left : Terms α) (op : Operator) (right : Terms α) :
    (left.link op right).operators = left.operators ++ op :: right.operators := by
  simp [link, operators]

theorem map_link (f : α → β) (left : Terms α) (op : Operator) (right : Terms α) :
    (left.link op right).map f = (left.map f).link op (right.map f) := by
  simp [map, link]

theorem flatten_link (left : Terms (Terms α)) (op : Operator) (right : Terms (Terms α)) :
    (left.link op right).flatten = left.flatten.link op right.flatten := by
  simp [flatten, link]

/-- Two ways to cut a row at an operator are the same, or one operator stands to the left of the
other. -/
theorem link_eq_link {left right left' right' : Terms α} {op op' : Operator}
    (h : left.link op right = left'.link op' right') :
    (left = left' ∧ op = op' ∧ right = right') ∨
      (op ∈ left'.operators ∧ op' ∈ right.operators) ∨
        op' ∈ left.operators ∧ op ∈ right'.operators := by
  obtain ⟨first, rest⟩ := left
  obtain ⟨first', rest'⟩ := left'
  obtain ⟨second, others⟩ := right
  obtain ⟨second', others'⟩ := right'
  simp only [link, mk.injEq] at h
  obtain ⟨rfl, h⟩ := h
  rcases List.append_eq_append_iff.1 h with ⟨between, rfl, hcut⟩ | ⟨between, rfl, hcut⟩
  · cases between with
    | nil => grind
    | cons p between =>
      obtain ⟨rfl, rfl⟩ := List.cons.inj hcut
      exact .inr (.inl (by simp [operators]))
  · cases between with
    | nil => grind
    | cons p between =>
      obtain ⟨rfl, rfl⟩ := List.cons.inj hcut
      exact .inr (.inr (by simp [operators]))

end Terms

/-! ### Ordered trees -/

namespace OpTree

variable {α β : Type u}

/-- The row that a tree reads as. -/
def row : OpTree α → Terms α
  | leaf a => ⟨a, []⟩
  | node op left right => left.row.link op right.row

/-- Each node binds looser than all operators on its right and no tighter than those on its left. -/
def Ordered : OpTree α → Prop
  | leaf _ => True
  | node op left right =>
    (∀ o ∈ left.row.operators, o.tier ≤ op.tier) ∧ (∀ o ∈ right.row.operators, o.tier < op.tier) ∧
      left.Ordered ∧ right.Ordered

/-- The tree with other trees in place of its operands. -/
def bind (f : α → OpTree β) : OpTree α → OpTree β
  | leaf a => f a
  | node op left right => node op (left.bind f) (right.bind f)

/-- Precedence and a row leave no choice. -/
theorem Ordered.eq_of_row {t t' : OpTree α} (h : t.Ordered) (h' : t'.Ordered)
    (hrow : t.row = t'.row) : t = t' := by
  induction t generalizing t' with
  | leaf a =>
    cases t' with
    | leaf b => rw [(Terms.mk.inj hrow).1]
    | node op' left' right' => simp [row, Terms.link] at hrow
  | node op left right ihl ihr =>
    cases t' with
    | leaf b => simp [row, Terms.link] at hrow
    | node op' left' right' =>
      obtain ⟨hle, hlt, hleft, hright⟩ := h
      obtain ⟨hle', hlt', hleft', hright'⟩ := h'
      -- the root is the last operator of the loosest tier
      rcases Terms.link_eq_link hrow with ⟨hl, rfl, hr⟩ | ⟨ho, ho'⟩ | ⟨ho', ho⟩
      · rw [ihl hleft hleft' hl, ihr hright hright' hr]
      · exact absurd (hle' op ho) (not_le.2 (hlt op' ho'))
      · exact absurd (hle op' ho') (not_le.2 (hlt' op ho))

theorem row_map (f : α → β) (t : OpTree α) : (t.map f).row = t.row.map f := by
  induction t with
  | leaf a => rfl
  | node op left right ihl ihr => rw [map, row, ihl, ihr, row, Terms.map_link]

theorem row_bind (f : α → OpTree β) (t : OpTree α) :
    (t.bind f).row = (t.row.map fun a => (f a).row).flatten := by
  induction t with
  | leaf a => simp [bind, row, Terms.map, Terms.flatten_nil]
  | node op left right ihl ihr => rw [bind, row, ihl, ihr, row, Terms.map_link, Terms.flatten_link]

theorem row_chain (first : OpTree α) (rest : List (Operator × OpTree α)) :
    (chain first rest).row = Terms.flatten ⟨first.row, rest.map fun p => (p.1, p.2.row)⟩ := by
  induction rest generalizing first with
  | nil => exact (Terms.flatten_nil _).symm
  | cons p rest ih =>
    refine (ih _).trans ?_
    simp [Terms.flatten, row, Terms.link]

theorem ordered_chain {tier : Nat} {first : OpTree α} {rest : List (Operator × OpTree α)}
    (hfirst : first.Ordered) (hle : ∀ o ∈ first.row.operators, o.tier ≤ tier)
    (hrest : ∀ p ∈ rest, p.1.tier = tier ∧ p.2.Ordered ∧ ∀ o ∈ p.2.row.operators, o.tier < tier) :
    (chain first rest).Ordered := by
  induction rest generalizing first with
  | nil => exact hfirst
  | cons p rest ih =>
    obtain ⟨⟨htier, hp, hlt⟩, hrest⟩ := List.forall_mem_cons.1 hrest
    have hnode : (node p.1 first p.2).Ordered := by
      rw [← htier] at hle hlt
      exact ⟨hle, hlt, hfirst, hp⟩
    refine ih hnode (fun o ho => ?_) hrest
    rw [row, Terms.operators_link, List.mem_append, List.mem_cons] at ho
    rcases ho with ho | rfl | ho
    · exact hle o ho
    · exact htier.le
    · exact (hlt o ho).le

end OpTree

/-! ### The tree of a row -/

namespace Terms

variable {α : Type u}

theorem Below.tier_lt {tiers : Nat} {terms : Terms α} (h : terms.Below tiers) :
    ∀ o ∈ terms.operators, o.tier < tiers :=
  List.forall_mem_map.2 h

theorem reduceBelow_ordered {tiers : Nat} {terms : Terms α} (h : terms.Below tiers) :
    (reduceBelow tiers terms).first.row = terms ∧ (reduceBelow tiers terms).first.Ordered := by
  induction tiers generalizing terms with
  | zero =>
    obtain ⟨first, rest⟩ := terms
    cases rest with
    | nil => exact ⟨rfl, trivial⟩
    | cons p rest => exact absurd (h p List.mem_cons_self) (Nat.not_lt_zero _)
  | succ tier ih =>
    obtain ⟨hfirst, hrest⟩ := List.forall_mem_cons.1 h.splitAt
    have hpiece : ∀ p ∈ (terms.splitAt tier).rest, p.2.Below tier := fun p hp =>
      hrest p.2 (List.mem_map_of_mem hp)
    have hrows : (terms.splitAt tier).rest.map (fun p => (p.1, (reduceBelow tier p.2).first.row)) =
        (terms.splitAt tier).rest := by
      refine (List.map_congr_left fun p hp => ?_).trans (List.map_id _)
      rw [(ih (hpiece p hp)).1]
      rfl
    rw [reduceBelow_succ h]
    constructor
    · rw [OpTree.row_chain, List.map_map]
      simp only [Function.comp_def]
      rw [hrows, (ih hfirst).1]
      exact flatten_splitAt tier terms
    · have hle : ∀ o ∈ (reduceBelow tier (terms.splitAt tier).first).first.row.operators,
          o.tier ≤ tier := by
        rw [(ih hfirst).1]
        exact fun o ho => (hfirst.tier_lt o ho).le
      refine OpTree.ordered_chain (ih hfirst).2 hle
        (List.forall_mem_map.2 fun p hp => ⟨tier_of_mem_splitAt p hp, (ih (hpiece p hp)).2, ?_⟩)
      rw [(ih (hpiece p hp)).1]
      exact (hpiece p hp).tier_lt

theorem row_collapse (terms : Terms α) : terms.collapse.row = terms :=
  (reduceBelow_ordered terms.below_tiers).1

theorem ordered_collapse (terms : Terms α) : terms.collapse.Ordered :=
  (reduceBelow_ordered terms.below_tiers).2

/-! ### Blocks of a row -/

/-- The operators of a block bind tighter than the one on its left and no looser than the one on
its right. -/
def Fits (left : Option Operator) (block : Terms α) (right : Option Operator) : Prop :=
  ∀ o ∈ block.operators, (∀ l ∈ left, o.tier < l.tier) ∧ ∀ r ∈ right, o.tier ≤ r.tier

/-- All blocks of a row fit between the operators next to them; `left` and `right` are those at its
ends. -/
def FitsFrom (left : Option Operator) (block : Terms α) (right : Option Operator) :
    List (Operator × Terms α) → Prop
  | [] => block.Fits left right
  | (op, next) :: rest => block.Fits left (some op) ∧ FitsFrom (some op) next right rest

/-- The blocks of a row fit. -/
def AllFit (left : Option Operator) (blocks : Terms (Terms α)) (right : Option Operator) : Prop :=
  FitsFrom left blocks.first right blocks.rest

theorem allFit_link {left right : Option Operator} {blocks blocks' : Terms (Terms α)}
    {op : Operator} :
    (blocks.link op blocks').AllFit left right ↔
      blocks.AllFit left (some op) ∧ blocks'.AllFit (some op) right := by
  obtain ⟨first, rest⟩ := blocks
  simp only [AllFit, link]
  induction rest generalizing left first with
  | nil => rfl
  | cons p rest ih =>
    simp only [List.cons_append, FitsFrom, ih, and_assoc]

theorem tier_le_of_allFit {tier : Nat} {left : Option Operator} {right : Operator}
    {blocks : Terms (Terms α)} (h : blocks.AllFit left (some right)) (hright : right.tier ≤ tier)
    (hle : ∀ o ∈ blocks.operators, o.tier ≤ tier) :
    ∀ o ∈ blocks.flatten.operators, o.tier ≤ tier := by
  obtain ⟨first, rest⟩ := blocks
  induction rest generalizing left first with
  | nil =>
    rw [flatten_nil]
    exact fun o ho => ((h o ho).2 right rfl).trans hright
  | cons p rest ih =>
    obtain ⟨hfirst, hrest⟩ := h
    obtain ⟨hp, hle⟩ := List.forall_mem_cons.1 hle
    intro o ho
    rw [flatten_cons, operators_link, List.mem_append, List.mem_cons] at ho
    rcases ho with ho | rfl | ho
    · exact ((hfirst o ho).2 p.1 rfl).trans hp
    · exact hp
    · exact ih p.2 hrest hle o ho

theorem tier_lt_of_allFit {tier : Nat} {left : Operator} {right : Option Operator}
    {blocks : Terms (Terms α)} (h : blocks.AllFit (some left) right) (hleft : left.tier ≤ tier)
    (hlt : ∀ o ∈ blocks.operators, o.tier < tier) :
    ∀ o ∈ blocks.flatten.operators, o.tier < tier := by
  obtain ⟨first, rest⟩ := blocks
  induction rest generalizing left first with
  | nil =>
    rw [flatten_nil]
    exact fun o ho => ((h o ho).1 left rfl).trans_le hleft
  | cons p rest ih =>
    obtain ⟨hfirst, hrest⟩ := h
    obtain ⟨hp, hlt⟩ := List.forall_mem_cons.1 hlt
    intro o ho
    rw [flatten_cons, operators_link, List.mem_append, List.mem_cons] at ho
    rcases ho with ho | rfl | ho
    · exact ((hfirst o ho).1 left rfl).trans_le hleft
    · exact hp
    · exact ih hp.le p.2 hrest hlt o ho

end Terms

/-- In an ordered tree of blocks that fit, each block may be replaced by its own tree. -/
theorem OpTree.Ordered.bind_collapse {α : Type u} {t : OpTree (Terms α)}
    {left right : Option Operator} (ht : t.Ordered) (h : t.row.AllFit left right) :
    (t.bind Terms.collapse).Ordered := by
  induction t generalizing left right with
  | leaf block => exact block.ordered_collapse
  | node op l r ihl ihr =>
    obtain ⟨hle, hlt, hl, hr⟩ := ht
    obtain ⟨hfitl, hfitr⟩ := Terms.allFit_link.1 h
    have hrow : ∀ t : OpTree (Terms α), (t.bind Terms.collapse).row = t.row.flatten := fun t => by
      rw [row_bind]
      simp [Terms.row_collapse, Terms.map]
    refine ⟨?_, ?_, ihl hl hfitl, ihr hr hfitr⟩
    · rw [hrow]
      exact Terms.tier_le_of_allFit hfitl le_rfl hle
    · rw [hrow]
      exact Terms.tier_lt_of_allFit hfitr le_rfl hlt

/-- Blocks that fit may be reduced first. -/
theorem Terms.collapse_flatten {α : Type u} {blocks : Terms (Terms α)}
    (h : blocks.AllFit none none) :
    blocks.flatten.collapse = blocks.collapse.bind collapse := by
  have hfit : blocks.collapse.row.AllFit none none := by rwa [row_collapse]
  refine blocks.flatten.ordered_collapse.eq_of_row (blocks.ordered_collapse.bind_collapse hfit) ?_
  rw [row_collapse, OpTree.row_bind, row_collapse]
  simp [row_collapse, map]

end MessageMapping
