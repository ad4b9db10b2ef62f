import MessageMapping.Proofs.FirstFault
import MessageMapping.Proofs.Layers

/-!
# The levels of built expressions

How deep the tree of an expression is, with a row of operands as one level and each chain inside of
it as one more. Precedence puts chains into each other no deeper than there are tiers, so one level
of a definition gives at most seven levels of the expression, whatever the lengths of its lists.
-/

namespace MessageMapping

namespace Expr

variable {ν : Type u}

mutual

/-- The number of levels of the tree, that of the root included. -/
def levels : Expr ν → Nat
  | literal _ | field _ | document _ | metadata _ | var _ | apply _ => 1
  | arithmetic operands => operandLevels operands + 1
  | conditional condition consequent alternative =>
    max (max (levels condition) (levels consequent))
      (match alternative with
        | some alternative => levels alternative
        | none => 0) + 1
  | switch context cases =>
    max (caseLevels cases)
      (match context with
        | some context => levels context
        | none => 0) + 1
  | not operand => levels operand + 1

def caseLevels : List (Case (Expr ν)) → Nat
  | [] => 0
  | ⟨query, result⟩ :: rest => max (max (levels query) (levels result)) (caseLevels rest)

def operandLevels : Grouping (Expr ν) → Nat
  | .operand e => levels e
  | .chain first rest => max (operandLevels first) (restLevels rest) + 1

def restLevels : List (Operator × Grouping (Expr ν)) → Nat
  | [] => 0
  | (_, g) :: rest => max (operandLevels g) (restLevels rest)

end

/-- How many chains stand in each other between an expression and its branches. -/
def chains : Expr ν → Nat
  | arithmetic g => g.height
  | _ => 0

theorem chains_eq_zero {e : Expr ν} (h : e.branches = []) : e.chains = 0 := by
  cases e with
  | arithmetic g => exact absurd (List.map_eq_nil_iff.1 h) g.operands_ne_nil
  | _ => rfl

theorem caseLevels_le {n : Nat} {cases : List (Case (Expr ν))}
    (h : ∀ c ∈ cases, c.query.levels ≤ n ∧ c.result.levels ≤ n) : caseLevels cases ≤ n := by
  induction cases with
  | nil => simp [caseLevels]
  | cons c rest ih =>
    obtain ⟨hc, hrest⟩ := List.forall_mem_cons.1 h
    rw [caseLevels]
    exact max_le (max_le hc.1 hc.2) (ih hrest)

theorem restLevels_le {n : Nat} {rest : List (Operator × Grouping (Expr ν))}
    (h : ∀ p ∈ rest, operandLevels p.2 ≤ n + p.2.height) :
    restLevels rest ≤ n + Grouping.heightRest rest := by
  induction rest with
  | nil => simp [restLevels]
  | cons p rest ih =>
    obtain ⟨hp, hrest⟩ := List.forall_mem_cons.1 h
    have := ih hrest
    rw [restLevels, Grouping.heightRest]
    omega

theorem operandLevels_le {n : Nat} {g : Grouping (Expr ν)} (h : ∀ e ∈ g.operands, e.levels ≤ n) :
    operandLevels g ≤ n + g.height := by
  induction g using Grouping.induct with
  | operand e => simpa [operandLevels, Grouping.height] using h
  | chain first rest ihf ihr =>
    rw [Grouping.operands_chain] at h
    have hfirst := ihf fun e he => h e (List.mem_append_left _ he)
    have hrest := restLevels_le fun p hp => ihr p hp fun e he =>
      h e (List.mem_append_right _ (List.mem_flatMap.2 ⟨p, hp, he⟩))
    rw [operandLevels, Grouping.height]
    omega

/-- One level for the expression itself and one for each chain, above those of the branches. -/
theorem levels_le {n : Nat} {e : Expr ν} (h : ∀ b ∈ e.branches, b.expr.levels ≤ n) :
    e.levels ≤ n + e.chains + 1 := by
  cases e with
  | arithmetic g =>
    rw [levels, chains]
    exact Nat.succ_le_succ (operandLevels_le (List.forall_mem_map.1 h))
  | conditional c t a =>
    have hc := h ⟨[], true, c⟩ (by simp [branches])
    have ht := h ⟨[], true, t⟩ (by simp [branches])
    cases a with
    | none =>
      rw [levels]
      exact Nat.succ_le_succ (max_le (max_le hc ht) (Nat.zero_le n))
    | some a =>
      have ha := h ⟨[], true, a⟩ (by simp [branches])
      rw [levels]
      exact Nat.succ_le_succ (max_le (max_le hc ht) ha)
  | switch context cases =>
    cases context with
    | none =>
      rw [levels]
      exact Nat.succ_le_succ (max_le (caseLevels_le (forall_caseBranches.1 h)) (Nat.zero_le n))
    | some x =>
      have hcases := forall_caseBranches.1 fun b hb => h b (List.mem_append_left _ hb)
      have hx := h ⟨[], true, x⟩ (by simp [branches])
      rw [levels]
      exact Nat.succ_le_succ (max_le (caseLevels_le hcases) hx)
  | not e =>
    rw [levels]
    exact Nat.succ_le_succ (h ⟨[], true, e⟩ (by simp [branches]))
  | literal | field | document | metadata | var | apply => simp [levels]

end Expr

namespace Definition

theorem Built.chains_le {depth : Nat} {d : Definition} {e : Expr String} (h : Built depth d e) :
    e.chains ≤ 6 := by
  cases h with
  | arithmetic _ hg => exact (Grouping.layered_of_ofLists? hg).height_le
  | _ => exact Nat.zero_le 6

theorem levels_le_of_buildAt {depth deepest : Nat} {d : Definition} {e : Expr String}
    (h : d.buildAt depth = .ok e) (hdeepest : ∀ n x, NodeAt x n d → n ≤ deepest) :
    e.levels ≤ 7 * deepest + 1 := by
  induction d using induct_children generalizing depth deepest e with
  | h d ih =>
    have hbuilt := built_of_buildAt h
    have hbranches : ∀ b ∈ e.branches, b.expr.levels + 6 ≤ 7 * deepest := fun b hb => by
      obtain ⟨c, hc, hb⟩ := hbuilt.branch hb
      have hpos : 1 ≤ deepest := hdeepest 1 c (.child hc .root)
      have hlevels : b.expr.levels ≤ 7 * (deepest - 1) + 1 :=
        ih c hc hb fun n x hx => Nat.le_sub_one_of_lt (hdeepest (n + 1) x (.child hc hx))
      omega
    have hlevels : e.levels ≤ 7 * deepest - 6 + e.chains + 1 :=
      Expr.levels_le fun b hb => Nat.le_sub_of_add_le (hbranches b hb)
    -- without branches there are no chains either, so the one level of `e` is all
    rcases List.eq_nil_or_concat e.branches with hnil | ⟨rest, b, hb⟩
    · have hchains := Expr.chains_eq_zero hnil
      omega
    · have hchains := hbuilt.chains_le
      have := hbranches b (by simp [hb])
      omega

/-- The depths of the nodes of a definition that can be built have a greatest one, and the levels
of what is built are bounded by it: one for the root, and seven for each level below. -/
theorem levels_of_build {d : Definition} {e : Expr String} (h : d.build = .ok e) :
    (∃ deepest, IsGreatest {depth | ∃ x, NodeAt x depth d} deepest ∧
      e.levels ≤ 7 * deepest + 1) ∧
    e.levels ≤ 7 * 256 + 1 := by
  have hlimit : ∀ depth x, NodeAt x depth d → depth ≤ 256 := fun depth x hx =>
    (exists_build_iff.1 ⟨e, h⟩ depth x hx).1
  have hbdd : BddAbove {depth | ∃ x, NodeAt x depth d} := ⟨256, fun _ ⟨x, hx⟩ => hlimit _ x hx⟩
  refine ⟨⟨_, ⟨Nat.sSup_mem ⟨0, d, .root⟩ hbdd, fun _ hdepth => le_csSup hbdd hdepth⟩, ?_⟩, ?_⟩
  · exact levels_le_of_buildAt h fun _ x hx => le_csSup hbdd ⟨x, hx⟩
  · exact levels_le_of_buildAt h hlimit

/-- All six tiers nest in the row `a | b || c && d == e + f * g`, and the bound is reached. -/
theorem levels_of_build_six :
    let d : Definition := .arithmetic (["a", "b", "c", "d", "e", "f", "g"].map .var)
      [.coalesce, .or, .and, .eq, .add, .mul]
    ∃ e, d.build = .ok e ∧ IsGreatest {depth | ∃ x, NodeAt x depth d} 1 ∧
      e.levels = 7 * 1 + 1 := by
  intro d
  have hgreatest : IsGreatest {depth | ∃ x, NodeAt x depth d} 1 := by
    refine ⟨⟨.var "a", .child (by simp [d, children]) .root⟩, ?_⟩
    rintro _ ⟨x, hx⟩
    cases hx with
    | root => exact Nat.zero_le 1
    | child hc hx =>
      obtain ⟨name, -, rfl⟩ := List.mem_map.1 hc
      cases hx with
      | root => exact Nat.le_refl 1
      | child hc => cases hc
  refine ⟨_, rfl, hgreatest, Nat.le_antisymm ?_ (by decide)⟩
  obtain ⟨⟨deepest, hdeepest, hlevels⟩, -⟩ := levels_of_build (d := d) rfl
  rwa [hdeepest.unique hgreatest] at hlevels

end Definition

end MessageMapping
