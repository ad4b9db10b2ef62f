import MessageMapping.Expr.Basic
import Mathlib

/-!
# The shape of expressions

Groupings and expressions seen as trees. `Grouping.operands` and `Grouping.map` say what the
recursions over a grouping do, `Expr.branches` lists the direct subexpressions of an expression,
each with the path that the read analysis puts before what it reads and with whether it shares the
scope of the whole. `Occurs x base e` is an occurrence of `x` below branches whose paths add up to
`base`; `InScope x e` is one in the scope of `e` itself.
-/

namespace MessageMapping

/-! ### Groupings -/

namespace Grouping

variable {α β γ : Type u}

mutual

/-- The operands from left to right. -/
def operands : Grouping α → List α
  | .operand a => [a]
  | .chain first rest => operands first ++ restOperands rest

def restOperands : List (Operator × Grouping α) → List α
  | [] => []
  | (_, g) :: rest => operands g ++ restOperands rest

end

mutual

/-- The same grouping of other operands. -/
def map (f : α → β) : Grouping α → Grouping β
  | .operand a => .operand (f a)
  | .chain first rest => .chain (map f first) (mapRest f rest)

def mapRest (f : α → β) : List (Operator × Grouping α) → List (Operator × Grouping β)
  | [] => []
  | (op, g) :: rest => (op, map f g) :: mapRest f rest

end

@[elab_as_elim]
theorem induct {P : Grouping α → Prop} (operand : ∀ a, P (.operand a))
    (chain : ∀ first rest, P first → (∀ p ∈ rest, P p.2) → P (.chain first rest))
    (g : Grouping α) : P g :=
  @Grouping.rec α P (fun rest => ∀ p ∈ rest, P p.2) (fun p => P p.2) operand chain
    (by simp) (fun _ _ hp hrest => List.forall_mem_cons.2 ⟨hp, hrest⟩) (fun _ _ hg => hg) g

@[simp] theorem operands_operand (a : α) : operands (.operand a) = [a] := by
  simp [operands]

@[simp] theorem operands_chain (first : Grouping α) (rest : List (Operator × Grouping α)) :
    operands (.chain first rest) = first.operands ++ rest.flatMap fun p => p.2.operands := by
  have : ∀ rest : List (Operator × Grouping α),
      restOperands rest = rest.flatMap fun p => p.2.operands := by
    intro rest
    induction rest with
    | nil => simp [restOperands]
    | cons p rest ih => simp [restOperands, ih]
  simp [operands, this]

theorem operands_ne_nil (g : Grouping α) : g.operands ≠ [] := by
  induction g using induct with
  | operand a => simp
  | chain first rest ihf _ => simp [ihf]

/-- What is listed along the chains is listed operand by operand. -/
theorem eq_flatMap_operands {δ : Type v} {F : Grouping α → List δ} {f : α → List δ}
    {rests : List (Operator × Grouping α) → List δ} (operand : ∀ a, F (.operand a) = f a)
    (chain : ∀ first rest, F (.chain first rest) = F first ++ rests rest) (nil : rests [] = [])
    (cons : ∀ p rest, rests (p :: rest) = F p.2 ++ rests rest) (g : Grouping α) :
    F g = g.operands.flatMap f := by
  have hrests : ∀ rest, rests rest = rest.flatMap fun p => F p.2 := by
    intro rest
    induction rest with
    | nil => exact nil
    | cons p rest ih => rw [cons, ih, List.flatMap_cons]
  induction g using induct with
  | operand a => rw [operand, operands_operand, List.flatMap_singleton]
  | chain first rest ihf ihr =>
    rw [chain, hrests, operands_chain, List.flatMap_append, List.flatMap_assoc, ihf]
    congr 1
    exact List.flatMap_congr ihr

@[simp] theorem map_operand (f : α → β) (a : α) : map f (.operand a) = .operand (f a) := by
  simp [map]

@[simp] theorem map_chain (f : α → β) (first : Grouping α) (rest : List (Operator × Grouping α)) :
    map f (.chain first rest) = .chain (first.map f) (rest.map fun p => (p.1, p.2.map f)) := by
  have : ∀ rest : List (Operator × Grouping α),
      mapRest f rest = rest.map fun p => (p.1, p.2.map f) := by
    intro rest
    induction rest with
    | nil => simp [mapRest]
    | cons p rest ih => simp [mapRest, ih]
  simp [map, this]

theorem operands_map (f : α → β) (g : Grouping α) : (g.map f).operands = g.operands.map f := by
  induction g using induct with
  | operand a => simp
  | chain first rest ihf ihr =>
    simp only [map_chain, operands_chain, List.map_append, List.map_flatMap, List.flatMap_map, ihf]
    congr 1
    exact List.flatMap_congr fun p hp => ihr p hp

theorem map_map (f : α → β) (h : β → γ) (g : Grouping α) :
    (g.map f).map h = g.map fun a => h (f a) := by
  induction g using induct with
  | operand a => simp
  | chain first rest ihf ihr =>
    simp only [map_chain, ihf, List.map_map, chain.injEq, true_and]
    exact List.map_congr_left fun p hp => by simp [ihr p hp]

end Grouping

/-! ### Expressions -/

namespace Expr

/-- A direct subexpression. -/
structure Branch (ν : Type u) where
  /-- The path that the read analysis puts before the values it reads. -/
  base : Path
  /-- Whether it is evaluated in the scope of the whole. -/
  inScope : Bool
  expr : Expr ν

variable {ν : Type u}

/-- What the analysis puts before the values that the cases of a match on this context read. -/
def base (context : Expr ν) : Path :=
  context.scopePath?.getD []

/-- The queries and results of cases, in order. -/
def caseBranches (base : Path) (inScope : Bool) (cases : List (Case (Expr ν))) :
    List (Branch ν) :=
  cases.flatMap fun c => [⟨base, inScope, c.query⟩, ⟨base, inScope, c.result⟩]

theorem exists_caseBranches {base : Path} {inScope : Bool} {cases : List (Case (Expr ν))}
    {P : Branch ν → Prop} :
    (∃ b ∈ caseBranches base inScope cases, P b) ↔
      ∃ c ∈ cases, P ⟨base, inScope, c.query⟩ ∨ P ⟨base, inScope, c.result⟩ := by
  constructor
  · rintro ⟨b, hb, h⟩
    obtain ⟨c, hc, hb⟩ := List.mem_flatMap.1 hb
    simp only [List.mem_cons, List.not_mem_nil, or_false] at hb
    rcases hb with rfl | rfl
    exacts [⟨c, hc, .inl h⟩, ⟨c, hc, .inr h⟩]
  · rintro ⟨c, hc, h | h⟩
    exacts [⟨_, List.mem_flatMap.2 ⟨c, hc, by simp⟩, h⟩,
      ⟨_, List.mem_flatMap.2 ⟨c, hc, by simp⟩, h⟩]

theorem forall_caseBranches {base : Path} {inScope : Bool} {cases : List (Case (Expr ν))}
    {P : Branch ν → Prop} :
    (∀ b ∈ caseBranches base inScope cases, P b) ↔
      ∀ c ∈ cases, P ⟨base, inScope, c.query⟩ ∧ P ⟨base, inScope, c.result⟩ := by
  simpa [not_or] using (exists_caseBranches (P := fun b => ¬ P b)).not

theorem mem_caseBranches {c : Case (Expr ν)} {cases : List (Case (Expr ν))} (hc : c ∈ cases)
    (base : Path) (inScope : Bool) :
    ⟨base, inScope, c.query⟩ ∈ caseBranches base inScope cases ∧
      ⟨base, inScope, c.result⟩ ∈ caseBranches base inScope cases :=
  forall_caseBranches.1 (fun _ hb => hb) c hc

/-- The direct subexpressions, in the order in which the analysis reports them. -/
def branches : Expr ν → List (Branch ν)
  | arithmetic operands => operands.operands.map (Branch.mk [] true)
  | conditional condition consequent alternative =>
    [⟨[], true, condition⟩, ⟨[], true, consequent⟩] ++ alternative.toList.map (Branch.mk [] true)
  | switch none cases => caseBranches [] true cases
  | switch (some context) cases => caseBranches context.base false cases ++ [⟨[], true, context⟩]
  | not operand => [⟨[], true, operand⟩]
  | literal _ | field _ | document _ | metadata _ | var _ | apply _ => []

@[elab_as_elim]
theorem induct {P : Expr ν → Prop} (literal : ∀ v, P (.literal v)) (field : ∀ p, P (.field p))
    (document : ∀ p, P (.document p)) (metadata : ∀ k, P (.metadata k)) (var : ∀ n, P (.var n))
    (arithmetic : ∀ g, (∀ e ∈ g.operands, P e) → P (.arithmetic g))
    (conditional : ∀ c t a, P c → P t → (∀ e ∈ a, P e) → P (.conditional c t a))
    (switch : ∀ context cases, (∀ e ∈ context, P e) →
      (∀ c ∈ cases, P c.query ∧ P c.result) → P (.switch context cases))
    (not : ∀ e, P e → P (.not e)) (apply : ∀ n, P (.apply n)) (e : Expr ν) : P e :=
  @Expr.rec ν P (fun g => ∀ e ∈ g.operands, P e) (fun a => ∀ e ∈ a, P e)
    (fun cases => ∀ c ∈ cases, P c.query ∧ P c.result)
    (fun rest => ∀ p ∈ rest, ∀ e ∈ p.2.operands, P e)
    (fun c => P c.query ∧ P c.result) (fun p => ∀ e ∈ p.2.operands, P e)
    literal field document metadata var arithmetic conditional switch not apply
    (by simp)
    (fun first rest hf hr => by
      simp only [Grouping.operands_chain, List.mem_append, List.mem_flatMap]
      rintro e (he | ⟨p, hp, he⟩)
      · exact hf e he
      · exact hr p hp e he)
    (by simp) (by simp) (by simp)
    (fun _ _ hc hcs => List.forall_mem_cons.2 ⟨hc, hcs⟩) (by simp)
    (fun _ _ hp hrest => List.forall_mem_cons.2 ⟨hp, hrest⟩)
    (fun _ _ hq hr => ⟨hq, hr⟩) (fun _ _ hg => hg) e

/-- Induction over branches alone, for what treats all kinds of expressions alike. -/
theorem inductBranches {P : Expr ν → Prop} (h : ∀ e, (∀ b ∈ e.branches, P b.expr) → P e)
    (e : Expr ν) : P e := by
  induction e using induct with
  | literal | field | document | metadata | var | apply => exact h _ (by simp [branches])
  | arithmetic g ih =>
    refine h _ fun b hb => ?_
    obtain ⟨a, ha, rfl⟩ := List.mem_map.1 hb
    exact ih a ha
  | conditional c t a ihc iht iha => exact h _ (by simpa [branches, ihc, iht] using iha)
  | switch context cases ihx ihc =>
    have hcases : ∀ base inScope, ∀ b ∈ caseBranches base inScope cases, P b.expr :=
      fun _ _ => forall_caseBranches.2 ihc
    refine h _ fun b hb => ?_
    cases context with
    | none => exact hcases _ _ b hb
    | some context =>
      rcases List.mem_append.1 hb with hb | hb
      · exact hcases _ _ b hb
      · rw [List.mem_singleton.1 hb]; exact ihx context rfl
  | not e ih => exact h _ (by simpa [branches] using ih)

/-- `x` stands in `e` below branches whose paths add up to `base`. -/
inductive Occurs (x : Expr ν) : Path → Expr ν → Prop
  | self : Occurs x [] x
  | branch {e : Expr ν} {b : Branch ν} {base : Path} (hb : b ∈ e.branches)
      (h : Occurs x base b.expr) : Occurs x (b.base ++ base) e

/-- `x` stands in `e`, in the scope of `e`. -/
inductive InScope (x : Expr ν) : Expr ν → Prop
  | self : InScope x x
  | branch {e : Expr ν} {b : Branch ν} (hb : b ∈ e.branches) (hs : b.inScope = true)
      (h : InScope x b.expr) : InScope x e

/-- `x` is a subexpression of `e`, at any depth. -/
def Within (x e : Expr ν) : Prop :=
  ∃ base, Occurs x base e

variable {x e : Expr ν} {base : Path}

theorem base_of_inScope {b : Branch ν} (hb : b ∈ e.branches) (hs : b.inScope = true) :
    b.base = [] := by
  cases e with
  | switch context cases =>
    cases context <;> grind [branches, caseBranches]
  | _ => grind [branches]

theorem InScope.occurs (h : InScope x e) : Occurs x [] e := by
  induction h with
  | self => exact .self
  | branch hb hs _ ih => simpa [base_of_inScope hb hs] using Occurs.branch hb ih

theorem Occurs.within (h : Occurs x base e) : Within x e := ⟨base, h⟩

namespace Within

theorem refl (e : Expr ν) : Within e e := ⟨[], .self⟩

theorem branch {b : Branch ν} (hb : b ∈ e.branches) (h : Within x b.expr) : Within x e :=
  let ⟨_, h⟩ := h; ⟨_, .branch hb h⟩

theorem iff_branches : Within x e ↔ x = e ∨ ∃ b ∈ e.branches, Within x b.expr := by
  constructor
  · rintro ⟨_, h⟩
    cases h with
    | self => exact .inl rfl
    | branch hb h => exact .inr ⟨_, hb, h.within⟩
  · rintro (rfl | ⟨b, hb, h⟩)
    · exact refl x
    · exact branch hb h

theorem iff_of_leaf (h : e.branches = []) : Within x e ↔ x = e := by
  rw [iff_branches, h]; simp

@[simp] theorem literal_iff {v : Value} : Within x (.literal v) ↔ x = .literal v :=
  iff_of_leaf rfl

@[simp] theorem field_iff {path : Path} : Within x (.field path) ↔ x = .field path :=
  iff_of_leaf rfl

@[simp] theorem document_iff {path : Path} : Within x (.document path) ↔ x = .document path :=
  iff_of_leaf rfl

@[simp] theorem metadata_iff {key : String} : Within x (.metadata key) ↔ x = .metadata key :=
  iff_of_leaf rfl

@[simp] theorem var_iff {name : String} : Within x (.var name) ↔ x = .var name :=
  iff_of_leaf rfl

@[simp] theorem apply_iff {name : ν} : Within x (.apply name) ↔ x = .apply name :=
  iff_of_leaf rfl

@[simp] theorem arithmetic_iff {g : Grouping (Expr ν)} :
    Within x (.arithmetic g) ↔ x = .arithmetic g ∨ ∃ a ∈ g.operands, Within x a := by
  rw [iff_branches]; simp [branches]

@[simp] theorem conditional_iff {c t : Expr ν} {a : Option (Expr ν)} :
    Within x (.conditional c t a) ↔
      x = .conditional c t a ∨ Within x c ∨ Within x t ∨ ∃ e ∈ a, Within x e := by
  rw [iff_branches]; simp [branches]

@[simp] theorem switch_none_iff {cases : List (Case (Expr ν))} :
    Within x (.switch none cases) ↔
      x = .switch none cases ∨ ∃ c ∈ cases, Within x c.query ∨ Within x c.result := by
  rw [iff_branches, branches, exists_caseBranches]

@[simp] theorem switch_some_iff {context : Expr ν} {cases : List (Case (Expr ν))} :
    Within x (.switch (some context) cases) ↔ x = .switch (some context) cases ∨
      (∃ c ∈ cases, Within x c.query ∨ Within x c.result) ∨ Within x context := by
  rw [iff_branches, ← @exists_caseBranches _ context.base false cases fun b => Within x b.expr]
  simp [branches, or_and_right, exists_or]

@[simp] theorem not_iff {e : Expr ν} : Within x (.not e) ↔ x = .not e ∨ Within x e := by
  rw [iff_branches]; simp [branches]

end Within

end Expr

end MessageMapping
