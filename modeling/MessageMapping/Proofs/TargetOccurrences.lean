import MessageMapping.Expr.Targets
import MessageMapping.Proofs.Agreement

/-!
# What the read analysis reports

`targets_eq` is one equation for all kinds of expressions: the target of an accessor, and the
targets of the branches, each with the base of its branch in front. So a target is reported exactly
if an accessor occurs somewhere and the bases above it make that target of its own
(`mem_targets_iff`). Metadata, variables, and fields in the scope of the whole are reported as they
are read. A read of the document is reported under the bases above it although evaluation does not
look at them, so it is missed where these are not empty and nothing else makes its target.
-/

namespace MessageMapping

namespace Target

@[simp] theorem rescope_value (base path : Path) :
    rescope base ⟨.value, path⟩ = ⟨.value, base ++ path⟩ := rfl

@[simp] theorem rescope_metadata (base path : Path) :
    rescope base ⟨.metadata, path⟩ = ⟨.metadata, path⟩ := rfl

@[simp] theorem rescope_variable (base path : Path) :
    rescope base ⟨.variable, path⟩ = ⟨.variable, path⟩ := rfl

@[simp] theorem rescope_nil (t : Target) : t.rescope [] = t := by
  obtain ⟨kind, path⟩ := t
  cases kind <;> rfl

theorem rescope_rescope (base base' : Path) (t : Target) :
    (t.rescope base).rescope base' = t.rescope (base' ++ base) := by
  obtain ⟨kind, path⟩ := t
  cases kind <;> simp

end Target

namespace Expr

variable {ν : Type u} {e x : Expr ν} {base : Path}

theorem operandTargets_eq (g : Grouping (Expr ν)) :
    operandTargets g = g.operands.flatMap targets :=
  Grouping.eq_flatMap_operands (fun _ => rfl) operandTargets_chain List.flatMap_nil
    (fun _ _ => List.flatMap_cons) g

theorem caseTargets_eq (cases : List (Case (Expr ν))) :
    caseTargets cases = cases.flatMap fun c => targets c.query ++ targets c.result := by
  induction cases with
  | nil => rfl
  | cons c rest ih => simp [caseTargets, ih]

theorem targets_switch (context : Expr ν) (cases : List (Case (Expr ν))) :
    targets (.switch (some context) cases) =
      (caseTargets cases).map (Target.rescope context.base) ++ context.targets := by
  rw [targets, Expr.base]
  cases context.scopePath? <;> simp [funext Target.rescope_nil]

/-- What an accessor reads. -/
def ownTargets : Expr ν → List Target
  | field path | document path => [⟨.value, path⟩]
  | metadata key => [⟨.metadata, if key.isEmpty then [] else [key]⟩]
  | var name => [⟨.variable, [name]⟩]
  | _ => []

theorem targets_eq (e : Expr ν) :
    e.targets = e.ownTargets ++
      e.branches.flatMap fun b => b.expr.targets.map (Target.rescope b.base) := by
  have hid : (Target.rescope [] : Target → Target) = id := funext Target.rescope_nil
  cases e with
  | arithmetic g =>
    simp [targets, ownTargets, branches, operandTargets_eq, List.flatMap_map, hid]
  | conditional c t a => cases a <;> simp [targets, ownTargets, branches, hid]
  | switch context cases =>
    cases context with
    | none =>
      simp [targets, ownTargets, branches, caseBranches, caseTargets_eq, List.flatMap_assoc, hid]
    | some x =>
      rw [targets_switch]
      simp [ownTargets, branches, caseBranches, caseTargets_eq, List.flatMap_assoc,
        List.map_flatMap, hid]
  | _ => simp [targets, ownTargets, branches, hid]

theorem Occurs.rescope_mem_targets (h : Occurs x base e) {t : Target} (ht : t ∈ x.ownTargets) :
    t.rescope base ∈ e.targets := by
  induction h with
  | self => rw [targets_eq, Target.rescope_nil]; exact List.mem_append_left _ ht
  | @branch e b base hb _ ih =>
    rw [targets_eq, ← Target.rescope_rescope]
    exact List.mem_append_right _ (List.mem_flatMap.2 ⟨b, hb, List.mem_map_of_mem ih⟩)

/-- What is reported: the targets of the accessors, with the bases above them in front. -/
theorem mem_targets_iff {t : Target} :
    t ∈ e.targets ↔ ∃ x base, Occurs x base e ∧ ∃ u ∈ x.ownTargets, u.rescope base = t := by
  constructor
  · intro ht
    induction e using inductBranches generalizing t with
    | h e ih =>
      rw [targets_eq, List.mem_append, List.mem_flatMap] at ht
      rcases ht with ht | ⟨b, hb, ht⟩
      · exact ⟨e, [], .self, t, ht, t.rescope_nil⟩
      · obtain ⟨u, hu, rfl⟩ := List.mem_map.1 ht
        obtain ⟨x, base, hx, w, hw, rfl⟩ := ih b hb hu
        exact ⟨x, b.base ++ base, .branch hb hx, w, hw, (w.rescope_rescope base b.base).symm⟩
  · rintro ⟨x, base, hx, u, hu, rfl⟩
    exact hx.rescope_mem_targets hu

theorem Within.metadata_target {key : String} (h : Within (.metadata key) e) :
    ⟨.metadata, if key.isEmpty then [] else [key]⟩ ∈ e.targets :=
  let ⟨_, h⟩ := h
  h.rescope_mem_targets (List.mem_singleton_self _)

theorem Within.var_target {name : String} (h : Within (.var name) e) :
    ⟨.variable, [name]⟩ ∈ e.targets :=
  let ⟨_, h⟩ := h
  h.rescope_mem_targets (List.mem_singleton_self _)

theorem InScope.field_target {path : Path} (h : InScope (.field path) e) :
    ⟨.value, path⟩ ∈ e.targets :=
  h.occurs.rescope_mem_targets (t := ⟨.value, path⟩) (List.mem_singleton_self _)

theorem Occurs.document_target {path : Path} (h : Occurs (.document path) base e) :
    ⟨.value, base ++ path⟩ ∈ e.targets :=
  h.rescope_mem_targets (t := ⟨.value, path⟩) (List.mem_singleton_self _)

theorem value_mem_targets_iff {q : Path} :
    ⟨.value, q⟩ ∈ e.targets ↔ ∃ base path, base ++ path = q ∧
      (Occurs (.field path) base e ∨ Occurs (.document path) base e) := by
  constructor
  · intro h
    obtain ⟨x, base, hx, u, hu, hq⟩ := mem_targets_iff.1 h
    cases x <;> simp only [ownTargets, List.mem_singleton, List.not_mem_nil] at hu <;> subst hu
      <;> simp only [Target.rescope_value, Target.rescope_metadata, Target.rescope_variable,
        Target.mk.injEq, reduceCtorEq, false_and, true_and] at hq
    · exact ⟨base, _, hq, .inl hx⟩
    · exact ⟨base, _, hq, .inr hx⟩
  · rintro ⟨base, path, rfl, h | h⟩
    · exact h.rescope_mem_targets (t := ⟨.value, path⟩) (List.mem_singleton_self _)
    · exact h.document_target

/-- A read of the document is reported below the bases above it. All are reported under the path
that they read exactly if something else makes that target for each with a base above it. -/
theorem document_targets_iff (e : Expr ν) :
    (∀ q base, Occurs (.document q) base e → ⟨.value, base ++ q⟩ ∈ e.targets) ∧
    ((∀ q, Within (.document q) e → ⟨.value, q⟩ ∈ e.targets) ↔
      ∀ q base, Occurs (.document q) base e → base ≠ [] →
        ∃ base' path, base' ++ path = q ∧
          (Occurs (.field path) base' e ∨ Occurs (.document path) base' e)) := by
  refine ⟨fun q base h => h.document_target, ?_⟩
  constructor
  · intro h q base hq _
    exact value_mem_targets_iff.1 (h q hq.within)
  · rintro h q ⟨base, hq⟩
    rw [value_mem_targets_iff]
    by_cases hbase : base = []
    · exact ⟨[], q, rfl, .inr (hbase ▸ hq)⟩
    · exact h q base hq hbase

/-- In a case of a match on the field `a`, the document field `b` is reported as `a.b` only. -/
theorem document_target_missed :
    ¬ ∀ (e : Expr String) (q : Path), Within (.document q) e → ⟨.value, q⟩ ∈ e.targets := by
  intro h
  have hb := h (.switch (some (.field ["a"])) [⟨.literal (.bool true), .document ["b"]⟩]) ["b"]
    (by simp)
  revert hb
  decide

end Expr

end MessageMapping
