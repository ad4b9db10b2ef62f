import MessageMapping.Proofs.Building

/-!
# The first fault of a definition

A `Visit` is the arrival at a node or the departure from it when all nodes below are done. A node
that is too deep is a fault on arrival, and a row whose operators do not fit its operands is one on
departure. `Definition.visits` walks through a whole definition without looking for faults. Main
result: building fails with the first fault on this walk, and succeeds exactly if the definition is
`WellFormed`, which says of every node by itself what is asked of it.
-/

namespace MessageMapping

/-! ### Errors of computations -/

theorem findSome?_cons_or {α β : Type} (f : α → Option β) (a : α) (rest : List α) :
    (a :: rest).findSome? f = (f a).or (rest.findSome? f) := by
  rw [List.findSome?_cons]
  cases f a <;> rfl

theorem findSome?_flatMap {α β γ : Type} (f : α → List β) (g : β → Option γ) (as : List α) :
    (as.flatMap f).findSome? g = as.findSome? fun a => (f a).findSome? g := by
  induction as with
  | nil => rfl
  | cons a rest ih => rw [List.flatMap_cons, List.findSome?_append, ih, findSome?_cons_or]

/-- The computation fails with the fault, or succeeds if there is none. -/
def Reports {ε α : Type} (x : Except ε α) (fault : Option ε) : Prop :=
  ∀ e, x = .error e ↔ fault = some e

namespace Reports

variable {ε α β : Type} {x : Except ε α} {fault fault' : Option ε}

theorem ok (a : α) : Reports (.ok a : Except ε α) none :=
  fun _ => ⟨nofun, nofun⟩

theorem error (e : ε) : Reports (.error e : Except ε α) (some e) :=
  fun _ => ⟨fun h => congrArg some (Except.error.inj h), fun h => congrArg _ (Option.some.inj h)⟩

theorem exists_ok_iff (h : Reports x fault) : (∃ a, x = .ok a) ↔ fault = none := by
  cases x with
  | ok a =>
    refine iff_of_true ⟨a, rfl⟩ (Option.eq_none_iff_forall_ne_some.2 fun e he => ?_)
    cases (h e).2 he
  | error e => exact iff_of_false (fun ⟨_, ha⟩ => by cases ha) (by rw [(h e).1 rfl]; nofun)

/-- What comes after a failure is not looked at. -/
theorem bind {f : α → Except ε β} (hx : Reports x fault)
    (hf : ∀ a, x = .ok a → Reports (f a) fault') : Reports (x >>= f) (fault.or fault') := by
  cases x with
  | ok a =>
    rw [hx.exists_ok_iff.1 ⟨a, rfl⟩, Option.none_or]
    exact hf a rfl
  | error e =>
    rw [(hx e).1 rfl, Option.some_or]
    exact error e

/-- A last step that cannot fail adds no fault. -/
theorem last {f : α → Except ε β} (hx : Reports x fault) (hf : ∀ a, Reports (f a) none) :
    Reports (x >>= f) fault := by
  simpa only [Option.or_none] using hx.bind fun a _ => hf a

theorem mapM {f : α → Except ε β} {faultOf : α → Option ε} {as : List α}
    (h : ∀ a ∈ as, Reports (f a) (faultOf a)) : Reports (as.mapM f) (as.findSome? faultOf) := by
  induction as with
  | nil => exact ok []
  | cons a rest ih =>
    obtain ⟨ha, hrest⟩ := List.forall_mem_cons.1 h
    rw [List.mapM_cons, findSome?_cons_or]
    exact ha.bind fun b _ => (ih hrest).last fun bs => ok (b :: bs)

end Reports

namespace Definition

/-! ### Nodes -/

/-- The node `x` stands in a definition, this many levels below its root. -/
inductive NodeAt (x : Definition) : Nat → Definition → Prop
  | root : NodeAt x 0 x
  | child {d c : Definition} {depth : Nat} (hc : c ∈ d.children) (h : NodeAt x depth c) :
    NodeAt x (depth + 1) d

/-- No node is too deep, and a row has operands, with one operator between each two. -/
def WellFormed (d : Definition) : Prop :=
  ∀ depth x, NodeAt x depth d → depth ≤ 256 ∧
    ∀ operands operators, x = .arithmetic operands operators →
      operands ≠ [] ∧ operands.length = operators.length + 1

/-! ### Visits -/

/-- A stop on the walk through a definition. -/
inductive Visit
  | arrive (depth : Nat) (x : Definition)
  | leave (x : Definition)

/-- What is wrong at a stop. -/
def Visit.fault? : Visit → Option BuildError
  | arrive depth _ => if 256 < depth then some (.tooDeep 256) else none
  | leave (.arithmetic [] _) => some .noOperands
  | leave (.arithmetic operands operators) =>
    if operands.length = operators.length + 1 then none
    else some (.operatorMismatch operands.length operators.length)
  | leave _ => none

theorem sizeOf_lt_of_mem_children {c d : Definition} (h : c ∈ d.children) :
    sizeOf c < sizeOf d := by
  cases d with
  | arithmetic operands operators =>
    have hoperand : c ∈ operands := h
    have := List.sizeOf_lt_of_mem hoperand
    simp only [arithmetic.sizeOf_spec]
    omega
  | conditional condition consequent alternative =>
    rcases List.mem_append.1 h with h | h
    · rcases List.mem_pair.1 h with rfl | rfl <;> simp only [conditional.sizeOf_spec] <;> omega
    · obtain rfl := Option.mem_toList.1 h
      simp only [conditional.sizeOf_spec, Option.some.sizeOf_spec]
      omega
  | switch context cases =>
    rcases List.mem_append.1 h with h | h
    · obtain rfl := Option.mem_toList.1 h
      simp only [switch.sizeOf_spec, Option.some.sizeOf_spec]
      omega
    · obtain ⟨⟨query, result⟩, hcase, h⟩ := List.mem_flatMap.1 h
      have := List.sizeOf_lt_of_mem hcase
      rw [Case.mk.sizeOf_spec] at this
      rcases List.mem_pair.1 h with rfl | rfl <;> simp only [switch.sizeOf_spec] <;> omega
  | not operand =>
    rw [List.mem_singleton.1 h, not.sizeOf_spec]
    omega
  | _ => cases h

/-- The walk through a definition whose root is at this depth. -/
def visits (depth : Nat) (d : Definition) : List Visit :=
  .arrive depth d :: (d.children.attach.flatMap fun c => c.1.visits (depth + 1)) ++ [.leave d]
termination_by d
decreasing_by exact sizeOf_lt_of_mem_children c.2

theorem visits_eq (depth : Nat) (d : Definition) :
    d.visits depth = .arrive depth d :: d.children.flatMap (visits (depth + 1)) ++ [.leave d] := by
  rw [visits]
  simp

/-- Arriving comes first, then the children one after the other, and leaving last. -/
theorem findSome?_visits {α : Type} (f : Visit → Option α) (depth : Nat) (d : Definition) :
    (d.visits depth).findSome? f =
      (f (.arrive depth d)).or
        ((d.children.findSome? fun c => (c.visits (depth + 1)).findSome? f).or (f (.leave d))) := by
  rw [visits_eq, List.cons_append, findSome?_cons_or, List.findSome?_append, findSome?_flatMap,
    findSome?_cons_or, List.findSome?_nil, Option.or_none]

theorem mem_visits_iff {depth : Nat} {d : Definition} {v : Visit} : v ∈ d.visits depth ↔
    ∃ n x, NodeAt x n d ∧ (v = .arrive (depth + n) x ∨ v = .leave x) := by
  constructor
  · intro hv
    induction d using induct_children generalizing depth with
    | h d ih =>
      rw [visits_eq, List.mem_append, List.mem_cons, List.mem_flatMap, List.mem_singleton] at hv
      rcases hv with (rfl | ⟨c, hc, hv⟩) | rfl
      · exact ⟨0, d, .root, .inl rfl⟩
      · obtain ⟨n, x, hx, hv⟩ := ih c hc hv
        rw [Nat.add_right_comm, Nat.add_assoc] at hv
        exact ⟨n + 1, x, .child hc hx, hv⟩
      · exact ⟨0, d, .root, .inr rfl⟩
  · rintro ⟨n, x, hx, hv⟩
    induction hx generalizing depth with
    | root => rw [visits_eq]; rcases hv with rfl | rfl <;> simp
    | child hc _ ih =>
      rw [visits_eq]
      refine List.mem_append_left _ (List.mem_cons_of_mem _ (List.mem_flatMap.2 ⟨_, hc, ih ?_⟩))
      rwa [Nat.add_right_comm, Nat.add_assoc]

/-! ### Building -/

theorem arithmetic_fault?_eq_none_iff {operands : List Definition} {operators : List Operator} :
    (Visit.leave (.arithmetic operands operators)).fault? = none ↔
      operands ≠ [] ∧ operands.length = operators.length + 1 := by
  cases operands <;> simp [Visit.fault?]

theorem wellFormed_iff {d : Definition} :
    d.WellFormed ↔ (d.visits 0).findSome? Visit.fault? = none := by
  rw [List.findSome?_eq_none_iff]
  constructor
  · intro h v hv
    obtain ⟨n, x, hx, rfl | rfl⟩ := mem_visits_iff.1 hv
    · rw [Nat.zero_add]
      exact if_neg (Nat.not_lt.2 (h n x hx).1)
    · cases x with
      | arithmetic operands operators =>
        exact arithmetic_fault?_eq_none_iff.2 ((h n _ hx).2 operands operators rfl)
      | _ => rfl
  · intro h depth x hx
    constructor
    · have harrive := h (.arrive depth x) (mem_visits_iff.2 ⟨depth, x, hx, by simp⟩)
      by_contra hdeep
      rw [Visit.fault?, if_pos (Nat.not_le.1 hdeep)] at harrive
      cases harrive
    · rintro operands operators rfl
      exact arithmetic_fault?_eq_none_iff.1
        (h (.leave (.arithmetic operands operators)) (mem_visits_iff.2 ⟨depth, _, hx, .inr rfl⟩))

/-- A row fails as its lengths say, whatever the operands are. -/
theorem reports_ofLists? {operands : List Definition} {es : List (Expr String)}
    (hlength : es.length = operands.length) (operators : List Operator) :
    Reports (Grouping.ofLists? es operators)
      (Visit.leave (.arithmetic operands operators)).fault? := by
  cases es with
  | nil =>
    obtain rfl := List.length_eq_zero_iff.1 hlength.symm
    exact .error _
  | cons first others =>
    cases operands with
    | nil => cases hlength
    | cons d ds =>
      obtain hlength : others.length = ds.length := Nat.succ.inj hlength
      rw [Grouping.ofLists?, Terms.ofLists?, Visit.fault?]
      · simp only [List.length_cons, hlength, Nat.add_right_cancel_iff]
        split
        · exact .ok _
        · exact .error _
      · simp

/-- A node fails like the first of its children that fails, and like itself if none does. -/
theorem reports_of_children {depth : Nat} {d : Definition} (hdepth : ¬ maxDepth < depth)
    {faultOf : Definition → Option BuildError}
    (h : ∀ c ∈ d.children, Reports (c.buildAt (depth + 1)) (faultOf c)) :
    Reports (d.buildAt depth) ((d.children.findSome? faultOf).or (Visit.leave d).fault?) := by
  cases d with
  | literal | absent | delete | field | document | metadata | var | apply =>
    rw [buildAt, if_neg hdepth]
    exact .ok _
  | arithmetic operands operators =>
    rw [buildAt, if_neg hdepth, buildList_eq]
    exact (Reports.mapM h).bind fun es hes =>
      (reports_ofLists? (forall₂_of_mapM hes).length_eq.symm operators).last fun _ => .ok _
  | conditional c t a =>
    rw [show (Visit.leave (conditional c t a)).fault? = none from rfl, Option.or_none, buildAt,
      if_neg hdepth]
    have hc := h c (by simp [children])
    have ht := h t (by simp [children])
    cases a with
    | none =>
      have hfault : (conditional c t none).children.findSome? faultOf =
          (faultOf c).or (faultOf t) := by simp [children, findSome?_cons_or]
      rw [hfault]
      exact hc.bind fun _ _ => ht.last fun _ => .ok _
    | some a =>
      have ha := h a (by simp [children])
      have hfault : (conditional c t (some a)).children.findSome? faultOf =
          (faultOf c).or ((faultOf t).or (faultOf a)) := by simp [children, findSome?_cons_or]
      rw [hfault]
      exact hc.bind fun _ _ => ht.bind fun _ _ => ha.last fun _ => .ok _
  | switch context cases =>
    have hcases : Reports (buildCases (depth + 1) cases)
        ((cases.flatMap fun c => [c.query, c.result]).findSome? faultOf) := by
      rw [buildCases_eq, findSome?_flatMap]
      refine Reports.mapM fun c hc => ?_
      have hquery := h c.query (mem_children_of_case hc).1
      have hresult := h c.result (mem_children_of_case hc).2
      simp only [findSome?_cons_or, List.findSome?_nil, Option.or_none]
      exact hquery.bind fun _ _ => hresult.last fun _ => .ok _
    rw [show (Visit.leave (switch context cases)).fault? = none from rfl, Option.or_none, children,
      List.findSome?_append]
    cases context with
    | none =>
      rw [buildAt, if_neg hdepth, Option.toList_none, List.findSome?_nil, Option.none_or]
      exact hcases.last fun _ => .ok _
    | some x =>
      have hx := h x (by simp [children])
      rw [buildAt, if_neg hdepth, Option.toList_some, findSome?_cons_or, List.findSome?_nil,
        Option.or_none]
      exact hx.bind fun _ _ => hcases.last fun _ => .ok _
  | not d =>
    rw [show (Visit.leave (.not d)).fault? = none from rfl, Option.or_none, buildAt, if_neg hdepth,
      children, findSome?_cons_or, List.findSome?_nil, Option.or_none]
    exact (h d (by simp [children])).last fun _ => .ok _

theorem reports_buildAt (depth : Nat) (d : Definition) :
    Reports (d.buildAt depth) ((d.visits depth).findSome? Visit.fault?) := by
  induction d using induct_children generalizing depth with
  | h d ih =>
    rw [findSome?_visits, Visit.fault?]
    by_cases hdeep : maxDepth < depth
    · have htooDeep : 256 < depth := hdeep
      rw [buildAt.eq_def, if_pos hdeep, if_pos htooDeep, Option.some_or]
      exact .error _
    · have hshallow : ¬ 256 < depth := hdeep
      rw [if_neg hshallow, Option.none_or]
      exact reports_of_children hdeep fun c hc => ih c hc (depth + 1)

theorem exists_build_iff {d : Definition} : (∃ e, d.build = .ok e) ↔ d.WellFormed :=
  (reports_buildAt 0 d).exists_ok_iff.trans wellFormed_iff.symm

/-- Building succeeds for the well-formed definitions and no others, and fails with the fault that
the walk through the definition meets first. -/
theorem build_first_fault (d : Definition) :
    ((∃ e, d.build = .ok e) ↔ d.WellFormed) ∧
    ∀ err, d.build = .error err ↔ (d.visits 0).findSome? Visit.fault? = some err :=
  ⟨exists_build_iff, reports_buildAt 0 d⟩

/-- The row without operands stands in a row that lacks an operator, and is left before that one. -/
example : build (.arithmetic [.arithmetic [] [.add], .absent] []) = .error .noOperands := rfl

end Definition

end MessageMapping
