import MessageMapping.Grouping.Run
import MessageMapping.Proofs.Shape

/-!
# Groupings whose operands are related

A grouping runs in any monad, and what running does with its operands is little: it binds their
values, checks and combines these, and coalesces. A relation between computations of two monads that
respects these steps (`Compatible`) extends from operands to groupings (`Grouping.run_compatible`).
-/

namespace MessageMapping

variable {m m' : Type → Type} [Monad m] [Monad m']
  {R : ∀ {α : Type}, ExceptT EvalError m α → ExceptT EvalError m' α → Prop}

/-- Relations of computations that the steps of a chain keep. -/
structure Compatible (R : ∀ {α : Type}, ExceptT EvalError m α → ExceptT EvalError m' α → Prop) :
    Prop where
  pure : ∀ v : Value, R (Pure.pure v) (Pure.pure v)
  bind : ∀ {α β : Type} {x : ExceptT EvalError m α} {y : ExceptT EvalError m' α}
    {f : α → ExceptT EvalError m β} {g : α → ExceptT EvalError m' β},
    R x y → (∀ a, R (f a) (g a)) → R (x >>= f) (y >>= g)
  expectBool : ∀ v : Value, R (liftM v.expectBool) (liftM v.expectBool)
  apply : ∀ (op : Operator) (v w : Value), R (liftM (op.apply v w)) (liftM (op.apply v w))
  coalesce : ∀ {x next : Computation m} {y next' : Computation m'},
    R x y → R next next' → R (Chain.coalesce x [next]) (Chain.coalesce y [next'])

namespace Chain

@[simp] theorem coalesce_nil (first : Computation m) : coalesce first [] = first := rfl

theorem coalesce_cons (first next : Computation m) (rest : List (Computation m)) :
    coalesce first (next :: rest) = coalesce first [coalesce next rest] := rfl

theorem coalesce_compatible (hR : Compatible R) {first : Computation m} {first' : Computation m'}
    {rest : List (Computation m)} {rest' : List (Computation m')} (h : R first first')
    (hs : List.Forall₂ R rest rest') : R (coalesce first rest) (coalesce first' rest') := by
  induction hs generalizing first first' with
  | nil => exact h
  | cons hx _ ih =>
    rw [coalesce_cons, coalesce_cons first']
    exact hR.coalesce h (ih hx)

theorem logic_compatible (hR : Compatible R) (decisive : Bool) {operands : List (Computation m)}
    {operands' : List (Computation m')} (hs : List.Forall₂ R operands operands') :
    R (logic decisive operands) (logic decisive operands') := by
  induction hs with
  | nil => exact hR.pure _
  | cons hx _ ih =>
    refine hR.bind hx fun v => hR.bind (hR.expectBool v) fun b => ?_
    split
    · exact hR.pure _
    · exact ih

theorem fold_compatible (hR : Compatible R) {rest : List (Operator × Computation m)}
    {rest' : List (Operator × Computation m')}
    (hs : List.Forall₂ (fun p q => p.1 = q.1 ∧ R p.2 q.2) rest rest') (left : Value) :
    R (fold left rest) (fold left rest') := by
  induction hs generalizing left with
  | nil => exact hR.pure _
  | @cons p q _ _ hp _ ih =>
    obtain ⟨op, x⟩ := p
    obtain ⟨op', y⟩ := q
    obtain ⟨rfl, hx⟩ := hp
    exact hR.bind hx fun v => hR.bind (hR.apply op left v) ih

theorem run_compatible (hR : Compatible R) {first : Computation m} {first' : Computation m'}
    {rest : List (Operator × Computation m)} {rest' : List (Operator × Computation m')}
    (h : R first first') (hs : List.Forall₂ (fun p q => p.1 = q.1 ∧ R p.2 q.2) rest rest') :
    R (run first rest) (run first' rest') := by
  have hsnd : List.Forall₂ R (rest.map Prod.snd) (rest'.map Prod.snd) := by
    simpa [List.forall₂_map_left_iff, List.forall₂_map_right_iff] using hs.imp fun _ _ h => h.2
  have hfold : R (first >>= fun v => fold v rest) (first' >>= fun v => fold v rest') :=
    hR.bind h (fold_compatible hR hs)
  cases hs with
  | nil => exact hfold
  | @cons p q _ _ hp _ =>
    obtain ⟨op, x⟩ := p
    obtain ⟨op', y⟩ := q
    obtain ⟨rfl, -⟩ := hp
    cases op with
    | coalesce => exact coalesce_compatible hR h hsnd
    | and => exact logic_compatible hR false (.cons h hsnd)
    | or => exact logic_compatible hR true (.cons h hsnd)
    | _ => exact hfold

end Chain

/-- Groupings of one shape are related as their operands are. -/
theorem Grouping.run_compatible {ι : Type} (hR : Compatible R) {f : ι → Computation m}
    {f' : ι → Computation m'} (g : Grouping ι) (h : ∀ a ∈ g.operands, R (f a) (f' a)) :
    R (g.map f).run (g.map f').run := by
  induction g using induct with
  | operand a => simpa [run] using h a (by simp)
  | chain first rest ihf ihr =>
    simp only [operands_chain, List.mem_append, List.mem_flatMap] at h
    simp only [map_chain, run_chain, List.map_map]
    refine Chain.run_compatible hR (ihf fun a ha => h a (.inl ha)) ?_
    simp only [List.forall₂_map_left_iff, List.forall₂_map_right_iff, List.forall₂_same]
    exact fun p hp => ⟨rfl, ihr p hp fun a ha => h a (.inr ⟨p, hp, ha⟩)⟩

end MessageMapping
