import MessageMapping.Lazy.Eval
import MessageMapping.Proofs.Rescoping

/-!
# Reading on demand is reading

A batch shows another one if these are the messages that it holds and what it keeps of their
documents is what reading would find (`LazyBatch.Shows`). A computation on such a batch answers as
one on the batch that is shown, and the batch that it leaves shows the same (`Answers`). No
construct of the language can tell the two apart, so evaluation on demand answers as evaluation does
(`evalLazy_answers`, `runLazy_answers`).
-/

namespace MessageMapping

/-! ### What is kept of documents -/

/-- If something is kept, then it is what reading the content finds. -/
def LazyMessage.Faithful (m : LazyMessage) : Prop :=
  ∀ found, m.found = some found → found = m.toMessage.document

namespace LazyMessage

variable {m : LazyMessage}

theorem Faithful.load_fst (h : m.Faithful) : m.load.1 = m.toMessage.document := by
  unfold load
  split
  next found hfound => exact h found hfound
  next => rfl

theorem Faithful.load (h : m.Faithful) : m.load.2.Faithful := by
  intro found hfound
  rw [toMessage_load]
  unfold LazyMessage.load at hfound
  split at hfound
  next => exact h found hfound
  next => exact (Option.some.inj hfound).symm

end LazyMessage

def LazyBatch.Faithful (b : LazyBatch) : Prop :=
  ∀ m ∈ b.messages, m.Faithful

/-- The batch that is seen from outside, with nothing wrong kept of its documents. -/
structure LazyBatch.Shows (view : Batch) (b : LazyBatch) : Prop where
  faithful : b.Faithful
  toBatch_eq : b.toBatch = view

namespace LazyBatch

variable {b : LazyBatch}

theorem Faithful.readDocument (h : b.Faithful) (index : Nat) :
    (b.readDocument index).2.Faithful := by
  unfold LazyBatch.readDocument
  split
  next m hm =>
    intro m' hm'
    rcases List.mem_or_eq_of_mem_set hm' with hm' | rfl
    · exact h m' hm'
    · exact (h m (List.mem_of_getElem? (message_eq_ok.1 hm))).load
  next => exact h

theorem Faithful.readDocument_fst (h : b.Faithful) (index : Nat) :
    (b.readDocument index).1 = b.toBatch.message index >>= Message.readDocument := by
  rw [toBatch_message]
  unfold LazyBatch.readDocument
  split
  next m hm =>
    rw [hm, (h m (List.mem_of_getElem? (message_eq_ok.1 hm))).load_fst]
    rfl
  next e he =>
    rw [he]
    rfl

end LazyBatch

/-! ### Answering as on the batch that is shown -/

variable {α β : Type} {view : Batch}

/-- From any batch that shows `view`, the computation answers `y` and leaves one that does. -/
def Answers (view : Batch) (x : StateM LazyBatch (Except EvalError α)) (y : Except EvalError α) :
    Prop :=
  ∀ b : LazyBatch, b.Shows view → (x b).1 = y ∧ (x b).2.Shows view

namespace Answers

variable {s : Option Value} {x : Reading α} {y : Except EvalError α}

theorem pure (a : α) : Answers view ((Pure.pure a : Reading α) s) (.ok a) :=
  fun _ hb => ⟨rfl, hb⟩

theorem throw (e : EvalError) : Answers view ((MonadExcept.throw e : Reading α) s) (.error e) :=
  fun _ hb => ⟨rfl, hb⟩

theorem lift (y : Except EvalError α) : Answers view ((liftM y : Reading α) s) y := by
  cases y with
  | ok a => exact pure a
  | error e => exact throw e

theorem bind {f : α → Reading β} {g : α → Except EvalError β} (hx : Answers view (x s) y)
    (hf : ∀ a, Answers view (f a s) (g a)) : Answers view ((x >>= f) s) (y >>= g) := by
  intro b hb
  obtain ⟨hy, hb'⟩ := hx b hb
  -- the second computation runs on what the first one left
  show (ExceptT.bindCont f (x s b).1 s (x s b).2).1 = _ ∧
    LazyBatch.Shows view (ExceptT.bindCont f (x s b).1 s (x s b).2).2
  rw [hy]
  cases y with
  | ok a => exact hf a _ hb'
  | error e => exact ⟨rfl, hb'⟩

theorem read_bind {f : Option Value → Reading α} (h : Answers view (f s s) y) :
    Answers view ((read >>= f : Reading α) s) y :=
  h

theorem adapt (f : EvalError → EvalError) (hx : Answers view (x s) y) :
    Answers view ((ExceptT.adapt f x : Reading α) s) (y.mapError f) := by
  intro b hb
  obtain ⟨rfl, hb'⟩ := hx b hb
  exact ⟨rfl, hb'⟩

end Answers

/-! ### Accessors -/

section Accessors

variable {index : Nat} {s : Option Value}

theorem answers_root :
    Answers view (Reading.root index s) (view.message index >>= Message.readDocument) := by
  rintro b ⟨hb, rfl⟩
  exact ⟨hb.readDocument_fst index, hb.readDocument index, b.toBatch_readDocument index⟩

theorem answers_document (path : Path) :
    Answers view (Reading.document index path s) (view.document index path) := by
  rw [Batch.document, ← bind_assoc]
  refine answers_root.bind fun root => ?_
  cases root.get? path with
  | some v => exact .pure v
  | none => exact .throw _

theorem answers_metadata (key : String) :
    Answers view (Reading.metadata index key s) (view.metadata index key) := by
  rintro b ⟨hb, rfl⟩
  rw [b.toBatch_metadata]
  exact Answers.lift (s := s) (b.metadata index key) b ⟨hb, rfl⟩

theorem answers_field {env : Surroundings} (path : Path) :
    Answers env.batch (Reading.field env.index path s) (env.field path s) := by
  cases s with
  | none =>
    rw [show env.field path none = env.batch.document env.index path from Scoped.lift_apply none _]
    exact answers_document path
  | some v =>
    rw [Surroundings.field_some, Value.read]
    refine Answers.read_bind ?_
    dsimp only
    cases v.get? path with
    | some w => exact .pure w
    | none => exact .throw _

theorem answers_var {env : Surroundings} (name : String) :
    Answers view (Reading.var env.vars name s) (env.var name) := by
  unfold Reading.var Surroundings.var
  cases env.vars.get? name with
  | some v => exact .pure v
  | none => exact .throw _

end Accessors

/-! ### Chains and groupings -/

theorem Chain.coalesce_cons_read (first next : Reading Value) (rest : List (Reading Value))
    (s : Option Value) (b : LazyBatch) :
    (coalesce first (next :: rest) : Reading Value) s b =
      match (first s b).1 with
      | .ok v => if v.isEmpty then coalesce next rest s (first s b).2 else (.ok v, (first s b).2)
      | .error _ => coalesce next rest s (first s b).2 := by
  simp only [coalesce]
  show (match (first s b).1 with | .ok v => _ | .error _ => _ :
    ReaderT (Option Value) (StateM LazyBatch) _) s (first s b).2 = _
  cases (first s b).1 with
  | ok v => by_cases h : v.isEmpty = true <;> simp [h] <;> rfl
  | error e => rfl

theorem answers_compatible (view : Batch) (s : Option Value) :
    Compatible fun (x : Reading _) (y : Scoped _) => Answers view (x s) (y s) where
  pure v := .pure v
  bind hx hf := by
    simp only [Scoped.bind_apply]
    exact hx.bind hf
  expectBool v := by
    simp only [Scoped.lift_apply]
    exact .lift v.expectBool
  apply op v w := by
    simp only [Scoped.lift_apply]
    exact .lift (op.apply v w)
  coalesce {x next y next'} hx hnext := by
    intro b hb
    obtain ⟨hy, hb'⟩ := hx b hb
    -- what the first operand found stays, also where its result is passed over
    rw [Chain.coalesce_cons_read, Chain.coalesce_cons_apply, hy]
    cases y s with
    | ok v =>
      by_cases hv : v.isEmpty = true
      · simpa [hv] using hnext _ hb'
      · simpa [hv] using hb'
    | error _ => exact hnext _ hb'

/-! ### Expressions -/

namespace Expr

variable {ν : Type} {env : Surroundings} {call : ν → Reading Value} {call' : ν → Scoped Value}

theorem evalRestLazy_eq (index : Nat) (vars : Entries Value) (call : ν → Reading Value)
    (rest : List (Operator × Grouping (Expr ν))) :
    evalRestLazy index vars call rest =
      rest.map fun p => (p.1, evalOperandsLazy index vars call p.2) := by
  induction rest with
  | nil => rw [evalRestLazy, List.map_nil]
  | cons p rest ih => rw [evalRestLazy, ih, List.map_cons]

theorem evalOperandsLazy_eq (index : Nat) (vars : Entries Value) (call : ν → Reading Value)
    (g : Grouping (Expr ν)) :
    evalOperandsLazy index vars call g = g.map (evalLazy index vars call) := by
  induction g using Grouping.induct with
  | operand e => simp [evalOperandsLazy]
  | chain first rest ihf ihr =>
    rw [evalOperandsLazy, evalRestLazy_eq, Grouping.map_chain, ihf]
    congr 1
    exact List.map_congr_left fun p hp => by rw [ihr p hp]

theorem evalCasesLazy_answers {cases : List (Case (Expr ν))} {s : Option Value}
    (h : ∀ c ∈ cases,
      Answers env.batch (evalLazy env.index env.vars call c.query s) (eval env call' c.query s) ∧
      Answers env.batch (evalLazy env.index env.vars call c.result s) (eval env call' c.result s))
    (place : Nat) :
    Answers env.batch (evalCasesLazy env.index env.vars call place cases s)
      (evalCases env call' place cases s) := by
  induction cases generalizing place with
  | nil => exact .pure _
  | cons c rest ih =>
    obtain ⟨⟨hq, hr⟩, hrest⟩ := List.forall_mem_cons.1 h
    simp only [evalCasesLazy, evalCases, Scoped.bind_apply, Scoped.adapt_apply, Scoped.lift_apply,
      Scoped.ite_apply]
    refine ((hq.bind fun v => .lift v.expectBool).adapt _).bind fun holds => ?_
    split
    · exact hr
    · exact ih hrest (place + 1)

/-- Evaluation on demand answers as evaluation does, if applications do. -/
theorem evalLazy_answers (hcall : ∀ n s, Answers env.batch (call n s) (call' n s)) (e : Expr ν)
    (s : Option Value) :
    Answers env.batch (evalLazy env.index env.vars call e s) (eval env call' e s) := by
  induction e using induct generalizing s with
  | literal v => exact .pure v
  | field p => exact answers_field p
  | document p => simpa [eval, evalLazy] using answers_document p
  | metadata k => simpa [eval, evalLazy] using answers_metadata k
  | var n => simpa [eval, evalLazy] using answers_var n
  | arithmetic g ih =>
    rw [evalLazy, eval_arithmetic, evalOperandsLazy_eq]
    exact g.run_compatible (answers_compatible env.batch s) fun a ha => ih a ha s
  | conditional c t a ihc iht iha =>
    have hholds := ((ihc s).bind fun v => .lift v.expectBool).adapt .ifCondition
    cases a with
    | none =>
      simp only [evalLazy, eval, Scoped.bind_apply, Scoped.adapt_apply, Scoped.lift_apply,
        Scoped.ite_apply]
      refine hholds.bind fun holds => ?_
      split
      · exact iht s
      · exact .pure _
    | some a =>
      simp only [evalLazy, eval, Scoped.bind_apply, Scoped.adapt_apply, Scoped.lift_apply,
        Scoped.ite_apply]
      refine hholds.bind fun holds => ?_
      split
      · exact iht s
      · exact iha a rfl s
  | switch context cases ihx ihc =>
    cases context with
    | none =>
      rw [evalLazy, eval]
      exact evalCasesLazy_answers (fun c hc => ⟨(ihc c hc).1 s, (ihc c hc).2 s⟩) 0
    | some x =>
      simp only [evalLazy, eval, Scoped.bind_apply]
      exact (ihx x rfl s).bind fun v =>
        evalCasesLazy_answers (fun c hc => ⟨(ihc c hc).1 (some v), (ihc c hc).2 (some v)⟩) 0
  | not e ih =>
    simp only [evalLazy, eval, Scoped.bind_apply, Scoped.lift_apply]
    exact (ih s).bind fun v => (Answers.lift v.expectBool).bind fun b => .pure _
  | apply n => exact hcall n s

theorem runLazy_answers (maps : Entries (Expr String)) (budget : Nat) (e : Expr String)
    (s : Option Value) :
    Answers env.batch (runLazy env.index env.vars maps budget e s) (run env maps budget e s) := by
  induction budget generalizing e s with
  | zero =>
    refine evalLazy_answers (fun n s => ?_) e s
    cases maps.get? n with
    | none => exact .throw _
    | some body => exact .throw _
  | succ budget ih =>
    refine evalLazy_answers (fun n s => ?_) e s
    cases maps.get? n with
    | none => exact .throw _
    | some body => exact ih body s

end Expr

end MessageMapping
