import MessageMapping.Proofs.Agreement
import MessageMapping.Proofs.Rescoping

/-!
# Runs that agree

`run_agree` takes agreement from the accessors of an expression and of all maps to whole runs: the
two runs may start in different scopes, related by `S`, and every application carries the relation
on. Its first use is that a scope which holds the document of the message is no scope at all: fields
are read from the document either way and fail with one text.
-/

namespace MessageMapping

namespace Expr

variable {E : EvalError → EvalError → Prop} {S : Option Value → Option Value → Prop}
  {env env' : Surroundings} {maps : Entries (Expr String)} {e : Expr String}

/-- Two surroundings agree on what the accessors of an expression read, in scopes that `S`
relates. -/
structure ReadsAgree (E : EvalError → EvalError → Prop) (S : Option Value → Option Value → Prop)
    (env env' : Surroundings) (e : Expr String) : Prop where
  field : ∀ p, Within (.field p) e → ∀ s s', S s s' → Agree E (env.field p s) (env'.field p s')
  document : ∀ p, Within (.document p) e →
    Agree E (env.batch.document env.index p) (env'.batch.document env'.index p)
  metadata : ∀ k, Within (.metadata k) e →
    Agree E (env.batch.metadata env.index k) (env'.batch.metadata env'.index k)
  var : ∀ n, Within (.var n) e → Agree E (env.var n) (env'.var n)

theorem ReadsAgree.leavesAgree (hS : ∀ v, S (some v) (some v)) (h : ReadsAgree E S env env' e)
    {call call' : String → Scoped Value}
    (hcall : ∀ n s s', S s s' → Agree E (call n s) (call' n s')) {s s' : Option Value}
    (hs : S s s') : LeavesAgree E env env' call call' s s' e where
  field p hp := h.field p hp.occurs.within s s' hs
  innerField p hp v := h.field p hp (some v) (some v) (hS v)
  document := h.document
  metadata := h.metadata
  var := h.var
  apply n _ := hcall n s s' hs
  innerApply n _ v := hcall n (some v) (some v) (hS v)

/-- Runs agree if the accessors of the root and of all maps do. -/
theorem run_agree (hE : ErrorCongruence E) (hS : ∀ v, S (some v) (some v))
    (hmissing : ∀ n, maps.get? n = none → E (.undefinedMap n) (.undefinedMap n))
    (hdeep : ∀ n body, maps.get? n = some body → E (.recursionLimit n) (.recursionLimit n))
    (hmaps : ∀ n body, maps.get? n = some body → ReadsAgree E S env env' body) (budget : Nat)
    (he : ReadsAgree E S env env' e) {s s' : Option Value} (hs : S s s') :
    Agree E (run env maps budget e s) (run env' maps budget e s') := by
  induction budget generalizing e s s' with
  | zero =>
    refine eval_agree hE (he.leavesAgree hS (fun n s s' _ => ?_) hs)
    cases hn : maps.get? n with
    | none => exact .error (hmissing n hn)
    | some body => exact .error (hdeep n body hn)
  | succ budget ih =>
    refine eval_agree hE (he.leavesAgree hS (fun n s s' hs => ?_) hs)
    cases hn : maps.get? n with
    | none => exact .error (hmissing n hn)
    | some body => exact ih (hmaps n body hn) hs

/-! ### The document as a scope -/

/-- A field reads the document alike without a scope and with the document as the scope. -/
theorem readsAgree_document {root : Value}
    (hroot : env.batch.message env.index >>= Message.readDocument = .ok root) (e : Expr String) :
    ReadsAgree (· = ·) (fun s s' => s = s' ∨ s = none ∧ s' = some root) env env e where
  field p _ s s' hs := by
    refine .of_eq ?_
    rcases hs with rfl | ⟨rfl, rfl⟩
    · rfl
    · rw [Surroundings.field_none, Surroundings.field_some, hroot]
      rfl
  document _ _ := .of_eq rfl
  metadata _ _ := .of_eq rfl
  var _ _ := .of_eq rfl

theorem run_switch_true (context : Expr String) (budget : Nat) {v : Value} {s : Option Value}
    (h : run env maps budget context s = .ok v) :
    run env maps budget (.switch (some context) [⟨.literal (.bool true), e⟩]) s =
      run env maps budget e (some v) := by
  cases budget <;>
  · rw [run] at h ⊢
    rw [eval, Scoped.bind_apply, h]
    rfl

/-- A run on a message that holds a document is the run in the scope of the document, so a match
on the whole document changes nothing. -/
theorem run_eq_run_document {m : Message} {json : Json}
    (hm : env.batch.get? env.index = some m) (hjson : Json.ofBytes m.content.toList = .ok json)
    (maps : Entries (Expr String)) (budget : Nat) (e : Expr String) :
    run env maps budget e none = run env maps budget e (some (Value.ofJson json)) ∧
    run env maps budget (.switch (some (.document [])) [⟨.literal (.bool true), e⟩]) none =
      run env maps budget e none := by
  have hroot : env.batch.message env.index >>= Message.readDocument = .ok (Value.ofJson json) := by
    rw [Batch.message, hm]
    show m.readDocument = _
    rw [Message.readDocument, m.document_eq, hjson]
    rfl
  have hrun : run env maps budget e none = run env maps budget e (some (Value.ofJson json)) :=
    (run_agree .eq (fun _ => .inl rfl) (fun _ _ => rfl) (fun _ _ _ => rfl)
      (fun _ body _ => readsAgree_document hroot body) budget (readsAgree_document hroot e)
      (.inr ⟨rfl, rfl⟩)).eq
  refine ⟨hrun, ?_⟩
  have hdoc : run env maps budget (.document []) none = .ok (Value.ofJson json) := by
    have : env.batch.document env.index [] = .ok (Value.ofJson json) := by
      rw [Batch.document, ← bind_assoc, hroot]
      rfl
    cases budget <;> rw [run, eval, Scoped.lift_apply, this]
  rw [run_switch_true _ budget hdoc, hrun]

/-- A map that applies itself gives up, and the field that is tried next is not there. -/
theorem run_eq_run_document_loop :
    let env : Surroundings :=
      ⟨⟨[default, { content := "\x7b\"a\":\x7b\"b\":1\x7d\x7d".toUTF8 }]⟩, 1, []⟩
    let maps : Entries (Expr String) := [("loop", .apply "loop")]
    let e : Expr String := .arithmetic (.chain (.operand (.apply "loop"))
      [(.coalesce, .operand (.field ["a", "c"]))])
    ∃ m json, env.batch.get? env.index = some m ∧ Json.ofBytes m.content.toList = .ok json ∧
      run env maps maxApplications e (some (Value.ofJson json)) = .error (.undefinedField "a.c") ∧
      run env maps maxApplications
        (.switch (some (.document [])) [⟨.literal (.bool true), e⟩]) none =
        .error (.undefinedField "a.c") := by
  intro env maps e
  have hjson : Json.ofBytes "\x7b\"a\":\x7b\"b\":1\x7d\x7d".toUTF8.toList =
      .ok (.object [("a", .object [("b", .number (.int 1 (by decide) (by decide)))])]) := by cbv
  refine ⟨_, _, rfl, hjson, ?_⟩
  obtain ⟨hscope, hmatch⟩ := run_eq_run_document
    (show env.batch.get? env.index = some _ from rfl) hjson maps maxApplications e
  have hscoped : run env maps maxApplications e (some (Value.ofJson (.object
      [("a", .object [("b", .number (.int 1 (by decide) (by decide)))])]))) =
      .error (.undefinedField "a.c") := by cbv
  exact ⟨hscoped, by rw [hmatch, hscope, hscoped]⟩

end Expr

end MessageMapping
