import MessageMapping.Proofs.Building
import MessageMapping.Proofs.NonInterference
import MessageMapping.Proofs.Rescoping

/-!
# Where errors come from

Conditions and cases wrap an error and nothing unwraps it, so below all wrappers an error is as it
was raised (`EvalError.rootCause`). `eval_rootCause` says who raised it: an accessor of the
expression, an application, or an operator that got the wrong operands. Through nested applications
this becomes `run_rootCause`, where the recursion limit comes with the chain of applications that
led to it. Main result: the root cause of a failed mapping is explained by its message, its
variables and its maps, and what it names was reported by the read analysis.
-/

namespace MessageMapping

/-! ### Root causes -/

/-- The error below all conditions and cases. -/
def EvalError.rootCause : EvalError → EvalError
  | ifCondition cause => cause.rootCause
  | matchCase _ cause => cause.rootCause
  | undefinedField path => undefinedField path
  | undefinedMetadata key => undefinedMetadata key
  | undefinedVariable name => undefinedVariable name
  | undefinedMap name => undefinedMap name
  | recursionLimit name => recursionLimit name
  | undefinedMessage index => undefinedMessage index
  | invalidDocument fault => invalidDocument fault
  | typeMismatch expected found text => typeMismatch expected found text
  | divideByZero => divideByZero

theorem Value.error_of_expectBool {v : Value} {err : EvalError} (h : v.expectBool = .error err) :
    ∃ found text, err = .typeMismatch .bool found text := by
  cases v <;> cases h <;> exact ⟨_, _, rfl⟩

theorem Value.mismatch_eq (left right : Value) :
    ∃ expected found text, Value.mismatch left right = .typeMismatch expected found text := by
  cases left <;> exact ⟨_, _, _, rfl⟩

theorem Value.error_of_compare {op : Operator} {left right : Value} {err : EvalError}
    (h : Value.compare op left right = .error err) : err = Value.mismatch left right := by
  unfold Value.compare at h
  split at h
  · cases h
  · cases h
  · exact (Except.error.inj h).symm

theorem Numeric.error_of_arithmetic {op : Operator} {x y : Numeric} {err : EvalError}
    (h : Numeric.arithmetic op x y = .error err) : err = .divideByZero := by
  simp only [Numeric.arithmetic] at h
  split at h
  · exact (Except.error.inj h).symm
  · cases h

theorem Value.error_of_arithmetic {op : Operator} {left right : Value} {err : EvalError}
    (h : Value.arithmetic op left right = .error err) :
    err = Value.mismatch left right ∨ err = .divideByZero := by
  unfold Value.arithmetic at h
  split at h
  · rename_i x y
    exact .inr (Numeric.error_of_arithmetic (map_eq_error.1 h))
  · split at h
    · cases h
    · exact .inl (Except.error.inj h).symm
  · exact .inl (Except.error.inj h).symm

theorem Operator.error_of_apply {op : Operator} {left right : Value} {err : EvalError}
    (h : op.apply left right = .error err) :
    (∃ expected found text, err = .typeMismatch expected found text) ∨ err = .divideByZero := by
  have herr : err = Value.mismatch left right ∨ err = .divideByZero := by
    cases op with
    | eq | ne => cases h
    | gt | ge | lt | le => exact .inl (Value.error_of_compare (map_eq_error.1 h))
    | _ => exact Value.error_of_arithmetic h
  obtain ⟨expected, found, text, hmismatch⟩ := Value.mismatch_eq left right
  exact herr.imp_left fun h => ⟨expected, found, text, h.trans hmismatch⟩

namespace Agree

variable {α : Type} {E : EvalError → EvalError → Prop} {x y : Except EvalError α}

theorem exists_of_error {e' : EvalError} (h : Agree E x y) (hy : y = .error e') :
    ∃ e, x = .error e ∧ E e e' := by
  cases h with
  | ok a => cases hy
  | error h =>
    obtain rfl := Except.error.inj hy
    exact ⟨_, rfl, h⟩

end Agree

/-- Evaluation keeps what is known of root causes. -/
theorem ErrorCongruence.rootCause {P : EvalError → Prop}
    (hmismatch : ∀ expected found text, P (.typeMismatch expected found text))
    (hdivide : P .divideByZero) : ErrorCongruence fun e e' => e = e' ∧ P e'.rootCause where
  apply op a b e h := by
    refine ⟨rfl, ?_⟩
    rcases Operator.error_of_apply h with ⟨expected, found, text, rfl⟩ | rfl
    · exact hmismatch expected found text
    · exact hdivide
  expectBool v e h := by
    obtain ⟨found, text, rfl⟩ := Value.error_of_expectBool h
    exact ⟨rfl, hmismatch .bool found text⟩
  ifCondition e e' h := ⟨congrArg _ h.1, h.2⟩
  matchCase i e e' h := ⟨congrArg _ h.1, h.2⟩

/-! ### Accessors -/

/-- Why a path of the document cannot be read. -/
inductive DocumentFailure (env : Surroundings) (path : Path) : EvalError → Prop
  | message (h : env.batch.get? env.index = none) :
    DocumentFailure env path (.undefinedMessage env.index)
  | content {m : Message} {fault : Json.Fault} (hm : env.batch.get? env.index = some m)
      (h : Json.ofBytes m.content.toList = .error fault) :
    DocumentFailure env path (.invalidDocument fault)
  | path (h : path ≠ []) : DocumentFailure env path (.undefinedField path.text)

/-- Why a metadata key cannot be read. -/
inductive MetadataFailure (env : Surroundings) (key : String) : EvalError → Prop
  | message (h : env.batch.get? env.index = none) :
    MetadataFailure env key (.undefinedMessage env.index)
  | key {m : Message} (hkey : key ≠ "") (hm : env.batch.get? env.index = some m)
      (h : m.metadata.get? key = none) : MetadataFailure env key (.undefinedMetadata key)

/-- Why an accessor fails. -/
inductive ReadFailure {ν : Type u} (env : Surroundings) : Expr ν → EvalError → Prop
  | field {path : Path} {err : EvalError} (h : DocumentFailure env path err) :
    ReadFailure env (.field path) err
  | document {path : Path} {err : EvalError} (h : DocumentFailure env path err) :
    ReadFailure env (.document path) err
  | metadata {key : String} {err : EvalError} (h : MetadataFailure env key err) :
    ReadFailure env (.metadata key) err
  | var {name : String} (h : env.vars.get? name = none) :
    ReadFailure env (.var name) (.undefinedVariable name)

theorem DocumentFailure.rootCause {env : Surroundings} {path : Path} {err : EvalError}
    (h : DocumentFailure env path err) : err.rootCause = err := by
  cases h <;> rfl

theorem MetadataFailure.rootCause {env : Surroundings} {key : String} {err : EvalError}
    (h : MetadataFailure env key err) : err.rootCause = err := by
  cases h <;> rfl

theorem Value.error_of_read {v : Value} {path : Path} {err : EvalError}
    (h : v.read path = .error err) : path ≠ [] ∧ err = .undefinedField path.text := by
  unfold Value.read at h
  split at h
  · cases h
  · rename_i hnone
    obtain rfl := Except.error.inj h
    refine ⟨?_, rfl⟩
    rintro rfl
    cases hnone

theorem Batch.error_of_message {b : Batch} {index : Nat} {err : EvalError}
    (h : b.message index = .error err) : b.get? index = none ∧ err = .undefinedMessage index := by
  unfold Batch.message at h
  split at h
  · cases h
  · rename_i hnone
    exact ⟨hnone, (Except.error.inj h).symm⟩

theorem Batch.get?_of_message {b : Batch} {index : Nat} {m : Message}
    (h : b.message index = .ok m) : b.get? index = some m := by
  unfold Batch.message at h
  split at h
  · rename_i hm
    rw [hm, Except.ok.inj h]
  · cases h

theorem Message.error_of_readDocument {m : Message} {err : EvalError}
    (h : m.readDocument = .error err) :
    ∃ fault, Json.ofBytes m.content.toList = .error fault ∧ err = .invalidDocument fault := by
  rw [readDocument, m.document_eq] at h
  cases hj : Json.ofBytes m.content.toList with
  | ok json => rw [hj] at h; cases h
  | error fault =>
    rw [hj] at h
    exact ⟨fault, rfl, (Except.error.inj h).symm⟩

namespace Surroundings

variable {env : Surroundings} {err : EvalError}

theorem error_of_field_none {path : Path} (h : env.field path none = .error err) :
    DocumentFailure env path err := by
  rw [field_none] at h
  rcases bind_eq_error.1 h with h | ⟨root, -, h⟩
  · rcases bind_eq_error.1 h with h | ⟨m, hm, h⟩
    · obtain ⟨hnone, rfl⟩ := Batch.error_of_message h
      exact .message hnone
    · obtain ⟨fault, hfault, rfl⟩ := Message.error_of_readDocument h
      exact .content (Batch.get?_of_message hm) hfault
  · obtain ⟨hne, rfl⟩ := Value.error_of_read h
    exact .path hne

theorem error_of_document {path : Path}
    (h : env.batch.document env.index path = .error err) : DocumentFailure env path err :=
  error_of_field_none h

theorem error_of_field {path : Path} {s : Option Value} (h : env.field path s = .error err) :
    DocumentFailure env path err := by
  cases s with
  | none => exact error_of_field_none h
  | some v =>
    rw [field_some] at h
    obtain ⟨hne, rfl⟩ := Value.error_of_read h
    exact .path hne

theorem error_of_metadata {key : String} (h : env.batch.metadata env.index key = .error err) :
    MetadataFailure env key err := by
  rcases bind_eq_error.1 h with h | ⟨m, hm, h⟩
  · obtain ⟨hnone, rfl⟩ := Batch.error_of_message h
    exact .message hnone
  · split at h
    · cases h
    · rename_i hkey
      dsimp only at h
      split at h
      · cases h
      · rename_i hnone
        obtain rfl := Except.error.inj h
        exact .key (by simpa using hkey) (Batch.get?_of_message hm) hnone

theorem error_of_var {name : String} (h : env.var name = .error err) :
    env.vars.get? name = none ∧ err = .undefinedVariable name := by
  unfold Surroundings.var at h
  split at h
  · cases h
  · rename_i hnone
    exact ⟨hnone, (Except.error.inj h).symm⟩

end Surroundings

/-! ### Expressions -/

namespace Expr

variable {ν : Type} {env : Surroundings} {call : ν → Scoped Value} {e : Expr ν}
  {s : Option Value} {err : EvalError}

/-- Who can raise the error below all wrappers when an expression fails. -/
inductive Cause (env : Surroundings) (call : ν → Scoped Value) (e : Expr ν) : EvalError → Prop
  | read {x : Expr ν} {err : EvalError} (hx : Within x e) (h : ReadFailure env x err) :
    Cause env call e err
  | apply {n : ν} {s : Option Value} {err : EvalError} (hn : Within (.apply n) e)
      (h : call n s = .error err) : Cause env call e err.rootCause
  | typeMismatch (expected found : Kind) (text : String) :
    Cause env call e (.typeMismatch expected found text)
  | divideByZero : Cause env call e .divideByZero

theorem eval_rootCause (h : eval env call e s = .error err) :
    Cause env call e err.rootCause := by
  have hfield : ∀ {p}, Within (.field p) e → ∀ {s err}, env.field p s = .error err →
      Cause env call e err.rootCause := fun hp _ _ h =>
    have h := Surroundings.error_of_field h
    h.rootCause.symm ▸ .read hp (.field h)
  have hleaves : LeavesAgree (fun e₁ e₂ => e₁ = e₂ ∧ Cause env call e e₂.rootCause)
      env env call call s s e :=
    { field := fun p hp => .of_refl fun err h => ⟨rfl, hfield hp.occurs.within h⟩
      innerField := fun p hp v => .of_refl fun err h => ⟨rfl, hfield hp h⟩
      document := fun p hp => .of_refl fun err h =>
        have h := Surroundings.error_of_document h
        ⟨rfl, h.rootCause.symm ▸ .read hp (.document h)⟩
      metadata := fun k hk => .of_refl fun err h =>
        have h := Surroundings.error_of_metadata h
        ⟨rfl, h.rootCause.symm ▸ .read hk (.metadata h)⟩
      var := fun n hn => .of_refl fun err h => by
        obtain ⟨hnone, rfl⟩ := Surroundings.error_of_var h
        exact ⟨rfl, .read hn (.var hnone)⟩
      apply := fun n hn => .of_refl fun err h => ⟨rfl, .apply hn.occurs.within h⟩
      innerApply := fun n hn v => .of_refl fun err h => ⟨rfl, .apply hn h⟩ }
  obtain ⟨_, -, -, hcause⟩ :=
    (eval_agree (.rootCause (.typeMismatch) .divideByZero) hleaves).exists_of_error h
  exact hcause

/-! ### Nested applications -/

/-- Maps are applied one inside the other, this many times, the first one by `e`. -/
inductive ApplicationChain (maps : Entries (Expr String)) : Nat → Expr String → Prop
  | nil (e : Expr String) : ApplicationChain maps 0 e
  | apply {e body : Expr String} {n : String} {length : Nat} (hn : Within (.apply n) e)
      (hbody : maps.get? n = some body) (h : ApplicationChain maps length body) :
    ApplicationChain maps (length + 1) e

/-- Who can raise the error below all wrappers when a run fails. -/
inductive RunCause (env : Surroundings) (maps : Entries (Expr String)) (budget : Nat)
    (e : Expr String) : EvalError → Prop
  | read {x body : Expr String} {err : EvalError}
      (hbody : body = e ∨ ∃ n, maps.get? n = some body) (hx : Within x body)
      (h : ReadFailure env x err) : RunCause env maps budget e err
  | undefinedMap {n : String} (h : maps.get? n = none) :
    RunCause env maps budget e (.undefinedMap n)
  | recursionLimit {n : String} {body : Expr String} (hn : maps.get? n = some body)
      (h : ApplicationChain maps (budget + 1) e) : RunCause env maps budget e (.recursionLimit n)
  | typeMismatch (expected found : Kind) (text : String) :
    RunCause env maps budget e (.typeMismatch expected found text)
  | divideByZero : RunCause env maps budget e .divideByZero

variable {maps : Entries (Expr String)} {budget : Nat}

theorem RunCause.of_apply {e body : Expr String} {n : String} (hn : Within (.apply n) e)
    (hbody : maps.get? n = some body) (h : RunCause env maps budget body err) :
    RunCause env maps (budget + 1) e err := by
  cases h with
  | read hx hread h =>
    refine .read (.inr ?_) hread h
    rcases hx with rfl | hx
    · exact ⟨n, hbody⟩
    · exact hx
  | undefinedMap h => exact .undefinedMap h
  | recursionLimit h hchain => exact .recursionLimit h (.apply hn hbody hchain)
  | typeMismatch => exact .typeMismatch _ _ _
  | divideByZero => exact .divideByZero

/-- One level of a run: what is not raised by an application is raised by the expression itself. -/
theorem RunCause.of_eval {call : String → Scoped Value} {e : Expr String}
    (h : eval env call e s = .error err)
    (hcall : ∀ n s err, Within (.apply n) e → call n s = .error err →
      RunCause env maps budget e err.rootCause) : RunCause env maps budget e err.rootCause := by
  have hcause := eval_rootCause h
  generalize err.rootCause = c at hcause
  cases hcause with
  | read hx h => exact .read (.inl rfl) hx h
  | apply hn h => exact hcall _ _ _ hn h
  | typeMismatch => exact .typeMismatch _ _ _
  | divideByZero => exact .divideByZero

/-- Each error of a run goes back to an accessor of the root or of a map, to an operator, or to an
application. -/
theorem run_rootCause {e : Expr String} (h : run env maps budget e s = .error err) :
    RunCause env maps budget e err.rootCause := by
  induction budget generalizing e s err with
  | zero =>
    refine .of_eval h fun n s err hn h => ?_
    cases hmap : maps.get? n with
    | none =>
      rw [hmap] at h
      obtain rfl := Except.error.inj h
      exact .undefinedMap hmap
    | some body =>
      rw [hmap] at h
      obtain rfl := Except.error.inj h
      exact .recursionLimit hmap (.apply hn hmap (.nil body))
  | succ budget ih =>
    refine .of_eval h fun n s err hn h => ?_
    cases hmap : maps.get? n with
    | none =>
      rw [hmap] at h
      obtain rfl := Except.error.inj h
      exact .undefinedMap hmap
    | some body =>
      rw [hmap] at h
      exact .of_apply hn hmap (ih h)

end Expr

/-! ### Mappings -/

namespace Mapping

/-- What holds of the messages, the variables, the maps and the reported reads when this is the root
cause of a failure. -/
def Explains (m : Mapping) (env : Surroundings) : EvalError → Prop
  | .undefinedVariable name => env.vars.get? name = none ∧ ⟨.variable, [name]⟩ ∈ m.reads
  | .undefinedMetadata key => key ≠ "" ∧ ⟨.metadata, [key]⟩ ∈ m.reads ∧
      ∃ message, env.batch.get? env.index = some message ∧ message.metadata.get? key = none
  | .undefinedField path => path ≠ "" ∧
      ∃ reported, ⟨.value, reported⟩ ∈ m.reads ∧ Path.ofText path <:+ reported
  | .undefinedMap name => m.maps.get? name = none
  | .recursionLimit name => ∃ body, m.maps.get? name = some body
  | .undefinedMessage index => index = env.index ∧ env.batch.size ≤ env.index
  | .invalidDocument fault => ∃ message, env.batch.get? env.index = some message ∧
      Json.ofBytes message.content.toList = .error fault
  | .typeMismatch .. | .divideByZero => True
  | .ifCondition _ | .matchCase .. => False

variable {m : Mapping} {env : Surroundings}

theorem targets_subset_reads {body : Expr String}
    (h : body = m.root ∨ ∃ n, m.maps.get? n = some body) : body.targets ⊆ m.reads := by
  intro t ht
  rcases h with rfl | ⟨n, hn⟩
  · exact List.mem_append_left _ ht
  · exact List.mem_append_right _ (List.mem_flatMap.2 ⟨_, Entries.mem_of_get? hn, ht⟩)

theorem Dotted.of_body (hm : m.Dotted) {body : Expr String}
    (h : body = m.root ∨ ∃ n, m.maps.get? n = some body) : body.Dotted := by
  rcases h with rfl | ⟨n, hn⟩
  · exact hm.1
  · exact hm.2 _ (Entries.mem_of_get? hn)

theorem explains_of_documentFailure {path : Path} (hpath : path.Dotted)
    (hreads : ∃ base, ⟨.value, base ++ path⟩ ∈ m.reads) {err : EvalError}
    (h : DocumentFailure env path err) : m.Explains env err := by
  cases h with
  | message h => exact ⟨rfl, List.getElem?_eq_none_iff.1 h⟩
  | content hmessage h => exact ⟨_, hmessage, h⟩
  | path hne =>
    obtain ⟨base, hbase⟩ := hreads
    exact ⟨hpath.text_ne_empty hne, _, hbase, base, by rw [hpath.ofText_text]⟩

theorem explains_of_readFailure (hm : m.Dotted) {x body : Expr String}
    (hbody : body = m.root ∨ ∃ n, m.maps.get? n = some body) (hx : Expr.Within x body)
    {err : EvalError} (h : ReadFailure env x err) : m.Explains env err := by
  have hreads := targets_subset_reads hbody
  cases h with
  | @field path _ h =>
    obtain ⟨base, hx'⟩ := hx
    exact explains_of_documentFailure (hm.of_body hbody path (.inl hx'.within))
      ⟨base, hreads (Expr.value_mem_targets_iff.2 ⟨base, path, rfl, .inl hx'⟩)⟩ h
  | @document path _ h =>
    obtain ⟨base, hx'⟩ := hx
    exact explains_of_documentFailure (hm.of_body hbody path (.inr hx'.within))
      ⟨base, hreads hx'.document_target⟩ h
  | @metadata key _ h =>
    cases h with
    | message h => exact ⟨rfl, List.getElem?_eq_none_iff.1 h⟩
    | key hkey hmessage h =>
      have htarget := hreads hx.metadata_target
      rw [if_neg (by simpa using hkey)] at htarget
      exact ⟨hkey, htarget, _, hmessage, h⟩
  | var h => exact ⟨h, hreads hx.var_target⟩

/-- A failed mapping has an innermost error that the messages, the variables and the maps bear out,
and that names only what the analysis reported. -/
theorem explains_rootCause (m : Mapping) (hm : m.Dotted) (env : Surroundings) {err : EvalError}
    (h : m.exec env = .error err) : m.Explains env err.rootCause := by
  have hcause := Expr.run_rootCause h
  generalize err.rootCause = c at hcause
  cases hcause with
  | read hbody hx h => exact explains_of_readFailure hm hbody hx h
  | undefinedMap h => exact h
  | recursionLimit hn _ => exact ⟨_, hn⟩
  | typeMismatch | divideByZero => trivial

/-- The query of a case applies a map, in which a field of a field is missing. -/
theorem explains_rootCause_inner :
    let d : MappingDefinition :=
      { maps := [("inner", .switch (some (.field "b")) [⟨.literal (.bool true), .field "c.d"⟩])]
        expr := .switch (some (.field "a")) [⟨.apply "inner", .var "x"⟩] }
    let m : Mapping :=
      { maps := [("inner",
          .switch (some (.field ["b"])) [⟨.literal (.bool true), .field ["c", "d"]⟩])]
        root := .switch (some (.field ["a"])) [⟨.apply "inner", .var "x"⟩] }
    let env : Surroundings := ⟨⟨[{ content := "\x7b\"a\":\x7b\"b\":[]\x7d\x7d".toUTF8 }]⟩, 0, []⟩
    ofDefinition d = .ok m ∧ m.Dotted ∧
      m.exec env = .error (.matchCase 0 (.undefinedField "c.d")) ∧
      m.Explains env (.undefinedField "c.d") := by
  intro d m env
  have hm : ofDefinition d = .ok m := by cbv
  have hexec : m.exec env = .error (.matchCase 0 (.undefinedField "c.d")) := by cbv
  exact ⟨hm, dotted_of_ofDefinition hm, hexec,
    explains_rootCause m (dotted_of_ofDefinition hm) env hexec⟩

end Mapping

end MessageMapping
