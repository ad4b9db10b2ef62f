import MessageMapping.Command.Exec
import MessageMapping.Proofs.ErrorCauses
import MessageMapping.Proofs.Postconditions
import MessageMapping.Proofs.Trees

/-!
# Instructions stand alone

The instructions `absent` and `delete` say what is to be done with a target, so they make no sense
inside of data. A value is `Plain` if no instruction stands anywhere in it, and `Proper` if it is an
instruction itself or plain. Documents, metadata and the literals of a mapping that was read from
text are proper, every step of evaluation keeps this, and so the results are proper. Main result:
what a command hands over has the shape of the result, with each item and each member in its place.
-/

namespace MessageMapping

namespace Value

/-- Data at every depth: no instruction stands anywhere in the value. -/
inductive Plain : Value → Prop
  | null : Plain .null
  | bool (b : Bool) : Plain (.bool b)
  | number (n : Numeric) : Plain (.number n)
  | string (s : String) : Plain (.string s)
  | array {items : List Value} (h : ∀ v ∈ items, Plain v) : Plain (.array items)
  | object {members : List (String × Value)} (h : ∀ p ∈ members, Plain p.2) :
    Plain (.object members)

/-- An instruction itself, or plain data. -/
def Proper (v : Value) : Prop :=
  v = .absent ∨ v = .delete ∨ v.Plain

/-- A JSON value with the same containers: as many items, and the same keys in the same order. -/
inductive SameShape : Value → Json → Prop
  | null : SameShape .null .null
  | bool (b : Bool) : SameShape (.bool b) (.bool b)
  | number (n : Numeric) : SameShape (.number n) ((n.toNumber?.map Json.number).getD .null)
  | string (s : String) : SameShape (.string s) (.string s)
  | array {items : List Value} {jsons : List Json} (h : List.Forall₂ SameShape items jsons) :
    SameShape (.array items) (.array jsons)
  | object {members : List (String × Value)} {jsons : List (String × Json)}
    (keys : members.map Prod.fst = jsons.map Prod.fst)
    (values : List.Forall₂ SameShape (members.map Prod.snd) (jsons.map Prod.snd)) :
    SameShape (.object members) (.object jsons)

namespace Plain

theorem proper {v : Value} (h : v.Plain) : v.Proper := .inr (.inr h)

theorem isDomain {v : Value} (h : v.Plain) : v.isDomain = true := by
  cases h <;> rfl

theorem ofJson (j : Json) : (Value.ofJson j).Plain := by
  induction j using Json.induct with
  | null => exact .null
  | bool b => exact .bool b
  | number n => exact .number _
  | string s => exact .string s
  | array items ih =>
    rw [Value.ofJson, ofItems_eq]
    exact .array (List.forall_mem_map.2 ih)
  | object members ih =>
    rw [Value.ofJson, ofMembers_eq]
    exact .object (List.forall_mem_map.2 ih)

theorem child {v w : Value} (h : v.Plain) {segment : String} (hw : v.child? segment = some w) :
    w.Plain := by
  cases h with
  | null | bool | number | string => cases hw
  | array h =>
    obtain ⟨i, -, hi⟩ := Option.bind_eq_some_iff.1 hw
    exact h w (List.mem_of_getElem? hi)
  | object h => exact h _ (Entries.mem_of_get? hw)

theorem get? {v w : Value} (h : v.Plain) {path : Path} (hw : v.get? path = some w) :
    w.Plain := by
  induction path generalizing v with
  | nil => exact Option.some.inj hw ▸ h
  | cons segment path ih =>
    obtain ⟨u, hu, hw⟩ := Option.bind_eq_some_iff.1 hw
    exact ih (h.child hu) hw

/-- Converting plain data to JSON leaves nothing out. -/
theorem toJson? {v : Value} (h : v.Plain) : ∃ json, v.toJson? = some json ∧ v.SameShape json := by
  induction v using induct with
  | null => exact ⟨_, rfl, .null⟩
  | bool b => exact ⟨_, rfl, .bool b⟩
  | number n => exact ⟨_, rfl, .number n⟩
  | string s => exact ⟨_, rfl, .string s⟩
  | array items ih =>
    cases h with | array h
    refine ⟨_, rfl, ?_⟩
    rw [toItems_eq]
    exact .array (forall₂_filterMap fun v hv => ih v hv (h v hv))
  | object members ih =>
    cases h with | object h
    refine ⟨_, rfl, ?_⟩
    rw [toMembers_eq]
    have hmembers : List.Forall₂ (fun (p : String × Value) (q : String × Json) =>
        p.1 = q.1 ∧ SameShape p.2 q.2) members _ :=
      forall₂_filterMap (f := fun p => p.2.toJson?.map (Prod.mk p.1)) fun p hp => by
        obtain ⟨json, hjson, hshape⟩ := ih p hp (h p hp)
        exact ⟨(p.1, json), by rw [hjson]; rfl, rfl, hshape⟩
    refine .object (List.forall₂_eq_eq_eq ▸ ?_) ?_ <;>
      rw [List.forall₂_map_left_iff, List.forall₂_map_right_iff]
    exacts [hmembers.imp fun _ _ h => h.1, hmembers.imp fun _ _ h => h.2]
  | absent | delete => cases h

end Plain

theorem Proper.get? {v w : Value} (h : v.Proper) {path : Path} (hw : v.get? path = some w) :
    w.Proper := by
  rcases h with rfl | rfl | h
  · cases path with
    | nil => exact .inl (Option.some.inj hw).symm
    | cons segment path => cases hw
  · cases path with
    | nil => exact .inr (.inl (Option.some.inj hw).symm)
    | cons segment path => cases hw
  · exact (h.get? hw).proper

/-- Numbers, joined strings and truth values are all that operators make. -/
theorem plain_of_apply {op : Operator} {left right v : Value} (h : op.apply left right = .ok v) :
    v.Plain := by
  have harithmetic : ∀ {op}, Value.arithmetic op left right = .ok v → v.Plain := by
    intro op h
    unfold arithmetic at h
    split at h
    · obtain ⟨n, -, rfl⟩ := map_eq_ok.1 h
      exact .number n
    · split at h
      · obtain rfl := Except.ok.inj h
        exact .string _
      · cases h
    · cases h
  cases op with
  | eq | ne =>
    obtain rfl := Except.ok.inj h
    exact .bool _
  | gt | ge | lt | le =>
    obtain ⟨b, -, rfl⟩ := map_eq_ok.1 h
    exact .bool b
  | _ => exact harithmetic h

theorem kept_proper : Kept (fun _ => True) Proper fun _ => True where
  bool b := (Plain.bool b).proper
  absent := .inl rfl
  expectBool _ _ := .of_ok fun _ _ => trivial
  apply _ _ _ _ _ _ := .of_ok fun _ h => (plain_of_apply h).proper
  ifCondition _ _ := trivial
  matchCase _ _ _ := trivial

end Value

/-! ### What is read -/

namespace Batch

variable {b : Batch} {index : Nat} {v : Value}

theorem plain_of_document {path : Path} (h : b.document index path = .ok v) : v.Plain := by
  obtain ⟨m, -, h⟩ := bind_eq_ok.1 h
  obtain ⟨root, hroot, h⟩ := bind_eq_ok.1 h
  rw [Message.readDocument, m.document_eq] at hroot
  cases hjson : Json.ofBytes m.content.toList with
  | error fault => rw [hjson] at hroot; cases hroot
  | ok json =>
    rw [hjson] at hroot
    obtain rfl := Except.ok.inj hroot
    split at h
    · rename_i hw
      obtain rfl := Except.ok.inj h
      exact (Value.Plain.ofJson json).get? hw
    · cases h

theorem plain_of_metadata {key : String} (h : b.metadata index key = .ok v) : v.Plain := by
  obtain ⟨m, -, h⟩ := bind_eq_ok.1 h
  split at h
  · obtain rfl := Except.ok.inj h
    exact .object (List.forall_mem_map.2 fun entry _ => .string entry.2)
  · dsimp only at h
    split at h
    · obtain rfl := Except.ok.inj h
      exact .string _
    · cases h

end Batch

namespace Surroundings

variable {env : Surroundings} {v : Value}

theorem proper_of_field {path : Path} {s : Option Value} (hs : ∀ w ∈ s, w.Proper)
    (h : env.field path s = .ok v) : v.Proper := by
  cases s with
  | none =>
    have hdocument : env.batch.document env.index path = .ok v := h
    exact (Batch.plain_of_document hdocument).proper
  | some w =>
    rw [field_some, Value.read] at h
    split at h
    · rename_i hw
      obtain rfl := Except.ok.inj h
      exact (hs w rfl).get? hw
    · cases h

theorem proper_of_var (hvars : ∀ p ∈ env.vars, p.2.Proper) {name : String}
    (h : env.var name = .ok v) : v.Proper := by
  unfold var at h
  split at h
  · rename_i hv
    obtain rfl := Except.ok.inj h
    exact hvars _ (Entries.mem_of_get? hv)
  · cases h

end Surroundings

namespace Expr

theorem readsEnsure_proper {env : Surroundings} (hvars : ∀ p ∈ env.vars, p.2.Proper)
    {e : Expr String} (he : ∀ v, Within (.literal v) e → v.Proper) :
    ReadsEnsure (fun _ => True) Value.Proper (fun _ => True) env e where
  literal := he
  field _ _ _ hs := .of_ok fun _ h => Surroundings.proper_of_field hs h
  document _ _ := .of_ok fun _ h => (Batch.plain_of_document h).proper
  metadata _ _ := .of_ok fun _ h => (Batch.plain_of_metadata h).proper
  var _ _ := .of_ok fun _ h => Surroundings.proper_of_var hvars h
  operator _ _ := trivial

end Expr

/-- A definition has only JSON values and the two instructions as its literals. -/
theorem Definition.proper_of_build {d : Definition} {e : Expr String} (h : d.build = .ok e)
    {v : Value} (hv : Expr.Within (.literal v) e) : v.Proper := by
  obtain ⟨d', depth', hbuilt⟩ := built_of_within h hv
  cases hbuilt with
  | literal json => exact (Value.Plain.ofJson json).proper
  | absent => exact .inl rfl
  | delete => exact .inr (.inl rfl)

/-! ### Results -/

/-- What a command hands over for a value: an instruction as such, and data as JSON of the same
shape. -/
inductive ExecOutcome.Delivers : Value → ExecOutcome → Prop
  | absent : Delivers .absent .absent
  | delete : Delivers .delete .delete
  | value {v : Value} {json : Json} (hv : v.Plain) (hjson : v.toJson? = some json)
    (hshape : v.SameShape json) : Delivers v (.value json)

theorem Value.Proper.delivers {v : Value} (h : v.Proper) :
    ExecOutcome.Delivers v (.ofValue v) := by
  rcases h with rfl | rfl | h
  · exact .absent
  · exact .delete
  · obtain ⟨json, hjson, hshape⟩ := h.toJson?
    have hvalue : ExecOutcome.ofValue v = .value json := by
      cases h <;> rw [ExecOutcome.ofValue, hjson] <;> simp
    rw [hvalue]
    exact .value h hjson hshape

namespace Mapping

theorem proper_of_exec {text : String} {m : Mapping} (hm : ofText text = .ok m)
    {env : Surroundings} (hvars : ∀ p ∈ env.vars, p.2.Proper) {v : Value}
    (h : m.exec env = .ok v) : v.Proper := by
  obtain ⟨⟨_, hroot⟩, hmaps⟩ := build_of_ofText hm
  have hrun := Expr.run_ensures Value.kept_proper (fun _ _ => trivial) (fun _ _ _ => trivial)
    (fun n body hn => Expr.readsEnsure_proper hvars fun v hv =>
      have ⟨_, hbody⟩ := hmaps _ (Entries.mem_of_get? hn)
      Definition.proper_of_build hbody hv)
    Expr.maxApplications
    (Expr.readsEnsure_proper hvars fun v hv => Definition.proper_of_build hroot hv)
    (s := none) (fun _ hv => by cases hv)
  rw [exec] at h
  rw [h] at hrun
  exact hrun

end Mapping

theorem plain_variableValue (text : String) : (variableValue text).Plain := by
  unfold variableValue
  split
  · exact .ofJson _
  · exact .string text

theorem ExecOptions.proper_of_surroundings {options : ExecOptions} {env : Surroundings}
    (h : options.surroundings = .ok env) : ∀ p ∈ env.vars, p.2.Proper := by
  obtain ⟨metadata, -, h⟩ := bind_eq_ok.1 h
  obtain ⟨vars, -, h⟩ := bind_eq_ok.1 h
  obtain rfl := Except.ok.inj h
  intro p hp
  obtain ⟨pair, -, rfl⟩ := List.mem_map.1 (Entries.mem_of_mem_ofList hp)
  exact (plain_variableValue pair.2).proper

namespace Mapping

/-- A mapping that was read from text gives an instruction or plain data if its variables hold
such, and a command hands this over without leaving out an item or a member. -/
theorem exec_delivers {text : String} {m : Mapping} (hm : ofText text = .ok m) :
    (∀ env : Surroundings, (∀ p ∈ env.vars, p.2.Proper) → ∀ v, m.exec env = .ok v → v.Proper) ∧
    ∀ options : ExecOptions, options.mapping = text → ∀ outcome, options.execute = .ok outcome →
      ∃ env v, options.surroundings = .ok env ∧ m.exec env = .ok v ∧
        ExecOutcome.Delivers v outcome := by
  refine ⟨fun env hvars v h => proper_of_exec hm hvars h, ?_⟩
  rintro options rfl outcome h
  rw [ExecOptions.execute, hm] at h
  obtain ⟨_, hbuild, h⟩ := bind_eq_ok.1 h
  obtain rfl := Except.ok.inj hbuild
  obtain ⟨env, henv, h⟩ := bind_eq_ok.1 h
  obtain ⟨v, hv, h⟩ := bind_eq_ok.1 h
  obtain rfl := Except.ok.inj h
  have hv := mapError_eq_ok.1 hv
  exact ⟨env, v, henv, hv,
    (proper_of_exec hm (ExecOptions.proper_of_surroundings henv) hv).delivers⟩

/-- The variable that comes after a field may ask to delete; a command gives it no such value. -/
theorem exec_delivers_deleted :
    let text := "[\"arithmetic\",[[\"field\",\"a\"],[\"var\",\"x\"]],[\"|\"]]"
    let m : Mapping := { root := .arithmetic (.chain (.operand (.field ["a"]))
      [(.coalesce, .operand (.var "x"))]) }
    let env (content : String) : Surroundings :=
      ⟨⟨[{ content := content.toUTF8 }]⟩, 0, [("x", .delete)]⟩
    let items : Value := .array [.null, .object [("b", .array [])]]
    let options : ExecOptions := { mapping := text, input := "[]", vars := ["x=[null,[]]"] }
    let json : Json := .array [.null, .array []]
    ofText text = .ok m ∧
      (m.exec (env "\x7b\"a\":[null,\x7b\"b\":[]\x7d]\x7d") = .ok items ∧ items.Proper) ∧
      (m.exec (env "[]") = .ok .delete ∧ Value.delete.Proper) ∧
      options.execute = .ok (.value json) ∧ ∃ v, ExecOutcome.Delivers v (.value json) := by
  intro text m env items options json
  have hm : ofText text = .ok m := by cbv
  have hvars : ∀ content, ∀ p ∈ (env content).vars, p.2.Proper := by
    simp [env, Value.Proper]
  have hitems : m.exec (env "\x7b\"a\":[null,\x7b\"b\":[]\x7d]\x7d") = .ok items := by cbv
  have hdelete : m.exec (env "[]") = .ok .delete := by cbv
  have hexecute : options.execute = .ok (.value json) := by cbv
  obtain ⟨_, v, -, -, hv⟩ := (exec_delivers hm).2 options rfl _ hexecute
  exact ⟨hm, ⟨hitems, (exec_delivers hm).1 _ (hvars _) _ hitems⟩,
    ⟨hdelete, (exec_delivers hm).1 _ (hvars _) _ hdelete⟩, hexecute, v, hv⟩

end Mapping

end MessageMapping
