import MessageMapping.Proofs.Nesting
import MessageMapping.Proofs.Spelling

/-!
# Reading spellings

Whichever way a definition is spelled, it is read as that definition, with the expression written
alone or as the member of an object. A draft holds a part under each name: every field that is read
puts its part there and leaves the others, so in the end the draft has all parts, or lacks only
those that may be left out.
-/

namespace MessageMapping

/-! ### Reading lists, operators and cases -/

theorem Operator.ofName_symbol (op : Operator) : ofName op.symbol = .ok op := by
  rw [ofName, ofSymbol?_symbol]

theorem Operator.ofJson_of_encodes {j : Json} {op : Operator} (h : j.EncodesOperator op) :
    ofJson Json.isBlank j = .ok op := by
  cases h with
  | symbol => exact ofName_symbol op
  | object =>
    rw [ofJson, ofName_symbol]
    rfl

theorem NodeType.ofJson_name (root : Bool) (type : NodeType) :
    ofJson root (.string type.name) = .ok type := by
  rw [ofJson, ofName?_name]

namespace Definition

theorem readNodes_eq (items : List Json) : readNodes items = items.mapM (ofNode false) := by
  induction items with
  | nil => rfl
  | cons item rest ih => rw [readNodes, List.mapM_cons, ih]

theorem readCases_eq (items : List Json) : readCases items = items.mapM ofCase := by
  induction items with
  | nil => rfl
  | cons item rest ih => rw [readCases, List.mapM_cons, ih]

/-- The definition is under the key of the members, or was read before them. -/
def Due (key : String) (d : Definition) (read? : Option Definition) (members : Entries Json) :
    Prop :=
  match members.get? key with
  | some j => ofNode false j = .ok d
  | none => read? = some d

section

variable {key name : String} {d : Definition} {read? : Option Definition} {value : Json}
  {members : Entries Json}

theorem Due.self (h : Due key d read? ((key, value) :: members)) : ofNode false value = .ok d := by
  rwa [Due, Entries.get?, if_pos rfl] at h

theorem Due.of_not_mem (h : key ∉ members.map Prod.fst) : Due key d (some d) members := by
  rw [Due, Entries.get?_eq_none h]

theorem Due.of_ne (h : Due key d read? ((name, value) :: members)) (hne : name ≠ key) :
    Due key d read? members := by
  rwa [Due, Entries.get?, if_neg hne] at h

end

theorem readCase_ok {members : Entries Json} (hnodup : (members.map Prod.fst).Nodup)
    {c : Case Definition} {query? result? : Option Definition}
    (hquery : Due "query" c.query query? members)
    (hresult : Due "result" c.result result? members) :
    readCase query? result? members = .ok c := by
  induction members generalizing query? result? with
  | nil =>
    obtain rfl : query? = some c.query := hquery
    obtain rfl : result? = some c.result := hresult
    rfl
  | cons p rest ih =>
    obtain ⟨name, value⟩ := p
    rw [List.map_cons, List.nodup_cons] at hnodup
    obtain ⟨hname, hnodup⟩ := hnodup
    rw [readCase]
    split_ifs with hq hr
    · subst hq
      rw [hquery.self]
      exact ih hnodup (.of_not_mem hname) (hresult.of_ne (by decide))
    · subst hr
      rw [hresult.self]
      exact ih hnodup (hquery.of_ne hq) (.of_not_mem hname)
    · exact ih hnodup (hquery.of_ne hq) (hresult.of_ne hr)

/-- Every spelling of the definition is read as it. -/
def Readable (d : Definition) : Prop :=
  ∀ j : Json, j.Encodes d → ∀ root, ofNode root j = .ok d

theorem ofCase_of_encodes {j : Json} {c : Case Definition} (h : j.EncodesCase c)
    (hquery : c.query.Readable) (hresult : c.result.Readable) : ofCase j = .ok c := by
  cases h with
  | object hnodup hq hr hquery' hresult' =>
    refine readCase_ok hnodup ?_ ?_
    · rw [Due, hq]
      exact hquery _ hquery' _
    · rw [Due, hr]
      exact hresult _ hresult' _
  | array hquery' hresult' =>
    rw [ofCase, hquery _ hquery', hresult _ hresult']
    rfl

/-! ### Reading fields -/

/-- The value of a field with all that it may be read as. -/
def child (j : Json) : Child :=
  ⟨j, fun _ => ofNode false j, fun _ => ofNodes j, fun _ => ofCases j⟩

/-- The part that has been read under a name. -/
def Draft.part? (draft : Draft) (name : String) : Option Part :=
  match name with
  | "value" => draft.value.map .json
  | "path" => draft.path.map .text
  | "key" => draft.key.map .text
  | "name" => draft.name.map .name
  | "operands" => draft.operands.map .nodes
  | "operators" => draft.operators.map .operators
  | "condition" => draft.condition.map .node
  | "then" => draft.consequent.map .node
  | "else" => draft.alternative.map .node?
  | "context" => draft.context.map .node?
  | "cases" => draft.cases.map .cases
  | "operand" => draft.operand.map .node
  | _ => none

theorem Draft.part?_empty (name : String) : part? {} name = none := by
  unfold part?
  split <;> rfl

/-- The draft with one more part. -/
def Draft.put (draft : Draft) (name : String) (part : Part) : Draft :=
  match name, part with
  | "value", .json value => { draft with value := some value }
  | "path", .text path => { draft with path := some path }
  | "key", .text key => { draft with key := some key }
  | "name", .name name => { draft with name := some name }
  | "operands", .nodes operands => { draft with operands := some operands }
  | "operators", .operators operators => { draft with operators := some operators }
  | "condition", .node condition => { draft with condition := some condition }
  | "then", .node consequent => { draft with consequent := some consequent }
  | "else", .node? alternative => { draft with alternative := some alternative }
  | "context", .node? context => { draft with context := some context }
  | "cases", .cases cases => { draft with cases := some cases }
  | "operand", .node operand => { draft with operand := some operand }
  | _, _ => draft

theorem Draft.part?_put_self {d : Definition} {p : String × Part} (hp : p ∈ d.parts)
    (draft : Draft) : (draft.put p.1 p.2).part? p.1 = some p.2 := by
  revert p
  cases d <;> simp [parts, put, part?]

theorem Draft.part?_put_of_ne {name other : String} (h : other ≠ name) (part : Part)
    (draft : Draft) : (draft.put name part).part? other = draft.part? other := by
  unfold put
  split
  all_goals try rfl
  all_goals
    unfold part?
    split <;> first | rfl | contradiction

theorem ofNodes_of_encodes {items : List Json} {ds : List Definition}
    (h : List.Forall₂ Json.Encodes items ds) (hds : ∀ d ∈ ds, d.Readable) :
    ofNodes (.array items) = .ok ds := by
  rw [ofNodes, readNodes_eq]
  exact mapM_of_forall₂ h fun j d hd hj => hds d hd j hj false

theorem ofCases_of_encodes {items : List Json} {cs : List (Case Definition)}
    (h : List.Forall₂ Json.EncodesCase items cs)
    (hcs : ∀ c ∈ cs, c.query.Readable ∧ c.result.Readable) :
    ofCases (.array items) = .ok cs := by
  rw [ofCases, readCases_eq]
  exact mapM_of_forall₂ h fun j c hc hj => ofCase_of_encodes hj (hcs c hc).1 (hcs c hc).2

theorem Child.operators_of_encodes {items : List Json} {ops : List Operator}
    (h : List.Forall₂ Json.EncodesOperator items ops) :
    (child (.array items)).operators = .ok ops :=
  mapM_of_forall₂ h fun _ _ _ hj => Operator.ofJson_of_encodes hj

theorem Child.node?_of_encodes {j : Json} {d? : Option Definition}
    (h : Json.EncodesPart (some j) (.node? d?)) (hd : ∀ d ∈ d?.toList, d.Readable) :
    (child j).node? = .ok d? := by
  cases h with
  | null => rfl
  | @node? j d h =>
    have hj : (child j).value.isNull = false := by cases h <;> rfl
    rw [node?, hj]
    exact map_eq_ok.2 ⟨d, hd d List.mem_cons_self j h false, rfl⟩

theorem Draft.set_of_encodes {d : Definition} {p : String × Part} (hp : p ∈ d.parts) {j : Json}
    (h : Json.EncodesPart (some j) p.2) (hd : ∀ d' ∈ p.2.definitions, d'.Readable)
    (draft : Draft) : draft.set p.1 (child j) = .ok (draft.put p.1 p.2) := by
  cases d with
  | absent | delete => cases hp
  | literal | field | document | metadata | var | apply =>
    obtain rfl := List.mem_singleton.1 hp
    cases h
    rfl
  | not operand =>
    obtain rfl := List.mem_singleton.1 hp
    cases h with | node h
    exact bind_eq_ok.2 ⟨_, hd _ List.mem_cons_self _ h _, rfl⟩
  | arithmetic operands operators =>
    rcases List.mem_pair.1 hp with rfl | rfl
    · cases h with | nodes h
      exact bind_eq_ok.2 ⟨_, ofNodes_of_encodes h hd, rfl⟩
    · cases h with | operators h
      exact bind_eq_ok.2 ⟨_, Child.operators_of_encodes h, rfl⟩
  | conditional condition consequent alternative =>
    simp only [parts, List.mem_cons, List.not_mem_nil, or_false] at hp
    rcases hp with rfl | rfl | rfl
    · cases h with | node h
      exact bind_eq_ok.2 ⟨_, hd _ List.mem_cons_self _ h _, rfl⟩
    · cases h with | node h
      exact bind_eq_ok.2 ⟨_, hd _ List.mem_cons_self _ h _, rfl⟩
    · exact bind_eq_ok.2 ⟨_, Child.node?_of_encodes h hd, rfl⟩
  | switch context cases =>
    rcases List.mem_pair.1 hp with rfl | rfl
    · exact bind_eq_ok.2 ⟨_, Child.node?_of_encodes h hd, rfl⟩
    · cases h with | cases h
      refine bind_eq_ok.2 ⟨_, ofCases_of_encodes h fun c hc => ?_, rfl⟩
      simp only [Part.definitions, List.mem_flatMap] at hd
      exact ⟨hd _ ⟨c, hc, .head _⟩, hd _ ⟨c, hc, .tail _ (.head _)⟩⟩

/-! ### Reading nodes -/

/-- The draft holds the parts of the definition, or lacks those that may be left out. -/
def Draft.Complete (draft : Draft) (d : Definition) : Prop :=
  ∀ p ∈ d.parts,
    draft.part? p.1 = some p.2 ∨ draft.part? p.1 = none ∧ Json.EncodesPart none p.2

theorem readMembers_ok {d : Definition} {members : Entries Json}
    (hnodup : (members.map Prod.fst).Nodup)
    (hset : ∀ p ∈ d.parts, ∀ j, (p.1, j) ∈ members → ∀ draft : Draft,
      draft.set p.1 (child j) = .ok (draft.put p.1 p.2)) (draft : Draft) :
    ∃ draft', readMembers d.type.fields draft members = .ok draft' ∧ ∀ p ∈ d.parts,
      draft'.part? p.1 = if (members.get? p.1).isSome then some p.2 else draft.part? p.1 := by
  induction members generalizing draft with
  | nil => exact ⟨draft, rfl, fun _ _ => rfl⟩
  | cons member rest ih =>
    obtain ⟨name, value⟩ := member
    rw [List.map_cons, List.nodup_cons] at hnodup
    obtain ⟨hname, hnodup⟩ := hnodup
    replace ih := ih hnodup fun p hp j hj => hset p hp j (List.mem_cons_of_mem _ hj)
    rw [readMembers]
    by_cases hfield : name ∈ d.parts.map Prod.fst
    · obtain ⟨p, hp, rfl⟩ := List.mem_map.1 hfield
      obtain ⟨draft', hread, hparts⟩ := ih (draft.put p.1 p.2)
      refine ⟨draft', ?_, fun q hq => ?_⟩
      · rw [if_pos (by rwa [← map_fst_parts, List.contains_iff_mem])]
        exact bind_eq_ok.2 ⟨_, hset p hp value List.mem_cons_self draft, hread⟩
      · rw [hparts q hq, Entries.get?]
        -- a later member under the same key would replace the part, but keys are distinct
        by_cases hne : p.1 = q.1
        · obtain rfl := parts_unique hp hq hne
          rw [Entries.get?_eq_none hname, if_pos rfl, Draft.part?_put_self hp]
          rfl
        · rw [if_neg hne, Draft.part?_put_of_ne (Ne.symm hne)]
    · obtain ⟨draft', hread, hparts⟩ := ih draft
      refine ⟨draft', ?_, fun q hq => ?_⟩
      · rw [if_neg (by rwa [← map_fst_parts, List.contains_iff_mem])]
        exact hread
      · have hne : name ≠ q.1 := by
          rintro rfl
          exact hfield (List.mem_map_of_mem hq)
        rw [hparts q hq, Entries.get?, if_neg hne]

/-- Here the parts are those that are still to come, so the draft may already hold others. -/
theorem readElements_ok {elements : List Json} {parts : Entries Part}
    (h : Json.EncodesParts elements parts) (hnodup : (parts.map Prod.fst).Nodup)
    (hself : ∀ p ∈ parts, ∀ draft : Draft, (draft.put p.1 p.2).part? p.1 = some p.2)
    (hset : ∀ p ∈ parts, ∀ j, Json.EncodesPart (some j) p.2 → ∀ draft : Draft,
      draft.set p.1 (child j) = .ok (draft.put p.1 p.2)) (draft : Draft) :
    ∃ draft', readElements draft (parts.map Prod.fst) elements = .ok draft' ∧
      (∀ name ∉ parts.map Prod.fst, draft'.part? name = draft.part? name) ∧
      ∀ p ∈ parts, draft'.part? p.1 = some p.2 ∨
        draft'.part? p.1 = draft.part? p.1 ∧ Json.EncodesPart none p.2 := by
  induction parts generalizing elements draft with
  | nil =>
    cases h
    exact ⟨draft, rfl, fun _ _ => rfl, by simp⟩
  | cons p parts ih =>
    cases h with
    | nil h => exact ⟨draft, rfl, fun _ _ => rfl, fun p hp => .inr ⟨rfl, h p hp⟩⟩
    | @cons j elements _ _ h hrest =>
      rw [List.map_cons, List.nodup_cons] at hnodup
      obtain ⟨hname, hnodup⟩ := hnodup
      rw [List.forall_mem_cons] at hself hset
      obtain ⟨draft', hread, hother, hparts⟩ :=
        ih hrest hnodup hself.2 hset.2 (draft.put p.1 p.2)
      refine ⟨draft', bind_eq_ok.2 ⟨_, hset.1 j h draft, hread⟩, fun name hn => ?_,
        List.forall_mem_cons.2 ⟨.inl ?_, fun q hq => ?_⟩⟩
      · rw [List.map_cons, List.mem_cons, not_or] at hn
        rw [hother name hn.2, Draft.part?_put_of_ne hn.1]
      · rw [hother _ hname, hself.1]
      · have hne : q.1 ≠ p.1 := fun hq' => hname (hq' ▸ List.mem_map_of_mem hq)
        rw [← Draft.part?_put_of_ne hne p.2 draft]
        exact hparts q hq

/-! ### Finishing nodes -/

section

variable {α : Type} {f : α → Part} {a default : α} {x : Option α}

theorem eq_some_of_required (hf : f.Injective) (hnone : ¬ Json.EncodesPart none (f a))
    (h : x.map f = some (f a) ∨ x.map f = none ∧ Json.EncodesPart none (f a)) : x = some a := by
  rcases h with h | h
  · exact Option.map_injective hf h
  · exact absurd h.2 hnone

theorem getD_of_optional (hf : f.Injective) (hnone : Json.EncodesPart none (f a) → a = default)
    (h : x.map f = some (f a) ∨ x.map f = none ∧ Json.EncodesPart none (f a)) :
    x.getD default = a := by
  rcases h with h | ⟨h, ha⟩
  · obtain rfl : x = some a := Option.map_injective hf h
    rfl
  · rw [Option.map_eq_none_iff.1 h, hnone ha]
    rfl

end

theorem Draft.Complete.finish {draft : Draft} {d : Definition} (h : draft.Complete d)
    (missing : String → ShapeError) : draft.finish missing d.type = .ok d := by
  cases d with
  | absent | delete => rfl
  | literal value =>
    have hvalue := eq_some_of_required (fun _ _ => Part.json.inj) nofun (h _ (.head _))
    rw [type, Draft.finish, hvalue]
    rfl
  | field text | document text | metadata text =>
    have htext :=
      getD_of_optional (fun _ _ => Part.text.inj) Json.EncodesPart.eq_empty (h _ (.head _))
    rw [type, Draft.finish, htext]
  | var name | apply name =>
    have hname := eq_some_of_required (fun _ _ => Part.name.inj) nofun (h _ (.head _))
    rw [type, Draft.finish, hname]
    rfl
  | arithmetic operands operators =>
    have hoperands := eq_some_of_required (fun _ _ => Part.nodes.inj) nofun (h _ (.head _))
    have hoperators :=
      eq_some_of_required (fun _ _ => Part.operators.inj) nofun (h _ (.tail _ (.head _)))
    rw [type, Draft.finish, hoperands, hoperators]
    rfl
  | conditional condition consequent alternative =>
    have hcondition := eq_some_of_required (fun _ _ => Part.node.inj) nofun (h _ (.head _))
    have hconsequent :=
      eq_some_of_required (fun _ _ => Part.node.inj) nofun (h _ (.tail _ (.head _)))
    have halternative := getD_of_optional (fun _ _ => Part.node?.inj) Json.EncodesPart.eq_none
      (h _ (.tail _ (.tail _ (.head _))))
    rw [type, Draft.finish, hcondition, hconsequent, halternative]
    rfl
  | switch context cases =>
    have hcontext :=
      getD_of_optional (fun _ _ => Part.node?.inj) Json.EncodesPart.eq_none (h _ (.head _))
    have hcases := eq_some_of_required (fun _ _ => Part.cases.inj) nofun (h _ (.tail _ (.head _)))
    rw [type, Draft.finish, hcontext, hcases]
    rfl
  | not operand =>
    have hoperand := eq_some_of_required (fun _ _ => Part.node.inj) nofun (h _ (.head _))
    rw [type, Draft.finish, hoperand]
    rfl

/-! ### Reading definitions -/

theorem readable (d : Definition) : d.Readable := by
  -- over the definition rather than over how it is spelled: both forms come down to its parts
  induction d using induct_parts with
  | h d ih =>
    intro j hj root
    cases hj with
    | @object members _ hnodup htype hparts =>
      have hset : ∀ p ∈ d.parts, ∀ j, (p.1, j) ∈ members → ∀ draft : Draft,
          draft.set p.1 (child j) = .ok (draft.put p.1 p.2) := by
        intro p hp j hj
        have hpart := hparts p hp
        rw [Entries.get?_of_mem hnodup hj] at hpart
        exact Draft.set_of_encodes hp hpart (ih p hp)
      obtain ⟨draft, hread, hdraft⟩ := readMembers_ok hnodup hset {}
      have hcomplete : draft.Complete d := by
        intro p hp
        have hpart := hparts p hp
        rw [hdraft p hp, Draft.part?_empty]
        cases hget : members.get? p.1 with
        | some j => exact .inl rfl
        | none => exact .inr ⟨rfl, hget ▸ hpart⟩
      rw [ofNode, typeOf, htype]
      exact bind_eq_ok.2 ⟨_, NodeType.ofJson_name root d.type,
        bind_eq_ok.2 ⟨draft, hread, hcomplete.finish _⟩⟩
    | @array elements _ hparts =>
      obtain ⟨draft, hread, -, hdraft⟩ := readElements_ok hparts d.nodup_parts
        (fun p hp => Draft.part?_put_self hp)
        (fun p hp j hj => Draft.set_of_encodes hp hj (ih p hp)) {}
      have hcomplete : draft.Complete d := fun p hp => by
        have hpart := hdraft p hp
        rwa [Draft.part?_empty] at hpart
      rw [map_fst_parts] at hread
      rw [ofNode]
      exact bind_eq_ok.2 ⟨_, NodeType.ofJson_name root d.type,
        bind_eq_ok.2 ⟨draft, hread, hcomplete.finish _⟩⟩

end Definition

theorem MappingDefinition.ofJson_of_readable {j : Json} {d : Definition}
    (h : Definition.ofJson j = .ok d)
    (hexpr : ∀ members, j = .object members → Entries.get? "expr" members = none) :
    ofJson j = .ok { expr := d } := by
  cases j with
  | object members =>
    rw [ofJson, hexpr members rfl]
    exact bind_eq_ok.2 ⟨d, h, rfl⟩
  | _ => exact bind_eq_ok.2 ⟨d, h, rfl⟩

theorem MappingDefinition.ofJson_member {j : Json} {d : Definition}
    (h : Definition.ofJson j = .ok d) : ofJson (.object [("expr", j)]) = .ok { expr := d } := by
  show readMembers [] none [("expr", j)] = _
  rw [readMembers, if_neg (by decide), if_pos rfl]
  exact bind_eq_ok.2 ⟨d, h, rfl⟩

namespace Mapping

theorem ofText_eq {text : String} {j : Json} {d : Definition} (htext : Json.ofText text = .ok j)
    (hj : MappingDefinition.ofJson j = .ok { expr := d }) :
    ofText text = d.build.map fun root => { root } := by
  rw [ofText, htext]
  show (((MappingDefinition.ofJson j).mapError BuildError.badShape) >>= ofDefinition) = _
  rw [hj]
  show ofDefinition { expr := d } = _
  cases hbuild : d.build with
  | ok root => simp [ofDefinition, hbuild, Except.map]
  | error err => simp [ofDefinition, hbuild, Except.map]

/-- All spellings of a definition are read as it, and give the mapping that is built from it or the
error of building it, whether the spelling is the whole text or the member `expr` of an object. -/
theorem ofText_of_encodes {j : Json} {d : Definition} (h : j.Encodes d) :
    (∀ root, Definition.ofNode root j = .ok d) ∧
      ((∀ members, j = .object members → Entries.get? "expr" members = none) →
        ∀ text, Json.ofText text = .ok j →
          ofText text = d.build.map (fun root => { root }) ∧
          (Json.nesting text < Json.maxDepth →
            ofText ("\x7b\"expr\":" ++ text ++ "\x7d") = d.build.map fun root => { root }) ∧
          ∀ text', Json.ofText text' = .ok (.object [("expr", j)]) →
            ofText text' = d.build.map fun root => { root }) := by
  have hread : ∀ root, Definition.ofNode root j = .ok d := d.readable j h
  refine ⟨hread, fun hexpr text htext => ?_⟩
  have hmember (text' : String) (h : Json.ofText text' = .ok (.object [("expr", j)])) :
      ofText text' = d.build.map fun root => { root } :=
    ofText_eq h (MappingDefinition.ofJson_member (hread true))
  exact ⟨ofText_eq htext (MappingDefinition.ofJson_of_readable (hread true) hexpr),
    fun hnesting => hmember _ (Json.ofText_member htext hnesting), hmember⟩

/-- Both forms of nodes inside of each other. -/
theorem ofText_of_encodes_mixed :
    let text := "[\"not\",\x7b\"operators\":[\x7b\"|\":null\x7d],\"note\":[]," ++
      "\"type\":\"arithmetic\",\"operands\":[[\"field\"],\x7b\"type\":\"absent\"\x7d]\x7d]"
    let operand : Json := .object [("operators", .array [.object [("|", .null)]]),
      ("note", .array []), ("type", .string "arithmetic"),
      ("operands", .array [.array [.string "field"], .object [("type", .string "absent")]])]
    let j : Json := .array [.string "not", operand]
    let d : Definition := .not (.arithmetic [.field "", .absent] [.coalesce])
    j.Encodes d ∧ (∀ members, j = .object members → Entries.get? "expr" members = none) ∧
      Json.ofText text = .ok j ∧ Json.nesting text < Json.maxDepth ∧
      Definition.ofNode true j = .ok d ∧
      ofText ("\x7b\"expr\":" ++ text ++ "\x7d") = d.build.map fun root => { root } := by
  intro text operand j d
  have hoperand : operand.Encodes (.arithmetic [.field "", .absent] [.coalesce]) := by
    refine .object (by decide) rfl (List.forall_mem_cons.2 ⟨.nodes ?_, List.forall_mem_singleton.2
      (.operators (.cons (.object .coalesce) .nil))⟩)
    exact .cons (.array (d := .field "") (.nil (List.forall_mem_singleton.2 .noText)))
      (.cons (.object (by decide) rfl (List.forall_mem_nil _)) .nil)
  have hj : j.Encodes d :=
    .array (d := d) (.cons (.node hoperand) (.nil (List.forall_mem_nil _)))
  have hexpr : ∀ members, j = .object members → Entries.get? "expr" members = none := by
    simp [j]
  have htext : Json.ofText text = .ok j := by cbv
  have hnesting : Json.nesting text < Json.maxDepth := by decide +kernel
  obtain ⟨hread, hmapping⟩ := ofText_of_encodes hj
  exact ⟨hj, hexpr, htext, hnesting, hread true, (hmapping hexpr text htext).2.1 hnesting⟩

end Mapping

end MessageMapping
