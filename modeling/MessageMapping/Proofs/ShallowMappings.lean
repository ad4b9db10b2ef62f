import MessageMapping.Proofs.DepthLimit
import MessageMapping.Proofs.MapOrder
import MessageMapping.Proofs.Reading
import MessageMapping.Proofs.Trees

/-!
# Mappings from texts are shallow

Every level of a definition takes at least one container of its JSON value, in the object form as in
the array form, so the depth of the value bounds the depth of all nodes. Main result: a mapping from
a text has no node more than 126 levels below a root, and a definition that has one is refused when
its text is read, so building never finds a node too deep.
-/

namespace MessageMapping

namespace Definition

/-! ### Depth of nodes -/

/-- All nodes are fewer than `n` levels below the root. -/
def ShallowerThan (n : Nat) (d : Definition) : Prop :=
  ∀ depth x, NodeAt x depth d → depth < n

theorem ShallowerThan.mono {m n : Nat} {d : Definition} (h : d.ShallowerThan m) (hle : m ≤ n) :
    d.ShallowerThan n :=
  fun depth x hx => Nat.lt_of_lt_of_le (h depth x hx) hle

theorem ShallowerThan.of_children {n : Nat} {d : Definition}
    (h : ∀ c ∈ d.children, c.ShallowerThan n) : d.ShallowerThan (n + 1) := by
  intro depth x hx
  cases hx with
  | root => exact Nat.succ_pos n
  | child hc hx => exact Nat.succ_lt_succ (h _ hc _ x hx)

/-! ### Fields -/

/-- All nodes in a part are fewer than `n` levels below it. -/
def Part.ShallowerThan (n : Nat) (part : Part) : Prop :=
  ∀ d ∈ part.definitions, d.ShallowerThan n

/-- Whatever a field is read as, its nodes are fewer than `n` levels below it. -/
structure Child.ShallowerThan (n : Nat) (child : Child) : Prop where
  node : ∀ d, child.node () = .ok d → d.ShallowerThan n
  nodes : ∀ ds, child.nodes () = .ok ds → ∀ d ∈ ds, d.ShallowerThan n
  cases : ∀ cs, child.cases () = .ok cs →
    ∀ c ∈ cs, c.query.ShallowerThan n ∧ c.result.ShallowerThan n

theorem Child.ShallowerThan.node? {n : Nat} {child : Child} (h : child.ShallowerThan n)
    {d? : Option Definition} (hd : child.node? = .ok d?) : ∀ d ∈ d?, d.ShallowerThan n := by
  rw [Child.node?] at hd
  split at hd
  · obtain rfl := Except.ok.inj hd
    rintro _ ⟨⟩
  · obtain ⟨d, hnode, rfl⟩ := map_eq_ok.1 hd
    intro d' hd'
    obtain rfl := Option.mem_some.1 hd'
    exact h.node _ hnode

/-- All nodes in the parts of a draft are fewer than `n` levels below them. -/
def Draft.ShallowerThan (n : Nat) (draft : Draft) : Prop :=
  ∀ name part, draft.part? name = some part → part.ShallowerThan n

theorem Draft.ShallowerThan.empty (n : Nat) : Draft.ShallowerThan n {} := by
  intro name part hpart
  rw [Draft.part?_empty] at hpart
  cases hpart

/-- Reading a field puts one part into the draft, or none where the node has no such field. -/
theorem Draft.set_eq_ok {n : Nat} {draft draft' : Draft} {name : String} {child : Child}
    (h : draft.set name child = .ok draft') (hchild : child.ShallowerThan n) :
    draft' = draft ∨ ∃ part, draft' = draft.put name part ∧ draft'.part? name = some part ∧
      part.ShallowerThan n := by
  unfold Draft.set at h
  split at h
  · obtain rfl := Except.ok.inj h
    exact .inr ⟨.json child.value, rfl, rfl, nofun⟩
  iterate 2
    · obtain ⟨text, -, h⟩ := bind_eq_ok.1 h
      obtain rfl := Except.ok.inj h
      exact .inr ⟨.text text, rfl, rfl, nofun⟩
  · obtain ⟨text, -, h⟩ := bind_eq_ok.1 h
    obtain rfl := Except.ok.inj h
    exact .inr ⟨.name text, rfl, rfl, nofun⟩
  · obtain ⟨ds, hds, h⟩ := bind_eq_ok.1 h
    obtain rfl := Except.ok.inj h
    exact .inr ⟨.nodes ds, rfl, rfl, hchild.nodes ds hds⟩
  · obtain ⟨ops, -, h⟩ := bind_eq_ok.1 h
    obtain rfl := Except.ok.inj h
    exact .inr ⟨.operators ops, rfl, rfl, nofun⟩
  iterate 2
    · obtain ⟨d, hd, h⟩ := bind_eq_ok.1 h
      obtain rfl := Except.ok.inj h
      exact .inr ⟨.node d, rfl, rfl, List.forall_mem_singleton.2 (hchild.node d hd)⟩
  iterate 2
    · obtain ⟨d?, hd, h⟩ := bind_eq_ok.1 h
      obtain rfl := Except.ok.inj h
      exact .inr ⟨.node? d?, rfl, rfl, fun d hd' => hchild.node? hd d (Option.mem_toList.1 hd')⟩
  · obtain ⟨cs, hcs, h⟩ := bind_eq_ok.1 h
    obtain rfl := Except.ok.inj h
    refine .inr ⟨.cases cs, rfl, rfl, fun d hd => ?_⟩
    obtain ⟨c, hc, hd⟩ := List.mem_flatMap.1 hd
    rcases List.mem_pair.1 hd with rfl | rfl
    exacts [(hchild.cases cs hcs c hc).1, (hchild.cases cs hcs c hc).2]
  · obtain ⟨d, hd, h⟩ := bind_eq_ok.1 h
    obtain rfl := Except.ok.inj h
    exact .inr ⟨.node d, rfl, rfl, List.forall_mem_singleton.2 (hchild.node d hd)⟩
  · exact .inl (Except.ok.inj h).symm

theorem Draft.ShallowerThan.set {n : Nat} {draft draft' : Draft} {name : String} {child : Child}
    (hdraft : draft.ShallowerThan n) (hchild : child.ShallowerThan n)
    (h : draft.set name child = .ok draft') : draft'.ShallowerThan n := by
  rcases Draft.set_eq_ok h hchild with rfl | ⟨part, hput, hself, hpart⟩
  · exact hdraft
  · intro other part' hpart'
    by_cases hname : other = name
    · subst hname
      rw [hself] at hpart'
      obtain rfl := Option.some.inj hpart'
      exact hpart
    · rw [hput, Draft.part?_put_of_ne hname] at hpart'
      exact hdraft other part' hpart'

theorem Draft.need_eq_ok {α : Type} {missing : String → ShapeError} {name : String}
    {a? : Option α} {a : α} (h : Draft.finish.need missing name a? = .ok a) : a? = some a := by
  cases a? with
  | none => cases h
  | some a' => exact congrArg some (Except.ok.inj h)

/-- A node has only what its draft has. -/
theorem Draft.ShallowerThan.finish {n : Nat} {draft : Draft} {missing : String → ShapeError}
    {type : NodeType} {d : Definition} (hdraft : draft.ShallowerThan n)
    (h : draft.finish missing type = .ok d) : d.ShallowerThan (n + 1) := by
  refine .of_children ?_
  cases type with
  | literal | var | apply =>
    obtain ⟨_, -, h⟩ := bind_eq_ok.1 h
    obtain rfl := Except.ok.inj h
    rintro _ ⟨⟩
  | absent | delete | field | document | metadata =>
    obtain rfl := Except.ok.inj h
    rintro _ ⟨⟩
  | arithmetic =>
    obtain ⟨operands, hoperands, h⟩ := bind_eq_ok.1 h
    obtain ⟨operators, -, h⟩ := bind_eq_ok.1 h
    obtain rfl := Except.ok.inj h
    have hpart : draft.part? "operands" = some (.nodes operands) := by
      rw [Draft.part?, Draft.need_eq_ok hoperands, Option.map_some]
    exact hdraft _ _ hpart
  | conditional =>
    obtain ⟨condition, hcondition, h⟩ := bind_eq_ok.1 h
    obtain ⟨consequent, hconsequent, h⟩ := bind_eq_ok.1 h
    obtain rfl := Except.ok.inj h
    have hcondition' : draft.part? "condition" = some (.node condition) := by
      rw [Draft.part?, Draft.need_eq_ok hcondition, Option.map_some]
    have hconsequent' : draft.part? "then" = some (.node consequent) := by
      rw [Draft.part?, Draft.need_eq_ok hconsequent, Option.map_some]
    refine List.forall_mem_append.2 ⟨List.forall_mem_cons.2 ⟨hdraft _ _ hcondition' _ (.head _),
      List.forall_mem_singleton.2 (hdraft _ _ hconsequent' _ (.head _))⟩, ?_⟩
    cases halternative : draft.alternative with
    | none => rintro _ ⟨⟩
    | some alternative =>
      have hpart : draft.part? "else" = some (.node? alternative) := by
        rw [Draft.part?, halternative, Option.map_some]
      exact hdraft _ _ hpart
  | switch =>
    obtain ⟨cs, hcs, h⟩ := bind_eq_ok.1 h
    obtain rfl := Except.ok.inj h
    have hcases : draft.part? "cases" = some (.cases cs) := by
      rw [Draft.part?, Draft.need_eq_ok hcs, Option.map_some]
    refine List.forall_mem_append.2 ⟨?_, hdraft _ _ hcases⟩
    cases hcontext : draft.context with
    | none => rintro _ ⟨⟩
    | some context =>
      have hpart : draft.part? "context" = some (.node? context) := by
        rw [Draft.part?, hcontext, Option.map_some]
      exact hdraft _ _ hpart
  | not =>
    obtain ⟨operand, hoperand, h⟩ := bind_eq_ok.1 h
    obtain rfl := Except.ok.inj h
    have hpart : draft.part? "operand" = some (.node operand) := by
      rw [Draft.part?, Draft.need_eq_ok hoperand, Option.map_some]
    exact hdraft _ _ hpart

/-! ### Nodes -/

/-- Whatever a JSON value is read as, its nodes are fewer levels down than it has containers. -/
structure Bounds (j : Json) : Prop where
  node : ∀ root d, ofNode root j = .ok d → d.ShallowerThan j.depth
  nodes : ∀ ds, ofNodes j = .ok ds → ∀ d ∈ ds, d.ShallowerThan j.depth
  case : ∀ c, ofCase j = .ok c →
    c.query.ShallowerThan j.depth ∧ c.result.ShallowerThan j.depth
  cases : ∀ cs, ofCases j = .ok cs →
    ∀ c ∈ cs, c.query.ShallowerThan j.depth ∧ c.result.ShallowerThan j.depth

theorem Bounds.child {n : Nat} {j : Json} (h : Bounds j) (hle : j.depth ≤ n) :
    (child j).ShallowerThan n where
  node d hd := (h.node false d hd).mono hle
  nodes ds hds d hd := (h.nodes ds hds d hd).mono hle
  cases cs hcs c hc := (h.cases cs hcs c hc).imp (fun h => h.mono hle) fun h => h.mono hle

section

variable {n : Nat} {draft draft' : Draft} {fields : List String}

theorem Draft.ShallowerThan.readMembers {members : Entries Json} (hdraft : draft.ShallowerThan n)
    (hmembers : ∀ p ∈ members, (Definition.child p.2).ShallowerThan n)
    (h : readMembers fields draft members = .ok draft') : draft'.ShallowerThan n := by
  induction members generalizing draft with
  | nil =>
    obtain rfl := Except.ok.inj h
    exact hdraft
  | cons p rest ih =>
    obtain ⟨hp, hrest⟩ := List.forall_mem_cons.1 hmembers
    rw [Definition.readMembers] at h
    split at h
    · obtain ⟨_, hset, h⟩ := bind_eq_ok.1 h
      exact ih (hdraft.set hp hset) hrest h
    · exact ih hdraft hrest h

theorem Draft.ShallowerThan.readElements {elements : List Json} (hdraft : draft.ShallowerThan n)
    (helements : ∀ j ∈ elements, (Definition.child j).ShallowerThan n)
    (h : readElements draft fields elements = .ok draft') : draft'.ShallowerThan n := by
  induction elements generalizing draft fields with
  | nil =>
    obtain rfl : draft = draft' := by cases fields <;> exact Except.ok.inj h
    exact hdraft
  | cons j rest ih =>
    obtain ⟨hj, hrest⟩ := List.forall_mem_cons.1 helements
    cases fields with
    | nil => cases h
    | cons name fields =>
      obtain ⟨_, hset, h⟩ := bind_eq_ok.1 h
      exact ih (hdraft.set hj hset) hrest h

theorem shallowerThan_of_readCase {members : Entries Json} {query? result? : Option Definition}
    {c : Case Definition} (hquery : ∀ d ∈ query?, d.ShallowerThan n)
    (hresult : ∀ d ∈ result?, d.ShallowerThan n)
    (hmembers : ∀ p ∈ members, ∀ d, ofNode false p.2 = .ok d → d.ShallowerThan n)
    (h : readCase query? result? members = .ok c) :
    c.query.ShallowerThan n ∧ c.result.ShallowerThan n := by
  induction members generalizing query? result? with
  | nil =>
    cases query? with
    | none => cases h
    | some query =>
      cases result? with
      | none => cases h
      | some result =>
        obtain rfl := Except.ok.inj h
        exact ⟨hquery query rfl, hresult result rfl⟩
  | cons p rest ih =>
    obtain ⟨hp, hrest⟩ := List.forall_mem_cons.1 hmembers
    have hread : ∀ d, ofNode false p.2 = .ok d → ∀ d' ∈ some d, d'.ShallowerThan n := by
      intro d hd d' hd'
      obtain rfl := Option.mem_some.1 hd'
      exact hp _ hd
    rw [readCase] at h
    split_ifs at h
    · obtain ⟨d, hd, h⟩ := bind_eq_ok.1 h
      exact ih (hread d hd) hresult hrest h
    · obtain ⟨d, hd, h⟩ := bind_eq_ok.1 h
      exact ih hquery (hread d hd) hrest h
    · exact ih hquery hresult hrest h

end

theorem Bounds.array {items : List Json} (h : ∀ j ∈ items, Bounds j) :
    Bounds (.array items) := by
  have hdepth : ∀ j ∈ items, j.depth ≤ Json.itemsDepth items := Json.itemsDepth_le_iff.1 le_rfl
  have hchild : ∀ j ∈ items, (Definition.child j).ShallowerThan (Json.itemsDepth items) :=
    fun j hj => (h j hj).child (hdepth j hj)
  have hsucc : Json.itemsDepth items ≤ (Json.array items).depth := by
    rw [Json.depth]
    exact Nat.le_succ _
  constructor
  case node =>
    intro root d hd
    cases items with
    | nil => cases hd
    | cons tag elements =>
      obtain ⟨type, -, hd⟩ := bind_eq_ok.1 hd
      obtain ⟨draft, hdraft, hd⟩ := bind_eq_ok.1 hd
      have hempty := Draft.ShallowerThan.empty (Json.itemsDepth (tag :: elements))
      rw [Json.depth]
      exact (hempty.readElements (List.forall_mem_cons.1 hchild).2 hdraft).finish hd
  case nodes =>
    intro ds hds d hd
    rw [ofNodes, readNodes_eq] at hds
    obtain ⟨j, hj, hd⟩ := mem_of_mapM hds hd
    exact ((hchild j hj).node d hd).mono hsucc
  case case =>
    intro c hc
    cases items with
    | nil => cases hc
    | cons query rest =>
      cases rest with
      | nil =>
        obtain ⟨_, -, hc⟩ := bind_eq_ok.1 hc
        cases hc
      | cons result more =>
        obtain ⟨q, hq, hc⟩ := bind_eq_ok.1 hc
        obtain ⟨r, hr, hc⟩ := bind_eq_ok.1 hc
        obtain ⟨hquery, hrest⟩ := List.forall_mem_cons.1 hchild
        obtain ⟨hresult, -⟩ := List.forall_mem_cons.1 hrest
        split at hc
        · obtain rfl := Except.ok.inj hc
          exact ⟨(hquery.node q hq).mono hsucc, (hresult.node r hr).mono hsucc⟩
        · cases hc
  case cases =>
    intro cs hcs c hc
    rw [ofCases, readCases_eq] at hcs
    obtain ⟨j, hj, hc⟩ := mem_of_mapM hcs hc
    have hle := (hdepth j hj).trans hsucc
    exact ((h j hj).case c hc).imp (fun h => h.mono hle) fun h => h.mono hle

theorem Bounds.object {members : Entries Json} (h : ∀ p ∈ members, Bounds p.2) :
    Bounds (.object members) := by
  have hdepth : ∀ p ∈ members, p.2.depth ≤ Json.membersDepth members :=
    Json.membersDepth_le_iff.1 le_rfl
  have hchild : ∀ p ∈ members, (Definition.child p.2).ShallowerThan (Json.membersDepth members) :=
    fun p hp => (h p hp).child (hdepth p hp)
  constructor
  case node =>
    intro root d hd
    obtain ⟨type, -, hd⟩ := bind_eq_ok.1 hd
    obtain ⟨draft, hdraft, hd⟩ := bind_eq_ok.1 hd
    rw [Json.depth]
    exact ((Draft.ShallowerThan.empty _).readMembers hchild hdraft).finish hd
  case case =>
    intro c hc
    have hsucc : Json.membersDepth members ≤ (Json.object members).depth := by
      rw [Json.depth]
      exact Nat.le_succ _
    have hboth := shallowerThan_of_readCase (by simp) (by simp) (fun p hp => (hchild p hp).node) hc
    exact hboth.imp (fun h => h.mono hsucc) fun h => h.mono hsucc
  all_goals
    intro _ h
    cases h

/-- Every level of a definition takes at least one container of what it is read from. -/
theorem bounds (j : Json) : Bounds j := by
  induction j using Json.induct with
  | null | bool | number | string => exact ⟨nofun, nofun, nofun, nofun⟩
  | array items ih => exact .array ih
  | object members ih => exact .object ih

end Definition

/-! ### Mappings -/

/-- The node `x` stands in the root or in a map, this many levels below its top. -/
def MappingDefinition.NodeAt (x : Definition) (depth : Nat) (d : MappingDefinition) : Prop :=
  Definition.NodeAt x depth d.expr ∨ ∃ p ∈ d.maps, Definition.NodeAt x depth p.2

/-- The node `x` stands in an expression, this many levels below its top; a row of operands is one
level. -/
inductive Expr.NodeAt {ν : Type u} (x : Expr ν) : Nat → Expr ν → Prop
  | root : NodeAt x 0 x
  | branch {e : Expr ν} {b : Branch ν} {depth : Nat} (hb : b ∈ e.branches)
    (h : NodeAt x depth b.expr) : NodeAt x (depth + 1) e

/-- The node `x` stands in the root or in a map, this many levels below its top. -/
def Mapping.NodeAt (x : Expr String) (depth : Nat) (m : Mapping) : Prop :=
  Expr.NodeAt x depth m.root ∨ ∃ p ∈ m.maps, Expr.NodeAt x depth p.2

/-- Every node is built from a node at the same place. -/
theorem Expr.NodeAt.exists_definition {start depth : Nat} {d : Definition} {e x : Expr String}
    (hx : NodeAt x depth e) (h : d.buildAt start = .ok e) :
    ∃ x', Definition.NodeAt x' depth d := by
  induction hx generalizing d start with
  | root => exact ⟨d, .root⟩
  | branch hb _ ih =>
    obtain ⟨c, hc, hbuild⟩ := (Definition.built_of_buildAt h).branch hb
    obtain ⟨x', hx'⟩ := ih hbuild
    exact ⟨x', .child hc hx'⟩

namespace MappingDefinition

open Definition

theorem shallowerThan_of_readMembers {n : Nat} {maps : Entries Definition}
    {expr? : Option Definition} {members : Entries Json} {d : MappingDefinition}
    (hmaps : ∀ p ∈ maps, p.2.ShallowerThan n) (hexpr : ∀ e ∈ expr?, e.ShallowerThan n)
    (hmembers : ∀ p ∈ members, p.2.depth ≤ n) (h : readMembers maps expr? members = .ok d) :
    d.expr.ShallowerThan n ∧ ∀ p ∈ d.maps, p.2.ShallowerThan n := by
  induction members generalizing maps expr? with
  | nil =>
    cases expr? with
    | none => cases h
    | some expr =>
      obtain rfl := Except.ok.inj h
      exact ⟨hexpr expr rfl, hmaps⟩
  | cons member rest ih =>
    obtain ⟨name, value⟩ := member
    obtain ⟨hvalue, hrest⟩ := List.forall_mem_cons.1 hmembers
    rw [readMembers] at h
    split_ifs at h
    · obtain ⟨read, hread, h⟩ := bind_eq_ok.1 h
      refine ih (fun p hp => ?_) hexpr hrest h
      cases value with
      | object bodies =>
        obtain ⟨body, hbody, hp⟩ := mem_of_mapM hread hp
        obtain ⟨b, hb, hp⟩ := bind_eq_ok.1 hp
        obtain rfl := Except.ok.inj hp
        have hdepth := Json.membersDepth_le_iff.1 le_rfl body hbody
        rw [Json.depth] at hvalue
        exact ((bounds body.2).node true b hb).mono (by omega)
      | _ => cases hread
    · obtain ⟨e, he, h⟩ := bind_eq_ok.1 h
      refine ih hmaps (fun e' he' => ?_) hrest h
      obtain rfl := Option.mem_some.1 he'
      exact ((bounds value).node true _ he).mono hvalue
    · exact ih hmaps hexpr hrest h

theorem NodeAt.depth_lt {j : Json} {d : MappingDefinition} {depth : Nat} {x : Definition}
    (hx : NodeAt x depth d) (h : ofJson j = .ok d) : depth < j.depth := by
  have hlone : (do return { expr := ← Definition.ofJson j } : Except ShapeError _) = .ok d →
      d.expr.ShallowerThan j.depth ∧ ∀ p ∈ d.maps, p.2.ShallowerThan j.depth := by
    intro h
    obtain ⟨e, he, h⟩ := bind_eq_ok.1 h
    obtain rfl := Except.ok.inj h
    exact ⟨(bounds j).node true e he, nofun⟩
  have hall : d.expr.ShallowerThan j.depth ∧ ∀ p ∈ d.maps, p.2.ShallowerThan j.depth := by
    cases j with
    | object members =>
      rw [ofJson] at h
      split at h
      · refine shallowerThan_of_readMembers (by simp) (by simp) (fun p hp => ?_) h
        rw [Json.depth]
        exact (Json.membersDepth_le_iff.1 le_rfl p hp).trans (Nat.le_succ _)
      · exact hlone h
    | _ => exact hlone h
  rcases hx with hx | ⟨p, hp, hx⟩
  · exact hall.1 depth x hx
  · exact hall.2 p hp depth x hx

end MappingDefinition

/-- Only a node beyond the limit is too deep to be built. -/
theorem Definition.exists_deep_of_build {d : Definition} {limit : Nat}
    (h : d.build = .error (.tooDeep limit)) : ∃ depth x, NodeAt x depth d ∧ 256 < depth := by
  obtain ⟨v, hv, hfault⟩ := List.exists_of_findSome?_eq_some ((reports_buildAt 0 d _).1 h)
  obtain ⟨depth, x, hx, rfl | rfl⟩ := mem_visits_iff.1 hv
  · rw [Nat.zero_add, Visit.fault?] at hfault
    split at hfault
    · rename_i hdeep
      exact ⟨depth, x, hx, hdeep⟩
    · cases hfault
  · cases x with
    | arithmetic operands operators =>
      cases operands with
      | nil => cases hfault
      | cons first others =>
        rw [Visit.fault?] at hfault
        · split at hfault <;> cases hfault
        · exact List.cons_ne_nil first others
    | _ => cases hfault

/-! ### Towers of negations -/

namespace Definition

/-- Nothing under this many negations. -/
def nots : Nat → Definition
  | 0 => .absent
  | n + 1 => .not (nots n)

def notsJson : Nat → Json
  | 0 => .array [.string "absent"]
  | n + 1 => .array [.string "not", notsJson n]

def notsText : Nat → String
  | 0 => "[\"absent\"]"
  | n + 1 => "[\"not\"," ++ notsText n ++ "]"

theorem nodeAt_nots (n : Nat) : NodeAt .absent n (nots n) := by
  induction n with
  | zero => exact .root
  | succ n ih => exact .child (.head _) ih

theorem ofNode_notsJson (root : Bool) (n : Nat) : ofNode root (notsJson n) = .ok (nots n) := by
  induction n generalizing root with
  | zero => rfl
  | succ n ih =>
    have hset : Draft.set {} "operand" (child (notsJson n)) = .ok { operand := some (nots n) } :=
      bind_eq_ok.2 ⟨_, ih false, rfl⟩
    exact bind_eq_ok.2 ⟨.not, rfl, bind_eq_ok.2 ⟨_, bind_eq_ok.2 ⟨_, hset, rfl⟩, rfl⟩⟩

theorem run_notsText (n : Nat) (context : Json.Context) :
    (notsText n).toUTF8.toList.foldlM (fun state byte => Json.State.stepFreely byte state)
      (.value context) = .ok (context.fill (notsJson n)) := by
  induction n generalizing context with
  | zero => cbv
  | succ n ih =>
    have hopen : "[\"not\",".toUTF8.toList.foldlM
        (fun state byte => Json.State.stepFreely byte state) (.value context) =
          .ok (.value (.item [.string "not"] context)) := by
      cbv
    have hclose : "]".toUTF8.toList = [93] := by
      cbv
    rw [notsText, toUTF8_append, toUTF8_append, List.foldlM_append, List.foldlM_append, hopen,
      hclose]
    exact bind_eq_ok.2 ⟨_, ih _, rfl⟩

theorem ofTextFreely_notsText (n : Nat) :
    Json.ofTextFreely (notsText n) = .ok (notsJson n) :=
  bind_eq_ok.2 ⟨_, run_notsText n .top, rfl⟩

end Definition

namespace Mapping

theorem NodeAt.exists_definition {d : MappingDefinition} {m : Mapping} {depth : Nat}
    {x : Expr String} (hx : m.NodeAt x depth) (h : ofDefinition d = .ok m) :
    ∃ x', d.NodeAt x' depth := by
  obtain ⟨maps, hmaps, h⟩ := bind_eq_ok.1 h
  obtain ⟨root, hroot, h⟩ := bind_eq_ok.1 h
  obtain rfl := Except.ok.inj h
  rcases hx with hx | ⟨p, hp, hx⟩
  · obtain ⟨x', hx'⟩ := hx.exists_definition hroot
    exact ⟨x', .inl hx'⟩
  · obtain ⟨q, hq, hp⟩ := mem_of_mapM hmaps hp
    obtain ⟨body, hbody, hp⟩ := bind_eq_ok.1 hp
    obtain rfl := Except.ok.inj hp
    obtain ⟨x', hx'⟩ := hx.exists_definition hbody
    exact ⟨x', .inr ⟨q, hq, hx'⟩⟩

theorem exists_deep_of_ofDefinition {d : MappingDefinition} {limit : Nat}
    (h : ofDefinition d = .error (.tooDeep limit)) :
    ∃ depth x, d.NodeAt x depth ∧ 256 < depth := by
  rcases (ofDefinition_error_iff d _).1 h with ⟨before, p, after, hmaps, hp, -⟩ | ⟨-, hexpr⟩
  · obtain ⟨depth, x, hx, hdeep⟩ := Definition.exists_deep_of_build hp
    exact ⟨depth, x, .inr ⟨p, by simp [hmaps], hx⟩, hdeep⟩
  · obtain ⟨depth, x, hx, hdeep⟩ := Definition.exists_deep_of_build hexpr
    exact ⟨depth, x, .inl hx, hdeep⟩

/-- A mapping from a text has no node more than 126 levels below a root, and no text fails because
it is too deep to be built: what has a deeper node is refused as no JSON. -/
theorem ofText_shallow (text : String) :
    (∀ m, ofText text = .ok m → ∀ depth x, m.NodeAt x depth → depth ≤ 126) ∧
    (∀ limit, ofText text ≠ .error (.tooDeep limit)) ∧
    ∀ json d, Json.ofTextFreely text = .ok json → MappingDefinition.ofJson json = .ok d →
      (∃ depth x, d.NodeAt x depth ∧ 126 < depth) →
      ofText text = .error (.notJson .malformed) := by
  have hread : ∀ json d, Json.ofText text = .ok json → MappingDefinition.ofJson json = .ok d →
      ∀ depth x, d.NodeAt x depth → depth ≤ 126 := by
    intro json d hjson hd depth x hx
    have hdepth : json.depth ≤ 127 := Json.depth_le_of_ofText hjson
    have hlt := hx.depth_lt hd
    omega
  refine ⟨fun m hm depth x hx => ?_, fun limit h => ?_, fun json d hjson hd hdeep => ?_⟩
  · obtain ⟨json, hjson, h⟩ := bind_eq_ok.1 hm
    obtain ⟨d, hd, hm⟩ := bind_eq_ok.1 h
    obtain ⟨x', hx'⟩ := hx.exists_definition hm
    exact hread json d (mapError_eq_ok.1 hjson) (mapError_eq_ok.1 hd) depth x' hx'
  · rcases bind_eq_error.1 h with h | ⟨json, hjson, h⟩
    · cases hjson : Json.ofText text <;> rw [hjson] at h <;> cases h
    rcases bind_eq_error.1 h with h | ⟨d, hd, h⟩
    · cases hd : MappingDefinition.ofJson json <;> rw [hd] at h <;> cases h
    obtain ⟨depth, x, hx, hdeep⟩ := exists_deep_of_ofDefinition h
    have hle := hread json d (mapError_eq_ok.1 hjson) (mapError_eq_ok.1 hd) depth x hx
    omega
  · obtain ⟨depth, x, hx, hlt⟩ := hdeep
    have hdepth : 127 < json.depth := Nat.lt_of_le_of_lt hlt (hx.depth_lt hd)
    rw [ofText, Json.ofText_of_maxDepth_lt hjson hdepth]
    rfl

/-- One negation, which is read, and 127 negations, which are not. -/
theorem ofText_shallow_nots :
    let m : Mapping := { root := .not (.literal .absent) }
    let deep : MappingDefinition := { expr := Definition.nots 127 }
    ofText (Definition.notsText 1) = .ok m ∧ m.NodeAt (.literal .absent) 1 ∧ 1 ≤ 126 ∧
      Json.ofTextFreely (Definition.notsText 127) = .ok (Definition.notsJson 127) ∧
      MappingDefinition.ofJson (Definition.notsJson 127) = .ok deep ∧
      deep.NodeAt .absent 127 ∧
      ofText (Definition.notsText 127) = .error (.notJson .malformed) := by
  intro m deep
  have hm : ofText (Definition.notsText 1) = .ok m := by cbv
  have hnode : m.NodeAt (.literal .absent) 1 := .inl (.branch (.head _) .root)
  have hjson := Definition.ofTextFreely_notsText 127
  have hdeep : MappingDefinition.ofJson (Definition.notsJson 127) = .ok deep :=
    bind_eq_ok.2 ⟨_, Definition.ofNode_notsJson true 127, rfl⟩
  have hbelow : deep.NodeAt .absent 127 := .inl (Definition.nodeAt_nots 127)
  obtain ⟨hshallow, -, -⟩ := ofText_shallow (Definition.notsText 1)
  obtain ⟨-, -, hrefused⟩ := ofText_shallow (Definition.notsText 127)
  exact ⟨hm, hnode, hshallow m hm 1 _ hnode, hjson, hdeep, hbelow,
    hrefused _ deep hjson hdeep ⟨127, _, hbelow, by decide⟩⟩

end Mapping

end MessageMapping
