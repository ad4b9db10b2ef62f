import MessageMapping.Mapping
import MessageMapping.Proofs.Reduction

/-!
# What is built from definitions

`Definition.induct` is induction over definitions with their lists of operands and cases. Building
splits every path at its dots, so in a built expression all paths are `Dotted`: such a path is the
reading of its own text, which is how errors name it.
-/

namespace MessageMapping

/-! ### Outcomes of computations -/

theorem bind_eq_ok {α β ε : Type} {x : Except ε α} {f : α → Except ε β} {b : β} :
    x >>= f = .ok b ↔ ∃ a, x = .ok a ∧ f a = .ok b := by
  cases x with
  | ok a => exact ⟨fun h => ⟨a, rfl, h⟩, fun ⟨_, ha, h⟩ => by cases ha; exact h⟩
  | error e => exact ⟨nofun, fun ⟨_, ha, _⟩ => by cases ha⟩

theorem bind_eq_error {α β ε : Type} {x : Except ε α} {f : α → Except ε β} {e : ε} :
    x >>= f = .error e ↔ x = .error e ∨ ∃ a, x = .ok a ∧ f a = .error e := by
  cases x with
  | ok a =>
    refine ⟨fun h => .inr ⟨a, rfl, h⟩, ?_⟩
    rintro (h | ⟨_, ha, h⟩)
    · cases h
    · cases ha
      exact h
  | error e' =>
    refine ⟨fun h => .inl (congrArg _ (Except.error.inj h)), ?_⟩
    rintro (h | ⟨_, ha, _⟩)
    · exact congrArg _ (Except.error.inj h)
    · cases ha

theorem map_eq_error {α β ε : Type} {x : Except ε α} {f : α → β} {e : ε} :
    x.map f = .error e ↔ x = .error e := by
  cases x with
  | ok a => exact ⟨nofun, nofun⟩
  | error e' =>
    exact ⟨fun h => congrArg _ (Except.error.inj h), fun h => congrArg _ (Except.error.inj h)⟩

theorem map_eq_ok {α β ε : Type} {x : Except ε α} {f : α → β} {b : β} :
    x.map f = .ok b ↔ ∃ a, x = .ok a ∧ f a = b := by
  cases x with
  | ok a => exact ⟨fun h => ⟨a, rfl, Except.ok.inj h⟩, fun ⟨_, ha, h⟩ => by cases ha; rw [← h]; rfl⟩
  | error e => exact ⟨nofun, fun ⟨_, ha, _⟩ => by cases ha⟩

theorem mapError_eq_ok {α ε ε' : Type} {x : Except ε α} {f : ε → ε'} {a : α} :
    x.mapError f = .ok a ↔ x = .ok a := by
  cases x with
  | ok b => exact ⟨fun h => congrArg _ (Except.ok.inj h), fun h => congrArg _ (Except.ok.inj h)⟩
  | error e => exact ⟨nofun, nofun⟩

theorem forall₂_of_mapM {α β ε : Type} {f : α → Except ε β} {as : List α} {bs : List β}
    (h : as.mapM f = .ok bs) : List.Forall₂ (fun a b => f a = .ok b) as bs := by
  induction as generalizing bs with
  | nil =>
    obtain rfl := Except.ok.inj h
    exact .nil
  | cons a rest ih =>
    rw [List.mapM_cons] at h
    obtain ⟨b, ha, h⟩ := bind_eq_ok.1 h
    obtain ⟨bs', hrest, h⟩ := bind_eq_ok.1 h
    obtain rfl := Except.ok.inj h
    exact .cons ha (ih hrest)

theorem mem_of_mapM {α β ε : Type} {f : α → Except ε β} {as : List α} {bs : List β}
    (h : as.mapM f = .ok bs) {b : β} (hb : b ∈ bs) : ∃ a ∈ as, f a = .ok b := by
  have hall := forall₂_of_mapM h
  clear h
  induction hall with
  | nil => cases hb
  | cons ha _ ih =>
    rcases List.mem_cons.1 hb with rfl | hb
    · exact ⟨_, List.mem_cons_self, ha⟩
    · obtain ⟨a', ha', hb⟩ := ih hb
      exact ⟨a', List.mem_cons_of_mem _ ha', hb⟩

theorem mapM_of_forall₂ {α β ε : Type} {f : α → Except ε β} {R : α → β → Prop} {as : List α}
    {bs : List β} (h : List.Forall₂ R as bs) (hf : ∀ a, ∀ b ∈ bs, R a b → f a = .ok b) :
    as.mapM f = .ok bs := by
  induction h with
  | nil => rfl
  | cons hab _ ih =>
    rw [List.mapM_cons, hf _ _ List.mem_cons_self hab,
      ih fun a b hb => hf a b (List.mem_cons_of_mem _ hb)]
    rfl

/-! ### Operands of a row -/

namespace Terms

variable {α : Type u}

theorem operands_chain (terms : Terms (Grouping α)) :
    terms.chain.operands = terms.operands.flatMap Grouping.operands := by
  obtain ⟨first, rest⟩ := terms
  cases rest <;> simp [chain, operands, List.flatMap_map]

theorem operands_flatten (pieces : Terms (Terms α)) :
    pieces.flatten.operands = pieces.operands.flatMap operands := by
  simp [flatten, operands, List.map_flatMap, List.flatMap_map]

theorem operands_map {β : Type u} (f : α → β) (terms : Terms α) :
    (terms.map f).operands = terms.operands.map f := by
  simp [map, operands]

theorem operands_groupBelow (tiers : Nat) (terms : Terms α) :
    (groupBelow tiers terms).operands = terms.operands := by
  induction tiers generalizing terms with
  | zero =>
    rw [groupBelow, operands_chain, operands_map, List.flatMap_map]
    simp
  | succ tier ih =>
    rw [groupBelow, operands_chain, operands_map, List.flatMap_map]
    simp only [ih]
    rw [← operands_flatten, flatten_splitAt]

theorem operands_group (terms : Terms α) : terms.group.operands = terms.operands :=
  operands_groupBelow _ terms

end Terms

/-- Grouping keeps the operands and their order. -/
theorem Grouping.operands_of_ofLists? {α : Type u} {operands : List α}
    {operators : List Operator} {g : Grouping α} (h : ofLists? operands operators = .ok g) :
    g.operands = operands := by
  cases operands with
  | nil => cases h
  | cons first others =>
    rw [ofLists?, Terms.ofLists?] at h
    split at h
    · rename_i hlength
      obtain rfl := Except.ok.inj h
      rw [Terms.operands_group]
      show first :: (operators.zip others).map Prod.snd = _
      rw [List.map_snd_zip (Nat.le_of_eq hlength)]
    · cases h

/-! ### Dotted paths -/

/-- The path has the segments of a text. -/
def Path.Dotted (path : Path) : Prop :=
  ∃ text, Path.ofText text = path

theorem Path.Dotted.ofText_text {path : Path} (h : path.Dotted) : Path.ofText path.text = path := by
  obtain ⟨text, rfl⟩ := h
  rw [Path.text_ofText]

theorem Path.Dotted.text_ne_empty {path : Path} (h : path.Dotted) (hne : path ≠ []) :
    path.text ≠ "" := by
  intro htext
  rw [← h.ofText_text, htext] at hne
  exact hne rfl

/-- All paths of fields and document reads are dotted. -/
def Expr.Dotted {ν : Type u} (e : Expr ν) : Prop :=
  ∀ path, Expr.Within (.field path) e ∨ Expr.Within (.document path) e → path.Dotted

/-! ### Building -/

namespace Definition

@[elab_as_elim]
theorem induct {P : Definition → Prop} (literal : ∀ v, P (.literal v)) (absent : P .absent)
    (delete : P .delete) (field : ∀ p, P (.field p)) (document : ∀ p, P (.document p))
    (metadata : ∀ k, P (.metadata k)) (var : ∀ n, P (.var n))
    (arithmetic : ∀ operands operators, (∀ d ∈ operands, P d) →
      P (.arithmetic operands operators))
    (conditional : ∀ c t a, P c → P t → (∀ d ∈ a, P d) → P (.conditional c t a))
    (switch : ∀ context cases, (∀ d ∈ context, P d) →
      (∀ c ∈ cases, P c.query ∧ P c.result) → P (.switch context cases))
    (not : ∀ d, P d → P (.not d)) (apply : ∀ n, P (.apply n)) (d : Definition) : P d :=
  @Definition.rec P (fun ds => ∀ d ∈ ds, P d) (fun a => ∀ d ∈ a, P d)
    (fun cases => ∀ c ∈ cases, P c.query ∧ P c.result) (fun c => P c.query ∧ P c.result)
    literal absent delete field document metadata var arithmetic conditional switch not apply
    (by simp) (fun _ _ hd hds => List.forall_mem_cons.2 ⟨hd, hds⟩)
    (by simp) (by simp)
    (by simp) (fun _ _ hc hcs => List.forall_mem_cons.2 ⟨hc, hcs⟩)
    (fun _ _ hq hr => ⟨hq, hr⟩) d

/-- The definitions right inside of a definition, in the order in which they are built. -/
def children : Definition → List Definition
  | arithmetic operands _ => operands
  | conditional condition consequent alternative =>
    [condition, consequent] ++ alternative.toList
  | switch context cases => context.toList ++ cases.flatMap fun c => [c.query, c.result]
  | not operand => [operand]
  | literal _ | absent | delete | field _ | document _ | metadata _ | var _ | apply _ => []

theorem mem_children_of_case {c : Case Definition} {context : Option Definition}
    {cases : List (Case Definition)} (hc : c ∈ cases) :
    c.query ∈ (switch context cases).children ∧ c.result ∈ (switch context cases).children :=
  ⟨List.mem_append_right _ (List.mem_flatMap.2 ⟨c, hc, by simp⟩),
    List.mem_append_right _ (List.mem_flatMap.2 ⟨c, hc, by simp⟩)⟩

/-- Induction over children alone, for what treats all kinds of nodes alike. -/
@[elab_as_elim]
theorem induct_children {P : Definition → Prop}
    (h : ∀ d : Definition, (∀ c ∈ d.children, P c) → P d) (d : Definition) : P d := by
  induction d using Definition.induct with
  | literal | absent | delete | field | document | metadata | var | apply =>
    exact h _ (by simp [children])
  | arithmetic operands operators ih => exact h _ ih
  | conditional c t a hc ht ha => exact h _ (by simpa [children, hc, ht] using ha)
  | switch context cases hx hcs =>
    refine h _ fun d hd => ?_
    rcases List.mem_append.1 hd with hd | hd
    · exact hx d (Option.mem_toList.1 hd)
    · obtain ⟨c, hc, hd⟩ := List.mem_flatMap.1 hd
      rcases List.mem_pair.1 hd with rfl | rfl
      exacts [(hcs c hc).1, (hcs c hc).2]
  | not d ih => exact h _ (by simpa [children] using ih)

theorem buildList_eq (depth : Nat) (ds : List Definition) :
    buildList depth ds = ds.mapM (buildAt depth) := by
  induction ds with
  | nil => rfl
  | cons d rest ih => rw [buildList, List.mapM_cons, ih]

theorem buildCases_eq (depth : Nat) (cases : List (Case Definition)) :
    buildCases depth cases = cases.mapM fun c => do
      return ⟨← c.query.buildAt depth, ← c.result.buildAt depth⟩ := by
  induction cases with
  | nil => rfl
  | cons c rest ih =>
    rw [buildCases, List.mapM_cons, ih]
    simp only [bind_assoc, pure_bind]

theorem depth_of_buildAt {depth : Nat} {d : Definition} {e : Expr String}
    (h : d.buildAt depth = .ok e) : ¬ maxDepth < depth := by
  intro hlt
  rw [buildAt.eq_def, if_pos hlt] at h
  cases h

/-- What building a definition gives, from what its children give one level below. -/
inductive Built (depth : Nat) : Definition → Expr String → Prop
  | literal (value : Json) : Built depth (.literal value) (.literal (Value.ofJson value))
  | absent : Built depth .absent (.literal .absent)
  | delete : Built depth .delete (.literal .delete)
  | field (path : String) : Built depth (.field path) (.field (Path.ofText path))
  | document (path : String) : Built depth (.document path) (.document (Path.ofText path))
  | metadata (key : String) : Built depth (.metadata key) (.metadata key)
  | var (name : String) : Built depth (.var name) (.var name)
  | arithmetic {operands : List Definition} {operators : List Operator} {es : List (Expr String)}
    {g : Grouping (Expr String)} (hes : buildList (depth + 1) operands = .ok es)
    (hg : Grouping.ofLists? es operators = .ok g) :
    Built depth (.arithmetic operands operators) (.arithmetic g)
  | conditional {c t : Definition} {a : Option Definition} {c' t' : Expr String}
    {a' : Option (Expr String)} (hc : c.buildAt (depth + 1) = .ok c')
    (ht : t.buildAt (depth + 1) = .ok t')
    (ha : Option.Rel (fun d e => d.buildAt (depth + 1) = .ok e) a a') :
    Built depth (.conditional c t a) (.conditional c' t' a')
  | switch {context : Option Definition} {cases : List (Case Definition)}
    {context' : Option (Expr String)} {cases' : List (Case (Expr String))}
    (hx : Option.Rel (fun d e => d.buildAt (depth + 1) = .ok e) context context')
    (hcs : buildCases (depth + 1) cases = .ok cases') :
    Built depth (.switch context cases) (.switch context' cases')
  | not {d : Definition} {e : Expr String} (h : d.buildAt (depth + 1) = .ok e) :
    Built depth (.not d) (.not e)
  | apply (name : String) : Built depth (.apply name) (.apply name)

theorem built_of_buildAt {depth : Nat} {d : Definition} {e : Expr String}
    (h : d.buildAt depth = .ok e) : Built depth d e := by
  have hdepth := depth_of_buildAt h
  cases d with
  | literal | absent | delete | field | document | metadata | var | apply =>
    rw [buildAt, if_neg hdepth] at h
    obtain rfl := Except.ok.inj h
    constructor
  | arithmetic operands operators =>
    rw [buildAt, if_neg hdepth] at h
    obtain ⟨es, hes, h⟩ := bind_eq_ok.1 h
    obtain ⟨g, hg, h⟩ := bind_eq_ok.1 h
    obtain rfl := Except.ok.inj h
    exact .arithmetic hes hg
  | conditional c t a =>
    rw [buildAt, if_neg hdepth] at h
    obtain ⟨c', hc, h⟩ := bind_eq_ok.1 h
    obtain ⟨t', ht, h⟩ := bind_eq_ok.1 h
    cases a with
    | none =>
      obtain rfl := Except.ok.inj h
      exact .conditional hc ht .none
    | some a =>
      obtain ⟨a', ha, h⟩ := bind_eq_ok.1 h
      obtain rfl := Except.ok.inj h
      exact .conditional hc ht (.some ha)
  | switch context cases =>
    cases context with
    | none =>
      rw [buildAt, if_neg hdepth] at h
      obtain ⟨cases', hcs, h⟩ := bind_eq_ok.1 h
      obtain rfl := Except.ok.inj h
      exact .switch .none hcs
    | some x =>
      rw [buildAt, if_neg hdepth] at h
      obtain ⟨x', hx, h⟩ := bind_eq_ok.1 h
      obtain ⟨cases', hcs, h⟩ := bind_eq_ok.1 h
      obtain rfl := Except.ok.inj h
      exact .switch (.some hx) hcs
  | not d =>
    rw [buildAt, if_neg hdepth] at h
    obtain ⟨e, he, h⟩ := bind_eq_ok.1 h
    obtain rfl := Except.ok.inj h
    exact .not he

theorem Built.branch {depth : Nat} {d : Definition} {e : Expr String} (h : Built depth d e)
    {b : Expr.Branch String} (hb : b ∈ e.branches) :
    ∃ c ∈ d.children, c.buildAt (depth + 1) = .ok b.expr := by
  cases h with
  | literal | absent | delete | field | document | metadata | var | apply => cases hb
  | arithmetic hes hg =>
    obtain ⟨e, he, rfl⟩ := List.mem_map.1 hb
    rw [Grouping.operands_of_ofLists? hg] at he
    rw [buildList_eq] at hes
    exact mem_of_mapM hes he
  | @conditional c t a c' t' a' hc ht ha =>
    rcases List.mem_append.1 hb with hb | hb
    · simp only [List.mem_cons, List.not_mem_nil, or_false] at hb
      rcases hb with rfl | rfl
      exacts [⟨c, by simp [children], hc⟩, ⟨t, by simp [children], ht⟩]
    · cases ha with
      | none => cases hb
      | @some a _ ha =>
        rw [List.mem_singleton.1 hb]
        exact ⟨a, by simp [children], ha⟩
  | @switch context cases context' cases' hx hcs =>
    have hcases : ∀ base inScope, ∀ b ∈ Expr.caseBranches base inScope cases',
        ∃ d ∈ (Definition.switch context cases).children, d.buildAt (depth + 1) = .ok b.expr := by
      rw [buildCases_eq] at hcs
      refine fun base inScope => Expr.forall_caseBranches.2 fun c' hc' => ?_
      obtain ⟨c, hc, h⟩ := mem_of_mapM hcs hc'
      obtain ⟨q, hq, h⟩ := bind_eq_ok.1 h
      obtain ⟨r, hr, h⟩ := bind_eq_ok.1 h
      obtain rfl := Except.ok.inj h
      exact ⟨⟨_, (mem_children_of_case hc).1, hq⟩, ⟨_, (mem_children_of_case hc).2, hr⟩⟩
    cases hx with
    | none => exact hcases _ _ b hb
    | @some x _ hx =>
      rcases List.mem_append.1 hb with hb | hb
      · exact hcases _ _ b hb
      · rw [List.mem_singleton.1 hb]
        exact ⟨x, by simp [children], hx⟩
  | @not d _ h =>
    rw [List.mem_singleton.1 hb]
    exact ⟨d, by simp [children], h⟩

/-- Every subexpression of what is built is built from some definition. -/
theorem built_of_within {depth : Nat} {d : Definition} {e x : Expr String}
    (h : d.buildAt depth = .ok e) (hx : Expr.Within x e) :
    ∃ d' depth', Built depth' d' x := by
  obtain ⟨_, hx⟩ := hx
  induction hx generalizing d depth with
  | self => exact ⟨d, depth, built_of_buildAt h⟩
  | branch hb _ ih =>
    obtain ⟨_, -, hb⟩ := (built_of_buildAt h).branch hb
    exact ih hb

theorem dotted_of_buildAt {depth : Nat} {d : Definition} {e : Expr String}
    (h : d.buildAt depth = .ok e) : e.Dotted := by
  rintro path (hx | hx)
  all_goals
    obtain ⟨d', depth', hbuilt⟩ := built_of_within h hx
    cases hbuilt
    exact ⟨_, rfl⟩

end Definition

namespace Mapping

/-- All paths of the root and of the maps are dotted. -/
def Dotted (m : Mapping) : Prop :=
  m.root.Dotted ∧ ∀ p ∈ m.maps, p.2.Dotted

theorem build_of_ofDefinition {d : MappingDefinition} {m : Mapping} (h : ofDefinition d = .ok m) :
    (∃ root : Definition, root.build = .ok m.root) ∧
      ∀ p ∈ m.maps, ∃ body : Definition, body.build = .ok p.2 := by
  obtain ⟨maps, hmaps, h⟩ := bind_eq_ok.1 h
  obtain ⟨root, hroot, h⟩ := bind_eq_ok.1 h
  obtain rfl := Except.ok.inj h
  refine ⟨⟨_, hroot⟩, fun p hp => ?_⟩
  obtain ⟨q, -, hq⟩ := mem_of_mapM hmaps hp
  obtain ⟨body, hbody, hq⟩ := bind_eq_ok.1 hq
  obtain rfl := Except.ok.inj hq
  exact ⟨_, hbody⟩

theorem build_of_ofText {text : String} {m : Mapping} (h : ofText text = .ok m) :
    (∃ root : Definition, root.build = .ok m.root) ∧
      ∀ p ∈ m.maps, ∃ body : Definition, body.build = .ok p.2 := by
  obtain ⟨json, -, h⟩ := bind_eq_ok.1 h
  obtain ⟨d, -, h⟩ := bind_eq_ok.1 h
  exact build_of_ofDefinition h

theorem dotted_of_ofDefinition {d : MappingDefinition} {m : Mapping}
    (h : ofDefinition d = .ok m) : m.Dotted := by
  obtain ⟨⟨_, hroot⟩, hmaps⟩ := build_of_ofDefinition h
  refine ⟨Definition.dotted_of_buildAt hroot, fun p hp => ?_⟩
  obtain ⟨_, hbody⟩ := hmaps p hp
  exact Definition.dotted_of_buildAt hbody

/-- A mapping that was read from text has only dotted paths. -/
theorem dotted_of_ofText {text : String} {m : Mapping} (h : ofText text = .ok m) : m.Dotted := by
  obtain ⟨json, -, h⟩ := bind_eq_ok.1 h
  obtain ⟨d, -, h⟩ := bind_eq_ok.1 h
  exact dotted_of_ofDefinition h

end Mapping

end MessageMapping
