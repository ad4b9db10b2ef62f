import MessageMapping.Mapping
import MessageMapping.Proofs.TargetOccurrences

/-!
# The result depends only on what is reported

`Surroundings.AgreeOn` says that two surroundings give the same answers to all reads of a list of
targets. For a mapping whose reads of the document are `Unshifted`, agreement on the targets of the
root and of all maps is enough to give the same result, whatever else the messages and variables
hold. An evaluation starts without a scoped value, so a field of its own scope reads the document
under the reported path; below a match on a context the scoped value is the same on both sides.
-/

namespace MessageMapping

/-- Both surroundings answer every read of these targets alike. -/
structure Surroundings.AgreeOn (targets : List Target) (env env' : Surroundings) : Prop where
  value : ∀ path, ⟨.value, path⟩ ∈ targets →
    env.batch.document env.index path = env'.batch.document env'.index path
  metadata : ∀ key, ⟨.metadata, if key.isEmpty then [] else [key]⟩ ∈ targets →
    env.batch.metadata env.index key = env'.batch.metadata env'.index key
  var : ∀ name, ⟨.variable, [name]⟩ ∈ targets → env.vars.get? name = env'.vars.get? name

theorem Surroundings.AgreeOn.mono {targets targets' : List Target} {env env' : Surroundings}
    (h : AgreeOn targets env env') (hs : targets' ⊆ targets) : AgreeOn targets' env env' :=
  ⟨fun p hp => h.value p (hs hp), fun k hk => h.metadata k (hs hk), fun n hn => h.var n (hs hn)⟩

namespace Expr

variable {ν : Type} {env env' : Surroundings} {call call' : ν → Scoped Value} {e : Expr ν}

/-- No read of the document stands in a case of a match on a path that is not empty. -/
def Unshifted (e : Expr ν) : Prop :=
  ∀ context cases path, Within (.switch (some context) cases) e →
    context.scopePath? = some path → path ≠ [] → ∀ c ∈ cases, ∀ q,
      ¬ Within (.document q) c.query ∧ ¬ Within (.document q) c.result

theorem Unshifted.branch (h : e.Unshifted) {b : Branch ν} (hb : b ∈ e.branches) :
    b.expr.Unshifted :=
  fun context cases path hx => h context cases path (.branch hb hx)

theorem Unshifted.base_eq_nil (h : e.Unshifted) {q base : Path}
    (hq : Occurs (.document q) base e) : base = [] := by
  induction hq with
  | self => rfl
  | @branch e b base hb hq ih =>
    rw [ih (h.branch hb), List.append_nil]
    by_contra hne
    -- only the cases of a match on a path have a base
    cases e with
    | switch context cases =>
      cases context with
      | none =>
        exact hne ((forall_caseBranches (P := fun b => b.base = [])).2
          (fun _ _ => ⟨rfl, rfl⟩) b hb)
      | some x =>
        rcases List.mem_append.1 hb with hb | hb
        · obtain ⟨c, hc, hb⟩ := exists_caseBranches.1 ⟨b, hb, rfl⟩
          cases hx : x.scopePath? with
          | none => rcases hb with rfl | rfl <;> simp [Expr.base, hx] at hne
          | some path =>
            have hd := h x cases path (.refl _) hx
              (by rcases hb with rfl | rfl <;> simpa [Expr.base, hx] using hne) c hc q
            rcases hb with rfl | rfl
            exacts [hd.1 hq.within, hd.2 hq.within]
        · exact hne (by rw [List.mem_singleton.1 hb])
    | _ => grind [branches]

theorem leavesAgree_of_agreeOn (hu : e.Unshifted) (h : env.AgreeOn e.targets env')
    (hcall : ∀ n s, call n s = call' n s) (s : Option Value) :
    LeavesAgree (· = ·) env env' call call' s s e where
  field p hp := by
    cases s with
    | none => exact .of_eq (h.value p hp.field_target)
    | some v => exact .of_eq rfl
  innerField p _ v := .of_eq rfl
  document p hp := by
    obtain ⟨base, hp⟩ := hp
    obtain rfl := hu.base_eq_nil hp
    exact .of_eq (h.value p hp.document_target)
  metadata k hk := .of_eq (h.metadata k hk.metadata_target)
  var n hn := .of_eq (by simp only [Surroundings.var, h.var n hn.var_target])
  apply n _ := .of_eq (hcall n s)
  innerApply n _ v := .of_eq (hcall n (some v))

theorem eval_eq_of_agreeOn (hu : e.Unshifted) (h : env.AgreeOn e.targets env')
    (hcall : ∀ n s, call n s = call' n s) (s : Option Value) :
    eval env call e s = eval env' call' e s :=
  (eval_agree .eq (leavesAgree_of_agreeOn hu h hcall s)).eq

theorem run_eq_of_agreeOn {maps : Entries (Expr String)}
    (hmaps : ∀ p ∈ maps, p.2.Unshifted ∧ env.AgreeOn p.2.targets env') (budget : Nat)
    {e : Expr String} (hu : e.Unshifted) (h : env.AgreeOn e.targets env') (s : Option Value) :
    run env maps budget e s = run env' maps budget e s := by
  induction budget generalizing e s with
  | zero => exact eval_eq_of_agreeOn hu h (fun _ _ => rfl) s
  | succ budget ih =>
    refine eval_eq_of_agreeOn hu h (fun n s => ?_) s
    cases hn : maps.get? n with
    | none => rfl
    | some body =>
      have hbody := hmaps _ (Entries.mem_of_get? hn)
      exact ih hbody.1 hbody.2 s

end Expr

namespace Mapping

/-- What the root and the maps may read. -/
def reads (m : Mapping) : List Target :=
  m.root.targets ++ m.maps.flatMap fun p => p.2.targets

/-- No read of the document stands in a case of a match on a path that is not empty. -/
def Unshifted (m : Mapping) : Prop :=
  m.root.Unshifted ∧ ∀ p ∈ m.maps, p.2.Unshifted

/-- Two runs that agree on everything reported have the same result. -/
theorem exec_eq_of_agreeOn (m : Mapping) (hm : m.Unshifted) {env env' : Surroundings}
    (h : env.AgreeOn m.reads env') : m.exec env = m.exec env' := by
  refine Expr.run_eq_of_agreeOn (fun p hp => ⟨hm.2 p hp, h.mono fun t ht => ?_⟩) _ hm.1
    (h.mono fun t ht => List.mem_append_left _ ht) none
  exact List.mem_append_right _ (List.mem_flatMap.2 ⟨p, hp, ht⟩)

/-- A case on a field that applies a map, which applies itself until that fails. -/
def loopMapping : Mapping where
  root := .switch (some (.field ["a"]))
    [⟨.arithmetic (.chain (.operand (.field ["x"])) [(.lt, .operand (.var "limit"))]),
      .apply "loop"⟩]
  maps := [("loop", .arithmetic (.chain (.operand (.apply "loop"))
    [(.coalesce, .operand (.document ["b"]))]))]

def shortRun : Surroundings :=
  ⟨⟨[{ content := "\x7b\"a\":\x7b\"x\":1\x7d,\"b\":2\x7d".toUTF8 }]⟩, 0,
    [("limit", .number (.int 5))]⟩

/-- The same answers at another index, among other messages, members and variables. -/
def longRun : Surroundings :=
  ⟨⟨[default,
    { content := "\x7b\"c\":3,\"b\":2,\"a\":\x7b\"x\":1\x7d\x7d".toUTF8
      metadata := [("k", "v")] }]⟩, 1, [("unused", .null), ("limit", .number (.int 5))]⟩

theorem exec_loopMapping : loopMapping.Unshifted ∧ shortRun.AgreeOn loopMapping.reads longRun ∧
    loopMapping.exec shortRun = loopMapping.exec longRun := by
  have hm : loopMapping.Unshifted := by
    simp +contextual [loopMapping, Mapping.Unshifted, Expr.Unshifted]
  have hreads : loopMapping.reads =
      [⟨.value, ["a", "x"]⟩, ⟨.variable, ["limit"]⟩, ⟨.value, ["a"]⟩, ⟨.value, ["b"]⟩] := rfl
  have h : shortRun.AgreeOn loopMapping.reads longRun := by
    rw [hreads]
    refine ⟨fun p hp => ?_, fun k hk => by simp at hk, fun n hn => ?_⟩
    · simp at hp
      rcases hp with rfl | rfl | rfl <;> cbv
    · obtain rfl : n = "limit" := by simpa using hn
      rfl
  exact ⟨hm, h, exec_eq_of_agreeOn _ hm h⟩

end Mapping

end MessageMapping
