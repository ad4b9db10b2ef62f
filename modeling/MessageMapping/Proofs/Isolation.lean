import MessageMapping.Proofs.LazyReading
import MessageMapping.Proofs.RunAgreement

/-!
# Messages are isolated

A run sees one message of its batch, by content and metadata (`run_eq_of_message_eq`). What messages
keep of their documents goes along with clones, pushes and runs; in every batch that can come about
in these ways it is what reading the content finds (`LazyBatch.Reachable.faithful`). Main result:
the outcome of a mapping is a function of content and metadata of its message, whatever has happened
before to that message and to its batch.
-/

namespace MessageMapping

/-! ### What can come about -/

mutual

/-- Messages that are made from contents, given metadata, read, and cloned from batches. -/
inductive LazyMessage.Reachable : LazyMessage → Prop
  | new (content : ByteArray) : LazyMessage.Reachable { content }
  | setMetadata {m : LazyMessage} (key value : String) (h : LazyMessage.Reachable m) :
    LazyMessage.Reachable (m.setMetadata key value)
  | load {m : LazyMessage} (h : LazyMessage.Reachable m) : LazyMessage.Reachable m.load.2
  | clone {b : LazyBatch} {index : Nat} {m : LazyMessage} (h : LazyBatch.Reachable b)
    (hm : b.get? index = some m) : LazyMessage.Reachable m

/-- Batches that are made from messages, added to, read, and used in runs. -/
inductive LazyBatch.Reachable : LazyBatch → Prop
  | new {messages : List LazyMessage} (h : ∀ m ∈ messages, LazyMessage.Reachable m) :
    LazyBatch.Reachable ⟨messages⟩
  | push {b : LazyBatch} {m : LazyMessage} (h : LazyBatch.Reachable b)
    (hm : LazyMessage.Reachable m) : LazyBatch.Reachable (b.push m)
  | readDocument {b : LazyBatch} (index : Nat) (h : LazyBatch.Reachable b) :
    LazyBatch.Reachable (b.readDocument index).2
  | run {b : LazyBatch} (index : Nat) (vars : Entries Value) (maps : Entries (Expr String))
    (budget : Nat) (e : Expr String) (s : Option Value) (h : LazyBatch.Reachable b) :
    LazyBatch.Reachable (e.runLazy index vars maps budget s b).2

end

theorem LazyBatch.Reachable.exec {b : LazyBatch} (mapping : Mapping) (index : Nat)
    (vars : Entries Value) (h : b.Reachable) : (mapping.execLazy index vars b).2.Reachable :=
  h.run index vars mapping.maps _ mapping.root none

theorem LazyMessage.Faithful.setMetadata {m : LazyMessage} (h : m.Faithful) (key value : String) :
    (m.setMetadata key value).Faithful :=
  h

theorem LazyBatch.Faithful.push {b : LazyBatch} {m : LazyMessage} (h : b.Faithful)
    (hm : m.Faithful) : (b.push m).Faithful :=
  List.forall_mem_append.2 ⟨h, List.forall_mem_singleton.2 hm⟩

/-- A run answers as it does on the batch that is seen from outside, which it does not change. -/
theorem LazyBatch.Faithful.run {b : LazyBatch} (h : b.Faithful) (index : Nat)
    (vars : Entries Value) (maps : Entries (Expr String)) (budget : Nat) (e : Expr String)
    (s : Option Value) :
    (e.runLazy index vars maps budget s b).1 = e.run ⟨b.toBatch, index, vars⟩ maps budget s ∧
    (e.runLazy index vars maps budget s b).2.Shows b.toBatch :=
  @Expr.runLazy_answers ⟨b.toBatch, index, vars⟩ maps budget e s b ⟨h, rfl⟩

mutual

theorem LazyMessage.Reachable.faithful : ∀ {m : LazyMessage}, m.Reachable → m.Faithful
  | _, .new _ => nofun
  | _, .setMetadata key value h => h.faithful.setMetadata key value
  | _, .load h => h.faithful.load
  | _, .clone h hm => h.faithful _ (List.mem_of_getElem? hm)

theorem LazyBatch.Reachable.faithful : ∀ {b : LazyBatch}, b.Reachable → b.Faithful
  | _, .new h => fun m hm => (h m hm).faithful
  | _, .push h hm => h.faithful.push hm.faithful
  | _, .readDocument index h => h.faithful.readDocument index
  | _, .run index vars maps budget e s h =>
    (h.faithful.run index vars maps budget e s).2.faithful

end

/-! ### What a run sees of its batch -/

namespace Expr

variable {env env' : Surroundings}

theorem readsAgree_of_message_eq
    (hmessage : env.batch.message env.index = env'.batch.message env'.index)
    (hvars : env.vars = env'.vars) (e : Expr String) :
    ReadsAgree (· = ·) (· = ·) env env' e where
  field p _ s s' hs := by
    subst hs
    refine .of_eq ?_
    cases s with
    | none => rw [Surroundings.field_none, Surroundings.field_none, hmessage]
    | some v => rw [Surroundings.field_some, Surroundings.field_some]
  document _ _ := .of_eq (by rw [Batch.document, hmessage, Batch.document])
  metadata _ _ := .of_eq (by rw [Batch.metadata, hmessage, Batch.metadata])
  var _ _ := .of_eq (by rw [Surroundings.var, hvars, Surroundings.var])

theorem run_eq_of_message_eq
    (hmessage : env.batch.message env.index = env'.batch.message env'.index)
    (hvars : env.vars = env'.vars) (maps : Entries (Expr String)) (budget : Nat)
    (e : Expr String) (s : Option Value) :
    run env maps budget e s = run env' maps budget e s :=
  (run_agree .eq (fun _ => rfl) (fun _ _ => rfl) (fun _ _ _ => rfl)
    (fun _ body _ => readsAgree_of_message_eq hmessage hvars body) budget
    (readsAgree_of_message_eq hmessage hvars e) rfl).eq

end Expr

theorem LazyMessage.toMessage_eq {m m' : LazyMessage} (hcontent : m.content = m'.content)
    (hmetadata : m.metadata = m'.metadata) : m.toMessage = m'.toMessage := by
  unfold toMessage
  simp only [hcontent, hmetadata]

namespace Mapping

/-- Messages of the same content and metadata are mapped alike in any two batches that can come
about, and as they are if their documents are read beforehand; nothing but what is kept of
documents changes. -/
theorem execLazy_eq_of_same_message (mapping : Mapping) (vars : Entries Value)
    {b b' : LazyBatch} (hb : b.Reachable) (hb' : b'.Reachable) {index index' : Nat}
    {m m' : LazyMessage} (hm : b.get? index = some m) (hm' : b'.get? index' = some m')
    (hcontent : m.content = m'.content) (hmetadata : m.metadata = m'.metadata) :
    (mapping.execLazy index vars b).1 = (mapping.execLazy index' vars b').1 ∧
    (mapping.execLazy index vars b).1 = mapping.exec ⟨b.toBatch, index, vars⟩ ∧
    (mapping.execLazy index vars b).2.toBatch = b.toBatch := by
  have hrun := hb.faithful.run index vars mapping.maps Expr.maxApplications mapping.root none
  have hrun' := hb'.faithful.run index' vars mapping.maps Expr.maxApplications mapping.root none
  have hmessage : b.toBatch.message index = b'.toBatch.message index' := by
    rw [b.toBatch_message, LazyBatch.message_eq_ok.2 hm, b'.toBatch_message,
      LazyBatch.message_eq_ok.2 hm']
    exact congrArg Except.ok (LazyMessage.toMessage_eq hcontent hmetadata)
  have hexec : mapping.exec ⟨b.toBatch, index, vars⟩ = mapping.exec ⟨b'.toBatch, index', vars⟩ :=
    @Expr.run_eq_of_message_eq ⟨b.toBatch, index, vars⟩ ⟨b'.toBatch, index', vars⟩ hmessage rfl
      mapping.maps _ mapping.root none
  exact ⟨hrun.1.trans (hexec.trans hrun'.1.symm), hrun.1, hrun.2.toBatch_eq⟩

/-- A first run falls back to metadata, since the content is no document. A clone keeps this fault,
and a second mapping fails with it behind another message as it does on a message that is new. -/
theorem execLazy_eq_of_same_message_clone :
    let original : LazyMessage := LazyMessage.setMetadata "k" "v" { content := "\x7b".toUTF8 }
    let clone : LazyMessage := { original with found := some (.error .ended) }
    let other : LazyBatch := LazyBatch.push ⟨[{ content := ByteArray.empty }]⟩ clone
    let fallback : Mapping := ⟨[], .arithmetic (.chain (.operand (.field ["a"]))
      [(.coalesce, .operand (.metadata "k"))])⟩
    let nested : Mapping := ⟨[("m", .field ["a"])], .not (.apply "m")⟩
    fallback.execLazy 0 [] ⟨[original]⟩ = (.ok (.string "v"), ⟨[clone]⟩) ∧
    (nested.execLazy 1 [] other).1 = (nested.execLazy 0 [] ⟨[original]⟩).1 ∧
    (nested.execLazy 0 [] ⟨[original]⟩).1 = .error (.invalidDocument .ended) := by
  intro original clone other fallback nested
  have hfirst : fallback.execLazy 0 [] ⟨[original]⟩ = (.ok (.string "v"), ⟨[clone]⟩) := by cbv
  have horiginal : original.Reachable := (LazyMessage.Reachable.new _).setMetadata "k" "v"
  have hbatch : LazyBatch.Reachable ⟨[original]⟩ := .new (List.forall_mem_singleton.2 horiginal)
  have hclone : clone.Reachable := by
    have hran := hbatch.exec fallback 0 []
    rw [hfirst] at hran
    exact .clone hran (show LazyBatch.get? _ 0 = some clone from rfl)
  have hother : other.Reachable := .push (.new (List.forall_mem_singleton.2 (.new _))) hclone
  obtain ⟨heq, -, -⟩ := nested.execLazy_eq_of_same_message [] hother hbatch
    (show other.get? 1 = some clone from rfl) (show LazyBatch.get? _ 0 = some original from rfl)
    rfl rfl
  exact ⟨hfirst, heq, by cbv⟩

end Mapping

end MessageMapping
