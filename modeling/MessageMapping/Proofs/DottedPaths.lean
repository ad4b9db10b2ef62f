import MessageMapping.Proofs.Rescoping
import MessageMapping.Proofs.TargetTexts

/-!
# Paths and their dotted texts

Expressions are given paths as texts, walk their segments, and name them as texts again when they
lead nowhere. A text comes back from the path that is read from it, so a read that fails for its
path names the text that it was given; `Unread` lists all ways to fail. A path comes back from its
text exactly if no segment holds a dot and it is not the path of one empty segment, which has the
text of the empty path. Main result: these laws (`Path.dotted_laws`), with what paths and texts lead
to that are put one after the other.
-/

namespace MessageMapping

/-! ### Texts of paths -/

namespace Path

theorem ofText_of_ne_empty {text : String} (h : text ≠ "") :
    ofText text = (pieces text.toList).map String.ofList :=
  if_neg (by simpa using h)

theorem length_ofText (text : String) :
    (ofText text).length = if text = "" then 0 else (pieces text.toList).length := by
  by_cases h : text = ""
  · rw [if_pos h, h]
    rfl
  · rw [if_neg h, ofText_of_ne_empty h, List.length_map]

/-- Texts with a dot between them read as both paths, one after the other, unless one is empty: by
itself it has no segment, beside the dot it has one. -/
theorem ofText_append_dot_iff (text rest : String) :
    ofText (text ++ "." ++ rest) = ofText text ++ ofText rest ↔ text ≠ "" ∧ rest ≠ "" := by
  have hne : text ++ "." ++ rest ≠ "" := by simp
  have hpieces : pieces (text ++ "." ++ rest).toList =
      pieces text.toList ++ pieces rest.toList := by
    rw [← pieces_append_dot, String.toList_append, String.toList_append, List.append_assoc]
    rfl
  constructor
  · intro h
    have hlength := congrArg List.length h
    rw [List.length_append, length_ofText, length_ofText, length_ofText, if_neg hne, hpieces,
      List.length_append] at hlength
    have htext := List.length_pos_iff.2 (pieces_ne_nil text.toList)
    have hrest := List.length_pos_iff.2 (pieces_ne_nil rest.toList)
    -- there are as many pieces as segments on the right only if both texts have segments
    split_ifs at hlength with ht hr hr
    · omega
    · omega
    · omega
    · exact ⟨ht, hr⟩
  · rintro ⟨htext, hrest⟩
    rw [ofText_of_ne_empty hne, hpieces, List.map_append, ofText_of_ne_empty htext,
      ofText_of_ne_empty hrest]

theorem DotFree.eq_of_text_eq_empty {path : Path} (h : path.DotFree) (hne : path ≠ [])
    (htext : path.text = "") : path = [""] := by
  have hpieces := h.pieces_text hne
  rw [htext] at hpieces
  exact List.map_injective_iff.2 (fun _ _ => String.toList_inj.1) hpieces.symm

theorem ofText_text_iff (path : Path) :
    ofText path.text = path ↔ path.DotFree ∧ path ≠ [""] := by
  constructor
  · intro h
    have hdotted : path.Dotted := ⟨_, h⟩
    refine ⟨hdotted.dotFree, ?_⟩
    rintro rfl
    exact hdotted.text_ne_empty (List.cons_ne_nil _ _) rfl
  · rintro ⟨h, hne⟩
    by_cases hnil : path = []
    · rw [hnil]
      rfl
    · have htext : path.text ≠ "" := fun htext => hne (h.eq_of_text_eq_empty hnil htext)
      rw [ofText_of_ne_empty htext, h.pieces_text hnil, List.map_map]
      simp [Function.comp_def]

end Path

/-! ### Reads that fail -/

/-- Why the path of a text cannot be read in a scope, and the error that says so. -/
inductive Unread (env : Surroundings) (text : String) : Option Value → EvalError → Prop
  | scope {v : Value} (h : v.get? (Path.ofText text) = none) :
    Unread env text (some v) (.undefinedField text)
  | document {m : Message} {json : Json} (hm : env.batch.get? env.index = some m)
      (hjson : Json.ofBytes m.content.toList = .ok json)
      (h : (Value.ofJson json).get? (Path.ofText text) = none) :
    Unread env text none (.undefinedField text)
  | content {m : Message} {fault : Json.Fault} (hm : env.batch.get? env.index = some m)
      (h : Json.ofBytes m.content.toList = .error fault) :
    Unread env text none (.invalidDocument fault)
  | message (h : env.batch.get? env.index = none) :
    Unread env text none (.undefinedMessage env.index)

theorem Value.read_eq_error_iff {v : Value} {text : String} {err : EvalError} :
    v.read (Path.ofText text) = .error err ↔
      v.get? (Path.ofText text) = none ∧ err = .undefinedField text := by
  unfold Value.read
  cases v.get? (Path.ofText text) with
  | none => simp [Path.text_ofText, eq_comm]
  | some w => simp

namespace Surroundings

variable {env : Surroundings} {path : Path} {text : String} {err : EvalError}

theorem field_none_of_missing (h : env.batch.get? env.index = none) :
    env.field path none = .error (.undefinedMessage env.index) := by
  rw [field_none, Batch.message, h]
  rfl

theorem field_none_of_message {m : Message} (hm : env.batch.get? env.index = some m) :
    env.field path none =
      match Json.ofBytes m.content.toList with
      | .ok json => (Value.ofJson json).read path
      | .error fault => .error (.invalidDocument fault) := by
  rw [field_none, Batch.message, hm]
  show m.readDocument >>= _ = _
  rw [Message.readDocument, m.document_eq]
  cases Json.ofBytes m.content.toList <;> rfl

theorem field_none_eq_error_iff :
    env.field (Path.ofText text) none = .error err ↔ Unread env text none err := by
  constructor
  · intro h
    cases hm : env.batch.get? env.index with
    | none =>
      rw [field_none_of_missing hm] at h
      obtain rfl := Except.error.inj h
      exact .message hm
    | some m =>
      rw [field_none_of_message hm] at h
      cases hjson : Json.ofBytes m.content.toList with
      | error fault =>
        rw [hjson] at h
        obtain rfl := Except.error.inj h
        exact .content hm hjson
      | ok json =>
        rw [hjson] at h
        obtain ⟨hnone, rfl⟩ := Value.read_eq_error_iff.1 h
        exact .document hm hjson hnone
  · intro h
    cases h with
    | document hm hjson h =>
      rw [field_none_of_message hm, hjson]
      exact Value.read_eq_error_iff.2 ⟨h, rfl⟩
    | content hm h => rw [field_none_of_message hm, h]
    | message h => exact field_none_of_missing h

theorem field_eq_error_iff {s : Option Value} :
    env.field (Path.ofText text) s = .error err ↔ Unread env text s err := by
  cases s with
  | none => exact field_none_eq_error_iff
  | some v =>
    rw [field_some, Value.read_eq_error_iff]
    constructor
    · rintro ⟨h, rfl⟩
      exact .scope h
    · rintro ⟨h⟩
      exact ⟨h, rfl⟩

end Surroundings

namespace Path

/-- A path leads on from where the one before it ends. A text is written back from its path, so a
read that fails for the path names the text; with a dot between them, texts that are not empty read
as their paths one after the other; and a path without dots in its segments is read from its text,
unless it is one empty segment. -/
theorem dotted_laws {ν : Type} :
    (∀ (v : Value) (path rest : Path),
      v.get? (path ++ rest) = (v.get? path).bind fun w => w.get? rest) ∧
    (∀ text, (ofText text).text = text) ∧
    (∀ (env : Surroundings) (call : ν → Scoped Value) (text : String) (s : Option Value)
        (err : EvalError),
      (Expr.eval env call (.field (ofText text)) s = .error err ↔ Unread env text s err) ∧
      (Expr.eval env call (.document (ofText text)) s = .error err ↔ Unread env text none err)) ∧
    (∀ text rest, ofText (text ++ "." ++ rest) = ofText text ++ ofText rest ↔
      text ≠ "" ∧ rest ≠ "") ∧
    ∀ path, ofText path.text = path ↔ path.DotFree ∧ path ≠ [""] := by
  refine ⟨Value.get?_append, text_ofText, fun env call text s err => ⟨?_, ?_⟩,
    ofText_append_dot_iff, ofText_text_iff⟩
  · rw [Expr.eval]
    exact Surroundings.field_eq_error_iff
  · -- a document is read like a field without a scope, whatever the scope is
    rw [Expr.eval, Scoped.lift_apply]
    exact Surroundings.field_none_eq_error_iff

/-- A read that fails need not have looked at its path: without a message there is no document. -/
theorem failed_read_names_no_path :
    let env : Surroundings := ⟨⟨[]⟩, 0, []⟩
    let call : String → Scoped Value := fun name => throw (.undefinedMap name)
    Expr.eval env call (.field (ofText "a")) none = .error (.undefinedMessage 0) ∧
      Expr.eval env call (.document (ofText "a")) none = .error (.undefinedMessage 0) ∧
      EvalError.undefinedMessage 0 ≠ .undefinedField "a" :=
  ⟨rfl, rfl, by decide⟩

end Path

end MessageMapping
