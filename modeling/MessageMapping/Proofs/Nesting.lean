import MessageMapping.Proofs.Building

/-!
# Texts inside of other texts

With more containers open around its start, the reader takes the same steps through a text, as long
as the containers outside and inside are not too many together. So a text that is read as a value is
read as that value where it is a member of an object.
-/

namespace MessageMapping

/-! ### Bytes of texts -/

theorem toList_loop (bytes : ByteArray) (i : Nat) (acc : List UInt8) :
    ByteArray.toList.loop bytes i acc = acc.reverse ++ bytes.data.toList.drop i := by
  fun_induction ByteArray.toList.loop bytes i acc with
  | case1 i acc hlt ih =>
    have hi : i < bytes.data.toList.length := by simpa using hlt
    rw [ih, List.drop_eq_getElem_cons hi, List.reverse_cons, List.append_assoc]
    congr 2
    simp [ByteArray.get!, getElem!_pos, hlt]
  | case2 i acc hge =>
    have hi : bytes.data.toList.length ≤ i := by simpa using hge
    rw [List.drop_eq_nil_of_le hi, List.append_nil]

theorem toUTF8_append (a b : String) :
    (a ++ b).toUTF8.toList = a.toUTF8.toList ++ b.toUTF8.toList := by
  simp [ByteArray.toList, toList_loop, String.toUTF8_eq_toByteArray]

/-- A complete numeral ends before a closing brace. -/
theorem Numeral.step_brace {n : Numeral} {number : Number} (h : n.value = .ok number) :
    n.phase.step 125 = .complete := by
  obtain ⟨negative, phase⟩ := n
  cases phase with
  | zero | whole | fraction | power => rfl
  | sign | point | mark | powerSign => cases h

namespace Json

/-! ### More containers around a state -/

/-- The context with all containers of `base` around it. -/
def Context.under (context base : Context) : Context :=
  match context with
  | .top => base
  | .item items outer => .item items (outer.under base)
  | .member members key outer => .member members key (outer.under base)

def Place.under (place : Place) (base : Context) : Place :=
  match place with
  | .value context => .value (context.under base)
  | .key members outer => .key members (outer.under base)

/-- The state with all containers of `base` around it; what is done at the top fills a place
there. -/
def State.under (state : State) (base : Context) : State :=
  match state with
  | .value context => .value (context.under base)
  | .firstItem outer => .firstItem (outer.under base)
  | .firstKey outer => .firstKey (outer.under base)
  | .key members outer => .key members (outer.under base)
  | .colon members name outer => .colon members name (outer.under base)
  | .afterItem items outer => .afterItem items (outer.under base)
  | .afterMember members outer => .afterMember members (outer.under base)
  | .word due rest read context => .word due rest read (context.under base)
  | .numeral n context => .numeral n (context.under base)
  | .string bytes phase place => .string bytes phase (place.under base)
  | .done read => base.fill read

/-- The number of open containers. -/
def State.depth : State → Nat
  | .value context | .word _ _ _ context | .numeral _ context
  | .string _ _ (.value context) => context.depth
  | .firstItem outer | .firstKey outer | .key _ outer | .colon _ _ outer | .afterItem _ outer
  | .afterMember _ outer | .string _ _ (.key _ outer) => outer.depth + 1
  | .done _ => 0

/-- The most containers that are open at once on the way through these bytes. -/
def State.deepest (state : State) : List UInt8 → Nat
  | [] => state.depth
  | byte :: rest =>
    match state.step byte with
    | .ok next => max state.depth (next.deepest rest)
    | .error _ => state.depth

/-- The most containers that are open at once in a text. -/
def nesting (text : String) : Nat :=
  (State.value .top).deepest text.toUTF8.toList

/-! ### One step -/

namespace Context

variable (base : Context)

theorem depth_under (context : Context) :
    (context.under base).depth = context.depth + base.depth := by
  induction context with
  | top => exact (Nat.zero_add _).symm
  | item items outer ih | member members key outer ih => simp only [under, depth, ih]; omega

theorem fill_under (value : Json) (context : Context) :
    (context.fill value).under base = (context.under base).fill value := by
  cases context <;> rfl

theorem step_fill (byte : UInt8) (value : Json) (context : Context) :
    (context.fill value).step byte = (context.fill value).between byte := by
  cases context <;> rfl

variable {base} {byte : UInt8} {context : Context} {s s' : State}

theorem enter_under (h : context.enter s = .ok s') (hs : s.depth = context.depth + 1)
    (hdepth : s'.depth + base.depth ≤ maxDepth) :
    (context.under base).enter (s.under base) = .ok (s'.under base) := by
  rw [enter] at h
  split at h
  · obtain rfl := Except.ok.inj h
    rw [enter, depth_under, if_pos (by omega)]
  · cases h

theorem start_under (h : context.start byte = .ok s')
    (hdepth : s'.depth + base.depth ≤ maxDepth) :
    (context.under base).start byte = .ok (s'.under base) := by
  simp only [start] at h ⊢
  split_ifs at h ⊢
  · exact enter_under h rfl hdepth
  · exact enter_under h rfl hdepth
  iterate 4
    · obtain rfl := Except.ok.inj h
      rfl
  · cases hn : Numeral.start? byte with
    | none => simp [hn] at h
    | some n =>
      simp only [hn] at h ⊢
      obtain rfl := Except.ok.inj h
      rfl

end Context

namespace State

variable {base : Context} {byte : UInt8} {s s' : State}

theorem punctuation_under (h : s.punctuation byte = .ok s')
    (hdepth : s'.depth + base.depth ≤ maxDepth) :
    (s.under base).punctuation byte = .ok (s'.under base) := by
  cases s with
  | value context => exact Context.start_under h hdepth
  | firstItem outer =>
    rw [punctuation] at h
    rw [under, punctuation]
    split_ifs at h ⊢
    · obtain rfl := Except.ok.inj h
      rw [Context.fill_under]
    · exact @Context.start_under base byte (.item [] outer) s' h hdepth
  | firstKey outer =>
    rw [punctuation] at h
    rw [under, punctuation]
    split_ifs at h ⊢
    all_goals obtain rfl := Except.ok.inj h
    · rw [Context.fill_under]
    · rfl
  | afterItem items outer | afterMember members outer =>
    rw [punctuation] at h
    rw [under, punctuation]
    split_ifs at h ⊢
    all_goals obtain rfl := Except.ok.inj h
    · rfl
    · rw [Context.fill_under]
  | key members outer | colon members name outer =>
    rw [punctuation] at h
    rw [under, punctuation]
    split_ifs at h ⊢
    obtain rfl := Except.ok.inj h
    rfl
  | word | numeral | string | done => cases h

theorem between_under (h : s.between byte = .ok s')
    (hdepth : s'.depth + base.depth ≤ maxDepth) :
    (s.under base).between byte = .ok (s'.under base) := by
  rw [between] at h ⊢
  split_ifs at h ⊢
  · obtain rfl := Except.ok.inj h
    rfl
  · exact punctuation_under h hdepth

end State

section Strings

variable {base : Context} {byte : UInt8} {bytes : List UInt8} {place : Place} {s' : State}

theorem closeQuote_under (h : closeQuote bytes place = .ok s') :
    closeQuote bytes (place.under base) = .ok (s'.under base) := by
  simp only [closeQuote] at h ⊢
  cases htext : String.fromUTF8? ⟨bytes.reverse.toArray⟩ with
  | none => simp [htext] at h
  | some text =>
    rw [htext] at h
    cases place with
    | value context =>
      obtain rfl := Except.ok.inj h
      rw [Context.fill_under]
      rfl
    | key members outer =>
      obtain rfl := Except.ok.inj h
      rfl

theorem unitEnd_under {high : Option Nat} {unit : Nat}
    (h : unitEnd bytes place high unit = .ok s') :
    unitEnd bytes (place.under base) high unit = .ok (s'.under base) := by
  cases high with
  | none =>
    simp only [unitEnd] at h ⊢
    split_ifs at h ⊢
    all_goals
      obtain rfl := Except.ok.inj h
      rfl
  | some high =>
    simp only [unitEnd] at h ⊢
    split_ifs at h ⊢
    obtain rfl := Except.ok.inj h
    rfl

theorem StringPhase.step_under {phase : StringPhase} (h : phase.step byte bytes place = .ok s') :
    phase.step byte bytes (place.under base) = .ok (s'.under base) := by
  cases phase with
  | plain =>
    simp only [step] at h ⊢
    split_ifs at h ⊢
    · exact closeQuote_under h
    all_goals
      obtain rfl := Except.ok.inj h
      rfl
  | escape =>
    simp only [step] at h ⊢
    split_ifs at h ⊢
    · obtain rfl := Except.ok.inj h
      rfl
    · cases hmeant : escaped? byte with
      | none => simp [hmeant] at h
      | some meant =>
        simp only [hmeant] at h ⊢
        obtain rfl := Except.ok.inj h
        rfl
  | unit high digits =>
    simp only [step] at h ⊢
    split_ifs at h ⊢
    · obtain rfl := Except.ok.inj h
      rfl
    · cases hcode : hexNumber? (byte :: digits) with
      | none => simp [hcode] at h
      | some code =>
        simp only [hcode] at h ⊢
        exact unitEnd_under h
  | pair high | pairMark high =>
    simp only [step] at h ⊢
    split_ifs at h ⊢
    obtain rfl := Except.ok.inj h
    rfl

end Strings

namespace State

variable {base : Context} {byte : UInt8} {s s' : State}

theorem step_under (h : s.step byte = .ok s') (hdepth : s'.depth + base.depth ≤ maxDepth) :
    (s.under base).step byte = .ok (s'.under base) := by
  cases s with
  | value | firstItem | firstKey | key | colon | afterItem | afterMember =>
    exact between_under h hdepth
  | done read =>
    -- white space is all that may follow, and it may follow in any container too
    rw [under, Context.step_fill]
    exact between_under (s := .done read) h hdepth
  | word due rest read context =>
    rw [under]
    simp only [step] at h ⊢
    split_ifs at h ⊢
    cases rest with
    | nil =>
      obtain rfl := Except.ok.inj h
      rw [Context.fill_under]
    | cons next rest =>
      obtain rfl := Except.ok.inj h
      rfl
  | string bytes phase place => exact StringPhase.step_under h
  | numeral n context =>
    simp only [step, under] at h ⊢
    cases hstep : n.phase.step byte with
    | more phase =>
      rw [hstep] at h
      obtain rfl := Except.ok.inj h
      rfl
    | malformed => simp [hstep] at h
    | complete =>
      simp only [hstep] at h ⊢
      obtain ⟨read, hread, h⟩ := bind_eq_ok.1 h
      rw [hread]
      have hfill := between_under h hdepth
      rwa [Context.fill_under] at hfill

/-! ### Whole texts -/

theorem depth_le_deepest (s : State) (bytes : List UInt8) : s.depth ≤ s.deepest bytes := by
  cases bytes with
  | nil => exact le_rfl
  | cons byte rest =>
    rw [deepest]
    split
    · exact le_max_left _ _
    · exact le_rfl

theorem run_under {bytes : List UInt8}
    (h : bytes.foldlM (fun state byte => state.step byte) s = .ok s')
    (hdepth : s.deepest bytes + base.depth ≤ maxDepth) :
    bytes.foldlM (fun state byte => state.step byte) (s.under base) = .ok (s'.under base) := by
  induction bytes generalizing s with
  | nil =>
    obtain rfl := Except.ok.inj h
    rfl
  | cons byte rest ih =>
    rw [List.foldlM_cons] at h ⊢
    obtain ⟨t, ht, h⟩ := bind_eq_ok.1 h
    have hdeepest : s.deepest (byte :: rest) = max s.depth (t.deepest rest) := by
      rw [deepest, ht]
    have hle := t.depth_le_deepest rest
    rw [step_under ht (show t.depth + base.depth ≤ maxDepth by omega)]
    exact ih h (by omega)

/-- Where a text may end, a closing brace may follow it in an object. -/
theorem step_brace {read : Json} (h : s.finish = .ok read) (members : Entries Json) (key : String)
    (outer : Context) :
    (s.under (.member members key outer)).step 125 =
      .ok (outer.fill (.object (members.set key read))) := by
  cases s with
  | done read' =>
    obtain rfl := Except.ok.inj h
    rfl
  | numeral n context =>
    obtain ⟨number, hnumber, h⟩ := bind_eq_ok.1 h
    cases context with
    | item | member => cases h
    | top =>
      obtain rfl := Except.ok.inj h
      rw [under, step, n.step_brace hnumber]
      simp only [hnumber]
      rfl
  | _ => cases h

end State

theorem ofBytes_member {bytes : List UInt8} {read : Json} (h : ofBytes bytes = .ok read)
    (hnesting : (State.value .top).deepest bytes < maxDepth) :
    ofBytes ("\x7b\"expr\":".toUTF8.toList ++ bytes ++ "\x7d".toUTF8.toList) =
      .ok (.object [("expr", read)]) := by
  obtain ⟨s, hs, hread⟩ := bind_eq_ok.1 h
  have hopen : "\x7b\"expr\":".toUTF8.toList.foldlM (fun state byte => State.step byte state)
      (State.value .top) = .ok (State.under (.value .top) (.member [] "expr" .top)) := by
    cbv
  have hclose : "\x7d".toUTF8.toList = [125] := by
    cbv
  have hdepth :
      (State.value .top).deepest bytes + (Context.member [] "expr" .top).depth ≤ maxDepth := by
    simp only [Context.depth]
    omega
  have hrun := State.run_under hs hdepth
  rw [ofBytes, List.foldlM_append, List.foldlM_append, hopen, hclose]
  refine bind_eq_ok.2 ⟨.done (.object [("expr", read)]), bind_eq_ok.2 ⟨_, hrun, ?_⟩, rfl⟩
  rw [List.foldlM_cons, State.step_brace hread]
  rfl

/-- A text that is read as a value is read as that value where it stands as a member, if its
containers with the one around it are not too many. -/
theorem ofText_member {text : String} {read : Json} (h : ofText text = .ok read)
    (hnesting : nesting text < maxDepth) :
    ofText ("\x7b\"expr\":" ++ text ++ "\x7d") = .ok (.object [("expr", read)]) := by
  rw [ofText, toUTF8_append, toUTF8_append]
  exact ofBytes_member h hnesting

end Json

end MessageMapping
