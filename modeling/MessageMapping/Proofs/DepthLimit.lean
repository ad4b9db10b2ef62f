import MessageMapping.Proofs.Nesting

/-!
# The depth limit of the reader

Every value that the reader holds, with the containers that are open around its place, nests no
deeper than the limit; so does the value of a text that is read. A reader without the limit, which
opens containers at any depth, says what a text stands for that nests too deep: the limited reader
agrees with it or refuses the text as malformed.
-/

namespace MessageMapping

namespace Json

/-! ### Depth of values -/

theorem itemsDepth_le_iff {n : Nat} {items : List Json} :
    itemsDepth items ≤ n ↔ ∀ item ∈ items, item.depth ≤ n := by
  induction items with
  | nil => simp [itemsDepth]
  | cons item rest ih => rw [itemsDepth, max_le_iff, ih, List.forall_mem_cons]

theorem membersDepth_le_iff {n : Nat} {members : Entries Json} :
    membersDepth members ≤ n ↔ ∀ member ∈ members, member.2.depth ≤ n := by
  induction members with
  | nil => simp [membersDepth]
  | cons member rest ih => rw [membersDepth, max_le_iff, ih, List.forall_mem_cons]

theorem itemsDepth_reverse (items : List Json) : itemsDepth items.reverse = itemsDepth items :=
  eq_of_forall_ge_iff fun n => by simp only [itemsDepth_le_iff, List.mem_reverse]

theorem membersDepth_set_le (key : String) (value : Json) (members : Entries Json) :
    membersDepth (members.set key value) ≤ max value.depth (membersDepth members) := by
  refine membersDepth_le_iff.2 fun member hmember => ?_
  rcases Entries.mem_of_mem_set hmember with rfl | hmember
  · exact le_max_left _ _
  · exact le_max_of_le_right (membersDepth_le_iff.1 le_rfl member hmember)

/-! ### Values inside of open containers -/

/-- No value among the items and members is too deep for its place. -/
def Context.Fits : Context → Prop
  | .top => True
  | .item items outer => itemsDepth items + outer.depth + 1 ≤ maxDepth ∧ outer.Fits
  | .member members _ outer => membersDepth members + outer.depth + 1 ≤ maxDepth ∧ outer.Fits

def Place.Fits : Place → Prop
  | .value context => context.Fits
  | .key members outer => (Context.member members "" outer).Fits

/-- No value that is held is too deep for its place. -/
def State.Fits : State → Prop
  | .value context | .numeral _ context => context.Fits
  | .word _ _ read context => read.depth = 0 ∧ context.Fits
  | .string _ _ place => place.Fits
  | .firstItem outer => (Context.item [] outer).Fits
  | .afterItem items outer => (Context.item items outer).Fits
  | .firstKey outer => (Context.member [] "" outer).Fits
  | .key members outer | .colon members _ outer | .afterMember members outer =>
    (Context.member members "" outer).Fits
  | .done read => read.depth ≤ maxDepth

namespace Context

variable {byte : UInt8} {context : Context} {s s' : State} {value : Json}

theorem Fits.depth_le (h : context.Fits) : context.depth ≤ maxDepth := by
  cases context with
  | top => exact Nat.zero_le _
  | item items outer | member members key outer =>
    have houter := h.1
    rw [depth]
    omega

theorem Fits.fill (h : context.Fits) (hvalue : value.depth + context.depth ≤ maxDepth) :
    (context.fill value).Fits := by
  cases context with
  | top => exact hvalue
  | item items outer =>
    obtain ⟨hitems, houter⟩ := h
    rw [depth] at hvalue
    refine ⟨?_, houter⟩
    rw [itemsDepth]
    omega
  | member members key outer =>
    obtain ⟨hmembers, houter⟩ := h
    rw [depth] at hvalue
    have hset := membersDepth_set_le key value members
    exact ⟨by omega, houter⟩

/-- A value without containers fits everywhere. -/
theorem Fits.fill_flat (h : context.Fits) (hvalue : value.depth = 0) : (context.fill value).Fits :=
  h.fill (by rw [hvalue, Nat.zero_add]; exact h.depth_le)

theorem Fits.enter (hs : context.depth < maxDepth → s.Fits) (h : context.enter s = .ok s') :
    s'.Fits := by
  rw [Context.enter] at h
  split at h
  · rename_i hdepth
    obtain rfl := Except.ok.inj h
    exact hs hdepth
  · cases h

theorem Fits.start (hfits : context.Fits) (h : context.start byte = .ok s') : s'.Fits := by
  have hmember : context.depth < maxDepth → (member [] "" context).Fits := fun hdepth =>
    ⟨by rw [membersDepth]; omega, hfits⟩
  have hitem : context.depth < maxDepth → (item [] context).Fits := fun hdepth =>
    ⟨by rw [itemsDepth]; omega, hfits⟩
  rw [Context.start] at h
  split_ifs at h
  · exact Fits.enter (s := .firstKey context) hmember h
  · exact Fits.enter (s := .firstItem context) hitem h
  · obtain rfl := Except.ok.inj h
    exact hfits
  iterate 3
    · obtain rfl := Except.ok.inj h
      exact ⟨rfl, hfits⟩
  · split at h
    · obtain rfl := Except.ok.inj h
      exact hfits
    · cases h

end Context

/-! ### One step -/

section Strings

variable {byte : UInt8} {bytes : List UInt8} {place : Place} {s' : State}

theorem Place.Fits.closeQuote (hfits : place.Fits) (h : closeQuote bytes place = .ok s') :
    s'.Fits := by
  rw [Json.closeQuote.eq_def] at h
  split at h
  · obtain rfl := Except.ok.inj h
    exact Context.Fits.fill_flat hfits rfl
  · obtain rfl := Except.ok.inj h
    exact hfits
  · cases h

theorem Place.Fits.unitEnd {high : Option Nat} {unit : Nat} (hfits : place.Fits)
    (h : unitEnd bytes place high unit = .ok s') : s'.Fits := by
  cases high with
  | none =>
    simp only [Json.unitEnd] at h
    split_ifs at h
    all_goals
      obtain rfl := Except.ok.inj h
      exact hfits
  | some high =>
    simp only [Json.unitEnd] at h
    split_ifs at h
    obtain rfl := Except.ok.inj h
    exact hfits

theorem Place.Fits.step {phase : StringPhase} (hfits : place.Fits)
    (h : phase.step byte bytes place = .ok s') : s'.Fits := by
  cases phase with
  | plain =>
    rw [StringPhase.step] at h
    split_ifs at h
    · exact hfits.closeQuote h
    all_goals
      obtain rfl := Except.ok.inj h
      exact hfits
  | escape =>
    rw [StringPhase.step] at h
    split_ifs at h
    · obtain rfl := Except.ok.inj h
      exact hfits
    · split at h
      · obtain rfl := Except.ok.inj h
        exact hfits
      · cases h
  | unit high digits =>
    rw [StringPhase.step] at h
    split_ifs at h
    · obtain rfl := Except.ok.inj h
      exact hfits
    · split at h
      · exact hfits.unitEnd h
      · cases h
  | pair high | pairMark high =>
    rw [StringPhase.step] at h
    split_ifs at h
    obtain rfl := Except.ok.inj h
    exact hfits

end Strings

namespace State.Fits

variable {byte : UInt8} {s s' : State}

theorem punctuation (hfits : s.Fits) (h : s.punctuation byte = .ok s') : s'.Fits := by
  cases s with
  | value context => exact Context.Fits.start hfits h
  | firstItem outer =>
    rw [State.punctuation] at h
    split_ifs at h
    · obtain rfl := Except.ok.inj h
      exact hfits.2.fill (by simpa [Json.depth, Nat.add_right_comm] using hfits.1)
    · exact Context.Fits.start hfits h
  | firstKey outer =>
    rw [State.punctuation] at h
    split_ifs at h
    · obtain rfl := Except.ok.inj h
      exact hfits.2.fill (by simpa [Json.depth, Nat.add_right_comm] using hfits.1)
    · obtain rfl := Except.ok.inj h
      exact hfits
  | afterItem items outer =>
    rw [State.punctuation] at h
    split_ifs at h
    · obtain rfl := Except.ok.inj h
      exact hfits
    · obtain rfl := Except.ok.inj h
      refine hfits.2.fill ?_
      rw [Json.depth, itemsDepth_reverse, Nat.add_right_comm]
      exact hfits.1
  | afterMember members outer =>
    rw [State.punctuation] at h
    split_ifs at h
    · obtain rfl := Except.ok.inj h
      exact hfits
    · obtain rfl := Except.ok.inj h
      refine hfits.2.fill ?_
      rw [Json.depth, Nat.add_right_comm]
      exact hfits.1
  | key members outer | colon members name outer =>
    rw [State.punctuation] at h
    split_ifs at h
    obtain rfl := Except.ok.inj h
    exact hfits
  | word | numeral | string | done => cases h

theorem between (hfits : s.Fits) (h : s.between byte = .ok s') : s'.Fits := by
  rw [State.between] at h
  split_ifs at h
  · obtain rfl := Except.ok.inj h
    exact hfits
  · exact hfits.punctuation h

theorem step (hfits : s.Fits) (h : s.step byte = .ok s') : s'.Fits := by
  cases s with
  | value | firstItem | firstKey | key | colon | afterItem | afterMember | done =>
    exact hfits.between h
  | word due rest read context =>
    simp only [State.step] at h
    split_ifs at h
    cases rest with
    | nil =>
      obtain rfl := Except.ok.inj h
      exact hfits.2.fill_flat hfits.1
    | cons next rest =>
      obtain rfl := Except.ok.inj h
      exact hfits
  | string bytes phase place => exact Place.Fits.step hfits h
  | numeral n context =>
    simp only [State.step] at h
    split at h
    · obtain rfl := Except.ok.inj h
      exact hfits
    · cases h
    · obtain ⟨number, -, h⟩ := bind_eq_ok.1 h
      have hfill : (context.fill (.number number)).Fits := Context.Fits.fill_flat hfits rfl
      exact hfill.between h

/-! ### Whole texts -/

theorem run {bytes : List UInt8} (hfits : s.Fits)
    (h : bytes.foldlM (fun state byte => State.step byte state) s = .ok s') : s'.Fits := by
  induction bytes generalizing s with
  | nil =>
    obtain rfl := Except.ok.inj h
    exact hfits
  | cons byte rest ih =>
    obtain ⟨t, ht, h⟩ := bind_eq_ok.1 h
    exact ih (hfits.step ht) h

theorem finish {json : Json} (hfits : s.Fits) (h : s.finish = .ok json) :
    json.depth ≤ maxDepth := by
  cases s with
  | done read =>
    obtain rfl := Except.ok.inj h
    exact hfits
  | numeral n context =>
    obtain ⟨number, -, h⟩ := bind_eq_ok.1 h
    cases context with
    | item | member => cases h
    | top =>
      obtain rfl := Except.ok.inj h
      exact Nat.zero_le _
  | _ => cases h

end State.Fits

/-- What is read from a text nests no deeper than the limit. -/
theorem depth_le_of_ofText {text : String} {json : Json} (h : ofText text = .ok json) :
    json.depth ≤ maxDepth := by
  obtain ⟨s, hs, hjson⟩ := bind_eq_ok.1 h
  exact (State.Fits.run (s := .value .top) trivial hs).finish hjson

/-! ### Reading without the limit -/

/-- The place of a value that may start here. -/
def State.opens? : State → Option Context
  | .value context => some context
  | .firstItem outer => some (.item [] outer)
  | _ => none

/-- The step of a reader that opens containers at any depth. -/
def State.stepFreely (byte : UInt8) (s : State) : Except Fault State :=
  match s.opens? with
  | some context =>
    if byte = 123 then .ok (.firstKey context)
    else if byte = 91 then .ok (.firstItem context)
    else s.step byte
  | none => s.step byte

/-- What a text stands for, however deep it nests. -/
def ofTextFreely (text : String) : Except Fault Json := do
  let s ← text.toUTF8.toList.foldlM (fun state byte => state.stepFreely byte) (State.value .top)
  s.finish

theorem Context.enter_eq_or (context : Context) (s : State) :
    context.enter s = .ok s ∨ context.enter s = .error .malformed := by
  rw [enter]
  split
  · exact .inl rfl
  · exact .inr rfl

theorem State.step_eq_or (byte : UInt8) (s : State) :
    s.step byte = s.stepFreely byte ∨ s.step byte = .error .malformed := by
  rw [stepFreely]
  cases s with
  | value context =>
    simp only [opens?]
    split_ifs with hbrace hbracket
    · rw [hbrace]
      exact context.enter_eq_or (.firstKey context)
    · rw [hbracket]
      exact context.enter_eq_or (.firstItem context)
    · exact .inl rfl
  | firstItem outer =>
    simp only [opens?]
    split_ifs with hbrace hbracket
    · rw [hbrace]
      exact Context.enter_eq_or (.item [] outer) (.firstKey (.item [] outer))
    · rw [hbracket]
      exact Context.enter_eq_or (.item [] outer) (.firstItem (.item [] outer))
    · exact .inl rfl
  | _ => exact .inl rfl

theorem State.run_eq_or (bytes : List UInt8) (s : State) :
    bytes.foldlM (fun state byte => State.step byte state) s =
        bytes.foldlM (fun state byte => State.stepFreely byte state) s ∨
      bytes.foldlM (fun state byte => State.step byte state) s = .error .malformed := by
  induction bytes generalizing s with
  | nil => exact .inl rfl
  | cons byte rest ih =>
    rw [List.foldlM_cons, List.foldlM_cons]
    rcases s.step_eq_or byte with h | h
    · rw [h]
      cases s.stepFreely byte with
      | ok t => exact ih t
      | error fault => exact .inl rfl
    · rw [h]
      exact .inr rfl

theorem ofText_eq_or (text : String) :
    ofText text = ofTextFreely text ∨ ofText text = .error .malformed := by
  rw [ofText, ofBytes, ofTextFreely]
  rcases State.run_eq_or text.toUTF8.toList (.value .top) with h | h
  · rw [h]
    exact .inl rfl
  · rw [h]
    exact .inr rfl

/-- A text that stands for a value beyond the limit is refused. -/
theorem ofText_of_maxDepth_lt {text : String} {json : Json} (h : ofTextFreely text = .ok json)
    (hdepth : maxDepth < json.depth) : ofText text = .error .malformed := by
  refine (ofText_eq_or text).resolve_left fun heq => ?_
  rw [h] at heq
  exact absurd (depth_le_of_ofText heq) (Nat.not_le.2 hdepth)

end Json

end MessageMapping
