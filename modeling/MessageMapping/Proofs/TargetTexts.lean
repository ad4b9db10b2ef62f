import MessageMapping.Proofs.Building
import MessageMapping.Proofs.TargetOccurrences

/-!
# Texts of targets

A target is shown as its kind and its path with dots between the segments. The paths of values are
made from texts that are split at their dots, and matches only put such paths in front of others, so
their segments hold no dots. Metadata keys and names of variables may hold dots, but each of them is
a path by itself. Main result: targets like these (`Target.Regular`) can be told from their texts,
and expressions report no others.
-/

namespace MessageMapping

/-! ### Pieces between dots -/

namespace Path

theorem pieces_cons_dot (text : List Char) : pieces ('.' :: text) = [] :: pieces text := by
  obtain ⟨piece, rest, h⟩ := List.exists_cons_of_ne_nil (pieces_ne_nil text)
  rw [h, pieces, List.foldr_cons, ← pieces, h]
  rfl

theorem pieces_cons_of_ne {c : Char} (hc : c ≠ '.') {text piece : List Char}
    {rest : List (List Char)} (h : pieces text = piece :: rest) :
    pieces (c :: text) = (c :: piece) :: rest := by
  rw [pieces, List.foldr_cons, ← pieces, h]
  exact if_neg hc

theorem not_mem_pieces {text piece : List Char} (h : piece ∈ pieces text) : '.' ∉ piece := by
  induction text generalizing piece with
  | nil =>
    rw [List.mem_singleton.1 h]
    exact List.not_mem_nil
  | cons c text ih =>
    by_cases hc : c = '.'
    · rw [hc, pieces_cons_dot] at h
      rcases List.mem_cons.1 h with rfl | h
      · exact List.not_mem_nil
      · exact ih h
    · obtain ⟨first, rest, hpieces⟩ := List.exists_cons_of_ne_nil (pieces_ne_nil text)
      rw [pieces_cons_of_ne hc hpieces] at h
      rw [hpieces] at ih
      rcases List.mem_cons.1 h with rfl | h
      · rw [List.mem_cons, not_or]
        exact ⟨Ne.symm hc, ih List.mem_cons_self⟩
      · exact ih (List.mem_cons_of_mem _ h)

theorem pieces_of_not_mem {piece : List Char} (h : '.' ∉ piece) : pieces piece = [piece] := by
  induction piece with
  | nil => rfl
  | cons c piece ih =>
    rw [List.mem_cons, not_or] at h
    exact pieces_cons_of_ne (Ne.symm h.1) (ih h.2)

theorem pieces_append_dot (text rest : List Char) :
    pieces (text ++ '.' :: rest) = pieces text ++ pieces rest := by
  induction text with
  | nil => exact pieces_cons_dot rest
  | cons c text ih =>
    by_cases hc : c = '.'
    · rw [hc, List.cons_append, pieces_cons_dot, pieces_cons_dot, ih, List.cons_append]
    · obtain ⟨piece, found, hpieces⟩ := List.exists_cons_of_ne_nil (pieces_ne_nil text)
      rw [hpieces] at ih
      rw [List.cons_append, pieces_cons_of_ne hc ih, pieces_cons_of_ne hc hpieces]
      rfl

/-- Pieces without dots are found again between the dots that join them. -/
theorem pieces_joined {found : List (List Char)} (hne : found ≠ [])
    (h : ∀ piece ∈ found, '.' ∉ piece) : pieces (joined found) = found := by
  induction found with
  | nil => exact absurd rfl hne
  | cons piece rest ih =>
    obtain ⟨hpiece, hrest⟩ := List.forall_mem_cons.1 h
    cases rest with
    | nil => exact pieces_of_not_mem hpiece
    | cons next rest =>
      show pieces (piece ++ '.' :: joined (next :: rest)) = _
      rw [pieces_append_dot, pieces_of_not_mem hpiece, ih (List.cons_ne_nil _ _) hrest,
        List.singleton_append]

theorem text_singleton (segment : String) : Path.text [segment] = segment := by
  simp [Path.text, joined]

/-- No segment holds a dot. -/
def DotFree (path : Path) : Prop :=
  ∀ segment ∈ path, '.' ∉ segment.toList

theorem DotFree.nil : DotFree [] :=
  List.forall_mem_nil _

theorem Dotted.dotFree {path : Path} (h : path.Dotted) : path.DotFree := by
  obtain ⟨text, rfl⟩ := h
  unfold ofText
  split
  · exact .nil
  · intro segment hsegment
    obtain ⟨piece, hpiece, rfl⟩ := List.mem_map.1 hsegment
    rw [String.toList_ofList]
    exact not_mem_pieces hpiece

theorem DotFree.append {base path : Path} (hbase : base.DotFree) (h : path.DotFree) :
    DotFree (base ++ path) :=
  fun segment hsegment => (List.mem_append.1 hsegment).elim (hbase segment) (h segment)

theorem DotFree.pieces_text {path : Path} (h : path.DotFree) (hne : path ≠ []) :
    pieces path.text.toList = path.map String.toList := by
  rw [Path.text, String.toList_ofList]
  exact pieces_joined (mt List.map_eq_nil_iff.1 hne) (List.forall_mem_map.2 h)

/-- The empty path and the path of one empty segment have the same text, so neither may be empty. -/
theorem DotFree.eq_of_text {path other : Path} (h : path.DotFree) (hother : other.DotFree)
    (hne : path ≠ []) (hne' : other ≠ []) (htext : path.text = other.text) : path = other := by
  refine List.map_injective_iff.2 (fun _ _ => String.toList_inj.1) ?_
  rw [← h.pieces_text hne, htext, hother.pieces_text hne']

end Path

/-! ### Targets -/

namespace Target

/-- What a target of an expression looks like. -/
inductive Regular : Target → Prop
  | value {path : Path} (h : path.DotFree) : Regular ⟨.value, path⟩
  | allMetadata : Regular ⟨.metadata, []⟩
  | metadata {key : String} (h : key ≠ "") : Regular ⟨.metadata, [key]⟩
  | var (name : String) : Regular ⟨.variable, [name]⟩

theorem Regular.rescope {t : Target} (h : t.Regular) {base : Path} (hbase : base.DotFree) :
    (t.rescope base).Regular := by
  cases h with
  | value h => exact .value (hbase.append h)
  | allMetadata => exact .allMetadata
  | metadata h => exact .metadata h
  | var name => exact .var name

/-- What follows the kind in the text of a target. -/
def tail (t : Target) : List Char :=
  if t.path = [] then [] else ' ' :: t.path.text.toList

theorem toList_text (t : Target) : t.text.toList = t.kind.name.toList ++ t.tail := by
  unfold text tail
  cases t.path <;> simp

theorem not_mem_name (kind : TargetKind) : ' ' ∉ kind.name.toList := by
  cases kind <;> decide

theorem name_injective {kind other : TargetKind} (h : kind.name = other.name) : kind = other := by
  cases kind <;> cases other <;> simp_all [TargetKind.name]

/-- A longer name would have the space in it that the text of the shorter one goes on with. -/
theorem eq_nil_of_tail {t u : Target} {rest : List Char}
    (hname : u.kind.name.toList = t.kind.name.toList ++ rest) (htail : t.tail = rest ++ u.tail) :
    rest = [] := by
  cases rest with
  | nil => rfl
  | cons c rest =>
    rw [tail] at htail
    split at htail
    · cases htail
    · obtain rfl := (List.cons.inj htail).1
      exact absurd (hname ▸ by simp) (not_mem_name u.kind)

theorem kind_eq_of_text {t u : Target} (h : t.text = u.text) :
    t.kind = u.kind ∧ t.tail = u.tail := by
  have hlist := congrArg String.toList h
  rw [toList_text, toList_text] at hlist
  rcases List.append_eq_append_iff.1 hlist with ⟨rest, hname, htail⟩ | ⟨rest, hname, htail⟩
  all_goals
    obtain rfl := eq_nil_of_tail hname htail
    rw [List.append_nil] at hname
  · exact ⟨name_injective (String.toList_inj.1 hname.symm), htail⟩
  · exact ⟨name_injective (String.toList_inj.1 hname), htail.symm⟩

theorem path_of_tail {t u : Target} (h : t.tail = u.tail) :
    (t.path = [] ↔ u.path = []) ∧ t.path.text = u.path.text := by
  unfold tail at h
  split_ifs at h with ht hu hu
  · rw [ht, hu]
    exact ⟨Iff.rfl, rfl⟩
  · exact ⟨iff_of_false ht hu, String.toList_inj.1 (List.cons.inj h).2⟩

theorem Regular.eq_of_text {t u : Target} (ht : t.Regular) (hu : u.Regular)
    (h : t.text = u.text) : t = u := by
  obtain ⟨hkind, htail⟩ := kind_eq_of_text h
  obtain ⟨hnil, htext⟩ := path_of_tail htail
  cases ht with
  | @value path ht =>
    cases hu with
    | @value other hu =>
      by_cases hne : path = []
      · obtain rfl : other = [] := hnil.1 hne
        rw [hne]
      · rw [ht.eq_of_text hu hne (mt hnil.2 hne) htext]
    | _ => cases hkind
  | allMetadata =>
    cases hu with
    | allMetadata => rfl
    | metadata => cases htail
    | _ => cases hkind
  | metadata =>
    cases hu with
    | allMetadata => cases htail
    | metadata =>
      rw [Path.text_singleton, Path.text_singleton] at htext
      rw [htext]
    | _ => cases hkind
  | var =>
    cases hu with
    | var =>
      rw [Path.text_singleton, Path.text_singleton] at htext
      rw [htext]
    | _ => cases hkind

theorem eq_of_map_text {ts us : List Target} (hts : ∀ t ∈ ts, t.Regular)
    (hus : ∀ u ∈ us, u.Regular) (h : ts.map text = us.map text) : ts = us := by
  induction ts generalizing us with
  | nil => exact (List.map_eq_nil_iff.1 h.symm).symm
  | cons t ts ih =>
    cases us with
    | nil => cases h
    | cons u us =>
      obtain ⟨ht, hts⟩ := List.forall_mem_cons.1 hts
      obtain ⟨hu, hus⟩ := List.forall_mem_cons.1 hus
      obtain ⟨htext, h⟩ := List.cons.inj h
      rw [ht.eq_of_text hu htext, ih hts hus h]

end Target

/-! ### Targets of expressions -/

namespace Expr

variable {ν : Type u} {e x : Expr ν} {base : Path} {t : Target}

/-- Only the context of a match has a path that comes in front of what other branches report. -/
theorem base_of_branch {b : Branch ν} (hb : b ∈ e.branches) :
    b.base = [] ∨ ∃ context, Within context e ∧ b.base = context.base := by
  cases e with
  | switch context cases =>
    cases context with
    | none =>
      exact .inl ((forall_caseBranches (P := fun b => b.base = [])).2
        (fun _ _ => ⟨rfl, rfl⟩) b hb)
    | some context =>
      rcases List.mem_append.1 hb with hb | hb
      · exact .inr ⟨context, by simp [Within.refl],
          (forall_caseBranches (P := fun b => b.base = context.base)).2
            (fun _ _ => ⟨rfl, rfl⟩) b hb⟩
      · rw [List.mem_singleton.1 hb]
        exact .inl rfl
  | _ => grind [branches]

theorem Dotted.dotFree_base (he : e.Dotted) (hx : Within x e) : x.base.DotFree := by
  cases x with
  | field path => exact (he path (.inl hx)).dotFree
  | document path => exact (he path (.inr hx)).dotFree
  | _ => exact Path.DotFree.nil

theorem Dotted.branch (he : e.Dotted) {b : Branch ν} (hb : b ∈ e.branches) : b.expr.Dotted :=
  fun path h => he path (h.imp (Within.branch hb) (Within.branch hb))

theorem Dotted.dotFree_branch (he : e.Dotted) {b : Branch ν} (hb : b ∈ e.branches) :
    b.base.DotFree := by
  rcases base_of_branch hb with hbase | ⟨context, hcontext, hbase⟩
  · rw [hbase]
    exact Path.DotFree.nil
  · rw [hbase]
    exact he.dotFree_base hcontext

theorem Occurs.dotFree (h : Occurs x base e) (he : e.Dotted) : base.DotFree := by
  induction h with
  | self => exact Path.DotFree.nil
  | branch hb _ ih => exact (he.dotFree_branch hb).append (ih (he.branch hb))

theorem regular_of_mem_targets (he : e.Dotted) (ht : t ∈ e.targets) : t.Regular := by
  obtain ⟨x, base, hx, u, hu, rfl⟩ := mem_targets_iff.1 ht
  refine Target.Regular.rescope ?_ (hx.dotFree he)
  cases x with
  | field path =>
    rw [List.mem_singleton.1 hu]
    exact .value (he path (.inl hx.within)).dotFree
  | document path =>
    rw [List.mem_singleton.1 hu]
    exact .value (he path (.inr hx.within)).dotFree
  | metadata key =>
    rw [List.mem_singleton.1 hu]
    split
    · exact .allMetadata
    · rename_i hkey
      exact .metadata (by simpa using hkey)
  | var name =>
    rw [List.mem_singleton.1 hu]
    exact .var name
  | _ => cases hu

/-- Targets of expressions whose paths were split at their dots can be told from their texts, and so
can lists of them. -/
theorem targets_unambiguous {e e' : Expr ν} (he : e.Dotted) (he' : e'.Dotted) :
    (∀ t ∈ e.targets, t.Regular) ∧
    (∀ t ∈ e.targets, ∀ u ∈ e'.targets, t.text = u.text → t = u) ∧
    (e.targets.map Target.text = e'.targets.map Target.text → e.targets = e'.targets) := by
  have hregular : ∀ t ∈ e.targets, t.Regular := fun t ht => regular_of_mem_targets he ht
  have hregular' : ∀ u ∈ e'.targets, u.Regular := fun u hu => regular_of_mem_targets he' hu
  exact ⟨hregular, fun t ht u hu h => (hregular t ht).eq_of_text (hregular' u hu) h,
    Target.eq_of_map_text hregular hregular'⟩

/-- A path that two matches put together from three texts, next to a key with a dot and a space and
a variable without a name. -/
theorem targets_unambiguous_nested :
    let e : Expr String := .switch (some (.field ["a", ""]))
      [⟨.metadata "k. v", .switch (some (.document ["b"])) [⟨.var "", .field []⟩]⟩]
    let e' : Expr String := .field ["a", "", "b"]
    e.Dotted ∧ e'.Dotted ∧
      e.targets.map Target.text =
        ["metadata k. v", "variable ", "value a..b", "value a..b", "value a."] ∧
      ∀ t ∈ e.targets, t.text = "value a..b" → t = ⟨.value, ["a", "", "b"]⟩ := by
  intro e e'
  have hpath : Path.Dotted ["a", "", "b"] := ⟨"a..b", by decide⟩
  have hpaths : Path.Dotted ["a", ""] ∧ Path.Dotted ["b"] ∧ Path.Dotted [] :=
    ⟨⟨"a.", by decide⟩, ⟨"b", by decide⟩, ⟨"", by decide⟩⟩
  have he : e.Dotted := by simp [Dotted, e, or_imp, forall_and, hpaths]
  have he' : e'.Dotted := by simp [Dotted, e', hpath]
  obtain ⟨-, htext, -⟩ := targets_unambiguous he he'
  exact ⟨he, he', by decide, fun t ht h => htext t ht _ (List.mem_singleton_self _) h⟩

end Expr

end MessageMapping
