import MessageMapping.Proofs.FirstFault

/-!
# The order in which named maps are built

Named maps are a table and have no order of their own, but they are built one after the other up to
the first fault. Whether a mapping can be built does not depend on their order, nor what it is then.
The error does: it is that of the first map with a fault, so it is one and the same in all orders
exactly if all faulty maps have one and the same fault.
-/

namespace MessageMapping

/-! ### Tables and rows in another order -/

namespace Entries

variable {α : Type} {entries entries' : Entries α}

theorem get?_eq_some_iff (hnames : (entries.map Prod.fst).Nodup) {key : String} {value : α} :
    entries.get? key = some value ↔ (key, value) ∈ entries :=
  ⟨mem_of_get?, get?_of_mem hnames⟩

theorem get?_perm (hnames : (entries.map Prod.fst).Nodup) (h : entries.Perm entries')
    (key : String) : entries.get? key = entries'.get? key := by
  have hnames' : (entries'.map Prod.fst).Nodup := (h.map Prod.fst).nodup_iff.1 hnames
  refine Option.ext fun value => ?_
  rw [get?_eq_some_iff hnames, get?_eq_some_iff hnames', h.mem_iff]

end Entries

section

variable {α β ε : Type} {as as' : List α}

theorem findSome?_eq_none_perm {f : α → Option β} (h : as.Perm as') :
    as.findSome? f = none ↔ as'.findSome? f = none := by
  simp only [List.findSome?_eq_none_iff, h.mem_iff]

/-- If all that is found is the same, it does not matter what is found first. -/
theorem findSome?_perm {f : α → Option β} (h : as.Perm as')
    (hsame : ∀ a ∈ as, ∀ a' ∈ as, ∀ b b', f a = some b → f a' = some b' → b = b') :
    as.findSome? f = as'.findSome? f := by
  cases hfound : as.findSome? f with
  | none => exact ((findSome?_eq_none_perm h).1 hfound).symm
  | some b =>
    cases hfound' : as'.findSome? f with
    | none =>
      rw [(findSome?_eq_none_perm h).2 hfound'] at hfound
      cases hfound
    | some b' =>
      obtain ⟨a, ha, hb⟩ := List.exists_of_findSome?_eq_some hfound
      obtain ⟨a', ha', hb'⟩ := List.exists_of_findSome?_eq_some hfound'
      rw [hsame a ha a' (h.mem_iff.2 ha') b b' hb hb']

theorem mapM_perm {f : α → Except ε β} {bs : List β} (h : as.Perm as')
    (hbs : as.mapM f = .ok bs) : ∃ bs', as'.mapM f = .ok bs' ∧ bs.Perm bs' := by
  obtain ⟨bs', hall, hperm⟩ := List.perm_comp_forall₂ h.symm (forall₂_of_mapM hbs)
  exact ⟨bs', mapM_of_forall₂ hall fun _ _ _ hb => hb, hperm.symm⟩

end

/-! ### Faults of maps -/

/-- The fault that building a definition meets first. -/
def Definition.fault? (d : Definition) : Option BuildError :=
  (d.visits 0).findSome? Visit.fault?

theorem Definition.reports_build (d : Definition) : Reports d.build d.fault? :=
  reports_buildAt 0 d

namespace Mapping

theorem reports_ofDefinition (d : MappingDefinition) :
    Reports (ofDefinition d) ((d.maps.findSome? fun p => p.2.fault?).or d.expr.fault?) := by
  have hmaps : Reports (d.maps.mapM fun p => do return (p.1, ← p.2.build))
      (d.maps.findSome? fun p => p.2.fault?) :=
    .mapM fun p _ => p.2.reports_build.last fun _ => .ok _
  exact hmaps.bind fun _ _ => d.expr.reports_build.last fun _ => .ok _

/-- Two mappings that have the same maps by name and the same root, or the same error. -/
inductive SameOutcome : Except BuildError Mapping → Except BuildError Mapping → Prop
  | ok {m m' : Mapping} (maps : ∀ name, m.maps.get? name = m'.maps.get? name)
    (root : m.root = m'.root) : SameOutcome (.ok m) (.ok m')
  | error (e : BuildError) : SameOutcome (.error e) (.error e)

theorem SameOutcome.symm {x y : Except BuildError Mapping} (h : SameOutcome x y) :
    SameOutcome y x := by
  cases h with
  | ok maps root => exact .ok (fun name => (maps name).symm) root.symm
  | error e => exact .error e

theorem SameOutcome.eq_error {x : Except BuildError Mapping} {e : BuildError}
    (h : SameOutcome x (.error e)) : x = .error e := by
  cases h
  rfl

/-- No two maps have different faults. -/
def FaultsAgree (maps : Entries Definition) : Prop :=
  ∀ p ∈ maps, ∀ q ∈ maps, ∀ e e', p.2.build = .error e → q.2.build = .error e' → e = e'

variable {d : MappingDefinition} {maps' : Entries Definition}

theorem map_fst_of_ofDefinition {m : Mapping} (h : ofDefinition d = .ok m) :
    m.maps.map Prod.fst = d.maps.map Prod.fst := by
  obtain ⟨maps, hmaps, h⟩ := bind_eq_ok.1 h
  obtain ⟨root, -, h⟩ := bind_eq_ok.1 h
  obtain rfl := Except.ok.inj h
  have hall : List.Forall₂ (· = ·) (maps.map Prod.fst) (d.maps.map Prod.fst) := by
    rw [List.forall₂_map_left_iff, List.forall₂_map_right_iff]
    refine ((forall₂_of_mapM hmaps).imp fun p q hq => ?_).flip
    obtain ⟨body, -, hq⟩ := bind_eq_ok.1 hq
    exact congrArg Prod.fst (Except.ok.inj hq).symm
  rwa [List.forall₂_eq_eq_eq] at hall

theorem ofDefinition_perm {m : Mapping} (hnames : (d.maps.map Prod.fst).Nodup)
    (hperm : d.maps.Perm maps') (h : ofDefinition d = .ok m) :
    SameOutcome (ofDefinition d) (ofDefinition { d with maps := maps' }) := by
  have hnames' : (m.maps.map Prod.fst).Nodup := by rwa [map_fst_of_ofDefinition h]
  rw [h]
  obtain ⟨maps, hmaps, h⟩ := bind_eq_ok.1 h
  obtain ⟨root, hroot, h⟩ := bind_eq_ok.1 h
  obtain rfl := Except.ok.inj h
  obtain ⟨built, hbuilt, hsame⟩ := mapM_perm hperm hmaps
  have h' : ofDefinition { d with maps := maps' } = .ok { maps := built, root } :=
    bind_eq_ok.2 ⟨built, hbuilt, bind_eq_ok.2 ⟨root, hroot, rfl⟩⟩
  rw [h']
  exact .ok (fun name => Entries.get?_perm hnames' hsame name) rfl

theorem ofDefinition_error_iff (d : MappingDefinition) (e : BuildError) :
    ofDefinition d = .error e ↔
      (∃ before p after, d.maps = before ++ p :: after ∧ p.2.build = .error e ∧
        ∀ q ∈ before, ∃ x, q.2.build = .ok x) ∨
      ((∀ q ∈ d.maps, ∃ x, q.2.build = .ok x) ∧ d.expr.build = .error e) := by
  have hbuild : ∀ q : String × Definition, (∃ x, q.2.build = .ok x) ↔ q.2.fault? = none :=
    fun q => q.2.reports_build.exists_ok_iff
  have herror : ∀ x : Definition, x.build = .error e ↔ x.fault? = some e :=
    fun x => x.reports_build e
  rw [reports_ofDefinition d e, Option.or_eq_some_iff, List.findSome?_eq_some_iff,
    List.findSome?_eq_none_iff]
  simp only [hbuild, herror]

/-- Every fault of a map is the error of some order, in which that map is the first. -/
theorem exists_order_of_error {p : String × Definition} {e : BuildError} (hp : p ∈ d.maps)
    (he : p.2.build = .error e) :
    ∃ maps', d.maps.Perm maps' ∧ ofDefinition { d with maps := maps' } = .error e := by
  obtain ⟨before, after, hmaps⟩ := List.append_of_mem hp
  refine ⟨p :: (before ++ after), ?_, ?_⟩
  · rw [hmaps]
    exact List.perm_middle
  · exact (ofDefinition_error_iff _ e).2 (.inl ⟨[], p, before ++ after, rfl, he, nofun⟩)

theorem ofDefinition_error_perm {e : BuildError} (hagree : FaultsAgree d.maps)
    (hperm : d.maps.Perm maps') (h : ofDefinition d = .error e) :
    ofDefinition { d with maps := maps' } = .error e := by
  have hsame : d.maps.findSome? (fun p => p.2.fault?) = maps'.findSome? fun p => p.2.fault? := by
    refine findSome?_perm hperm fun p hp q hq e e' he he' => ?_
    have hbuild := (p.2.reports_build e).2 he
    have hbuild' := (q.2.reports_build e').2 he'
    exact hagree p hp q hq e e' hbuild hbuild'
  have hfault := (reports_ofDefinition d e).1 h
  rw [hsame] at hfault
  exact (reports_ofDefinition _ e).2 hfault

theorem sameOutcome_iff (hnames : (d.maps.map Prod.fst).Nodup) :
    (∀ maps', d.maps.Perm maps' →
      SameOutcome (ofDefinition d) (ofDefinition { d with maps := maps' })) ↔
      FaultsAgree d.maps := by
  constructor
  · intro h p hp q hq e e' he he'
    obtain ⟨maps, hperm, herror⟩ := exists_order_of_error hp he
    obtain ⟨maps', hperm', herror'⟩ := exists_order_of_error hq he'
    have hsame := h maps hperm
    have hsame' := h maps' hperm'
    rw [herror] at hsame
    rw [herror'] at hsame'
    exact Except.error.inj (hsame.eq_error.symm.trans hsame'.eq_error)
  · intro hagree maps' hperm
    cases hd : ofDefinition d with
    | ok m => exact hd ▸ ofDefinition_perm hnames hperm hd
    | error e =>
      rw [ofDefinition_error_perm hagree hperm hd]
      exact .error e

/-- In all orders of its maps a mapping can be built or in none, and in all orders it is the same.
The error is that of the first faulty map, or that of the root if there is none, so it is the same in
all orders exactly if no two maps have different faults. -/
theorem ofDefinition_order (hnames : (d.maps.map Prod.fst).Nodup) :
    (∀ maps', d.maps.Perm maps' →
      (∃ m, ofDefinition d = .ok m) ∨ (∃ m, ofDefinition { d with maps := maps' } = .ok m) →
      SameOutcome (ofDefinition d) (ofDefinition { d with maps := maps' })) ∧
    (∀ e, ofDefinition d = .error e ↔
      (∃ before p after, d.maps = before ++ p :: after ∧ p.2.build = .error e ∧
        ∀ q ∈ before, ∃ x, q.2.build = .ok x) ∨
      ((∀ q ∈ d.maps, ∃ x, q.2.build = .ok x) ∧ d.expr.build = .error e)) ∧
    ((∀ maps', d.maps.Perm maps' →
      SameOutcome (ofDefinition d) (ofDefinition { d with maps := maps' })) ↔
      FaultsAgree d.maps) := by
  refine ⟨?_, ofDefinition_error_iff d, sameOutcome_iff hnames⟩
  rintro maps' hperm (⟨m, hm⟩ | ⟨m, hm⟩)
  · exact ofDefinition_perm hnames hperm hm
  · have hnames' : (maps'.map Prod.fst).Nodup := (hperm.map Prod.fst).nodup_iff.1 hnames
    exact (ofDefinition_perm hnames' hperm.symm hm).symm

/-- Two maps with one and the same fault around one that can be built. -/
theorem ofDefinition_order_reversed :
    let d : MappingDefinition :=
      { maps := [("a", .arithmetic [] []), ("b", .absent), ("c", .not (.arithmetic [] []))]
        expr := .apply "b" }
    (d.maps.map Prod.fst).Nodup ∧
      SameOutcome (ofDefinition d) (ofDefinition { d with maps := d.maps.reverse }) := by
  intro d
  have hnames : (d.maps.map Prod.fst).Nodup := by decide
  have hfault : ∀ p ∈ d.maps, ∀ e, p.2.build = .error e → e = .noOperands := by
    intro p hp e he
    obtain rfl | rfl | rfl : p = _ ∨ p = _ ∨ p = _ := by simpa [d] using hp
    · exact (Except.error.inj he).symm
    · cases he
    · exact (Except.error.inj he).symm
  have hagree : FaultsAgree d.maps := by
    intro p hp q hq e e' he he'
    rw [hfault p hp e he, hfault q hq e' he']
  obtain ⟨-, -, hiff⟩ := ofDefinition_order hnames
  exact ⟨hnames, hiff.2 hagree _ (List.reverse_perm _).symm⟩

/-- A row without operands and a row without room for its operator: the one that is built first is
reported. -/
theorem ofDefinition_order_matters :
    let d : MappingDefinition :=
      { maps := [("a", .arithmetic [] []), ("b", .arithmetic [.absent] [.add])]
        expr := .absent }
    let d' : MappingDefinition := { d with maps := d.maps.reverse }
    (d.maps.map Prod.fst).Nodup ∧ d.maps.Perm d'.maps ∧
      ofDefinition d = .error .noOperands ∧ ofDefinition d' = .error (.operatorMismatch 1 1) ∧
      ¬ SameOutcome (ofDefinition d) (ofDefinition d') := by
  intro d d'
  have hd : ofDefinition d = .error .noOperands := rfl
  have hd' : ofDefinition d' = .error (.operatorMismatch 1 1) := rfl
  refine ⟨by decide, (List.reverse_perm _).symm, hd, hd', fun h => ?_⟩
  rw [hd, hd'] at h
  cases h

end Mapping

end MessageMapping
