/-!
# Entries

Named entries in the order in which their names first appeared: object members, metadata,
variables and named maps. Setting a name that is already there replaces its value and keeps its
place, so names stay distinct.
-/

namespace MessageMapping

/-- Named entries, oldest name first. -/
abbrev Entries (α : Type u) :=
  List (String × α)

namespace Entries

variable {α : Type u}

/-- The value under a name. -/
def get? (key : String) : Entries α → Option α
  | [] => none
  | (name, value) :: rest => if name = key then some value else get? key rest

/-- Replaces the value under a name, or adds a new entry at the end. -/
def set (key : String) (value : α) : Entries α → Entries α
  | [] => [(key, value)]
  | (name, old) :: rest =>
    if name = key then (name, value) :: rest else (name, old) :: set key value rest

/-- Drops the entry under a name. -/
def erase (key : String) (entries : Entries α) : Entries α :=
  entries.filter fun entry => entry.1 ≠ key

/-- The entries set one after the other. -/
def ofList (pairs : List (String × α)) : Entries α :=
  pairs.foldl (fun entries pair => set pair.1 pair.2 entries) []

theorem get?_set_self (key : String) (value : α) (entries : Entries α) :
    get? key (set key value entries) = some value := by
  induction entries with
  | nil => simp [set, get?]
  | cons entry rest ih => by_cases h : entry.1 = key <;> simp [set, get?, h, ih]

theorem get?_set_of_ne {key other : String} (h : other ≠ key) (value : α)
    (entries : Entries α) :
    get? other (set key value entries) = get? other entries := by
  induction entries with
  | nil => simp [set, get?, h.symm]
  | cons entry rest ih =>
    by_cases hk : entry.1 = key
    · simp [set, get?, hk, h.symm]
    · simp [set, get?, hk, ih]

theorem mem_of_get? {key : String} {entries : Entries α} {value : α}
    (h : entries.get? key = some value) : (key, value) ∈ entries := by
  induction entries with
  | nil => simp [get?] at h
  | cons entry rest ih =>
    obtain ⟨name, v⟩ := entry
    rw [get?] at h
    split at h
    · obtain rfl := Option.some.inj h
      subst name
      exact List.mem_cons_self
    · exact List.mem_cons_of_mem _ (ih h)

theorem get?_eq_none {key : String} {entries : Entries α}
    (h : key ∉ entries.map Prod.fst) : entries.get? key = none := by
  induction entries with
  | nil => rfl
  | cons entry rest ih =>
    rw [List.map_cons, List.mem_cons, not_or] at h
    rw [get?, if_neg (Ne.symm h.1), ih h.2]

theorem get?_of_mem {key : String} {value : α} {entries : Entries α}
    (hnodup : (entries.map Prod.fst).Nodup) (h : (key, value) ∈ entries) :
    entries.get? key = some value := by
  induction entries with
  | nil => cases h
  | cons entry rest ih =>
    rw [List.map_cons, List.nodup_cons] at hnodup
    rcases List.mem_cons.1 h with rfl | h
    · exact if_pos rfl
    · have hne : entry.1 ≠ key := by
        rintro rfl
        exact hnodup.1 (List.mem_map.2 ⟨_, h, rfl⟩)
      rw [get?, if_neg hne, ih hnodup.2 h]

theorem mem_of_mem_set {key : String} {value : α} {entry : String × α} {entries : Entries α}
    (h : entry ∈ entries.set key value) : entry = (key, value) ∨ entry ∈ entries := by
  induction entries with
  | nil => exact .inl (List.mem_singleton.1 h)
  | cons old rest ih =>
    rw [set] at h
    split at h
    · rename_i hkey
      exact (List.mem_cons.1 h).imp (fun h => by rw [h, hkey]) (List.mem_cons_of_mem _)
    · rcases List.mem_cons.1 h with rfl | h
      · exact .inr List.mem_cons_self
      · exact (ih h).imp_right (List.mem_cons_of_mem _)

theorem mem_of_mem_foldl_set {entry : String × α} {pairs : List (String × α)}
    {entries : Entries α}
    (h : entry ∈ pairs.foldl (fun entries pair => set pair.1 pair.2 entries) entries) :
    entry ∈ entries ∨ entry ∈ pairs := by
  induction pairs generalizing entries with
  | nil => exact .inl h
  | cons pair pairs ih =>
    rcases ih h with h | h
    · rcases mem_of_mem_set h with rfl | h
      · exact .inr List.mem_cons_self
      · exact .inl h
    · exact .inr (List.mem_cons_of_mem _ h)

theorem mem_of_mem_ofList {entry : String × α} {pairs : List (String × α)}
    (h : entry ∈ ofList pairs) : entry ∈ pairs :=
  (mem_of_mem_foldl_set h).resolve_left List.not_mem_nil

end Entries

end MessageMapping
