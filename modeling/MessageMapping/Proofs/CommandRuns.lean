import MessageMapping.Command.Exec
import MessageMapping.Proofs.FirstFault
import MessageMapping.Proofs.RoundTrip

/-!
# Runs from arguments

A command fails with the first fault of the mapping, of the arguments or of the run, in this order
and with no other error. What a run reads is told from the pairs that the arguments split into: of
pairs with one name the last one counts (`Entries.last?`), but metadata as a whole stands in the
order in which the names first appeared. Main result: the outcome of a command, for every mapping
and all lists of arguments.
-/

namespace MessageMapping

/-! ### Pairs of names and values -/

namespace Entries

variable {α β : Type}

/-- The value of the last pair under a name. -/
def last? (key : String) (pairs : List (String × α)) : Option α :=
  (pairs.reverse.find? fun pair => pair.1 = key).map Prod.snd

theorem last?_append_singleton (key : String) (pairs : List (String × α)) (pair : String × α) :
    last? key (pairs ++ [pair]) = if pair.1 = key then some pair.2 else last? key pairs := by
  rw [last?, List.reverse_append, List.reverse_singleton, List.singleton_append, List.find?_cons]
  by_cases h : pair.1 = key <;> simp [h, last?]

theorem ofList_append_singleton (pairs : List (String × α)) (pair : String × α) :
    ofList (pairs ++ [pair]) = (ofList pairs).set pair.1 pair.2 := by
  rw [ofList, List.foldl_append]
  rfl

theorem get?_ofList (key : String) (pairs : List (String × α)) :
    (ofList pairs).get? key = last? key pairs := by
  induction pairs using List.reverseRecOn with
  | nil => rfl
  | append_singleton pairs pair ih =>
    rw [ofList_append_singleton, last?_append_singleton]
    split
    · rename_i h
      rw [← h, get?_set_self]
    · rename_i h
      rw [get?_set_of_ne (Ne.symm h), ih]

theorem map_fst_set (key : String) (value : α) (entries : Entries α) :
    (entries.set key value).map Prod.fst =
      if key ∈ entries.map Prod.fst then entries.map Prod.fst
      else entries.map Prod.fst ++ [key] := by
  induction entries with
  | nil => rfl
  | cons entry rest ih =>
    rw [set]
    by_cases h : entry.1 = key
    · simp [h]
    · simp only [if_neg h, List.map_cons, ih, List.mem_cons, Ne.symm h, false_or]
      split <;> rfl

/-- Names stand in the order in which they first appeared. -/
theorem map_fst_ofList (pairs : List (String × α)) :
    (ofList pairs).map Prod.fst = (pairs.map Prod.fst).eraseDups := by
  induction pairs using List.reverseRecOn with
  | nil => rfl
  | append_singleton pairs pair ih =>
    rw [ofList_append_singleton, map_fst_set, ih, List.map_append, List.eraseDups_append]
    by_cases h : pair.1 ∈ pairs.map Prod.fst <;> simp [h, List.removeAll, List.eraseDups_cons]

theorem get?_map (f : α → β) (key : String) (entries : Entries α) :
    Entries.get? key (entries.map fun entry => (entry.1, f entry.2)) =
      (entries.get? key).map f := by
  induction entries with
  | nil => rfl
  | cons entry rest ih =>
    rw [List.map_cons, get?, get?, ih]
    split <;> rfl

theorem last?_map (f : α → β) (key : String) (pairs : List (String × α)) :
    last? key (pairs.map fun pair => (pair.1, f pair.2)) = (last? key pairs).map f := by
  rw [last?, last?, ← List.map_reverse, List.find?_map, Option.map_map, Option.map_map]
  rfl

end Entries

/-! ### Arguments -/

/-- The argument is the name and the value with an equals sign between them, its first one. -/
def SplitsInto (argument : String) (pair : String × String) : Prop :=
  argument = pair.1 ++ "=" ++ pair.2 ∧ '=' ∉ pair.1.toList

theorem splitPair?_eq_none_iff {argument : String} :
    splitPair? argument = none ↔ '=' ∉ argument.toList := by
  have hnil : argument.toList.dropWhile (· ≠ '=') = [] ↔ '=' ∉ argument.toList := by
    simp only [List.dropWhile_eq_nil_iff, decide_eq_true_eq]
    exact ⟨fun h hmem => h _ hmem rfl, fun h c hc heq => h (heq ▸ hc)⟩
  rw [← hnil, splitPair?]
  split
  · rename_i h
    exact iff_of_true rfl h
  · rename_i h
    exact iff_of_false (Option.some_ne_none _) (by rw [h]; exact List.cons_ne_nil _ _)

theorem splitsInto_of_splitPair? {argument : String} {pair : String × String}
    (h : splitPair? argument = some pair) : SplitsInto argument pair := by
  rw [splitPair?] at h
  split at h
  · cases h
  · rename_i c value hdrop
    obtain rfl := Option.some.inj h
    have hc : c = '=' := by
      have hhead := List.head?_dropWhile_not (fun c => decide (c ≠ '=')) argument.toList
      rw [hdrop] at hhead
      simpa using hhead
    constructor
    · refine String.toList_inj.1 ?_
      have happend := List.takeWhile_append_dropWhile (p := (· ≠ '=')) (l := argument.toList)
      rw [hdrop, hc] at happend
      simpa using happend.symm
    · rw [String.toList_ofList]
      intro hmem
      simpa using List.mem_takeWhile_imp hmem

theorem readPair_eq_ok {argument : String} {pair : String × String}
    (h : readPair argument = .ok pair) : SplitsInto argument pair := by
  rw [readPair] at h
  split at h
  · rename_i hpair
    obtain rfl := Except.ok.inj h
    exact splitsInto_of_splitPair? hpair
  · cases h

theorem reports_readPair (argument : String) : Reports (readPair argument)
    ((Option.guard (fun a => '=' ∉ a.toList) argument).map .invalidPair) := by
  rw [readPair]
  split
  · rename_i hpair
    have hmem : '=' ∈ argument.toList := by
      by_contra hmem
      rw [splitPair?_eq_none_iff.2 hmem] at hpair
      cases hpair
    simpa [Option.guard, hmem] using Reports.ok _
  · rename_i hpair
    simpa [Option.guard, splitPair?_eq_none_iff.1 hpair] using Reports.error _

/-- What the text of a variable stands for. -/
inductive StandsFor : String → Value → Prop
  | json {text : String} {json : Json} (h : Json.ofText text = .ok json) :
    StandsFor text (Value.ofJson json)
  | text {text : String} {fault : Json.Fault} (h : Json.ofText text = .error fault) :
    StandsFor text (.string text)

theorem standsFor_variableValue (text : String) : StandsFor text (variableValue text) := by
  rw [variableValue]
  cases h : Json.ofText text with
  | ok json => exact .json h
  | error fault => exact .text h

namespace ExecOptions

/-- The first argument that does not split, of the metadata and then of the variables. -/
def unsplit? (options : ExecOptions) : Option String :=
  (options.metadata ++ options.vars).find? fun argument => '=' ∉ argument.toList

theorem reports_surroundings (options : ExecOptions) :
    Reports options.surroundings (options.unsplit?.map .invalidPair) := by
  rw [unsplit?, List.find?_eq_findSome?_guard, List.map_findSome?, List.findSome?_append]
  exact (Reports.mapM fun argument _ => reports_readPair argument).bind fun _ _ =>
    (Reports.mapM fun argument _ => reports_readPair argument).last fun _ => .ok _

/-- What a run can read: one message with the input as its content and the metadata of these pairs,
and the variables of those. -/
structure Presents (options : ExecOptions) (metadata vars : List (String × String))
    (env : Surroundings) : Prop where
  index : env.index = 0
  message : ∃ m, env.batch.messages = [m] ∧ m.content = (options.input.getD "").toUTF8
  metadata : ∃ members, env.batch.metadata 0 "" = .ok (.object members) ∧
    members.map Prod.fst = (metadata.map Prod.fst).eraseDups ∧
    (∀ key, Entries.get? key members = (Entries.last? key metadata).map .string) ∧
    ∀ key, key ≠ "" → env.batch.metadata 0 key =
      match Entries.get? key members with
      | some v => .ok v
      | none => .error (.undefinedMetadata key)
  vars : ∀ name, match Entries.last? name vars with
    | some text => ∃ v, StandsFor text v ∧ env.var name = .ok v
    | none => env.var name = .error (.undefinedVariable name)

theorem presents_of_surroundings {options : ExecOptions} {env : Surroundings}
    (h : options.surroundings = .ok env) :
    ∃ metadata vars, List.Forall₂ SplitsInto options.metadata metadata ∧
      List.Forall₂ SplitsInto options.vars vars ∧ options.Presents metadata vars env := by
  obtain ⟨metadata, hmetadata, h⟩ := bind_eq_ok.1 h
  obtain ⟨vars, hvars, h⟩ := bind_eq_ok.1 h
  obtain rfl := Except.ok.inj h
  refine ⟨metadata, vars, (forall₂_of_mapM hmetadata).imp fun _ _ => readPair_eq_ok,
    (forall₂_of_mapM hvars).imp fun _ _ => readPair_eq_ok, rfl, ⟨_, rfl, rfl⟩, ?_, ?_⟩
  · have hget : ∀ key, Entries.get? key
        ((Entries.ofList metadata).map fun entry => (entry.1, Value.string entry.2)) =
          (Entries.last? key metadata).map .string := fun key => by
      rw [Entries.get?_map, Entries.get?_ofList]
    refine ⟨_, rfl, ?_, hget, fun key hkey => ?_⟩
    · rw [← Entries.map_fst_ofList, List.map_map]
      rfl
    · rw [hget, Batch.metadata, ← Entries.get?_ofList]
      change (if key.isEmpty then _ else _) = _
      rw [if_neg (by simpa using hkey)]
      cases (Entries.ofList metadata).get? key <;> rfl
  · intro name
    have hget : Entries.get? name
        (Entries.ofList (vars.map fun pair => (pair.1, variableValue pair.2))) =
          (Entries.last? name vars).map variableValue := by
      rw [Entries.get?_ofList, Entries.last?_map]
    rw [Surroundings.var, hget]
    cases Entries.last? name vars with
    | none => rfl
    | some text => exact ⟨_, standsFor_variableValue text, rfl⟩

end ExecOptions

/-! ### Commands -/

/-- What a command gives after its run. -/
inductive ExecOutcome.Follows : Except EvalError Value → Except CommandError ExecOutcome → Prop
  | error (err : EvalError) : Follows (.error err) (.error (.eval err))
  | absent : Follows (.ok .absent) (.ok .absent)
  | delete : Follows (.ok .delete) (.ok .delete)
  | value {v : Value} {json : Json} (h : v.toJson? = some json) :
    Follows (.ok v) (.ok (.value json))

theorem ExecOutcome.follows (result : Except EvalError Value) :
    Follows result (result.mapError CommandError.eval >>= fun v => .ok (ofValue v)) := by
  cases result with
  | error err => exact .error err
  | ok v =>
    cases hjson : v.toJson? with
    | none =>
      rcases Value.toJson?_eq_none_iff.1 hjson with rfl | rfl
      · exact .absent
      · exact .delete
    | some json =>
      have hvalue : ofValue v = .value json := by
        cases v with
        | absent | delete => cases hjson
        | _ => simp [ofValue, hjson]
      change Follows (.ok v) (.ok (ofValue v))
      rw [hvalue]
      exact .value hjson

namespace ExecOptions

theorem execute_of_badMapping {options : ExecOptions} {err : BuildError}
    (h : Mapping.ofText options.mapping = .error err) :
    options.execute = .error (.build err) := by
  rw [execute, h]
  rfl

theorem execute_of_mapping {options : ExecOptions} {m : Mapping}
    (h : Mapping.ofText options.mapping = .ok m) :
    options.execute = options.surroundings >>= fun env =>
      (m.exec env).mapError CommandError.eval >>= fun v => .ok (.ofValue v) := by
  rw [execute, h]
  rfl

theorem execute_of_unsplit {options : ExecOptions} {m : Mapping} {argument : String}
    (hm : Mapping.ofText options.mapping = .ok m) (h : options.unsplit? = some argument) :
    options.execute = .error (.invalidPair argument) := by
  rw [execute_of_mapping hm, (options.reports_surroundings _).2 (congrArg _ h)]
  rfl

theorem execute_of_split {options : ExecOptions} {m : Mapping}
    (hm : Mapping.ofText options.mapping = .ok m) (h : options.unsplit? = none) :
    ∃ metadata vars env, List.Forall₂ SplitsInto options.metadata metadata ∧
      List.Forall₂ SplitsInto options.vars vars ∧ options.Presents metadata vars env ∧
      ExecOutcome.Follows (m.exec env) options.execute := by
  obtain ⟨env, henv⟩ := options.reports_surroundings.exists_ok_iff.2 (congrArg _ h)
  obtain ⟨metadata, vars, hmetadata, hvars, hpresents⟩ := presents_of_surroundings henv
  rw [execute_of_mapping hm, henv]
  exact ⟨metadata, vars, env, hmetadata, hvars, hpresents, ExecOutcome.follows _⟩

/-- A command fails with the fault of its mapping, or with the first argument that does not split,
or with the fault of the run, and gives what the run gives otherwise. -/
theorem execute_contract (options : ExecOptions) :
    (∀ err, Mapping.ofText options.mapping = .error err →
      options.execute = .error (.build err)) ∧
    (∀ m, Mapping.ofText options.mapping = .ok m →
      (∀ argument, options.unsplit? = some argument →
        options.execute = .error (.invalidPair argument)) ∧
      (options.unsplit? = none → ∃ metadata vars env,
        List.Forall₂ SplitsInto options.metadata metadata ∧
        List.Forall₂ SplitsInto options.vars vars ∧
        options.Presents metadata vars env ∧
        ExecOutcome.Follows (m.exec env) options.execute)) ∧
    ∀ err, options.execute = .error err →
      (∃ cause, err = .build cause) ∨ (∃ argument, err = .invalidPair argument) ∨
        ∃ cause, err = .eval cause := by
  refine ⟨fun err => execute_of_badMapping, fun m hm =>
    ⟨fun argument => execute_of_unsplit hm, execute_of_split hm⟩, fun err herr => ?_⟩
  cases hm : Mapping.ofText options.mapping with
  | error cause =>
    rw [execute_of_badMapping hm] at herr
    exact .inl ⟨cause, (Except.error.inj herr).symm⟩
  | ok m =>
    cases hunsplit : options.unsplit? with
    | some argument =>
      rw [execute_of_unsplit hm hunsplit] at herr
      exact .inr (.inl ⟨argument, (Except.error.inj herr).symm⟩)
    | none =>
      obtain ⟨_, _, env, _, _, _, hfollows⟩ := execute_of_split hm hunsplit
      rw [herr] at hfollows
      generalize m.exec env = result at hfollows
      cases hfollows with
      | error cause => exact .inr (.inr ⟨cause, rfl⟩)

/-- The second value of the metadata replaces the first one, at its place. -/
theorem execute_contract_repeated :
    let options : ExecOptions :=
      { mapping := "[\"meta\"]", metadata := ["b=1", "a=2", "b=3=4"], vars := ["x=[1]", "=y"] }
    let m : Mapping := { root := .metadata "" }
    Mapping.ofText options.mapping = .ok m ∧ options.unsplit? = none ∧
      ∃ metadata vars env, List.Forall₂ SplitsInto options.metadata metadata ∧
        List.Forall₂ SplitsInto options.vars vars ∧ options.Presents metadata vars env ∧
        ExecOutcome.Follows (m.exec env) options.execute ∧
        options.execute = .ok (.value (.object [("b", .string "3=4"), ("a", .string "2")])) := by
  intro options m
  have hm : Mapping.ofText options.mapping = .ok m := by cbv
  have hunsplit : options.unsplit? = none := by cbv
  have hexecute : options.execute =
      .ok (.value (.object [("b", .string "3=4"), ("a", .string "2")])) := by cbv
  obtain ⟨-, hgood, -⟩ := options.execute_contract
  obtain ⟨metadata, vars, env, hmetadata, hvars, hpresents, hfollows⟩ := (hgood m hm).2 hunsplit
  exact ⟨hm, hunsplit, metadata, vars, env, hmetadata, hvars, hpresents, hfollows, hexecute⟩

end ExecOptions

end MessageMapping
