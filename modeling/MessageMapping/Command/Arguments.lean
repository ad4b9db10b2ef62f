/-!
# Command-line arguments

Options have a long name, `--name value` or `--name=value`, and perhaps a letter, `-n value`,
`-nvalue` or `-n=value`. Letters of flags can stand together, with one option that takes a value
at the end. A value in an argument of its own must not look like an option. After `--` everything
is a plain word.
-/

namespace MessageMapping

/-- An option that a command knows. -/
structure OptionRule where
  name : String
  letter : Option Char := none
  takesValue : Bool := true
  repeatable : Bool := false

/-- A piece of a command line. -/
inductive Argument
  | flag (name : String)
  | option (name value : String)
  | word (text : String)
  /-- What no rule allows. -/
  | misuse
  deriving DecidableEq

namespace Argument

/-- What one argument gives, and the option that still waits for its value, if any. -/
structure Reading where
  arguments : List Argument := []
  waiting : Option String := none

/-- A long option, without its dashes. -/
def readLong (rules : List OptionRule) (text : List Char) : Reading :=
  let name := String.ofList (text.takeWhile (· ≠ '='))
  match rules.find? fun rule => rule.name = name, text.dropWhile (· ≠ '=') with
  | none, _ => ⟨[misuse], none⟩
  | some rule, [] => if rule.takesValue then ⟨[], some name⟩ else ⟨[flag name], none⟩
  | some rule, _ :: value =>
    ⟨[if rule.takesValue then option name (String.ofList value) else misuse], none⟩

/-- Letters, without their dash. -/
def readLetters (rules : List OptionRule) : List Char → Reading
  | [] => {}
  | letter :: rest =>
    match rules.find? fun rule => rule.letter = some letter with
    | none => ⟨[misuse], none⟩
    | some rule =>
      if rule.takesValue then
        match rest with
        | [] => ⟨[], some rule.name⟩
        | '=' :: value => ⟨[option rule.name (String.ofList value)], none⟩
        | value => ⟨[option rule.name (String.ofList value)], none⟩
      else
        let later := readLetters rules rest
        { later with arguments := flag rule.name :: later.arguments }

/-- Whether an argument looks like an option. A lone dash does not. -/
def isDashed (text : String) : Bool :=
  match text.toList with
  | '-' :: _ :: _ => true
  | _ => false

/-- One argument outside of plain words. -/
def readOne (rules : List OptionRule) (text : String) : Reading :=
  match text.toList with
  | '-' :: '-' :: name => readLong rules name
  | '-' :: letter :: letters => readLetters rules (letter :: letters)
  | _ => ⟨[word text], none⟩

/-- Reads a command line. -/
def readAll (rules : List OptionRule) : List String → List Argument
  | [] => []
  | text :: rest =>
    if text = "--" then rest.map word
    else
      let reading := readOne rules text
      match reading.waiting with
      | none => reading.arguments ++ readAll rules rest
      | some name =>
        match rest with
        | [] => [misuse]
        | value :: others =>
          if isDashed value then [misuse]
          else reading.arguments ++ option name value :: readAll rules others

/-- The values given to an option, in order. -/
def values (name : String) (arguments : List Argument) : List String :=
  arguments.filterMap fun
    | option n value => if n = name then some value else none
    | _ => none

def words (arguments : List Argument) : List String :=
  arguments.filterMap fun
    | word text => some text
    | _ => none

/-- How often an option or a flag is given. -/
def count (name : String) (arguments : List Argument) : Nat :=
  arguments.countP fun
    | flag n => n = name
    | option n _ => n = name
    | _ => false

/-- Whether all arguments are understood and only repeatable options are repeated. -/
def areProper (rules : List OptionRule) (arguments : List Argument) : Bool :=
  !arguments.contains misuse &&
    rules.all fun rule => rule.repeatable || count rule.name arguments ≤ 1

end Argument

end MessageMapping
