import MessageMapping.Command.Arguments
import MessageMapping.Command.Exec
import MessageMapping.Command.Topic
import MessageMapping.Json.Writer

/-!
# Commands

The commands of the program, how they are given on the command line, and what they print. A
command is a function of its arguments, the standard input and the files it names.
-/

namespace MessageMapping

/-- Where the text of a mapping comes from. -/
inductive Source
  | inline (text : String)
  | file (path : String)
  deriving DecidableEq

/-- A command with its arguments. -/
inductive Command
  | exec (source : Source) (input : Option String) (metadata vars : List String) (pretty : Bool)
  | targets (source : Source) (json : Bool)
  | docs
  | doc (topic : String)
  | version
  deriving DecidableEq

/-- What a run of the program leaves behind. -/
structure Report where
  code : UInt32 := 0
  out : String := ""
  err : String := ""

namespace Report

/-- The report on arguments that make no command. -/
def misuse : Report :=
  { code := 2, err := "Usage: mapexpr [--log-level FILTER] exec|targets|docs|doc ...\n" }

def ofError (error : CommandError) : Report :=
  { code := 1, err := error.message ++ "\n" }

end Report

namespace Source

/-- The source among two that are given or not; the inline text wins. -/
def ofOptions? (inline file : Option String) : Except CommandError Source :=
  match inline, file with
  | some text, _ => .ok (.inline text)
  | none, some path => .ok (.file path)
  | none, none => .error .missingMapping

/-- The text of a mapping; `files` gives the content of the files that can be read. -/
def load (files : String → Option ByteArray) : Source → Except CommandError String
  | inline text => .ok text
  | file path =>
    match files path >>= String.fromUTF8? with
    | some text => .ok text
    | none => .error .unreadable

end Source

namespace Command

/-- The option that every command has; nothing is logged. -/
def logLevel : OptionRule :=
  { name := "log-level" }

def sourceRules : List OptionRule :=
  [{ name := "expr", letter := some 'e' }, { name := "file", letter := some 'f' }]

def execRules : List OptionRule :=
  logLevel :: sourceRules ++
    [{ name := "input", letter := some 'i' },
      { name := "meta", letter := some 'm', repeatable := true },
      { name := "var", repeatable := true },
      { name := "pretty", letter := some 'p', takesValue := false }]

def targetsRules : List OptionRule :=
  logLevel :: sourceRules ++ [{ name := "json", takesValue := false }]

/-- The one source that is given; the path of a file is not empty. -/
def sourceOf? (arguments : List Argument) : Option Source :=
  match Argument.values "expr" arguments, Argument.values "file" arguments with
  | [text], [] => some (.inline text)
  | [], [path] => if path.isEmpty then none else some (.file path)
  | _, _ => none

/-- The arguments of a command, if they follow its rules. -/
def proper? (rules : List OptionRule) (texts : List String) : Option (List Argument) :=
  let arguments := Argument.readAll rules texts
  if Argument.areProper rules arguments then some arguments else none

/-- The command of a name with its arguments. -/
def ofName? (name : String) (texts : List String) : Option Command := do
  match name with
  | "exec" =>
    let arguments ← proper? execRules texts
    let source ← sourceOf? arguments
    if (Argument.words arguments).isEmpty then
      some (.exec source (Argument.values "input" arguments).head?
        (Argument.values "meta" arguments) (Argument.values "var" arguments)
        (Argument.count "pretty" arguments ≠ 0))
    else none
  | "targets" =>
    let arguments ← proper? targetsRules texts
    let source ← sourceOf? arguments
    if (Argument.words arguments).isEmpty then
      some (.targets source (Argument.count "json" arguments ≠ 0))
    else none
  | "docs" =>
    let arguments ← proper? [logLevel] texts
    if (Argument.words arguments).isEmpty then some .docs else none
  | "doc" =>
    let arguments ← proper? [logLevel] texts
    match Argument.words arguments with
    | [topic] => some (.doc topic)
    | _ => none
  | _ => none

/-- The flag that answers at once. -/
def versionFlag : OptionRule :=
  { name := "version", letter := some 'V', takesValue := false }

/-- Reads what stands before the name of a command: version flag, and log level at most once. -/
def ofTexts? (logged : Bool) : List String → Option Command
  | [] => none
  | text :: rest =>
    let reading := Argument.readOne [logLevel, versionFlag] text
    match reading.waiting with
    | some _ =>
      match rest with
      | [] => none
      | value :: others => if logged || Argument.isDashed value then none else ofTexts? true others
    | none =>
      match reading.arguments with
      | .flag _ :: _ => some .version
      | [.option ..] => if logged then none else ofTexts? true rest
      | [.word name] => ofName? name rest
      | _ => none

/-- Reads a command line. -/
def ofArgs? (args : List String) : Option Command :=
  ofTexts? false args

/-- Whether the command reads the standard input. -/
def readsInput : Command → Bool
  | exec _ none .. => true
  | _ => false

/-- The file that the command reads. -/
def file? : Command → Option String
  | exec (.file path) .. => some path
  | targets (.file path) _ => some path
  | _ => none

/-- A target as JSON. -/
def targetJson (t : Target) : Json :=
  .object [("kind", .string t.kind.name), ("path", .array (t.path.map .string))]

/-- What a command prints. -/
def print (stdin : ByteArray) (files : String → Option ByteArray) :
    Command → Except CommandError Report
  | exec source input metadata vars pretty => do
    let input ←
      match input with
      | some text => .ok text
      | none =>
        match String.fromUTF8? stdin with
        | some text => .ok text
        | none => .error .unreadable
    let mapping ← source.load files
    match ← ExecOptions.execute { mapping, input := some input, metadata, vars } with
    | .value json => return { out := (if pretty then json.pretty 0 else json.compact) ++ "\n" }
    | .absent => return { err := "(absent: nothing to assign)\n" }
    | .delete => return { err := "(delete: target removed)\n" }
  | targets source json => do
    let targets ← mappingTargets (← source.load files)
    if json then return { out := (Json.array (targets.map targetJson)).compact ++ "\n" }
    else return { out := String.join (targets.map fun t => t.text ++ "\n") }
  | docs => .ok { out := Topic.overview }
  | doc name =>
    match Topic.ofName? name with
    | some topic => .ok { out := topic.page }
    | none => .error (.unknownTopic name)
  | version => .ok { out := "mapexpr 0.1.0\n" }

/-- Runs a command. -/
def run (stdin : ByteArray) (files : String → Option ByteArray) (command : Command) : Report :=
  match command.print stdin files with
  | .ok report => report
  | .error error => .ofError error

end Command

end MessageMapping
