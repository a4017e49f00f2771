import WebSurface.Config
set_option autoImplicit false

/-!
What the program is asked to do: its commands and options, and how they are read from the arguments
of a command line.

Options may stand before a command or after it. The last of the two places counts where an option
stands in both; within one place an option may stand only once.
-/

namespace WebSurface

inductive Verb where
  | resolve
  | parse
  | list
  | generate
  deriving DecidableEq, Repr

namespace Verb

def all : List Verb := [resolve, parse, list, generate]

def name : Verb → Text
  | .resolve => "resolve".toList
  | .parse => "parse".toList
  | .list => "list".toList
  | .generate => "generate".toList

def ofName? (t : Text) : Option Verb := all.find? fun v => v.name == t

def operand? : Verb → Option Text
  | .resolve => some "TYPE_NAME".toList
  | .parse => some "PATH".toList
  | .list | .generate => none

def accepts : Verb → Text → Bool
  | .resolve, _ => true
  | .parse, path => !path.isEmpty
  | .list, _ | .generate, _ => false

end Verb

inductive Switch where
  | config
  | corpus
  | format
  | time
  | warnSkipped
  | implementation
  | onlyPure
  | followBases
  | filter
  | out
  | help
  | version
  deriving DecidableEq, Repr

namespace Switch

def name : Switch → Text
  | .config => "config".toList
  | .corpus => "corpus".toList
  | .format => "format".toList
  | .time => "time".toList
  | .warnSkipped => "warn-skipped".toList
  | .implementation => "implementation".toList
  | .onlyPure => "only-pure".toList
  | .followBases => "follow-extends".toList
  | .filter => "filter".toList
  | .out => "out".toList
  | .help => "help".toList
  | .version => "version".toList

def letter? : Switch → Option Char
  | .out => some 'o'
  | .help => some 'h'
  | .version => some 'V'
  | _ => none

def takesValue : Switch → Bool
  | .config | .corpus | .format | .implementation | .filter | .out => true
  | _ => false

def accepts : Switch → Text → Bool
  | .config, path | .out, path => !path.isEmpty
  | .format, name => (Format.ofName? name).isSome
  | _, _ => true

def allowed : Option Verb → List Switch
  | none => [config, corpus, format, time, warnSkipped, help, version]
  | some .resolve =>
    [config, implementation, corpus, onlyPure, followBases, format, time, warnSkipped, help]
  | some .parse => [config, corpus, format, time, warnSkipped, help]
  | some .list => [config, filter, corpus, format, time, warnSkipped, help]
  | some .generate => [config, out, corpus, format, time, warnSkipped, help]

end Switch

structure Options where
  config : Option Text
  corpus : Option Text
  format : Option Format
  time : Bool
  warnSkipped : Bool
  deriving DecidableEq, Repr

inductive Command where
  | resolve (request : Request)
  | parse (path : Text)
  | list (filter : Option Text)
  | generate (out : Option Text)
  deriving DecidableEq, Repr

inductive Arguments where
  | run (options : Options) (command : Command)
  | help (topic : Option Verb)
  | version
  | misuse (topic : Option Verb)
  deriving DecidableEq, Repr

namespace Arguments

inductive Word where
  /-- two dashes: all that follow are operands -/
  | divider
  | long (name : Text) (value : Option Text)
  | short (letter : Char) (rest : Text)
  | plain (t : Text)
  deriving DecidableEq, Repr

def Word.ofText : Text → Word
  | ['-', '-'] => .divider
  | '-' :: '-' :: t =>
    match t.dropWhile (· != '=') with
    | _ :: value => .long (t.takeWhile (· != '=')) (some value)
    | [] => .long t none
  | '-' :: c :: r => .short c r
  | t => .plain t

inductive Mode where
  | any
  | value (s : Switch)
  /-- an operand, however it is written -/
  | operand
  /-- the command to be explained, unless one has been named -/
  | topic (v : Option Verb)
  deriving DecidableEq, Repr

structure Reading where
  mode : Mode
  verb : Option Verb
  /-- the options before the command -/
  before : List (Switch × Text)
  after : List (Switch × Text)
  operand : Option Text

namespace Reading

def start : Reading := ⟨.any, none, [], [], none⟩

/-- Notes an option, unless it stands in the same place already. -/
def set? (r : Reading) (s : Switch) (value : Text) : Option Reading :=
  let place := if r.verb.isSome then r.after else r.before
  if !s.accepts value || (place.lookup s).isSome then none
  else if r.verb.isSome then some { r with mode := .any, after := (s, value) :: r.after }
  else some { r with mode := .any, before := (s, value) :: r.before }

def value? (r : Reading) (s : Switch) : Option Text := (r.after.lookup s).or (r.before.lookup s)

def has (r : Reading) (s : Switch) : Bool := (r.value? s).isSome

def operand? (r : Reading) (t : Text) : Option Reading :=
  match r.verb, r.operand with
  | some v, none => if v.accepts t then some { r with operand := some t } else none
  | _, _ => none

def plain? (r : Reading) (t : Text) : Option Reading :=
  if r.verb.isSome then r.operand? t
  else if t == "help".toList then some { r with mode := .topic none }
  else (Verb.ofName? t).map fun v => { r with verb := some v }

def option? (r : Reading) : Word → Option (Switch × Option Text)
  | .long name value =>
    ((Switch.allowed r.verb).find? fun s => s.name == name).map fun s => (s, value)
  | .short letter rest =>
    ((Switch.allowed r.verb).find? fun s => s.letter? == some letter).map fun s =>
      if !s.takesValue || rest.isEmpty then (s, none)
      else (s, some ((Text.strip? ['='] rest).getD rest))
  | _ => none

/-- The next state of reading, or a request that needs no more arguments. -/
abbrev Step := Except Arguments Reading

def orMisuse (r : Reading) (next : Option Reading) : Step :=
  match next with
  | some r => .ok r
  | none => .error (.misuse r.verb)

def switch (r : Reading) (s : Switch) (value : Option Text) : Step :=
  match s, s.takesValue, value with
  | .help, _, none => .error (.help r.verb)
  | .version, _, none => .error .version
  | s, false, none => r.orMisuse (r.set? s [])
  | s, true, some value => r.orMisuse (r.set? s value)
  | s, true, none => .ok { r with mode := .value s }
  | _, false, some _ => .error (.misuse r.verb)

def step (r : Reading) (arg : Text) : Step :=
  match r.mode, Word.ofText arg with
  | .topic none, _ =>
    r.orMisuse ((Verb.ofName? arg).map fun v => { r with mode := .topic (some v) })
  | .topic (some _), _ => .error (.misuse none)
  | .operand, _ => r.orMisuse (r.operand? arg)
  | .value s, .plain t => r.orMisuse (r.set? s t)
  | .value _, _ => .error (.misuse r.verb)
  | .any, .divider => .ok { r with mode := .operand }
  | .any, .plain t => r.orMisuse (r.plain? t)
  | .any, word =>
    match r.option? word with
    | some (s, value) => r.switch s value
    | none => .error (.misuse r.verb)

def options (r : Reading) : Options where
  config := r.value? .config
  corpus := r.value? .corpus
  format := (r.value? .format).bind Format.ofName?
  time := r.has .time
  warnSkipped := r.has .warnSkipped

def command? (r : Reading) : Option Command :=
  match r.verb, r.operand with
  | some .resolve, some type =>
    some (.resolve { Request.ofType type with
      implementation := r.value? .implementation
      onlyPure := r.has .onlyPure
      followBases := r.has .followBases })
  | some .parse, some path => some (.parse path)
  | some .list, none => some (.list (r.value? .filter))
  | some .generate, none => some (.generate (r.value? .out))
  | _, _ => none

def finish (r : Reading) : Arguments :=
  match r.mode, r.command? with
  | .topic topic, _ => .help topic
  | .value _, _ | _, none => .misuse r.verb
  | _, some c => .run r.options c

end Reading

def ofList (args : List Text) : Arguments :=
  match args.foldlM Reading.step .start with
  | .ok r => r.finish
  | .error answer => answer

end Arguments

def programName : Text := "dombind".toList

def versionText : Text := programName ++ " 0.1.0".toList

namespace Verb

def about : Verb → Text
  | .resolve => "Resolves one interface and prints its binding surface".toList
  | .parse => "Parses a single interface declaration file and prints its descriptor".toList
  | .list => "Lists the interfaces in the corpus".toList
  | .generate => "Writes a binding surface for every `[[binding]]` in the config".toList

end Verb

namespace Switch

def about : Switch → Text
  | .config =>
    "Path to a dombind.toml (defaults to ./dombind.toml, then the user config dir)".toList
  | .corpus => "Declaration corpus: `embedded`, a file path, or an http(s) URL".toList
  | .format => "Output document format [possible values: json, yaml]".toList
  | .time => "Display phase timing information".toList
  | .warnSkipped => "Report interface members that were skipped while parsing".toList
  | .implementation =>
    "JavaScript path of the implementation (defaults to `window.<type>`)".toList
  | .onlyPure => "Leave methods that need callback bridging out of the root interface".toList
  | .followBases => "Also resolve the interfaces named in `extends` clauses".toList
  | .filter | .out => []
  | .help => "Print help".toList
  | .version => "Print version".toList

def form (s : Switch) : Text :=
  "--".toList ++ s.name ++
    if s.takesValue then " <".toList ++ s.name.map Char.toUpper ++ ">".toList else []

def forms (s : Switch) : Text :=
  (s.letter?.elim "    ".toList fun c => ['-', c, ',', ' ']) ++ s.form

end Switch

namespace Help

def pad (width : Nat) (t : Text) : Text := t ++ Document.indent (width - t.length)

def lineWidth : Nat := 100

/-- Explanations beside what they explain, or below it where two fifths of a line do not hold it
and some explanation is too long for the rest. `gap` is the width around the first column. -/
def columns (gap : Nat) (rows : List (Text × Text)) : List Text :=
  let width := (rows.map fun r => r.1.length).foldl max 0
  let taken := width + gap
  if 2 * lineWidth < 5 * taken && rows.any fun r => lineWidth - taken < r.2.length then
    rows.map fun (t, help) => "  ".toList ++ t ++ "\n          ".toList ++ help
  else rows.map fun (t, help) => "  ".toList ++ pad width t ++ "  ".toList ++ help

def commands : List (Text × Text) :=
  Verb.all.map (fun v => (v.name, v.about)) ++
    [("help".toList, "Print this message or the help of the given subcommand(s)".toList)]

def block (title : String) (rows : List Text) : List Text := [] :: title.toList :: rows

def usage (topic : Option Verb) : Text :=
  "Usage: ".toList ++ programName ++
    match topic with
    | none => " [OPTIONS] <COMMAND>".toList
    | some v =>
      [' '] ++ v.name ++ " [OPTIONS]".toList ++
        v.operand?.elim [] fun name => " <".toList ++ name ++ ">".toList

def lines (topic : Option Verb) : List Text :=
  let switches := (Switch.allowed topic).map fun s => (s.forms, s.about)
  let options := block "Options:" (columns 4 switches)
  match topic with
  | none =>
    ["Browser API binding surface generator".toList, [], usage topic] ++
      block "Commands:" (columns 4 commands) ++ options
  | some v =>
    let operand := v.operand?.elim [] fun name =>
      block "Arguments:" (columns 4 [("<".toList ++ name ++ ">".toList, [])])
    [v.about, [], usage topic] ++ operand ++ options

end Help

end WebSurface
