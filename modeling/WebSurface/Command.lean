import WebSurface.Arguments
import WebSurface.Corpus.Bundled
import WebSurface.Corpus.Registry
import WebSurface.Declaration.Interface
import WebSurface.Files.Tree
import WebSurface.Surface
set_option autoImplicit false

namespace WebSurface

/-- Why a command failed: what happened, and the causes behind it, the nearest first. -/
structure Failure where
  message : Text
  causes : List Text
  deriving DecidableEq, Repr

namespace Failure

def ofChain : List Text → Failure
  | [] => ⟨[], []⟩
  | message :: causes => ⟨message, causes⟩

def marked (mark : Text) (t : Text) : Text :=
  mark ++ t.flatMap fun c => if c = '\n' then c :: Document.indent mark.length else [c]

def causeLines (causes : List Text) : List Text :=
  match causes with
  | [cause] => [marked (Document.indent 4) cause]
  | causes => causes.zipIdx.map fun (cause, n) =>
    let number := Nat.toDigits 10 n
    marked (Document.indent (5 - number.length) ++ number ++ ": ".toList) cause

def text (f : Failure) : Text :=
  let causes := if f.causes.isEmpty then [] else [[], "Caused by:".toList] ++ causeLines f.causes
  Text.join ['\n'] (("Error: ".toList ++ f.message) :: causes)

end Failure

structure Settings where
  config : Config
  source : Source
  format : Format
  time : Bool
  warnSkipped : Bool

namespace Command

variable {m : Type → Type} [Monad m]

abbrev Run (m : Type → Type) := ExceptT Failure m

def fail {α : Type} (message : Text) (causes : List Text) : Run m α :=
  throw (Failure.mk message causes)

def orFail {α : Type} (message : Text) (answer : m (Except FileFault α)) : Run m α := do
  match ← answer with
  | .ok a => return a
  | .error fault => fail message [fault.message]

/-! ### Configuration -/

def configFile : Text := "dombind.toml".toList

def sourceVariable : Text := "DOMBIND_CORPUS".toList

def userDirectory (h : Host m) : m (Option Text) := do
  match ← h.environment "XDG_CONFIG_HOME".toList with
  | some path => if Path.isAbsolute path then return some path else fallBack
  | none => fallBack
where
  fallBack : m (Option Text) :=
    return (← h.environment "HOME".toList).map fun home => Path.inside home ".config".toList

/-- The configuration that is taken when none is named: in the working directory, or else in that
of the user. -/
def discover (h : Host m) : m (Option Text) := do
  if ← h.isFile configFile then return some configFile
  match ← userDirectory h with
  | none => return none
  | some directory =>
    let path := Path.inside (Path.inside directory programName) configFile
    return if ← h.isFile path then some path else none

def readConfig (h : Host m) (path : Text) : Run m Config := do
  let text ← orFail ("failed to read config ".toList ++ path) (h.read path)
  match Config.ofText? text with
  | some c => return c
  | none => fail ("in ".toList ++ path) [Config.invalidMessage]

def sourceOf (message t : Text) : Run m Source :=
  match Source.ofText? t with
  | some s => return s
  | none => fail message [Source.emptyMessage]

/-- The configuration of a file that has to be there if it is named. A variable of the environment
goes before the source that the file gives. -/
def loadConfig (h : Host m) (named : Option Text) : Run m Config := do
  let path? ← match named with
    | some path =>
      if ← h.isThere path then pure (some path)
      else fail ("config file ".toList ++ path ++ " does not exist".toList) []
    | none => (discover h : m (Option Text))
  let c ← match path? with
    | some path => readConfig h path
    | none => pure Config.standard
  match ← h.environment sourceVariable with
  | some t => return { c with source := ← sourceOf ("invalid ".toList ++ sourceVariable) t }
  | none => return c

def settings (h : Host m) (o : Options) : Run m Settings := do
  let config ← loadConfig h o.config
  let source ← match o.corpus with
    | some t => sourceOf "invalid --corpus".toList t
    | none => pure config.source
  return ⟨config, source, o.format.getD config.format, o.time, o.warnSkipped⟩

/-! ### Time -/

structure Phase where
  name : Text
  time : Nat

/-- Hundredths of milliseconds with their point, right in eight columns. -/
def milliseconds (n : Nat) : Text :=
  let hundredths := (n + 5000) / 10000
  let digits (k : Nat) : Text := Nat.toDigits 10 k
  let rest := digits (hundredths % 100)
  let t := digits (hundredths / 100) ++ '.' :: (List.replicate (2 - rest.length) '0' ++ rest)
  Document.indent (6 - t.length) ++ t

def timeLine (p : Phase) : Text :=
  Document.indent (16 - p.name.length) ++ p.name ++ ": ".toList ++ milliseconds p.time ++
    " ms".toList

def reportTimes (h : Host m) (s : Settings) (phases : List Phase) : Run m Unit := do
  if s.time then
    h.report "[Timing]".toList
    for p in phases ++ [⟨"Total".toList, phases.foldl (· + ·.time) 0⟩] do
      h.report (timeLine p)

def timed {α : Type} (h : Host m) (name : Text) (part : Run m α) : Run m (α × Phase) := do
  let start ← h.clock
  let a ← part
  return (a, ⟨name, (← h.clock) - start⟩)

/-! ### The commands -/

def fetch (h : Host m) : Source → m (Except LoadFault Text)
  | .embedded => return .ok Bundled.corpus
  | .file path => return (← h.read path).mapError (.unreadable path)
  | .url address => return (← h.fetch address).mapError (.unreachable address)

def loadIndex (h : Host m) (s : Settings) : Run m Index := do
  let answer : m _ := Registry.empty.load (fetch h) s.source
  match (← answer).1 with
  | .ok index => return index
  | .error u => throw (.ofChain (u.message :: u.reason.chain))

def reportSkipped (h : Host m) (s : Settings) (name raw : Text) : Run m Unit := do
  if s.warnSkipped then
    match Interface.read raw with
    | .ok r => for k in r.skipped do h.report ((k.diagnostic name).line raw)
    | .error _ => return

def reportSkippedOf (h : Host m) (s : Settings) (d : Declarations) (name : Text) : Run m Unit :=
  match d.interface? name with
  | some raw => reportSkipped h s name raw
  | none => return ()

def assemble (h : Host m) (s : Settings) (d : Declarations) (r : Request) : Run m Surface := do
  match Surface.assemble d s.config.typeTable r with
  | .ok surface => return surface
  | .error fault =>
    match fault.suggestion? with
    | some name =>
      h.report ("hint try `".toList ++ programName ++ " resolve ".toList ++ name ++ "`".toList)
    | none => pure ()
    throw (.ofChain fault.chain)

def number (n : Nat) : Text := Nat.toDigits 10 n

def summary (s : Surface) : List Text :=
  let methods := s.root?.elim [] Surface.Interface.methods
  let bridged := methods.countP fun k => k.isPure? == some false
  let counts := s.type ++ " (".toList ++ number s.interfaces.length ++ " types, ".toList ++
    number (methods.length - bridged) ++ " pure, ".toList ++ number bridged ++ " bridged)".toList
  ("resolved ".toList ++ counts) ::
    if s.unresolved.isEmpty then []
    else ["unresolved ".toList ++ Text.join ", ".toList s.unresolved]

def resolveType (h : Host m) (s : Settings) (r : Request) : Run m Unit := do
  let (index, loading) ← timed h "Corpus".toList (loadIndex h s)
  let r := s.config.complete r
  reportSkippedOf h s index.declarations r.type
  let (surface, resolving) ← timed h "Resolve".toList (assemble h s index.declarations r)
  let (document, rendering) ← timed h "Render".toList (pure (s.format.write surface.record))
  h.print document
  for line in summary surface do h.report line
  reportTimes h s [loading, resolving, rendering]

def parseFile (h : Host m) (s : Settings) (path : Text) : Run m Unit := do
  let raw ← orFail ("failed to read ".toList ++ path) (h.read path)
  let (interface, parsing) ← timed h "Parsing".toList <|
    match Interface.ofText raw with
    | .ok i => pure i
    | .error fault => fail ("failed to parse ".toList ++ path) [fault.message]
  reportSkipped h s path raw
  h.print (s.format.write interface.record)
  h.report ("parsed ".toList ++ interface.name ++ " (".toList ++
    number interface.properties.size ++ " properties, ".toList ++
    number interface.methods.size ++ " methods)".toList)
  reportTimes h s [parsing]

def matching (filter : Option Text) (names : List Text) : List Text :=
  match filter with
  | some t => names.filter fun name => name.lower.contains t.lower
  | none => names

def listNames (h : Host m) (s : Settings) (filter : Option Text) : Run m Unit := do
  let (index, loading) ← timed h "Corpus".toList (loadIndex h s)
  let all := index.declarations.interfaceNames
  let names := matching filter all
  for name in names do h.print name
  h.report ("listed ".toList ++ number names.length ++ " of ".toList ++ number all.length ++
    " interfaces in ".toList ++ index.key)
  reportTimes h s [loading]

def writeBinding (h : Host m) (s : Settings) (d : Declarations) (directory : Text) (r : Request) :
    Run m Phase := do
  let r := s.config.complete r
  reportSkippedOf h s d r.type
  let (surface, resolving) ← timed h r.type (assemble h s d r)
  let path := Path.inside directory (surface.type ++ '.' :: s.format.name)
  orFail ("failed to write ".toList ++ path) (h.write path (s.format.write surface.record))
  h.print ("generated ".toList ++ path)
  return resolving

def generateFiles (h : Host m) (s : Settings) (out : Option Text) : Run m Unit := do
  if s.config.bindings.isEmpty then fail "no [[binding]] entries in the configuration".toList []
  let (index, loading) ← timed h "Corpus".toList (loadIndex h s)
  let directory := out.getD s.config.directory
  orFail ("failed to create output directory ".toList ++ directory) (h.makeDirectories directory)
  let phases ← s.config.bindings.mapM (writeBinding h s index.declarations directory)
  reportTimes h s (loading :: phases)

def perform (h : Host m) (s : Settings) : Command → Run m Unit
  | .resolve r => resolveType h s r
  | .parse path => parseFile h s path
  | .list filter => listNames h s filter
  | .generate out => generateFiles h s out

def run (h : Host m) (args : List Text) : m Nat := do
  match Arguments.ofList args with
  | .help topic =>
    for line in Help.lines topic do h.print line
    return 0
  | .version =>
    h.print versionText
    return 0
  | .misuse topic =>
    for line in Help.lines topic do h.report line
    return 2
  | .run options command =>
    match ← (settings h options >>= fun s => perform h s command).run with
    | .ok () => return 0
    | .error f =>
      h.report f.text
      return 1

end Command

end WebSurface
