import WebSurface.Names
set_option autoImplicit false

/-!
The place where commands run: a `Host` gives them files, variables, the web, a clock and two streams
of lines. `Session.host` is one in memory, where a tree lists the files below one directory, which
is where relative paths begin and where paths cannot leave.
-/

namespace WebSurface

inductive FileFault where
  | notFound
  | denied
  | exists
  | notDirectory
  | isDirectory
  | notText
  | other (message : Text)
  deriving DecidableEq, Repr

def FileFault.message : FileFault → Text
  | .notFound => "No such file or directory (os error 2)".toList
  | .denied => "Permission denied (os error 13)".toList
  | .exists => "File exists (os error 17)".toList
  | .notDirectory => "Not a directory (os error 20)".toList
  | .isDirectory => "Is a directory (os error 21)".toList
  | .notText => "stream did not contain valid UTF-8".toList
  | .other message => message

namespace Path

def parts : Text → List Text
  | [] => [[]]
  | c :: r =>
    if c = '/' then [] :: parts r
    else match parts r with
      | p :: ps => (c :: p) :: ps
      | [] => [[c]]

def join (slashed : List Text) : Text := Text.join ['/'] slashed

@[simp] theorem join_parts (t : Text) : join (parts t) = t := by
  have parts_ne (t : Text) : parts t ≠ [] := by
    fun_induction parts t <;> simp_all
  fun_induction parts t with
  | case1 => rfl
  | case2 r ih =>
    cases h : parts r with
    | nil => exact absurd h (parts_ne r)
    | cons p ps => simp only [h, join] at ih; simp [join, Text.join, ih]
  | case3 c r hc p ps h ih =>
    rw [h] at ih
    cases ps with
    | nil => simp only [join, Text.join] at ih ⊢; rw [ih]
    | cons q qs => simp only [join, Text.join] at ih ⊢; simp [← ih]
  | case4 c r hc h => exact absurd h (parts_ne r)

def isAbsolute (t : Text) : Bool := Text.startsWith ['/'] t

def inside (directory name : Text) : Text :=
  if directory.isEmpty || Text.endsWith ['/'] directory then directory ++ name
  else directory ++ '/' :: name

/-- The parts that name something: neither empty nor a dot, unless a dot comes first. -/
def named (t : Text) : List Text :=
  match parts t with
  | [] => []
  | p :: ps => [p].filter (!·.isEmpty) ++ ps.filter fun q => !q.isEmpty && q != ['.']

def ancestors (t : Text) : List Text :=
  let start := if isAbsolute t then ['/'] else []
  let outer (n : Nat) : Text := start ++ join ((named t).take n)
  ((List.range (named t).length).reverse.map outer).filter (!·.isEmpty)

end Path

structure Host (m : Type → Type) where
  read : (path : Text) → m (Except FileFault Text)
  write : (path content : Text) → m (Except FileFault Unit)
  makeDirectory : (path : Text) → m (Except FileFault Unit)
  isThere : (path : Text) → m Bool
  isFile : (path : Text) → m Bool
  isDirectory : (path : Text) → m Bool
  environment : (name : Text) → m (Option Text)
  /-- what stands at an address of the web, or why it could not be had -/
  fetch : (address : Text) → m (Except Text Text)
  /-- nanoseconds since some time in the past -/
  clock : m Nat
  /-- writes a line of the answer -/
  print : Text → m Unit
  /-- writes a line about the run -/
  report : Text → m Unit

namespace Host

variable {m : Type → Type} [Monad m]

/-- Creates the first of the directories, and the others first if it has no place to be. One that
is there already will do. -/
def makeFirst (h : Host m) : List Text → m (Except FileFault Unit)
  | [] => return .ok ()
  | path :: outer => do
    let answer ← match ← h.makeDirectory path with
      | .error .notFound =>
        match ← h.makeFirst outer with
        | .ok () => h.makeDirectory path
        | .error fault => return .error fault
      | answer => pure answer
    match answer with
    | .ok () => return .ok ()
    | .error fault => return if ← h.isDirectory path then .ok () else .error fault

def makeDirectories (h : Host m) (path : Text) : m (Except FileFault Unit) :=
  if path.isEmpty then return .ok () else h.makeFirst (path :: Path.ancestors path)

end Host

structure FileTree where
  /-- contents by paths -/
  files : NameTable Text
  made : NameSet
  deriving DecidableEq, Repr

namespace FileTree

inductive Node where
  | file (content : Text)
  | directory
  deriving DecidableEq, Repr

def ofFiles (files : List (Text × Text)) : FileTree := ⟨.ofList files, .empty⟩

def holds (t : FileTree) (directory : Text) : Bool :=
  (t.files.keys ++ t.made.list).any fun path => Text.startsWith (directory ++ ['/']) path

def node? (t : FileTree) (path : List Text) : Option Node :=
  let name := Path.join path
  match t.files.get? name with
  | some content => some (.file content)
  | none =>
    if path.isEmpty || t.made.contains name || t.holds name then some .directory else none

/-- The plain form of a path, given the parts that are still to be walked. Only the last of them
may be missing. -/
def walk (t : FileTree) (here : List Text) : List Text → Except FileFault (List Text)
  | [] => .ok here
  | part :: rest =>
    match t.node? here with
    | none => .error .notFound
    | some (.file _) => .error .notDirectory
    | some .directory =>
      if part.isEmpty || part == ['.'] then walk t here rest
      else if part == "..".toList then walk t here.dropLast rest
      else walk t (here ++ [part]) rest

def place (t : FileTree) (path : Text) : Except FileFault (List Text) :=
  if path.isEmpty || Path.isAbsolute path then .error .notFound else t.walk [] (Path.parts path)

def at? (t : FileTree) (path : Text) : Except FileFault Node := do
  match t.node? (← t.place path) with
  | some n => .ok n
  | none => .error .notFound

def isFile (t : FileTree) (path : Text) : Bool :=
  match t.at? path with
  | .ok (.file _) => true
  | _ => false

def isDirectory (t : FileTree) (path : Text) : Bool :=
  match t.at? path with
  | .ok .directory => true
  | _ => false

def read (t : FileTree) (path : Text) : Except FileFault Text := do
  match ← t.at? path with
  | .file content => .ok content
  | .directory => .error .isDirectory

def write (t : FileTree) (path content : Text) : Except FileFault FileTree := do
  let place ← t.place path
  match t.node? place with
  | some .directory => .error .isDirectory
  | _ => .ok { t with files := t.files.put (Path.join place, content) }

/-- Makes a directory where nothing is. A slash at the end of its path does not count. -/
def makeDirectory (t : FileTree) (path : Text) : Except FileFault FileTree := do
  let place ← t.place (Text.dropEndWhile (· == '/') path)
  match t.node? place with
  | some _ => .error .exists
  | none => .ok { t with made := t.made.insert (Path.join place) }

end FileTree

structure Session where
  files : FileTree
  printed : List Text
  reported : List Text

namespace Session

def change (f : FileTree → Except FileFault FileTree) : StateM Session (Except FileFault Unit) :=
  fun s =>
    match f s.files with
    | .ok files => (.ok (), { s with files })
    | .error fault => (.error fault, s)

def look {α : Type} (f : FileTree → α) : StateM Session α := fun s => (f s.files, s)

def host (environment : List (Text × Text)) : Host (StateM Session) where
  read path := look (·.read path)
  write path content := change (·.write path content)
  makeDirectory path := change (·.makeDirectory path)
  isThere path := look fun t => (t.at? path).toBool
  isFile path := look (·.isFile path)
  isDirectory path := look (·.isDirectory path)
  environment name := pure (environment.lookup name)
  fetch _ := pure (.error "not reachable".toList)
  clock := pure 0
  print line := modify fun s => { s with printed := line :: s.printed }
  report line := modify fun s => { s with reported := line :: s.reported }

def linesText (lines : List Text) : Text := lines.reverse.flatMap (· ++ ['\n'])

end Session

end WebSurface
