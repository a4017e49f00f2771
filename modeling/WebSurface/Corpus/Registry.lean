import WebSurface.Corpus.Index
import WebSurface.Files.Tree
set_option autoImplicit false

/-!
Corpora that have been loaded.

Each corpus is loaded when it is first asked for and kept under the key of its source. A failure is
not kept: the next call asks the loader again.
-/

namespace WebSurface

inductive Source where
  /-- the corpus that comes with the program -/
  | embedded
  | file (path : Text)
  | url (address : Text)
  deriving DecidableEq, Repr, Inhabited

namespace Source

def emptyMessage : Text := "corpus source must not be empty".toList

/-- Reads a source: the word `embedded`, an address on the web, or a path. A text of white space
only names no source. -/
def ofText? (t : Text) : Option Source :=
  let name := t.trim
  if name.isEmpty then none
  else if name.asciiLower == "embedded".toList then some .embedded
  else if Text.startsWith "http://".toList name || Text.startsWith "https://".toList name then
    some (.url name)
  else some (.file ((Text.strip? "file:".toList name).getD name))

def toText : Source → Text
  | .embedded => "embedded".toList
  | .file path => path
  | .url address => address

/-- The name under which what was loaded is kept. -/
def key : Source → Text
  | .embedded => "embedded".toList
  | .file path => "file:".toList ++ path
  | .url address => "url:".toList ++ address

def isRemote : Source → Bool
  | .url _ => true
  | _ => false

end Source

inductive LoadFault where
  | unreadable (path : Text) (cause : FileFault)
  | unreachable (url message : Text)
  deriving DecidableEq, Repr

namespace LoadFault

def message : LoadFault → Text
  | .unreadable path _ => "failed to read corpus file `".toList ++ path ++ "`".toList
  | .unreachable url message =>
    "failed to fetch corpus from `".toList ++ url ++ "`: ".toList ++ message

def chain (f : LoadFault) : List Text :=
  match f with
  | .unreadable _ cause => [f.message, cause.message]
  | .unreachable _ _ => [f.message]

end LoadFault

structure Unavailable where
  key : Text
  reason : LoadFault
  deriving DecidableEq, Repr

def Unavailable.message (u : Unavailable) : Text :=
  "corpus source `".toList ++ u.key ++ "` is unavailable: ".toList ++ u.reason.message

/-- What has been loaded, and how many times the loader was called for each key. -/
structure Registry where
  loaded : NameTable Index
  fetches : NameTable Nat
  deriving DecidableEq, Repr

namespace Registry

def empty : Registry := ⟨.empty, .empty⟩

def fetchCount (r : Registry) (key : Text) : Nat := (r.fetches.get? key).getD 0

def isLoaded (r : Registry) (key : Text) : Bool := r.loaded.contains key

def record (r : Registry) (key : Text) (answer : Except LoadFault Text) :
    Except Unavailable Index × Registry :=
  let fetches := r.fetches.put (key, r.fetchCount key + 1)
  match answer with
  | .ok corpus =>
    let index := Index.build key corpus
    (.ok index, ⟨r.loaded.put (key, index), fetches⟩)
  | .error reason => (.error ⟨key, reason⟩, { r with fetches })

/-- The index of a source. The loader is called unless the corpus has been loaded before. -/
def load {m : Type → Type} [Monad m] (fetch : Source → m (Except LoadFault Text)) (source : Source)
    (r : Registry) : m (Except Unavailable Index × Registry) :=
  match r.loaded.get? source.key with
  | some index => pure (.ok index, r)
  | none => do return r.record source.key (← fetch source)

def loadOrEmpty {m : Type → Type} [Monad m] (fetch : Source → m (Except LoadFault Text))
    (source : Source) (r : Registry) : m ((Index × Option Unavailable) × Registry) := do
  match ← r.load fetch source with
  | (.ok index, r) => return ((index, none), r)
  | (.error u, r) => return ((.empty source.key, some u), r)

end Registry

end WebSurface
