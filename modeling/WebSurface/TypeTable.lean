import WebSurface.Names
import WebSurface.TypeText
set_option autoImplicit false

/-!
From declared types to target types.

A table holds the types that have a target of their own. Arrays and generic types are mapped part
by part, with `null` and `undefined` members collapsed to one nullable target; a type that the table
knows nothing about stands for another declaration and is kept as it is written.
-/

namespace WebSurface

/-- The entries that are given on top of the built-in ones, by normalized source type. -/
structure TypeTable where
  overrides : NameTable Text
  deriving DecidableEq, Repr

namespace TypeTable

open TypeText

/-- The nullable form of a target. Nothing is nullable twice, and `void` never is. -/
def nullable (target : Text) : Text :=
  if target == "void".toList || Text.endsWith ['?'] target then target else target ++ ['?']

def nullableIf (isNullable : Bool) (target : Text) : Text :=
  if isNullable then nullable target else target

def primitives : List (Text × Text) :=
  [("number", "double"), ("string", "string"), ("boolean", "bool"), ("bigint", "long"),
    ("enum", "enum"), ("Date", "DateTime"), ("DOMTimeStamp", "long"), ("EpochTimeStamp", "long"),
    ("DOMHighResTimeStamp", "double"), ("BufferSource", "byte[]"), ("ArrayBuffer", "byte[]"),
    ("ArrayBufferView", "byte[]"), ("Uint8Array", "byte[]"), ("URL", "Uri"),
    ("string | URL", "Uri"), ("any", "object"), ("unknown", "object"), ("object", "object"),
    ("void", "void")].map fun (source, target) => (source.toList, target.toList)

/-- Containers and global names that never stand for a declaration of a corpus. -/
def containers : List Text :=
  ["Array", "ReadonlyArray", "Promise", "PromiseLike", "Record", "Partial", "Required", "Readonly",
    "Pick", "Omit", "Exclude", "Extract", "NonNullable", "Iterable", "IterableIterator", "Map",
    "Set", "ReadonlyMap", "ReadonlySet", "Function", "Object", "String", "Number", "Boolean",
    "Error", "null", "undefined", "never"].map String.toList

/-- Adds an entry, and its two nullable spellings unless they have entries of their own. -/
def putForms (m : NameTable Text) (entry : Text × Text) : NameTable Text :=
  let (source, target) := entry
  ((m.put entry).putNew (source ++ " | null".toList, nullable target)).putNew
    (source ++ " | undefined".toList, nullable target)

def builtin : NameTable Text := primitives.foldl putForms .empty

def standard : TypeTable := ⟨.empty⟩

/-- The table with entries of its own. The last of several entries for a type counts; an entry for
a type without nullish members is one for its nullable spellings too, unless they are given. -/
def ofEntries (entries : List (Text × Text)) : TypeTable :=
  let normalized := entries.map fun (source, target) => (normalize source, target)
  let bare := normalized.filter fun (source, _) => !(splitNullish source).2
  ⟨bare.foldl putForms (.ofList normalized)⟩

def lookup? (m : TypeTable) (t : Text) : Option Text :=
  (m.overrides.get? t).or (builtin.get? t)

/-- The type without its nullish members, and whether it had any; the text is normalized first. -/
def proper (t : Text) : Text × Bool := splitNullish (normalize t)

theorem solid_proper_le (t : Text) : solid (proper t).1 ≤ solid t :=
  Nat.le_trans (solid_splitNullish_le _) (solid_normalize_le t)

inductive Shape where
  | entry (target : Text)
  | array (element : Text)
  | generic (name : Text) (arguments : List Text)
  | reference
  deriving DecidableEq, Repr

/-- The entry of a type, looked up first as it is written and then without its nullish members. -/
def entry? (m : TypeTable) (t : Text) : Option Text :=
  (m.lookup? (normalize t)).or
    (if (proper t).2 then (m.lookup? (proper t).1).map nullable else none)

def shape (m : TypeTable) (t : Text) : Shape :=
  match m.entry? t, arrayElement? (proper t).1, genericArguments? (proper t).1 with
  | some r, _, _ => .entry r
  | none, some element, _ => .array element
  | none, none, some (name, arguments) => .generic name arguments
  | none, none, none => .reference

theorem arrayElement?_of_shape {m : TypeTable} {t element : Text}
    (h : m.shape t = .array element) : arrayElement? (proper t).1 = some element := by
  unfold shape at h
  split at h <;> simp_all

theorem genericArguments?_of_shape {m : TypeTable} {t name : Text} {arguments : List Text}
    (h : m.shape t = .generic name arguments) :
    genericArguments? (proper t).1 = some (name, arguments) := by
  unfold shape at h
  split at h <;> simp_all

def target (m : TypeTable) (t : Text) : Text :=
  match _h : m.shape t with
  | .entry r => r
  | .array element => nullableIf (proper t).2 (m.target element ++ "[]".toList)
  | .generic name arguments =>
    let mapped := arguments.attach.map fun ⟨a, _⟩ => m.target a
    nullableIf (proper t).2 (name ++ "<".toList ++ Text.join ", ".toList mapped ++ ">".toList)
  | .reference => t.trim
termination_by solid t
decreasing_by
  · exact Nat.lt_of_lt_of_le
      (solid_arrayElement?_lt (arrayElement?_of_shape _h)) (solid_proper_le t)
  · rename_i hmem
    exact Nat.lt_of_lt_of_le
      (solid_genericArguments?_lt (genericArguments?_of_shape _h) hmem) (solid_proper_le t)

def targetWith (m : TypeTable) (t : Text) (isNullable : Bool) : Text :=
  nullableIf isNullable (m.target t)

/-- The type never stands for a declaration: it has an entry, or is a container. -/
def knows (m : TypeTable) (t : Text) : Bool :=
  (m.lookup? (normalize t)).isSome || containers.elem (normalize t) ||
    ((proper t).2 && (m.lookup? (proper t).1).isSome)

def entries (m : TypeTable) : List (Text × Text) :=
  (m.overrides.list.foldl Keyed.put builtin).list.mergeSort fun a b => !decide (b.1 < a.1)

end TypeTable

end WebSurface
