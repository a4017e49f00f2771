import WebSurface.Corpus.Registry
import WebSurface.Document
import WebSurface.Surface
import WebSurface.Toml
set_option autoImplicit false

/-!
The configuration of the program, and how requests and configurations are read from values.

Every part of a configuration has a default. A part of a name that is not known is an error at the
top, and has no effect anywhere else.
-/

namespace WebSurface

open Value

inductive Format where
  | json
  | yaml
  deriving DecidableEq, Repr

namespace Format

def name : Format → Text
  | .json => "json".toList
  | .yaml => "yaml".toList

def ofName? (t : Text) : Option Format := [json, yaml].find? fun f => f.name == t

def write : Format → Document → Text
  | .json => Document.json
  | .yaml => Document.yaml

end Format

def Request.ofValue? : Value → Option Request
  | .table fields => do
    let type ← fieldOr? fields "type" text? []
    let implementation ← fieldOr? fields "implementation" optionalText? none
    let onlyPure ← fieldOr? fields "only_pure" flag? false
    let pureNames ← fieldOr? fields "pure_overrides" texts? []
    let space ← fieldOr? fields "namespace" optionalText? none
    let followBases ← fieldOr? fields "follow_extends" flag? false
    return ⟨type, implementation, onlyPure, pureNames, space, followBases⟩
  | _ => none

structure Config where
  source : Source
  /-- the first part of the names of bridged methods -/
  space : Text
  format : Format
  /-- the directory to which files are written -/
  directory : Text
  logLevel : Text
  /-- target types by source types, in the order of the source types -/
  types : List (Text × Text)
  bindings : List Request
  deriving DecidableEq, Repr

namespace Config

def standard : Config :=
  ⟨.embedded, Bridging.defaultSpace, .json, "bindings".toList, "warn".toList, [], []⟩

/-- The fields of a section. A list stands for the fields in their order. -/
def section? (names : List String) : Value → Option (List (Text × Value))
  | .table fields => some fields
  | .list items => some ((names.map String.toList).zip items)
  | _ => none

def source? (v : Value) : Option Source := v.text?.bind Source.ofText?

def format? (v : Value) : Option Format := v.text?.bind Format.ofName?

def entries? : Value → Option (List (Text × Text))
  | .table fields => do
    let entries ← fields.mapM fun (name, v) => v.text?.map fun t => (name, t)
    return entries.mergeSort fun a b => !decide (b.1 < a.1)
  | _ => none

def bindings? : Value → Option (List Request)
  | .list items => items.mapM Request.ofValue?
  | _ => none

def withPart? (c : Config) (name : Text) (v : Value) : Option Config :=
  if name == "corpus".toList then do
    let fields ← section? ["source"] v
    return { c with source := ← fieldOr? fields "source" source? c.source }
  else if name == "bridge".toList then do
    let fields ← section? ["namespace"] v
    return { c with space := ← fieldOr? fields "namespace" text? c.space }
  else if name == "output".toList then do
    let fields ← section? ["format", "dir"] v
    let format ← fieldOr? fields "format" format? c.format
    return { c with format, directory := ← fieldOr? fields "dir" text? c.directory }
  else if name == "log".toList then do
    let fields ← section? ["level"] v
    return { c with logLevel := ← fieldOr? fields "level" text? c.logLevel }
  else if name == "type_map".toList then do
    return { c with types := ← entries? v }
  else if name == "binding".toList then do
    return { c with bindings := ← bindings? v }
  else none

def ofText? (t : Text) : Option Config := do
  (← Toml.ofText? t).foldlM (fun c (name, v) => c.withPart? name v) standard

def invalidMessage : Text := "invalid dombind configuration".toList

def typeTable (c : Config) : TypeTable := .ofEntries c.types

/-- The request with the name of the bridge, unless it has one of its own. -/
def complete (c : Config) (r : Request) : Request := { r with space := r.space.or (some c.space) }

end Config

end WebSurface
