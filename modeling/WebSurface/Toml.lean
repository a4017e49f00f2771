import WebSurface.Toml.Scalar
set_option autoImplicit false

namespace WebSurface

namespace Toml

inductive Origin where
  /-- on the way to the table of a header -/
  | implicit
  /-- by a key of several parts -/
  | dotted
  /-- by a header or as a value -/
  | explicit
  deriving DecidableEq, Repr

inductive Node where
  | value (v : Value)
  | table (origin : Origin) (fields : List (Text × Node))
  /-- tables under one header in double brackets, the last first -/
  | tables (latest : List (Text × Node)) (before : List (List (Text × Node)))
  deriving Repr

abbrev Fields := List (Text × Node)

def Fields.alter? (name : Text) (f : Option Node → Option Node) : Fields → Option Fields
  | [] => (f none).map fun n => [(name, n)]
  | (k, n) :: fs =>
    if k = name then (f (some n)).map fun n => (k, n) :: fs
    else (alter? name f fs).map fun fs => (k, n) :: fs

/-- Changes the fields of the table at a path of names from a header. Tables that are missing on
the way are made. -/
def Fields.atHeader? (f : Fields → Option Fields) : List Text → Fields → Option Fields
  | [], fs => f fs
  | name :: path, fs =>
    fs.alter? name fun
      | none => (atHeader? f path []).map (.table .implicit)
      | some (.table origin inner) => (atHeader? f path inner).map (.table origin)
      | some (.tables latest before) => (atHeader? f path latest).map (.tables · before)
      | some (.value _) => none

def Fields.addNew? (name : Text) (v : Node) (fs : Fields) : Option Fields :=
  fs.alter? name fun
    | none => some v
    | some _ => none

/-- Adds a value under a key of several parts. On the way there are only tables that no header
defined, and the last of them came about by such a key. -/
def Fields.addDotted? (name : Text) (v : Node) : List Text → Fields → Option Fields
  | [], fs => fs.addNew? name v
  | part :: path, fs =>
    fs.alter? part fun
      | none => (addDotted? name v path []).map (.table .dotted)
      | some (.table .dotted inner) => (addDotted? name v path inner).map (.table .dotted)
      | some (.table .implicit inner) =>
        if path.isEmpty then none else (addDotted? name v path inner).map (.table .implicit)
      | some _ => none

def Fields.beginTable? (name : Text) (fs : Fields) : Option Fields :=
  fs.alter? name fun
    | none => some (.table .explicit [])
    | some (.table .implicit inner) => some (.table .explicit inner)
    | some _ => none

def Fields.beginTables? (name : Text) (fs : Fields) : Option Fields :=
  fs.alter? name fun
    | none => some (.tables [] [])
    | some (.tables latest before) => some (.tables [] (latest :: before))
    | some _ => none

mutual

def Node.toValue : Node → Value
  | .value v => v
  | .table _ fields => .table (fieldValues fields)
  | .tables latest before => .list (tableValues before ++ [.table (fieldValues latest)])

def fieldValues : List (Text × Node) → List (Text × Value)
  | [] => []
  | f :: fs => fieldValue f :: fieldValues fs

def fieldValue : Text × Node → Text × Value
  | (name, n) => (name, n.toValue)

def tableValues : List (List (Text × Node)) → List Value
  | [] => []
  | fields :: before => tableValues before ++ [.table (fieldValues fields)]

end

mutual

def valueWithin? : Nat → Text → Read Value
  | 0, _ => none
  | n + 1, t =>
    match t with
    | '[' :: r => (itemsWithin? n (skipLines r)).map fun (items, rest) => (.list items, rest)
    | '{' :: r =>
      match skipSpaces r with
      | '}' :: rest => some (.table [], rest)
      | _ => (pairsWithin? n [] r).map fun (fs, rest) => (.table (fieldValues fs), rest)
    | t =>
      match string? t with
      | some (s, rest) => some (.text s, rest)
      | none =>
        match Text.strip? "true".toList t, Text.strip? "false".toList t with
        | some rest, _ => some (.flag true, rest)
        | none, some rest => some (.flag false, rest)
        | none, none => plain? t

def itemsWithin? : Nat → Text → Read (List Value)
  | 0, _ => none
  | n + 1, t =>
    match t with
    | ']' :: rest => some ([], rest)
    | t =>
      match valueWithin? n t with
      | none => none
      | some (v, rest) =>
        match skipLines rest with
        | ']' :: rest => some ([v], rest)
        | ',' :: rest =>
          (itemsWithin? n (skipLines rest)).map fun (items, rest) => (v :: items, rest)
        | _ => none

def pairsWithin? : Nat → Fields → Text → Read Fields
  | 0, _, _ => none
  | n + 1, fs, t =>
    match key? t with
    | some ((path, name), '=' :: rest) =>
      match valueWithin? n (skipSpaces rest) with
      | none => none
      | some (v, rest) =>
        match fs.addDotted? name (.value v) path, skipSpaces rest with
        | some fs, '}' :: rest => some (fs, rest)
        | some fs, ',' :: rest => pairsWithin? n fs rest
        | _, _ => none
    | _ => none

end

def value? (t : Text) : Read Value := valueWithin? (t.length + 1) t

/-! ### Documents -/

structure State where
  fields : Fields
  header : List Text

inductive Statement where
  | pair (path : List Text) (name : Text) (v : Value)
  | table (path : List Text) (name : Text)
  | tables (path : List Text) (name : Text)

/-- One statement. A header in double brackets has no space between them. -/
def statement? (t : Text) : Read Statement :=
  match t with
  | '[' :: '[' :: r =>
    match key? r with
    | some ((path, name), ']' :: ']' :: rest) => some (.tables path name, rest)
    | _ => none
  | '[' :: r =>
    match key? r with
    | some ((path, name), ']' :: rest) => some (.table path name, rest)
    | _ => none
  | t =>
    match key? t with
    | some ((path, name), '=' :: rest) =>
      (value? (skipSpaces rest)).map fun (v, rest) => (.pair path name v, rest)
    | _ => none

def State.perform? (s : State) : Statement → Option State
  | .pair path name v =>
    (s.fields.atHeader? (Fields.addDotted? name (.value v) path) s.header).map fun fs =>
      { s with fields := fs }
  | .table path name =>
    (s.fields.atHeader? (Fields.beginTable? name) path).map fun fs => ⟨fs, path ++ [name]⟩
  | .tables path name =>
    (s.fields.atHeader? (Fields.beginTables? name) path).map fun fs => ⟨fs, path ++ [name]⟩

def State.read? : Nat → State → Text → Option State
  | 0, _, _ => none
  | n + 1, s, t =>
    match skipLines t with
    | [] => some s
    | t => do
      let (statement, rest) ← statement? t
      let s ← s.perform? statement
      State.read? n s (← endLine? rest)

def ofText? (t : Text) : Option (List (Text × Value)) :=
  let t := (Text.strip? ['\uFEFF'] t).getD t
  (State.read? (t.length + 1) ⟨[], []⟩ t).map fun s => fieldValues s.fields

end Toml

end WebSurface
