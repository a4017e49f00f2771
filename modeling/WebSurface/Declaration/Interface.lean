import WebSurface.Declaration.Member
set_option autoImplicit false

namespace WebSurface

inductive DeclarationKind where
  | interface
  | alias
  deriving DecidableEq, Repr

structure Head where
  kind : DeclarationKind
  name : Text
  bases : List Text
  /-- the byte offset at which the head ends -/
  stop : Nat
  deriving DecidableEq, Repr

namespace Head

/-- The text of the head, and the rest from the first brace or equals sign at top level on. -/
def cut (t : Text) : Text × Text := breakTopLevel (fun c => c == '{' || c == '=') t

theorem cut_append (t : Text) : (cut t).1 ++ (cut t).2 = t := Nesting.breakAt_append _ _ t

def isModifier (t : Token) : Bool := t.isWord "export" || t.isWord "declare" || t.isWord "default"

def kind? (t : Token) : Option DeclarationKind :=
  if t.isWord "interface" then some .interface
  else if t.isWord "type" then some .alias
  else none

def baseName (t : Text) : Text := Text.trim (t.takeWhile (· != '<'))

def basesOf (t : Text) : List Text := ((partsTopLevel ',' t).map baseName).filter (!·.isEmpty)

/-- The tokens after a list of type parameters, if the tokens begin with one; nothing when the list
is not closed. -/
def skipTypeParameters? (head : Text) : List Token → Option (List Token)
  | t :: ts =>
    if t.kind == .sign (.opening .angle) then
      (matchingClose head t.span.start).map fun close => ts.dropWhile (·.span.start ≤ close)
    else some (t :: ts)
  | [] => some []

def bases? (head : Text) (tokens : List Token) : Option (List Text) :=
  (skipTypeParameters? head tokens).map fun
    | t :: _ => if t.isWord "extends" then basesOf (head.after t.span.stop) else []
    | [] => []

def ofText? (t : Text) : Option Head :=
  let head := (cut t).1
  match Token.tokenize head with
  | .error _ => none
  | .ok tokens =>
    match tokens.dropWhile isModifier with
    | word :: named :: rest => do
      let kind ← kind? word
      let name ← named.kind.name?
      let bases ← match kind with
        | .interface => bases? head rest
        | .alias => some []
      return ⟨kind, name, bases, head.bytes⟩
    | _ => none

end Head

structure Skipped where
  span : Span
  text : Text
  reason : SkipReason
  deriving DecidableEq, Repr

namespace Interface

structure Reading where
  interface : Interface
  skipped : List Skipped
  deriving DecidableEq, Repr

/-- Adds a member. One of the same name gives it its place. -/
def add (i : Interface) : Member → Interface
  | .property p => { i with properties := i.properties.put p }
  | .method m => { i with methods := i.methods.put m }
  | .call c => { i with call := some c }

def Reading.member (n : Nat) (r : Reading) (s : Segment) : Reading :=
  match Member.ofText s.text with
  | .ok m => { r with interface := r.interface.add m }
  | .error reason => { r with skipped := r.skipped ++ [⟨s.span.shift n, s.text, reason⟩] }

/-- The body after its opening brace; one that is not closed goes on to the end of the text. -/
def bodyOf (t : Text) : Text :=
  match group? t with
  | some (body, _) => body
  | none => t.tail

def read (raw : Text) : Except DeclarationFault Reading :=
  let whole := Text.blankComments raw
  let text := whole.trimStart
  let leading := whole.bytes - text.bytes
  match Head.ofText? text with
  | some ⟨.interface, name, bases, stop⟩ =>
    let rest := text.after stop
    if Text.startsWith ['{'] rest then
      let start : Reading := ⟨⟨name, bases, .empty, .empty, none⟩, []⟩
      .ok ((Member.split (bodyOf rest)).foldl (Reading.member (leading + stop + 1)) start)
    else .error (.missingBody name)
  | _ => .error (.missingHeader text.firstLine)

def ofText (raw : Text) : Except DeclarationFault Interface := (read raw).map Reading.interface

end Interface

namespace Alias

def literals? (t : Text) : Option (List Text) :=
  let value? (member : Text) : Option Text :=
    match Token.tokenize member with
    | .ok [⟨.literal _ raw, _⟩, ⟨.eof, _⟩] => some raw
    | _ => none
  match (partsTopLevel '|' (t.dropWhile (· == '|'))).mapM value? with
  | none | some [] => none
  | some variants => some variants

def bodyOf (t : Text) : AliasBody :=
  let type := Text.trim (Text.dropEndWhile (· == ';') t.trim)
  match literals? type with
  | some variants => .literals variants
  | none => .type (TypeText.normalize type)

def ofText (raw : Text) : Except DeclarationFault Alias :=
  let text := (Text.blankComments raw).trim
  match Head.ofText? text with
  | some ⟨.alias, name, _, stop⟩ =>
    match Text.strip? ['='] (text.after stop) with
    | some body => .ok ⟨name, bodyOf body⟩
    | none => .error (.notAlias text.firstLine)
  | _ => .error (.notAlias text.firstLine)

end Alias

inductive Severity where
  | error
  | warning
  | note
  deriving DecidableEq, Repr

structure Diagnostic where
  severity : Severity
  source : Text
  span : Span
  message : Text
  label : Option Text
  help : Option Text
  deriving DecidableEq, Repr

def Skipped.diagnostic (source : Text) (s : Skipped) : Diagnostic where
  severity := .warning
  source := source
  span := s.span
  message := "interface member skipped".toList
  label := some s.reason.message
  help := none

def Severity.name : Severity → Text
  | .error => "error".toList
  | .warning => "warning".toList
  | .note => "note".toList

def Diagnostic.line (t : Text) (d : Diagnostic) : Text :=
  let place := Position.ofOffset t d.span.start
  let number (n : Nat) : Text := ':' :: Nat.toDigits 10 n
  let aside (t : Text) : Text := ": ".toList ++ t
  d.source ++ number place.line ++ number place.column ++ aside d.severity.name ++
    aside d.message ++ d.label.elim [] aside ++ d.help.elim [] aside

end WebSurface
