import WebSurface.Declaration
import WebSurface.TypeText
set_option autoImplicit false

namespace WebSurface

inductive SkipReason where
  | indexSignature
  | constructSignature
  | accessor
  | unrecognized
  | lexing (faults : List Fault)
  deriving DecidableEq, Repr

def SkipReason.message : SkipReason → Text
  | .indexSignature => "index signatures are not bound".toList
  | .constructSignature => "construct signatures are not bound".toList
  | .accessor => "get/set accessors are not bound".toList
  | .unrecognized => "matches neither the property nor the method shape".toList
  | .lexing faults =>
    "could not be tokenized: ".toList ++ (faults.head?.map Fault.message).getD []

namespace Parameter

/-- Reads one parameter. A pseudo-parameter `this` and one without a name are left out; without an
annotation the type is `any`. -/
def ofText? (t : Text) : Option Parameter :=
  let (isVariadic, t) := match Text.strip? "...".toList t with
    | some rest => (true, rest.trimStart)
    | none => (false, t)
  let (before, annotation) := match breakTopLevel (· == ':') t with
    | (before, _ :: annotation) => (before.trim, Text.trim annotation)
    | (before, []) => (before.trim, "any".toList)
  let (name, isOptional) := match Text.stripEnd? ['?'] before with
    | some name => (name.trimEnd, true)
    | none => (before, false)
  if name.isEmpty || name == "this".toList then none
  else
    let (type, isNullish) := TypeText.splitNullish annotation
    some ⟨name, type, isOptional || isNullish, isVariadic⟩

def listOfText (t : Text) : List Parameter := (partsTopLevel ',' t).filterMap ofText?

end Parameter

structure Signature where
  parameters : List Parameter
  returnType : Text
  returnIsNullable : Bool
  deriving DecidableEq, Repr

namespace Signature

/-- The type in what follows the parameters: an annotation, or nothing for `any`. -/
def returnText? (t : Text) : Option Text :=
  let rest := t.trim
  match Text.strip? [':'] rest with
  | some annotation =>
    let type := Text.trim (Text.dropEndWhile (· == ';') annotation.trim)
    if type.isEmpty then none else some type
  | none => if rest.isEmpty then some "any".toList else none

def ofParenthesis? (t : Text) : Option Signature :=
  if Text.startsWith ['('] t then do
    let (inner, rest) ← group? t
    let type ← returnText? rest
    let (returnType, returnIsNullable) := TypeText.splitNullish type
    return ⟨Parameter.listOfText inner, returnType, returnIsNullable⟩
  else none

def ofText? (t : Text) : Option Signature :=
  if Text.startsWith ['<'] t then
    (group? t).bind fun (_, rest) => ofParenthesis? rest.trimStart
  else ofParenthesis? t

end Signature

inductive Member where
  | property (p : Property)
  | method (m : Method)
  | call (c : Call)
  deriving DecidableEq, Repr

namespace Member

def startsName : TokenKind → Bool
  | .name _ | .literal _ _ | .sign (.opening .square) => true
  | _ => false

def opensSignature : TokenKind → Bool
  | .sign (.opening .round) | .sign (.opening .angle) => true
  | _ => false

def firstIs (p : TokenKind → Bool) (tokens : List Token) : Bool :=
  tokens.head?.elim false fun t => p t.kind

def ofName (t : Text) (isReadonly : Bool) (name : Text) (tokens : List Token) :
    Except SkipReason Member :=
  let isOptional := firstIs (· == .sign .question) tokens
  match if isOptional then tokens.tail else tokens with
  | [] => .error .unrecognized
  | mark :: _ =>
    if opensSignature mark.kind then
      match Signature.ofText? (t.after mark.span.start) with
      | some s => .ok (.method ⟨name, s.parameters, s.returnType, s.returnIsNullable, none⟩)
      | none => .error .unrecognized
    else if mark.kind == .sign .colon then
      let annotation := Text.trim (t.after mark.span.stop)
      if annotation.isEmpty then .error .unrecognized
      else
        let (type, isNullish) := TypeText.splitNullish annotation
        .ok (.property ⟨name, type, isOptional || isNullish, isReadonly⟩)
    else .error .unrecognized

def ofTokens (t : Text) (isReadonly : Bool) : List Token → Except SkipReason Member
  | [] => .error .unrecognized
  | first :: rest =>
    match first.kind with
    | .sign (.opening .square) => .error .indexSignature
    | .literal _ raw => ofName t isReadonly raw rest
    | .name word =>
      if word == "new".toList && firstIs opensSignature rest then .error .constructSignature
      else if (word == "get".toList || word == "set".toList) && firstIs startsName rest then
        .error .accessor
      else ofName t isReadonly word rest
    | kind =>
      if opensSignature kind then
        match Signature.ofText? (t.after first.span.start) with
        | some s => .ok (.call ⟨s.parameters, s.returnType⟩)
        | none => .error .unrecognized
      else .error .unrecognized

def ofText (t : Text) : Except SkipReason Member :=
  match Token.tokenize t with
  | .error faults => .error (.lexing faults)
  | .ok tokens =>
    if firstIs (·.isWord "readonly") tokens && firstIs startsName tokens.tail then
      ofTokens t true tokens.tail
    else ofTokens t false tokens

/-- A type goes on after, or began before, one of these. -/
def continuationMarks : List Text := ["|", "&", ":", "=>"].map String.toList

/-- The lines read so far do not end a member: a bracket is open, or a type goes on. -/
def isUnfinished (t : Text) : Bool :=
  0 < depthAfter t || continuationMarks.any fun m => Text.endsWith m t.trimEnd

def continues (line : Text) : Bool :=
  continuationMarks.any fun m => Text.startsWith m line.trimStart

/-- Runs of lines that stand for whole members. The lines start at byte `n`; `pending` is what has
been read of a run that is not complete. Blank lines between runs are left out. -/
def runsFrom (n : Nat) (pending : Option Segment) : List Text → List Segment
  | [] => pending.toList
  | line :: rest =>
    let stop := n + line.bytes
    if pending.isNone && line.blank then runsFrom stop none rest
    else
      let run : Segment := match pending with
        | some s => { s with text := s.text ++ line }
        | none => ⟨n, line⟩
      if isUnfinished run.text || (rest.head?.elim false continues) then
        runsFrom stop (some run) rest
      else run :: runsFrom stop none rest

/-- The members in a run of lines, which semicolons and commas at top level separate. -/
def chunks (run : Segment) : List Segment :=
  (splitTopLevel ';' run.text).flatMap fun part =>
    (splitTopLevel ',' part.text).map fun s => s.shift (run.start + part.start)

/-- Cuts a body into the texts of its members. -/
def split (body : Text) : List Segment := (runsFrom 0 none body.lines).flatMap chunks

end Member

end WebSurface
