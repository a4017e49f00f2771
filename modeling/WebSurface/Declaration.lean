import WebSurface.Document
import WebSurface.Names
set_option autoImplicit false

/-!
What declarations say: the members of interfaces, and the two forms of type aliases.

Types are kept as texts, with nullability split off into a flag. The members of an interface are
kept in the order in which their names first occur; names are compared without regard to the case
of ASCII letters. As a record, a declaration leaves out flags that are not set and lists that say
nothing where a reader takes them for granted.
-/

namespace WebSurface

structure Property where
  name : Text
  type : Text
  isNullable : Bool
  isReadonly : Bool
  deriving DecidableEq, Repr

def Property.key (p : Property) : Text := p.name.asciiLower

structure Parameter where
  name : Text
  type : Text
  isNullable : Bool
  isVariadic : Bool
  deriving DecidableEq, Repr

/-- How generated code reaches a method: the method's own name, the name under which it is invoked,
and the parameters through which it calls back. -/
structure Invocation where
  api : Text
  invoked : Text
  callbacks : List Text
  deriving DecidableEq, Repr

namespace Invocation

def direct (name : Text) : Invocation := ⟨name, name, []⟩

def isPure (v : Invocation) : Bool := v.api == v.invoked

@[simp] theorem isPure_direct (name : Text) : (direct name).isPure := by simp [direct, isPure]

end Invocation

structure Method where
  name : Text
  parameters : List Parameter
  returnType : Text
  returnIsNullable : Bool
  /-- set when the method is classified -/
  invocation : Option Invocation
  deriving DecidableEq, Repr

namespace Method

def key (m : Method) : Text := m.name.asciiLower

def isPure? (m : Method) : Option Bool := m.invocation.map Invocation.isPure

def types (m : Method) : List Text := m.parameters.map Parameter.type ++ [m.returnType]

end Method

structure Call where
  parameters : List Parameter
  returnType : Text
  deriving DecidableEq, Repr

def Call.types (c : Call) : List Text := c.parameters.map Parameter.type ++ [c.returnType]

structure Interface where
  name : Text
  bases : List Text
  properties : Keyed Property.key
  methods : Keyed Method.key
  call : Option Call
  deriving DecidableEq, Repr

namespace Interface

/-- The interface has a call signature and nothing else. -/
def isCallback (i : Interface) : Bool :=
  i.call.isSome && i.properties.isEmpty && i.methods.isEmpty

/-- The types written in the members, in the order of properties, methods and call signature. -/
def memberTypes (i : Interface) : List Text :=
  i.properties.list.map Property.type ++ i.methods.list.flatMap Method.types ++
    i.call.toList.flatMap Call.types

end Interface

inductive AliasBody where
  /-- a union of string literals -/
  | literals (variants : List Text)
  /-- any other type, normalized -/
  | type (text : Text)
  deriving DecidableEq, Repr

structure Alias where
  name : Text
  body : AliasBody
  deriving DecidableEq, Repr

def Alias.variants? (a : Alias) : Option (List Text) :=
  match a.body with
  | .literals variants => some variants
  | .type _ => none

inductive DeclarationFault where
  | missingHeader (found : Text)
  | missingBody (name : Text)
  | notAlias (found : Text)
  deriving DecidableEq, Repr

def DeclarationFault.message : DeclarationFault → Text
  | .missingHeader found =>
    "expected an `interface <Name>` header, found `".toList ++ found ++ "`".toList
  | .missingBody name =>
    "interface `".toList ++ name ++ "` has no `\x7b ... \x7d` body".toList
  | .notAlias found =>
    "expected a `type <Name> = ...` alias, found `".toList ++ found ++ "`".toList

section Record

open Document

def Property.record (p : Property) : Document :=
  .record (field "name" (.text p.name) ++ field "type_name" (.text p.type) ++
    field "is_nullable" (.flag p.isNullable) ++ fieldIf p.isReadonly "is_readonly" (.flag true))

def Parameter.record (p : Parameter) : Document :=
  .record (field "name" (.text p.name) ++ field "type_name" (.text p.type) ++
    field "is_nullable" (.flag p.isNullable) ++ fieldIf p.isVariadic "is_variadic" (.flag true))

def Invocation.record (v : Invocation) : Document :=
  .record (field "api_method_name" (.text v.api) ++
    field "invokable_method_name" (.text v.invoked) ++
    fieldIf (!v.callbacks.isEmpty) "callback_parameters" (texts v.callbacks))

def Method.record (m : Method) : Document :=
  .record (field "name" (.text m.name) ++
    field "parameters" (.list (m.parameters.map Parameter.record)) ++
    field "return_type_name" (.text m.returnType) ++
    fieldIf m.returnIsNullable "return_is_nullable" (.flag true) ++
    field? "javascript" m.invocation Invocation.record)

def Call.record (c : Call) : Document :=
  .record (field "parameters" (.list (c.parameters.map Parameter.record)) ++
    field "return_type_name" (.text c.returnType))

def Interface.record (i : Interface) : Document :=
  .record (field "name" (.text i.name) ++ fieldIf (!i.bases.isEmpty) "extends" (texts i.bases) ++
    field "properties" (.list (i.properties.list.map Property.record)) ++
    field "methods" (.list (i.methods.list.map Method.record)) ++
    field? "call_signature" i.call Call.record)

def Alias.record (a : Alias) : Document :=
  .record (field "name" (.text a.name) ++
    match a.body with
    | .literals variants =>
      field "kind" (.text "string_literals".toList) ++ field "variants" (texts variants)
    | .type type => field "kind" (.text "type".toList) ++ field "type_name" (.text type))

end Record

end WebSurface
