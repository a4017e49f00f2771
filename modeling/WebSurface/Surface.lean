import WebSurface.Purity
set_option autoImplicit false

namespace WebSurface

structure Request where
  /-- the name of the root interface -/
  type : Text
  /-- the path of the object that implements it -/
  implementation : Option Text
  /-- leaves the methods that have to be bridged out of the root -/
  onlyPure : Bool
  /-- the methods that are pure in any case -/
  pureNames : List Text
  /-- the first part of the names of bridged methods -/
  space : Option Text
  followBases : Bool
  deriving DecidableEq, Repr

namespace Request

def ofType (type : Text) : Request := ⟨type, none, false, [], none, false⟩

def implementationPath (r : Request) : Text :=
  r.implementation.getD ("window.".toList ++ r.type.lowerFirst)

def bridging (r : Request) : Bridging := .ofNames r.space r.pureNames

end Request

namespace Surface

structure Property where
  name : Text
  declaredType : Text
  targetType : Text
  isNullable : Bool
  isReadonly : Bool
  deriving DecidableEq, Repr

structure Parameter where
  name : Text
  declaredType : Text
  targetType : Text
  isNullable : Bool
  isVariadic : Bool
  isCallback : Bool
  deriving DecidableEq, Repr

structure Method where
  name : Text
  parameters : List Parameter
  declaredReturnType : Text
  returnType : Text
  invocation : Option Invocation
  deriving DecidableEq, Repr

def Method.isPure? (m : Method) : Option Bool := m.invocation.map Invocation.isPure

structure Callback where
  parameters : List Parameter
  returnType : Text
  deriving DecidableEq, Repr

structure Interface where
  name : Text
  base : Option Text
  isRoot : Bool
  properties : List Property
  methods : List Method
  callback : Option Callback
  deriving DecidableEq, Repr

namespace Interface

def method? (i : Interface) (name : Text) : Option Method :=
  i.methods.find? fun m => m.name.asciiLower == name.asciiLower

def property? (i : Interface) (name : Text) : Option Property :=
  i.properties.find? fun p => p.name.asciiLower == name.asciiLower

end Interface

end Surface

structure Surface where
  type : Text
  implementation : Text
  /-- the root first -/
  interfaces : List Surface.Interface
  aliases : List Alias
  /-- names that are referred to and not declared, in ascending order -/
  unresolved : List Text
  deriving DecidableEq, Repr

namespace Surface

variable (table : TypeTable) (g : TypeGraph)

def ofProperty (p : WebSurface.Property) : Property :=
  ⟨p.name, p.type, table.targetWith p.type p.isNullable, p.isNullable, p.isReadonly⟩

/-- A parameter calls back if it is known to, or if its type is a callback interface of the
graph. -/
def ofParameter (callbacks : List Text) (p : WebSurface.Parameter) : Parameter :=
  ⟨p.name, p.type, table.targetWith p.type p.isNullable, p.isNullable, p.isVariadic,
    callbacks.elem p.name || (g.interface? p.type).elim false WebSurface.Interface.isCallback⟩

def ofMethod (m : WebSurface.Method) : Method :=
  ⟨m.name, m.parameters.map (ofParameter table g (m.invocation.elim [] Invocation.callbacks)),
    m.returnType, table.targetWith m.returnType m.returnIsNullable, m.invocation⟩

def ofCall (c : Call) : Callback :=
  ⟨c.parameters.map (ofParameter table g []), table.target c.returnType⟩

def ofInterface (i : WebSurface.Interface) : Interface :=
  ⟨i.name, i.bases.head?, i.name == g.root, i.properties.list.map (ofProperty table),
    i.methods.list.map (ofMethod table g), i.call.map (ofCall table g)⟩

def ofGraph (implementation : Text) : Surface :=
  ⟨g.root, implementation, g.interfaces.values.map (ofInterface table g), g.aliases.values,
    g.unresolved.list⟩

def keepPure (g : TypeGraph) : TypeGraph :=
  let strip (i : WebSurface.Interface) : WebSurface.Interface :=
    { i with methods := i.methods.keep fun m => m.isPure? != some false }
  { g with interfaces := g.interfaces.update g.root strip }

/-- Resolves a request, classifies the methods of its root and maps all types. -/
def assemble (d : Declarations) (table : TypeTable) (r : Request) : Except ResolveFault Surface :=
  match TypeGraph.resolve d table r.followBases r.type with
  | .error f => .error f
  | .ok g =>
    let (impure, g) := g.classifyInterface d r.bridging g.root
    let g := if r.onlyPure && 0 < impure then keepPure g else g
    .ok (ofGraph table g r.implementationPath)

def root? (s : Surface) : Option Interface := s.interfaces.find? Interface.isRoot

def interface? (s : Surface) (name : Text) : Option Interface :=
  s.interfaces.find? fun i => i.name == name

section Record

open Document

def Property.record (p : Property) : Document :=
  .record (field "name" (.text p.name) ++ field "declared_type" (.text p.declaredType) ++
    field "target_type" (.text p.targetType) ++ field "is_nullable" (.flag p.isNullable) ++
    field "is_readonly" (.flag p.isReadonly))

def Parameter.record (p : Parameter) : Document :=
  .record (field "name" (.text p.name) ++ field "declared_type" (.text p.declaredType) ++
    field "target_type" (.text p.targetType) ++ field "is_nullable" (.flag p.isNullable) ++
    fieldIf p.isVariadic "is_variadic" (.flag true) ++
    fieldIf p.isCallback "is_callback" (.flag true))

def Method.record (m : Method) : Document :=
  .record (field "name" (.text m.name) ++
    field "parameters" (.list (m.parameters.map Parameter.record)) ++
    field "declared_return_type" (.text m.declaredReturnType) ++
    field "return_type" (.text m.returnType) ++
    field? "javascript" m.invocation Invocation.record)

def Callback.record (c : Callback) : Document :=
  .record (field "parameters" (.list (c.parameters.map Parameter.record)) ++
    field "return_type" (.text c.returnType))

def Interface.record (i : Interface) : Document :=
  .record (field "name" (.text i.name) ++ field? "extends" i.base .text ++
    field "is_root" (.flag i.isRoot) ++
    field "properties" (.list (i.properties.map Property.record)) ++
    field "methods" (.list (i.methods.map Method.record)) ++
    field? "callback" i.callback Callback.record)

def record (s : Surface) : Document :=
  .record (field "type_name" (.text s.type) ++ field "implementation" (.text s.implementation) ++
    field "interfaces" (.list (s.interfaces.map Interface.record)) ++
    fieldIf (!s.aliases.isEmpty) "aliases" (.list (s.aliases.map Alias.record)) ++
    fieldIf (!s.unresolved.isEmpty) "unresolved" (texts s.unresolved))

end Record

end Surface

end WebSurface
