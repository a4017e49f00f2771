import WebSurface.Text.Case
import WebSurface.TypeGraph
set_option autoImplicit false

/-!
Which methods can be invoked directly.

A type calls back when it is a function type, the name of an interface that has a call signature
and nothing else, an alias of such a type, or a union with such a member. A method with a parameter
of such a type is bridged: it is invoked under a name of its own and told which parameters call
back. All other methods are pure. Callback interfaces that are met on the way join the graph.
-/

namespace WebSurface

structure Bridging where
  /-- the first part of the names of bridged methods -/
  space : Text
  /-- methods that are pure in any case, as `method` or `Owner.method` in lower case -/
  pureNames : List Text
  deriving DecidableEq, Repr

namespace Bridging

def defaultSpace : Text := "dombind".toList

/-- The rules for a bridge with a name of its own, if there is one, and for methods that are listed
as pure in any spelling. -/
def ofNames (space : Option Text) (pureNames : List Text) : Bridging :=
  ⟨space.getD defaultSpace, pureNames.map Text.lower⟩

def isListed (b : Bridging) (owner method : Text) : Bool :=
  b.pureNames.elem method.lower || b.pureNames.elem (owner.lower ++ ['.'] ++ method.lower)

end Bridging

namespace TypeGraph

abbrev Answer (α : Type) := α × TypeGraph

def aliasDepth : Nat := 4

def isPlainName (t : Text) : Bool := !t.isEmpty && t.all Text.isNameChar

/-- Some text of the list has the property; those after the first that has it are not looked at. -/
def anyCalls (calls : Text → TypeGraph → Answer Bool) : List Text → TypeGraph → Answer Bool
  | [], g => (false, g)
  | t :: ts, g =>
    match calls t g with
    | (true, g) => (true, g)
    | (false, g) => anyCalls calls ts g

def memberCalls (nameCalls : Text → TypeGraph → Answer Bool) (t : Text) (g : TypeGraph) :
    Answer Bool :=
  if TypeText.isFunctionType t then (true, g) else nameCalls t.trim g

def typeCallsBy (nameCalls : Text → TypeGraph → Answer Bool) (t : Text) (g : TypeGraph) :
    Answer Bool :=
  if TypeText.isFunctionType t then (true, g)
  else
    match TypeText.unionMembers t with
    | a :: b :: ms => anyCalls (memberCalls nameCalls) (a :: b :: ms) g
    | _ => nameCalls t.trim g

def aliased? (d : Declarations) (g : TypeGraph) (name : Text) : Option Text :=
  let found := (g.aliases.get? name).or
    ((d.alias? name).bind fun raw => (Alias.ofText raw).toOption)
  found.bind fun a =>
    match a.body with
    | .type t => some t
    | .literals _ => none

/-- A name calls back. Chains of at most as many aliases as the first argument says are followed. -/
def nameCalls (d : Declarations) : Nat → Text → TypeGraph → Answer Bool
  | depth, name, g =>
    if !isPlainName name then (false, g)
    else
      match g.interface? name, d.interface? name, depth with
      | some i, _, _ => (i.isCallback, g)
      | none, some raw, _ =>
        match Interface.ofText raw with
        | .ok i => if i.isCallback then (true, g.insert i) else (false, g)
        | .error _ => (false, g)
      | none, none, 0 => (false, g)
      | none, none, depth + 1 =>
        match aliased? d g name with
        | some t => typeCallsBy (nameCalls d depth) t g
        | none => (false, g)

def typeCalls (d : Declarations) (t : Text) (g : TypeGraph) : Answer Bool :=
  typeCallsBy (nameCalls d aliasDepth) t g

def callbacks (d : Declarations) : List Parameter → TypeGraph → Answer (List Text)
  | [], g => ([], g)
  | p :: ps, g =>
    let (calls, g) := typeCalls d p.type g
    let (names, g) := callbacks d ps g
    (if calls then p.name :: names else names, g)

def classify (d : Declarations) (b : Bridging) (owner : Text) (m : Method) (g : TypeGraph) :
    Answer Invocation :=
  if b.isListed owner m.name then (.direct m.name, g)
  else
    match callbacks d m.parameters g with
    | ([], g) => (.direct m.name, g)
    | (names, g) =>
      (⟨m.name, b.space ++ ['.'] ++ owner.lowerFirst ++ ['.'] ++ m.name, names⟩, g)

def setInvocation (g : TypeGraph) (owner method : Text) (v : Invocation) : TypeGraph :=
  let note (m : Method) : Method := { m with invocation := some v }
  let noteIn (i : Interface) : Interface :=
    { i with methods := i.methods.edit method.asciiLower note fun _ => rfl }
  { g with interfaces := g.interfaces.update owner noteIn }

/-- Classifies methods of `owner` one after another and counts those that are not pure. -/
def classifyMethods (d : Declarations) (b : Bridging) (owner : Text) :
    List Method → TypeGraph → Answer Nat
  | [], g => (0, g)
  | m :: ms, g =>
    let (v, g) := classify d b owner m g
    let (impure, g) := classifyMethods d b owner ms (g.setInvocation owner m.name v)
    (if v.isPure then impure else impure + 1, g)

def classifyInterface (d : Declarations) (b : Bridging) (owner : Text) (g : TypeGraph) :
    Answer Nat :=
  match g.interface? owner with
  | some i => classifyMethods d b owner i.methods.list g
  | none => (0, g)

end TypeGraph

end WebSurface
