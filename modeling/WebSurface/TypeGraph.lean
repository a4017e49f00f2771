import WebSurface.Corpus.Index
import WebSurface.TypeTable
set_option autoImplicit false

/-!
An interface and all the declarations that it refers to.

`TypeGraph.resolve` discovers them breadth first. Every name is looked up at most once, and only
names that are declared lead to more names; since there are finitely many of those, the search ends.
-/

namespace WebSurface

/-- The names that the members of an interface refer to, and those of its bases if they are asked
for, in the order in which they are written. -/
def Interface.references (followBases : Bool) (i : Interface) : List Text :=
  i.memberTypes.flatMap TypeText.references ++ if followBases then i.bases else []

def Alias.references (a : Alias) : List Text :=
  match a.body with
  | .literals _ => []
  | .type t => TypeText.references t

inductive Finding where
  | interface (i : Interface)
  | alias (a : Alias)
  /-- not declared, or declared by a text that cannot be read -/
  | nothing
  deriving DecidableEq, Repr

def Finding.references (followBases : Bool) : Finding → List Text
  | .interface i => i.references followBases
  | .alias a => a.references
  | .nothing => []

namespace Declarations

def find (d : Declarations) (name : Text) : Finding :=
  match d.interface? name with
  | some raw => (Interface.ofText raw).toOption.elim .nothing .interface
  | none => ((d.alias? name).bind fun raw => (Alias.ofText raw).toOption).elim .nothing .alias

def names (d : Declarations) : List Text := d.interfaces.keys ++ d.aliases.keys

theorem mem_keys_of_get? {α : Type} {m : NameTable α} {name : Text} {a : α}
    (h : m.get? name = some a) : name ∈ m.keys := by
  obtain ⟨p, hp, -⟩ := Option.map_eq_some_iff.1 h
  have hk : p.1 = name := by simpa using List.find?_some hp
  exact List.mem_map.2 ⟨p, List.mem_of_find?_eq_some hp, hk⟩

/-- A name that is not declared stands for nothing. -/
theorem find_of_not_mem {d : Declarations} {name : Text} (h : name ∉ d.names) :
    d.find name = .nothing := by
  simp only [names, List.mem_append, not_or] at h
  have hi : d.interface? name = none := by
    cases hi : d.interface? name with
    | none => rfl
    | some raw => exact absurd (mem_keys_of_get? hi) h.1
  have ha : d.alias? name = none := by
    cases ha : d.alias? name with
    | none => rfl
    | some raw => exact absurd (mem_keys_of_get? ha) h.2
  simp [find, hi, ha]

def remaining (d : Declarations) (visited : List Text) : Nat :=
  d.names.countP fun name => !visited.elem name

theorem remaining_cons_le (d : Declarations) (name : Text) (visited : List Text) :
    d.remaining (name :: visited) ≤ d.remaining visited := by
  refine List.countP_mono_left fun n _ h => ?_
  simp_all

theorem remaining_cons_lt {d : Declarations} {name : Text} {visited : List Text}
    (hd : name ∈ d.names) (hv : name ∉ visited) :
    d.remaining (name :: visited) < d.remaining visited := by
  unfold remaining
  generalize d.names = names at hd
  induction names with
  | nil => simp at hd
  | cons n ns ih =>
    have le : ns.countP (fun m => !(name :: visited).elem m) ≤
        ns.countP fun m => !visited.elem m :=
      List.countP_mono_left fun m _ h => by simp_all
    by_cases hn : n = name
    · subst hn
      rw [List.countP_cons_of_neg (by simp), List.countP_cons_of_pos (by simpa using hv)]
      exact Nat.lt_succ_of_le le
    · have := ih ((List.mem_cons.1 hd).resolve_left fun e => hn e.symm)
      by_cases hm : n ∈ visited <;> simp_all

end Declarations

structure TypeGraph where
  root : Text
  interfaces : NameTable Interface
  aliases : NameTable Alias
  unresolved : NameSet
  deriving DecidableEq, Repr

inductive ResolveFault where
  | notFound (name : Text) (suggestion : Option Text)
  | unreadable (name : Text) (cause : DeclarationFault)
  deriving DecidableEq, Repr

namespace ResolveFault

def message : ResolveFault → Text
  | .notFound name suggestion =>
    "no interface named `".toList ++ name ++ "` in the corpus".toList ++
      suggestion.elim [] fun s => "; did you mean `".toList ++ s ++ "`?".toList
  | .unreadable name _ => "interface `".toList ++ name ++ "` could not be parsed".toList

def chain (f : ResolveFault) : List Text :=
  match f with
  | .notFound _ _ => [f.message]
  | .unreadable _ cause => [f.message, cause.message]

def suggestion? : ResolveFault → Option Text
  | .notFound _ suggestion => suggestion
  | .unreadable _ _ => none

end ResolveFault

namespace TypeGraph

def ofRoot (i : Interface) : TypeGraph := ⟨i.name, .ofList [(i.name, i)], .empty, .empty⟩

def interface? (g : TypeGraph) (name : Text) : Option Interface := g.interfaces.get? name

def contains (g : TypeGraph) (name : Text) : Bool :=
  g.interfaces.contains name || g.aliases.contains name

def names (g : TypeGraph) : List Text := g.interfaces.keys

/-- Adds an interface that was found later, unless its name is taken. -/
def insert (g : TypeGraph) (i : Interface) : TypeGraph :=
  { g with
    interfaces := g.interfaces.putNew (i.name, i)
    unresolved := g.unresolved.erase i.name }

def note (g : TypeGraph) (name : Text) : Finding → TypeGraph
  | .interface i => { g with interfaces := g.interfaces.put (name, i) }
  | .alias a => { g with aliases := g.aliases.put (name, a) }
  | .nothing => { g with unresolved := g.unresolved.insert name }

/-- Works through a queue of names. A name that the table knows or that was visited before is
passed over; what any other name refers to goes to the end of the queue. -/
def explore (d : Declarations) (table : TypeTable) (followBases : Bool) (visited : List Text)
    (g : TypeGraph) : List Text → TypeGraph
  | [] => g
  | name :: queue =>
    if table.knows name || visited.elem name then explore d table followBases visited g queue
    else
      explore d table followBases (name :: visited) (g.note name (d.find name))
        (queue ++ (d.find name).references followBases)
termination_by queue => (d.remaining visited, queue.length)
decreasing_by
  · exact Prod.Lex.right _ (Nat.lt_succ_self _)
  · rename_i h
    have hv : name ∉ visited := by simp_all
    by_cases hd : name ∈ d.names
    · exact Prod.Lex.left _ _ (Declarations.remaining_cons_lt hd hv)
    · rw [Declarations.find_of_not_mem hd]
      rcases Nat.lt_or_eq_of_le (d.remaining_cons_le name visited) with h | h
      · exact Prod.Lex.left _ _ h
      · rw [h]
        exact Prod.Lex.right _ (by simp [Finding.references])

def resolve (d : Declarations) (table : TypeTable) (followBases : Bool) (root : Text) :
    Except ResolveFault TypeGraph :=
  match d.interface? root with
  | none => .error (.notFound root (Suggestion.nearest? root d.interfaceNames))
  | some raw =>
    match Interface.ofText raw with
    | .error cause => .error (.unreadable root cause)
    | .ok i =>
      .ok (explore d table followBases [i.name] (ofRoot i) (i.references followBases))

end TypeGraph

end WebSurface
