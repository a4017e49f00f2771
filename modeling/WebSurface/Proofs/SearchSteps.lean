import Mathlib.Logic.Function.Iterate
import WebSurface.Surface
set_option autoImplicit false

namespace WebSurface

/-- What a search asks of a corpus, and which of the texts it is given it reads. -/
inductive Act where
  | askInterface (name : Text)
  | askAlias (name : Text)
  | readInterface (raw : Text)
  | readAlias (raw : Text)
  deriving DecidableEq, Repr

namespace Declarations

variable {d : Declarations}

def lookUp (d : Declarations) (name : Text) : Finding × List Act :=
  match d.interface? name with
  | some raw =>
    ((Interface.ofText raw).toOption.elim .nothing .interface,
      [.askInterface name, .readInterface raw])
  | none =>
    match d.alias? name with
    | some raw =>
      ((Alias.ofText raw).toOption.elim .nothing .alias,
        [.askInterface name, .askAlias name, .readAlias raw])
    | none => (.nothing, [.askInterface name, .askAlias name])

theorem lookUp_fst (name : Text) : (d.lookUp name).1 = d.find name := by
  unfold lookUp find
  cases d.interface? name with
  | some raw => rfl
  | none => cases d.alias? name <;> rfl

end Declarations

namespace TypeGraph

structure Search where
  visited : List Text
  graph : TypeGraph
  queue : List Text
  /-- the names that have been taken off the queue -/
  taken : List Text
  /-- what has been asked of the corpus and read of it -/
  acts : List Act
  deriving DecidableEq

namespace Search

def begin (d : Declarations) (followBases : Bool) (root : Text) : Except ResolveFault Search :=
  match d.interface? root with
  | none => .error (.notFound root (Suggestion.nearest? root d.interfaceNames))
  | some raw =>
    match Interface.ofText raw with
    | .error cause => .error (.unreadable root cause)
    | .ok i =>
      .ok ⟨[i.name], ofRoot i, i.references followBases, [],
        [.askInterface root, .readInterface raw]⟩

/-- Takes the next name off the queue. One that the table knows or that was visited before is passed
over, and any other is looked up. -/
def step (d : Declarations) (table : TypeTable) (followBases : Bool) (s : Search) : Search :=
  match s.queue with
  | [] => s
  | name :: queue =>
    if table.knows name || s.visited.elem name then
      { s with queue := queue, taken := s.taken ++ [name] }
    else
      { visited := name :: s.visited
        graph := s.graph.note name (d.lookUp name).1
        queue := queue ++ (d.lookUp name).1.references followBases
        taken := s.taken ++ [name]
        acts := s.acts ++ (d.lookUp name).2 }

variable {d : Declarations} {table : TypeTable} {followBases : Bool} {root : Text} {s : Search}

theorem explore_step : explore d table followBases (step d table followBases s).visited
      (step d table followBases s).graph (step d table followBases s).queue =
    explore d table followBases s.visited s.graph s.queue := by
  unfold step
  split
  · rfl
  · rename_i name queue hq
    rw [hq, explore.eq_def _ _ _ _ _ (name :: queue)]
    dsimp only
    split
    · rfl
    · rw [Declarations.lookUp_fst]

theorem explore_iterate (n : Nat) :
    explore d table followBases ((step d table followBases)^[n] s).visited
        ((step d table followBases)^[n] s).graph ((step d table followBases)^[n] s).queue =
      explore d table followBases s.visited s.graph s.queue := by
  induction n with
  | zero => rfl
  | succ n ih => rw [Function.iterate_succ_apply', explore_step, ih]

theorem exists_of_begin (h : begin d followBases root = .ok s) :
    ∃ raw i, d.interface? root = some raw ∧ Interface.ofText raw = .ok i ∧
      s = ⟨[i.name], ofRoot i, i.references followBases, [],
        [.askInterface root, .readInterface raw]⟩ := by
  unfold begin at h
  split at h
  · cases h
  rename_i raw hraw
  split at h
  · cases h
  rename_i i hi
  exact ⟨raw, i, hraw, hi, (Except.ok.inj h).symm⟩

theorem resolve_eq_begin : resolve d table followBases root =
    (begin d followBases root).map fun s =>
      explore d table followBases s.visited s.graph s.queue := by
  unfold resolve begin
  cases d.interface? root with
  | none => rfl
  | some raw => cases hi : Interface.ofText raw <;> simp [hi, Except.map]

theorem resolve_eq_graph (hs : begin d followBases root = .ok s) {n : Nat}
    (empty : ((step d table followBases)^[n] s).queue = []) :
    resolve d table followBases root = .ok ((step d table followBases)^[n] s).graph := by
  rw [resolve_eq_begin, hs, Except.map, ← explore_iterate n, empty, explore]

/-- The graph that a search has after so many steps is that of its root, if its queue is empty. -/
theorem resolve_of_steps (n : Nat) {g : TypeGraph}
    (h : (begin d followBases root).map (fun s =>
      let e := (step d table followBases)^[n] s
      (e.graph, e.queue)) = .ok (g, [])) : resolve d table followBases root = .ok g := by
  cases hs : begin d followBases root with
  | error f =>
    rw [hs] at h
    cases h
  | ok s =>
    rw [hs] at h
    obtain ⟨rfl, empty⟩ := Prod.mk.inj (Except.ok.inj h)
    exact resolve_eq_graph hs empty

end Search

end TypeGraph

namespace Surface

open TypeGraph

variable {d : Declarations} {table : TypeTable} {r : Request} {g : TypeGraph}

def ofResolved (d : Declarations) (table : TypeTable) (r : Request) (g : TypeGraph) : Surface :=
  let (impure, g) := g.classifyInterface d r.bridging g.root
  ofGraph table (if r.onlyPure && 0 < impure then keepPure g else g) r.implementationPath

theorem assemble_of_resolve (h : resolve d table r.followBases r.type = .ok g) :
    assemble d table r = .ok (ofResolved d table r g) := by
  unfold assemble ofResolved
  rw [h]

theorem assemble_of_steps (n : Nat) {s : Surface}
    (h : (Search.begin d r.followBases r.type).map (fun b =>
      let e := (Search.step d table r.followBases)^[n] b
      (ofResolved d table r e.graph, e.queue)) = .ok (s, [])) : assemble d table r = .ok s := by
  cases hb : Search.begin d r.followBases r.type with
  | error f =>
    rw [hb] at h
    cases h
  | ok b =>
    rw [hb] at h
    obtain ⟨rfl, empty⟩ := Prod.mk.inj (Except.ok.inj h)
    exact assemble_of_resolve (Search.resolve_eq_graph hb empty)

end Surface

end WebSurface
