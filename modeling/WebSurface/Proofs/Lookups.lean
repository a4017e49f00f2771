import WebSurface.Proofs.Reached
set_option autoImplicit false

/-!
What a search asks for is what it reports.

`Lookup` is anything that answers look-ups of names, with no bound on the names that it knows, so
that a search in it may go on for ever; `Lookup.resolve?` has no value then. For the tables of a
corpus it is `TypeGraph.resolve`. `Lookup.resolve?_of_agree` says that a search depends on the root
and on the names of the graph that it ends with: where two look-ups agree on those, both searches
end with the same graph.
-/

namespace WebSurface

/-- What answers look-ups of names with the texts of interfaces and of aliases. -/
structure Lookup where
  interface? : Text → Option Text
  alias? : Text → Option Text
  /-- the names of the interfaces, to suggest one of them -/
  interfaceNames : List Text

def Declarations.lookup (d : Declarations) : Lookup := ⟨d.interface?, d.alias?, d.interfaceNames⟩

namespace Lookup

variable {s s' : Lookup} {table : TypeTable} {followBases : Bool} {root : Text}

def find (s : Lookup) (name : Text) : Finding :=
  match s.interface? name with
  | some raw => (Interface.ofText raw).toOption.elim .nothing .interface
  | none => ((s.alias? name).bind fun raw => (Alias.ofText raw).toOption).elim .nothing .alias

/-- Works through a queue of names, as `TypeGraph.explore` does. There is no graph when that does
not end. -/
def explore? (s : Lookup) (table : TypeTable) (followBases : Bool) (visited : List Text)
    (g : TypeGraph) (queue : List Text) : Option TypeGraph :=
  match queue with
  | [] => some g
  | name :: queue =>
    if table.knows name || visited.elem name then
      s |>.explore? table followBases visited g queue
    else
      s |>.explore? table followBases (name :: visited) (g.note name (s.find name))
        (queue ++ (s.find name).references followBases)
partial_fixpoint

def resolve? (s : Lookup) (table : TypeTable) (followBases : Bool) (root : Text) :
    Option (Except ResolveFault TypeGraph) :=
  match s.interface? root with
  | none => some (.error (.notFound root (Suggestion.nearest? root s.interfaceNames)))
  | some raw =>
    match Interface.ofText raw with
    | .error cause => some (.error (.unreadable root cause))
    | .ok i =>
      (s.explore? table followBases [i.name] (.ofRoot i) (i.references followBases)).map .ok

open TypeGraph

/-- A search in other look-ups that answer alike for the names it ends with goes the same way. -/
theorem explore?_lockstep {visited queue : List Text} {g r : TypeGraph}
    (h : s.explore? table followBases visited g queue = some r) :
    (∀ name, g.Holds name → r.Holds name) ∧
      ((∀ name, r.Holds name → s.find name = s'.find name) →
        s'.explore? table followBases visited g queue = some r) := by
  refine explore?.partial_correctness s table followBases
    (fun visited g queue r => (∀ name, g.Holds name → r.Holds name) ∧
      ((∀ name, r.Holds name → s.find name = s'.find name) →
        s'.explore? table followBases visited g queue = some r)) ?_ visited g queue r h
  intro run ih visited g queue r hr
  cases queue with
  | nil =>
    obtain rfl := Option.some.inj hr
    exact ⟨fun _ held => held, fun _ => by rw [explore?]⟩
  | cons name queue =>
    rw [explore?]
    dsimp only at hr
    split at hr
    · rename_i pass
      rw [if_pos pass]
      exact ih _ _ _ _ hr
    · rename_i pass
      obtain ⟨kept, same⟩ := ih _ _ _ _ hr
      have held : r.Holds name := kept name (holds_note.2 (.inl rfl))
      refine ⟨fun n hn => kept n (holds_note.2 (.inr hn)), fun agree => ?_⟩
      rw [if_neg pass, ← agree name held]
      exact same agree

theorem find_congr {name : Text} (hi : s.interface? name = s'.interface? name)
    (ha : s.alias? name = s'.alias? name) : s.find name = s'.find name := by
  rw [find, find, hi, ha]

theorem explore?_declarations (d : Declarations) (visited queue : List Text) (g : TypeGraph) :
    d.lookup.explore? table followBases visited g queue =
      some (explore d table followBases visited g queue) := by
  fun_induction explore d table followBases visited g queue with
  | case1 => rw [explore?]
  | case2 visited g name queue pass ih => rw [explore?, if_pos pass, ih]
  | case3 visited g name queue pass ih => rw [explore?, if_neg pass]; exact ih

/-- In the tables of a corpus the search ends, with what `TypeGraph.resolve` finds. -/
theorem resolve?_declarations (d : Declarations) :
    d.lookup.resolve? table followBases root = some (resolve d table followBases root) := by
  unfold resolve? resolve
  simp only [Declarations.lookup]
  cases d.interface? root with
  | none => rfl
  | some raw =>
    cases hi : Interface.ofText raw with
    | error cause => simp [hi]
    | ok i =>
      have explored : d.lookup.explore? table followBases [i.name] (ofRoot i)
          (i.references followBases) = some _ := explore?_declarations d _ _ _
      rw [Declarations.lookup] at explored
      simp [hi, explored]

/-- Nothing that is declared under other names than the root and those of the graph can change the
graph, neither what it holds nor its order. -/
theorem resolve?_of_agree {g : TypeGraph}
    (h : s.resolve? table followBases root = some (.ok g))
    (agree : ∀ name, name = root ∨ g.Holds name →
      s.interface? name = s'.interface? name ∧ s.alias? name = s'.alias? name) :
    s'.resolve? table followBases root = some (.ok g) ∧
      ∀ d : Declarations, d.lookup = s' → resolve d table followBases root = .ok g := by
  have found : s'.resolve? table followBases root = some (.ok g) := by
    unfold resolve? at h ⊢
    rw [← (agree root (.inl rfl)).1]
    split at h
    · cases h
    · split at h
      · cases h
      · obtain ⟨r, hr, he⟩ := Option.map_eq_some_iff.1 h
        obtain rfl := Except.ok.inj he
        have same : ∀ name, r.Holds name → s.find name = s'.find name := fun name held =>
          find_congr (agree name (.inr held)).1 (agree name (.inr held)).2
        rw [(explore?_lockstep hr).2 same]
        rfl
  refine ⟨found, ?_⟩
  rintro d rfl
  rw [resolve?_declarations] at found
  exact Option.some.inj found

/-- Another corpus has one more interface, which refers to the graph but to which the graph does
not. And so has every name but those of the graph, where each refers to the next. -/
theorem resolve?_of_agree_more :
    let d := Declarations.ofText "interface A \x7b b: B; \x7d type B = C | A;".toList
    let more := Declarations.ofText
      "interface D \x7b a: A; \x7d type B = C | A; interface A \x7b b: B; \x7d".toList
    let endless (name : Text) : Option Text :=
      if name ∈ [['A'], ['B'], ['C']] then d.interface? name
      else some ("interface ".toList ++ name ++ " \x7b x: x".toList ++ name ++ "; \x7d".toList)
    let a : Interface := ⟨['A'], [], .ofList [⟨['b'], ['B'], false, false⟩], .empty, none⟩
    let b : Alias := ⟨['B'], .type "C | A".toList⟩
    let g : TypeGraph := ⟨['A'], .ofList [(['A'], a)], .ofList [(['B'], b)], .ofList [['C']]⟩
    d.interface? ['D'] = none ∧ more.interface? ['D'] = some "interface D \x7b a: A; \x7d".toList ∧
      d.lookup.resolve? .standard false ['A'] = some (.ok g) ∧
      resolve more .standard false ['A'] = .ok g ∧
      Lookup.resolve? ⟨endless, d.alias?, []⟩ .standard false ['A'] = some (.ok g) := by
  intro d more endless a b g
  have resolved : d.lookup.resolve? .standard false ['A'] = some (.ok g) := by
    rw [resolve?_declarations]
    exact congrArg some (Search.resolve_of_steps 3 (by decide +kernel))
  have within (name : Text) (h : name = ['A'] ∨ g.Holds name) : name ∈ [['A'], ['B'], ['C']] := by
    rcases h with rfl | h
    · exact .head _
    · exact h.mem (by decide +kernel)
  obtain ⟨absent, present, same⟩ : d.interface? ['D'] = none ∧
      more.interface? ['D'] = some "interface D \x7b a: A; \x7d".toList ∧
      ∀ name ∈ [['A'], ['B'], ['C']], d.lookup.interface? name = more.lookup.interface? name ∧
        d.lookup.alias? name = more.lookup.alias? name := by
    decide +kernel
  refine ⟨absent, present, resolved, ?_, ?_⟩
  · have kept := resolve?_of_agree resolved fun name hn => same name (within name hn)
    exact kept.2 more rfl
  · have agree (name : Text) (hn : name = ['A'] ∨ g.Holds name) : d.lookup.interface? name =
        endless name ∧ d.lookup.alias? name = d.alias? name :=
      ⟨(if_pos (within name hn)).symm, rfl⟩
    exact (resolve?_of_agree resolved agree).1

end Lookup

end WebSurface
