import WebSurface.Proofs.Distance
import WebSurface.Proofs.PureSurface
set_option autoImplicit false

/-!
What a graph goes through after it was found.

An interface may be inserted, a method classified, and an interface classified, in any order and any
number of times. All that happens to the graph is a sequence of `TypeGraph.Change`s, of which there
are two: an interface joins at the end unless its name is taken, and a classification is noted.
`TypeGraph.sound_run` draws from these what every run of such steps keeps.
-/

namespace WebSurface

namespace TypeGraph

open Declarations Relation

variable {d : Declarations} {g g' : TypeGraph}

inductive Change : TypeGraph → TypeGraph → Prop
  | insert (g : TypeGraph) (i : Interface) : Change g (g.insert i)
  | note (g : TypeGraph) (owner method : Text) (v : Invocation) :
      Change g (g.setInvocation owner method v)

abbrev Becomes : TypeGraph → TypeGraph → Prop := ReflTransGen Change

theorem becomes_anyCalls {calls : Text → TypeGraph → Answer Bool}
    (h : ∀ t g, Becomes g (calls t g).2) (ts : List Text) (g : TypeGraph) :
    Becomes g (anyCalls calls ts g).2 := by
  induction ts generalizing g with
  | nil => exact .refl
  | cons t ts ih =>
    have one := h t g
    rw [anyCalls]
    split
    · rename_i h'
      rwa [h'] at one
    · rename_i h'
      rw [h'] at one
      exact one.trans (ih _)

theorem becomes_memberCalls {calls : Text → TypeGraph → Answer Bool}
    (h : ∀ t g, Becomes g (calls t g).2) (t : Text) (g : TypeGraph) :
    Becomes g (memberCalls calls t g).2 := by
  unfold memberCalls
  split
  · exact .refl
  · exact h _ g

theorem becomes_typeCallsBy {calls : Text → TypeGraph → Answer Bool}
    (h : ∀ t g, Becomes g (calls t g).2) (t : Text) (g : TypeGraph) :
    Becomes g (typeCallsBy calls t g).2 := by
  unfold typeCallsBy
  split
  · exact .refl
  · split
    · exact becomes_anyCalls (becomes_memberCalls h) _ g
    · exact h _ g

/-- The graph and the corpus are looked at before aliases are followed. -/
theorem becomes_nameCalls_of {k : Nat} {name : Text}
    (h : isPlainName name → g.interface? name = none → d.interface? name = none →
      Becomes g (nameCalls d k name g).2) : Becomes g (nameCalls d k name g).2 := by
  cases hp : isPlainName name with
  | false =>
    rw [nameCalls.eq_def]
    simp only [hp, Bool.not_false, if_true]
    exact .refl
  | true =>
    cases hi : g.interface? name with
    | some i =>
      rw [nameCalls.eq_1 _ _ _ _ _ hi, hp]
      exact .refl
    | none =>
      cases hr : d.interface? name with
      | none => exact h hp hi hr
      | some raw =>
        rw [nameCalls.eq_2 _ _ _ _ _ hi hr, hp]
        cases Interface.ofText raw with
        | error e => exact .refl
        | ok i =>
          cases hc : i.isCallback with
          | false =>
            simp only [hc]
            exact .refl
          | true =>
            simp only [hc]
            exact .single (.insert g i)

theorem becomes_nameCalls (k : Nat) (name : Text) (g : TypeGraph) :
    Becomes g (nameCalls d k name g).2 := by
  induction k generalizing name g with
  | zero =>
    refine becomes_nameCalls_of fun hp hi hr => ?_
    rw [nameCalls.eq_def]
    simp only [hp, hi, hr]
    exact .refl
  | succ k ih =>
    refine becomes_nameCalls_of fun hp hi hr => ?_
    rw [nameCalls.eq_def]
    simp only [hp, hi, hr]
    cases aliased? d g name with
    | none => exact .refl
    | some t => exact becomes_typeCallsBy ih t g

theorem becomes_callbacks (ps : List Parameter) (g : TypeGraph) :
    Becomes g (callbacks d ps g).2 := by
  induction ps generalizing g with
  | nil => exact .refl
  | cons p ps ih =>
    have first : Becomes g (typeCalls d p.type g).2 :=
      becomes_typeCallsBy (becomes_nameCalls aliasDepth) p.type g
    exact first.trans (ih _)

theorem becomes_classify (b : Bridging) (owner : Text) (m : Method) (g : TypeGraph) :
    Becomes g (classify d b owner m g).2 := by
  have asked : Becomes g (callbacks d m.parameters g).2 := becomes_callbacks m.parameters g
  unfold classify
  split
  · exact .refl
  · split <;> rename_i h <;> rwa [h] at asked

theorem becomes_classifyMethods (b : Bridging) (owner : Text) (ms : List Method) (g : TypeGraph) :
    Becomes g (classifyMethods d b owner ms g).2 := by
  induction ms generalizing g with
  | nil => exact .refl
  | cons m ms ih =>
    exact ((becomes_classify b owner m g).tail (.note _ owner m.name _)).trans (ih _)

theorem becomes_classifyInterface (b : Bridging) (owner : Text) (g : TypeGraph) :
    Becomes g (classifyInterface d b owner g).2 := by
  unfold classifyInterface
  split
  · exact becomes_classifyMethods b owner _ g
  · exact .refl

inductive Action where
  | insert (i : Interface)
  | classify (b : Bridging) (owner : Text) (m : Method)
  | classifyInterface (b : Bridging) (owner : Text)

def act (d : Declarations) (g : TypeGraph) : Action → TypeGraph
  | .insert i => g.insert i
  | .classify b owner m => (g.classify d b owner m).2
  | .classifyInterface b owner => (g.classifyInterface d b owner).2

def run (d : Declarations) (g : TypeGraph) (actions : List Action) : TypeGraph :=
  actions.foldl (act d) g

theorem becomes_act (g : TypeGraph) (a : Action) : Becomes g (act d g a) := by
  cases a with
  | insert i => exact .single (.insert g i)
  | classify b owner m => exact becomes_classify b owner m g
  | classifyInterface b owner => exact becomes_classifyInterface b owner g

theorem becomes_run (g : TypeGraph) (actions : List Action) : Becomes g (run d g actions) := by
  induction actions generalizing g with
  | nil => exact .refl
  | cons a actions ih => exact (becomes_act g a).trans (ih _)

/-- Interfaces stand under their own names, the root first, and all that is unresolved is no
interface. -/
structure Sound (g : TypeGraph) : Prop where
  titled : g.Titled
  apart {name : Text} (h : name ∈ g.unresolved.list) : name ∉ g.names
  root_first : g.names.head? = some g.root

/-- A later graph: interfaces have joined at the end, and those that were there differ in nothing
but the classification of their methods. -/
structure Extends (g g' : TypeGraph) : Prop where
  root_eq : g'.root = g.root
  aliases_eq : g'.aliases = g.aliases
  names_prefix : g.names <+: g'.names
  unresolved_iff (name : Text) :
    name ∈ g'.unresolved.list ↔ name ∈ g.unresolved.list ∧ name ∉ g'.names
  interface_like {name : Text} {i : Interface} (h : g.interface? name = some i) :
    ∃ j, g'.interface? name = some j ∧ j.Like i

theorem Sound.extends_self (h : g.Sound) : g.Extends g where
  root_eq := rfl
  aliases_eq := rfl
  names_prefix := List.prefix_rfl
  unresolved_iff _ := ⟨fun hn => ⟨hn, h.apart hn⟩, And.left⟩
  interface_like {_ i} hi := ⟨i, hi, .refl i⟩

theorem Extends.trans {g'' : TypeGraph} (h : g.Extends g') (h' : g'.Extends g'') :
    g.Extends g'' where
  root_eq := h'.root_eq.trans h.root_eq
  aliases_eq := h'.aliases_eq.trans h.aliases_eq
  names_prefix := h.names_prefix.trans h'.names_prefix
  unresolved_iff name := by
    have kept : name ∈ g'.names → name ∈ g''.names := fun hn => h'.names_prefix.subset hn
    rw [h'.unresolved_iff, h.unresolved_iff]
    tauto
  interface_like {name i} hi := by
    obtain ⟨j, hj, like⟩ := h.interface_like hi
    obtain ⟨k, hk, like'⟩ := h'.interface_like hj
    exact ⟨k, hk, like'.trans like⟩

/-- What is left of `Sound` once a graph is known to extend a sound one. -/
theorem Extends.sound (h : g.Extends g') (hs : g.Sound) (titled : g'.Titled) : g'.Sound where
  titled := titled
  apart {name} hn := ((h.unresolved_iff name).1 hn).2
  root_first := by
    obtain ⟨last, hl⟩ := h.names_prefix
    rw [← hl, List.head?_append, hs.root_first, h.root_eq]
    rfl

theorem Sound.extends_insert (h : g.Sound) (i : Interface) : g.Extends (g.insert i) where
  root_eq := rfl
  aliases_eq := rfl
  names_prefix := by
    rw [names_insert]
    split
    · exact List.prefix_rfl
    · exact List.prefix_append _ _
  unresolved_iff name := by
    have apart : name ∈ g.unresolved.list → name ∉ g.names := h.apart
    have erased : name ∈ (g.insert i).unresolved.list ↔
        name ∈ g.unresolved.list ∧ name ≠ i.name := NameSet.mem_erase
    rw [erased, mem_names_insert]
    tauto
  interface_like {name j} hj := by
    refine ⟨j, ?_, .refl j⟩
    rw [interface?_insert]
    split
    · rename_i hn
      rw [← hn, hj]
      rfl
    · exact hj

theorem Sound.titled_insert (h : g.Sound) (i : Interface) : (g.insert i).Titled := by
  intro name j hj
  rcases interface?_of_insert hj with hj | ⟨rfl, rfl⟩
  · exact h.titled name j hj
  · rfl

theorem Sound.extends_setInvocation (h : g.Sound) (owner method : Text) (v : Invocation) :
    g.Extends (g.setInvocation owner method v) where
  root_eq := rfl
  aliases_eq := rfl
  names_prefix := by rw [names_setInvocation]
  unresolved_iff name := by
    rw [names_setInvocation]
    exact h.extends_self.unresolved_iff name
  interface_like {name i} hi := by
    obtain ⟨f, like, found⟩ := interface?_setInvocation g owner method v name
    exact ⟨f i, by rw [found, hi]; rfl, like i⟩

theorem Sound.titled_setInvocation (h : g.Sound) (owner method : Text) (v : Invocation) :
    (g.setInvocation owner method v).Titled := by
  intro name j hj
  obtain ⟨f, like, found⟩ := interface?_setInvocation g owner method v name
  rw [found] at hj
  obtain ⟨i, hi, rfl⟩ := Option.map_eq_some_iff.1 hj
  exact (like i).name_eq.trans (h.titled name i hi)

theorem Sound.change (hs : g.Sound) (h : Change g g') : g'.Sound ∧ g.Extends g' := by
  cases h with
  | insert i =>
    have more := hs.extends_insert i
    exact ⟨more.sound hs (hs.titled_insert i), more⟩
  | note owner method v =>
    have more := hs.extends_setInvocation owner method v
    exact ⟨more.sound hs (hs.titled_setInvocation owner method v), more⟩

theorem Sound.becomes (hs : g.Sound) (h : Becomes g g') : g'.Sound ∧ g.Extends g' := by
  induction h with
  | refl => exact ⟨hs, hs.extends_self⟩
  | tail _ last ih =>
    obtain ⟨sound, extended⟩ := ih.1.change last
    exact ⟨sound, ih.2.trans extended⟩

theorem Sound.insert_eq_self (h : g.Sound) {i : Interface} (hi : i.name ∈ g.names) :
    g.insert i = g :=
  TypeGraph.insert_eq_self hi fun hu => h.apart hu hi

theorem sound_of_resolve {corpus : Text} {table : TypeTable} {followBases : Bool} {root : Text}
    (h : resolve (.ofText corpus) table followBases root = .ok g) : g.Sound := by
  have hd := named_ofText corpus
  have exact := exact_of_resolve hd h
  refine ⟨exact.faithful.titled hd, fun {name} hu hi => (exact.disjoint name).2.1 ⟨hi, hu⟩, ?_⟩
  rw [exact.root_eq]
  obtain ⟨i, hi, rfl, rfl⟩ := exists_of_resolve hd h
  obtain ⟨all, ordered, -⟩ := ordered_explore (ordered_ofRoot i) (spreading_root hi)
  exact ordered.head_eq

/-- After every step of a run that starts at a graph of the corpus, interfaces stand under their own
names, the root first, and none is unresolved. No step removes or moves an interface or changes more
of it than what is noted about its methods, and a name that is taken stays with its interface. -/
theorem sound_run {corpus : Text} {table : TypeTable} {followBases : Bool} {root : Text}
    {start : TypeGraph} (h : resolve (.ofText corpus) table followBases root = .ok start)
    (actions more : List Action) :
    (run (.ofText corpus) start actions).Sound ∧
      (run (.ofText corpus) start actions).root = root ∧
      (run (.ofText corpus) start actions).Extends (run (.ofText corpus) start (actions ++ more)) ∧
      ∀ i, i.name ∈ (run (.ofText corpus) start actions).names →
        run (.ofText corpus) start (actions ++ [.insert i]) =
          run (.ofText corpus) start actions := by
  obtain ⟨sound, extended⟩ := (sound_of_resolve h).becomes
    (becomes_run (d := .ofText corpus) start actions)
  have titled : start.root = root := (exact_of_resolve (named_ofText corpus) h).root_eq
  have later (rest : List Action) : run (.ofText corpus) start (actions ++ rest) =
      run (.ofText corpus) (run (.ofText corpus) start actions) rest := List.foldl_append
  refine ⟨sound, extended.root_eq.trans titled, ?_, fun i hi => ?_⟩
  · rw [later]
    exact (sound.becomes (becomes_run _ more)).2
  · rw [later]
    exact sound.insert_eq_self hi

/-- An interface is inserted, and a callback interface joins that its method leads to. The second
insertion finds the name taken. -/
theorem sound_run_joined :
    let d := Declarations.ofText "interface A \x7b \x7d interface B \x7b (x: A): void; \x7d".toList
    let a : Interface := ⟨['A'], [], .empty, .empty, none⟩
    let b : Interface := ⟨['B'], [], .empty, .empty,
      some ⟨[⟨['x'], ['A'], false, false⟩], "void".toList⟩⟩
    let added (v : Option Invocation) : Interface := ⟨['D'], [], .empty,
      .ofList [⟨['m'], [⟨['f'], ['B'], false, false⟩], "void".toList, false, v⟩], none⟩
    let noted := added (some ⟨['m'], "dombind.d.m".toList, [['f']]⟩)
    let actions : List Action :=
      [.insert (added none), .classifyInterface (.ofNames none []) ['D'], .insert (added none)]
    let g : TypeGraph :=
      ⟨['A'], .ofList [(['A'], a), (['D'], noted), (['B'], b)], .empty, .empty⟩
    resolve d .standard false ['A'] = .ok (.ofRoot a) ∧ run d (.ofRoot a) actions = g ∧
      g.Sound ∧ (TypeGraph.ofRoot a).Extends g := by
  intro d a b added noted actions g
  have resolved : resolve d .standard false ['A'] = .ok (.ofRoot a) :=
    Search.resolve_of_steps 0 (by decide +kernel)
  have joined : run d (.ofRoot a) actions = g := by decide +kernel
  obtain ⟨sound, -⟩ := sound_run resolved actions []
  obtain ⟨-, -, extended, -⟩ := sound_run resolved [] actions
  rw [joined] at sound
  rw [List.nil_append, joined] at extended
  exact ⟨resolved, joined, sound, extended⟩

end TypeGraph

end WebSurface
