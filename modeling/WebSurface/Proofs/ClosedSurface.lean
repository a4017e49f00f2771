import WebSurface.Proofs.Classification
import WebSurface.Surface
set_option autoImplicit false

/-!
The names to which the types of a surface refer.

A surface is closed when each of them is known to the table, stands for an interface or an alias of
the surface, or is listed as unresolved. The search for the graph takes care of that, but callback
interfaces that only the classifier meets join the graph alone. `Surface.closed_assemble_iff` says
what this comes to: a surface is closed if and only if nothing is missing that the parameters of
such an interface refer to.
-/

namespace WebSurface

/-- The classifier meets the callback interface when it looks at the methods of `owner`. -/
def Declarations.MeetsIn (d : Declarations) (b : Bridging) (owner : Text) (ms : List Method)
    (i : Interface) : Prop :=
  ∃ m ∈ ms, b.isListed owner m.name = false ∧
    ∃ p ∈ m.parameters, d.typeCallee? TypeGraph.aliasDepth p.type = some (.interface i)

/-- The classifier meets the callback interface when the request is answered. -/
def Declarations.Meets (d : Declarations) (r : Request) (i : Interface) : Prop :=
  ∃ root, d.Reads r.type root ∧ d.MeetsIn r.bridging r.type root.methods.list i

/-- An interface has the members of another one, where methods may be left out or classified. -/
structure Interface.Within (i j : Interface) : Prop where
  name_eq : i.name = j.name
  properties_eq : i.properties = j.properties
  call_eq : i.call = j.call
  methods_sub : ∀ m ∈ i.methods.list, ∃ n ∈ j.methods.list, m.bare = n.bare

theorem Interface.Like.within {i j : Interface} (h : i.Like j) : i.Within j where
  name_eq := h.name_eq
  properties_eq := h.properties_eq
  call_eq := h.call_eq
  methods_sub m hm := by
    have hb : m.bare ∈ j.methods.list.map Method.bare := by
      rw [← h.methods_eq]
      exact List.mem_map_of_mem hm
    obtain ⟨n, hn, he⟩ := List.mem_map.1 hb
    exact ⟨n, hn, he.symm⟩

namespace TypeGraph

open Declarations

variable {d : Declarations} {g : TypeGraph} {name : Text}

theorem holds_insert {i : Interface} :
    (g.insert i).Holds name ↔ g.Holds name ∨ name = i.name := by
  have keys : name ∈ (g.insert i).interfaces.keys ↔
      name ∈ g.interfaces.keys ∨ name = i.name := mem_names_insert
  unfold Holds
  rw [keys]
  simp only [insert, NameSet.mem_erase]
  tauto

theorem holds_join {c : Option Callee} :
    (g.join c).Holds name ↔
      g.Holds name ∨ ∃ i, c = some (.interface i) ∧ name = i.name := by
  cases c with
  | none => simp [join]
  | some c =>
    cases c with
    | function => simp [join]
    | interface i => simp [join, holds_insert]

theorem holds_joinAll {ps : List Parameter} :
    (joinAll d ps g).Holds name ↔ g.Holds name ∨
      ∃ i, (∃ p ∈ ps, d.typeCallee? aliasDepth p.type = some (.interface i)) ∧ name = i.name := by
  induction ps generalizing g with
  | nil => simp [joinAll]
  | cons p ps ih =>
    have step : joinAll d (p :: ps) g =
        joinAll d ps (g.join (d.typeCallee? aliasDepth p.type)) := rfl
    rw [step, ih, holds_join]
    simp only [List.mem_cons, or_and_right, exists_or, exists_eq_left, or_assoc]

theorem holds_setInvocation {owner method : Text} {v : Invocation} :
    (g.setInvocation owner method v).Holds name ↔ g.Holds name := by
  have keys : (g.setInvocation owner method v).interfaces.keys = g.interfaces.keys :=
    names_setInvocation g owner method v
  unfold Holds
  rw [keys]
  rfl

theorem holds_classify (hd : d.Named) (hg : Faithful d g) {b : Bridging} {owner : Text}
    {m : Method} : (classify d b owner m g).2.Holds name ↔
      g.Holds name ∨ ∃ i, d.MeetsIn b owner [m] i ∧ name = i.name := by
  cases hm : b.isListed owner m.name with
  | true =>
    rw [classify, hm]
    simp [MeetsIn, hm]
  | false =>
    rw [classify_eq hd hg hm, holds_joinAll]
    simp [MeetsIn, hm]

theorem holds_classifyMethods (hd : d.Named) (hg : Faithful d g) {b : Bridging} {owner : Text}
    {ms : List Method} : (classifyMethods d b owner ms g).2.Holds name ↔
      g.Holds name ∨ ∃ i, d.MeetsIn b owner ms i ∧ name = i.name := by
  induction ms generalizing g with
  | nil => simp [classifyMethods, MeetsIn]
  | cons m ms ih =>
    have next := (hg.classify hd b owner m).setInvocation owner m.name (classify d b owner m g).1
    have step : (classifyMethods d b owner (m :: ms) g).2 = (classifyMethods d b owner ms
        ((classify d b owner m g).2.setInvocation owner m.name (classify d b owner m g).1)).2 := rfl
    rw [step, ih next, holds_setInvocation, holds_classify hd hg]
    simp only [MeetsIn, List.mem_cons, List.not_mem_nil, or_false, or_and_right, exists_or,
      exists_eq_left, or_assoc]

structure Completed (d : Declarations) (table : TypeTable) (r : Request) (g : TypeGraph) :
    Prop where
  holds_iff (name : Text) : g.Holds name ↔
    d.Reached table r.followBases r.type name ∨ ∃ i, d.Meets r i ∧ name = i.name
  interface_within {name : Text} {i : Interface} (h : g.interface? name = some i) :
    ∃ j, d.Reads name j ∧ i.Within j
  alias_read {name : Text} {a : Alias} (h : g.aliases.get? name = some a) : d.ReadsAlias name a
  unresolved_nothing {name : Text} (h : name ∈ g.unresolved.list) (i : Interface) :
    ¬d.Reads name i

theorem completed_classifyInterface (hd : d.Named) {table : TypeTable} {r : Request}
    (exact : Exact d table r.followBases r.type g) :
    Completed d table r (classifyInterface d r.bridging g.root g).2 := by
  have faithful := exact.faithful.classifyInterface hd r.bridging g.root
  refine ⟨fun name => ?_, fun h => ?_, faithful.alias_read, faithful.unresolved_nothing⟩
  · unfold classifyInterface
    rw [exact.root_eq]
    cases hi : g.interface? r.type with
    | none =>
      have unread (j : Interface) : ¬d.Reads r.type j := fun hj => by
        rw [interface?, (exact.interface_iff r.type j).2 ⟨.root, hj⟩] at hi
        cases hi
      simp [exact.holds_iff, Meets, unread]
    | some i =>
      obtain ⟨-, read⟩ := (exact.interface_iff r.type i).1 hi
      have meets (j : Interface) :
          d.Meets r j ↔ d.MeetsIn r.bridging r.type i.methods.list j := by
        refine ⟨?_, fun h => ⟨i, read, h⟩⟩
        rintro ⟨i', read', h⟩
        rwa [read.unique read']
      simp only [holds_classifyMethods hd exact.faithful, exact.holds_iff, meets]
  · obtain ⟨j, hj, like⟩ := faithful.interface_like h
    exact ⟨j, hj, like.within⟩

end TypeGraph

namespace Surface

open Declarations TypeGraph

inductive Interface.Writes (i : Interface) : Text → Prop
  | property {p : Property} : p ∈ i.properties → Writes i p.declaredType
  | parameter {m : Method} {p : Parameter} : m ∈ i.methods → p ∈ m.parameters →
      Writes i p.declaredType
  | result {m : Method} : m ∈ i.methods → Writes i m.declaredReturnType
  | callParameter {c : Callback} {p : Parameter} : i.callback = some c → p ∈ c.parameters →
      Writes i p.declaredType

/-- A type that is written in a surface. -/
inductive Writes (s : Surface) : Text → Prop
  | interface {i : Interface} {t : Text} : i ∈ s.interfaces → i.Writes t → Writes s t
  | aliasBody {a : Alias} {t : Text} : a ∈ s.aliases → a.body = .type t → Writes s t

/-- The name is that of an interface or an alias of the surface, or listed as unresolved. -/
def Lists (s : Surface) (name : Text) : Prop :=
  (∃ i ∈ s.interfaces, i.name = name) ∨ (∃ a ∈ s.aliases, a.name = name) ∨ name ∈ s.unresolved

/-- No name is missing that a type of the surface refers to. -/
def Closed (table : TypeTable) (s : Surface) : Prop :=
  ∀ t, s.Writes t → ∀ name ∈ TypeText.references t, table.knows name = true ∨ s.Lists name

variable {d : Declarations} {table : TypeTable} {r : Request} {g : TypeGraph}

theorem completed_keepPure (h : Completed d table r g) : Completed d table r (keepPure g) where
  holds_iff name := by
    have keys : (keepPure g).interfaces.keys = g.interfaces.keys := NameTable.keys_update _ _ _
    rw [← h.holds_iff, Holds, keys]
    rfl
  interface_within {name i} hi := by
    simp only [TypeGraph.interface?, keepPure, NameTable.get?_update] at hi
    split at hi
    · obtain ⟨k, hk, rfl⟩ := Option.map_eq_some_iff.1 hi
      obtain ⟨j, hj, within⟩ := h.interface_within hk
      refine ⟨j, hj, within.name_eq, within.properties_eq, within.call_eq, fun m hm => ?_⟩
      exact within.methods_sub m ((List.mem_filter.1 hm).1)
    · exact h.interface_within hi
  alias_read ha := h.alias_read ha
  unresolved_nothing hu := h.unresolved_nothing hu

/-- A surface is that of a graph that holds what can be reached and what the classifier met. -/
theorem exists_of_assemble (hd : d.Named) {s : Surface} (h : assemble d table r = .ok s) :
    ∃ g, Completed d table r g ∧ s = ofGraph table g r.implementationPath := by
  unfold assemble at h
  split at h
  · cases h
  · rename_i g hg
    have completed := completed_classifyInterface hd (exact_of_resolve hd hg)
    generalize classifyInterface d r.bridging g.root g = answer at h completed
    refine ⟨if r.onlyPure && 0 < answer.1 then keepPure answer.2 else answer.2, ?_,
      (Except.ok.inj h).symm⟩
    split
    · exact completed_keepPure completed
    · exact completed

theorem lists_ofGraph (hd : d.Named) (h : Completed d table r g) {path name : Text} :
    (ofGraph table g path).Lists name ↔ g.Holds name := by
  have interfaces : (∃ i ∈ (ofGraph table g path).interfaces, i.name = name) ↔
      name ∈ g.interfaces.keys := by
    simp only [ofGraph, List.mem_map, NameTable.mem_values_iff, NameTable.mem_keys_iff]
    constructor
    · rintro ⟨_, ⟨i, ⟨key, hi⟩, rfl⟩, hn⟩
      obtain ⟨j, ⟨raw, hr, hj⟩, within⟩ := h.interface_within hi
      have hkey : i.name = key := within.name_eq.trans (hd.interface_name hr hj)
      exact ⟨i, by rw [← hn, ← hi, ← hkey]; rfl⟩
    · rintro ⟨i, hi⟩
      obtain ⟨j, ⟨raw, hr, hj⟩, within⟩ := h.interface_within hi
      exact ⟨_, ⟨i, ⟨name, hi⟩, rfl⟩, within.name_eq.trans (hd.interface_name hr hj)⟩
  have aliases : (∃ a ∈ (ofGraph table g path).aliases, a.name = name) ↔
      name ∈ g.aliases.keys := by
    simp only [ofGraph, NameTable.mem_values_iff, NameTable.mem_keys_iff]
    constructor
    · rintro ⟨a, ⟨key, ha⟩, hn⟩
      obtain ⟨-, raw, hr, hb⟩ := h.alias_read ha
      rw [← hn, hd.alias_name hr hb]
      exact ⟨a, ha⟩
    · rintro ⟨a, ha⟩
      obtain ⟨-, raw, hr, hb⟩ := h.alias_read ha
      exact ⟨a, ⟨name, ha⟩, hd.alias_name hr hb⟩
  rw [Lists, interfaces, aliases]
  rfl

theorem mem_ofParameter {callbacks : List Text} {ps : List WebSurface.Parameter} {p : Parameter}
    (h : p ∈ ps.map (ofParameter table g callbacks)) : ∃ q ∈ ps, q.type = p.declaredType := by
  obtain ⟨q, hq, rfl⟩ := List.mem_map.1 h
  exact ⟨q, hq, rfl⟩

/-- What is written in an interface of a surface is declared by the interface it was made of; by one
that calls back, as the type of a parameter. -/
theorem declares_of_writes {i j : WebSurface.Interface} (within : i.Within j) {t : Text}
    (ht : (ofInterface table g i).Writes t) :
    j.Declares t ∧ (j.isCallback → ∃ c, j.call = some c ∧ ∃ p ∈ c.parameters, p.type = t) := by
  cases ht with
  | property h =>
    obtain ⟨p, hp, rfl⟩ := List.mem_map.1 h
    rw [within.properties_eq] at hp
    refine ⟨.property hp, fun hc => ?_⟩
    rw [(Interface.members_of_isCallback hc).1] at hp
    cases hp
  | parameter h hp =>
    obtain ⟨m, hm, rfl⟩ := List.mem_map.1 h
    obtain ⟨q, hq, he⟩ := mem_ofParameter hp
    obtain ⟨n, hn, hb⟩ := within.methods_sub m hm
    have same : m.bare.parameters = n.bare.parameters := congrArg (·.parameters) hb
    refine ⟨he ▸ .parameter hn (same ▸ hq), fun hc => ?_⟩
    rw [(Interface.members_of_isCallback hc).2] at hn
    cases hn
  | result h =>
    obtain ⟨m, hm, rfl⟩ := List.mem_map.1 h
    obtain ⟨n, hn, hb⟩ := within.methods_sub m hm
    have same : m.bare.returnType = n.bare.returnType := congrArg (·.returnType) hb
    have declared : j.Declares n.returnType := .result hn
    rw [show n.returnType = m.returnType from same.symm] at declared
    refine ⟨declared, fun hc => ?_⟩
    rw [(Interface.members_of_isCallback hc).2] at hn
    cases hn
  | callParameter h hp =>
    obtain ⟨c, hc, rfl⟩ := Option.map_eq_some_iff.1 h
    obtain ⟨q, hq, he⟩ := mem_ofParameter hp
    rw [within.call_eq] at hc
    exact ⟨he ▸ .callParameter hc hq, fun _ => ⟨c, hc, q, hq, he⟩⟩

theorem writes_of_meets (hd : d.Named) (h : Completed d table r g) {path : Text}
    {i : WebSurface.Interface} (hi : d.Meets r i) {c : Call} (hc : i.call = some c)
    {p : WebSurface.Parameter} (hp : p ∈ c.parameters) : (ofGraph table g path).Writes p.type := by
  obtain ⟨root, -, m, -, -, q, -, callee⟩ := id hi
  have read := (reads_of_typeCallee? hd callee).1
  have holds : g.Holds i.name := (h.holds_iff i.name).2 (.inr ⟨i, hi, rfl⟩)
  rcases holds with hk | hk | hk
  · obtain ⟨k, hk⟩ := NameTable.mem_keys_iff.1 hk
    obtain ⟨j, hj, within⟩ := h.interface_within hk
    rw [← read.unique hj] at within
    refine .interface (i := ofInterface table g k) ?_ ?_
    · exact List.mem_map_of_mem (NameTable.mem_values_iff.2 ⟨i.name, hk⟩)
    · have called : (ofInterface table g k).callback = some (ofCall table g c) := by
        simp [ofInterface, within.call_eq, hc]
      exact .callParameter called (List.mem_map_of_mem hp)
  · obtain ⟨a, ha⟩ := NameTable.mem_keys_iff.1 hk
    exact absurd read ((h.alias_read ha).not_reads i)
  · exact absurd read (h.unresolved_nothing hk i)

theorem closed_of_meets (hd : d.Named) (h : Completed d table r g) {path : Text}
    (all : ∀ i, d.Meets r i → ∀ c, i.call = some c → ∀ p ∈ c.parameters,
      ∀ name ∈ TypeText.references p.type, table.knows name = true ∨ g.Holds name) :
    (ofGraph table g path).Closed table := by
  have step {x t y : Text} (hx : d.Reached table r.followBases r.type x)
      (hr : d.Refers r.followBases x y) : table.knows y = true ∨ g.Holds y := by
    cases hk : table.knows y with
    | true => exact .inl rfl
    | false => exact .inr ((h.holds_iff y).2 (.inl (.step hx hr hk)))
  -- A text is one of what the root reaches, or of a callback interface that a method meets.
  intro t ht y hy
  rw [lists_ofGraph hd h]
  cases ht with
  | interface hs ht =>
    obtain ⟨i, hi, rfl⟩ := List.mem_map.1 hs
    obtain ⟨name, hi⟩ := NameTable.mem_values_iff.1 hi
    obtain ⟨j, read, within⟩ := h.interface_within hi
    obtain ⟨declared, callback⟩ := declares_of_writes within ht
    rcases (h.holds_iff name).1 (.inl (NameTable.mem_keys_iff.2 ⟨i, hi⟩)) with hr | ⟨k, hk, rfl⟩
    · exact step (t := t) hr (.member read declared hy)
    · obtain ⟨root, -, m, -, -, q, -, callee⟩ := id hk
      obtain ⟨read', hc⟩ := reads_of_typeCallee? hd callee
      rw [read'.unique read] at hk hc
      obtain ⟨c, hcall, p, hp, rfl⟩ := callback hc
      exact all j hk c hcall p hp y hy
  | aliasBody ha hb =>
    obtain ⟨name, ha⟩ := NameTable.mem_values_iff.1 ha
    have read := h.alias_read ha
    rcases (h.holds_iff name).1 (.inr (.inl (NameTable.mem_keys_iff.2 ⟨_, ha⟩))) with
      hr | ⟨k, hk, rfl⟩
    · exact step (t := t) hr (.aliasBody read hb hy)
    · obtain ⟨root, -, m, -, -, q, -, callee⟩ := hk
      exact absurd (reads_of_typeCallee? hd callee).1 (read.not_reads k)

/-- A surface is closed if and only if nothing is missing that a parameter of a callback interface
refers to. All that can be reached from the root is there anyway. -/
theorem closed_assemble_iff {corpus : Text} {s : Surface}
    (h : assemble (.ofText corpus) table r = .ok s) :
    s.Closed table ↔ ∀ i, (Declarations.ofText corpus).Meets r i → ∀ c, i.call = some c →
      ∀ p ∈ c.parameters, ∀ name ∈ TypeText.references p.type, table.knows name = true ∨
        (Declarations.ofText corpus).Reached table r.followBases r.type name ∨
        ∃ j, (Declarations.ofText corpus).Meets r j ∧ name = j.name := by
  have hd := named_ofText corpus
  obtain ⟨g, completed, rfl⟩ := exists_of_assemble hd h
  simp only [← completed.holds_iff]
  refine ⟨fun closed i hi c hc p hp name hn => ?_, closed_of_meets hd completed⟩
  have := closed p.type (writes_of_meets hd completed hi hc hp) name hn
  rwa [lists_ofGraph hd completed] at this

theorem eq_of_meets {root i c : WebSurface.Interface} {m : WebSurface.Method}
    {p : WebSurface.Parameter} (read : d.Reads r.type root) (hm : root.methods.list = [m])
    (hp : m.parameters = [p]) (callee : d.typeCallee? aliasDepth p.type = some (.interface c))
    (h : d.Meets r i) : i = c := by
  obtain ⟨root', read', m', hm', -, p', hp', callee'⟩ := h
  rw [read'.unique read, hm, List.mem_singleton] at hm'
  rw [hm', hp, List.mem_singleton] at hp'
  rw [hp', callee] at callee'
  exact (Callee.interface.inj (Option.some.inj callee')).symm

/-- A callback that the table knows and that refers to nothing which it does not know. -/
theorem closed_assemble_iff_known :
    let corpus :=
      "interface A \x7b m(c: C): void; \x7d interface C \x7b (e: Date): void; \x7d".toList
    let table := TypeTable.ofEntries [(['C'], ['X'])]
    let p : Parameter := ⟨['c'], ['C'], ['X'], false, false, true⟩
    let m : Method := ⟨['m'], [p], "void".toList, "void".toList,
      some ⟨['m'], "dombind.a.m".toList, [['c']]⟩⟩
    let e : Parameter := ⟨['e'], "Date".toList, "DateTime".toList, false, false, false⟩
    let s : Surface := ⟨['A'], "window.a".toList, [⟨['A'], none, true, [], [m], none⟩,
      ⟨['C'], none, false, [], [], some ⟨[e], "void".toList⟩⟩], [], []⟩
    let c : WebSurface.Interface := ⟨['C'], [], .empty, .empty,
      some ⟨[⟨['e'], "Date".toList, false, false⟩], "void".toList⟩⟩
    assemble (.ofText corpus) table (.ofType ['A']) = .ok s ∧
      (Declarations.ofText corpus).Meets (.ofType ['A']) c ∧ s.Closed table := by
  intro corpus table p m e s c
  let method : WebSurface.Method :=
    ⟨['m'], [⟨['c'], ['C'], false, false⟩], "void".toList, false, none⟩
  let root : WebSurface.Interface := ⟨['A'], [], .empty, .ofList [method], none⟩
  have assembled : assemble (.ofText corpus) table (.ofType ['A']) = .ok s :=
    assemble_of_steps 4 (by decide +kernel)
  obtain ⟨read, callee, known⟩ : (Declarations.ofText corpus).find ['A'] = .interface root ∧
      (Declarations.ofText corpus).typeCallee? aliasDepth ['C'] = some (.interface c) ∧
      ∀ name ∈ TypeText.references "Date".toList, table.knows name = true := by
    decide +kernel
  rw [find_eq_interface_iff] at read
  refine ⟨assembled, ⟨root, read, method, .head _, by decide +kernel, _, .head _, callee⟩,
    (closed_assemble_iff assembled).2 fun i hi call hc q hq name hn => .inl ?_⟩
  obtain rfl := eq_of_meets (r := .ofType ['A']) (m := method) read rfl rfl callee hi
  obtain rfl := Option.some.inj hc
  obtain rfl := List.mem_singleton.1 hq
  exact known name hn

/-- The table knows the callback, so that the search passes over it; what it refers to is missing in
the surface. -/
theorem not_closed_assemble :
    let corpus :=
      "interface A \x7b m(cb: Cb): void; \x7d\ninterface Cb \x7b (e: Ev): void; \x7d".toList
    let table := TypeTable.ofEntries [("Cb".toList, ['X'])]
    let p : Parameter := ⟨"cb".toList, "Cb".toList, ['X'], false, false, true⟩
    let m : Method := ⟨['m'], [p], "void".toList, "void".toList,
      some ⟨['m'], "dombind.a.m".toList, ["cb".toList]⟩⟩
    let e : Parameter := ⟨['e'], "Ev".toList, "Ev".toList, false, false, false⟩
    let s : Surface := ⟨['A'], "window.a".toList, [⟨['A'], none, true, [], [m], none⟩,
      ⟨"Cb".toList, none, false, [], [], some ⟨[e], "void".toList⟩⟩], [], []⟩
    assemble (.ofText corpus) table (.ofType ['A']) = .ok s ∧ ¬s.Closed table := by
  intro corpus table p m e s
  refine ⟨assemble_of_steps 4 (by decide +kernel), fun closed => ?_⟩
  have written : s.Writes "Ev".toList :=
    .interface (List.mem_cons_of_mem _ (.head _)) (.callParameter (p := e) rfl (.head _))
  rcases closed _ written "Ev".toList (by decide +kernel) with known | ⟨i, hi, hn⟩ | ⟨a, ha, -⟩ | h
  · revert known
    decide +kernel
  · rcases List.mem_pair.1 hi with rfl | rfl <;> cases hn
  · cases ha
  · cases h

end Surface

end WebSurface
