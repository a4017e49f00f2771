import Mathlib.Order.Bounds.Basic
import Mathlib.Tactic.Tauto
import WebSurface.Proofs.NameTable
import WebSurface.Proofs.Naming
import WebSurface.Proofs.SearchSteps
set_option autoImplicit false

/-!
The graph of an interface holds exactly what can be reached from it.

`Declarations.Reached` is the least set of names that holds the root and all references of its
members, except names that the type table knows. `TypeGraph.exact_of_resolve` says that these are
the names of the graph, and what each of them stands for. The search keeps a record of what it has
visited (`TypeGraph.Records`), which each of its steps extends by one name.
-/

namespace WebSurface

inductive Interface.Declares (i : Interface) : Text → Prop
  | property {p : Property} : p ∈ i.properties.list → Declares i p.type
  | parameter {m : Method} {p : Parameter} : m ∈ i.methods.list → p ∈ m.parameters →
      Declares i p.type
  | result {m : Method} : m ∈ i.methods.list → Declares i m.returnType
  | callParameter {c : Call} {p : Parameter} : i.call = some c → p ∈ c.parameters →
      Declares i p.type
  | callResult {c : Call} : i.call = some c → Declares i c.returnType

theorem Interface.mem_memberTypes {i : Interface} {t : Text} :
    t ∈ i.memberTypes ↔ i.Declares t := by
  simp only [memberTypes, List.mem_append, List.mem_map, List.mem_flatMap, Method.types,
    Call.types, List.mem_singleton, Option.mem_toList]
  constructor
  · rintro ((⟨p, hp, rfl⟩ | ⟨m, hm, ⟨p, hp, rfl⟩ | rfl⟩) | ⟨c, hc, ⟨p, hp, rfl⟩ | rfl⟩)
    · exact .property hp
    · exact .parameter hm hp
    · exact .result hm
    · exact .callParameter hc hp
    · exact .callResult hc
  · rintro (h | ⟨hm, hp⟩ | hm | ⟨hc, hp⟩ | hc)
    · exact .inl (.inl ⟨_, h, rfl⟩)
    · exact .inl (.inr ⟨_, hm, .inl ⟨_, hp, rfl⟩⟩)
    · exact .inl (.inr ⟨_, hm, .inr rfl⟩)
    · exact .inr ⟨_, hc, .inl ⟨_, hp, rfl⟩⟩
    · exact .inr ⟨_, hc, .inr rfl⟩

namespace Declarations

variable (d : Declarations)

/-- The name is declared by an interface that can be read. -/
def Reads (name : Text) (i : Interface) : Prop :=
  ∃ raw, d.interface? name = some raw ∧ Interface.ofText raw = .ok i

/-- The name is declared by an alias that can be read, and by no interface. -/
def ReadsAlias (name : Text) (a : Alias) : Prop :=
  d.interface? name = none ∧ ∃ raw, d.alias? name = some raw ∧ Alias.ofText raw = .ok a

/-- What is declared under the name `x` refers to the name `y`. -/
inductive Refers (followBases : Bool) (x y : Text) : Prop
  | member {i : Interface} {t : Text} : d.Reads x i → i.Declares t → y ∈ TypeText.references t →
      Refers followBases x y
  | base {i : Interface} : d.Reads x i → followBases = true → y ∈ i.bases → Refers followBases x y
  | aliasBody {a : Alias} {t : Text} : d.ReadsAlias x a → a.body = .type t →
      y ∈ TypeText.references t → Refers followBases x y

/-- The least set of names that holds the root, and all names that its members refer to and the
table does not know. -/
inductive Reached (table : TypeTable) (followBases : Bool) (root : Text) : Text → Prop
  | root : Reached table followBases root root
  | step {x y : Text} : Reached table followBases root x → d.Refers followBases x y →
      table.knows y = false → Reached table followBases root y

variable {d}

theorem Reads.unique {name : Text} {i j : Interface} (hi : d.Reads name i) (hj : d.Reads name j) :
    i = j := by
  obtain ⟨raw, hr, hi⟩ := hi
  obtain ⟨raw', hr', hj⟩ := hj
  obtain rfl := Option.some.inj (hr.symm.trans hr')
  exact Except.ok.inj (hi.symm.trans hj)

theorem ReadsAlias.unique {name : Text} {a b : Alias} (ha : d.ReadsAlias name a)
    (hb : d.ReadsAlias name b) : a = b := by
  obtain ⟨-, raw, hr, ha⟩ := ha
  obtain ⟨-, raw', hr', hb⟩ := hb
  obtain rfl := Option.some.inj (hr.symm.trans hr')
  exact Except.ok.inj (ha.symm.trans hb)

theorem ReadsAlias.not_reads {name : Text} {a : Alias} (ha : d.ReadsAlias name a) (i : Interface) :
    ¬d.Reads name i := by
  rintro ⟨raw, hr, -⟩
  rw [ha.1] at hr
  cases hr

theorem find_eq_interface_iff {name : Text} {i : Interface} :
    d.find name = .interface i ↔ d.Reads name i := by
  unfold find Reads
  cases hr : d.interface? name with
  | none =>
    cases (d.alias? name).bind fun raw => (Alias.ofText raw).toOption <;> simp
  | some raw =>
    cases hi : Interface.ofText raw <;> simp [Except.toOption, hi]

theorem find_eq_alias_iff {name : Text} {a : Alias} :
    d.find name = .alias a ↔ d.ReadsAlias name a := by
  unfold find ReadsAlias
  cases hr : d.interface? name with
  | some raw => cases hi : Interface.ofText raw <;> simp [Except.toOption, hi]
  | none =>
    cases ha : d.alias? name with
    | none => simp
    | some raw => cases hb : Alias.ofText raw <;> simp [Except.toOption, hb]

theorem find_eq_nothing_iff {name : Text} :
    d.find name = .nothing ↔ (∀ i, ¬d.Reads name i) ∧ ∀ a, ¬d.ReadsAlias name a := by
  simp only [← find_eq_interface_iff, ← find_eq_alias_iff]
  cases d.find name <;> simp

theorem mem_references_find {followBases : Bool} {x y : Text} :
    y ∈ (d.find x).references followBases ↔ d.Refers followBases x y := by
  constructor
  · intro h
    cases hf : d.find x with
    | interface i =>
      have hi := find_eq_interface_iff.1 hf
      rw [hf] at h
      simp only [Finding.references, Interface.references, List.mem_append, List.mem_flatMap] at h
      rcases h with ⟨t, ht, hy⟩ | h
      · exact .member hi (Interface.mem_memberTypes.1 ht) hy
      · cases followBases with
        | true => exact .base hi rfl h
        | false => cases h
    | «alias» a =>
      have ha := find_eq_alias_iff.1 hf
      rw [hf] at h
      simp only [Finding.references, Alias.references] at h
      split at h
      · cases h
      · rename_i t hb
        exact .aliasBody ha hb h
    | nothing =>
      rw [hf] at h
      cases h
  · rintro (⟨hi, ht, hy⟩ | ⟨hi, hb, hy⟩ | ⟨ha, hb, hy⟩)
    · rw [find_eq_interface_iff.2 hi]
      exact List.mem_append_left _ (List.mem_flatMap.2 ⟨_, Interface.mem_memberTypes.2 ht, hy⟩)
    · rw [find_eq_interface_iff.2 hi, hb]
      exact List.mem_append_right _ hy
    · rw [find_eq_alias_iff.2 ha]
      simpa [Finding.references, Alias.references, hb] using hy

end Declarations

namespace TypeGraph

open Declarations

variable {d : Declarations} {table : TypeTable} {followBases : Bool} {root : Text}

/-- The name is that of an interface or an alias of the graph, or stands for nothing there. -/
def Holds (g : TypeGraph) (name : Text) : Prop :=
  name ∈ g.interfaces.keys ∨ name ∈ g.aliases.keys ∨ name ∈ g.unresolved.list

theorem Holds.mem {names : List Text} {g : TypeGraph} {x : Text} (hx : g.Holds x)
    (h : g.interfaces.keys ++ g.aliases.keys ++ g.unresolved.list ⊆ names) : x ∈ names := by
  rcases hx with hx | hx | hx <;> exact h (by simp [hx])

theorem holds_note {g : TypeGraph} {f : Finding} {name n : Text} :
    (g.note name f).Holds n ↔ n = name ∨ g.Holds n := by
  cases f with
  | interface i =>
    have keys : n ∈ (g.interfaces.put (name, i)).keys ↔ n = name ∨ n ∈ g.interfaces.keys := by
      simp only [NameTable.mem_keys_iff, NameTable.get?_put]
      split <;> simp [*]
    simp only [Holds, note, keys, or_assoc]
  | «alias» a =>
    have keys : n ∈ (g.aliases.put (name, a)).keys ↔ n = name ∨ n ∈ g.aliases.keys := by
      simp only [NameTable.mem_keys_iff, NameTable.get?_put]
      split <;> simp [*]
    simp only [Holds, note, keys]
    tauto
  | nothing =>
    simp only [Holds, note, NameSet.mem_insert]
    tauto

structure Records (d : Declarations) (visited : List Text) (g : TypeGraph) : Prop where
  interface_iff (name : Text) (i : Interface) :
    g.interfaces.get? name = some i ↔ name ∈ visited ∧ d.Reads name i
  alias_iff (name : Text) (a : Alias) :
    g.aliases.get? name = some a ↔ name ∈ visited ∧ d.ReadsAlias name a
  unresolved_iff (name : Text) :
    name ∈ g.unresolved.list ↔
      name ∈ visited ∧ (∀ i, ¬d.Reads name i) ∧ ∀ a, ¬d.ReadsAlias name a

theorem Records.holds_iff {visited : List Text} {g : TypeGraph} (h : Records d visited g)
    {name : Text} : g.Holds name ↔ name ∈ visited := by
  simp only [Holds, NameTable.mem_keys_iff, h.interface_iff, h.alias_iff, h.unresolved_iff]
  constructor
  · rintro (⟨i, hv, -⟩ | ⟨a, hv, -⟩ | ⟨hv, -⟩) <;> exact hv
  · intro hv
    by_cases hi : ∃ i, d.Reads name i
    · obtain ⟨i, hi⟩ := hi
      exact .inl ⟨i, hv, hi⟩
    by_cases ha : ∃ a, d.ReadsAlias name a
    · obtain ⟨a, ha⟩ := ha
      exact .inr (.inl ⟨a, hv, ha⟩)
    · exact .inr (.inr ⟨hv, not_exists.1 hi, not_exists.1 ha⟩)

theorem recorded_cons {p q : Prop} {n name : Text} {visited : List Text}
    (h : p ↔ n ∈ visited ∧ q) (other : n = name → ¬q) : p ↔ n ∈ name :: visited ∧ q := by
  rw [h, List.mem_cons]
  tauto

theorem recorded_put {α : Type} {P : Text → α → Prop} {m : NameTable α} {visited : List Text}
    (h : ∀ n b, m.get? n = some b ↔ n ∈ visited ∧ P n b) {name : Text} {a : α} (here : P name a)
    (unique : ∀ b, P name b → a = b) (n : Text) (b : α) :
    NameTable.get? (m.put (name, a)) n = some b ↔ n ∈ name :: visited ∧ P n b := by
  rw [NameTable.get?_put]
  by_cases hn : n = name
  · subst hn
    simp only [if_true, Option.some.injEq, List.mem_cons, true_or, true_and]
    exact ⟨fun e => e ▸ here, unique b⟩
  · simp [hn, h]

theorem Records.note {visited : List Text} {g : TypeGraph} (h : Records d visited g) (name : Text) :
    Records d (name :: visited) (g.note name (d.find name)) := by
  -- A name stands for one thing only, so that two of the three tables stay as they are.
  cases hf : d.find name with
  | interface i =>
    have hi := find_eq_interface_iff.1 hf
    refine ⟨recorded_put h.interface_iff hi fun _ => hi.unique, fun n a => ?_, fun n => ?_⟩
    · exact recorded_cons (h.alias_iff n a) fun hn ha => ha.not_reads i (hn ▸ hi)
    · exact recorded_cons (h.unresolved_iff n) fun hn hr => hr.1 i (hn ▸ hi)
  | «alias» a =>
    have ha := find_eq_alias_iff.1 hf
    refine ⟨fun n i => ?_, recorded_put h.alias_iff ha fun _ => ha.unique, fun n => ?_⟩
    · exact recorded_cons (h.interface_iff n i) fun hn hi => ha.not_reads i (hn ▸ hi)
    · exact recorded_cons (h.unresolved_iff n) fun hn hr => hr.2 a (hn ▸ ha)
  | nothing =>
    have hr := find_eq_nothing_iff.1 hf
    refine ⟨fun n i => ?_, fun n a => ?_, fun n => ?_⟩
    · exact recorded_cons (h.interface_iff n i) fun hn => hn ▸ hr.1 i
    · exact recorded_cons (h.alias_iff n a) fun hn => hn ▸ hr.2 a
    · simp only [TypeGraph.note, NameSet.mem_insert, h.unresolved_iff, List.mem_cons]
      constructor
      · rintro (rfl | ⟨hv, hn⟩)
        · exact ⟨.inl rfl, hr⟩
        · exact ⟨.inr hv, hn⟩
      · rintro ⟨hn | hv, hn'⟩
        · exact .inl hn
        · exact .inr ⟨hv, hn'⟩

/-- Where a search from a root stands that has visited some names and has others on its queue. -/
structure Searching (d : Declarations) (table : TypeTable) (followBases : Bool) (root : Text)
    (visited queue : List Text) : Prop where
  root_mem : root ∈ visited
  sound : ∀ x ∈ visited, d.Reached table followBases root x
  queued : ∀ y ∈ queue, ∃ x ∈ visited, d.Refers followBases x y
  closed : ∀ x ∈ visited, ∀ y, d.Refers followBases x y → table.knows y = false →
    y ∈ visited ∨ y ∈ queue

theorem Searching.pass {visited queue : List Text} {name : Text}
    (h : Searching d table followBases root visited (name :: queue))
    (hn : table.knows name = true ∨ name ∈ visited) :
    Searching d table followBases root visited queue where
  root_mem := h.root_mem
  sound := h.sound
  queued y hy := h.queued y (List.mem_cons_of_mem name hy)
  closed x hx y hxy hk := by
    rcases h.closed x hx y hxy hk with hy | hy
    · exact .inl hy
    rcases List.mem_cons.1 hy with rfl | hy
    · rcases hn with hn | hn
      · rw [hk] at hn
        cases hn
      · exact .inl hn
    · exact .inr hy

theorem Searching.visit {visited queue : List Text} {name : Text}
    (h : Searching d table followBases root visited (name :: queue))
    (hn : table.knows name = false) :
    Searching d table followBases root (name :: visited)
      (queue ++ (d.find name).references followBases) where
  root_mem := List.mem_cons_of_mem name h.root_mem
  sound := by
    obtain ⟨x, hx, hxn⟩ := h.queued name List.mem_cons_self
    exact List.forall_mem_cons.2 ⟨.step (h.sound x hx) hxn hn, h.sound⟩
  queued y hy := by
    rcases List.mem_append.1 hy with hy | hy
    · obtain ⟨x, hx, hxy⟩ := h.queued y (List.mem_cons_of_mem name hy)
      exact ⟨x, List.mem_cons_of_mem name hx, hxy⟩
    · exact ⟨name, List.mem_cons_self, mem_references_find.1 hy⟩
  closed x hx y hxy hk := by
    rcases List.mem_cons.1 hx with rfl | hx
    · exact .inr (List.mem_append_right _ (mem_references_find.2 hxy))
    · rcases h.closed x hx y hxy hk with hy | hy
      · exact .inl (List.mem_cons_of_mem name hy)
      rcases List.mem_cons.1 hy with rfl | hy
      · exact .inl List.mem_cons_self
      · exact .inr (List.mem_append_left _ hy)

theorem Searching.mem_iff {visited : List Text}
    (h : Searching d table followBases root visited []) {name : Text} :
    name ∈ visited ↔ d.Reached table followBases root name := by
  refine ⟨h.sound name, fun hn => ?_⟩
  induction hn with
  | root => exact h.root_mem
  | step _ hxy hk ih =>
    rcases h.closed _ ih _ hxy hk with hy | hy
    · exact hy
    · cases hy

/-- The search ends with a record of the names that can be reached. -/
theorem records_explore {visited queue : List Text} {g : TypeGraph} (hr : Records d visited g)
    (hs : Searching d table followBases root visited queue) :
    ∃ all, Records d all (explore d table followBases visited g queue) ∧
      ∀ name, name ∈ all ↔ d.Reached table followBases root name := by
  fun_induction explore d table followBases visited g queue with
  | case1 visited g => exact ⟨visited, hr, fun _ => hs.mem_iff⟩
  | case2 visited g name queue hpass ih => exact ih hr (hs.pass (by simpa using hpass))
  | case3 visited g name queue hpass ih =>
    exact ih (hr.note name) (hs.visit (by simp_all))

theorem root_explore (visited queue : List Text) (g : TypeGraph) :
    (explore d table followBases visited g queue).root = g.root := by
  fun_induction explore d table followBases visited g queue with
  | case1 => rfl
  | case2 _ _ _ _ _ ih => exact ih
  | case3 visited g name queue hpass ih =>
    rw [ih]
    cases d.find name <;> rfl

theorem records_ofRoot {i : Interface} (hi : d.Reads i.name i) :
    Records d [i.name] (ofRoot i) where
  interface_iff name j := by
    simp only [ofRoot, NameTable.get?_singleton, List.mem_singleton]
    split
    · rename_i hn
      subst hn
      simp only [Option.some.injEq, true_and]
      exact ⟨fun e => e ▸ hi, hi.unique⟩
    · rename_i hn
      simp [hn]
  alias_iff name a := by
    simp only [ofRoot, NameTable.get?_empty, List.mem_singleton]
    constructor
    · intro h
      cases h
    · rintro ⟨rfl, ha⟩
      exact absurd hi (ha.not_reads i)
  unresolved_iff name := by
    simp only [ofRoot, NameSet.empty, List.mem_singleton]
    constructor
    · intro h
      cases h
    · rintro ⟨rfl, hn, -⟩
      exact absurd hi (hn i)

theorem searching_root {i : Interface} (hi : d.Reads root i) :
    Searching d table followBases root [root] (i.references followBases) := by
  have references : (d.find root).references followBases = i.references followBases := by
    rw [find_eq_interface_iff.2 hi]
    rfl
  refine ⟨.head _, by simpa using .root, fun y hy => ?_, fun x hx y hxy _ => ?_⟩
  · exact ⟨root, .head _, mem_references_find.1 (references ▸ hy)⟩
  · rw [List.mem_singleton] at hx
    subst hx
    exact .inr (references ▸ mem_references_find.2 hxy)

theorem exists_of_resolve {g : TypeGraph} (hd : d.Named)
    (h : resolve d table followBases root = .ok g) :
    ∃ i, d.Reads root i ∧ i.name = root ∧
      g = explore d table followBases [root] (ofRoot i) (i.references followBases) := by
  unfold resolve at h
  split at h
  · cases h
  rename_i raw hraw
  split at h
  · cases h
  rename_i i hi
  have hname : i.name = root := hd.interface_name hraw hi
  exact ⟨i, ⟨raw, hraw, hi⟩, hname, hname ▸ (Except.ok.inj h).symm⟩

/-- The graph of a root tells of each name that can be reached what it stands for, and holds no
other names. -/
structure Exact (d : Declarations) (table : TypeTable) (followBases : Bool) (root : Text)
    (g : TypeGraph) : Prop where
  root_eq : g.root = root
  holds_iff (name : Text) : g.Holds name ↔ d.Reached table followBases root name
  interface_iff (name : Text) (i : Interface) : g.interfaces.get? name = some i ↔
    d.Reached table followBases root name ∧ d.Reads name i
  alias_iff (name : Text) (a : Alias) : g.aliases.get? name = some a ↔
    d.Reached table followBases root name ∧ d.ReadsAlias name a
  unresolved_iff (name : Text) : name ∈ g.unresolved.list ↔
    d.Reached table followBases root name ∧ (∀ i, ¬d.Reads name i) ∧ ∀ a, ¬d.ReadsAlias name a

theorem exact_of_resolve {g : TypeGraph} (hd : d.Named)
    (h : resolve d table followBases root = .ok g) : Exact d table followBases root g := by
  obtain ⟨i, hi, rfl, rfl⟩ := exists_of_resolve hd h
  obtain ⟨all, hr, hall⟩ := records_explore (records_ofRoot hi) (searching_root hi)
  refine ⟨by rw [root_explore]; rfl, fun name => ?_, fun name j => ?_, fun name a => ?_,
    fun name => ?_⟩
  · rw [hr.holds_iff, hall]
  · rw [hr.interface_iff, hall]
  · rw [hr.alias_iff, hall]
  · rw [hr.unresolved_iff, hall]

theorem Exact.disjoint {g : TypeGraph} (h : Exact d table followBases root g) (name : Text) :
    ¬(name ∈ g.interfaces.keys ∧ name ∈ g.aliases.keys) ∧
      ¬(name ∈ g.interfaces.keys ∧ name ∈ g.unresolved.list) ∧
      ¬(name ∈ g.aliases.keys ∧ name ∈ g.unresolved.list) := by
  simp only [NameTable.mem_keys_iff, h.interface_iff, h.alias_iff, h.unresolved_iff]
  refine ⟨?_, ?_, ?_⟩
  · rintro ⟨⟨i, -, hi⟩, a, -, ha⟩
    exact ha.not_reads i hi
  · rintro ⟨⟨i, -, hi⟩, -, hn, -⟩
    exact hn i hi
  · rintro ⟨⟨a, -, ha⟩, -, -, hn⟩
    exact hn a ha

/-- The names of a graph are the least set that holds its root and all names, not known to the
table, to which a member of the set refers. Each of them stands for what the corpus says. -/
theorem resolve_isLeast {corpus : Text} {g : TypeGraph}
    (h : resolve (.ofText corpus) table followBases root = .ok g) :
    IsLeast
        {names : Set Text | root ∈ names ∧ ∀ x ∈ names, ∀ y,
          (Declarations.ofText corpus).Refers followBases x y → table.knows y = false → y ∈ names}
        {name | name ∈ g.interfaces.keys ∨ name ∈ g.aliases.keys ∨ name ∈ g.unresolved.list} ∧
      (∀ name, ¬(name ∈ g.interfaces.keys ∧ name ∈ g.aliases.keys) ∧
        ¬(name ∈ g.interfaces.keys ∧ name ∈ g.unresolved.list) ∧
        ¬(name ∈ g.aliases.keys ∧ name ∈ g.unresolved.list)) ∧
      (∀ name, g.Holds name →
        (name ∈ g.interfaces.keys ↔ ∃ i, (Declarations.ofText corpus).Reads name i) ∧
        (name ∈ g.aliases.keys ↔ ∃ a, (Declarations.ofText corpus).ReadsAlias name a) ∧
        (name ∈ g.unresolved.list ↔ (∀ i, ¬(Declarations.ofText corpus).Reads name i) ∧
          ∀ a, ¬(Declarations.ofText corpus).ReadsAlias name a)) ∧
      (∀ name i, g.interfaces.get? name = some i →
        ∃ raw, (Declarations.ofText corpus).interface? name = some raw ∧
          Interface.ofText raw = .ok i) ∧
      ∀ name a, g.aliases.get? name = some a →
        ∃ raw, (Declarations.ofText corpus).alias? name = some raw ∧ Alias.ofText raw = .ok a := by
  have exact := exact_of_resolve (named_ofText corpus) h
  refine ⟨⟨⟨?_, ?_⟩, ?_⟩, exact.disjoint, fun name hn => ⟨?_, ?_, ?_⟩, fun name i hi => ?_,
    fun name a ha => ?_⟩
  · exact (exact.holds_iff root).2 .root
  · intro x hx y hxy hk
    exact (exact.holds_iff y).2 (.step ((exact.holds_iff x).1 hx) hxy hk)
  · -- Every such set holds what is reached, step by step from the root.
    rintro names ⟨hroot, hstep⟩ name hn
    have reached := (exact.holds_iff name).1 hn
    induction reached with
    | root => exact hroot
    | step hx hxy hk ih => exact hstep _ (ih ((exact.holds_iff _).2 hx)) _ hxy hk
  · have reached := (exact.holds_iff name).1 hn
    simp only [NameTable.mem_keys_iff, exact.interface_iff, reached, true_and]
  · have reached := (exact.holds_iff name).1 hn
    simp only [NameTable.mem_keys_iff, exact.alias_iff, reached, true_and]
  · have reached := (exact.holds_iff name).1 hn
    simp only [exact.unresolved_iff, reached, true_and]
  · exact ((exact.interface_iff name i).1 hi).2
  · exact ((exact.alias_iff name a).1 ha).2.2

/-- An interface with an alias that leads back to it and to a name that is not declared. -/
theorem resolve_isLeast_cycle :
    let corpus := "interface A \x7b b: B; \x7d type B = C | A;".toList
    let a : Interface := ⟨['A'], [], .ofList [⟨['b'], ['B'], false, false⟩], .empty, none⟩
    let b : Alias := ⟨['B'], .type "C | A".toList⟩
    resolve (.ofText corpus) .standard false ['A'] =
        .ok ⟨['A'], .ofList [(['A'], a)], .ofList [(['B'], b)], .ofList [['C']]⟩ ∧
      IsLeast
        {names : Set Text | ['A'] ∈ names ∧ ∀ x ∈ names, ∀ y,
          (Declarations.ofText corpus).Refers false x y → TypeTable.standard.knows y = false →
            y ∈ names}
        {['A'], ['B'], ['C']} := by
  intro corpus a b
  let g : TypeGraph := ⟨['A'], .ofList [(['A'], a)], .ofList [(['B'], b)], .ofList [['C']]⟩
  have resolved : resolve (.ofText corpus) .standard false ['A'] = .ok g :=
    Search.resolve_of_steps 3 (by decide +kernel)
  have held : {name | name ∈ g.interfaces.keys ∨ name ∈ g.aliases.keys ∨
      name ∈ g.unresolved.list} = ({['A'], ['B'], ['C']} : Set Text) := by
    ext name
    change name ∈ [['A']] ∨ name ∈ [['B']] ∨ name ∈ [['C']] ↔ _
    simp
  rw [← held]
  exact ⟨resolved, (resolve_isLeast resolved).1⟩

end TypeGraph

end WebSurface
