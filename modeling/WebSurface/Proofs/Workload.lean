import Mathlib.Data.List.Nodup
import WebSurface.Proofs.Reached
set_option autoImplicit false

/-!
How much a search does before it ends.

`TypeGraph.Search` is a search under way that keeps an account of what it does, and `Search.step`
takes the next name off the queue. The queue grows while it is worked through and holds names more
than once. What bounds the work is the account itself (`Search.Balanced`): names that were taken off
the queue and names that wait there are together as many as the references of the graph so far, and
what is asked of the corpus is asked for the names that were visited, each of which is new.
-/

namespace WebSurface

namespace Declarations

variable (d : Declarations)

def Serves (name : Text) : Act → Prop
  | .askInterface n | .askAlias n => n = name
  | .readInterface raw => d.interface? name = some raw
  | .readAlias raw => d.alias? name = some raw

variable {d}

theorem serves_of_mem_lookUp {name : Text} {act : Act} (h : act ∈ (d.lookUp name).2) :
    d.Serves name act := by
  unfold lookUp at h
  split at h
  · simp only [List.mem_cons, List.not_mem_nil, or_false] at h
    rcases h with rfl | rfl
    · rfl
    · assumption
  · split at h
    · simp only [List.mem_cons, List.not_mem_nil, or_false] at h
      rcases h with rfl | rfl | rfl
      · rfl
      · rfl
      · assumption
    · simp only [List.mem_cons, List.not_mem_nil, or_false] at h
      rcases h with rfl | rfl <;> rfl

theorem nodup_lookUp (name : Text) : (d.lookUp name).2.Nodup := by
  unfold lookUp
  split
  · simp
  · split <;> simp

theorem Filed.unique {kind : DeclarationKind} {m : NameTable Text} (h : Filed kind m)
    {name name' raw : Text} (hr : m.get? name = some raw) (hr' : m.get? name' = some raw) :
    name = name' := by
  obtain ⟨head, hh, -, rfl⟩ := h name raw hr
  obtain ⟨head', hh', -, rfl⟩ := h name' raw hr'
  rw [Option.some.inj (hh.symm.trans hh')]

theorem Serves.unique (hi : Filed .interface d.interfaces) (ha : Filed .alias d.aliases)
    {name name' : Text} {act : Act} (h : d.Serves name act) (h' : d.Serves name' act) :
    name = name' := by
  cases act with
  | askInterface n => exact h.symm.trans h'
  | askAlias n => exact h.symm.trans h'
  | readInterface raw => exact hi.unique h h'
  | readAlias raw => exact ha.unique h h'

theorem nodup_flatMap_lookUp (hi : Filed .interface d.interfaces) (ha : Filed .alias d.aliases)
    {names : List Text} (h : names.Nodup) : (names.flatMap fun n => (d.lookUp n).2).Nodup := by
  refine List.nodup_flatMap.2 ⟨fun n _ => nodup_lookUp n, h.imp fun hne act hn hm => hne ?_⟩
  exact (serves_of_mem_lookUp hn).unique hi ha (serves_of_mem_lookUp hm)

end Declarations

namespace TypeGraph

/-- The number of references that are written in the interfaces and aliases of a graph. -/
def referenceCount (followBases : Bool) (g : TypeGraph) : Nat :=
  (g.interfaces.values.flatMap fun i => i.references followBases).length +
    (g.aliases.values.flatMap fun a => a.references).length

namespace Search

/-- The search is over when it has taken so many names off the queue, and not before. -/
structure EndsIn (d : Declarations) (table : TypeTable) (followBases : Bool) (n : Nat)
    (s : Search) : Prop where
  queue_ne_nil (m : Nat) (h : m < n) : ((step d table followBases)^[m] s).queue ≠ []
  queue_eq_nil : ((step d table followBases)^[n] s).queue = []

variable {d : Declarations} {table : TypeTable} {followBases : Bool} {root : Text} {s : Search}

theorem length_taken_step (h : s.queue ≠ []) :
    (step d table followBases s).taken.length = s.taken.length + 1 := by
  unfold step
  split
  · contradiction
  · split <;> simp

theorem EndsIn.length_taken {n : Nat} (h : EndsIn d table followBases n s) {m : Nat}
    (hm : m ≤ n) : ((step d table followBases)^[m] s).taken.length = s.taken.length + m := by
  induction m with
  | zero => rfl
  | succ m ih =>
    rw [Function.iterate_succ_apply', length_taken_step (h.queue_ne_nil m hm),
      ih (Nat.le_of_succ_le hm), Nat.add_assoc]

theorem EndsIn.succ {n : Nat} (hq : s.queue ≠ [])
    (h : EndsIn d table followBases n (step d table followBases s)) :
    EndsIn d table followBases (n + 1) s where
  queue_ne_nil m hm := by
    cases m with
    | zero => exact hq
    | succ m =>
      rw [Function.iterate_succ_apply]
      exact h.queue_ne_nil m (Nat.lt_of_succ_lt_succ hm)
  queue_eq_nil := by
    rw [Function.iterate_succ_apply]
    exact h.queue_eq_nil

theorem EndsIn.unique {m n : Nat} (h : EndsIn d table followBases m s)
    (h' : EndsIn d table followBases n s) : m = n := by
  refine Nat.le_antisymm (Nat.le_of_not_lt fun hlt => ?_) (Nat.le_of_not_lt fun hlt => ?_)
  · exact h.queue_ne_nil n hlt h'.queue_eq_nil
  · exact h'.queue_ne_nil m hlt h.queue_eq_nil

/-- Every search ends, since the names that can still be found are ever fewer. -/
theorem exists_endsIn (s : Search) : ∃ n, EndsIn d table followBases n s := by
  obtain ⟨visited, g, queue, taken, acts⟩ := s
  fun_induction explore d table followBases visited g queue generalizing taken acts with
  | case1 visited g => exact ⟨0, fun _ h => absurd h (Nat.not_lt_zero _), rfl⟩
  | case2 visited g name queue pass ih =>
    obtain ⟨n, hn⟩ := ih (taken ++ [name]) acts
    refine ⟨n + 1, .succ (List.cons_ne_nil name queue) ?_⟩
    rw [step]
    dsimp only
    rwa [if_pos pass]
  | case3 visited g name queue pass ih =>
    obtain ⟨n, hn⟩ := ih (taken ++ [name]) (acts ++ (d.lookUp name).2)
    refine ⟨n + 1, .succ (List.cons_ne_nil name queue) ?_⟩
    rw [step]
    dsimp only
    rwa [if_neg pass, Declarations.lookUp_fst]

/-- The account of a search: each reference of its graph has been put on the queue once, and each
name that was visited has been looked up once. -/
structure Balanced (d : Declarations) (followBases : Bool) (root : Text) (s : Search) : Prop where
  records : Records d s.visited s.graph
  nodup : s.visited.Nodup
  count_eq : s.taken.length + s.queue.length = s.graph.referenceCount followBases
  acts_eq : s.acts = s.visited.reverse.flatMap fun name => (d.lookUp name).2
  root_first : ∃ names, s.visited.reverse = root :: names

theorem referenceCount_note {g : TypeGraph} {visited : List Text} (h : Records d visited g)
    {name : Text} (hn : name ∉ visited) (f : Finding) :
    (g.note name f).referenceCount followBases =
      g.referenceCount followBases + (f.references followBases).length := by
  have new : ¬g.Holds name := mt h.holds_iff.1 hn
  simp only [Holds, not_or] at new
  cases f with
  | interface i =>
    simp [referenceCount, note, NameTable.values_put new.1, Finding.references]
    omega
  | «alias» a =>
    simp [referenceCount, note, NameTable.values_put new.2.1, Finding.references, Nat.add_assoc]
  | nothing => rfl

theorem Balanced.step (h : Balanced d followBases root s) :
    Balanced d followBases root (step d table followBases s) := by
  unfold Search.step
  split
  · exact h
  · rename_i name queue hq
    have count := h.count_eq
    rw [hq, List.length_cons] at count
    split
    · exact ⟨h.records, h.nodup, by simp; omega, h.acts_eq, h.root_first⟩
    · rename_i pass
      have new : name ∉ s.visited := by simp_all
      obtain ⟨names, hnames⟩ := h.root_first
      refine ⟨?_, List.nodup_cons.2 ⟨new, h.nodup⟩, ?_, ?_, names ++ [name], ?_⟩
      · rw [Declarations.lookUp_fst]
        exact h.records.note name
      · rw [referenceCount_note h.records new, ← count]
        simp
        omega
      · simp [h.acts_eq]
      · simp [hnames]

theorem Balanced.iterate (h : Balanced d followBases root s) (n : Nat) :
    Balanced d followBases root ((Search.step d table followBases)^[n] s) := by
  induction n with
  | zero => exact h
  | succ n ih =>
    rw [Function.iterate_succ_apply']
    exact ih.step

theorem balanced_begin (hd : d.Named) (h : begin d followBases root = .ok s) :
    Balanced d followBases root s := by
  obtain ⟨raw, i, hraw, hi, rfl⟩ := exists_of_begin h
  obtain rfl := hd.interface_name hraw hi
  refine ⟨records_ofRoot ⟨raw, hraw, hi⟩, List.nodup_singleton _, ?_, ?_, [], rfl⟩
  · simp [referenceCount, ofRoot, Keyed.ofList, NameTable.values, Keyed.put, Keyed.place,
      Keyed.empty]
  · simp [Declarations.lookUp, hraw]

/-- A search that begins comes to an end with the graph of its root. By then as many names have been
taken off the queue as there are references in the graph, no name has been looked up twice, and no
text has been read twice. -/
theorem begin_endsIn (corpus : Text) (table : TypeTable) (followBases : Bool) (root : Text) :
    (∀ f, begin (.ofText corpus) followBases root = .error f →
        resolve (.ofText corpus) table followBases root = .error f) ∧
      ∀ s, begin (.ofText corpus) followBases root = .ok s →
        ∃ n e, EndsIn (.ofText corpus) table followBases n s ∧
          e = (step (.ofText corpus) table followBases)^[n] s ∧
          resolve (.ofText corpus) table followBases root = .ok e.graph ∧
          e.taken.length = n ∧ n = e.graph.referenceCount followBases ∧
          (∃ names, (root :: names).Nodup ∧ e.acts =
            (root :: names).flatMap fun name => ((Declarations.ofText corpus).lookUp name).2) ∧
          e.acts.Nodup := by
  refine ⟨fun f hf => by rw [resolve_eq_begin, hf]; rfl, fun s hs => ?_⟩
  obtain ⟨n, ends⟩ : ∃ n, EndsIn (.ofText corpus) table followBases n s := exists_endsIn s
  have start := balanced_begin (Declarations.named_ofText corpus) hs
  -- The balance holds at the end too, where nothing is left on the queue.
  have done : Balanced (.ofText corpus) followBases root
      ((step (.ofText corpus) table followBases)^[n] s) := start.iterate n
  have taken := ends.length_taken (Nat.le_refl n)
  have empty := ends.queue_eq_nil
  have graph : resolve _ table _ _ = .ok _ := resolve_eq_graph hs empty
  obtain ⟨hi, ha⟩ := Declarations.filed_ofText corpus
  generalize he : (step (.ofText corpus) table followBases)^[n] s = e at done graph taken empty
  have none : s.taken = [] := by
    obtain ⟨raw, i, -, -, rfl⟩ := exists_of_begin hs
    rfl
  rw [none, List.length_nil, Nat.zero_add] at taken
  have count := done.count_eq
  rw [empty, List.length_nil, Nat.add_zero, taken] at count
  obtain ⟨names, hnames⟩ := done.root_first
  have nodup : (root :: names).Nodup := hnames ▸ List.nodup_reverse.2 done.nodup
  have acts := done.acts_eq
  rw [hnames] at acts
  refine ⟨n, e, ends, he.symm, graph, taken, count, ⟨names, nodup, acts⟩, ?_⟩
  rw [acts]
  exact Declarations.nodup_flatMap_lookUp hi ha nodup

/-- An interface and an alias that refer to each other, one of them twice. -/
theorem begin_endsIn_cycle :
    let corpus := "interface A \x7b a: A; b: B; c: B; \x7d type B = A | C;".toList
    let a : Interface := ⟨['A'], [], .ofList [⟨['a'], ['A'], false, false⟩,
      ⟨['b'], ['B'], false, false⟩, ⟨['c'], ['B'], false, false⟩], .empty, none⟩
    let b : Alias := ⟨['B'], .type "A | C".toList⟩
    let asked : List Act := [.askInterface ['A'],
      .readInterface "interface A \x7b a: A; b: B; c: B; \x7d".toList]
    let s : Search := ⟨[['A']], .ofRoot a, [['A'], ['B'], ['B']], [], asked⟩
    let e : Search := ⟨[['C'], ['B'], ['A']],
      ⟨['A'], .ofList [(['A'], a)], .ofList [(['B'], b)], .ofList [['C']]⟩, [],
      [['A'], ['B'], ['B'], ['A'], ['C']],
      asked ++ [.askInterface ['B'], .askAlias ['B'], .readAlias "type B = A | C".toList,
        .askInterface ['C'], .askAlias ['C']]⟩
    begin (.ofText corpus) false ['A'] = .ok s ∧
      EndsIn (.ofText corpus) .standard false 5 s ∧
      (step (.ofText corpus) .standard false)^[5] s = e ∧
      resolve (.ofText corpus) .standard false ['A'] = .ok e.graph ∧
      e.graph.referenceCount false = 5 ∧ e.acts.Nodup := by
  intro corpus a b asked s e
  have started : begin (.ofText corpus) false ['A'] = .ok s := by decide +kernel
  have reached : (step (.ofText corpus) .standard false)^[5] s = e := by decide +kernel
  have five : EndsIn (.ofText corpus) .standard false 5 s := ⟨by decide +kernel, by rw [reached]⟩
  obtain ⟨n, _, ends, rfl, resolved, -, count, -, acts⟩ :=
    (begin_endsIn corpus .standard false ['A']).2 s started
  obtain rfl := ends.unique five
  rw [reached] at resolved count acts
  exact ⟨started, five, reached, resolved, count.symm, acts⟩

end Search

end TypeGraph

end WebSurface
