import Mathlib.Order.Lattice.Nat
import WebSurface.Proofs.Reached
set_option autoImplicit false

/-!
The names of a graph stand in the order of their distance from the root.

`Declarations.distance` is the least number of references that lead from the root to a name. The
queue of a search holds names twice, and names that are passed over later. What keeps the order is
said of the names by which they came to be on the queue (`TypeGraph.Spreading`): all that older
names than those refer to has been visited, or stands further ahead.
-/

namespace WebSurface

namespace Declarations

variable (d : Declarations) (table : TypeTable) (followBases : Bool) (root : Text)

/-- So many references one after another lead to the name, over names that the table does not
know. -/
inductive ReachedIn : Nat → Text → Prop
  | root : ReachedIn 0 root
  | step {n : Nat} {x y : Text} : ReachedIn n x → d.Refers followBases x y →
      table.knows y = false → ReachedIn (n + 1) y

noncomputable def distance (name : Text) : Nat :=
  sInf {n | d.ReachedIn table followBases root n name}

variable {d table followBases root} {x y : Text}

theorem reached_iff : d.Reached table followBases root x ↔
    ∃ n, d.ReachedIn table followBases root n x := by
  constructor
  · intro h
    induction h with
    | root => exact ⟨0, .root⟩
    | step _ hxy hk ih =>
      obtain ⟨n, hn⟩ := ih
      exact ⟨n + 1, .step hn hxy hk⟩
  · rintro ⟨n, h⟩
    induction h with
    | root => exact .root
    | step _ hxy hk ih => exact .step ih hxy hk

/-- What grows by one at most with each reference tells how many of them there are at least. -/
theorem ReachedIn.le {f : Text → Nat} (start : f root = 0)
    (grows : ∀ x y, d.Reached table followBases root x → d.Refers followBases x y →
      table.knows y = false → f y ≤ f x + 1)
    {n : Nat} (h : d.ReachedIn table followBases root n x) : f x ≤ n := by
  induction h with
  | root => exact Nat.le_of_eq start
  | step hx hxy hk ih =>
    exact (grows _ _ (reached_iff.2 ⟨_, hx⟩) hxy hk).trans (Nat.succ_le_succ ih)

theorem isLeast_distance (h : d.Reached table followBases root x) :
    IsLeast {n | d.ReachedIn table followBases root n x} (d.distance table followBases root x) :=
  ⟨Nat.sInf_mem (reached_iff.1 h), fun _ hn => Nat.sInf_le hn⟩

theorem distance_le_succ (hx : d.Reached table followBases root x)
    (hxy : d.Refers followBases x y) (hk : table.knows y = false) :
    d.distance table followBases root y ≤ d.distance table followBases root x + 1 :=
  Nat.sInf_le (ReachedIn.step (isLeast_distance hx).1 hxy hk)

theorem exists_nearer (h : d.Reached table followBases root y) :
    y = root ∨ ∃ x, d.Reached table followBases root x ∧ d.Refers followBases x y ∧
      table.knows y = false ∧
        d.distance table followBases root x < d.distance table followBases root y := by
  generalize hn : d.distance table followBases root y = n
  have hy := hn ▸ (isLeast_distance h).1
  cases hy with
  | root => exact .inl rfl
  | step hx hxy hk =>
    exact .inr ⟨_, reached_iff.2 ⟨_, hx⟩, hxy, hk, Nat.lt_succ_of_le (Nat.sInf_le hx)⟩

end Declarations

namespace TypeGraph

open Declarations

variable {d : Declarations} {table : TypeTable} {followBases : Bool} {root : Text}

/-- Where a search stands that has visited names in the order of their distance, the last one first
in the list. -/
structure Spreading (d : Declarations) (table : TypeTable) (followBases : Bool) (root : Text)
    (visited queue : List Text) : Prop where
  searching : Searching d table followBases root visited queue
  nodup : visited.Nodup
  nearer : ∀ newer x older, visited = newer ++ x :: older →
    ∀ z, d.Reached table followBases root z →
      d.distance table followBases root z < d.distance table followBases root x → z ∈ older
  waiting : ∀ front y back, queue = front ++ y :: back → ∃ newer x older,
    visited = newer ++ x :: older ∧ d.Refers followBases x y ∧
      ∀ w ∈ older, ∀ z, d.Refers followBases w z → table.knows z = false → z ∈ visited ∨ z ∈ front

theorem Spreading.pass {visited queue : List Text} {name : Text}
    (h : Spreading d table followBases root visited (name :: queue))
    (hn : table.knows name = true ∨ name ∈ visited) :
    Spreading d table followBases root visited queue where
  searching := h.searching.pass hn
  nodup := h.nodup
  nearer := h.nearer
  waiting front y back hq := by
    obtain ⟨newer, x, older, hv, hxy, past⟩ := h.waiting (name :: front) y back (by rw [hq]; rfl)
    refine ⟨newer, x, older, hv, hxy, fun w hw z hwz hk => ?_⟩
    rcases past w hw z hwz hk with hz | hz
    · exact .inl hz
    rcases List.mem_cons.1 hz with rfl | hz
    · rcases hn with hn | hn
      · rw [hk] at hn
        cases hn
      · exact .inl hn
    · exact .inr hz

/-- Whatever is nearer to the root than the first name on the queue has been visited. -/
theorem Spreading.mem_of_nearer {visited queue : List Text} {name : Text}
    (h : Spreading d table followBases root visited (name :: queue))
    (hn : table.knows name = false) {z : Text} (hz : d.Reached table followBases root z)
    (hlt : d.distance table followBases root z < d.distance table followBases root name) :
    z ∈ visited := by
  obtain ⟨newer, x, older, hv, hxn, past⟩ := h.waiting [] name queue rfl
  have hx : d.Reached table followBases root x := h.searching.sound x (by simp [hv])
  have near := distance_le_succ hx hxn hn
  rcases exists_nearer hz with rfl | ⟨w, hw, hwz, hk, hlt'⟩
  · exact h.searching.root_mem
  · -- What leads to `z` is older than what has put the name on the queue.
    have hw : w ∈ older := h.nearer newer x older hv w hw (by omega)
    exact (past w hw z hwz hk).resolve_right List.not_mem_nil

theorem Spreading.visit {visited queue : List Text} {name : Text}
    (h : Spreading d table followBases root visited (name :: queue))
    (hn : table.knows name = false) (hv : name ∉ visited) :
    Spreading d table followBases root (name :: visited)
      (queue ++ (d.find name).references followBases) where
  searching := h.searching.visit hn
  nodup := List.nodup_cons.2 ⟨hv, h.nodup⟩
  nearer newer x older he z hz hlt := by
    cases newer with
    | nil =>
      obtain ⟨rfl, rfl⟩ := List.cons.inj he
      exact h.mem_of_nearer hn hz hlt
    | cons n newer => exact h.nearer newer x older (List.cons.inj he).2 z hz hlt
  waiting front y back hq := by
    have settled {z : Text} (hz : z ∈ visited ∨ z ∈ name :: queue) :
        z ∈ name :: visited ∨ z ∈ queue := by
      simp only [List.mem_cons] at hz ⊢
      tauto
    have added (more : List Text) (hf : front = queue ++ more)
        (hr : (d.find name).references followBases = more ++ y :: back) :
        ∃ newer x older, name :: visited = newer ++ x :: older ∧ d.Refers followBases x y ∧
          ∀ w ∈ older, ∀ z, d.Refers followBases w z → table.knows z = false →
            z ∈ name :: visited ∨ z ∈ front := by
      have hy : y ∈ (d.find name).references followBases := by simp [hr]
      refine ⟨[], name, visited, rfl, mem_references_find.1 hy, fun w hw z hwz hk => ?_⟩
      rw [hf]
      exact (settled (h.searching.closed w hw z hwz hk)).imp_right (List.mem_append_left more)
    -- The name is one that was added now or one that has been waiting.
    rcases List.append_eq_append_iff.1 hq with ⟨more, hf, hr⟩ | ⟨kept, hf, hr⟩
    · exact added more hf hr
    cases kept with
    | nil => exact added [] (by simpa using hf.symm) hr.symm
    | cons k kept =>
      obtain ⟨rfl, -⟩ := List.cons.inj hr
      obtain ⟨newer, x, older, hvis, hxy, past⟩ :=
        h.waiting (name :: front) y kept (by rw [hf]; rfl)
      refine ⟨name :: newer, x, older, by rw [hvis]; rfl, hxy, fun w hw z hwz hk => ?_⟩
      have := past w hw z hwz hk
      simp only [List.mem_cons] at this ⊢
      tauto

/-- Names come before all that are further from the root. -/
theorem Spreading.pairwise {visited queue : List Text}
    (h : Spreading d table followBases root visited queue) :
    visited.reverse.Pairwise fun x y =>
      d.distance table followBases root x ≤ d.distance table followBases root y := by
  rw [List.pairwise_reverse]
  have nearer := h.nearer
  have nodup := h.nodup
  have sound := h.searching.sound
  clear h
  induction visited with
  | nil => exact .nil
  | cons y visited ih =>
    obtain ⟨hy, nodup⟩ := List.nodup_cons.1 nodup
    obtain ⟨reached, sound⟩ := List.forall_mem_cons.1 sound
    refine List.pairwise_cons.2 ⟨fun x hx => Nat.le_of_not_lt fun hlt => ?_, ih ?_ nodup sound⟩
    · obtain ⟨newer, older, rfl⟩ := List.append_of_mem hx
      have := nearer (y :: newer) x older rfl y reached hlt
      exact hy (List.mem_append_right _ (List.mem_cons_of_mem x this))
    · intro newer x older he
      exact nearer (y :: newer) x older (by rw [he]; rfl)

/-- The names of the graph stand in the order in which they were visited, the root first. -/
structure Ordered (root : Text) (visited : List Text) (g : TypeGraph) : Prop where
  head_eq : g.names.head? = some root
  interfaces_sublist : g.interfaces.keys.Sublist visited.reverse
  aliases_sublist : g.aliases.keys.Sublist visited.reverse

theorem Ordered.note {visited : List Text} {g : TypeGraph} (h : Ordered root visited g)
    {name : Text} (hv : name ∉ visited) (f : Finding) :
    Ordered root (name :: visited) (g.note name f) := by
  have fresh {keys : List Text} (hs : keys.Sublist visited.reverse) : name ∉ keys := fun hk =>
    hv (List.mem_reverse.1 (hs.subset hk))
  have more {keys : List Text} (hs : keys.Sublist visited.reverse) :
      keys.Sublist (name :: visited).reverse := by
    rw [List.reverse_cons]
    exact hs.trans (List.sublist_append_left _ _)
  have last {keys : List Text} (hs : keys.Sublist visited.reverse) :
      (keys ++ [name]).Sublist (name :: visited).reverse := by
    rw [List.reverse_cons]
    exact hs.append (.refl [name])
  cases f with
  | interface i =>
    have keys : (g.interfaces.put (name, i)).keys = g.interfaces.keys ++ [name] := by
      rw [Keyed.keys_put, if_neg (fresh h.interfaces_sublist)]
    refine ⟨?_, keys ▸ last h.interfaces_sublist, more h.aliases_sublist⟩
    have head := h.head_eq
    rw [names] at head
    rw [names, TypeGraph.note, keys, List.head?_append, head]
    rfl
  | «alias» a =>
    have keys : (g.aliases.put (name, a)).keys = g.aliases.keys ++ [name] := by
      rw [Keyed.keys_put, if_neg (fresh h.aliases_sublist)]
    exact ⟨h.head_eq, more h.interfaces_sublist, keys ▸ last h.aliases_sublist⟩
  | nothing => exact ⟨h.head_eq, more h.interfaces_sublist, more h.aliases_sublist⟩

theorem ordered_ofRoot (i : Interface) : Ordered i.name [i.name] (ofRoot i) :=
  ⟨rfl, .refl _, List.nil_sublist _⟩

theorem spreading_root {i : Interface} (hi : d.Reads root i) :
    Spreading d table followBases root [root] (i.references followBases) where
  searching := searching_root hi
  nodup := List.nodup_singleton root
  nearer newer x older he z hz hlt := by
    have hx : x = root := by
      have : x ∈ [root] := by simp [he]
      exact List.mem_singleton.1 this
    have none : d.distance table followBases root root = 0 := Nat.le_zero.1 (Nat.sInf_le .root)
    rw [hx, none] at hlt
    cases hlt
  waiting front y back hq := by
    have hy : y ∈ i.references followBases := by simp [hq]
    have start : Searching d table followBases root [root] _ := searching_root hi
    obtain ⟨x, hx, hxy⟩ := start.queued y hy
    rw [List.mem_singleton] at hx
    exact ⟨[], root, [], rfl, hx ▸ hxy, fun w hw => absurd hw List.not_mem_nil⟩

theorem ordered_explore {visited queue : List Text} {g : TypeGraph} (ho : Ordered root visited g)
    (hs : Spreading d table followBases root visited queue) :
    ∃ all, Ordered root all (explore d table followBases visited g queue) ∧
      Spreading d table followBases root all [] := by
  fun_induction explore d table followBases visited g queue with
  | case1 visited g => exact ⟨visited, ho, hs⟩
  | case2 visited g name queue hpass ih => exact ih ho (hs.pass (by simpa using hpass))
  | case3 visited g name queue hpass ih =>
    have hv : name ∉ visited := by simp_all
    exact ih (ho.note hv _) (hs.visit (by simp_all) hv)

/-- The root comes first in a graph, and interfaces and aliases stand in the order of the least
number of references that lead to them from the root. -/
theorem resolve_nearest_first {corpus : Text} {g : TypeGraph}
    (h : resolve (.ofText corpus) table followBases root = .ok g) :
    g.names.head? = some root ∧
      (∀ name, g.Holds name →
        IsLeast {n | (Declarations.ofText corpus).ReachedIn table followBases root n name}
          ((Declarations.ofText corpus).distance table followBases root name)) ∧
      (g.interfaces.keys.Pairwise fun x y =>
        (Declarations.ofText corpus).distance table followBases root x ≤
          (Declarations.ofText corpus).distance table followBases root y) ∧
      g.aliases.keys.Pairwise fun x y =>
        (Declarations.ofText corpus).distance table followBases root x ≤
          (Declarations.ofText corpus).distance table followBases root y := by
  have hd := Declarations.named_ofText corpus
  have exact := exact_of_resolve hd h
  obtain ⟨i, hi, rfl, rfl⟩ := exists_of_resolve hd h
  obtain ⟨all, ordered, spread⟩ := ordered_explore (ordered_ofRoot i) (spreading_root hi)
  exact ⟨ordered.head_eq, fun name held => isLeast_distance ((exact.holds_iff name).1 held),
    spread.pairwise.sublist ordered.interfaces_sublist,
    spread.pairwise.sublist ordered.aliases_sublist⟩

/-- Two interfaces lead to a third one, and so do two aliases one after the other. -/
theorem resolve_nearest_first_cycle :
    let corpus := ("interface A \x7b d: D; b: B; c: C; \x7d interface E \x7b \x7d type F = E;" ++
      "interface C \x7b e: E; \x7d interface B \x7b a: A; e: E; \x7d type D = F;").toList
    let interface (name : Text) (ps : List (Text × Text)) : Text × Interface :=
      (name, ⟨name, [], .ofList (ps.map fun p => ⟨p.1, p.2, false, false⟩), .empty, none⟩)
    let interfaces : List (Text × Interface) :=
      [interface ['A'] [(['d'], ['D']), (['b'], ['B']), (['c'], ['C'])],
        interface ['B'] [(['a'], ['A']), (['e'], ['E'])], interface ['C'] [(['e'], ['E'])],
        interface ['E'] []]
    let aliases : List (Text × Alias) :=
      [(['D'], ⟨['D'], .type ['F']⟩), (['F'], ⟨['F'], .type ['E']⟩)]
    let far := (Declarations.ofText corpus).distance .standard false ['A']
    resolve (.ofText corpus) .standard false ['A'] =
        .ok ⟨['A'], .ofList interfaces, .ofList aliases, .empty⟩ ∧
      far ['A'] = 0 ∧ far ['B'] = 1 ∧ far ['C'] = 1 ∧ far ['E'] = 2 ∧
      far ['D'] = 1 ∧ far ['F'] = 2 := by
  intro corpus interface interfaces aliases far
  let d := Declarations.ofText corpus
  let g : TypeGraph := ⟨['A'], .ofList interfaces, .ofList aliases, .empty⟩
  let names : List Text := [['A'], ['B'], ['C'], ['D'], ['E'], ['F']]
  -- The layer of each name is what its distance turns out to be.
  let f (name : Text) : Nat := if name = ['A'] then 0 else if name ∈ [['E'], ['F']] then 2 else 1
  have resolved : resolve d .standard false ['A'] = .ok g :=
    Search.resolve_of_steps 8 (by decide +kernel)
  obtain ⟨held, unknown, near, hb, hc, hd, he, hf⟩ :
      g.interfaces.keys ++ g.aliases.keys ++ g.unresolved.list ⊆ names ∧
      (∀ x ∈ names, TypeTable.standard.knows x = false) ∧
      (∀ x ∈ names, ∀ y ∈ (d.find x).references false, f y ≤ f x + 1) ∧
      ['B'] ∈ (d.find ['A']).references false ∧ ['C'] ∈ (d.find ['A']).references false ∧
      ['D'] ∈ (d.find ['A']).references false ∧ ['E'] ∈ (d.find ['B']).references false ∧
      ['F'] ∈ (d.find ['D']).references false := by
    decide +kernel
  have exact := exact_of_resolve (Declarations.named_ofText corpus) resolved
  have within {x : Text} (hx : d.Reached .standard false ['A'] x) : x ∈ names :=
    ((exact.holds_iff x).2 hx).mem held
  have step {n : Nat} {x y : Text} (hx : d.ReachedIn .standard false ['A'] n x)
      (hxy : y ∈ (d.find x).references false) (hy : y ∈ names) :
      d.ReachedIn .standard false ['A'] (n + 1) y :=
    .step hx (mem_references_find.1 hxy) (unknown y hy)
  obtain ⟨-, least, -⟩ := resolve_nearest_first resolved
  have far_eq {n : Nat} {x : Text} (hx : d.ReachedIn .standard false ['A'] n x) (hn : f x = n) :
      far x = n := by
    have shortest := least x ((exact.holds_iff x).2 (reached_iff.2 ⟨n, hx⟩))
    refine Nat.le_antisymm (shortest.2 hx) (hn ▸ shortest.1.le rfl fun x y hx hxy _ => ?_)
    exact near x (within hx) y (mem_references_find.2 hxy)
  have toB := step .root hb (by decide)
  have toC := step .root hc (by decide)
  have toD := step .root hd (by decide)
  exact ⟨resolved, far_eq .root rfl, far_eq toB rfl, far_eq toC rfl,
    far_eq (step toB he (by decide)) rfl, far_eq toD rfl, far_eq (step toD hf (by decide)) rfl⟩

end TypeGraph

end WebSurface
