import WebSurface.Proofs.ClosedSurface
import WebSurface.Proofs.Verdicts
set_option autoImplicit false

/-!
Classifying an interface again.

`TypeGraph.Grows` says all that classification does to a graph: the entry of the owner is rewritten,
and callback interfaces of the corpus join at the end. Nothing more joins for a method once the
interfaces that make its parameters call back are in the graph. A second run therefore finds every
verdict noted and nothing to add (`TypeGraph.classifyInterface_of_history`).
-/

namespace WebSurface

theorem Keyed.eq_of_list_eq {α : Type} {key : α → Text} {m m' : Keyed key}
    (h : m.list = m'.list) : m = m' := by
  cases m
  cases m'
  simpa using h

def Method.noted (v : Invocation) (m : Method) : Method := { m with invocation := some v }

theorem Method.isPure?_of_invocation {m : Method} {v : Invocation} (h : m.invocation = some v) :
    (m.isPure? == some false) = !v.isPure := by
  rw [isPure?, h, Option.map_some]
  cases v.isPure <;> rfl

namespace Interface

variable {v : Method → Invocation}

def note (k : Text) (v : Invocation) (i : Interface) : Interface :=
  { i with methods := i.methods.edit k (Method.noted v) fun _ => rfl }

def noteAll (v : Method → Invocation) (ms : List Method) (i : Interface) : Interface :=
  ms.foldl (fun i m => i.note m.key (v m)) i

theorem noteAll_cons (m : Method) (ms : List Method) :
    noteAll v (m :: ms) = noteAll v ms ∘ note m.key (v m) := rfl

theorem noteAll_eq (ms : List Method) (i : Interface) :
    noteAll v ms i = { i with methods := (noteAll v ms i).methods } := by
  induction ms generalizing i with
  | nil => rfl
  | cons m ms ih => exact ih (i.note m.key (v m))

theorem methods_noteAll {ms : List Method} (distinct : (ms.map Method.key).Nodup) (i : Interface) :
    (noteAll v ms i).methods.list = i.methods.list.map fun n =>
      (ms.find? (·.key == n.key)).elim n fun m => n.noted (v m) := by
  induction ms generalizing i with
  | nil => exact (List.map_id _).symm
  | cons m ms ih =>
    obtain ⟨new, distinct⟩ := List.nodup_cons.1 distinct
    have once : (i.note m.key (v m)).methods.list =
        i.methods.list.map fun n => if n.key = m.key then n.noted (v m) else n := rfl
    rw [noteAll_cons, Function.comp_apply, ih distinct, once, List.map_map]
    refine List.map_congr_left fun n _ => ?_
    rw [Function.comp_apply, List.find?_cons]
    by_cases hn : n.key = m.key
    · have absent : ms.find? (·.key == (n.noted (v m)).key) = none := by
        refine List.find?_eq_none.2 fun k hk same => new ?_
        have key : k.key = n.key := beq_iff_eq.1 same
        exact key.trans hn ▸ List.mem_map_of_mem hk
      rw [if_pos hn, absent, beq_iff_eq.2 hn.symm]
      rfl
    · rw [if_neg hn, beq_false_of_ne (Ne.symm hn)]

/-- When each method of the interface has had its turn, each bears its own note. -/
theorem methods_noteAll_self (i : Interface) : (noteAll v i.methods.list i).methods.list =
    i.methods.list.map fun m => m.noted (v m) := by
  rw [methods_noteAll i.methods.distinct]
  refine List.map_congr_left fun n hn => ?_
  have found : i.methods.list.find? (·.key == n.key) = some n :=
    Keyed.find?_eq_some_iff.2 ⟨hn, rfl⟩
  rw [found]
  rfl

end Interface

namespace TypeGraph

open Declarations

variable {d : Declarations} {b : Bridging} {owner : Text} {g g' g'' : TypeGraph}
  {f f' : Interface → Interface}

/-! ### What classification does to a graph -/

def revise (owner : Text) (f : Interface → Interface) (p : Text × Interface) :
    Text × Interface :=
  if p.1 = owner then (p.1, f p.2) else p

theorem revise_id : revise owner id = id := by
  funext p
  unfold revise
  split <;> rfl

theorem revise_comp : revise owner f' ∘ revise owner f = revise owner (f' ∘ f) := by
  funext p
  by_cases h : p.1 = owner <;> simp [revise, h]

theorem map_fst_revise (l : List (Text × Interface)) :
    (l.map (revise owner f)).map Prod.fst = l.map Prod.fst := by
  rw [List.map_map]
  refine List.map_congr_left fun p _ => ?_
  by_cases h : p.1 = owner <;> simp [revise, h]

theorem map_revise {i : Interface} (hi : g.interface? owner = some i) :
    g.interfaces.list.map (revise owner f) =
      g.interfaces.list.map fun p => if p.1 = owner then (p.1, f i) else p := by
  refine List.map_congr_left fun p hp => ?_
  unfold revise
  split
  · rename_i name
    have found : g.interface? owner = some p.2 := NameTable.get?_eq_some_iff.2 (name ▸ hp)
    rw [Option.some.inj (hi.symm.trans found)]
  · rfl

theorem setInvocation_eq (m : Method) (v : Invocation) : g.setInvocation owner m.name v =
    { g with interfaces := g.interfaces.update owner (Interface.note m.key v) } := rfl

/-- The interface of the owner is rewritten, and callback interfaces of the corpus join. -/
structure Grows (d : Declarations) (owner : Text) (f : Interface → Interface) (g g' : TypeGraph) :
    Prop where
  rest_eq : g' = { g with interfaces := g'.interfaces }
  joined : ∃ new : List Interface,
    g'.interfaces.list = g.interfaces.list.map (revise owner f) ++ new.map (fun i => (i.name, i)) ∧
      ∀ i ∈ new, i.isCallback ∧ d.Reads i.name i

namespace Grows

theorem refl (g : TypeGraph) : Grows d owner id g g where
  rest_eq := rfl
  joined := ⟨[], by simp [revise_id], fun _ hi => absurd hi List.not_mem_nil⟩

theorem names_prefix (h : Grows d owner f g g') : g.names <+: g'.names := by
  obtain ⟨new, list, -⟩ := h.joined
  refine ⟨new.map Interface.name, ?_⟩
  rw [names, names, Keyed.keys, Keyed.keys, list, List.map_append, map_fst_revise, List.map_map]
  rfl

theorem trans (ho : owner ∈ g.names) (h : Grows d owner f g g') (h' : Grows d owner f' g' g'') :
    Grows d owner (f' ∘ f) g g'' where
  rest_eq := by rw [h'.rest_eq, h.rest_eq]
  joined := by
    obtain ⟨new, list, calls⟩ := h.joined
    obtain ⟨new', list', calls'⟩ := h'.joined
    -- What has joined stands under other names than what was there, and so not under the owner's.
    have others (i : Interface) (hi : i ∈ new) : i.name ≠ owner := by
      have distinct := g'.interfaces.distinct
      rw [list, List.map_append, map_fst_revise] at distinct
      intro same
      refine (List.nodup_append.1 distinct).2.2 owner ho i.name ?_ same.symm
      exact List.mem_map.2 ⟨(i.name, i), List.mem_map.2 ⟨i, hi, rfl⟩, rfl⟩
    have kept : (new.map fun i => (i.name, i)).map (revise owner f') =
        new.map fun i => (i.name, i) := by
      rw [List.map_map]
      exact List.map_congr_left fun i hi => if_neg (others i hi)
    refine ⟨new ++ new', ?_, List.forall_mem_append.2 ⟨calls, calls'⟩⟩
    rw [list', list, List.map_append, kept, List.map_map, revise_comp, List.map_append,
      List.append_assoc]

theorem note (g : TypeGraph) (owner : Text) (m : Method) (v : Invocation) :
    Grows d owner (Interface.note m.key v) g (g.setInvocation owner m.name v) where
  rest_eq := rfl
  joined := ⟨[], (List.append_nil _).symm, fun _ hi => absurd hi List.not_mem_nil⟩

theorem join (hd : d.Named) (hg : Faithful d g) (k : Nat) (t : Text) :
    Grows d owner id g (g.join (d.typeCallee? k t)) := by
  cases hc : d.typeCallee? k t with
  | none => exact .refl g
  | some c =>
    cases c with
    | function => exact .refl g
    | interface i =>
      obtain ⟨reads, calls⟩ := reads_of_typeCallee? hd hc
      by_cases hi : i.name ∈ g.interfaces.keys
      · have same : g.join (some (.interface i)) = g := hg.insert_of_mem hi
        rw [same]
        exact .refl g
      · have new : (g.interfaces.putNew (i.name, i)).list =
            g.interfaces.list ++ [(i.name, i)] := by
          have absent : g.interfaces.contains i.name = false := by simpa [Keyed.contains] using hi
          rw [Keyed.putNew, absent, if_neg Bool.false_ne_true]
          exact Keyed.place_of_not_mem hi
        have known : g.unresolved.list.filter (· != i.name) = g.unresolved.list :=
          List.filter_eq_self.2 fun n hn => bne_iff_ne.2 fun e =>
            hg.unresolved_nothing (e ▸ hn) i reads
        refine ⟨?_, [i], ?_, List.forall_mem_singleton.2 ⟨calls, reads⟩⟩
        · simp only [TypeGraph.join, insert, NameSet.erase, known]
        · rw [revise_id, List.map_id]
          exact new

theorem joinAll (hd : d.Named) (hg : Faithful d g) (ho : owner ∈ g.names) (ps : List Parameter) :
    Grows d owner id g (joinAll d ps g) := by
  induction ps generalizing g with
  | nil => exact .refl g
  | cons p ps ih =>
    have first : Grows d owner id g _ := join hd hg aliasDepth p.type
    exact first.trans ho (ih (hg.join hd aliasDepth p.type) (first.names_prefix.subset ho))

theorem classify (hd : d.Named) (hg : Faithful d g) (ho : owner ∈ g.names) (m : Method) :
    Grows d owner id g (classify d b owner m g).2 := by
  rw [classify_snd hd hg]
  split
  · exact .refl g
  · exact joinAll hd hg ho m.parameters

theorem classifyMethods (hd : d.Named) (hg : Faithful d g) (ho : owner ∈ g.names)
    (ms : List Method) : Grows d owner (Interface.noteAll (d.verdict b owner) ms) g
      (classifyMethods d b owner ms g).2 := by
  induction ms generalizing g with
  | nil => exact .refl g
  | cons m ms ih =>
    have noted : Grows d owner (Interface.note m.key (d.verdict b owner m)) g
        ((TypeGraph.classify d b owner m g).2.setInvocation owner m.name
          (TypeGraph.classify d b owner m g).1) := by
      rw [classify_verdict hd hg]
      exact (classify hd hg ho m).trans ho (note _ owner m (d.verdict b owner m))
    exact noted.trans ho (ih ((hg.classify hd b owner m).setInvocation owner m.name _)
      (noted.names_prefix.subset ho))

end Grows

/-! ### What a second run finds -/

theorem Faithful.mem_names_of_holds (hg : Faithful d g) {name : Text} {i : Interface}
    (hi : d.Reads name i) (held : g.Holds name) : name ∈ g.names := by
  rcases held with held | held | held
  · exact held
  · obtain ⟨a, ha⟩ := NameTable.mem_keys_iff.1 held
    exact absurd hi ((hg.alias_read ha).not_reads i)
  · exact absurd hi (hg.unresolved_nothing held i)

/-- After a run the interfaces that make parameters of its methods call back are in the graph. -/
theorem met_classifyMethods (hd : d.Named) (hg : Faithful d g) {ms : List Method}
    {i : Interface} (hi : d.MeetsIn b owner ms i) :
    i.name ∈ (classifyMethods d b owner ms g).2.names := by
  obtain ⟨m, hm, listed, p, hp, callee⟩ := id hi
  exact (hg.classifyMethods hd b owner ms).mem_names_of_holds (reads_of_typeCallee? hd callee).1
    ((holds_classifyMethods hd hg).2 (.inr ⟨i, hi, rfl⟩))

theorem joinAll_eq_self (hg : Faithful d g) {ps : List Parameter}
    (met : ∀ p ∈ ps, ∀ i, d.typeCallee? aliasDepth p.type = some (.interface i) →
      i.name ∈ g.names) : joinAll d ps g = g := by
  induction ps with
  | nil => rfl
  | cons p ps ih =>
    obtain ⟨first, rest⟩ := List.forall_mem_cons.1 met
    have stays : g.join (d.typeCallee? aliasDepth p.type) = g := by
      cases hc : d.typeCallee? aliasDepth p.type with
      | none => rfl
      | some c =>
        cases c with
        | function => rfl
        | interface i => exact hg.insert_of_mem (first i hc)
    rw [joinAll, List.foldl_cons, stays]
    exact ih rest

theorem classify_of_met (hd : d.Named) (hg : Faithful d g) {m : Method}
    (met : ∀ i, d.MeetsIn b owner [m] i → i.name ∈ g.names) :
    classify d b owner m g = (d.verdict b owner m, g) := by
  refine Prod.ext (classify_verdict hd hg m) ?_
  cases hm : b.isListed owner m.name with
  | true => rw [classify_listed hm]
  | false =>
    rw [classify_eq hd hg hm]
    exact joinAll_eq_self hg fun p hp i hi => met i ⟨m, List.mem_singleton_self m, hm, p, hp, hi⟩

theorem setInvocation_eq_self {i : Interface} (hi : g.interface? owner = some i) {m : Method}
    (hm : m ∈ i.methods.list) {v : Invocation} (hv : m.invocation = some v) :
    g.setInvocation owner m.name v = g := by
  have same : i.note m.key v = i := by
    have methods : i.methods.edit m.key (Method.noted v) (fun _ => rfl) = i.methods := by
      refine Keyed.eq_of_list_eq ((List.map_congr_left fun n hn => ?_).trans (List.map_id _))
      split
      · rename_i key
        have found := Keyed.find?_eq_some_iff.2 ⟨hn, key⟩
        rw [Keyed.find?_eq_some_iff.2 ⟨hm, rfl⟩] at found
        rw [← Option.some.inj found, Method.noted, ← hv]
        rfl
      · rfl
    rw [Interface.note, methods]
  have interfaces : g.interfaces.update owner (Interface.note m.key v) = g.interfaces := by
    refine Keyed.eq_of_list_eq ((map_revise (f := Interface.note m.key v) hi).trans ?_)
    rw [same]
    exact (map_revise (f := id) hi).symm.trans (by rw [revise_id, List.map_id])
  rw [setInvocation_eq, interfaces]

theorem count_classifyMethods (hd : d.Named) (hg : Faithful d g) (ms : List Method) :
    (classifyMethods d b owner ms g).1 = ms.countP fun m => !(d.verdict b owner m).isPure := by
  induction ms generalizing g with
  | nil => rfl
  | cons m ms ih =>
    have rest := ih ((hg.classify hd b owner m).setInvocation owner m.name
      (classify d b owner m g).1)
    rw [classify_verdict hd hg] at rest
    simp only [classifyMethods, classify_verdict hd hg, rest, List.countP_cons]
    cases (d.verdict b owner m).isPure <;> rfl

/-- Methods that are asked about and noted without effect leave the graph as it is. -/
theorem classifyMethods_eq_self {ms : List Method}
    (asked : ∀ m ∈ ms, (classify d b owner m g).2 = g)
    (noted : ∀ m ∈ ms, g.setInvocation owner m.name (classify d b owner m g).1 = g) :
    (classifyMethods d b owner ms g).2 = g := by
  induction ms with
  | nil => rfl
  | cons m ms ih =>
    obtain ⟨hm, asked⟩ := List.forall_mem_cons.1 asked
    obtain ⟨hn, noted⟩ := List.forall_mem_cons.1 noted
    simp only [classifyMethods, hm, hn]
    exact ih asked noted

/-- Nothing is left to do where each method of the interface bears its verdict and what makes its
parameters call back is in the graph. -/
theorem classifyInterface_eq_self (hd : d.Named) (hg : Faithful d g) {j : Interface}
    (hj : g.interface? owner = some j)
    (noted : ∀ m ∈ j.methods.list, m.invocation = some (d.verdict b owner m))
    (met : ∀ i, d.MeetsIn b owner j.methods.list i → i.name ∈ g.names) :
    classifyInterface d b owner g =
      (j.methods.list.countP fun m => m.isPure? == some false, g) := by
  have run : classifyInterface d b owner g = classifyMethods d b owner j.methods.list g := by
    rw [classifyInterface, hj]
  have asked (m : Method) (hm : m ∈ j.methods.list) :
      classify d b owner m g = (d.verdict b owner m, g) := by
    refine classify_of_met hd hg fun i ⟨n, hn, callee⟩ => met i ⟨m, hm, ?_⟩
    exact List.mem_singleton.1 hn ▸ callee
  rw [run]
  refine Prod.ext ?_ (classifyMethods_eq_self (fun m hm => ?_) fun m hm => ?_)
  · rw [count_classifyMethods hd hg]
    exact List.countP_congr fun m hm => by rw [Method.isPure?_of_invocation (noted m hm)]
  · rw [asked m hm]
  · rw [asked m hm]
    exact setInvocation_eq_self hj hm (noted m hm)

/-- Classifying an interface gives each of its methods the classifier's answer, counts those that
are not pure, and does no more than that to the graph but append callback interfaces as the corpus
declares them. A second run does nothing, and counts the same. -/
theorem classifyInterface_of_history {corpus : Text} {table : TypeTable} {followBases : Bool}
    {root : Text} {start : TypeGraph}
    (hs : resolve (.ofText corpus) table followBases root = .ok start)
    (h : History (.ofText corpus) start g) {i : Interface} (hi : g.interface? owner = some i)
    (b : Bridging) : ∃ (after : TypeGraph) (j : Interface) (new : List Interface),
      classifyInterface (.ofText corpus) b owner g =
          (j.methods.list.countP fun m => m.isPure? == some false, after) ∧
        after.interface? owner = some j ∧
        j = { i with methods := j.methods } ∧
        j.methods.list = i.methods.list.map (fun m =>
          { m with invocation := some (classify (.ofText corpus) b owner m g).1 }) ∧
        (∀ m ∈ j.methods.list,
          m.invocation = some (classify (.ofText corpus) b owner m after).1) ∧
        after = { g with interfaces := after.interfaces } ∧
        after.interfaces.list =
          g.interfaces.list.map (fun p => if p.1 = owner then (p.1, j) else p) ++
            new.map (fun k => (k.name, k)) ∧
        (∀ k ∈ new, k.isCallback ∧
          ∃ raw, (Declarations.ofText corpus).interface? k.name = some raw ∧
            Interface.ofText raw = .ok k) ∧
        classifyInterface (.ofText corpus) b owner after =
          classifyInterface (.ofText corpus) b owner g := by
  have hd := named_ofText corpus
  have hg := h.faithful hd (exact_of_resolve hd hs).faithful
  let v := (Declarations.ofText corpus).verdict b owner
  let j := i.noteAll v i.methods.list
  let after := (classifyMethods (.ofText corpus) b owner i.methods.list g).2
  have first : classifyInterface (.ofText corpus) b owner g =
      classifyMethods (.ofText corpus) b owner i.methods.list g := by
    rw [classifyInterface, hi]
  -- Each method gets the verdict that the corpus gives, and only callback interfaces are added.
  have grows : Grows (.ofText corpus) owner (Interface.noteAll v i.methods.list) g after :=
    Grows.classifyMethods hd hg (NameTable.mem_keys_iff.2 ⟨i, hi⟩) i.methods.list
  obtain ⟨new, list, calls⟩ := grows.joined
  rw [map_revise hi] at list
  have held : after.interface? owner = some j := by
    refine NameTable.get?_eq_some_iff.2 (list ▸ List.mem_append_left _ (List.mem_map.2 ?_))
    exact ⟨(owner, i), NameTable.get?_eq_some_iff.1 hi, if_pos rfl⟩
  have methods : j.methods.list = i.methods.list.map fun m => m.noted (v m) :=
    Interface.methods_noteAll_self i
  have noted (m : Method) (hm : m ∈ j.methods.list) : m.invocation = some (v m) := by
    rw [methods] at hm
    obtain ⟨n, -, rfl⟩ := List.mem_map.1 hm
    rfl
  have faithful : Faithful (.ofText corpus) after := hg.classifyMethods hd b owner i.methods.list
  -- A second run finds every method noted and every callback interface in the graph.
  have again := classifyInterface_eq_self hd faithful held noted fun k ⟨m, hm, callee⟩ => by
    rw [methods] at hm
    obtain ⟨n, hn, rfl⟩ := List.mem_map.1 hm
    exact met_classifyMethods hd hg ⟨n, hn, callee⟩
  have count : (classifyMethods (.ofText corpus) b owner i.methods.list g).1 =
      j.methods.list.countP fun m => m.isPure? == some false := by
    rw [count_classifyMethods hd hg, methods, List.countP_map]
    refine List.countP_congr fun m _ => ?_
    rw [Function.comp_apply, Method.isPure?_of_invocation (v := v m) rfl]
  refine ⟨after, j, new, ?_, held, ?_, ?_, ?_, grows.rest_eq, list, calls, ?_⟩
  · rw [first, ← count]
  · exact Interface.noteAll_eq i.methods.list i
  · rw [methods]
    exact List.map_congr_left fun m _ => by rw [classify_verdict hd hg]; rfl
  · intro m hm
    rw [classify_verdict hd faithful]
    exact noted m hm
  · rw [first, again, ← count]

/-- The interface was classified before, with its method listed as pure. The callback interface, to
which the search did not go, joins the graph now. -/
theorem classifyInterface_of_history_joined :
    let d := Declarations.ofText
      "interface A \x7b m(f: B): void; n(): A; \x7d interface B \x7b (): void; \x7d".toList
    let table := TypeTable.ofEntries [(['B'], ['X'])]
    let m (v : Option Invocation) : Method :=
      ⟨['m'], [⟨['f'], ['B'], false, false⟩], "void".toList, false, v⟩
    let n (v : Option Invocation) : Method := ⟨['n'], [], ['A'], false, v⟩
    let a (m n : Method) : Interface := ⟨['A'], [], .empty, .ofList [m, n], none⟩
    let b : Interface := ⟨['B'], [], .empty, .empty, some ⟨[], "void".toList⟩⟩
    let direct (name : Text) : Option Invocation := some (.direct name)
    let g := TypeGraph.ofRoot (a (m (direct ['m'])) (n (direct ['n'])))
    let noted := a (m (some ⟨['m'], "dombind.a.m".toList, [['f']]⟩)) (n (direct ['n']))
    let after : TypeGraph := ⟨['A'], .ofList [(['A'], noted), (['B'], b)], .empty, .empty⟩
    resolve d table false ['A'] = .ok (.ofRoot (a (m none) (n none))) ∧
      classifyInterface d (.ofNames none [['m']]) ['A'] (.ofRoot (a (m none) (n none))) = (0, g) ∧
      classifyInterface d (.ofNames none []) ['A'] g = (1, after) ∧
      classifyInterface d (.ofNames none []) ['A'] after = (1, after) := by
  intro d table m n a b direct g noted after
  let start := TypeGraph.ofRoot (a (m none) (n none))
  have resolved : resolve d table false ['A'] = .ok start :=
    Search.resolve_of_steps 2 (by decide +kernel)
  obtain ⟨listed, joined, held⟩ :
      classifyInterface d (.ofNames none [['m']]) ['A'] start = (0, g) ∧
      classifyInterface d (.ofNames none []) ['A'] g = (1, after) ∧
      g.interface? ['A'] = some (a (m (direct ['m'])) (n (direct ['n']))) := by
    decide +kernel
  have history : History d start (classifyInterface d (.ofNames none [['m']]) ['A'] start).2 :=
    .classifyInterface _ _ .start
  rw [listed] at history
  obtain ⟨_, _, _, first, -, -, -, -, -, -, -, again⟩ :=
    classifyInterface_of_history resolved history held (.ofNames none [])
  rw [joined] at first again
  obtain rfl := (Prod.mk.inj first).2
  exact ⟨resolved, listed, joined, again⟩

end TypeGraph

end WebSurface
