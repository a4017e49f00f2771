import WebSurface.Proofs.Verdicts
set_option autoImplicit false

/-!
Which parameters of a surface are marked as callbacks.

A parameter is marked if its type is the name of a callback interface of the surface. The parameters
that the classifier has looked at (`Surface.Judged`) are marked as well if their types call back in
any other way, such as a function type or a union; it looks at the root alone, and not at a method
that is listed as pure. `Surface.isCallback_of_assemble` says how far the mark is told by the type.
-/

namespace WebSurface

namespace Declarations

variable {d : Declarations} {b : Bridging} {owner : Text} {m : Method}

theorem callbacks_verdict : (d.verdict b owner m).callbacks = if b.isListed owner m.name then []
    else (m.parameters.filter fun p =>
      decide (d.CallbackShaped TypeGraph.aliasDepth p.type)).map Parameter.name := by
  unfold verdict
  split
  · rfl
  · exact TypeGraph.callbacks_invocation _ _ _ _

/-- Where no parameter of another type has its name, the name of a parameter tells of its type. -/
theorem mem_callbacks_verdict (unlisted : b.isListed owner m.name = false) {p : Parameter}
    (hp : p ∈ m.parameters) (apart : ∀ q ∈ m.parameters, q.name = p.name → q.type = p.type) :
    p.name ∈ (d.verdict b owner m).callbacks ↔ d.CallbackShaped TypeGraph.aliasDepth p.type := by
  rw [callbacks_verdict, unlisted, if_neg Bool.false_ne_true]
  simp only [List.mem_map, List.mem_filter, decide_eq_true_eq]
  constructor
  · rintro ⟨q, ⟨hq, shaped⟩, name⟩
    rwa [← apart q hq name]
  · exact fun shaped => ⟨p, ⟨hp, shaped⟩, rfl⟩

end Declarations

namespace TypeGraph

theorem Becomes.root_eq {g g' : TypeGraph} (h : Becomes g g') : g'.root = g.root := by
  induction h with
  | refl => rfl
  | tail _ change ih => cases change <;> exact ih

end TypeGraph

namespace Surface

open TypeGraph

/-- The name is that of an interface of the surface with a call signature and nothing else. -/
def NamesCallback (s : Surface) (name : Text) : Prop :=
  ∃ i ∈ s.interfaces, i.name = name ∧ i.isCallback

def Method.TellsApart (m : Method) (p : Parameter) : Prop :=
  ∀ q ∈ m.parameters, q.name = p.name → q.declaredType = p.declaredType

/-- The classifier has looked at the parameter, whose name tells it from those of other types. -/
inductive Judged (b : Bridging) (s : Surface) : Parameter → Prop
  | root {i : Interface} {m : Method} {p : Parameter} : i ∈ s.interfaces → i.isRoot →
      m ∈ i.methods → b.isListed i.name m.name = false → m.TellsApart p → p ∈ m.parameters →
      Judged b s p

/-- The classifier has not looked at the parameter. -/
inductive Unjudged (b : Bridging) (s : Surface) : Parameter → Prop
  | listed {i : Interface} {m : Method} {p : Parameter} : i ∈ s.interfaces → m ∈ i.methods →
      b.isListed i.name m.name → p ∈ m.parameters → Unjudged b s p
  | dependent {i : Interface} {m : Method} {p : Parameter} : i ∈ s.interfaces →
      i.isRoot = false → m ∈ i.methods → p ∈ m.parameters → Unjudged b s p
  | call {i : Interface} {c : Callback} {p : Parameter} : i ∈ s.interfaces →
      i.callback = some c → p ∈ c.parameters → Unjudged b s p

theorem judged_or_unjudged {b : Bridging} {s : Surface} {p : Parameter} (h : s.Takes p)
    (apart : ∀ i ∈ s.interfaces, ∀ m ∈ i.methods, ∀ q ∈ m.parameters, m.TellsApart q) :
    s.Judged b p ∨ s.Unjudged b p := by
  obtain ⟨i, hi, ⟨m, hm, hp⟩ | ⟨c, hc, hp⟩⟩ := h
  · cases root : i.isRoot with
    | false => exact .inr (.dependent hi root hm hp)
    | true =>
      cases listed : b.isListed i.name m.name with
      | false => exact .inl (.root hi root hm listed (apart i hi m hm p hp) hp)
      | true => exact .inr (.listed hi hm listed hp)
  · exact .inr (.call hi hc hp)

variable {d : Declarations} {table : TypeTable} {g : TypeGraph} {b : Bridging} {path : Text}

theorem namesCallback_ofGraph (titled : g.Titled) (name : Text) :
    (ofGraph table g path).NamesCallback name ↔
      (g.interface? name).elim false WebSurface.Interface.isCallback := by
  simp only [NamesCallback, ofGraph, List.mem_map, NameTable.mem_values_iff]
  constructor
  · rintro ⟨_, ⟨i, ⟨key, hi⟩, rfl⟩, rfl, calls⟩
    have found : g.interface? i.name = some i := by rwa [titled key i hi]
    rw [isCallback_ofInterface] at calls
    have name : (ofInterface table g i).name = i.name := rfl
    rw [name, found]
    exact calls
  · intro calls
    cases hi : g.interface? name with
    | none =>
      rw [hi] at calls
      cases calls
    | some i =>
      rw [hi] at calls
      exact ⟨_, ⟨i, ⟨name, hi⟩, rfl⟩, titled name i hi, by rwa [isCallback_ofInterface]⟩

theorem isCallback_ofParameter (titled : g.Titled) (path : Text) (callbacks : List Text)
    (q : WebSurface.Parameter) : (ofParameter table g callbacks q).isCallback ↔
      q.name ∈ callbacks ∨ (ofGraph table g path).NamesCallback q.type := by
  rw [namesCallback_ofGraph titled]
  simp [ofParameter]

theorem exists_of_mem_interfaces (titled : g.Titled) {i : Interface}
    (hi : i ∈ (ofGraph table g path).interfaces) :
    ∃ k, g.interface? k.name = some k ∧ ofInterface table g k = i := by
  obtain ⟨k, hk, rfl⟩ := List.mem_map.1 hi
  obtain ⟨name, hk⟩ := NameTable.mem_values_iff.1 hk
  exact ⟨k, (titled name k hk).symm ▸ hk, rfl⟩

theorem isCallback_of_judged (titled : g.Titled) (classified : Classified d b g.root g)
    {p : Parameter} (h : (ofGraph table g path).Judged b p) :
    p.isCallback ↔ d.CallbackShaped aliasDepth p.declaredType ∨
      (ofGraph table g path).NamesCallback p.declaredType := by
  obtain ⟨hi, root, hm, unlisted, apart, hp⟩ := h
  obtain ⟨k, hk, rfl⟩ := exists_of_mem_interfaces titled hi
  obtain ⟨m, hm', rfl⟩ := List.mem_map.1 hm
  obtain ⟨q, hq, rfl⟩ := List.mem_map.1 hp
  have owner : k.name = g.root := beq_iff_eq.1 root
  have apart : ∀ q' ∈ m.parameters, q'.name = q.name → q'.type = q.type := fun _ hq' =>
    apart _ (List.mem_map_of_mem hq')
  have verdict := classified.owned (owner ▸ hk) m hm'
  have unlisted : b.isListed g.root m.name = false := owner ▸ unlisted
  rw [isCallback_ofParameter titled, verdict, Option.elim_some,
    Declarations.mem_callbacks_verdict unlisted hq apart]
  rfl

theorem isCallback_of_unjudged (titled : g.Titled) (classified : Classified d b g.root g)
    {p : Parameter} (h : (ofGraph table g path).Unjudged b p) :
    p.isCallback ↔ (ofGraph table g path).NamesCallback p.declaredType := by
  have unnamed {q : WebSurface.Parameter} :
      (ofParameter table g [] q).isCallback ↔ (ofGraph table g path).NamesCallback q.type :=
    (isCallback_ofParameter titled path [] q).trans (by simp)
  -- The verdict on a method is what marks its parameters by their names, if there is one.
  have silent {k : WebSurface.Interface} {m : WebSurface.Method} (hk : g.interface? k.name = some k)
      (hm : m ∈ k.methods.list) (h : k.name ≠ g.root ∨ b.isListed k.name m.name) :
      m.invocation.elim [] Invocation.callbacks = [] := by
    by_cases owner : k.name = g.root
    · have listed := h.resolve_left (not_not_intro owner)
      rw [owner] at hk listed
      rw [classified.owned hk m hm, Option.elim_some, Declarations.callbacks_verdict,
        if_pos listed]
    · rw [classified.others owner hk m hm]
      rfl
  cases h with
  | listed hi hm listed hp =>
    obtain ⟨k, hk, rfl⟩ := exists_of_mem_interfaces titled hi
    obtain ⟨m, hm', rfl⟩ := List.mem_map.1 hm
    obtain ⟨q, -, rfl⟩ := List.mem_map.1 hp
    rw [silent hk hm' (.inr listed)]
    exact unnamed
  | dependent hi root hm hp =>
    obtain ⟨k, hk, rfl⟩ := exists_of_mem_interfaces titled hi
    obtain ⟨m, hm', rfl⟩ := List.mem_map.1 hm
    obtain ⟨q, -, rfl⟩ := List.mem_map.1 hp
    rw [silent hk hm' (.inl (beq_eq_false_iff_ne.1 root))]
    exact unnamed
  | call hi hc hp =>
    obtain ⟨k, -, rfl⟩ := exists_of_mem_interfaces titled hi
    obtain ⟨c, -, rfl⟩ := Option.map_eq_some_iff.1 hc
    obtain ⟨q, -, rfl⟩ := List.mem_map.1 hp
    exact unnamed

theorem titled_keepPure (h : g.Titled) : (keepPure g).Titled := by
  intro name i hi
  rw [interface?_keepPure] at hi
  split at hi
  · obtain ⟨j, hj, rfl⟩ := Option.map_eq_some_iff.1 hi
    exact h name j hj
  · exact h name i hi

theorem classified_keepPure (h : Classified d b g.root g) :
    Classified d b g.root (keepPure g) where
  owned {i} hi m hm := by
    rw [interface?_keepPure, if_pos rfl] at hi
    obtain ⟨j, hj, rfl⟩ := Option.map_eq_some_iff.1 hi
    exact h.owned hj m (List.mem_filter.1 hm).1
  others {name i} hn hi := by
    rw [interface?_keepPure, if_neg hn] at hi
    exact h.others hn hi

/-- A surface is that of a graph in which the root has been classified and nothing else. -/
theorem exists_classified_of_assemble (hd : d.Named) {r : Request} {s : Surface}
    (h : assemble d table r = .ok s) : ∃ g, g.Titled ∧ Classified d r.bridging g.root g ∧
      s = ofGraph table g r.implementationPath := by
  unfold assemble at h
  split at h
  · cases h
  · rename_i g hg
    have exact := exact_of_resolve hd hg
    have titled := (exact.faithful.classifyInterface hd r.bridging g.root).titled hd
    have root := (becomes_classifyInterface (d := d) r.bridging g.root g).root_eq
    have classified : Classified d r.bridging (classifyInterface d r.bridging g.root g).2.root
        (classifyInterface d r.bridging g.root g).2 := by
      rw [root]
      exact classified_classifyInterface hd exact r.bridging g.root
    generalize classifyInterface d r.bridging g.root g = answer at h classified titled
    refine ⟨if r.onlyPure && 0 < answer.1 then keepPure answer.2 else answer.2, ?_, ?_,
      (Except.ok.inj h).symm⟩
    · split
      · exact titled_keepPure titled
      · exact titled
    · split
      · exact classified_keepPure classified
      · exact classified

/-- The mark of a parameter is told by its type among the parameters that the classifier has looked
at, and among all others. Between the two it differs exactly for types that call back and are not
the name of a callback interface of the surface. -/
theorem isCallback_of_assemble {corpus : Text} {r : Request} {s : Surface}
    (h : assemble (.ofText corpus) table r = .ok s) :
    let shaped := (Declarations.ofText corpus).CallbackShaped 4
    (∀ p, s.Judged r.bridging p →
      (p.isCallback ↔ shaped p.declaredType ∨ s.NamesCallback p.declaredType)) ∧
    (∀ p, s.Unjudged r.bridging p → (p.isCallback ↔ s.NamesCallback p.declaredType)) ∧
    (∀ p, s.Takes p →
      (∀ i ∈ s.interfaces, ∀ m ∈ i.methods, ∀ q ∈ m.parameters, m.TellsApart q) →
        s.Judged r.bridging p ∨ s.Unjudged r.bridging p) ∧
    ∀ p q, p.declaredType = q.declaredType →
      (s.Judged r.bridging p ∧ s.Judged r.bridging q ∨
        s.Unjudged r.bridging p ∧ s.Unjudged r.bridging q → p.isCallback = q.isCallback) ∧
      (s.Judged r.bridging p → s.Unjudged r.bridging q →
        (p.isCallback = q.isCallback ↔
          (shaped p.declaredType → s.NamesCallback p.declaredType))) := by
  intro shaped
  obtain ⟨g, titled, classified, rfl⟩ :=
    exists_classified_of_assemble (Declarations.named_ofText corpus) h
  let s := ofGraph table g r.implementationPath
  have judged (p : Parameter) (hp : s.Judged r.bridging p) :=
    isCallback_of_judged titled classified hp
  have unjudged (p : Parameter) (hp : s.Unjudged r.bridging p) :=
    isCallback_of_unjudged titled classified hp
  refine ⟨judged, unjudged, fun p => judged_or_unjudged, fun p q same => ⟨?_, fun hp hq => ?_⟩⟩
  · rintro (⟨hp, hq⟩ | ⟨hp, hq⟩)
    · rw [Bool.eq_iff_iff, judged p hp, judged q hq, same]
    · rw [Bool.eq_iff_iff, unjudged p hp, unjudged q hq, same]
  · rw [Bool.eq_iff_iff, judged p hp, unjudged q hq, ← same]
    exact or_iff_right_iff_imp

/-- The same function type in a method that is listed as pure and, twice under the same name, in one
that is not. -/
theorem isCallback_of_assemble_listed :
    let corpus :=
      "interface A \x7b m(f: () => void, f: () => void): void; n(f: () => void): void; \x7d".toList
    let f (flag : Bool) : Parameter :=
      ⟨['f'], "() => void".toList, "() => void".toList, false, false, flag⟩
    let m : Method := ⟨['m'], [f true, f true], "void".toList, "void".toList,
      some ⟨['m'], "dombind.a.m".toList, [['f'], ['f']]⟩⟩
    let n : Method := ⟨['n'], [f false], "void".toList, "void".toList, some (.direct ['n'])⟩
    let s : Surface :=
      ⟨['A'], "window.a".toList, [⟨['A'], none, true, [], [m, n], none⟩], [], []⟩
    assemble (.ofText corpus) (.ofEntries []) { Request.ofType ['A'] with pureNames := [['n']] } =
        .ok s ∧
      s.Judged (.ofNames none [['n']]) (f true) ∧ s.Unjudged (.ofNames none [['n']]) (f false) ∧
      (Declarations.ofText corpus).CallbackShaped 4 "() => void".toList ∧
      ¬s.NamesCallback "() => void".toList := by
  intro corpus f m n s
  let r : Request := { Request.ofType ['A'] with pureNames := [['n']] }
  have assembled : assemble (.ofText corpus) (.ofEntries []) r = .ok s :=
    assemble_of_steps 0 (by decide +kernel)
  have judged : s.Judged r.bridging (f true) :=
    .root (.head _) rfl (.head _) (by decide) (fun q hq _ => by simp_all [m]) (.head _)
  have unjudged : s.Unjudged r.bridging (f false) :=
    .listed (.head _) (List.mem_cons_of_mem m (.head _)) (by decide) (.head _)
  obtain ⟨told, untold, -⟩ := isCallback_of_assemble assembled
  have unnamed : ¬s.NamesCallback "() => void".toList := fun h => by
    cases (untold _ unjudged).2 h
  exact ⟨assembled, judged, unjudged, ((told _ judged).1 rfl).resolve_right unnamed, unnamed⟩

/-- The same function type in a method that the classifier looks at, in one that is listed as pure,
in a call signature and in another interface; and the same name of an interface with a parameter of
its name beside it and without one. -/
theorem not_isCallback_eq :
    let corpus : Text := ("interface A\x7b(f:()=>B,x:A);m(f:()=>B);n(f:()=>B);k(x:A,x:()=>B)\x7d" ++
      "interface B\x7bp(f:()=>B)\x7d").toList
    let f (flag : Bool) : Parameter := ⟨['f'], "()=>B".toList, "()=>B".toList, false, false, flag⟩
    let x (type : String) (flag : Bool) : Parameter :=
      ⟨['x'], type.toList, type.toList, false, false, flag⟩
    let written (name : Text) (ps : List Parameter) (v : Option Invocation) : Method :=
      ⟨name, ps, "any".toList, "object".toList, v⟩
    let m := written ['m'] [f true] (some ⟨['m'], "dombind.a.m".toList, [['f']]⟩)
    let n := written ['n'] [f false] (some (.direct ['n']))
    let k := written ['k'] [x "A" true, x "()=>B" true]
      (some ⟨['k'], "dombind.a.k".toList, [['x']]⟩)
    let a : Interface :=
      ⟨['A'], none, true, [], [m, n, k], some ⟨[f false, x "A" false], "object".toList⟩⟩
    let b : Interface := ⟨['B'], none, false, [], [written ['p'] [f false] none], none⟩
    assemble (.ofText corpus) (.ofEntries []) { Request.ofType ['A'] with pureNames := [['n']] } =
      .ok ⟨['A'], "window.a".toList, [a, b], [], []⟩ := by
  intro corpus f x written m n k a b
  exact assemble_of_steps 8 (by decide +kernel)

end Surface

end WebSurface
