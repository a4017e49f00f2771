import WebSurface.Proofs.Callee
set_option autoImplicit false

/-!
Classification while the graph grows.

Each answer of the classifier is one about the corpus (`TypeGraph.typeCalls_eq`), because it never
learns anything that the corpus does not say: what `TypeGraph.Faithful` requires of a graph stays
true. `TypeGraph.classify_of_history` therefore holds of every graph that the classifier has left
behind, in whatever order methods were classified.
-/

namespace WebSurface

def Method.bare (m : Method) : Method := { m with invocation := none }

/-- Two interfaces differ in nothing but the classification of methods. -/
structure Interface.Like (i j : Interface) : Prop where
  name_eq : i.name = j.name
  bases_eq : i.bases = j.bases
  properties_eq : i.properties = j.properties
  call_eq : i.call = j.call
  methods_eq : i.methods.list.map Method.bare = j.methods.list.map Method.bare

namespace Interface.Like

variable {i j : Interface}

theorem refl (i : Interface) : i.Like i := ⟨rfl, rfl, rfl, rfl, rfl⟩

theorem trans {k : Interface} (h : i.Like j) (h' : j.Like k) : i.Like k :=
  ⟨h.name_eq.trans h'.name_eq, h.bases_eq.trans h'.bases_eq,
    h.properties_eq.trans h'.properties_eq, h.call_eq.trans h'.call_eq,
    h.methods_eq.trans h'.methods_eq⟩

/-- A note about how a method is invoked is no part of its signature. -/
theorem edit (i : Interface) (k : Text) (v : Invocation) : Interface.Like
    { i with methods := i.methods.edit k (fun m => { m with invocation := some v }) fun _ => rfl }
    i where
  name_eq := rfl
  bases_eq := rfl
  properties_eq := rfl
  call_eq := rfl
  methods_eq := by
    simp only [Keyed.edit, List.map_map]
    refine List.map_congr_left fun m _ => ?_
    rw [Function.comp_apply]
    split <;> rfl

theorem isCallback_eq (h : i.Like j) : i.isCallback = j.isCallback := by
  have he : i.methods.isEmpty = j.methods.isEmpty := by
    have hl := congrArg List.isEmpty h.methods_eq
    simpa [Keyed.isEmpty] using hl
  rw [isCallback, isCallback, h.call_eq, h.properties_eq, he]

end Interface.Like

theorem Interface.members_of_isCallback {i : Interface} (h : i.isCallback) :
    i.properties.list = [] ∧ i.methods.list = [] := by
  simp only [isCallback, Keyed.isEmpty, Bool.and_eq_true, List.isEmpty_iff] at h
  exact ⟨h.1.2, h.2⟩

namespace TypeGraph

open Declarations

variable {d : Declarations} {g : TypeGraph}

/-! ### The two ways in which a graph changes -/

theorem names_insert (g : TypeGraph) (i : Interface) :
    (g.insert i).names = if i.name ∈ g.names then g.names else g.names ++ [i.name] :=
  Keyed.keys_putNew g.interfaces (i.name, i)

theorem mem_names_insert {i : Interface} {name : Text} :
    name ∈ (g.insert i).names ↔ name ∈ g.names ∨ name = i.name := by
  rw [names_insert]
  split
  · rename_i h
    exact ⟨.inl, fun hn => hn.elim id fun e => e ▸ h⟩
  · simp

theorem interface?_insert (g : TypeGraph) (i : Interface) (name : Text) :
    (g.insert i).interface? name =
      if name = i.name then some ((g.interface? i.name).getD i) else g.interface? name :=
  NameTable.get?_putNew

theorem interface?_of_insert {i j : Interface} {name : Text}
    (h : (g.insert i).interface? name = some j) :
    g.interface? name = some j ∨ name = i.name ∧ j = i := by
  rw [interface?_insert] at h
  split at h
  · rename_i hn
    rw [hn]
    cases hi : g.interface? i.name with
    | none =>
      rw [hi] at h
      exact .inr ⟨rfl, (Option.some.inj h).symm⟩
    | some k =>
      rw [hi] at h
      exact .inl h
  · exact .inl h

theorem names_setInvocation (g : TypeGraph) (owner method : Text) (v : Invocation) :
    (g.setInvocation owner method v).names = g.names :=
  NameTable.keys_update _ _ _

theorem interface?_setInvocation (g : TypeGraph) (owner method : Text) (v : Invocation)
    (name : Text) : ∃ f : Interface → Interface, (∀ i, (f i).Like i) ∧
      (g.setInvocation owner method v).interface? name = (g.interface? name).map f := by
  have found : (g.setInvocation owner method v).interface? name = _ := NameTable.get?_update _
  rw [found]
  split
  · exact ⟨_, fun i => Interface.Like.edit i method.asciiLower v, rfl⟩
  · exact ⟨id, .refl, (congrFun Option.map_id _).symm⟩

/-! ### Answers about the corpus -/

def join (g : TypeGraph) : Option Callee → TypeGraph
  | some (.interface i) => g.insert i
  | _ => g

/-- The graph says nothing that the corpus does not say, apart from classifications. -/
structure Faithful (d : Declarations) (g : TypeGraph) : Prop where
  interface_like {name : Text} {i : Interface} (h : g.interface? name = some i) :
    ∃ j, d.Reads name j ∧ i.Like j
  alias_read {name : Text} {a : Alias} (h : g.aliases.get? name = some a) : d.ReadsAlias name a
  unresolved_nothing {name : Text} (h : name ∈ g.unresolved.list) (i : Interface) :
    ¬d.Reads name i

theorem Exact.faithful {table : TypeTable} {followBases : Bool} {root : Text}
    (h : Exact d table followBases root g) : Faithful d g where
  interface_like {name i} hi := ⟨i, ((h.interface_iff name i).1 hi).2, .refl i⟩
  alias_read {name a} ha := ((h.alias_iff name a).1 ha).2
  unresolved_nothing {name} hu := ((h.unresolved_iff name).1 hu).2.1

theorem insert_eq_self {i : Interface} (hi : i.name ∈ g.interfaces.keys)
    (hu : i.name ∉ g.unresolved.list) : g.insert i = g := by
  have ht : g.interfaces.putNew (i.name, i) = g.interfaces := by
    rw [Keyed.putNew, if_pos]
    simpa [Keyed.contains] using hi
  have hl : g.unresolved.list.filter (· != i.name) = g.unresolved.list :=
    List.filter_eq_self.2 fun n hn => bne_iff_ne.2 fun e => hu (e ▸ hn)
  have he : g.unresolved.erase i.name = g.unresolved := by
    unfold NameSet.erase
    simp only [hl]
  rw [insert, ht, he]

theorem Faithful.insert_of_mem (hg : Faithful d g) {i : Interface}
    (hi : i.name ∈ g.interfaces.keys) : g.insert i = g := by
  refine insert_eq_self hi fun hu => ?_
  obtain ⟨k, hk⟩ := NameTable.mem_keys_iff.1 hi
  obtain ⟨j, hj, -⟩ := hg.interface_like hk
  exact hg.unresolved_nothing hu j hj

theorem Faithful.insert (hg : Faithful d g) {i : Interface} (hi : d.Reads i.name i) :
    Faithful d (g.insert i) where
  interface_like h := by
    rcases interface?_of_insert h with h | ⟨rfl, rfl⟩
    · exact hg.interface_like h
    · exact ⟨_, hi, .refl _⟩
  alias_read h := hg.alias_read h
  unresolved_nothing h := hg.unresolved_nothing (NameSet.mem_erase.1 h).1

theorem Faithful.setInvocation (hg : Faithful d g) (owner method : Text) (v : Invocation) :
    Faithful d (g.setInvocation owner method v) where
  interface_like {name _} h := by
    obtain ⟨f, like, found⟩ := interface?_setInvocation g owner method v name
    rw [found] at h
    obtain ⟨k, hk, rfl⟩ := Option.map_eq_some_iff.1 h
    obtain ⟨j, hj, like'⟩ := hg.interface_like hk
    exact ⟨j, hj, (like k).trans like'⟩
  alias_read h := hg.alias_read h
  unresolved_nothing h := hg.unresolved_nothing h

theorem anyCalls_eq {calls : Text → TypeGraph → Answer Bool} {f : Text → Option Callee}
    (h : ∀ t, calls t g = ((f t).isSome, g.join (f t))) (ts : List Text) :
    anyCalls calls ts g = ((ts.findSome? f).isSome, g.join (ts.findSome? f)) := by
  induction ts with
  | nil => rfl
  | cons t ts ih =>
    rw [anyCalls, h, List.findSome?_cons]
    cases hf : f t with
    | none => exact ih
    | some c => rfl

theorem memberCalls_eq {calls : Text → TypeGraph → Answer Bool} {f : Text → Option Callee}
    (h : ∀ t, calls t g = ((f t).isSome, g.join (f t))) (t : Text) :
    memberCalls calls t g = ((memberCallee? f t).isSome, g.join (memberCallee? f t)) := by
  unfold memberCalls memberCallee?
  split
  · rfl
  · exact h t.trim

theorem typeCallsBy_eq {calls : Text → TypeGraph → Answer Bool} {f : Text → Option Callee}
    (h : ∀ t, calls t g = ((f t).isSome, g.join (f t))) (t : Text) :
    typeCallsBy calls t g = ((calleeBy? f t).isSome, g.join (calleeBy? f t)) := by
  unfold typeCallsBy calleeBy?
  split
  · rfl
  · cases TypeText.unionMembers t with
    | nil => exact h t.trim
    | cons a ms =>
      cases ms with
      | nil => exact h t.trim
      | cons b ms => exact anyCalls_eq (memberCalls_eq h) (a :: b :: ms)

theorem Faithful.aliased?_eq (hg : Faithful d g) (name : Text) :
    aliased? d g name = d.aliasType? name := by
  have found : (g.aliases.get? name).or
      ((d.alias? name).bind fun raw => (Alias.ofText raw).toOption) =
        (d.alias? name).bind fun raw => (Alias.ofText raw).toOption := by
    cases ha : g.aliases.get? name with
    | none => rfl
    | some a =>
      obtain ⟨-, raw, hr, ha⟩ := hg.alias_read ha
      simp [hr, ha, Except.toOption]
  unfold aliased? aliasType?
  rw [found]
  rfl

theorem nameCallee?_of_interface? (hd : d.Named) (hg : Faithful d g) {name : Text} {i : Interface}
    (hp : isPlainName name) (hi : g.interface? name = some i) (f : Text → Option Callee) :
    (i.isCallback, g) =
      ((d.nameCalleeBy? f name).isSome, g.join (d.nameCalleeBy? f name)) := by
  obtain ⟨j, hj, like⟩ := hg.interface_like hi
  rw [nameCalleeBy?_of_reads hp hj, like.isCallback_eq]
  cases j.isCallback with
  | false => rfl
  | true =>
    obtain ⟨raw, hr, ht⟩ := hj
    have hmem : j.name ∈ g.interfaces.keys := by
      rw [hd.interface_name hr ht]
      exact NameTable.mem_keys_iff.2 ⟨i, hi⟩
    simp [join, hg.insert_of_mem hmem]

/-- Names are looked up in the same order in the graph and in the corpus; `f` is what makes the type
of an alias call back. -/
theorem nameCalls_eq_of (hd : d.Named) (hg : Faithful d g) {k : Nat} {name : Text}
    {f : Text → Option Callee}
    (h : isPlainName name → g.interface? name = none → d.interface? name = none →
      nameCalls d k name g =
        (((d.aliasType? name).bind f).isSome, g.join ((d.aliasType? name).bind f))) :
    nameCalls d k name g = ((d.nameCalleeBy? f name).isSome, g.join (d.nameCalleeBy? f name)) := by
  cases hp : isPlainName name with
  | false =>
    have hn : d.nameCalleeBy? f name = none := by simp [nameCalleeBy?, hp]
    rw [hn, nameCalls.eq_def]
    simp [hp, join]
  | true =>
    cases hi : g.interface? name with
    | some i =>
      rw [← nameCallee?_of_interface? hd hg hp hi f, nameCalls.eq_1 _ _ _ _ _ hi]
      simp [hp]
    | none =>
      cases hr : d.interface? name with
      | none =>
        have hf : d.nameCalleeBy? f name = (d.aliasType? name).bind f := by
          simp [nameCalleeBy?, hp, hr]
        rw [hf]
        exact h hp hi hr
      | some raw =>
        rw [nameCalls.eq_2 _ _ _ _ _ hi hr]
        cases ht : Interface.ofText raw with
        | error e => simp [nameCalleeBy?, hp, hr, ht, join]
        | ok i => cases hc : i.isCallback <;> simp [nameCalleeBy?, hp, hr, ht, hc, join]

theorem nameCalls_eq (hd : d.Named) (hg : Faithful d g) (k : Nat) (name : Text) :
    nameCalls d k name g = ((d.nameCallee? k name).isSome, g.join (d.nameCallee? k name)) := by
  induction k generalizing name with
  | zero =>
    refine nameCalls_eq_of hd hg fun hp hi hr => ?_
    have hn : (d.aliasType? name).bind (fun _ => (none : Option Callee)) = none := by
      cases d.aliasType? name <;> rfl
    rw [hn, nameCalls.eq_def]
    simp [hp, hi, hr, join]
  | succ k ih =>
    refine nameCalls_eq_of hd hg fun hp hi hr => ?_
    rw [nameCalls.eq_def]
    simp only [hp, hi, hr, Bool.not_true, Bool.false_eq_true, if_false, hg.aliased?_eq]
    cases d.aliasType? name with
    | none => rfl
    | some t => exact typeCallsBy_eq ih t

/-- Whether a type calls back is a question about the corpus, and the graph joins the answer. -/
theorem typeCalls_eq (hd : d.Named) (hg : Faithful d g) (t : Text) :
    typeCalls d t g =
      (decide (d.CallbackShaped aliasDepth t), g.join (d.typeCallee? aliasDepth t)) := by
  rw [typeCalls, typeCallsBy_eq (nameCalls_eq hd hg aliasDepth)]
  congr 1
  rw [Bool.eq_iff_iff, decide_eq_true_iff]
  exact isSome_typeCallee?

theorem Faithful.join (hd : d.Named) (hg : Faithful d g) (k : Nat) (t : Text) :
    Faithful d (g.join (d.typeCallee? k t)) := by
  cases h : d.typeCallee? k t with
  | none => exact hg
  | some c =>
    cases c with
    | function => exact hg
    | interface i => exact hg.insert (reads_of_typeCallee? hd h).1

def joinAll (d : Declarations) (ps : List Parameter) (g : TypeGraph) : TypeGraph :=
  ps.foldl (fun g p => g.join (d.typeCallee? aliasDepth p.type)) g

theorem Faithful.joinAll (hd : d.Named) (hg : Faithful d g) (ps : List Parameter) :
    Faithful d (joinAll d ps g) := by
  induction ps generalizing g with
  | nil => exact hg
  | cons p ps ih => exact ih (hg.join hd aliasDepth p.type)

theorem callbacks_eq (hd : d.Named) (hg : Faithful d g) (ps : List Parameter) :
    callbacks d ps g =
      ((ps.filter fun p => decide (d.CallbackShaped aliasDepth p.type)).map Parameter.name,
        joinAll d ps g) := by
  induction ps generalizing g with
  | nil => rfl
  | cons p ps ih =>
    simp only [callbacks, typeCalls_eq hd hg, ih (hg.join hd aliasDepth p.type)]
    by_cases h : d.CallbackShaped aliasDepth p.type
    · simp only [List.filter_cons, h, decide_true, if_true, List.map_cons]
      rfl
    · simp only [List.filter_cons, h, decide_false, Bool.false_eq_true, if_false]
      rfl

def invocation (b : Bridging) (owner name : Text) : List Text → Invocation
  | [] => .direct name
  | c :: cs => ⟨name, b.space ++ ['.'] ++ owner.lowerFirst ++ ['.'] ++ name, c :: cs⟩

theorem callbacks_invocation (b : Bridging) (owner name : Text) (cs : List Text) :
    (invocation b owner name cs).callbacks = cs := by
  cases cs <;> rfl

/-- The name under which a method is bridged is longer than its own. -/
theorem isPure_invocation (b : Bridging) (owner name : Text) (cs : List Text) :
    (invocation b owner name cs).isPure ↔ cs = [] := by
  cases cs with
  | nil => simp [invocation]
  | cons c cs =>
    simp only [invocation, Invocation.isPure, beq_iff_eq, List.cons_ne_nil, iff_false]
    intro h
    have hl := congrArg List.length h
    simp only [List.length_append, List.length_cons, List.length_nil] at hl
    omega

theorem classify_listed {b : Bridging} {owner : Text} {m : Method} (hm : b.isListed owner m.name) :
    classify d b owner m g = (.direct m.name, g) := by
  rw [classify, if_pos hm]

theorem classify_eq (hd : d.Named) (hg : Faithful d g) {b : Bridging} {owner : Text} {m : Method}
    (hm : b.isListed owner m.name = false) :
    classify d b owner m g =
      (invocation b owner m.name
        ((m.parameters.filter fun p => decide (d.CallbackShaped aliasDepth p.type)).map
          Parameter.name), joinAll d m.parameters g) := by
  rw [classify, hm, callbacks_eq hd hg]
  generalize (m.parameters.filter _).map Parameter.name = names
  cases names <;> rfl

theorem classify_snd (hd : d.Named) (hg : Faithful d g) (b : Bridging) (owner : Text) (m : Method) :
    (classify d b owner m g).2 =
      if b.isListed owner m.name then g else joinAll d m.parameters g := by
  cases hm : b.isListed owner m.name with
  | true =>
    rw [classify_listed hm]
    rfl
  | false =>
    rw [classify_eq hd hg hm]
    rfl

theorem Faithful.classify (hd : d.Named) (hg : Faithful d g) (b : Bridging) (owner : Text)
    (m : Method) : Faithful d (classify d b owner m g).2 := by
  rw [classify_snd hd hg]
  split
  · exact hg
  · exact hg.joinAll hd m.parameters

theorem Faithful.classifyMethods (hd : d.Named) (hg : Faithful d g) (b : Bridging) (owner : Text)
    (ms : List Method) : Faithful d (classifyMethods d b owner ms g).2 := by
  induction ms generalizing g with
  | nil => exact hg
  | cons m ms ih => exact ih ((hg.classify hd b owner m).setInvocation owner m.name _)

theorem Faithful.classifyInterface (hd : d.Named) (hg : Faithful d g) (b : Bridging)
    (owner : Text) : Faithful d (classifyInterface d b owner g).2 := by
  unfold TypeGraph.classifyInterface
  split
  · exact hg.classifyMethods hd b owner _
  · exact hg

/-- The graphs that calls of the classifier leave behind, one after another. -/
inductive History (d : Declarations) (start : TypeGraph) : TypeGraph → Prop
  | start : History d start start
  | classify {g : TypeGraph} (b : Bridging) (owner : Text) (m : Method) : History d start g →
      History d start (classify d b owner m g).2
  | classifyInterface {g : TypeGraph} (b : Bridging) (owner : Text) : History d start g →
      History d start (classifyInterface d b owner g).2

theorem History.faithful {start : TypeGraph} (hd : d.Named) (hs : Faithful d start)
    (h : History d start g) : Faithful d g := by
  induction h with
  | start => exact hs
  | classify b owner m _ ih => exact ih.classify hd b owner m
  | classifyInterface b owner _ ih => exact ih.classifyInterface hd b owner

/-- Whatever was classified before, the parameters that call back are those of a type of callback
shape, and a method without them is pure. -/
theorem classify_of_history {corpus : Text} {table : TypeTable} {followBases : Bool} {root : Text}
    {start : TypeGraph} (hs : resolve (.ofText corpus) table followBases root = .ok start)
    (h : History (.ofText corpus) start g) (b : Bridging) (owner : Text) (m : Method)
    (hm : b.isListed owner m.name = false) :
    (classify (.ofText corpus) b owner m g).1.callbacks =
        (m.parameters.filter fun p =>
          decide ((Declarations.ofText corpus).CallbackShaped 4 p.type)).map Parameter.name ∧
      ((classify (.ofText corpus) b owner m g).1.isPure ↔
        (classify (.ofText corpus) b owner m g).1.callbacks = []) ∧
      (classify (.ofText corpus) b owner m g).1 =
        (classify (.ofText corpus) b owner m start).1 := by
  have hd := named_ofText corpus
  have fresh : Faithful (.ofText corpus) start := (exact_of_resolve hd hs).faithful
  rw [classify_eq hd (h.faithful hd fresh) hm, classify_eq hd fresh hm]
  refine ⟨callbacks_invocation _ _ _ _, ?_, rfl⟩
  rw [isPure_invocation, callbacks_invocation]

/-- A method with a callback that only an alias leads to. It was classified before, so that the
callback interface has joined the graph. -/
theorem classify_of_history_again :
    let d := Declarations.ofText
      "interface A \x7b \x7d interface C \x7b (s: string): void; \x7d type U = C | null;".toList
    let b := Bridging.ofNames (some ['x']) []
    let p : Parameter := ⟨['s'], "string".toList, false, false⟩
    let m : Method := ⟨['m'], [⟨['n'], ['U'], true, false⟩, p], "void".toList, false, none⟩
    let start := TypeGraph.ofRoot ⟨['A'], [], .empty, .empty, none⟩
    let joined := start.insert ⟨['C'], [], .empty, .empty, some ⟨[p], "void".toList⟩⟩
    resolve d .standard false ['A'] = .ok start ∧ classify d b ['A'] m start =
        (⟨['m'], "x.a.m".toList, [['n']]⟩, joined) ∧
      (classify d b ['A'] m joined).1 = ⟨['m'], "x.a.m".toList, [['n']]⟩ := by
  intro d b p m start joined
  have resolved : resolve d .standard false ['A'] = .ok start :=
    Search.resolve_of_steps 0 (by decide +kernel)
  have first : classify d b ['A'] m start = (⟨['m'], "x.a.m".toList, [['n']]⟩, joined) := by
    decide +kernel
  have same := (classify_of_history resolved (.classify b ['A'] m .start) b ['A'] m
    (by decide +kernel)).2.2
  rw [first] at same
  exact ⟨resolved, first, same⟩

end TypeGraph

end WebSurface
