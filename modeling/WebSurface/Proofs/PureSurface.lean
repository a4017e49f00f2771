import WebSurface.Proofs.Classification
import WebSurface.Surface
set_option autoImplicit false

/-!
What a surface loses when the bridged methods of its root are left out.

The methods are left out before types are mapped, and the root may become a callback interface by
that: one that is left with a call signature and nothing else. Parameters of its type then call
back, which they do not in the whole surface. `Surface.assemble_onlyPure` says that nothing but this
happens, and so when leaving methods out is all that happens.
-/

namespace WebSurface

/-! ### Methods that have just been read -/

theorem Keyed.mem_place {α : Type} {key : α → Text} {a b : α} {l : List α}
    (h : b ∈ Keyed.place key a l) : b = a ∨ b ∈ l := by
  induction l with
  | nil => exact .inl (List.mem_singleton.1 h)
  | cons c l ih =>
    unfold Keyed.place at h
    split at h
    · rcases List.mem_cons.1 h with h | h
      · exact .inl h
      · exact .inr (List.mem_cons_of_mem c h)
    · rcases List.mem_cons.1 h with rfl | h
      · exact .inr List.mem_cons_self
      · exact (ih h).imp_right (List.mem_cons_of_mem c)

/-- A member as it is read: the type of a property is what is left of a written one without its
nullish members, and the others say what a signature in the text says. -/
inductive Member.IsRead : Member → Prop
  | property (name annotation : Text) (isOptional isReadonly : Bool) :
    IsRead (.property ⟨name, (TypeText.splitNullish annotation).1,
      isOptional || (TypeText.splitNullish annotation).2, isReadonly⟩)
  | method (name : Text) {t : Text} {s : Signature} (h : Signature.ofText? t = some s) :
    IsRead (.method ⟨name, s.parameters, s.returnType, s.returnIsNullable, none⟩)
  | call {t : Text} {s : Signature} (h : Signature.ofText? t = some s) :
    IsRead (.call ⟨s.parameters, s.returnType⟩)

section Read

variable {t : Text} {isReadonly : Bool} {tokens : List Token} {m : Member}

theorem Member.isRead_of_ofName {name : Text} (h : ofName t isReadonly name tokens = .ok m) :
    m.IsRead := by
  simp only [ofName] at h
  split at h
  · cases h
  · split at h
    · split at h
      · rename_i s hs
        rw [← Except.ok.inj h]
        exact .method name hs
      · cases h
    · split at h
      · split at h
        · cases h
        · rw [← Except.ok.inj h]
          exact .property name _ _ isReadonly
      · cases h

theorem Member.isRead_of_ofTokens (h : ofTokens t isReadonly tokens = .ok m) : m.IsRead := by
  cases tokens with
  | nil => cases h
  | cons first rest =>
    rw [ofTokens] at h
    split at h
    · cases h
    · exact isRead_of_ofName h
    · split at h
      · cases h
      · split at h
        · cases h
        · exact isRead_of_ofName h
    · split at h
      · split at h
        · rename_i s hs
          rw [← Except.ok.inj h]
          exact .call hs
        · cases h
      · cases h

theorem Member.isRead_of_ofText (h : ofText t = .ok m) : m.IsRead := by
  unfold ofText at h
  split at h
  · cases h
  · split at h
    · exact isRead_of_ofTokens h
    · exact isRead_of_ofTokens h

theorem Member.invocation_of_ofText {m : Method} (h : ofText t = .ok (.method m)) :
    m.invocation = none := by
  cases isRead_of_ofText h
  rfl

end Read

def Interface.Unclassified (i : Interface) : Prop := ∀ m ∈ i.methods.list, m.invocation = none

theorem Interface.unclassified_member (n : Nat) {r : Reading} (h : r.interface.Unclassified)
    (s : Segment) : (r.member n s).interface.Unclassified := by
  unfold Reading.member
  split
  · rename_i member hm
    cases member with
    | property p => exact h
    | call c => exact h
    | method m =>
      intro m' hm'
      rcases Keyed.mem_place hm' with rfl | hm'
      · exact Member.invocation_of_ofText hm
      · exact h m' hm'
  · exact h

theorem Interface.unclassified_of_ofText {raw : Text} {i : Interface} (h : ofText raw = .ok i) :
    i.Unclassified := by
  have foldl (n : Nat) (segments : List Segment) {r : Reading} (hr : r.interface.Unclassified) :
      (segments.foldl (Reading.member n) r).interface.Unclassified := by
    induction segments generalizing r with
    | nil => exact hr
    | cons s segments ih => exact ih (unclassified_member n hr s)
  obtain ⟨r, hr, rfl⟩ := exists_read h
  simp only [read] at hr
  split at hr
  · split at hr
    · rw [← Except.ok.inj hr]
      exact foldl _ _ fun m hm => absurd hm List.not_mem_nil
    · cases hr
  · cases hr

namespace TypeGraph

open Declarations

variable {d : Declarations} {g : TypeGraph} {owner : Text}

/-- Nothing but callback interfaces has joined the graph. -/
structure Joins (g g' : TypeGraph) : Prop where
  kept {name : Text} {i : Interface} (h : g.interface? name = some i) : g'.interface? name = some i
  new {name : Text} {i : Interface} (h : g'.interface? name = some i) :
    g.interface? name = some i ∨ i.isCallback

namespace Joins

theorem refl (g : TypeGraph) : Joins g g := ⟨id, .inl⟩

theorem trans {g' g'' : TypeGraph} (h : Joins g g') (h' : Joins g' g'') : Joins g g'' where
  kept hi := h'.kept (h.kept hi)
  new hi := (h'.new hi).elim h.new .inr

theorem insert (g : TypeGraph) {i : Interface} (hi : i.isCallback) : Joins g (g.insert i) where
  kept {name j} hj := by
    rw [interface?_insert]
    split
    · rename_i hn
      rw [← hn, hj]
      rfl
    · exact hj
  new hj := by
    rcases interface?_of_insert hj with hj | ⟨-, rfl⟩
    · exact .inl hj
    · exact .inr hi

theorem join (hd : d.Named) (g : TypeGraph) (k : Nat) (t : Text) :
    Joins g (g.join (d.typeCallee? k t)) := by
  cases hc : d.typeCallee? k t with
  | none => exact .refl g
  | some c =>
    cases c with
    | function => exact .refl g
    | interface i => exact .insert g (reads_of_typeCallee? hd hc).2

theorem joinAll (hd : d.Named) (ps : List Parameter) (g : TypeGraph) :
    Joins g (joinAll d ps g) := by
  induction ps generalizing g with
  | nil => exact .refl g
  | cons p ps ih => exact (join hd g aliasDepth p.type).trans (ih _)

theorem classify (hd : d.Named) (hg : Faithful d g) (b : Bridging) (owner : Text) (m : Method) :
    Joins g (classify d b owner m g).2 := by
  rw [classify_snd hd hg]
  split
  · exact .refl g
  · exact joinAll hd m.parameters g

end Joins

def AllPure (g : TypeGraph) : Prop :=
  ∀ name i, g.interface? name = some i → ∀ m ∈ i.methods.list, m.isPure? ≠ some false

theorem AllPure.classify (hd : d.Named) (hg : Faithful d g) (h : g.AllPure) (b : Bridging)
    (owner : Text) (m : Method) : (classify d b owner m g).2.AllPure := by
  intro name i hi n hn
  rcases (Joins.classify hd hg b owner m).new hi with hi | hi
  · exact h name i hi n hn
  · rw [(Interface.members_of_isCallback hi).2] at hn
    cases hn

theorem AllPure.setInvocation (h : g.AllPure) (owner method : Text) {v : Invocation}
    (hv : v.isPure) : (g.setInvocation owner method v).AllPure := by
  intro name i hi m hm
  simp only [interface?, TypeGraph.setInvocation, NameTable.get?_update] at hi
  split at hi
  · obtain ⟨j, hj, rfl⟩ := Option.map_eq_some_iff.1 hi
    obtain ⟨n, hn, rfl⟩ := List.mem_map.1 hm
    split
    · simp [Method.isPure?, hv]
    · exact h name j hj n hn
  · exact h name i hi m hm

theorem AllPure.classifyMethods (hd : d.Named) {b : Bridging} {ms : List Method}
    (hg : Faithful d g) (h : g.AllPure)
    (none : (TypeGraph.classifyMethods d b owner ms g).1 = 0) :
    (TypeGraph.classifyMethods d b owner ms g).2.AllPure := by
  induction ms generalizing g with
  | nil => exact h
  | cons m ms ih =>
    simp only [TypeGraph.classifyMethods] at none ⊢
    split at none
    · rename_i hv
      refine ih ?_ ?_ none
      · exact (hg.classify hd b owner m).setInvocation owner m.name _
      · exact (h.classify hd hg b owner m).setInvocation owner m.name hv
    · cases none

theorem AllPure.classifyInterface (hd : d.Named) {b : Bridging} (hg : Faithful d g)
    (h : g.AllPure) (none : (TypeGraph.classifyInterface d b owner g).1 = 0) :
    (TypeGraph.classifyInterface d b owner g).2.AllPure := by
  unfold TypeGraph.classifyInterface at none ⊢
  split at none
  · exact h.classifyMethods hd hg none
  · exact h

theorem Exact.unclassified {table : TypeTable} {followBases : Bool} {root name : Text}
    (h : Exact d table followBases root g) {i : Interface} (hi : g.interface? name = some i) :
    i.Unclassified := by
  obtain ⟨raw, -, hr⟩ := ((h.interface_iff name i).1 hi).2
  exact Interface.unclassified_of_ofText hr

theorem Exact.allPure {table : TypeTable} {followBases : Bool} {root : Text}
    (h : Exact d table followBases root g) : g.AllPure := by
  intro name i hi m hm
  simp [Method.isPure?, h.unclassified hi m hm]

def Titled (g : TypeGraph) : Prop := ∀ name i, g.interface? name = some i → i.name = name

theorem Faithful.titled (hd : d.Named) (hg : Faithful d g) : g.Titled := by
  intro name i hi
  obtain ⟨j, ⟨raw, hr, hj⟩, like⟩ := hg.interface_like hi
  exact like.name_eq.trans (hd.interface_name hr hj)

end TypeGraph

def Interface.keepPure (i : Interface) : Interface :=
  { i with methods := i.methods.keep fun m => m.isPure? != some false }

theorem Interface.isCallback_keepPure {i : Interface} (h : i.isCallback) :
    i.keepPure.isCallback := by
  simp only [isCallback, keepPure, Keyed.isEmpty, Keyed.keep, Bool.and_eq_true,
    List.isEmpty_iff] at h ⊢
  exact ⟨h.1, by rw [h.2]; rfl⟩

namespace Surface

open TypeGraph

def Interface.isCallback (i : Interface) : Bool :=
  i.callback.isSome && i.properties.isEmpty && i.methods.isEmpty

def Interface.dropBridged (i : Interface) : Interface :=
  { i with methods := i.methods.filter fun m => m.isPure? != some false }

def dropBridged (s : Surface) : Surface :=
  { s with interfaces := s.interfaces.map fun i => if i.isRoot then i.dropBridged else i }

/-- The parameter, which calls back if it did or if its type is the name. -/
def Parameter.flag (name : Text) (p : Parameter) : Parameter :=
  { p with isCallback := p.isCallback || p.declaredType == name }

def Method.flag (name : Text) (m : Method) : Method :=
  { m with parameters := m.parameters.map (Parameter.flag name) }

def Callback.flag (name : Text) (c : Callback) : Callback :=
  { c with parameters := c.parameters.map (Parameter.flag name) }

def Interface.flag (name : Text) (i : Interface) : Interface :=
  { i with methods := i.methods.map (Method.flag name), callback := i.callback.map (.flag name) }

def flag (name : Text) (s : Surface) : Surface :=
  { s with interfaces := s.interfaces.map (Interface.flag name) }

def rootCalls (s : Surface) : Bool := s.interfaces.any fun i => i.isRoot && i.isCallback

/-- What is left of a surface when only pure methods are asked for. -/
def onlyPure (s : Surface) : Surface :=
  if s.dropBridged.rootCalls then s.dropBridged.flag s.type else s.dropBridged

variable {table : TypeTable} {g : TypeGraph}

theorem isCallback_ofInterface (i : WebSurface.Interface) :
    (ofInterface table g i).isCallback = i.isCallback := by
  simp only [Interface.isCallback, ofInterface, WebSurface.Interface.isCallback, Keyed.isEmpty,
    Option.isSome_map, List.isEmpty_map]

theorem ofInterface_keepPure (i : WebSurface.Interface) :
    ofInterface table g i.keepPure = (ofInterface table g i).dropBridged := by
  have pure : (fun m : Method => m.isPure? != some false) ∘ ofMethod table g =
      fun m => m.isPure? != some false := rfl
  simp only [ofInterface, WebSurface.Interface.keepPure, Interface.dropBridged, Keyed.keep,
    List.filter_map, pure]

theorem interface?_keepPure (name : Text) : (keepPure g).interface? name =
    if name = g.root then (g.interface? name).map WebSurface.Interface.keepPure
    else g.interface? name :=
  NameTable.get?_update _

def turned (g : TypeGraph) : Bool :=
  (g.interface? g.root).elim false fun i => i.keepPure.isCallback

theorem ofParameter_keepPure (callbacks : List Text) :
    ofParameter table (keepPure g) callbacks =
      if turned g then Parameter.flag g.root ∘ ofParameter table g callbacks
      else ofParameter table g callbacks := by
  funext p
  have calls : ((keepPure g).interface? p.type).elim false WebSurface.Interface.isCallback =
      ((g.interface? p.type).elim false WebSurface.Interface.isCallback ||
        (turned g && p.type == g.root)) := by
    rw [interface?_keepPure]
    by_cases hp : p.type = g.root
    · rw [if_pos hp, hp, turned]
      cases g.interface? g.root with
      | none => rfl
      | some i =>
        cases hi : i.isCallback with
        | false => simp [hi]
        | true => simp [hi, WebSurface.Interface.isCallback_keepPure hi]
    · simp [hp]
  simp only [ofParameter, calls, ← Bool.or_assoc]
  cases turned g with
  | false => simp [ofParameter]
  | true => simp [Parameter.flag, ofParameter]

theorem ofMethod_keepPure : ofMethod table (keepPure g) =
    if turned g then Method.flag g.root ∘ ofMethod table g else ofMethod table g := by
  funext m
  simp only [ofMethod, ofParameter_keepPure]
  split <;> simp [Method.flag, ofMethod]

theorem ofCall_keepPure : ofCall table (keepPure g) =
    if turned g then Callback.flag g.root ∘ ofCall table g else ofCall table g := by
  funext c
  simp only [ofCall, ofParameter_keepPure]
  split <;> simp [Callback.flag, ofCall]

theorem ofInterface_turned : ofInterface table (keepPure g) =
    if turned g then Interface.flag g.root ∘ ofInterface table g else ofInterface table g := by
  funext i
  have root : (keepPure g).root = g.root := rfl
  simp only [ofInterface, ofMethod_keepPure, ofCall_keepPure, root]
  split <;> simp [Interface.flag, ofInterface]

theorem keepPure_eq_self (h : g.AllPure) : keepPure g = g := by
  have list : (keepPure g).interfaces.list = g.interfaces.list := by
    simp only [keepPure, NameTable.update, Keyed.edit]
    refine (List.map_congr_left fun p hp => ?_).trans (List.map_id _)
    have pure := h p.1 p.2 (NameTable.get?_eq_some_iff.2 hp)
    have kept : (p.2.methods.keep fun m => m.isPure? != some false) = p.2.methods := by
      have : p.2.methods.list.filter (fun m => m.isPure? != some false) = p.2.methods.list :=
        List.filter_eq_self.2 fun m hm => bne_iff_ne.2 (pure m hm)
      unfold Keyed.keep
      simp only [this]
    rw [kept]
    split <;> rfl
  unfold keepPure NameTable.update Keyed.edit at list ⊢
  simp only at list ⊢
  simp only [list]

theorem values_keepPure (titled : g.Titled) : (keepPure g).interfaces.values =
    g.interfaces.values.map fun i => if i.name = g.root then i.keepPure else i := by
  simp only [keepPure, NameTable.values, NameTable.update, Keyed.edit, List.map_map]
  refine List.map_congr_left fun p hp => ?_
  have name := titled p.1 p.2 (NameTable.get?_eq_some_iff.2 hp)
  rw [Function.comp_apply, Function.comp_apply]
  by_cases hr : p.1 = g.root
  · rw [if_pos hr, if_pos (name.trans hr)]
    rfl
  · rw [if_neg hr, if_neg (mt name.symm.trans hr)]

theorem interfaces_dropBridged (path : Text) : (ofGraph table g path).dropBridged.interfaces =
    g.interfaces.values.map
      (ofInterface table g ∘ fun i => if i.name = g.root then i.keepPure else i) := by
  simp only [ofGraph, dropBridged, List.map_map]
  refine List.map_congr_left fun i _ => ?_
  have root : (ofInterface table g i).isRoot = (i.name == g.root) := rfl
  rw [Function.comp_apply, Function.comp_apply, root]
  by_cases hi : i.name = g.root
  · rw [if_pos hi, if_pos (beq_iff_eq.2 hi), ofInterface_keepPure]
  · rw [if_neg hi, if_neg (mt beq_iff_eq.1 hi)]

theorem rootCalls_ofGraph (titled : g.Titled) (path : Text) :
    (ofGraph table g path).dropBridged.rootCalls = turned g := by
  rw [Bool.eq_iff_iff, rootCalls, List.any_eq_true, interfaces_dropBridged]
  simp only [List.mem_map, Function.comp_apply, NameTable.mem_values_iff, Bool.and_eq_true]
  constructor
  · rintro ⟨_, ⟨i, ⟨name, hi⟩, rfl⟩, root, calls⟩
    by_cases hr : i.name = g.root
    · rw [if_pos hr, isCallback_ofInterface] at calls
      have found : g.interface? g.root = some i := by rwa [← hr, titled name i hi]
      rw [turned, found]
      exact calls
    · rw [if_neg hr] at root
      exact absurd (beq_iff_eq.1 root) hr
  · intro calls
    unfold turned at calls
    cases hi : g.interface? g.root with
    | none =>
      rw [hi] at calls
      cases calls
    | some i =>
      rw [hi] at calls
      have hr := titled g.root i hi
      refine ⟨_, ⟨i, ⟨g.root, hi⟩, rfl⟩, ?_⟩
      rw [if_pos hr, isCallback_ofInterface]
      exact ⟨beq_iff_eq.2 hr, calls⟩

/-- Methods may as well be left out of the surface, but for what that does to the root. -/
theorem ofGraph_keepPure (titled : g.Titled) (path : Text) :
    ofGraph table (keepPure g) path = (ofGraph table g path).onlyPure := by
  have whole : ofGraph table (keepPure g) path =
      { ofGraph table g path with
        interfaces := (keepPure g).interfaces.values.map (ofInterface table (keepPure g)) } := rfl
  have dropped : (ofGraph table g path).dropBridged =
      { ofGraph table g path with
        interfaces := (ofGraph table g path).dropBridged.interfaces } := rfl
  rw [onlyPure, rootCalls_ofGraph titled, whole, dropped, interfaces_dropBridged,
    values_keepPure titled, ofInterface_turned]
  split
  · simp only [flag, List.map_map]
    rfl
  · simp only [List.map_map]

def Takes (s : Surface) (p : Parameter) : Prop :=
  ∃ i ∈ s.interfaces, (∃ m ∈ i.methods, p ∈ m.parameters) ∨
    ∃ c, i.callback = some c ∧ p ∈ c.parameters

theorem flag_eq_self_iff {s : Surface} {name : Text} : s.flag name = s ↔
    ∀ p, s.Takes p → p.declaredType = name → p.isCallback := by
  have fixed {α : Type} (f : α → α) (l : List α) : l.map f = l ↔ ∀ a ∈ l, f a = a := by
    conv => lhs; rhs; rw [← List.map_id l]
    exact List.map_inj_left
  have parameter (p : Parameter) : p.flag name = p ↔ (p.declaredType = name → p.isCallback) := by
    obtain ⟨n, declared, target, isNullable, isVariadic, isCallback⟩ := p
    cases isCallback <;> simp [Parameter.flag]
  have method (m : Method) : m.flag name = m ↔
      ∀ p ∈ m.parameters, p.declaredType = name → p.isCallback := by
    obtain ⟨n, parameters, declared, result, invocation⟩ := m
    simp [Method.flag, fixed, parameter]
  have callback (c : Callback) : c.flag name = c ↔
      ∀ p ∈ c.parameters, p.declaredType = name → p.isCallback := by
    obtain ⟨parameters, result⟩ := c
    simp [Callback.flag, fixed, parameter]
  have interface (i : Interface) : i.flag name = i ↔
      (∀ m ∈ i.methods, m.flag name = m) ∧ ∀ c, i.callback = some c → c.flag name = c := by
    obtain ⟨n, base, isRoot, properties, methods, call⟩ := i
    cases call <;> simp [Interface.flag, fixed]
  obtain ⟨type, implementation, interfaces, aliases, unresolved⟩ := s
  simp only [flag, Takes, mk.injEq, fixed, interface, method, callback]
  grind

/-- Whether methods were counted or not, asking for pure methods leaves out the others. -/
theorem ofResolved_onlyPure {d : Declarations} (hd : d.Named) {r : Request}
    (h : resolve d table r.followBases r.type = .ok g) :
    ofResolved d table { r with onlyPure := true } g =
      (ofResolved d table { r with onlyPure := false } g).onlyPure := by
  have exact := exact_of_resolve hd h
  have titled := (exact.faithful.classifyInterface hd r.bridging g.root).titled hd
  have whole : ofResolved d table { r with onlyPure := false } g =
      ofGraph table (classifyInterface d r.bridging g.root g).2 r.implementationPath := rfl
  have kept : ofResolved d table { r with onlyPure := true } g = ofGraph table
      (if true && 0 < (classifyInterface d r.bridging g.root g).1 then
        keepPure (classifyInterface d r.bridging g.root g).2
      else (classifyInterface d r.bridging g.root g).2) r.implementationPath := rfl
  rw [whole, kept, ← ofGraph_keepPure titled]
  cases count : (classifyInterface d r.bridging g.root g).1 with
  | zero =>
    rw [keepPure_eq_self (exact.allPure.classifyInterface hd exact.faithful count), ite_self]
  | succ n => rw [if_pos (by simp)]

/-- When only pure methods are asked for, the surface is the whole one without the bridged methods
of its root, in which the parameters of the root's type call back if nothing but a call signature
is left of the root. -/
theorem assemble_onlyPure {corpus : Text} {table : TypeTable} {r : Request} :
    assemble (.ofText corpus) table { r with onlyPure := true } =
        (assemble (.ofText corpus) table { r with onlyPure := false }).map onlyPure ∧
      ∀ s, assemble (.ofText corpus) table { r with onlyPure := false } = .ok s →
        (assemble (.ofText corpus) table { r with onlyPure := true } = .ok s.dropBridged ↔
          (s.dropBridged.rootCalls → ∀ p, s.dropBridged.Takes p → p.declaredType = s.type →
            p.isCallback)) := by
  have hd := Declarations.named_ofText corpus
  have equal : assemble (.ofText corpus) table { r with onlyPure := true } =
      (assemble (.ofText corpus) table { r with onlyPure := false }).map onlyPure := by
    cases hg : TypeGraph.resolve (.ofText corpus) table r.followBases r.type with
    | error f =>
      unfold assemble
      rw [hg]
      rfl
    | ok g =>
      have kept := assemble_of_resolve (r := { r with onlyPure := true }) hg
      have whole := assemble_of_resolve (r := { r with onlyPure := false }) hg
      rw [kept, whole, ofResolved_onlyPure hd hg]
      rfl
  refine ⟨equal, fun s hs => ?_⟩
  rw [equal, hs]
  have same : (Except.ok s : Except ResolveFault Surface).map onlyPure = .ok s.dropBridged ↔
      s.onlyPure = s.dropBridged := ⟨Except.ok.inj, congrArg Except.ok⟩
  rw [same, onlyPure]
  split
  · rename_i calls
    have type : s.type = s.dropBridged.type := rfl
    simp [flag_eq_self_iff, calls]
  · rename_i calls
    simp [calls]

/-- No call signature is left alone, so that the other method is all that is lost. -/
theorem assemble_onlyPure_method :
    let corpus := "interface A \x7b m(f: () => void): void; n(): A; \x7d".toList
    let f : Parameter :=
      ⟨['f'], "() => void".toList, "() => void".toList, false, false, true⟩
    let m : Method := ⟨['m'], [f], "void".toList, "void".toList,
      some ⟨['m'], "dombind.a.m".toList, [['f']]⟩⟩
    let n : Method := ⟨['n'], [], ['A'], ['A'], some (.direct ['n'])⟩
    let s (ms : List Method) : Surface :=
      ⟨['A'], "window.a".toList, [⟨['A'], none, true, [], ms, none⟩], [], []⟩
    assemble (.ofText corpus) (.ofEntries []) { Request.ofType ['A'] with onlyPure := false } =
        .ok (s [m, n]) ∧
      (s [m, n]).dropBridged = s [n] ∧
      assemble (.ofText corpus) (.ofEntries []) { Request.ofType ['A'] with onlyPure := true } =
        .ok (s [n]) := by
  intro corpus f m n s
  let r : Request := .ofType ['A']
  have whole : assemble (.ofText corpus) (.ofEntries []) { r with onlyPure := false } =
      .ok (s [m, n]) := assemble_of_steps 1 (by decide +kernel)
  have kept := (assemble_onlyPure.2 (s [m, n]) whole).2 fun h => by cases h
  exact ⟨whole, rfl, kept⟩

/-- Without its method the root is a callback interface, and the parameter of its type is one that
calls back. -/
theorem not_assemble_onlyPure_dropBridged :
    let corpus := "interface A \x7b (a: A): void; m(f: () => void): void; \x7d".toList
    let f : Parameter :=
      ⟨['f'], "() => void".toList, "() => void".toList, false, false, true⟩
    let m : Method := ⟨['m'], [f], "void".toList, "void".toList,
      some ⟨['m'], "dombind.a.m".toList, [['f']]⟩⟩
    let s (ms : List Method) (flag : Bool) : Surface := ⟨['A'], "window.a".toList, [⟨['A'], none,
      true, [], ms, some ⟨[⟨['a'], ['A'], ['A'], false, false, flag⟩], "void".toList⟩⟩], [], []⟩
    assemble (.ofText corpus) (.ofEntries []) { Request.ofType ['A'] with onlyPure := false } =
        .ok (s [m] false) ∧
      (s [m] false).dropBridged = s [] false ∧
      assemble (.ofText corpus) (.ofEntries []) { Request.ofType ['A'] with onlyPure := true } =
        .ok (s [] true) ∧ s [] true ≠ s [] false := by
  intro corpus f m s
  refine ⟨assemble_of_steps 2 ?_, rfl, assemble_of_steps 2 ?_, ?_⟩ <;> decide +kernel

end Surface

end WebSurface
