import WebSurface.Proofs.BalancedTypes
import WebSurface.Proofs.Classification
set_option autoImplicit false

/-!
Parentheses around the type of a parameter.

One pair of them is taken off before a type is told to be a function type, and none before it is
told to be a name or a union. So parentheses that say nothing hide what calls back
(`Declarations.callbackShaped_parens`), apart from one pair around a function type, and
`TypeGraph.classify_parens` says when the classifier notices them.
-/

namespace WebSurface

namespace TypeText

def parens : Nat → Text → Text
  | 0, t => t
  | n + 1, t => '(' :: (parens n t ++ [')'])

variable {t : Text}

theorem closes_paren (h : t.Balanced) : (Nesting.outside.run t).closes ')' :=
  Nesting.closes_of_isCloser h.closed (by decide) (by decide)

theorem balanced_parens (h : t.Balanced) (n : Nat) : (parens n t).Balanced := by
  induction n with
  | zero => exact h
  | succ n ih => exact ih.enclosed rfl (closes_paren ih)

theorem enclosed?_parens (h : t.Balanced) (n : Nat) :
    enclosed? (parens (n + 1) t) = some (parens n t) := by
  have balanced := balanced_parens h n
  exact enclosed?_eq rfl balanced (closes_paren balanced)

theorem trim_parens (n : Nat) (t : Text) : (parens (n + 1) t).trim = parens (n + 1) t := by
  rw [parens, Text.trim, Text.trimStart_cons rfl, ← List.cons_append, Text.trimEnd_append_solid rfl]

theorem stripParens_parens (h : t.Balanced) (n : Nat) :
    stripParens (parens (n + 1) t) = (parens n t).trim := by
  rw [stripParens, trim_parens, enclosed?_parens h]
  rfl

theorem isFunctionType_parens (h : t.Balanced) (n : Nat) :
    isFunctionType (parens (n + 1) t) ↔ n = 0 ∧ isBareFunction t.trim := by
  rw [isFunctionType_eq, stripParens_parens h]
  cases n with
  | zero => simp [parens]
  | succ n =>
    have bracketed : ¬isBareFunction (parens (n + 1) t) := fun function => by
      have none := enclosed?_eq_none_of_function function
      rw [enclosed?_parens h] at none
      cases none
    simp [trim_parens, bracketed]

theorem isFunctionType_of_bare (h : isBareFunction t.trim) : isFunctionType t := by
  rwa [isFunctionType_eq, stripParens_of_function h]

end TypeText

open TypeText (parens isBareFunction)

namespace Declarations

variable {d : Declarations} {t : Text}

/-- A parenthesis is part of no name and hides every bar. -/
theorem typeCallee?_parens (h : t.Balanced) (k n : Nat) : d.typeCallee? k (parens (n + 1) t) =
    if n = 0 ∧ isBareFunction t.trim then some .function else none := by
  have few : (TypeText.unionMembers (parens (n + 1) t)).length ≤ 1 :=
    TypeText.length_unionMembers_le (.enclosed rfl rfl (TypeText.balanced_parens h n).opened)
  have unnamed : d.nameCallee? k (parens (n + 1) t) = none := by
    cases k <;> rfl
  rw [typeCallee?, calleeBy?]
  by_cases hf : n = 0 ∧ isBareFunction t.trim
  · rw [if_pos ((TypeText.isFunctionType_parens h n).2 hf), if_pos hf]
  · rw [if_neg (mt (TypeText.isFunctionType_parens h n).1 hf), if_neg hf, TypeText.trim_parens,
      unnamed]
    split
    · rename_i hm
      rw [hm] at few
      simp at few
    · rfl

theorem callbackShaped_parens (h : t.Balanced) (k n : Nat) :
    d.CallbackShaped k (parens (n + 1) t) ↔ n = 0 ∧ isBareFunction t.trim := by
  rw [← isSome_typeCallee?, typeCallee?_parens h]
  split <;> simp [*]

/-- The parentheses are not noticed: there are none, or nothing is hidden by them. -/
def Overlooks (d : Declarations) (k n : Nat) (t : Text) : Prop :=
  n = 0 ∨ ¬d.CallbackShaped k t ∨ n = 1 ∧ isBareFunction t.trim

theorem Overlooks.typeCallee?_eq {k n : Nat} (h : t.Balanced) (ho : d.Overlooks k n t) :
    d.typeCallee? k (parens n t) = d.typeCallee? k t := by
  cases n with
  | zero => rfl
  | succ n =>
    rw [typeCallee?_parens h]
    rcases ho with hn | hs | ⟨hn, hf⟩
    · cases hn
    · have hf : ¬isBareFunction t.trim := fun hf =>
        hs (.function (TypeText.isFunctionType_of_bare hf))
      rw [← isSome_typeCallee?] at hs
      rw [if_neg (fun both => hf both.2)]
      simpa [eq_comm (a := none)] using hs
    · have function := TypeText.isFunctionType_of_bare hf
      obtain rfl : n = 0 := by omega
      simp [typeCallee?, calleeBy?, hf, function]

theorem callbackShaped_parens_iff {k n : Nat} (h : t.Balanced) :
    (d.CallbackShaped k (parens n t) ↔ d.CallbackShaped k t) ↔ d.Overlooks k n t := by
  refine ⟨fun same => ?_, fun ho => ?_⟩
  · cases n with
    | zero => exact .inl rfl
    | succ n =>
      rw [callbackShaped_parens h] at same
      by_cases hs : d.CallbackShaped k t
      · obtain ⟨rfl, hf⟩ := same.2 hs
        exact .inr (.inr ⟨rfl, hf⟩)
      · exact .inr (.inl hs)
  · rw [← isSome_typeCallee?, ← isSome_typeCallee?, ho.typeCallee?_eq h]

end Declarations

namespace TypeGraph

variable {d : Declarations} {g : TypeGraph} {b : Bridging} {owner : Text} {m : Method}
  {before after : List Parameter} {p : Parameter}

section Retyped

variable (hd : d.Named) (hg : Faithful d g) (hm : m.parameters = before ++ p :: after)

include hd hg hm

omit hm in
theorem classify_parameters (hl : b.isListed owner m.name = false) (ps : List Parameter) :
    classify d b owner { m with parameters := ps } g =
      (invocation b owner m.name
        ((ps.filter fun p => decide (d.CallbackShaped aliasDepth p.type)).map Parameter.name),
        joinAll d ps g) :=
  classify_eq hd hg hl

theorem classify_retyped {u : Text}
    (same : d.typeCallee? aliasDepth u = d.typeCallee? aliasDepth p.type) :
    classify d b owner { m with parameters := before ++ { p with type := u } :: after } g =
      classify d b owner m g := by
  cases hl : b.isListed owner m.name with
  | true =>
    let ps := before ++ { p with type := u } :: after
    exact (classify_listed (m := { m with parameters := ps }) hl).trans (classify_listed hl).symm
  | false =>
    have shaped : d.CallbackShaped aliasDepth u ↔ d.CallbackShaped aliasDepth p.type := by
      rw [← Declarations.isSome_typeCallee?, ← Declarations.isSome_typeCallee?, same]
    rw [classify_parameters hd hg hl, classify_eq hd hg hl, hm]
    simp only [joinAll, List.foldl_append, List.foldl_cons, same, List.filter_append,
      List.filter_cons, shaped, List.map_append]
    congr 3
    split <;> rfl

/-- The verdict tells whether the parameter is one of those that call back. -/
theorem shaped_of_classify_retyped {u : Text} (hl : b.isListed owner m.name = false)
    (same : (classify d b owner { m with parameters := before ++ { p with type := u } :: after }
      g).1 = (classify d b owner m g).1) :
    d.CallbackShaped aliasDepth u ↔ d.CallbackShaped aliasDepth p.type := by
  rw [classify_parameters hd hg hl, classify_eq hd hg hl, hm] at same
  have names := congrArg (List.length ∘ Invocation.callbacks) same
  simp only [Function.comp_apply, callbacks_invocation, List.length_map, List.filter_append,
    List.length_append, Nat.add_left_cancel_iff, List.filter_cons] at names
  by_cases hu : d.CallbackShaped aliasDepth u <;>
    by_cases ht : d.CallbackShaped aliasDepth p.type <;> simp [hu, ht] at names ⊢

end Retyped

/-- Parentheses around the type of a parameter change nothing, neither in the verdict nor in the
graph, exactly if the method is listed as pure or if the classifier does not notice them. -/
theorem classify_parens {corpus : Text} {table : TypeTable} {followBases : Bool} {root : Text}
    (hg : resolve (.ofText corpus) table followBases root = .ok g)
    (hm : m.parameters = before ++ p :: after) (balanced : p.type.Balanced) (n : Nat) :
    let enclosed : Method :=
      { m with parameters := before ++ { p with type := parens n p.type } :: after }
    let overlooked := b.isListed owner m.name ∨ (Declarations.ofText corpus).Overlooks 4 n p.type
    (classify (.ofText corpus) b owner enclosed g = classify (.ofText corpus) b owner m g ↔
        overlooked) ∧
      ((classify (.ofText corpus) b owner enclosed g).1 =
          (classify (.ofText corpus) b owner m g).1 ↔ overlooked) := by
  intro enclosed overlooked
  have hd := Declarations.named_ofText corpus
  have faithful : Faithful (.ofText corpus) g := (exact_of_resolve hd hg).faithful
  have kept (ho : overlooked) :
      classify (.ofText corpus) b owner enclosed g = classify (.ofText corpus) b owner m g := by
    rcases ho with hl | ho
    · exact (classify_listed (m := enclosed) hl).trans (classify_listed hl).symm
    · exact classify_retyped hd faithful hm (Declarations.Overlooks.typeCallee?_eq balanced ho)
  have noticed (same : (classify (.ofText corpus) b owner enclosed g).1 =
      (classify (.ofText corpus) b owner m g).1) : overlooked := by
    cases hl : b.isListed owner m.name with
    | true => exact .inl hl
    | false =>
      exact .inr ((Declarations.callbackShaped_parens_iff balanced).1
        (shaped_of_classify_retyped hd faithful hm hl same))
  exact ⟨⟨fun same => noticed (congrArg Prod.fst same), kept⟩,
    noticed, fun ho => congrArg Prod.fst (kept ho)⟩

/-- A pair of parentheses around a function type, and two of them around an interface. -/
theorem classify_parens_listener :
    let d := Declarations.ofText
      "interface A \x7b \x7d interface Listener \x7b (): void; \x7d".toList
    let g := TypeGraph.ofRoot ⟨['A'], [], .empty, .empty, none⟩
    let b := Bridging.ofNames none []
    let typed (t u : String) : Method := ⟨"on".toList,
      [⟨['f'], t.toList, false, false⟩, ⟨['c'], u.toList, false, false⟩], "void".toList, false,
      none⟩
    let bridged (callbacks : List Text) : Invocation :=
      ⟨"on".toList, "dombind.a.on".toList, callbacks⟩
    resolve d .standard false ['A'] = .ok g ∧
      (classify d b ['A'] (typed "() => void" "Listener") g).1 = bridged [['f'], ['c']] ∧
      (classify d b ['A'] (typed "(() => void)" "Listener") g).1 = bridged [['f'], ['c']] ∧
      (classify d b ['A'] (typed "() => void" "((Listener))") g).1 = bridged [['f']] := by
  intro d g b typed bridged
  have resolved : resolve d .standard false ['A'] = .ok g :=
    Search.resolve_of_steps 0 (by decide +kernel)
  let m := typed "() => void" "Listener"
  have bare : (classify d b ['A'] m g).1 = bridged [['f'], ['c']] := by decide +kernel
  have first : m.parameters = [] ++ ⟨['f'], "() => void".toList, false, false⟩ :: _ := rfl
  have same : (classify d b ['A'] (typed "(() => void)" "Listener") g).1 =
      (classify d b ['A'] m g).1 :=
    (classify_parens resolved first (by decide) 1).2.2 (.inr (.inr (.inr ⟨rfl, by decide⟩)))
  refine ⟨resolved, bare, same.trans bare, ?_⟩
  decide +kernel

/-- The parentheses around a union hide the callback interface in it. -/
theorem not_classify_parens :
    ¬∀ (corpus : Text) (table : TypeTable) (followBases : Bool) (root : Text) (g : TypeGraph),
      resolve (.ofText corpus) table followBases root = .ok g →
      ∀ (b : Bridging) (owner : Text) (m : Method) (before after : List Parameter) (p : Parameter),
        m.parameters = before ++ p :: after → p.type.Balanced → ∀ n,
          (classify (.ofText corpus) b owner
            { m with parameters := before ++ { p with type := parens n p.type } :: after } g).1 =
          (classify (.ofText corpus) b owner m g).1 := by
  intro same
  let corpus := "interface A \x7b \x7d interface EventListener \x7b (): void; \x7d".toList
  let p : Parameter := ⟨"f".toList, "EventListener | null".toList, false, false⟩
  let g := TypeGraph.ofRoot ⟨['A'], [], .empty, .empty, none⟩
  have h : resolve (.ofText corpus) .standard false ['A'] = .ok g :=
    Search.resolve_of_steps 0 (by decide +kernel)
  have shaped : (Declarations.ofText corpus).CallbackShaped 4 p.type := by decide +kernel
  have balanced : p.type.Balanced := by decide
  have hd := Declarations.named_ofText corpus
  have noticed := shaped_of_classify_retyped hd (exact_of_resolve hd h).faithful rfl (by decide)
    (same corpus .standard false _ g h (.ofNames none []) "A".toList
      ⟨"on".toList, [p], "void".toList, false, none⟩ [] [] p rfl balanced 1)
  rcases (Declarations.callbackShaped_parens_iff balanced).1 noticed with hn | hs | ⟨-, hf⟩
  · cases hn
  · exact hs shaped
  · revert hf
    decide

end TypeGraph

end WebSurface
