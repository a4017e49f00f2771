import WebSurface.Proofs.Reached
import WebSurface.Proofs.TopLevel
import WebSurface.Proofs.Unions
import WebSurface.Purity
set_option autoImplicit false

namespace WebSurface

namespace TypeText

theorem length_unionMembers_le_one {t : Text} (h : TypeGraph.isPlainName t.trim) :
    (unionMembers t).length ≤ 1 := by
  simp only [TypeGraph.isPlainName, Bool.and_eq_true, List.all_eq_true] at h
  have hp : ∀ c ∈ t.trim, (c == '|') = false := by
    intro c hc
    have hn := h.2 c hc
    cases hb : c == '|' with
    | false => rfl
    | true =>
      rw [beq_iff_eq.1 hb] at hn
      revert hn
      decide
  rw [unionMembers, partsTopLevel_eq, ← parts_trim, parts,
    Nesting.cuts_eq_singleton hp]
  exact List.length_filter_le _ _

end TypeText

open TypeGraph (isPlainName aliasDepth)

inductive Callee where
  | function
  | interface (i : Interface)
  deriving DecidableEq

def Alias.type? (a : Alias) : Option Text :=
  match a.body with
  | .type t => some t
  | .literals _ => none

def memberCallee? (nameCallee? : Text → Option Callee) (t : Text) : Option Callee :=
  if TypeText.isFunctionType t then some .function else nameCallee? t.trim

/-- What makes a type call back, where `nameCallee?` tells it of names. -/
def calleeBy? (nameCallee? : Text → Option Callee) (t : Text) : Option Callee :=
  if TypeText.isFunctionType t then some .function
  else
    match TypeText.unionMembers t with
    | a :: b :: ms => (a :: b :: ms).findSome? (memberCallee? nameCallee?)
    | _ => nameCallee? t.trim

theorem isSome_memberCallee? {f : Text → Option Callee} {t : Text} :
    (memberCallee? f t).isSome ↔ TypeText.isFunctionType t ∨ (f t.trim).isSome := by
  unfold memberCallee?
  split <;> simp [*]

theorem isSome_calleeBy? {f : Text → Option Callee} {t : Text} :
    (calleeBy? f t).isSome ↔ TypeText.isFunctionType t ∨
      (1 < (TypeText.unionMembers t).length ∧
        ∃ m ∈ TypeText.unionMembers t, (memberCallee? f m).isSome) ∨
      ((TypeText.unionMembers t).length ≤ 1 ∧ (f t.trim).isSome) := by
  unfold calleeBy?
  split
  · simp [*]
  · rename_i hf
    split
    · rename_i a b ms hm
      simp [hm, hf, List.findSome?_isSome_iff]
    · rename_i hm
      have hle : (TypeText.unionMembers t).length ≤ 1 := by
        cases h : TypeText.unionMembers t with
        | nil => simp
        | cons a as =>
          cases as with
          | nil => simp
          | cons b ms => exact absurd h (hm a b ms)
      have hlt : ¬1 < (TypeText.unionMembers t).length := by omega
      simp [hf, hle, hlt]

namespace Declarations

variable (d : Declarations)

def Aliases (name u : Text) : Prop :=
  ∃ raw a, d.alias? name = some raw ∧ Alias.ofText raw = .ok a ∧ a.body = .type u

/-- The type calls back, and at most `k` aliases have to be followed to see it. -/
inductive CallbackShaped : Nat → Text → Prop
  | function {k : Nat} {t : Text} : TypeText.isFunctionType t → CallbackShaped k t
  | union {k : Nat} {t m : Text} : 1 < (TypeText.unionMembers t).length →
      m ∈ TypeText.unionMembers t → CallbackShaped k m → CallbackShaped k t
  | interface {k : Nat} {t : Text} {i : Interface} : isPlainName t.trim → d.Reads t.trim i →
      i.isCallback → CallbackShaped k t
  | aliased {k : Nat} {t u : Text} : isPlainName t.trim → d.interface? t.trim = none →
      d.Aliases t.trim u → CallbackShaped k u → CallbackShaped (k + 1) t

def aliasType? (name : Text) : Option Text :=
  ((d.alias? name).bind fun raw => (Alias.ofText raw).toOption).bind Alias.type?

def nameCalleeBy? (typeCallee? : Text → Option Callee) (name : Text) : Option Callee :=
  if !isPlainName name then none
  else
    match d.interface? name with
    | none => (d.aliasType? name).bind typeCallee?
    | some raw =>
      match Interface.ofText raw with
      | .ok i => if i.isCallback then some (.interface i) else none
      | .error _ => none

/-- What makes a name call back, where at most `k` aliases are followed. -/
def nameCallee? : Nat → Text → Option Callee
  | 0 => d.nameCalleeBy? fun _ => none
  | k + 1 => d.nameCalleeBy? (calleeBy? (nameCallee? k))

def typeCallee? (k : Nat) (t : Text) : Option Callee := calleeBy? (d.nameCallee? k) t

variable {d}

theorem aliasType?_eq_some_iff {name u : Text} :
    d.aliasType? name = some u ↔ d.Aliases name u := by
  unfold aliasType? Aliases Alias.type?
  cases d.alias? name with
  | none => simp
  | some raw =>
    cases ha : Alias.ofText raw with
    | error e => simp [Except.toOption, ha]
    | ok a => cases hb : a.body <;> simp [Except.toOption, ha, hb]

theorem nameCalleeBy?_of_reads {f : Text → Option Callee} {name : Text} {i : Interface}
    (h : isPlainName name) (hi : d.Reads name i) :
    d.nameCalleeBy? f name = if i.isCallback then some (.interface i) else none := by
  obtain ⟨raw, hr, hi⟩ := hi
  simp [nameCalleeBy?, h, hr, hi]

theorem isSome_nameCalleeBy? {f : Text → Option Callee} {name : Text} :
    (d.nameCalleeBy? f name).isSome ↔ isPlainName name ∧
      ((∃ i, d.Reads name i ∧ i.isCallback) ∨
        (d.interface? name = none ∧ ∃ u, d.Aliases name u ∧ (f u).isSome)) := by
  unfold nameCalleeBy? Reads
  cases hp : isPlainName name with
  | false => simp
  | true =>
    cases hr : d.interface? name with
    | none =>
      simp only [← aliasType?_eq_some_iff]
      cases d.aliasType? name <;> simp
    | some raw =>
      cases hi : Interface.ofText raw with
      | error e => simp [hi]
      | ok i => simp [hi]

theorem CallbackShaped.of_nameCallee? {k : Nat} {t : Text}
    (step : ∀ l u, l + 1 = k → (d.typeCallee? l u).isSome → d.CallbackShaped l u)
    (h : (d.nameCallee? k t.trim).isSome) : d.CallbackShaped k t := by
  cases k with
  | zero =>
    obtain ⟨hp, ⟨i, hi, hc⟩ | ⟨-, u, -, hu⟩⟩ := isSome_nameCalleeBy?.1 h
    · exact .interface hp hi hc
    · cases hu
  | succ k =>
    obtain ⟨hp, ⟨i, hi, hc⟩ | ⟨hn, u, ha, hu⟩⟩ := isSome_nameCalleeBy?.1 h
    · exact .interface hp hi hc
    · exact .aliased hp hn ha (step k u rfl hu)

theorem CallbackShaped.of_typeCallee? {k : Nat} {t : Text} (h : (d.typeCallee? k t).isSome) :
    d.CallbackShaped k t := by
  induction k using Nat.strongRecOn generalizing t with
  | ind k ih =>
    have step : ∀ l u, l + 1 = k → (d.typeCallee? l u).isSome → d.CallbackShaped l u :=
      fun l u hl hu => ih l (by omega) hu
    rcases isSome_calleeBy?.1 h with hf | ⟨hm, m, hmem, hs⟩ | ⟨-, hs⟩
    · exact .function hf
    · rcases isSome_memberCallee?.1 hs with hf | hs
      · exact .union hm hmem (.function hf)
      · exact .union hm hmem (.of_nameCallee? step hs)
    · exact .of_nameCallee? step hs

theorem isSome_typeCallee? {k : Nat} {t : Text} :
    (d.typeCallee? k t).isSome ↔ d.CallbackShaped k t := by
  refine ⟨.of_typeCallee?, fun h => ?_⟩
  induction h with
  | function hf => exact isSome_calleeBy?.2 (.inl hf)
  | union hm hmem h ih =>
    -- The member is no union, so that nothing but a function type or a name makes it call back.
    have single := TypeText.unionMembers_of_mem hmem
    have hs := isSome_calleeBy?.1 ih
    rw [single] at hs
    refine isSome_calleeBy?.2 (.inr (.inl ⟨hm, _, hmem, isSome_memberCallee?.2 ?_⟩))
    rcases hs with hf | ⟨hlt, -⟩ | ⟨-, hs⟩
    · exact .inl hf
    · exact absurd hlt (by simp)
    · exact .inr hs
  | @interface k t i hp hi hc =>
    have hs : (d.nameCallee? k t.trim).isSome := by
      cases k <;> exact isSome_nameCalleeBy?.2 ⟨hp, .inl ⟨i, hi, hc⟩⟩
    exact isSome_calleeBy?.2 (.inr (.inr ⟨TypeText.length_unionMembers_le_one hp, hs⟩))
  | @aliased k t u hp hn ha h ih =>
    have hs : (d.nameCallee? (k + 1) t.trim).isSome :=
      isSome_nameCalleeBy?.2 ⟨hp, .inr ⟨hn, u, ha, ih⟩⟩
    exact isSome_calleeBy?.2 (.inr (.inr ⟨TypeText.length_unionMembers_le_one hp, hs⟩))

theorem exists_of_calleeBy? {f : Text → Option Callee} {t : Text} {i : Interface}
    (h : calleeBy? f t = some (.interface i)) : ∃ name, f name = some (.interface i) := by
  have member {m : Text} (hm : memberCallee? f m = some (.interface i)) :
      ∃ name, f name = some (.interface i) := by
    unfold memberCallee? at hm
    split at hm
    · cases hm
    · exact ⟨_, hm⟩
  unfold calleeBy? at h
  split at h
  · cases h
  · split at h
    · obtain ⟨m, -, hm⟩ := List.exists_of_findSome?_eq_some h
      exact member hm
    · exact ⟨_, h⟩

theorem reads_of_nameCalleeBy? {f : Text → Option Callee} {name : Text} {i : Interface}
    (h : d.nameCalleeBy? f name = some (.interface i)) :
    (d.Reads name i ∧ i.isCallback) ∨ ∃ u, f u = some (.interface i) := by
  unfold nameCalleeBy? at h
  split at h
  · cases h
  · split at h
    · obtain ⟨u, -, hu⟩ := Option.bind_eq_some_iff.1 h
      exact .inr ⟨u, hu⟩
    · rename_i raw hr
      split at h
      · rename_i j hj
        split at h
        · rename_i hc
          obtain rfl := Callee.interface.inj (Option.some.inj h)
          exact .inl ⟨⟨raw, hr, hj⟩, hc⟩
        · cases h
      · cases h

theorem reads_of_nameCallee? {k : Nat} {name : Text} {i : Interface}
    (h : d.nameCallee? k name = some (.interface i)) : ∃ name, d.Reads name i ∧ i.isCallback := by
  induction k generalizing name with
  | zero =>
    rcases reads_of_nameCalleeBy? h with hi | ⟨u, hu⟩
    · exact ⟨name, hi⟩
    · cases hu
  | succ k ih =>
    rcases reads_of_nameCalleeBy? h with hi | ⟨u, hu⟩
    · exact ⟨name, hi⟩
    · obtain ⟨name', hn⟩ := exists_of_calleeBy? hu
      exact ih hn

theorem reads_of_typeCallee? (hd : d.Named) {k : Nat} {t : Text} {i : Interface}
    (h : d.typeCallee? k t = some (.interface i)) : d.Reads i.name i ∧ i.isCallback := by
  obtain ⟨name, hn⟩ := exists_of_calleeBy? h
  obtain ⟨name', ⟨raw, hr, hi⟩, hc⟩ := reads_of_nameCallee? hn
  obtain rfl := hd.interface_name hr hi
  exact ⟨⟨raw, hr, hi⟩, hc⟩

instance (k : Nat) (t : Text) : Decidable (d.CallbackShaped k t) :=
  decidable_of_iff _ isSome_typeCallee?

end Declarations

end WebSurface
