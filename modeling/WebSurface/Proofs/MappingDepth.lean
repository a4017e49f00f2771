import WebSurface.Proofs.ByteTypes
set_option autoImplicit false

/-!
How deep the mapping of a type goes.

A type is mapped by its components: the element of an array, or the arguments of a generic type
(`TypeTable.components`). They are pieces of a text that was rewritten before, and the rewritten
text may be longer than the type. But it has no more solid characters than the type
(`TypeTable.solid_proper_le`), and each component has fewer
(`TypeTable.solid_lt_of_mem_components`). So the mapping ends at every type, with no more calls
inside one another than the type has solid characters (`TypeTable.target_ends`).
-/

namespace WebSurface.TypeTable

open TypeText

/-- The types that are mapped in turn where a type is mapped. -/
def components (m : TypeTable) (t : Text) : List Text :=
  match m.shape t with
  | .array element => [element]
  | .generic _ arguments => arguments
  | .entry _ => []
  | .reference => []

def targetBy (m : TypeTable) (f : Text → Option Text) (t : Text) : Option Text :=
  match m.shape t with
  | .entry r => some r
  | .array element => (f element).map fun mapped =>
    nullableIf (proper t).2 (mapped ++ "[]".toList)
  | .generic name arguments => (arguments.mapM f).map fun mapped =>
    nullableIf (proper t).2 (name ++ "<".toList ++ Text.join ", ".toList mapped ++ ">".toList)
  | .reference => some t.trim

/-- The target of a type, unless more than `n` calls inside one another are needed. -/
def targetWithin (m : TypeTable) : Nat → Text → Option Text
  | 0, _ => none
  | n + 1, t => m.targetBy (m.targetWithin n) t

variable {m : TypeTable} {t u : Text}

theorem exists_of_mem_components (h : u ∈ m.components t) :
    arrayElement? (proper t).1 = some u ∨
      ∃ name arguments, genericArguments? (proper t).1 = some (name, arguments) ∧
        u ∈ arguments := by
  cases hs : m.shape t with
  | array element =>
    rw [components, hs, List.mem_singleton] at h
    rw [h]
    exact .inl (arrayElement?_of_shape hs)
  | generic name arguments =>
    rw [components, hs] at h
    exact .inr ⟨name, arguments, genericArguments?_of_shape hs, h⟩
  | _ =>
    rw [components, hs] at h
    cases h

theorem solid_lt_of_mem_components (h : u ∈ m.components t) : solid u < solid t := by
  refine Nat.lt_of_lt_of_le ?_ (solid_proper_le t)
  rcases exists_of_mem_components h with element | ⟨name, arguments, generic, hu⟩
  · exact solid_arrayElement?_lt element
  · exact solid_genericArguments?_lt generic hu

theorem isSome_mapM {α β : Type} {f : α → Option β} {as : List α} :
    (as.mapM f).isSome ↔ ∀ a ∈ as, (f a).isSome := by
  induction as with
  | nil => simp
  | cons a as ih =>
    rw [List.mapM_cons, List.forall_mem_cons, ← ih]
    cases f a <;> cases as.mapM f <;> simp

/-- The mapping asks for the targets of the components and for no others. -/
theorem isSome_targetBy {f : Text → Option Text} :
    (m.targetBy f t).isSome ↔ ∀ u ∈ m.components t, (f u).isSome := by
  unfold targetBy components
  cases m.shape t with
  | array element => simp
  | generic name arguments => simp [isSome_mapM]
  | _ => simp

theorem targetBy_eq_some {f : Text → Option Text}
    (h : ∀ u ∈ m.components t, f u = some (m.target u)) :
    m.targetBy f t = some (m.target t) := by
  rw [target_eq]
  unfold targetBy components at *
  cases hs : m.shape t with
  | array element =>
    rw [hs] at h
    have mapped := h element List.mem_cons_self
    simp [mapped]
  | generic name arguments =>
    rw [hs] at h
    have mapped : arguments.mapM f = some (arguments.map m.target) := Checked.mapM_eq_some h
    simp [mapped]
  | _ => rfl

/-- Each call is for a type with fewer solid characters, so as many calls inside one another as the
type has of them, and one more, are enough. -/
theorem targetWithin_eq_some {n : Nat} (h : solid t < n) :
    m.targetWithin n t = some (m.target t) := by
  induction n generalizing t with
  | zero => exact absurd h (Nat.not_lt_zero _)
  | succ n ih =>
    rw [targetWithin]
    exact targetBy_eq_some fun u hu =>
      ih (Nat.lt_of_lt_of_le (solid_lt_of_mem_components hu) (Nat.le_of_lt_succ h))

/-- The mapping of a type ends: what it asks for in turn has fewer solid characters, although the
normal form of a type may have more characters than the type. -/
theorem target_ends (m : TypeTable) (t : Text) :
    (∀ f, (m.targetBy f t).isSome ↔ ∀ u ∈ m.components t, (f u).isSome) ∧
    (∀ u ∈ m.components t, solid u < solid t ∧ (arrayElement? (proper t).1 = some u ∨
      ∃ name arguments, genericArguments? (proper t).1 = some (name, arguments) ∧
        u ∈ arguments)) ∧
    (∀ n, solid t < n → m.targetWithin n t = some (m.target t)) ∧
    normalize "A|B".toList = "A | B".toList :=
  ⟨fun _ => isSome_targetBy,
    fun _ hu => ⟨solid_lt_of_mem_components hu, exists_of_mem_components hu⟩,
    fun _ => targetWithin_eq_some, by decide⟩

/-- A union among the arguments, and an array in parentheses of what has an entry. -/
theorem target_ends_nested :
    let m := ofEntries [("C".toList, "X".toList)]
    let t := "Map<A|B,(C)[]>|null".toList
    m.components t = ["A|B".toList, "(C)[]".toList] ∧
      (solid "(C)[]".toList < solid t ∧ solid t < 20) ∧
      m.target t = "Map<A|B, X[]>?".toList := by
  intro m t
  have components : m.components t = ["A|B".toList, "(C)[]".toList] := by decide +kernel
  have bound : solid t < 20 := by decide
  obtain ⟨-, smaller, ends, -⟩ := target_ends m t
  have array := (smaller "(C)[]".toList (by rw [components]; decide)).1
  have found : m.targetWithin 20 t = some "Map<A|B, X[]>?".toList := by decide +kernel
  exact ⟨components, ⟨array, bound⟩, Option.some.inj ((ends 20 bound).symm.trans found)⟩

end WebSurface.TypeTable
