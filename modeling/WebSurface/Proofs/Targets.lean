import WebSurface.Proofs.NameTable
import WebSurface.Proofs.Unions
import WebSurface.TypeTable
set_option autoImplicit false

namespace WebSurface.TypeTable

open TypeText

theorem target_eq (m : TypeTable) (t : Text) : m.target t =
    match m.shape t with
    | .entry r => r
    | .array element => nullableIf (proper t).2 (m.target element ++ "[]".toList)
    | .generic name arguments => nullableIf (proper t).2
      (name ++ "<".toList ++ Text.join ", ".toList (arguments.map m.target) ++ ">".toList)
    | .reference => t.trim := by
  rw [target]
  split <;> simp_all

theorem entry?_eq (m : TypeTable) (t : Text) : m.entry? t = (m.lookup? (normalize t)).or
    (if (proper t).2 then (m.lookup? (proper t).1).map nullable else none) := rfl

section Shapes

variable {m : TypeTable} {t : Text} (entry : m.entry? t = none)

include entry

theorem target_of_array {element : Text} (h : arrayElement? (proper t).1 = some element) :
    m.target t = nullableIf (proper t).2 (m.target element ++ "[]".toList) := by
  rw [target_eq, shape, entry, h]

theorem target_of_generic {name : Text} {arguments : List Text}
    (array : arrayElement? (proper t).1 = none)
    (h : genericArguments? (proper t).1 = some (name, arguments)) :
    m.target t = nullableIf (proper t).2
      (name ++ "<".toList ++ Text.join ", ".toList (arguments.map m.target) ++ ">".toList) := by
  rw [target_eq, shape, entry, array, h]

theorem target_of_reference (array : arrayElement? (proper t).1 = none)
    (generic : genericArguments? (proper t).1 = none) : m.target t = t.trim := by
  rw [target_eq, shape, entry, array, generic]

end Shapes

theorem target_of_lookup? {m : TypeTable} {t r : Text} (h : m.lookup? (normalize t) = some r) :
    m.target t = r := by
  have entry : m.entry? t = some r := by rw [entry?_eq, h, Option.some_or]
  rw [target_eq, shape, entry]

@[simp] theorem target_trim (m : TypeTable) (t : Text) : m.target t.trim = m.target t := by
  have whole : proper t.trim = proper t := by rw [proper, proper, normalize_trim]
  have same : m.shape t.trim = m.shape t := by
    rw [shape, shape, entry?_eq, entry?_eq, whole, normalize_trim]
  rw [target_eq, target_eq, same, whole, Text.trim_trim]

theorem lookup?_standard (t : Text) : standard.lookup? t = builtin.get? t := by
  rw [lookup?, standard, NameTable.get?_empty, Option.none_or]

theorem list_builtin : builtin.list = primitives.flatMap fun (source, target) =>
    [(source, target), (source ++ " | null".toList, nullable target),
      (source ++ " | undefined".toList, nullable target)] := by
  decide +kernel

theorem primitive_of_lookup? {t r : Text} (h : standard.lookup? t = some r) :
    ∃ e ∈ primitives, ∃ w ∈ [[], " | null".toList, " | undefined".toList], ∃ b,
      t = e.1 ++ w ∧ r = nullableIf b e.2 := by
  rw [lookup?_standard, NameTable.get?_eq_some_iff, list_builtin, List.mem_flatMap] at h
  obtain ⟨e, he, h⟩ := h
  simp only [List.mem_cons, List.not_mem_nil, or_false, Prod.mk.injEq] at h
  rcases h with ⟨rfl, rfl⟩ | ⟨rfl, rfl⟩ | ⟨rfl, rfl⟩
  · exact ⟨e, he, [], by simp, false, (List.append_nil _).symm, rfl⟩
  · exact ⟨e, he, _, by simp, true, rfl, rfl⟩
  · exact ⟨e, he, _, by simp, true, rfl, rfl⟩

/-- A type with an entry in the built-in table is written with names, bars and spaces only. -/
theorem plain_of_lookup? {t r : Text} (h : standard.lookup? t = some r) :
    ∀ c ∈ t, isPlain c := by
  have sources : ∀ e ∈ primitives, ∀ c ∈ e.1, isPlain c := by decide +kernel
  have ends : ∀ w ∈ [[], " | null".toList, " | undefined".toList], ∀ c ∈ w, isPlain c := by decide
  obtain ⟨e, he, w, hw, -, rfl, -⟩ := primitive_of_lookup? h
  exact List.forall_mem_append.2 ⟨sources e he, ends w hw⟩

theorem lookup?_eq_none {t : Text} {c : Char} (hc : isPlain c = false) (h : c ∈ t) :
    standard.lookup? t = none := by
  rw [Option.eq_none_iff_forall_ne_some]
  intro r hr
  rw [plain_of_lookup? hr c h] at hc
  cases hc

end WebSurface.TypeTable
