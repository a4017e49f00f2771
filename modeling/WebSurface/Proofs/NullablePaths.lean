import WebSurface.Proofs.Settled
import WebSurface.Proofs.TargetTexts
set_option autoImplicit false

namespace WebSurface

namespace TypeText

theorem isFull_of_mem {t m : Text} (h : BarsBetween t) (hm : m ∈ unionMembers t) : IsFull t := by
  refine h.resolve_left fun blank => ?_
  rw [blank_of_mem_unionMembers hm] at blank
  cases blank

theorem plain_union {ms : List Text} (h : ∀ m ∈ ms, ∀ c ∈ m, isPlain c) :
    ∀ c ∈ union ms, isPlain c := by
  induction ms with
  | nil => simp [union, Text.join]
  | cons m ms ih =>
    obtain ⟨hm, hms⟩ := List.forall_mem_cons.1 h
    cases ms with
    | nil => exact hm
    | cons n ms =>
      have bar : ∀ c ∈ " | ".toList, isPlain c := by decide
      exact List.forall_mem_append.2 ⟨List.forall_mem_append.2 ⟨hm, bar⟩, ih hms⟩

theorem splitNullish_congr {t u : Text} (ht : BarsBetween t) (hu : BarsBetween u)
    (some : properMembers t ≠ [])
    (members : (properMembers u).map Text.collapse = (properMembers t).map Text.collapse)
    (admits : admitsNullish u = admitsNullish t) : splitNullish u = splitNullish t := by
  have rest {v : Text} (hv : BarsBetween v) (hne : properMembers v ≠ []) :
      (splitNullish v).1 = union ((properMembers v).map Text.collapse) := by
    obtain ⟨m, hm⟩ := List.exists_mem_of_ne_nil _ hne
    obtain ⟨mem, proper⟩ := List.mem_filter.1 hm
    exact splitNullish_fst_of_isFull (isFull_of_mem hv mem) ⟨m, mem, by simpa using proper⟩
  have other : properMembers u ≠ [] := by
    intro none
    rw [none, List.map_nil, eq_comm, List.map_eq_nil_iff] at members
    exact some members
  refine Prod.ext ?_ ?_
  · rw [rest hu other, rest ht some, members]
  · rw [splitNullish_snd, splitNullish_snd, admits]

end TypeText

namespace TypeTable

open TypeText

/-- The type has an entry in the built-in table, or it is mapped part by part. -/
def IsMapped (t : Text) : Prop :=
  (standard.lookup? t).isSome ∨ (arrayElement? t).isSome ∨ (genericArguments? t).isSome

instance : DecidablePred IsMapped := fun _ => inferInstanceAs (Decidable (_ ∨ _))

theorem target_of_entry? {m : TypeTable} {t r : Text} (h : m.entry? t = some r) :
    m.target t = r := by
  rw [target_eq, shape, h]

/-- The built-in table has a target for each of its nullable types without the nullish members, and
none of its other targets is nullable. -/
theorem spelling_of_lookup? {t r : Text} (h : standard.lookup? t = some r) :
    properMembers t ≠ [] ∧
    ((splitNullish t).2 → (standard.lookup? (splitNullish t).1).map nullable = some r) ∧
    ((splitNullish t).2 = false → r.getLast? ≠ some '?') := by
  have entries : ∀ e ∈ builtin.list, properMembers e.1 ≠ [] ∧
      ((splitNullish e.1).2 → (builtin.get? (splitNullish e.1).1).map nullable = some e.2) ∧
      ((splitNullish e.1).2 = false → e.2.getLast? ≠ some '?') := by
    decide +kernel
  rw [lookup?_standard, NameTable.get?_eq_some_iff] at h
  rw [lookup?_standard]
  exact entries (t, r) h

section Paths

variable {t : Text} (bars : BarsBetween t)

include bars

theorem proper_eq : proper t = splitNullish t := bars.splitNullish_normalize

theorem proper_fst : proper (splitNullish t).1 = ((splitNullish t).1, false) := by
  have bare : admitsNullish (splitNullish t).1 = false := by
    rw [← splitNullish_snd, splitNullish_fst_snd]
  rw [proper, bars.normalize_fst, splitNullish_of_not_admitsNullish bare, bars.normalize_fst]

theorem entry?_fst : standard.entry? (splitNullish t).1 = standard.lookup? (splitNullish t).1 := by
  rw [entry?_eq, proper_fst bars, bars.normalize_fst, if_neg Bool.false_ne_true, Option.or_none]

theorem entry?_eq_map : standard.entry? t =
    (standard.lookup? (splitNullish t).1).map (nullableIf (splitNullish t).2) := by
  rw [entry?_eq, proper_eq bars]
  cases hn : (splitNullish t).2 with
  | false =>
    have whole : (splitNullish t).1 = normalize t := by
      rw [splitNullish_of_not_admitsNullish ((splitNullish_snd t).symm.trans hn)]
    rw [whole, if_neg Bool.false_ne_true, Option.or_none]
    exact Option.map_id'.symm
  | true =>
    have same := bars.splitNullish_normalize
    have form : nullableIf true = nullable := rfl
    rw [if_pos rfl, form]
    cases hr : standard.lookup? (normalize t) with
    | none => rw [Option.none_or]
    | some r =>
      have rest := (spelling_of_lookup? hr).2.1 (by rw [same, hn])
      rw [Option.some_or, ← rest, same]

variable (mapped : IsMapped (splitNullish t).1)

include mapped

/-- Mapping the type is mapping the rest of it and making the target nullable, which the target of
the rest never is. -/
theorem exists_target_fst : ∃ r, r.getLast? ≠ some '?' ∧
    standard.target (splitNullish t).1 = r ∧
      standard.target t = nullableIf (splitNullish t).2 r := by
  have entry := entry?_eq_map bars
  have entry' := entry?_fst bars
  have same := proper_eq bars
  have rest := proper_fst bars
  cases hr : standard.lookup? (splitNullish t).1 with
  | some r =>
    rw [hr] at entry entry'
    have notNullable := (spelling_of_lookup? hr).2.2 (splitNullish_fst_snd t)
    exact ⟨r, notNullable, target_of_entry? entry', target_of_entry? entry⟩
  | none =>
    rw [hr] at entry entry'
    cases ha : arrayElement? (splitNullish t).1 with
    | some element =>
      refine ⟨standard.target element ++ "[]".toList, by simp, ?_, ?_⟩
      · rw [target_of_array entry' (by rw [rest, ha]), rest]
        rfl
      · rw [target_of_array entry (by rw [same, ha]), same]
    | none =>
      obtain ⟨⟨name, arguments⟩, hg⟩ : ∃ g, genericArguments? (splitNullish t).1 = some g := by
        simpa [IsMapped, hr, ha, Option.isSome_iff_exists] using mapped
      refine ⟨applied name (arguments.map standard.target), ?_, ?_, ?_⟩
      · rw [getLast?_applied]
        decide
      · rw [target_of_generic entry' (by rw [rest, ha]) (by rw [rest, hg]), rest, ← applied_eq]
        rfl
      · rw [target_of_generic entry (by rw [same, ha]) (by rw [same, hg]), same, ← applied_eq]

theorem properMembers_ne_nil : properMembers t ≠ [] := by
  intro none
  have nullish : ∀ m ∈ unionMembers t, isNullish m := by
    simpa [properMembers, List.filter_eq_nil_iff] using none
  have whole : (splitNullish t).1 = normalize t := by
    refine congrArg Prod.fst (splitNullish_of_not_admitsNullish (Bool.and_eq_false_iff.2 (.inr ?_)))
    simpa using nullish
  -- The nullish words have no bracket in them, so a type of nothing else is neither form.
  have plain : ∀ c ∈ normalize t, isPlain c := by
    rcases bars with blank | full
    · rw [normalize_blank blank]
      simp
    · rw [full.normalize_eq]
      refine plain_union (List.forall_mem_map.2 fun m hm => ?_)
      have words : ∀ w ∈ ["null".toList, "undefined".toList], ∀ c ∈ Text.collapse w, isPlain c := by
        decide +kernel
      exact words m (by simpa using isNullish_iff.1 (nullish m hm))
  have bracket {c : Char} (hc : isPlain c = false) (mem : c ∈ (normalize t).trim) : False := by
    rw [trim_normalize] at mem
    have := plain c mem
    rw [hc] at this
    cases this
  rw [whole] at mapped
  rcases mapped with entry | array | generic
  · obtain ⟨r, hr⟩ := Option.isSome_iff_exists.1 entry
    exact (spelling_of_lookup? hr).1 (by rw [properMembers_normalize, none, List.map_nil])
  · obtain ⟨e, he⟩ := Option.isSome_iff_exists.1 array
    rcases arrayElement?_eq_some he with ⟨x, hx, -⟩ | ⟨name, -, r, inner, hr, -⟩
    · exact bracket (c := '[') rfl (by simp [hx])
    · exact bracket (c := '<') rfl (by simp [hr])
  · obtain ⟨⟨name, arguments⟩, hg⟩ := Option.isSome_iff_exists.1 generic
    obtain ⟨x, r, inner, hr, -⟩ := genericArguments?_eq_some hg
    exact bracket (c := '<') rfl (by simp [hr])

end Paths

theorem nullableIf_eq {r : Text} (h : r.getLast? ≠ some '?') (b : Bool) :
    nullableIf b r = if b ∧ r ≠ "void".toList then r ++ ['?'] else r := by
  have bare : Text.endsWith ['?'] r = false := by
    rw [Text.endsWith_eq, Bool.eq_false_iff]
    exact mt Text.startsWith_singleton.1 (by simpa using h)
  cases b with
  | false => rfl
  | true =>
    by_cases void : r = "void".toList <;> simp [nullableIf, nullable, bare, void]

/-- A type with a target of its own is mapped like the rest of it, with one question mark if it has
nullish members and the target is not `void`. How these are written makes no difference. -/
theorem target_eq_targetWith {t : Text} (bars : BarsBetween t)
    (mapped : IsMapped (splitNullish t).1) :
    standard.target t = standard.targetWith (splitNullish t).1 (splitNullish t).2 ∧
    (standard.target (splitNullish t).1).getLast? ≠ some '?' ∧
    standard.target t =
      (if (splitNullish t).2 ∧ standard.target (splitNullish t).1 ≠ "void".toList
        then standard.target (splitNullish t).1 ++ ['?'] else standard.target (splitNullish t).1) ∧
    ∀ u, BarsBetween u →
      (properMembers u).map Text.collapse = (properMembers t).map Text.collapse →
      admitsNullish u = admitsNullish t → standard.target u = standard.target t := by
  obtain ⟨r, notNullable, rest, whole⟩ := exists_target_fst bars mapped
  refine ⟨?_, ?_, ?_, fun u hu members admits => ?_⟩
  · rw [whole, targetWith, rest]
  · rwa [rest]
  · rw [whole, rest, nullableIf_eq notNullable]
  · have same := splitNullish_congr bars hu (properMembers_ne_nil bars mapped) members admits
    obtain ⟨r', -, rest', whole'⟩ := exists_target_fst hu (by simpa only [same] using mapped)
    rw [same, rest] at rest'
    rw [whole, whole', same, rest']

/-- The nullish members of a generic type, with and without those of its arguments. -/
theorem target_eq_targetWith_generic :
    let t := "undefined |Map<string, null|URL>| null".toList
    let u := "Map<string,  null|URL>\t|null|null".toList
    (BarsBetween t ∧ IsMapped (splitNullish t).1 ∧ BarsBetween u) ∧
    standard.target t = "Map<string, Uri?>?".toList ∧ standard.target u = standard.target t := by
  intro t u
  have facts : BarsBetween t ∧ IsMapped (splitNullish t).1 ∧ BarsBetween u := by decide +kernel
  have rest : standard.target (splitNullish t).1 = "Map<string, Uri?>".toList := by decide +kernel
  obtain ⟨-, -, whole, written⟩ := target_eq_targetWith facts.1 facts.2.1
  refine ⟨facts, ?_, written u facts.2.2 (by decide +kernel) (by decide +kernel)⟩
  rw [whole, rest]
  decide +kernel

end TypeTable

end WebSurface
