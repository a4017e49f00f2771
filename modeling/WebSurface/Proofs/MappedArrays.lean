import WebSurface.Proofs.TargetTexts
set_option autoImplicit false

namespace WebSurface

namespace TypeText

/-- How many members a text has does not depend on what is written after its last bar. -/
theorem length_unionMembers_append {w : Text} (hw : w.blank = false)
    (noBar : ∀ c ∈ w, (c == '|') = false) (x : Text) : (unionMembers (x ++ w)).length =
      (tidy (Nesting.outside.cuts (· == '|') x).dropLast).length + 1 := by
  have last : (((Nesting.outside.cuts (· == '|') x).getLast?.getD []) ++ w).blank = false := by
    rw [Text.blank_append, hw, Bool.and_false]
  rw [unionMembers_eq, parts, Nesting.cuts_append_eq, Nesting.cuts_eq_singleton noBar, tidy_append,
    List.length_append, List.modifyHead_cons, tidy_cons, last]
  rfl

theorem unionWidth_append {w : Text} (hw : w.blank = false) (noBar : ∀ c ∈ w, (c == '|') = false)
    (x : Text) : unionWidth (x ++ w) = unionWidth (x ++ "[]".toList) := by
  rw [unionWidth, unionWidth, length_unionMembers_append hw noBar,
    length_unionMembers_append (by decide) (by decide)]

theorem length_unionMembers_le_append {w : Text} (hw : w.blank = false)
    (noBar : ∀ c ∈ w, (c == '|') = false) (x : Text) :
    (unionMembers x).length ≤ (unionMembers (x ++ w)).length := by
  rw [length_unionMembers_append hw noBar, unionMembers_eq, parts]
  obtain ⟨a, as, hcuts⟩ := Nesting.exists_cuts (· == '|') .outside x
  obtain ⟨init, last, hlast⟩ : ∃ init last, a :: as = init ++ [last] :=
    ⟨_, _, (List.dropLast_append_getLast (List.cons_ne_nil a as)).symm⟩
  rw [hcuts, hlast, List.dropLast_concat, tidy_append, List.length_append]
  exact Nat.add_le_add_left (List.length_filter_le _ _) _

theorem enclosed?_append_eq_none {x w : Text} (hx : (Nesting.outside.run x).topLevel) (hne : x ≠ [])
    (hw : w ≠ []) : enclosed? (x ++ w) = none := by
  rw [Option.eq_none_iff_forall_ne_some]
  intro a ha
  obtain ⟨o, c, ho, ht, balanced⟩ := exists_of_enclosed? ha
  obtain ⟨d, x, rfl⟩ := List.exists_cons_of_ne_nil hne
  obtain ⟨z, e, rfl⟩ : ∃ z e, w = z ++ [e] :=
    ⟨_, _, (List.dropLast_append_getLast hw).symm⟩
  obtain ⟨rfl, hrest⟩ := List.cons.inj ht
  replace hrest : x ++ z ++ [e] = a ++ [c] := (List.append_assoc x z [e]).trans hrest
  have opened := balanced.opened
  rw [← (List.append_inj' hrest rfl).1, Nesting.opened_append, Bool.and_eq_true] at opened
  rw [Nesting.run_cons, Nesting.outside_step_opener ho, Nesting.run_deeper opened.1] at hx
  cases hx

/-- Brackets after a closed text: whether the whole is a function type is decided before them. -/
theorem isFunctionType_append {x w : Text} (hx : (Nesting.outside.run x).topLevel)
    (trimmed : ∀ c ∈ x.head?, Text.isBlank c = false) (hw : ∀ c ∈ w, c ∈ ['[', ']', '?']) :
    isFunctionType (x ++ '[' :: w) = isBareFunction x := by
  have marks : ∀ c ∈ ['[', ']', '?'], Text.isBlank c = false ∧ (c == '=') = false := by decide
  have solid : ∀ c ∈ '[' :: w, c ∈ ['[', ']', '?'] := List.forall_mem_cons.2 ⟨by decide, hw⟩
  have whole : (x ++ '[' :: w).trim = x ++ '[' :: w := by
    apply Text.trim_eq_self
    · intro c hc
      cases x with
      | nil =>
        obtain rfl : '[' = c := by simpa using hc
        rfl
      | cons d x => exact trimmed c hc
    · intro c hc
      rw [List.getLast?_append_of_ne_nil _ (List.cons_ne_nil _ _)] at hc
      exact (marks c (solid c (List.mem_of_mem_getLast? hc))).1
  have bare : stripParens (x ++ '[' :: w) = x ++ '[' :: w := by
    by_cases hne : x = []
    · rw [stripParens_of_noParen, whole]
      rw [whole, hne]
      simp
    · rw [stripParens, whole, enclosed?_append_eq_none hx hne (List.cons_ne_nil _ _)]
      exact ite_self _
  rw [isFunctionType_eq, bare, isBareFunction_append fun c hc => (marks c (hw c hc)).2]

theorem genericArguments?_of_function {t : Text} (h : isBareFunction t.trim) :
    genericArguments? t = none := by
  rw [Option.eq_none_iff_forall_ne_some]
  rintro ⟨name, arguments⟩ hg
  obtain ⟨x, r, inner, ht, hx, -, named, -⟩ := genericArguments?_eq_some hg
  have undivided : t.trim.Undivided (· == '=') :=
    undivided_of_genericArguments? (beq_eq_false_of rfl) (beq_eq_false_of (by decide))
      (beq_eq_false_of rfl) (by rw [hg]; rfl)
  rw [ht] at undivided h
  have none := isBareFunction_named (fun c => isGenericNameChar_or_isBlank hx named) (by simp)
    undivided
  rw [none] at h
  cases h

theorem isBareFunction_element {t element : Text} (h : isBareFunction t.trim)
    (he : arrayElement? t = some element) :
    ∃ x, t.trim = x ++ "[]".toList ∧ element = x.trim ∧ isBareFunction x.trim := by
  rcases arrayElement?_eq_some he with ⟨x, ht, -, -, rfl⟩ | ⟨name, hname, r, inner, ht, hr, -⟩
  · have before : isBareFunction x := by
      rw [ht] at h
      exact (isBareFunction_append (w := [']']) (by decide) x).symm.trans h
    have trimmed := isBareFunction_trim before
    exact ⟨x, ht, stripParens_of_function trimmed, trimmed⟩
  · have undivided : (name ++ '<' :: r).Undivided (· == '=') :=
      undivided_of_arrayNames (beq_eq_false_of rfl) (beq_eq_false_of (by decide)) hname hr
    rw [ht, isBareFunction_named (fun c hc =>
      .inl (isGenericNameChar_of_mem_arrayNames hname c hc)) (by simp) undivided] at h
    cases h

section Arrays

variable {t element : Text} (balanced : t.Balanced) (array : arrayElement? t = some element)

include balanced array in
theorem stripParens_of_array : stripParens t = t.trim := by
  rcases arrayElement?_eq_some array with ⟨x, ht, hx, hdepth, -⟩ | ⟨name, hname, r, -, ht, -, -⟩
  · rw [← Text.balanced_trim, ht] at balanced
    have closed := balanced.of_brackets hdepth
    have hne : x ≠ [] := by
      rintro rfl
      cases hx
    rw [stripParens, ht, enclosed?_append_eq_none closed.closed hne (by decide)]
    exact ite_self _
  · refine stripParens_of_noParen ?_
    have hne := ne_nil_of_mem_arrayNames hname
    obtain ⟨c, s, rfl⟩ := List.exists_cons_of_ne_nil hne
    rw [ht]
    intro h
    obtain rfl : c = '(' := by simpa using h
    exact absurd (isGenericNameChar_of_mem_arrayNames hname '(' List.mem_cons_self) (by decide)

include balanced array in
theorem isFunctionType_brackets : isFunctionType (t.trim ++ "[]".toList) = isFunctionType t := by
  rw [isFunctionType_eq t, stripParens_of_array balanced array]
  exact isFunctionType_append (w := [']']) (Text.balanced_trim.2 balanced).closed
    (fun c hc => Text.isBlank_ends_trim.1 c hc) (by decide)

include array in
theorem unionWidth_brackets (alone : unionWidth t = 1) :
    unionWidth (t.trim ++ "[]".toList) = 1 := by
  rcases arrayElement?_eq_some array with ⟨x, ht, -⟩ | ⟨name, hname, r, inner, ht, hr, -⟩
  · rw [ht, List.append_assoc, unionWidth_append (by decide) (by decide), ← ht, unionWidth,
      unionMembers_trim, ← unionWidth, alone]
  · have undivided : t.trim.Undivided (· == '|') := by
      rw [ht]
      exact undivided_of_arrayNames (beq_eq_false_of rfl) (beq_eq_false_of (by decide)) hname hr
    exact Nat.max_eq_left (length_unionMembers_le (undivided.append (by decide)))

end Arrays

end TypeText

namespace TypeTable

open TypeText

/-- The type that is left when elements are taken out of arrays as long as there are any. -/
def innermost (m : TypeTable) (t : Text) : Text :=
  match _h : m.shape t with
  | .array element => innermost m element
  | _ => t
termination_by solid t
decreasing_by
  exact Nat.lt_of_lt_of_le (solid_arrayElement?_lt (arrayElement?_of_shape _h)) (solid_proper_le t)

section Innermost

variable {m : TypeTable} {t : Text}

theorem innermost_of_array {element : Text} (h : m.shape t = .array element) :
    m.innermost t = m.innermost element := by
  rw [innermost]
  split <;> simp_all

theorem innermost_eq_self (h : ∀ e, m.shape t ≠ .array e) : m.innermost t = t := by
  rw [innermost]
  split <;> simp_all

/-- What holds of types that are no arrays, and of each array whose element it holds of. -/
theorem elementInduction {P : Text → Prop}
    (array : ∀ t element, m.shape t = .array element → P element → P t)
    (other : ∀ t, (∀ e, m.shape t ≠ .array e) → P t) (t : Text) : P t := by
  induction hn : solid t using Nat.strongRecOn generalizing t with
  | ind n ih =>
    by_cases h : ∃ e, m.shape t = .array e
    · obtain ⟨e, he⟩ := h
      have shorter := Nat.lt_of_lt_of_le (solid_arrayElement?_lt (arrayElement?_of_shape he))
        (solid_proper_le t)
      exact array t e he (ih _ (hn ▸ shorter) e rfl)
    · exact other t (not_exists.1 h)

theorem shape_innermost (t e : Text) : m.shape (m.innermost t) ≠ .array e := by
  induction t using elementInduction (m := m) with
  | array t element hs ih => rwa [innermost_of_array hs]
  | other t hs =>
    rw [innermost_eq_self hs]
    exact hs e

theorem balanced_innermost (h : t.Balanced) : (m.innermost t).Balanced := by
  induction t using elementInduction (m := m) with
  | array t element hs ih =>
    rw [innermost_of_array hs]
    exact ih (balanced_arrayElement? (balanced_proper h) (arrayElement?_of_shape hs))
  | other t hs => rwa [innermost_eq_self hs]

theorem nullableIf_brackets (x : Text) (b : Bool) :
    nullableIf b (x ++ "[]".toList) = x ++ "[]".toList ++ Written.mark b := by
  cases b with
  | false => exact (List.append_nil _).symm
  | true =>
    have last : (x ++ "[]".toList).getLast? = some ']' := by
      rw [List.getLast?_append_of_ne_nil _ (by decide)]
      rfl
    have noVoid : (x ++ "[]".toList == "void".toList) = false := by
      rw [beq_eq_false_iff_ne]
      intro h
      rw [h] at last
      exact absurd last (by decide)
    have noMark : Text.endsWith ['?'] (x ++ "[]".toList) = false := by
      rw [Bool.eq_false_iff]
      intro h
      obtain ⟨r, hr⟩ := Option.isSome_iff_exists.1 h
      rw [Text.stripEnd?_eq_some_iff.1 hr, List.getLast?_concat] at last
      exact absurd last (by decide)
    rw [nullableIf, if_pos rfl, nullable, noVoid, noMark]
    rfl

variable (m t)

/-- The target of an array is that of its innermost element, with brackets and question marks after
it. -/
theorem exists_target_innermost : ∃ w, m.target t = m.target (m.innermost t) ++ w ∧
    (∀ c ∈ w, c ∈ ['[', ']', '?']) ∧ ((m.innermost t = t ∧ w = []) ∨ ∃ v, w = '[' :: v) := by
  induction t using elementInduction (m := m) with
  | array t element hs ih =>
    obtain ⟨w, target, marks, form⟩ := ih
    have ends : ∀ c ∈ Written.mark (proper t).2, c ∈ ['[', ']', '?'] := by
      cases (proper t).2 <;> decide
    -- Brackets are added to what the element ends with, and then a mark if the array is nullable.
    refine ⟨w ++ "[]".toList ++ Written.mark (proper t).2, ?_, ?_, .inr ?_⟩
    · rw [target_eq, hs, innermost_of_array hs]
      dsimp only
      rw [nullableIf_brackets, target]
      simp
    · intro c hc
      rcases List.mem_append.1 hc with hc | hc
      · rcases List.mem_append.1 hc with hc | hc
        · exact marks c hc
        · exact (by decide : ∀ c ∈ "[]".toList, c ∈ ['[', ']', '?']) c hc
      · exact ends c hc
    · rcases form with ⟨-, rfl⟩ | ⟨v, rfl⟩
      · exact ⟨_, rfl⟩
      · exact ⟨_, rfl⟩
  | other t hs => exact ⟨[], by rw [innermost_eq_self hs, List.append_nil], by simp,
      .inl ⟨innermost_eq_self hs, rfl⟩⟩

end Innermost

theorem shape_of_function {t : Text} (h : t.Balanced) (few : (unionMembers t).length ≤ 1)
    (function : isBareFunction t.trim) :
    standard.shape t = .reference ∨ ∃ e, standard.shape t = .array e ∧ e.Balanced ∧
      (unionMembers e).length ≤ 1 ∧ isBareFunction e.trim := by
  have few' : (unionMembers (normalize t)).length ≤ 1 := by
    rwa [unionMembers_normalize, List.length_map]
  have once := isBareFunction_normalize few function
  have twice := isBareFunction_trim (isBareFunction_normalize few' (isBareFunction_trim once))
  have same : proper t = (normalize (normalize t), false) := splitNullish_of_few few'
  have balanced := balanced_proper h
  rw [same] at balanced
  obtain ⟨c, hc, sign⟩ := exists_not_plain once
  have entry : standard.entry? t = none := by
    rw [entry?_eq, lookup?_eq_none sign hc, same]
    rfl
  have members : (unionMembers (normalize (normalize t))).length ≤ 1 := by
    rwa [unionMembers_normalize, List.length_map]
  rw [shape, entry, same]
  generalize normalize (normalize t) = u at *
  dsimp only
  cases he : arrayElement? u with
  | none =>
    rw [genericArguments?_of_function twice]
    exact .inl rfl
  | some e =>
    obtain ⟨x, hx, rfl, inner⟩ := isBareFunction_element twice he
    refine .inr ⟨_, rfl, balanced_arrayElement? balanced he, ?_, by rwa [Text.trim_trim]⟩
    have shorter := length_unionMembers_le_append (w := "[]".toList) (by decide) (by decide) x
    rw [← hx, unionMembers_trim] at shorter
    rw [unionMembers_trim]
    exact Nat.le_trans shorter members

theorem innermost_of_function {t : Text} (h : t.Balanced) (few : (unionMembers t).length ≤ 1)
    (function : isBareFunction t.trim) :
    standard.shape (standard.innermost t) = .reference := by
  induction t using elementInduction (m := standard) with
  | array t element hs ih =>
    rw [innermost_of_array hs]
    rcases shape_of_function h few function with hr | ⟨e, he, balanced, few, function⟩
    · rw [hs] at hr
      cases hr
    · rw [hs] at he
      cases he
      exact ih balanced few function
  | other t hs =>
    rw [innermost_eq_self hs]
    rcases shape_of_function h few function with hr | ⟨e, he, -⟩
    · exact hr
    · exact absurd he (hs e)

/-- The target of an array is no union, and it is a function type just as the array itself is one,
exactly where that is so for its innermost element with brackets after it. It always is unless this
element is kept as it is written, without the parentheses that may have stood around it. -/
theorem target_of_arrays {t : Text} (balanced : t.Balanced) (alone : unionWidth t = 1)
    (array : (arrayElement? t).isSome) :
    (unionWidth (standard.target t) = 1 ↔
      (standard.shape (standard.innermost t) = .reference →
        unionWidth ((standard.innermost t).trim ++ "[]".toList) = 1)) ∧
    (isFunctionType (standard.target t) = isFunctionType t ↔
      (standard.shape (standard.innermost t) = .reference →
        isFunctionType ((standard.innermost t).trim ++ "[]".toList) = isFunctionType t)) := by
  obtain ⟨element, array⟩ := Option.isSome_iff_exists.1 array
  obtain ⟨w, mapped, marks, form⟩ := exists_target_innermost standard t
  by_cases hr : standard.shape (standard.innermost t) = .reference
  · have kept : standard.target (standard.innermost t) = (standard.innermost t).trim := by
      rw [target_eq, hr]
    rw [mapped, kept]
    simp only [hr, forall_const]
    rcases form with ⟨same, rfl⟩ | ⟨v, rfl⟩
    · -- The array is one only before it is normalized, and then is no array at all.
      have width : unionWidth t.trim = 1 := by
        rw [unionWidth, unionMembers_trim, ← unionWidth, alone]
      have function : isFunctionType t.trim = isFunctionType t := by
        rw [isFunctionType_eq, isFunctionType_eq, stripParens, stripParens, Text.trim_trim]
      rw [same, List.append_nil, width, function, unionWidth_brackets array alone,
        isFunctionType_brackets balanced array]
      exact ⟨Iff.rfl, Iff.rfl⟩
    · have noBar : ∀ c ∈ '[' :: v, (c == '|') = false := fun c hc =>
        (by decide : ∀ c ∈ ['[', ']', '?'], (c == '|') = false) c (marks c hc)
      have closed : (standard.innermost t).trim.Balanced :=
        Text.balanced_trim.2 (balanced_innermost balanced)
      have starts : ∀ c ∈ (standard.innermost t).trim.head?, Text.isBlank c = false :=
        fun c hc => Text.isBlank_ends_trim.1 c hc
      have brackets : isFunctionType ((standard.innermost t).trim ++ "[]".toList) =
          isBareFunction (standard.innermost t).trim :=
        isFunctionType_append (w := [']']) closed.closed starts (by decide)
      rw [unionWidth_append rfl noBar, brackets,
        isFunctionType_append closed.closed starts (List.forall_mem_cons.1 marks).2]
      exact ⟨Iff.rfl, Iff.rfl⟩
  · have named : Named (standard.target t) := by
      rw [mapped]
      refine (named_target (shape_innermost t) hr).append marks ?_
      rcases form with ⟨-, rfl⟩ | ⟨v, rfl⟩ <;> simp
    have noFunction : isFunctionType t = false := by
      rw [Bool.eq_false_iff]
      intro h
      rw [isFunctionType_eq, stripParens_of_array balanced array] at h
      have few : (unionMembers t).length ≤ 1 := alone ▸ Nat.le_max_right _ _
      exact hr (innermost_of_function balanced few h)
    simp only [hr, false_imp_iff, iff_true]
    exact ⟨named.unionWidth_eq, by rw [named.isFunctionType_eq, noFunction]⟩

/-- Two arrays around a generic type that has a function type among its arguments. -/
theorem target_of_arrays_generic :
    let t : Text := "Array<Map<string, () => void>[] | null>".toList
    (t.Balanced ∧ unionWidth t = 1 ∧ (arrayElement? t).isSome) ∧
    unionWidth (standard.target t) = 1 ∧
    isFunctionType (standard.target t) = isFunctionType t := by
  intro t
  have facts : t.Balanced ∧ unionWidth t = 1 ∧ (arrayElement? t).isSome := by decide +kernel
  have generic : standard.shape (standard.innermost t) ≠ .reference := by decide +kernel
  obtain ⟨width, function⟩ := target_of_arrays facts.1 facts.2.1 facts.2.2
  exact ⟨facts, width.2 fun h => absurd h generic, function.2 fun h => absurd h generic⟩

/-- An array whose element is a union in parentheses becomes a union. -/
theorem not_target_of_arrays : ¬∀ t : Text, t.Balanced → unionWidth t = 1 →
    (arrayElement? t).isSome → unionWidth (standard.target t) = 1 ∧
      isFunctionType (standard.target t) = isFunctionType t := by
  intro h
  have mapped : standard.target "(A | B)[]".toList = "A | B[]".toList := by decide +kernel
  have alone := (h "(A | B)[]".toList (by decide +kernel) (by decide +kernel)
    (by decide +kernel)).1
  rw [mapped] at alone
  exact absurd alone (by decide +kernel)

end TypeTable

end WebSurface
