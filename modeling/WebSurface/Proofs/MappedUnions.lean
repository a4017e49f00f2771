import WebSurface.Proofs.Enclosure
import WebSurface.Proofs.Targets
set_option autoImplicit false

/-!
The targets of unions.

A union has no shape of its own: what it is mapped to is decided by the bars at its top level,
which neither an array in angle brackets nor a generic type has. Such a union can only be taken
apart by brackets at the end of its last member (`TypeText.arrayElement?_union_concat`), and then it
is taken apart as a whole (`TypeTable.target_of_union`).
-/

namespace WebSurface

namespace TypeText

theorem dropLast_sublist_dropLast {α : Type} {l m : List α} (h : l.Sublist m) :
    l.dropLast.Sublist m.dropLast := by
  have tails := h.reverse.tail
  rwa [List.tail_reverse, List.tail_reverse, List.reverse_sublist] at tails

section Members

variable {t : Text}

theorem ne_nil_of_mem_unionMembers {m : Text} (h : m ∈ unionMembers t) : m ≠ [] := by
  have alone := unionMembers_of_mem h
  rintro rfl
  cases alone

theorem mem_of_mem_properMembers {m : Text} (h : m ∈ properMembers t) : m ∈ unionMembers t :=
  (List.mem_filter.1 h).1

theorem closed_of_mem_dropLast_properMembers {m : Text} (h : m ∈ (properMembers t).dropLast) :
    (Nesting.outside.run m).topLevel := by
  have all := (dropLast_sublist_dropLast (List.filter_sublist (p := (!isNullish ·)))).subset h
  rw [unionMembers_eq] at all
  exact topLevel_of_mem_dropLast_parts (opensNothing_of_beq (by decide)) all

theorem unionMembers_union_properMembers :
    unionMembers (union (properMembers t)) = properMembers t := by
  rw [unionMembers_eq, union]
  refine parts_join_whole (opensNothing_of_beq (by decide)) (v := [' '])
    (w := [' ']) rfl rfl (d := '|') rfl (fun _ => closed_of_mem_dropLast_properMembers)
    fun m hm => ?_
  rw [← unionMembers_eq, unionMembers_of_mem (mem_of_mem_properMembers hm)]

theorem splitNullish_of_two (h : 2 ≤ (properMembers t).length) :
    splitNullish t = (union (properMembers (normalize t)), admitsNullish t) := by
  rw [properMembers_normalize]
  cases hadmits : admitsNullish t with
  | true => exact splitNullish_of_admitsNullish hadmits
  | false =>
    obtain ⟨m, hm⟩ := List.exists_mem_of_length_pos (Nat.lt_of_lt_of_le Nat.zero_lt_two h)
    obtain ⟨hm, hproper⟩ := List.mem_filter.1 hm
    have all := properMembers_eq hadmits ⟨m, hm, (Bool.not_eq_true' _).mp hproper⟩
    rw [all] at h ⊢
    rw [splitNullish_of_not_admitsNullish hadmits, normalize_of_two h]

theorem two_le_unionMembers (h : 2 ≤ (properMembers t).length) : 2 ≤ (unionMembers t).length :=
  Nat.le_trans h (List.length_filter_le _ _)

theorem splitNullish_normalize (h : 2 ≤ (properMembers t).length) :
    splitNullish (normalize t) = splitNullish t := by
  rw [splitNullish, normalize_normalize (two_le_unionMembers h), ← splitNullish]

end Members

section Bars

variable {t : Text}

theorem divided_of_two (h : 2 ≤ (unionMembers t).length) : ¬t.trim.Undivided (· == '|') := by
  intro undivided
  have few := length_unionMembers_le undivided
  rw [unionMembers_trim] at few
  omega

theorem genericArguments?_of_two (h : 2 ≤ (unionMembers t).length) :
    genericArguments? t = none := by
  rw [Option.eq_none_iff_forall_ne_some]
  intro _ hsome
  exact divided_of_two h (undivided_of_genericArguments? (beq_eq_false_of rfl)
    (beq_eq_false_of (by decide)) (beq_eq_false_of rfl) (Option.isSome_iff_exists.2 ⟨_, hsome⟩))

end Bars

section Last

variable {init : List Text} (closed : ∀ a ∈ init, (Nesting.outside.run a).topLevel)

include closed in
theorem topLevel_union : (Nesting.outside.run (union init)).topLevel := by
  induction init with
  | nil => rfl
  | cons a as ih =>
    obtain ⟨ha, has⟩ := List.forall_mem_cons.1 closed
    cases as with
    | nil => exact ha
    | cons b bs =>
      have bar : ((Nesting.outside.run a).run " | ".toList) = .outside :=
        Nesting.run_plain (by decide) ha (by decide)
      rw [union, Text.join, Nesting.run_append, Nesting.run_append, bar]
      exact ih has

include closed in
/-- The last member is read as if it stood alone. -/
theorem run_union_concat (hne : init ≠ []) (m : Text) :
    Nesting.outside.run (union (init ++ [m])) = Nesting.outside.run m := by
  have bar : ((Nesting.outside.run (union init)).run " | ".toList) = .outside :=
    Nesting.run_plain (by decide) (topLevel_union closed) (by decide)
  rw [union_concat init hne, Nesting.run_append, Nesting.run_append, bar]

include closed in
theorem divided_union_concat (hne : init ≠ []) (m : Text) :
    ¬(union (init ++ [m])).Undivided (· == '|') := by
  intro undivided
  have cut : union (init ++ [m]) = (union init ++ [' ']) ++ '|' :: ' ' :: m := by
    rw [union_concat init hne]
    simp
  rw [cut] at undivided
  refine Nesting.breakAt_append_ne_nil (' ' :: m) ?_ rfl undivided
  rw [Nesting.run_append]
  exact Nesting.topLevel_run_plain (by decide) (topLevel_union closed)

theorem exists_of_union_concat (hne : init ≠ []) {m x : Text} (hm : m ≠ [])
    (h : union (init ++ [m]) = x ++ "[]".toList) :
    ∃ l, m = l ++ "[]".toList ∧ x = union (init ++ [l]) := by
  rw [union_concat init hne] at h
  rcases List.append_eq_append_iff.1 h with ⟨y, hx, hy⟩ | ⟨y, hx, hy⟩
  · exact ⟨y, hy, by rw [union_concat init hne, hx]⟩
  · -- What the brackets have more than the last member would end in the space before it.
    have ends := congrArg List.getLast? hx
    cases y with
    | nil =>
      exact ⟨[], hy.symm, by rw [union_concat init hne, List.append_nil, hx, List.append_nil]⟩
    | cons c y =>
      rw [List.getLast?_append_of_ne_nil _ (by decide),
        List.getLast?_append_of_ne_nil _ (List.cons_ne_nil c y)] at ends
      simp only [String.reduceToList, List.cons_append, List.cons.injEq] at hy
      obtain ⟨rfl, hy⟩ := hy
      cases y with
      | nil => cases ends
      | cons d y =>
        simp only [List.cons_append, List.cons.injEq, List.nil_eq, List.append_eq_nil_iff] at hy
        exact absurd hy.2.2 hm

include closed in
/-- A union is an array exactly by the brackets that close its last member. -/
theorem arrayElement?_union_concat (hne : init ≠ []) {m : Text} (hm : m ≠ [])
    (trimmed : (union (init ++ [m])).trim = union (init ++ [m])) (element : Text) :
    arrayElement? (union (init ++ [m])) = some element ↔
      ∃ l, m = l ++ "[]".toList ∧ depthAfter l = 0 ∧ element = (union (init ++ [l])).trim := by
  have whole (l : Text) : stripParens (union (init ++ [l])) = (union (init ++ [l])).trim :=
    stripParens_of_divided (beq_eq_false_of rfl) fun h =>
      divided_union_concat closed hne l (.of_trim (beq_eq_false_of rfl) h)
  have depth (l : Text) : depthAfter (union (init ++ [l])) = depthAfter l := by
    rw [depthAfter, run_union_concat closed hne, depthAfter]
  constructor
  · intro h
    rcases arrayElement?_eq_some h with ⟨x, ht, -, hdepth, rfl⟩ | ⟨name, hname, r, inner, ht, hr, -⟩
    · rw [trimmed] at ht
      obtain ⟨l, rfl, rfl⟩ := exists_of_union_concat hne hm ht
      exact ⟨l, rfl, by rwa [depth] at hdepth, whole l⟩
    · refine absurd ?_ (divided_union_concat closed hne m)
      rw [← trimmed, ht]
      exact undivided_of_arrayNames (beq_eq_false_of rfl) (beq_eq_false_of (by decide)) hname hr
  · rintro ⟨l, rfl, hdepth, rfl⟩
    rw [← whole l]
    refine arrayElement?_brackets ?_ ?_ (by rwa [depth])
    · rw [trimmed, union_concat init hne, union_concat init hne]
      simp
    · have bar : Text.isBlank '|' = false := rfl
      rw [union_concat init hne]
      simp [bar]

end Last

end TypeText

namespace TypeTable

open TypeText

/-- A union that the table does not know is kept as it is written, unless its last member ends with
brackets outside all others: then the whole union before them is taken for the element. -/
theorem target_of_union {m : TypeTable} {t : Text} (two : 2 ≤ (properMembers t).length)
    (unlisted : m.lookup? (normalize t) = none) (bare : m.lookup? (splitNullish t).1 = none) :
    ((∀ l, (properMembers (normalize t)).getLast? = some (l ++ "[]".toList) → depthAfter l ≠ 0) →
      m.target t = t.trim) ∧
    ∀ l, (properMembers (normalize t)).getLast? = some (l ++ "[]".toList) → depthAfter l = 0 →
      m.target t = nullableIf (admitsNullish t)
        (m.target (union ((properMembers (normalize t)).dropLast ++ [l])) ++ "[]".toList) := by
  have split : proper t = (union (properMembers (normalize t)), admitsNullish t) := by
    rw [proper, splitNullish_normalize two, splitNullish_of_two two]
  have entry : m.entry? t = none := by
    rw [entry?_eq, unlisted, proper, splitNullish_normalize two, bare, Option.map_none,
      ite_self, Option.none_or]
  have many : 2 ≤ (properMembers (normalize t)).length := by
    rwa [properMembers_normalize, List.length_map]
  have members : unionMembers (union (properMembers (normalize t))) = properMembers (normalize t) :=
    unionMembers_union_properMembers
  have closed : ∀ a ∈ (properMembers (normalize t)).dropLast, (Nesting.outside.run a).topLevel :=
    fun _ => closed_of_mem_dropLast_properMembers
  have solid : ∀ a ∈ properMembers (normalize t), a.trim = a ∧ a ≠ [] := fun a ha => by
    have ha := mem_of_mem_properMembers ha
    exact ⟨trim_of_mem_unionMembers ha, ne_nil_of_mem_unionMembers ha⟩
  -- From here on the members are any list with these facts, told by its last member.
  generalize properMembers (normalize t) = ms at *
  obtain ⟨init, last, rfl⟩ : ∃ init last, ms = init ++ [last] := by
    rcases List.eq_nil_or_concat ms with rfl | ⟨init, last, rfl⟩
    · cases many
    · exact ⟨init, last, List.concat_eq_append⟩
  have hne : init ≠ [] := by
    rintro rfl
    exact absurd many (Nat.not_succ_le_self 1)
  rw [List.dropLast_concat] at closed ⊢
  have element := arrayElement?_union_concat closed hne (solid last (by simp)).2
    (Text.trim_join _ solid).1
  have generic : genericArguments? (union (init ++ [last])) = none :=
    genericArguments?_of_two (by rwa [members])
  rw [List.getLast?_concat]
  constructor
  · intro whole
    have none : arrayElement? (union (init ++ [last])) = none := by
      rw [Option.eq_none_iff_forall_ne_some]
      intro e he
      obtain ⟨l, rfl, hdepth, -⟩ := (element e).1 he
      exact whole l rfl hdepth
    exact target_of_reference entry (by rw [split, none]) (by rw [split, generic])
  · intro l hl hdepth
    have some := (element _).2 ⟨l, Option.some.inj hl, hdepth, rfl⟩
    rw [target_of_array entry (by rw [split, some]), split, target_trim]

/-- An array, a function type and `null`: nothing in such a union is mapped. -/
theorem target_of_union_mixed :
    let t : Text := " URL[] |(url: URL) => void| null".toList
    (2 ≤ (properMembers t).length ∧ standard.lookup? (normalize t) = none ∧
      standard.lookup? (splitNullish t).1 = none) ∧ standard.target t = t.trim := by
  intro t
  have facts : 2 ≤ (properMembers t).length ∧ standard.lookup? (normalize t) = none ∧
      standard.lookup? (splitNullish t).1 = none := by decide +kernel
  have last : (properMembers (normalize t)).getLast? = some "(url: URL) => void".toList := by
    decide +kernel
  refine ⟨facts, (target_of_union facts.1 facts.2.1 facts.2.2).1 fun l hl => ?_⟩
  have ends := congrArg List.getLast? (Option.some.inj (last.symm.trans hl))
  rw [List.getLast?_append_of_ne_nil l (by decide)] at ends
  exact absurd ends (by decide)

/-- Where the last member is an array, the union is mapped as if it stood in parentheses. -/
theorem not_target_eq_trim : ¬∀ t, 2 ≤ (properMembers t).length →
    standard.lookup? (normalize t) = none → standard.lookup? (splitNullish t).1 = none →
      standard.target t = t.trim := by
  intro h
  have mapped : standard.target "string | URL[]".toList = "Uri[]".toList := by decide +kernel
  have kept := h "string | URL[]".toList (by decide +kernel) (by decide +kernel) (by decide +kernel)
  rw [mapped] at kept
  cases kept

end TypeTable

end WebSurface
