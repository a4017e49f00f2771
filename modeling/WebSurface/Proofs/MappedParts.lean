import WebSurface.Proofs.Enclosure
import WebSurface.Proofs.Targets
set_option autoImplicit false

namespace WebSurface

namespace Nesting

theorem eq_of_afterEquals {s : Nesting} {c : Char} {n : Nat} (h : s.step c = ⟨n, .code true⟩) :
    c = '=' := by
  obtain ⟨depth, mode⟩ := s
  cases mode with
  | code b =>
    simp only [step] at h
    split at h
    · cases h
    · simpa using (Nesting.mk.inj h).2
  | literal q escaped =>
    cases escaped with
    | true => cases h
    | false =>
      simp only [step] at h
      split at h
      · cases h
      · split at h <;> cases h

theorem run_eq_outside {t : Text} (h : (outside.run t).topLevel)
    (noEquals : t.getLast? ≠ some '=') : outside.run t = outside := by
  obtain ⟨b, hb⟩ := topLevel_iff.1 h
  cases b with
  | false => exact hb
  | true =>
    rcases List.eq_nil_or_concat t with rfl | ⟨x, c, rfl⟩
    · rfl
    · rw [List.concat_eq_append] at hb noEquals
      rw [run_append] at hb
      exact absurd (by rw [List.getLast?_concat, eq_of_afterEquals hb]) noEquals

theorem closes_of_noEquals {t : Text} (h : (outside.run t).topLevel)
    (noEquals : t.getLast? ≠ some '=') {c : Char} (hc : isCloser c) :
    (outside.run t).closes c := by
  rw [run_eq_outside h noEquals]
  simp [closes, outside, hc]

end Nesting

namespace Text

theorem trim_of_collapse {t : Text} (h : t.collapse = t) : t.trim = t := by rw [← h, trim_collapse]

theorem dense_of_collapse {t : Text} (h : t.collapse = t) : t.dense = t := by
  rw [← collapse_of_trimmed (trim_of_collapse h), h]

theorem startsBlank_of_trim {t : Text} (h : t.trim = t) : startsBlank t = false := by
  cases t with
  | nil => rfl
  | cons c r => exact isBlank_ends_trim.1 c (by rw [h]; rfl)

theorem collapse_join {d : Char} (hd : isBlank d = false) {ts : List Text}
    (h : ∀ t ∈ ts, t.collapse = t ∧ t ≠ []) :
    (join [d, ' '] ts).collapse = join [d, ' '] ts := by
  have trimmed (us : List Text) (hus : ∀ t ∈ us, t.collapse = t ∧ t ≠ []) :
      (join [d, ' '] us).trim = join [d, ' '] us :=
    (trim_join _ fun t ht => ⟨trim_of_collapse (hus t ht).1, (hus t ht).2⟩).1
  rw [collapse_of_trimmed (trimmed ts h)]
  fun_induction join [d, ' '] ts with
  | case1 => rfl
  | case2 t => exact dense_of_collapse (h t List.mem_cons_self).1
  | case3 t u us ih =>
    obtain ⟨ht, hus⟩ := List.forall_mem_cons.1 h
    have rest := startsBlank_of_trim (trimmed (u :: us) hus)
    have spaced : t ++ [d, ' '] ++ join [d, ' '] (u :: us) =
        t ++ d :: ' ' :: join [d, ' '] (u :: us) := by simp
    rw [spaced, dense_append_cons hd, dense_of_collapse ht.1, dense_blank rfl rest, ih hus]

end Text

namespace TypeText

@[mk_iff]
structure IsArgument (a : Text) : Prop where
  ne_nil : a ≠ []
  collapsed : a.collapse = a
  balanced : a.Balanced
  noComma : a.Undivided (· == ',')
  noEquals : a.getLast? ≠ some '='

instance (a : Text) : Decidable (IsArgument a) := decidable_of_iff' _ (isArgument_iff a)

/-- The name of a generic type, and not one that makes an array of its argument. -/
@[mk_iff]
structure IsGenericName (name : Text) : Prop where
  ne_nil : name ≠ []
  named : ∀ c ∈ name, isGenericNameChar c
  notArray : name ∉ arrayNames

instance (name : Text) : Decidable (IsGenericName name) :=
  decidable_of_iff' _ (isGenericName_iff name)

def applied (name : Text) (as : List Text) : Text :=
  name ++ '<' :: (Text.join ", ".toList as ++ ['>'])

theorem applied_eq (name : Text) (as : List Text) : applied name as =
    name ++ "<".toList ++ Text.join ", ".toList as ++ ">".toList := by
  simp [applied]

theorem isBlank_of_isGenericNameChar {c : Char} (h : isGenericNameChar c) :
    Text.isBlank c = false := by
  rcases Bool.or_eq_true_iff.1 h with h | h
  · refine Text.isBlank_of_isNameChar ?_
    rw [Text.isNameChar, Bool.or_eq_true, Bool.or_eq_true] at *
    exact h.imp_left (Or.imp_left Text.isAlphanumeric_of_isAlphanum)
  · obtain rfl := beq_iff_eq.1 h
    rfl

section Arguments

variable {as : List Text} (has : ∀ a ∈ as, IsArgument a)

include has

theorem balanced_join : (Text.join ", ".toList as).Balanced :=
  .join (by decide) fun a ha => (has a ha).balanced

theorem noEquals_join : (Text.join ", ".toList as).getLast? ≠ some '=' := by
  induction as with
  | nil => simp [Text.join]
  | cons a as ih =>
    obtain ⟨ha, has⟩ := List.forall_mem_cons.1 has
    cases as with
    | nil => exact ha.noEquals
    | cons b bs =>
      have trimmed : ∀ c ∈ b :: bs, c.trim = c ∧ c ≠ [] := fun c hc =>
        ⟨Text.trim_of_collapse (has c hc).collapsed, (has c hc).ne_nil⟩
      have rest := (Text.trim_join ", ".toList trimmed).2 (List.cons_ne_nil b bs)
      rw [Text.join, List.getLast?_append_of_ne_nil _ rest]
      exact ih has

theorem closes_join : (Nesting.outside.run (Text.join ", ".toList as)).closes '>' :=
  Nesting.closes_of_noEquals (balanced_join has).closed (noEquals_join has) rfl

theorem enclosed?_join : enclosed? ('<' :: (Text.join ", ".toList as ++ ['>'])) =
    some (Text.join ", ".toList as) :=
  enclosed?_eq rfl (balanced_join has) (closes_join has)

theorem partsTopLevel_join : partsTopLevel ',' (Text.join ", ".toList as) = as := by
  rw [partsTopLevel_eq]
  exact parts_join_whole (opensNothing_of_beq (by decide)) (v := [])
    (w := [' ']) rfl rfl (d := ',') rfl
    (fun a ha => (has a (List.dropLast_subset as ha)).balanced.closed)
    fun a ha => (has a ha).noComma.parts_eq (Text.trim_of_collapse (has a ha).collapsed)
      (has a ha).ne_nil

end Arguments

section Names

variable {name : Text} (named : ∀ c ∈ name, isGenericNameChar c)

include named

theorem isPlain_name : ∀ c ∈ name, isPlain c :=
  fun c hc => isPlain_of_isGenericNameChar (named c hc)

theorem isBlank_name : ∀ c ∈ name, Text.isBlank c = false :=
  fun c hc => isBlank_of_isGenericNameChar (named c hc)

theorem trim_name : name.trim = name :=
  Text.trim_eq_self (fun c hc => isBlank_name named c (List.mem_of_mem_head? hc))
    fun c hc => isBlank_name named c (List.mem_of_mem_getLast? hc)

theorem takeWhile_name (r : Text) : (name ++ '<' :: r).takeWhile (· != '<') = name ∧
    (name ++ '<' :: r).dropWhile (· != '<') = '<' :: r := by
  have other : ∀ c ∈ name, (c != '<') = true := fun c hc => by
    rw [bne_iff_ne]
    rintro rfl
    exact absurd (named _ hc) (by decide)
  rw [List.takeWhile_append_of_pos other, List.dropWhile_append_of_pos other]
  simp

end Names

section Applied

variable {name : Text} {as : List Text} (hne : name ≠ []) (named : ∀ c ∈ name, isGenericNameChar c)
  (has : ∀ a ∈ as, IsArgument a)

theorem getLast?_applied : (applied name as).getLast? = some '>' := by
  rw [applied, List.getLast?_append_of_ne_nil _ (List.cons_ne_nil _ _), ← List.cons_append,
    List.getLast?_concat]

include hne named in
theorem trim_applied : (applied name as).trim = applied name as := by
  have trimmed := Text.trim_between (trim_name named) (b := ['>']) rfl hne (List.cons_ne_nil _ _)
    ('<' :: Text.join ", ".toList as)
  simpa [applied] using trimmed

include hne named has in
theorem collapse_applied : (applied name as).collapse = applied name as := by
  have joined : (Text.join ", ".toList as).collapse = Text.join ", ".toList as :=
    Text.collapse_join (by decide) fun a ha => ⟨(has a ha).collapsed, (has a ha).ne_nil⟩
  rw [Text.collapse_of_trimmed (trim_applied hne named), applied,
    Text.dense_append_cons (by decide), Text.dense_of_solid (isBlank_name named),
    Text.dense_append_cons (by decide), Text.dense_of_collapse joined]
  rfl

include named in
/-- A generic type is not cut if its arguments close no bracket that they do not open. -/
theorem undivided_applied (opened : Nesting.outside.opened (Text.join ", ".toList as)) {d : Char}
    (hd : isOpener d = false) (hd' : isGenericNameChar d = false) :
    (applied name as).Undivided (· == d) := by
  refine .plain_append (fun c hc => ⟨isPlain_name named c hc, ?_⟩) (.enclosed rfl ?_ opened)
  · exact beq_eq_false_of hd' c (named c hc)
  · exact beq_eq_false_of hd '<' rfl

include named has in
theorem balanced_applied : (applied name as).Balanced :=
  .plain_append (isPlain_name named) (.enclosed rfl (balanced_join has) (closes_join has))

include hne named in
theorem arrayElement?_applied_eq_none (notArray : name ∉ arrayNames) :
    arrayElement? (applied name as) = none := by
  rw [Option.eq_none_iff_forall_ne_some]
  intro element h
  rcases arrayElement?_eq_some h with ⟨x, ht, -⟩ | ⟨other, hother, r, inner, ht, -, -⟩
  · rw [trim_applied hne named] at ht
    have ends := congrArg List.getLast? ht
    rw [getLast?_applied, List.getLast?_append_of_ne_nil _ (by decide)] at ends
    exact absurd ends (by decide)
  · rw [trim_applied hne named, applied] at ht
    have names := congrArg (List.takeWhile (· != '<')) ht
    rw [(takeWhile_name named _).1,
      (takeWhile_name (isGenericNameChar_of_mem_arrayNames hother) r).1] at names
    exact notArray (names ▸ hother)

theorem arrayElement?_applied (h : name ∈ arrayNames) {a : Text} (ha : IsArgument a) :
    arrayElement? (applied name [a]) = some a := by
  have trimmed : (applied name [a]).trim = applied name [a] :=
    trim_applied (ne_nil_of_mem_arrayNames h) (isGenericNameChar_of_mem_arrayNames h)
  have inner : enclosed? ('<' :: (Text.join ", ".toList [a] ++ ['>'])) =
      some (Text.join ", ".toList [a]) :=
    enclosed?_join (List.forall_mem_singleton.2 ha)
  have element := arrayElement?_arrayNames h trimmed inner
    (by rw [trimmed, getLast?_applied]; decide)
  rwa [Text.join, Text.trim_of_collapse ha.collapsed] at element

include hne named has in
theorem genericArguments?_applied (some : as ≠ []) :
    genericArguments? (applied name as) = Option.some (name, as) := by
  obtain ⟨before, after⟩ := takeWhile_name named (Text.join ", ".toList as ++ ['>'])
  have all : name.all isGenericNameChar := List.all_eq_true.2 named
  simp only [genericArguments?, trim_applied hne named]
  rw [applied, before, after, enclosed?_join has, trim_name named, all, Option.map_some,
    partsTopLevel_join has, List.isEmpty_eq_false_iff.2 hne]
  cases as with
  | nil => exact absurd rfl some
  | cons a as => rfl

end Applied

/-- An argument that brackets can be written after: neither a union nor in parentheses. -/
@[mk_iff]
structure IsOperand (a : Text) : Prop extends IsArgument a where
  noBar : a.Undivided (· == '|')
  noParen : a.head? ≠ some '('

instance (a : Text) : Decidable (IsOperand a) := decidable_of_iff' _ (isOperand_iff a)

theorem isOperand_applied {name : Text} {as : List Text} (hne : name ≠ [])
    (named : ∀ c ∈ name, isGenericNameChar c) (has : ∀ a ∈ as, IsArgument a) :
    IsOperand (applied name as) where
  ne_nil := by
    rw [applied]
    exact List.append_ne_nil_of_left_ne_nil hne _
  collapsed := collapse_applied hne named has
  balanced := balanced_applied named has
  noComma := undivided_applied named (balanced_join has).opened (by decide) (by decide)
  noEquals := by
    rw [getLast?_applied]
    decide
  noBar := undivided_applied named (balanced_join has).opened (by decide) (by decide)
  noParen := by
    obtain ⟨c, r, rfl⟩ := List.exists_cons_of_ne_nil hne
    rintro h
    obtain rfl : c = '(' := by simpa [applied] using h
    exact absurd (named '(' List.mem_cons_self) (by decide)

theorem isOperand_brackets {a : Text} (ha : IsOperand a) : IsOperand (a ++ "[]".toList) := by
  have trimmed := Text.trim_of_collapse ha.collapsed
  have whole : (a ++ "[]".toList).trim = a ++ "[]".toList := by
    have between := Text.trim_between trimmed (b := [']']) rfl ha.ne_nil (List.cons_ne_nil _ _)
    simpa using between ['[']
  exact {
    ne_nil := List.append_ne_nil_of_left_ne_nil ha.ne_nil _
    collapsed := by
      rw [Text.collapse_of_trimmed whole]
      exact (Text.dense_append_cons (by decide) a [']']).trans
        (by rw [Text.dense_of_collapse ha.collapsed]; rfl)
    balanced := ha.balanced.brackets
    noComma := ha.noComma.append (by decide)
    noEquals := by
      rw [List.getLast?_append_of_ne_nil _ (by decide)]
      decide
    noBar := ha.noBar.append (by decide)
    noParen := by
      rw [List.head?_append_of_ne_nil _ ha.ne_nil]
      exact ha.noParen }

inductive Place where
  | here
  | argument (name : Text) (before : List Text) (inner : Place) (after : List Text)
  | wrapped (name : Text) (inner : Place)
  | brackets (inner : Place)
  deriving DecidableEq, Repr

namespace Place

def put (a : Text) : Place → Text
  | here => a
  | argument name before inner after => applied name (before ++ inner.put a :: after)
  | wrapped name inner => applied name [inner.put a]
  | brackets inner => inner.put a ++ "[]".toList

/-- The place in the target, where the other arguments have become `f` of them. -/
def mapped (f : Text → Text) : Place → Place
  | here => here
  | argument name before inner after =>
    argument name (before.map f) (inner.mapped f) (after.map f)
  | wrapped _ inner => brackets (inner.mapped f)
  | brackets inner => brackets (inner.mapped f)

/-- What is written around the place makes a type with `a` in it. -/
def Fits (a : Text) : Place → Prop
  | here => IsArgument a
  | argument name before inner after =>
    IsGenericName name ∧ (∀ b ∈ before, IsArgument b) ∧ inner.Fits a ∧ ∀ b ∈ after, IsArgument b
  | wrapped name inner => name ∈ arrayNames ∧ inner.Fits a
  | brackets inner => inner.Fits a ∧ (inner = here → IsOperand a)

instance decidableFits (a : Text) : (place : Place) → Decidable (place.Fits a)
  | here => inferInstanceAs (Decidable (IsArgument a))
  | argument _ _ inner _ =>
    have := decidableFits a inner
    inferInstanceAs (Decidable (_ ∧ _ ∧ _ ∧ _))
  | wrapped _ inner =>
    have := decidableFits a inner
    inferInstanceAs (Decidable (_ ∧ _))
  | brackets inner =>
    have := decidableFits a inner
    inferInstanceAs (Decidable (_ ∧ (_ → _)))

end Place

end TypeText

namespace TypeTable

open TypeText

theorem standard_alone {t : Text} (collapsed : t.collapse = t) (undivided : t.Undivided (· == '|'))
    {c : Char} (hc : isPlain c = false) (h : c ∈ t) :
    standard.entry? t = none ∧ proper t = (t, false) := by
  obtain ⟨whole, split⟩ := splitNullish_alone collapsed undivided (List.ne_nil_of_mem h)
  have same : proper t = (t, false) := by rw [proper, whole, split]
  refine ⟨?_, same⟩
  rw [entry?_eq, whole, same, lookup?_eq_none hc h]
  rfl

section Parts

variable {a name : Text} {as : List Text}

theorem target_applied (hname : IsGenericName name) (some : as ≠ [])
    (has : ∀ a ∈ as, IsArgument a) :
    standard.target (applied name as) = applied name (as.map standard.target) := by
  obtain ⟨hne, named, notArray⟩ := hname
  obtain ⟨entry, same⟩ := standard_alone (c := '<') (collapse_applied hne named has)
    (isOperand_applied hne named has).noBar rfl (by simp [applied])
  have array : arrayElement? (proper (applied name as)).1 = none := by
    rw [same, arrayElement?_applied_eq_none hne named notArray]
  have generic : genericArguments? (proper (applied name as)).1 = Option.some (name, as) := by
    rw [same, genericArguments?_applied hne named has some]
  rw [target_of_generic entry array generic, same, ← applied_eq]
  rfl

theorem target_wrapped (h : name ∈ arrayNames) (ha : IsArgument a) :
    standard.target (applied name [a]) = standard.target a ++ "[]".toList := by
  have named := isGenericNameChar_of_mem_arrayNames h
  have hne := ne_nil_of_mem_arrayNames h
  have has := List.forall_mem_singleton.2 ha
  obtain ⟨entry, same⟩ := standard_alone (c := '<') (collapse_applied hne named has)
    (isOperand_applied hne named has).noBar rfl (by simp [applied])
  have element : arrayElement? (proper (applied name [a])).1 = some a := by
    rw [same, arrayElement?_applied h ha]
  rw [target_of_array entry element, same]
  rfl

theorem target_brackets (ha : IsOperand a) :
    standard.target (a ++ "[]".toList) = standard.target a ++ "[]".toList := by
  have whole := isOperand_brackets ha
  obtain ⟨entry, same⟩ := standard_alone (c := '[') whole.collapsed whole.noBar rfl (by simp)
  have trimmed := Text.trim_of_collapse ha.collapsed
  have bare : stripParens a = a := by
    rw [stripParens_of_noParen (by rw [trimmed]; exact ha.noParen), trimmed]
  have element : arrayElement? (proper (a ++ "[]".toList)).1 = some a := by
    rw [same]
    conv => rhs; rw [← bare]
    refine arrayElement?_brackets (Text.trim_of_collapse whole.collapsed) ?_
      (depthAfter_of_closed ha.balanced.closed)
    rw [Bool.eq_false_iff, ne_eq, ← Text.trim_eq_nil_iff, trimmed]
    exact ha.ne_nil
  rw [target_of_array entry element, same]
  rfl

/-- What is put in a place is an argument again, and brackets can be written after it. -/
theorem operand_put {place : Place} (h : place.Fits a) :
    IsArgument (place.put a) ∧ ((place = .here → IsOperand a) → IsOperand (place.put a)) := by
  have both {p : Prop} {t : Text} (ht : IsOperand t) : IsArgument t ∧ (p → IsOperand t) :=
    ⟨ht.toIsArgument, fun _ => ht⟩
  induction place with
  | here => exact ⟨h, fun ha => ha rfl⟩
  | argument name before inner after ih =>
    obtain ⟨hname, hbefore, hinner, hafter⟩ := h
    have args := List.forall_mem_append.2 ⟨hbefore, List.forall_mem_cons.2 ⟨(ih hinner).1, hafter⟩⟩
    exact both (isOperand_applied hname.ne_nil hname.named args)
  | wrapped name inner ih =>
    obtain ⟨hname, hinner⟩ := h
    have args := List.forall_mem_singleton.2 (ih hinner).1
    exact both (isOperand_applied (ne_nil_of_mem_arrayNames hname)
      (isGenericNameChar_of_mem_arrayNames hname) args)
  | brackets inner ih =>
    obtain ⟨hinner, operand⟩ := h
    exact both (isOperand_brackets ((ih hinner).2 operand))

/-- What stands in a place is mapped by itself, however deep the place is. -/
theorem target_put {place : Place} (h : place.Fits a) :
    standard.target (place.put a) = (place.mapped standard.target).put (standard.target a) := by
  induction place with
  | here => rfl
  | argument name before inner after ih =>
    obtain ⟨hname, hbefore, hinner, hafter⟩ := h
    have args := List.forall_mem_append.2 ⟨hbefore,
      List.forall_mem_cons.2 ⟨(operand_put hinner).1, hafter⟩⟩
    rw [Place.put, target_applied hname (by simp) args, List.map_append, List.map_cons, ih hinner]
    rfl
  | wrapped name inner ih =>
    rw [Place.put, target_wrapped h.1 (operand_put h.2).1, ih h.2]
    rfl
  | brackets inner ih =>
    rw [Place.put, target_brackets ((operand_put h.1).2 h.2), ih h.1]
    rfl

end Parts

/-- Types are mapped part by part: generic types argument by argument, arrays by their elements, and
so whatever stands in a place inside them. Each primitive can stand in every place, and has its
entry as its target. -/
theorem target_parts :
    (∀ name as, IsGenericName name → as ≠ [] → (∀ a ∈ as, IsArgument a) →
      standard.target (applied name as) = applied name (as.map standard.target)) ∧
    (∀ a, IsArgument a → ∀ name ∈ arrayNames,
      standard.target (applied name [a]) = standard.target a ++ "[]".toList) ∧
    (∀ (place : Place) a, place.Fits a →
      standard.target (place.put a) = (place.mapped standard.target).put (standard.target a)) ∧
    ∀ e ∈ primitives, standard.target e.1 = e.2 ∧ IsArgument e.1 ∧ ('|' ∉ e.1 → IsOperand e.1) := by
  refine ⟨fun _ _ hname some has => target_applied hname some has,
    fun _ ha _ hname => target_wrapped hname ha, fun _ _ h => target_put h, ?_⟩
  decide +kernel

/-- A primitive in an array in a generic type in an array, beside an arrow and a string. -/
theorem target_parts_nested :
    let place := Place.wrapped "Array".toList
      (.argument "Map".toList ["(e: Event) => void".toList] (.brackets .here) ["\"a, b\"".toList])
    (place.Fits "number".toList ∧
      place.put "number".toList = "Array<Map<(e: Event) => void, number[], \"a, b\">>".toList) ∧
    standard.target (place.put "number".toList) =
      "Map<(e: Event) => void, double[], \"a, b\">[]".toList := by
  intro place
  have fits : place.Fits "number".toList := by decide +kernel
  refine ⟨⟨fits, by decide +kernel⟩, (target_parts.2.2.1 place _ fits).trans ?_⟩
  decide +kernel

end TypeTable

end WebSurface
