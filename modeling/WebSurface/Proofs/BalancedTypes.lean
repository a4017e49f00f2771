import WebSurface.Proofs.Enclosure
import WebSurface.Proofs.Targets
set_option autoImplicit false

namespace WebSurface

namespace Text.Balanced

theorem of_mem_cuts {p : Char → Bool} (plain : ∀ c, p c → isPlain c) {t m : Text} (h : t.Balanced)
    (hm : m ∈ Nesting.outside.cuts p t) : m.Balanced := by
  obtain ⟨a, as, hcuts⟩ := Nesting.exists_cuts p .outside t
  rw [hcuts] at hm
  induction as generalizing t a with
  | nil =>
    rw [List.mem_singleton.1 hm, Nesting.eq_of_cuts_singleton hcuts]
    exact h
  | cons b bs ih =>
    obtain ⟨c, r, rfl, ha, hc, hr⟩ := Nesting.exists_of_cuts
      (fun c hc => opensNothing_of_isPlain (plain c hc)) hcuts
    obtain ⟨hleft, hright⟩ := (append_cons_iff ha (plain c hc)).1 h
    rcases List.mem_cons.1 hm with rfl | hm
    · exact hleft
    · exact ih hright b hm hr

theorem of_mem_parts {p : Char → Bool} (plain : ∀ c, p c → isPlain c) {t m : Text} (h : t.Balanced)
    (hm : m ∈ parts p t) : m.Balanced := by
  rw [parts, tidy, List.mem_filter, List.mem_map] at hm
  obtain ⟨⟨a, ha, rfl⟩, -⟩ := hm
  exact Text.balanced_trim.2 (h.of_mem_cuts plain ha)

/-- Text after which the brackets close has its own brackets and strings closed. -/
theorem of_brackets {x : Text} (h : (x ++ "[]".toList).Balanced) (hdepth : depthAfter x = 0) :
    x.Balanced := by
  obtain ⟨opened, closed⟩ := h
  rw [Nesting.opened_append, Bool.and_eq_true] at opened
  rw [Nesting.run_append] at closed
  have code : (Nesting.outside.run x).inCode :=
    Nesting.inCode_of_run (Nesting.isQuote_run_outside x) (by decide)
      (Nesting.inCode_of_topLevel closed)
  refine ⟨opened.1, ?_⟩
  rw [Nesting.topLevel, code, Bool.and_true, beq_iff_eq]
  exact hdepth

end Text.Balanced

namespace TypeText

theorem balanced_union {ms : List Text} (h : ∀ m ∈ ms, m.Balanced) : (union ms).Balanced :=
  .join (by decide) h

theorem balanced_of_mem_unionMembers {t m : Text} (h : t.Balanced) (hm : m ∈ unionMembers t) :
    m.Balanced := by
  rw [unionMembers_eq] at hm
  exact h.of_mem_parts (isPlain_of_beq (by decide)) hm

theorem balanced_normalize {t : Text} (h : t.Balanced) : (normalize t).Balanced := by
  by_cases two : 2 ≤ (unionMembers t).length
  · rw [normalize_of_two two]
    exact balanced_union (List.forall_mem_map.2 fun m hm =>
      Text.balanced_collapse.2 (balanced_of_mem_unionMembers h hm))
  · rw [normalize_alone (Nat.le_of_lt_succ (Nat.lt_of_not_le two)), Text.balanced_trim]
    have bars : ∀ c ∈ t.collapse.takeWhile (· == '|'), isPlain c := fun c hc =>
      isPlain_of_beq (d := '|') (by decide) c (List.all_eq_true.1 List.all_takeWhile c hc)
    rw [← Text.Balanced.plain_append_iff bars, List.takeWhile_append_dropWhile]
    exact Text.balanced_collapse.2 h

theorem balanced_splitNullish {t : Text} (h : t.Balanced) : (splitNullish t).1.Balanced := by
  have whole := balanced_normalize h
  unfold splitNullish
  dsimp only
  split
  · exact whole
  · dsimp only
    exact balanced_union fun m hm =>
      balanced_of_mem_unionMembers whole (List.mem_filter.1 hm).1

theorem balanced_arrayElement? {t element : Text} (h : t.Balanced)
    (he : arrayElement? t = some element) : element.Balanced := by
  rcases arrayElement?_eq_some he with ⟨x, ht, -, hdepth, rfl⟩ | ⟨name, -, r, inner, -, hr, rfl⟩
  · refine balanced_stripParens (.of_brackets ?_ hdepth)
    rw [← ht]
    exact Text.balanced_trim.2 h
  · obtain ⟨-, -, -, -, balanced⟩ := exists_of_enclosed? hr
    exact Text.balanced_trim.2 balanced

theorem balanced_genericArguments? {t name : Text} {arguments : List Text}
    (h : genericArguments? t = some (name, arguments)) {a : Text} (ha : a ∈ arguments) :
    a.Balanced := by
  obtain ⟨x, r, inner, -, -, -, -, hr, rfl, -⟩ := genericArguments?_eq_some h
  obtain ⟨-, -, -, -, balanced⟩ := exists_of_enclosed? hr
  rw [partsTopLevel_eq] at ha
  exact balanced.of_mem_parts (isPlain_of_beq (by decide)) ha

end TypeText

namespace TypeTable

theorem balanced_proper {t : Text} (h : t.Balanced) : (proper t).1.Balanced :=
  TypeText.balanced_splitNullish (TypeText.balanced_normalize h)

end TypeTable

theorem Text.startsWith_append_cons {p : Text} {c : Char} (h : c ∉ p) (x r : Text) :
    startsWith p (x ++ c :: r) = startsWith p x := by
  induction p generalizing x with
  | nil => simp
  | cons d p ih =>
    rw [List.mem_cons, not_or] at h
    cases x with
    | nil => simp [h.1]
    | cons e x => rw [List.cons_append, startsWith_cons, startsWith_cons, ih h.2]

namespace Nesting

theorem meets_arrow_eq_false {s : Nesting} {t : Text} (h : (s.breakAt (· == '=') t).2 = []) :
    s.meets "=>".toList t = false := by
  induction t generalizing s with
  | nil => rfl
  | cons c t ih =>
    rw [breakAt] at h
    split at h
    · cases h
    · rename_i hc
      rw [meets, ih h, Bool.or_false]
      simp only [String.reduceToList, Text.startsWith_cons, ← Bool.and_assoc,
        Bool.eq_false_iff.2 hc, Bool.false_and]

/-- An arrow is not cut in two by text that does not begin with its second half. -/
theorem startsWith_arrow_append {w : Text} (hw : w.head? ≠ some '>') (c : Char) (r : Text) :
    Text.startsWith "=>".toList (c :: r ++ w) = Text.startsWith "=>".toList (c :: r) := by
  cases r with
  | nil =>
    cases w with
    | nil => rfl
    | cons d w =>
      have hd : (d == '>') = false := by
        rw [beq_eq_false_iff_ne]
        rintro rfl
        exact hw rfl
      simp [hd]
  | cons d r => simp

theorem meets_arrow_append {w : Text} (hw : w.head? ≠ some '>') (s : Nesting) (x : Text) :
    s.meets "=>".toList (x ++ w) =
      (s.meets "=>".toList x || (s.run x).meets "=>".toList w) := by
  induction x generalizing s with
  | nil => rfl
  | cons c x ih =>
    rw [List.cons_append, meets, meets, ← List.cons_append, startsWith_arrow_append hw, ih,
      Bool.or_assoc, run_cons]

theorem meets_arrow_plain {x : Text} (hx : ∀ c ∈ x, isPlain c) (s : Nesting) :
    s.meets "=>".toList x = false := by
  refine meets_arrow_eq_false ?_
  rw [breakAt_eq_self fun c hc => beq_eq_false_of (p := isPlain) rfl c (hx c hc)]

theorem meets_arrow_plain_append {x : Text} (hx : ∀ c ∈ x, isPlain c) (t : Text) :
    outside.meets "=>".toList (x ++ t) = outside.meets "=>".toList t := by
  induction x with
  | nil => rfl
  | cons c x ih =>
    obtain ⟨hc, hx⟩ := List.forall_mem_cons.1 hx
    have other : (c == '=') = false := beq_eq_false_of (p := isPlain) rfl c hc
    rw [List.cons_append, meets, step_plain topLevel_outside hc, ih hx]
    simp [other]

theorem meets_arrow_trim (t : Text) :
    outside.meets "=>".toList t.trim = outside.meets "=>".toList t := by
  obtain ⟨v, w, hv, hw, ht⟩ := Text.exists_trim t
  have ends : w.head? ≠ some '>' := fun h =>
    absurd (Text.isBlank_of_mem hw (List.mem_of_mem_head? h)) (by decide)
  conv => rhs; rw [ht, meets_arrow_append ends, meets_arrow_plain (isPlain_of_blank hw),
    meets_arrow_plain_append (isPlain_of_blank hv), Bool.or_false]

theorem startsWith_arrow_dense (c : Char) (r : Text) :
    Text.startsWith "=>".toList (c :: r.dense) = Text.startsWith "=>".toList (c :: r) := by
  cases r with
  | nil => rfl
  | cons d r =>
    cases hd : Text.isBlank d with
    | false => rw [Text.dense_solid hd]; simp
    | true =>
      have other {e : Char} (he : Text.isBlank e) : (e == '>') = false :=
        beq_eq_false_of (p := Text.isBlank) rfl e he
      have starts : Text.startsBlank (Text.dense (d :: r)) := (Text.startsBlank_dense _).trans hd
      cases hdense : Text.dense (d :: r) with
      | nil => rw [hdense] at starts; cases starts
      | cons e u =>
        rw [hdense] at starts
        simp [other hd, other (e := e) starts]

/-- White space that becomes single spaces neither makes nor breaks an arrow. -/
theorem meets_arrow_dense {s : Nesting} (hs : ∀ q ∈ s.literal?, isQuote q.1) (t : Text) :
    s.meets "=>".toList t.dense = s.meets "=>".toList t := by
  refine dense_congr (f := meets "=>".toList) (fun s c r hc => ?_) (fun s c r h => ?_) hs t
  · have other : (c == '=') = false := beq_eq_false_of (p := Text.isBlank) rfl c hc
    simp [meets, other]
  · rw [meets, meets, h, startsWith_arrow_dense]

end Nesting

namespace TypeText

/-- The text without its outer parentheses is taken for a function type. -/
def isBareFunction (t : Text) : Bool :=
  containsTopLevel "=>".toList t || Text.startsWith "new (".toList t ||
    Text.startsWith "new(".toList t

theorem isFunctionType_eq (t : Text) : isFunctionType t = isBareFunction (stripParens t) := rfl

def newWords : List Text := ["new ".toList, "new".toList]

theorem exists_of_mem_newWords {q : Text} (h : q ∈ newWords) : ∃ s, q = 'n' :: s := by
  simp only [newWords, List.mem_cons, List.not_mem_nil, or_false] at h
  rcases h with rfl | rfl <;> exact ⟨_, rfl⟩

theorem isBareFunction_iff {t : Text} : isBareFunction t ↔
    Nesting.outside.meets "=>".toList t ∨ ∃ q ∈ newWords, ∃ r : Text, t = q ++ '(' :: r := by
  have word (q : Text) : Text.startsWith (q ++ ['(']) t ↔ ∃ r : Text, t = q ++ '(' :: r := by
    rw [Text.startsWith, Option.isSome_iff_exists]
    refine exists_congr fun r => ?_
    rw [Text.strip?_eq_some_iff, List.append_assoc]
    rfl
  have words : isBareFunction t = (containsTopLevel "=>".toList t ||
    Text.startsWith ("new ".toList ++ ['(']) t || Text.startsWith ("new".toList ++ ['(']) t) := rfl
  rw [words, Bool.or_eq_true, Bool.or_eq_true, word, word, or_assoc]
  simp [newWords, containsTopLevel]

theorem isBareFunction_append {w : Text} (noEquals : ∀ c ∈ w, (c == '=') = false) (x : Text) :
    isBareFunction (x ++ '[' :: w) = isBareFunction x := by
  have rest : (Nesting.outside.run x).meets "=>".toList ('[' :: w) = false :=
    Nesting.meets_arrow_eq_false (by
      rw [Nesting.breakAt_eq_self (List.forall_mem_cons.2 ⟨rfl, noEquals⟩)])
  rw [isBareFunction, containsTopLevel, Nesting.meets_arrow_append (by simp), rest, Bool.or_false,
    Text.startsWith_append_cons (by decide), Text.startsWith_append_cons (by decide)]
  rfl

theorem isBareFunction_named {x y : Text} (hx : ∀ c ∈ x, isGenericNameChar c ∨ Text.isBlank c)
    (hy : ∀ c ∈ y.head?, c ∈ ['<', '[', '?']) (undivided : (x ++ y).Undivided (· == '=')) :
    isBareFunction (x ++ y) = false := by
  rw [Bool.eq_false_iff]
  intro h
  rcases isBareFunction_iff.1 h with h | ⟨q, hp, r, h⟩
  · rw [Nesting.meets_arrow_eq_false undivided] at h
    cases h
  · -- The parenthesis is part of the name, since nothing else of the word can come after it.
    have mem : '(' ∈ x := by
      rcases List.append_eq_append_iff.1 h with ⟨z, hq, hz⟩ | ⟨z, rfl, hz⟩
      · cases z with
        | nil =>
          rw [List.nil_append] at hz
          exact absurd (hy '(' (by rw [hz]; rfl)) (by decide)
        | cons c z =>
          have hc : c ∈ q := by rw [hq]; simp
          have first := hy c (by rw [hz]; rfl)
          have apart : ∀ q ∈ newWords, ∀ c ∈ q, c ∉ ['<', '[', '?'] := by decide
          exact absurd first (apart q hp c hc)
      · cases z with
        | nil =>
          rw [List.nil_append] at hz
          exact absurd (hy '(' (by rw [← hz]; rfl)) (by decide)
        | cons c z =>
          obtain ⟨rfl, -⟩ := List.cons.inj hz
          simp
    exact absurd (hx '(' mem) (by decide)

theorem enclosed?_eq_none_of_function {t : Text} (h : isBareFunction t) : enclosed? t = none := by
  rw [Option.eq_none_iff_forall_ne_some]
  intro a ha
  rcases isBareFunction_iff.1 h with h | ⟨q, hq, r, rfl⟩
  · have undivided := undivided_of_enclosed? (beq_eq_false_of (p := isOpener) (d := '=') rfl) ha
    rw [Nesting.meets_arrow_eq_false undivided] at h
    cases h
  · obtain ⟨o, c, ho, ht, -⟩ := exists_of_enclosed? ha
    obtain ⟨s, rfl⟩ := exists_of_mem_newWords hq
    obtain ⟨rfl, -⟩ := List.cons.inj ht
    cases ho

theorem stripParens_of_function {t : Text} (h : isBareFunction t.trim) :
    stripParens t = t.trim := by
  rw [stripParens, enclosed?_eq_none_of_function h]
  exact ite_self _

theorem exists_not_plain {t : Text} (h : isBareFunction t) : ∃ c ∈ t, isPlain c = false := by
  rcases isBareFunction_iff.1 h with h | ⟨q, -, r, rfl⟩
  · by_contra plain
    have plain : ∀ c ∈ t, isPlain c := by simpa using plain
    rw [Nesting.meets_arrow_plain plain] at h
    cases h
  · exact ⟨'(', by simp, rfl⟩

section Spaces

variable {t : Text} (h : isBareFunction t)

include h

theorem isBareFunction_trim : isBareFunction t.trim := by
  rcases isBareFunction_iff.1 h with h | ⟨q, hq, r, rfl⟩
  · exact isBareFunction_iff.2 (.inl (by rw [Nesting.meets_arrow_trim, h]))
  · refine isBareFunction_iff.2 (.inr ⟨q, hq, r.trimEnd, ?_⟩)
    obtain ⟨s, rfl⟩ := exists_of_mem_newWords hq
    rw [Text.trim, List.cons_append, Text.trimStart_cons rfl, ← List.cons_append,
      Text.trimEnd_append_of_not_blank _ (by simp [show Text.isBlank '(' = false from rfl]),
      Text.trimEnd_cons_solid rfl]

theorem isBareFunction_dense : isBareFunction t.dense := by
  rcases isBareFunction_iff.1 h with h | ⟨q, hq, r, rfl⟩
  · refine isBareFunction_iff.2 (.inl ?_)
    rw [Nesting.meets_arrow_dense (by simp [Nesting.outside, Nesting.literal?]), h]
  · have dense : ∀ q ∈ newWords, q.dense = q := by decide
    exact isBareFunction_iff.2 (.inr ⟨q, hq, r.dense, by
      rw [Text.dense_append_cons rfl, dense q hq]⟩)

theorem isBareFunction_dropWhile : isBareFunction (t.dropWhile (· == '|')) := by
  rcases isBareFunction_iff.1 h with h | ⟨q, hq, r, rfl⟩
  · have bars : ∀ c ∈ t.takeWhile (· == '|'), isPlain c := fun c hc =>
      isPlain_of_beq (d := '|') (by decide) c (List.all_eq_true.1 List.all_takeWhile c hc)
    refine isBareFunction_iff.2 (.inl ?_)
    rw [← Nesting.meets_arrow_plain_append bars, List.takeWhile_append_dropWhile, h]
  · obtain ⟨s, rfl⟩ := exists_of_mem_newWords hq
    exact h

end Spaces

/-- A function type that is no union is one in its normal form. -/
theorem isBareFunction_normalize {t : Text} (alone : (unionMembers t).length ≤ 1)
    (h : isBareFunction t.trim) : isBareFunction (normalize t) := by
  rw [normalize_alone alone, ← Text.collapse_trim, Text.collapse_eq]
  have spaced := isBareFunction_trim (isBareFunction_dense h)
  exact isBareFunction_trim (isBareFunction_dropWhile spaced)

end TypeText

end WebSurface
