import WebSurface.Proofs.NormalForm
import WebSurface.Proofs.Targets
set_option autoImplicit false

namespace WebSurface

namespace TypeText

def nullishWords : List Text := ["null".toList, "undefined".toList]

def orNullish (t word : Text) : Text := t ++ ' ' :: '|' :: ' ' :: word

theorem normalize_orNullish {t word : Text} (h : IsFull t) (hword : word ∈ nullishWords) :
    normalize (orNullish t word) = orNullish (normalize t) word := by
  have facts : ∀ w ∈ nullishWords, w.blank = false ∧ w.collapse = w ∧ (∀ c ∈ w, isPlain c) ∧
      ∀ c ∈ w, (c == '|') = false := by decide +kernel
  obtain ⟨solid, collapsed, plain, noBar⟩ := facts word hword
  exact normalize_append_bar h solid collapsed plain noBar

theorem orNullish_inj {s t v w : Text} (hv : v ∈ nullishWords) (hw : w ∈ nullishWords)
    (h : orNullish s v = orNullish t w) : s = t ∧ v = w := by
  simp only [nullishWords, List.mem_cons, List.not_mem_nil, or_false] at hv hw
  have ends := congrArg List.getLast? h
  rcases hv with rfl | rfl <;> rcases hw with rfl | rfl
  · exact ⟨List.append_cancel_right h, rfl⟩
  · simp [orNullish] at ends
  · simp [orNullish] at ends
  · exact ⟨List.append_cancel_right h, rfl⟩

theorem ne_orNullish (t word : Text) : t ≠ orNullish t word := by
  intro h
  have := congrArg List.length h
  simp [orNullish] at this

end TypeText

namespace TypeTable

open TypeText

theorem get?_putNew_twice (m : NameTable Text) {n a b r x k : Text} (ha : n ≠ a) (hb : n ≠ b)
    (hab : a ≠ b) : NameTable.get? (((m.put (n, r)).putNew (a, x)).putNew (b, x)) k =
      if k = n then some r else if k = a ∨ k = b then some ((m.get? k).getD x) else m.get? k := by
  simp only [NameTable.get?_putNew, NameTable.get?_put]
  by_cases hn : k = n
  · subst hn
    simp [ha, hb]
  · by_cases hka : k = a
    · subst hka
      simp [hn, hab]
    · by_cases hkb : k = b
      · subst hkb
        simp [hn, hka]
      · simp [hn, hka, hkb]

theorem get?_putForms (m : NameTable Text) (n r k : Text) : NameTable.get? (putForms m (n, r)) k =
    if k = n then some r
    else if ∃ w ∈ nullishWords, k = orNullish n w then some ((m.get? k).getD (nullable r))
    else m.get? k := by
  have forms : (∃ w ∈ nullishWords, k = orNullish n w) ↔
      k = orNullish n "null".toList ∨ k = orNullish n "undefined".toList := by
    rw [nullishWords, List.exists_mem_cons_iff, List.exists_mem_cons_iff]
    simp only [List.not_mem_nil, false_and, exists_false, or_false]
  have apart : orNullish n "null".toList ≠ orNullish n "undefined".toList := fun h =>
    absurd (orNullish_inj (by simp [nullishWords]) (by simp [nullishWords]) h).2 (by decide)
  rw [if_congr forms rfl rfl]
  exact get?_putNew_twice m (ne_orNullish n _) (ne_orNullish n _) apart

theorem get?_listed {m : NameTable Text} {k a : Text} (h : m.get? k = some a)
    (es : List (Text × Text)) : NameTable.get? (es.foldl putForms m) k =
      some ((es.reverse.find? (·.1 == k)).elim a Prod.snd) := by
  induction es using List.reverseRecOn with
  | nil => exact h
  | append_singleton es e ih =>
    rw [List.foldl_concat, get?_putForms, ih, List.reverse_append, List.reverse_singleton,
      List.singleton_append, List.find?_cons]
    by_cases hk : k = e.1
    · simp [hk]
    · have other : (e.1 == k) = false := beq_false_of_ne (Ne.symm hk)
      rw [if_neg hk, other]
      split <;> rfl

/-- A nullable spelling without an entry of its own is that of the first entry of the type. -/
theorem get?_derived {m : NameTable Text} {n word : Text} (hword : word ∈ nullishWords)
    (hm : m.get? (orNullish n word) = none) {es : List (Text × Text)}
    (hes : ∀ e ∈ es, e.1 ≠ orNullish n word) :
    NameTable.get? (es.foldl putForms m) (orNullish n word) =
      (es.find? (·.1 == n)).map fun e => nullable e.2 := by
  induction es using List.reverseRecOn with
  | nil => exact hm
  | append_singleton es e ih =>
    obtain ⟨hes, he⟩ := List.forall_mem_append.1 hes
    have other := he e (List.mem_singleton_self e)
    have form : (∃ w ∈ nullishWords, orNullish n word = orNullish e.1 w) ↔ e.1 = n := by
      constructor
      · rintro ⟨w, hw, h⟩
        exact (orNullish_inj hword hw h).1.symm
      · exact fun h => ⟨word, hword, by rw [h]⟩
    rw [List.foldl_concat, get?_putForms, if_neg (Ne.symm other), ih hes, List.find?_append]
    simp only [form, List.find?_singleton, beq_iff_eq]
    cases es.find? (·.1 == n) <;> split <;> rfl

/-- The target of the last entry for a type, in whatever way its source is spelled. -/
def lastTarget? (entries : List (Text × Text)) (t : Text) : Option Text :=
  (entries.reverse.find? fun e => TypeText.normalize e.1 == TypeText.normalize t).map Prod.snd

/-- The target of the first entry for a type. -/
def firstTarget? (entries : List (Text × Text)) (t : Text) : Option Text :=
  (entries.find? fun e => TypeText.normalize e.1 == TypeText.normalize t).map Prod.snd

section Entries

variable {entries : List (Text × Text)} {t target word : Text}

def normalizedEntries (entries : List (Text × Text)) : List (Text × Text) :=
  entries.map fun (source, target) => (normalize source, target)

/-- The entries that bring nullable spellings along. -/
def bareEntries (entries : List (Text × Text)) : List (Text × Text) :=
  (normalizedEntries entries).filter fun (source, _) => !(splitNullish source).2

theorem overrides_ofEntries (entries : List (Text × Text)) : (ofEntries entries).overrides =
    (bareEntries entries).foldl putForms (.ofList (normalizedEntries entries)) := rfl

theorem get?_normalizedEntries (entries : List (Text × Text)) (t : Text) :
    NameTable.get? (.ofList (normalizedEntries entries)) (normalize t) = lastTarget? entries t := by
  rw [NameTable.get?_ofList, normalizedEntries, ← List.map_reverse, List.find?_map, Option.map_map]
  rfl

/-- The bare entries for a type are all of its entries, unless the type is nullable. -/
theorem find?_filter_bare (l : List (Text × Text)) {n : Text} (hn : (splitNullish n).2 = false) :
    (l.filter fun (source, _) => !(splitNullish source).2).find? (·.1 == n) =
      l.find? (·.1 == n) := by
  rw [List.find?_filter]
  refine congrArg (List.find? · l) (funext fun (source, target) => ?_)
  by_cases h : source = n
  · simp [h, hn]
  · simp [h]

theorem get?_overrides (h : lastTarget? entries t = some target) :
    (ofEntries entries).overrides.get? (normalize t) = some target := by
  have given := (get?_normalizedEntries entries t).trans h
  have kept : ((bareEntries entries).reverse.find? (·.1 == normalize t)).elim target Prod.snd =
      target := by
    cases hb : (bareEntries entries).reverse.find? (·.1 == normalize t) with
    | none => rfl
    | some e =>
      have found := hb
      rw [bareEntries, ← List.filter_reverse] at found
      obtain ⟨-, bare⟩ := List.mem_filter.1 (List.mem_of_find?_eq_some found)
      have key : e.1 = normalize t := by simpa using List.find?_some found
      rw [find?_filter_bare _ (by simpa [key] using bare)] at found
      rw [NameTable.get?_ofList, found] at given
      exact Option.some.inj given
  rw [overrides_ofEntries, get?_listed given, kept]

theorem get?_overrides_orNullish (h : lastTarget? entries t = some target) (full : IsFull t)
    (bare : (splitNullish t).2 = false) (hword : word ∈ nullishWords)
    (unlisted : lastTarget? entries (orNullish t word) = none) :
    ∃ first, firstTarget? entries t = some first ∧
      (ofEntries entries).overrides.get? (normalize (orNullish t word)) =
        some (nullable first) := by
  have key := normalize_orNullish full hword
  have absent : NameTable.get? (.ofList (normalizedEntries entries))
      (orNullish (normalize t) word) = none := by
    rw [← key, get?_normalizedEntries, unlisted]
  have others : ∀ e ∈ bareEntries entries, e.1 ≠ orNullish (normalize t) word := by
    intro e he
    rw [NameTable.get?_ofList, Option.map_eq_none_iff, List.find?_eq_none] at absent
    simpa using absent e (List.mem_reverse.2 (List.mem_filter.1 he).1)
  have first : (bareEntries entries).find? (·.1 == normalize t) =
      (normalizedEntries entries).find? (·.1 == normalize t) := by
    refine find?_filter_bare _ ?_
    rw [splitNullish_snd, admitsNullish_normalize, ← splitNullish_snd, bare]
  rw [overrides_ofEntries, key, get?_derived hword absent others, first, normalizedEntries,
    List.find?_map]
  cases hfirst : entries.find? fun e => TypeText.normalize e.1 == TypeText.normalize t with
  | none =>
    rw [List.find?_eq_none] at hfirst
    obtain ⟨e, he, -⟩ := Option.map_eq_some_iff.1 h
    exact absurd (List.find?_some he) (hfirst e (List.mem_reverse.1 (List.mem_of_find?_eq_some he)))
  | some e =>
    refine ⟨e.2, by rw [firstTarget?, hfirst]; rfl, ?_⟩
    simp only [Function.comp_def, hfirst, Option.map_some]

/-- A listed type has the target of its last entry. With `null` or `undefined` beside it, where this
is not listed, it has the nullable form of the target of its first entry, so that the two belong
together exactly if these targets have the same nullable form. -/
theorem target_ofEntries (h : lastTarget? entries t = some target) :
    (ofEntries entries).target t = target ∧
    (IsFull t → (splitNullish t).2 = false → ∀ word ∈ nullishWords,
      lastTarget? entries (orNullish t word) = none →
        ∃ first, firstTarget? entries t = some first ∧
          (ofEntries entries).target (orNullish t word) = nullable first ∧
          ((ofEntries entries).target (orNullish t word) =
            nullable ((ofEntries entries).target t) ↔ nullable first = nullable target)) := by
  have own {k r : Text} (hr : (ofEntries entries).overrides.get? (normalize k) = some r) :
      (ofEntries entries).target k = r :=
    target_of_lookup? (by rw [lookup?, hr, Option.some_or])
  have listed := own (get?_overrides h)
  refine ⟨listed, fun full bare word hword unlisted => ?_⟩
  obtain ⟨first, hfirst, hget⟩ := get?_overrides_orNullish h full bare hword unlisted
  have derived := own hget
  exact ⟨first, hfirst, derived, by rw [derived, listed]⟩

/-- A union that is listed in two spellings, and once more with `null`. -/
theorem target_ofEntries_spellings :
    let entries := [("A|B".toList, ['X']), (" A  | B ".toList, "X?".toList),
      ("B | null".toList, ['Y']), ("A|B | null".toList, ['Z'])]
    let t := "A |\tB".toList
    (lastTarget? entries t = some "X?".toList ∧ IsFull t ∧ (splitNullish t).2 = false ∧
      lastTarget? entries (orNullish t "undefined".toList) = none) ∧
    (ofEntries entries).target t = "X?".toList ∧
    (ofEntries entries).target (orNullish t "undefined".toList) = "X?".toList := by
  intro entries t
  have facts : lastTarget? entries t = some "X?".toList ∧ IsFull t ∧ (splitNullish t).2 = false ∧
      lastTarget? entries (orNullish t "undefined".toList) = none := by decide +kernel
  obtain ⟨last, full, bare, unlisted⟩ := facts
  obtain ⟨listed, derived⟩ := target_ofEntries last
  obtain ⟨first, hfirst, hderived, -⟩ :=
    derived full bare "undefined".toList (by simp [nullishWords]) unlisted
  have : first = ['X'] := by
    have : firstTarget? entries t = some ['X'] := by decide +kernel
    rw [this] at hfirst
    exact (Option.some.inj hfirst).symm
  refine ⟨⟨last, full, bare, unlisted⟩, listed, ?_⟩
  rw [hderived, this]
  rfl

/-- Where two entries for a type differ, its nullable spellings do not follow the last one. -/
theorem not_target_orNullish_eq :
    let entries := [(['A'], ['X']), (['A'], ['Y'])]
    lastTarget? entries ['A'] = some ['Y'] ∧ IsFull ['A'] ∧ (splitNullish ['A']).2 = false ∧
    lastTarget? entries "A | null".toList = none ∧
    (ofEntries entries).target ['A'] = ['Y'] ∧
    (ofEntries entries).target "A | null".toList = "X?".toList ∧
    nullable ((ofEntries entries).target ['A']) = "Y?".toList := by
  decide +kernel

end Entries

end TypeTable

end WebSurface
