import WebSurface.Proofs.Overrides
import WebSurface.Proofs.Settled
set_option autoImplicit false

namespace WebSurface

namespace NameTable

variable {α : Type}

theorem get?_foldl_put {l : List (Text × α)} (distinct : (l.map Prod.fst).Nodup)
    (m : NameTable α) (k : Text) : get? (l.foldl Keyed.put m) k =
      ((l.find? (·.1 == k)).map Prod.snd).or (m.get? k) := by
  induction l generalizing m with
  | nil => rfl
  | cons a l ih =>
    rw [List.map_cons, List.nodup_cons] at distinct
    rw [List.foldl_cons, ih distinct.2, get?_put, List.find?_cons]
    by_cases hk : a.1 = k
    · have absent : l.find? (·.1 == k) = none := by
        rw [List.find?_eq_none]
        rintro b hb same
        exact distinct.1 (hk ▸ beq_iff_eq.1 same ▸ List.mem_map_of_mem hb)
      simp [absent, hk]
    · rw [if_neg (Ne.symm hk), beq_false_of_ne hk]

end NameTable

namespace TypeText

theorem unionMembers_cons_ne_nil {c : Char} (hc : Text.isBlank c = false) (noBar : c ≠ '|')
    (r : Text) : unionMembers (c :: r) ≠ [] := by
  obtain ⟨a, as, ha⟩ := Nesting.exists_cuts (· == '|') (Nesting.outside.step c) r
  have first : Nesting.outside.cuts (· == '|') (c :: r) = (c :: a) :: as := by
    rw [Nesting.cuts, beq_false_of_ne noBar, Bool.and_false, if_neg Bool.false_ne_true, ha]
    rfl
  rw [unionMembers_eq, parts, first, tidy_cons, Text.blank_cons, hc, Bool.false_and,
    if_neg Bool.false_ne_true]
  exact List.cons_ne_nil _ _

theorem isBlank_of_unionMembers_eq_nil {t : Text} (h : unionMembers t = []) :
    ∀ c ∈ t, Text.isBlank c ∨ c = '|' := by
  induction t with
  | nil => simp
  | cons c r ih =>
    by_cases noBar : c = '|'
    · subst noBar
      have rest := unionMembers_dropWhile ('|' :: r)
      rw [List.dropWhile_cons_of_pos (by simp), unionMembers_dropWhile, h] at rest
      exact List.forall_mem_cons.2 ⟨.inr rfl, ih rest⟩
    · cases hc : Text.isBlank c with
      | false => exact absurd h (unionMembers_cons_ne_nil hc noBar r)
      | true =>
        have rest : unionMembers (c :: r) = unionMembers r := by
          rw [unionMembers_eq, unionMembers_eq]
          exact parts_append_left (w := [c]) (by simp [hc]) r
        exact List.forall_mem_cons.2 ⟨.inl hc, ih (rest ▸ h)⟩

theorem unionMembers_orNullish {n word : Text} (closed : (Nesting.outside.run n).topLevel)
    (hword : word ∈ nullishWords) :
    unionMembers (orNullish n word) = unionMembers n ++ [word] := by
  have facts : ∀ w ∈ nullishWords, unionMembers (' ' :: w) = [w] := by decide +kernel
  have spaced : (Nesting.outside.run (n ++ [' '])).topLevel := by
    rw [Nesting.run_append]
    exact Nesting.topLevel_run_plain (by decide) closed
  have cut : orNullish n word = (n ++ [' ']) ++ '|' :: (' ' :: word) := by simp [orNullish]
  rw [cut, unionMembers_eq, parts_append (opensNothing_of_beq (by decide)) spaced rfl,
    parts_append_right rfl, ← unionMembers_eq, ← unionMembers_eq,
    facts word hword]

theorem head_of_normalize_eq {c : Char} {r : Text} (h : normalize (c :: r) = c :: r) :
    Text.isBlank c = false ∧ c ≠ '|' := by
  have trimmed : Text.trim (c :: r) = c :: r := by rw [← h, trim_normalize]
  refine ⟨Text.isBlank_ends_trim.1 c (by rw [trimmed]; rfl), ?_⟩
  rintro rfl
  exact head?_ne_of_normalize_eq h rfl

/-- A normal form that is no union is full, or it is one member and bars after it. -/
theorem isFull_or_exists_bar {n : Text} (few : (unionMembers n).length ≤ 1)
    (settled : normalize n = n) (hne : n ≠ []) : IsFull n ∨ ∃ a u m, n = a ++ '|' :: u ∧
      (Nesting.outside.run n).topLevel ∧ unionMembers n = [m] ∧ m ∈ unionMembers a := by
  obtain ⟨c, r, rfl⟩ := List.exists_cons_of_ne_nil hne
  obtain ⟨hc, noBar⟩ := head_of_normalize_eq settled
  obtain ⟨a, as, ha⟩ := Nesting.exists_cuts (· == '|') .outside (c :: r)
  cases as with
  | nil =>
    left
    intro p hp
    rw [ha, List.mem_singleton, Nesting.eq_of_cuts_singleton ha] at hp
    rw [hp, Text.blank_cons, hc, Bool.false_and]
  | cons b bs =>
    right
    obtain ⟨d, u, cut, closed, hd, -⟩ := Nesting.exists_of_cuts (opensNothing_of_beq (by decide)) ha
    obtain rfl := beq_iff_eq.1 hd
    have members : unionMembers (c :: r) = unionMembers a ++ unionMembers u := by
      rw [unionMembers_eq, cut, parts_append (opensNothing_of_beq (by decide)) closed rfl,
        ← unionMembers_eq, ← unionMembers_eq]
    have some : unionMembers a ≠ [] := by
      cases a with
      | nil => exact absurd (List.cons.inj cut).1 noBar
      | cons e a =>
        obtain ⟨rfl, -⟩ := List.cons.inj cut
        exact unionMembers_cons_ne_nil hc noBar a
    obtain ⟨m, ms, hm⟩ := List.exists_cons_of_ne_nil some
    obtain ⟨rfl, none⟩ : ms = [] ∧ unionMembers u = [] := by
      rw [members, hm, List.cons_append, List.length_cons] at few
      exact List.append_eq_nil_iff.1 (List.length_eq_zero_iff.1 (by omega))
    have plain : ∀ e ∈ '|' :: u, isPlain e := List.forall_mem_cons.2 ⟨by decide, fun e he =>
      (isBlank_of_unionMembers_eq_nil none e he).elim isPlain_of_isBlank (by rintro rfl; decide)⟩
    refine ⟨a, u, m, cut, ?_, by rw [members, hm, none]; rfl, hm ▸ List.mem_singleton_self m⟩
    rw [cut, Nesting.run_append]
    exact Nesting.topLevel_run_plain plain closed

theorem isFull_of_orNullish {n word : Text} (few : (unionMembers n).length ≤ 1)
    (settled : normalize n = n) (hword : word ∈ nullishWords)
    (h : normalize (orNullish n word) = orNullish n word) : IsFull n := by
  have hne : n ≠ [] := by
    rintro rfl
    cases (head_of_normalize_eq h).1
  refine (isFull_or_exists_bar few settled hne).resolve_right ?_
  rintro ⟨a, u, m, cut, closed, members, hm⟩
  have two := unionMembers_orNullish closed hword
  have collapsed : ∀ w ∈ nullishWords, Text.collapse w = w := by decide +kernel
  rw [members] at two
  rw [normalize_of_two (by rw [two]; exact Nat.le_refl 2), two] at h
  -- The union is written with the only member of `n` for `n`, so `n` would be no longer than it.
  have ends : m.collapse ++ (" | ".toList ++ word) = n ++ (" | ".toList ++ word) := by
    simpa [union, Text.join, orNullish, collapsed word hword] using h
  have same : m.collapse = n := List.append_cancel_right ends
  have smaller : solid m ≤ solid a := solid_le_of_mem_parts (by decide) hm
  have counted : solid m = solid (a ++ '|' :: u) := by rw [← cut, ← same, solid_collapse]
  rw [solid_append, solid_cons, if_neg (by decide)] at counted
  omega

/-- A normal form is full exactly if it is settled, and so are the unions of it with `null` and with
`undefined`, unless it is nullable itself. -/
theorem isFull_normalize_iff {t : Text} : IsFull (normalize t) ↔
    normalize (normalize t) = normalize t ∧ ((splitNullish (normalize t)).2 = false →
      ∀ w ∈ nullishWords, normalize (orNullish (normalize t) w) = orNullish (normalize t) w) := by
  constructor
  · intro full
    have settled := normalize_normalize_iff.2 full.head?_ne
    exact ⟨settled, fun _ w hw => by rw [normalize_orNullish full hw, settled]⟩
  · rintro ⟨settled, forms⟩
    by_cases few : (unionMembers t).length ≤ 1
    · have few' : (unionMembers (normalize t)).length ≤ 1 := by
        rwa [unionMembers_normalize, List.length_map]
      have bare := congrArg Prod.snd (splitNullish_of_few few')
      exact isFull_of_orNullish few' settled List.mem_cons_self (forms bare _ List.mem_cons_self)
    · exact isFull_normalize (by omega)

end TypeText

namespace TypeTable

open TypeText

theorem mem_entries_iff {m : TypeTable} {e : Text × Text} :
    e ∈ m.entries ↔ m.lookup? e.1 = some e.2 := by
  rw [entries, List.mem_mergeSort, ← NameTable.get?_eq_some_iff,
    NameTable.get?_foldl_put m.overrides.distinct, lookup?]
  rfl

theorem isSome_get?_putForms (es : List (Text × Text)) (m : NameTable Text) (k : Text) :
    (NameTable.get? (es.foldl putForms m) k).isSome ↔ (m.get? k).isSome ∨
      ∃ e ∈ es, k = e.1 ∨ ∃ w ∈ nullishWords, k = orNullish e.1 w := by
  induction es generalizing m with
  | nil => simp
  | cons e es ih =>
    rw [List.foldl_cons, ih, List.exists_mem_cons_iff, ← or_assoc]
    refine or_congr_left ?_
    rw [show e = (e.1, e.2) from rfl, get?_putForms]
    split
    · simp_all
    · split <;> simp_all

/-- What a table has entries for: the given types, their nullable spellings unless they are nullable
themselves, and what the built-in table knows. -/
theorem isSome_lookup?_ofEntries {entries : List (Text × Text)} {k : Text} :
    ((ofEntries entries).lookup? k).isSome ↔ (builtin.get? k).isSome ∨
      ∃ e ∈ entries, k = normalize e.1 ∨ ((splitNullish (normalize e.1)).2 = false ∧
        ∃ w ∈ nullishWords, k = orNullish (normalize e.1) w) := by
  have given : (NameTable.get? (.ofList (normalizedEntries entries)) k).isSome ↔
      ∃ e ∈ entries, k = normalize e.1 := by
    rw [NameTable.get?_ofList, Option.isSome_map, List.find?_isSome, normalizedEntries]
    simp only [List.mem_reverse, List.mem_map, exists_exists_and_eq_and, beq_iff_eq,
      eq_comm (a := k)]
  rw [lookup?, Option.isSome_or, Bool.or_eq_true, or_comm, overrides_ofEntries,
    isSome_get?_putForms, given]
  refine or_congr_right ⟨?_, ?_⟩
  · rintro (⟨e, he, hk⟩ | ⟨e, he, hk⟩)
    · exact ⟨e, he, .inl hk⟩
    · obtain ⟨mem, bare⟩ := List.mem_filter.1 he
      obtain ⟨e, given, rfl⟩ := List.mem_map.1 mem
      exact ⟨e, given, hk.imp_right fun forms => ⟨by simpa using bare, forms⟩⟩
  · rintro ⟨e, he, hk | ⟨bare, forms⟩⟩
    · exact .inl ⟨e, he, hk⟩
    · exact .inr ⟨(normalize e.1, e.2),
        List.mem_filter.2 ⟨List.mem_map_of_mem he, by simpa using bare⟩, .inr forms⟩

theorem normalize_of_builtin {k : Text} (h : (builtin.get? k).isSome) : normalize k = k := by
  have sources : ∀ e ∈ primitives, IsFull e.1 ∧ normalize e.1 = e.1 := by decide +kernel
  rcases (isSome_get?_putForms primitives .empty k).1 h with h | ⟨e, he, rfl | ⟨w, hw, rfl⟩⟩
  · cases h
  · exact (sources e he).2
  · rw [normalize_orNullish (sources e he).1 hw, (sources e he).2]

/-- Every source that a table lists is its own normal form exactly if the normal forms of the given
sources are full. -/
theorem settled_entries_iff {entries : List (Text × Text)} :
    (∀ e ∈ (ofEntries entries).entries, normalize e.1 = e.1) ↔
      ∀ e ∈ entries, IsFull (normalize e.1) := by
  have listed : (∀ e ∈ (ofEntries entries).entries, normalize e.1 = e.1) ↔
      ∀ k, ((ofEntries entries).lookup? k).isSome → normalize k = k := by
    simp only [mem_entries_iff, Option.isSome_iff_exists]
    exact ⟨fun h k ⟨r, hr⟩ => h (k, r) hr, fun h e he => h e.1 ⟨e.2, he⟩⟩
  simp only [listed, isSome_lookup?_ofEntries, isFull_normalize_iff]
  constructor
  · exact fun h e he => ⟨h _ (.inr ⟨e, he, .inl rfl⟩),
      fun bare w hw => h _ (.inr ⟨e, he, .inr ⟨bare, w, hw, rfl⟩⟩)⟩
  · rintro h k (known | ⟨e, he, rfl | ⟨bare, w, hw, rfl⟩⟩)
    · exact normalize_of_builtin known
    · exact (h e he).1
    · exact (h e he).2 bare w hw

/-- Normalizing twice is normalizing once where the normal form begins with no bar. What a table
lists under its normal form is found again, and that is all of it exactly if the normal forms of the
given sources have no empty members. -/
theorem target_of_mem_entries (entries : List (Text × Text)) :
    (∀ t, normalize (normalize t) = normalize t ↔ (normalize t).head? ≠ some '|') ∧
    (∀ e ∈ (ofEntries entries).entries, normalize e.1 = e.1 →
      (ofEntries entries).target e.1 = e.2) ∧
    ((∀ e ∈ (ofEntries entries).entries, normalize e.1 = e.1) ↔
      ∀ e ∈ entries, IsFull (normalize e.1)) := by
  refine ⟨fun _ => normalize_normalize_iff, fun e he settled => ?_, settled_entries_iff⟩
  refine target_of_lookup? ?_
  rw [settled, mem_entries_iff.1 he]

/-- A bar first, a bar last in a union, and a type that is nullable itself. -/
theorem target_of_mem_entries_bars :
    let entries := [("| A".toList, ['X']), (" A|B |".toList, ['Y']), ("null|\tC".toList, ['Z'])]
    (∀ e ∈ entries, IsFull (normalize e.1)) ∧
    ("A | B | undefined".toList, "Y?".toList) ∈ (ofEntries entries).entries ∧
    ∀ e ∈ (ofEntries entries).entries, (ofEntries entries).target e.1 = e.2 := by
  intro entries
  have full : ∀ e ∈ entries, IsFull (normalize e.1) := by decide +kernel
  obtain ⟨-, found, settled⟩ := target_of_mem_entries entries
  refine ⟨full, ?_, fun e he => found e he (settled.2 full e he)⟩
  rw [mem_entries_iff]
  decide +kernel

/-- With two bars before it, a type is only normalized the second time, and its entry is listed
under a source that is not found. -/
theorem not_target_of_mem_entries : (¬∀ t, normalize (normalize t) = normalize t) ∧
    ¬∀ entries, ∀ e ∈ (ofEntries entries).entries, (ofEntries entries).target e.1 = e.2 := by
  constructor
  · intro h
    have twice : normalize (normalize "| | A".toList) = ['A'] := by decide +kernel
    have once : normalize "| | A".toList = "| A".toList := by decide +kernel
    rw [h, once] at twice
    cases twice
  · intro h
    have listed : ("| A".toList, ['X']) ∈ (ofEntries [("| | A".toList, ['X'])]).entries := by
      rw [mem_entries_iff]
      decide +kernel
    have kept : (ofEntries [("| | A".toList, ['X'])]).target "| A".toList = "| A".toList := by
      decide +kernel
    have found := h _ _ listed
    rw [kept] at found
    cases found

end TypeTable

end WebSurface
