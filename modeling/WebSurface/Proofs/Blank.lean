import WebSurface.Text
set_option autoImplicit false

namespace WebSurface.Text

@[simp] theorem blank_nil : blank [] = true := rfl

@[simp] theorem blank_cons (c : Char) (r : Text) : blank (c :: r) = (isBlank c && blank r) := rfl

@[simp] theorem blank_append (a b : Text) : blank (a ++ b) = (blank a && blank b) := by
  simp [blank]

theorem isBlank_of_mem {w : Text} (hw : blank w) {c : Char} (hc : c ∈ w) : isBlank c :=
  List.all_eq_true.1 hw c hc

theorem trimStart_append {w : Text} (hw : blank w) (t : Text) :
    trimStart (w ++ t) = trimStart t :=
  List.dropWhile_append_of_pos fun _ hc => isBlank_of_mem hw hc

theorem trimStart_blank {w : Text} (hw : blank w) : trimStart w = [] := by
  simpa [trimStart] using trimStart_append hw []

theorem trimStart_cons {c : Char} (hc : isBlank c = false) (r : Text) :
    trimStart (c :: r) = c :: r := by
  simp [trimStart, hc]

theorem exists_trimStart (t : Text) : ∃ w, blank w ∧ t = w ++ trimStart t := by
  refine ⟨t.takeWhile isBlank, ?_, List.takeWhile_append_dropWhile.symm⟩
  exact List.all_takeWhile

theorem trimStart_eq_nil_iff {t : Text} : trimStart t = [] ↔ blank t := by
  constructor
  · intro h
    obtain ⟨w, hw, ht⟩ := exists_trimStart t
    rw [h, List.append_nil] at ht
    exact ht ▸ hw
  · exact trimStart_blank

theorem trimStart_append_solid {c : Char} (hc : isBlank c = false) (u r : Text) :
    trimStart (u ++ c :: r) = trimStart u ++ c :: r := by
  by_cases hu : blank u
  · rw [trimStart_append hu, trimStart_blank hu, trimStart_cons hc]
    rfl
  · obtain ⟨v, hv, ht⟩ := exists_trimStart u
    have hne : (trimStart u).isEmpty = false := by
      rw [List.isEmpty_eq_false_iff, ne_eq, trimStart_eq_nil_iff]
      exact hu
    rw [trimStart, List.dropWhile_append]
    simp only [trimStart] at hne ⊢
    rw [hne]
    rfl

theorem blank_reverse (t : Text) : blank t.reverse = blank t := by simp [blank]

theorem dropEndWhile_eq_self {p : Char → Bool} {t : Text} (h : ∀ c ∈ t.getLast?, p c = false) :
    dropEndWhile p t = t := by
  rcases List.eq_nil_or_concat t with rfl | ⟨x, c, rfl⟩
  · rfl
  · rw [List.concat_eq_append] at h ⊢
    have hc : p c = false := h c (by simp)
    simp [dropEndWhile, hc]

theorem dropEndWhile_append_cons {p : Char → Bool} {c : Char} (hc : p c = false) (u r : Text) :
    dropEndWhile p (u ++ c :: r) = u ++ c :: dropEndWhile p r := by
  have turned : (u ++ c :: r).reverse = r.reverse ++ c :: u.reverse := by simp
  rw [dropEndWhile, turned, List.dropWhile_append, List.dropWhile_cons_of_neg (by simp [hc]),
    dropEndWhile]
  cases List.dropWhile p r.reverse with
  | nil => simp
  | cons d s => simp

theorem dropEndWhile_concat {p : Char → Bool} {c : Char} (hc : p c) (t : Text) :
    dropEndWhile p (t ++ [c]) = dropEndWhile p t := by
  simp [dropEndWhile, hc]

theorem blank_dropEndWhile {w : Text} (hw : blank w) (p : Char → Bool) :
    blank (dropEndWhile p w) := by
  rw [dropEndWhile, blank_reverse]
  exact List.all_eq_true.2 fun c hc =>
    isBlank_of_mem hw (List.mem_reverse.1 (List.dropWhile_subset p hc))

theorem trimEnd_eq (t : Text) : trimEnd t = (trimStart t.reverse).reverse := rfl

theorem trimEnd_append {w : Text} (hw : blank w) (t : Text) : trimEnd (t ++ w) = trimEnd t := by
  have h := trimStart_append (t := t.reverse) (by rwa [blank_reverse] : blank w.reverse)
  rw [trimEnd_eq, trimEnd_eq, List.reverse_append, h]

theorem exists_trimEnd (t : Text) : ∃ w, blank w ∧ t = trimEnd t ++ w := by
  obtain ⟨w, hw, ht⟩ := exists_trimStart t.reverse
  refine ⟨w.reverse, by rwa [blank_reverse], ?_⟩
  simpa [trimEnd_eq] using congrArg List.reverse ht

theorem trimEnd_eq_nil_iff {t : Text} : trimEnd t = [] ↔ blank t := by
  rw [trimEnd_eq, List.reverse_eq_nil_iff, trimStart_eq_nil_iff, blank_reverse]

theorem trimEnd_append_of_not_blank (x : Text) {t : Text} (ht : blank t = false) :
    trimEnd (x ++ t) = x ++ trimEnd t := by
  have h : (List.dropWhile isBlank t.reverse).isEmpty = false := by
    cases hd : List.dropWhile isBlank t.reverse with
    | nil => rw [← blank_reverse, trimStart_eq_nil_iff.1 hd] at ht; cases ht
    | cons => rfl
  simp [trimEnd, dropEndWhile, List.dropWhile_append, h]

theorem trimEnd_append_solid {c : Char} (hc : isBlank c = false) (t : Text) :
    trimEnd (t ++ [c]) = t ++ [c] := by
  have hb : blank [c] = false := by simp [hc]
  rw [trimEnd_append_of_not_blank t hb, trimEnd_eq, List.reverse_singleton, trimStart_cons hc,
    List.reverse_singleton]

theorem trimEnd_cons_solid {c : Char} (hc : isBlank c = false) (r : Text) :
    trimEnd (c :: r) = c :: trimEnd r := by
  by_cases hr : blank r
  · have := trimEnd_append hr [c]
    rw [trimEnd_eq_nil_iff.2 hr]
    exact this.trans (trimEnd_append_solid hc [])
  · exact trimEnd_append_of_not_blank [c] (Bool.eq_false_iff.2 hr)

theorem trimEnd_append_solids {a : Text} (ha : ∀ c ∈ a, isBlank c = false) (b : Text) :
    trimEnd (a ++ b) = a ++ trimEnd b := by
  induction a with
  | nil => rfl
  | cons c a ih =>
    obtain ⟨hc, ha⟩ := List.forall_mem_cons.1 ha
    rw [List.cons_append, trimEnd_cons_solid hc, ih ha]
    rfl

theorem trimEnd_solids {a : Text} (ha : ∀ c ∈ a, isBlank c = false) : trimEnd a = a := by
  have := trimEnd_append_solids ha []
  rwa [show trimEnd [] = [] from rfl, List.append_nil] at this

theorem trimStart_solids {a : Text} (ha : ∀ c ∈ a, isBlank c = false) (hne : a ≠ []) (b : Text) :
    trimStart (a ++ b) = a ++ b := by
  cases a with
  | nil => exact absurd rfl hne
  | cons c a => exact trimStart_cons (ha c List.mem_cons_self) _

theorem trim_append_solids {a : Text} (ha : ∀ c ∈ a, isBlank c = false) (hne : a ≠ [])
    (b : Text) : trim (a ++ b) = a ++ trimEnd b := by
  rw [trim, trimStart_solids ha hne, trimEnd_append_solids ha]

theorem trim_eq_nil_iff {t : Text} : trim t = [] ↔ blank t := by
  rw [trim, trimEnd_eq_nil_iff]
  obtain ⟨w, hw, ht⟩ := exists_trimStart t
  conv => rhs; rw [ht, blank_append, hw, Bool.true_and]

theorem trim_append_left {w : Text} (hw : blank w) (t : Text) : trim (w ++ t) = trim t := by
  rw [trim, trim, trimStart_append hw]

theorem trim_append_right {w : Text} (hw : blank w) (t : Text) : trim (t ++ w) = trim t := by
  by_cases ht : blank t
  · rw [trim_append_left ht, trim_eq_nil_iff.2 hw, trim_eq_nil_iff.2 ht]
  · obtain ⟨v, hv, e⟩ := exists_trimStart t
    have hs : trimStart (t ++ w) = trimStart t ++ w := by
      have hn : (trimStart t).isEmpty = false := by
        cases h : trimStart t with
        | nil => exact absurd (trimStart_eq_nil_iff.1 h) ht
        | cons => rfl
      rw [trimStart, List.dropWhile_append]
      simp [trimStart] at hn ⊢
      simp [hn]
    rw [trim, trim, hs, trimEnd_append hw]

theorem exists_trim (t : Text) : ∃ v w, blank v ∧ blank w ∧ t = v ++ trim t ++ w := by
  obtain ⟨v, hv, ht⟩ := exists_trimStart t
  obtain ⟨w, hw, hs⟩ := exists_trimEnd (trimStart t)
  exact ⟨v, w, hv, hw, by rw [trim, List.append_assoc, ← hs, ← ht]⟩

theorem trim_trimEnd (t : Text) : trim (trimEnd t) = trim t := by
  obtain ⟨w, hw, ht⟩ := exists_trimEnd t
  conv => rhs; rw [ht, trim_append_right hw]

theorem length_trim_le (t : Text) : (trim t).length ≤ t.length := by
  obtain ⟨v, w, -, -, ht⟩ := exists_trim t
  have := congrArg List.length ht
  simp only [List.length_append] at this
  omega

@[simp] theorem trim_trim (t : Text) : trim (trim t) = trim t := by
  obtain ⟨v, w, hv, hw, ht⟩ := exists_trim t
  conv => rhs; rw [ht, trim_append_right hw, trim_append_left hv]

@[simp] theorem trimStart_trim (t : Text) : trimStart (trim t) = trim t := by
  have shorter : (trimEnd (trimStart (trim t))).length ≤ (trimStart (trim t)).length := by
    have := (List.dropWhile_sublist isBlank (l := (trimStart (trim t)).reverse)).length_le
    rwa [List.length_reverse, ← List.length_reverse] at this
  have same : trimEnd (trimStart (trim t)) = trim t := trim_trim t
  rw [same] at shorter
  exact (List.dropWhile_sublist isBlank).eq_of_length_le shorter

theorem isBlank_head_trimStart {t r : Text} {c : Char} (h : trimStart t = c :: r) :
    isBlank c = false := by
  have hs : trimStart (c :: r) = c :: r := by
    obtain ⟨w, hw, ht⟩ := exists_trimStart t
    rw [← h, ← trimStart_append hw, ← ht]
  cases hc : isBlank c with
  | false => rfl
  | true =>
    have hr := trimStart_append (w := [c]) (by simp [hc]) r
    have hl := (List.dropWhile_sublist isBlank (l := r)).length_le
    rw [List.singleton_append, hs] at hr
    have := congrArg List.length hr
    simp only [List.length_cons, trimStart] at this
    omega

theorem isBlank_ends_trim {t : Text} :
    (∀ c, (trim t).head? = some c → isBlank c = false) ∧
      ∀ c, (trim t).getLast? = some c → isBlank c = false := by
  constructor
  · intro c hc
    obtain ⟨s, hs⟩ := List.head?_eq_some_iff.1 hc
    exact isBlank_head_trimStart (r := s) ((trimStart_trim t).trans hs)
  · intro c hc
    rw [trim, trimEnd_eq, List.getLast?_reverse] at hc
    obtain ⟨s, hs⟩ := List.head?_eq_some_iff.1 hc
    exact isBlank_head_trimStart hs

theorem trim_eq_self {t : Text} (head : ∀ c ∈ t.head?, isBlank c = false)
    (last : ∀ c ∈ t.getLast?, isBlank c = false) : trim t = t := by
  have start : trimStart t = t := by
    cases t with
    | nil => rfl
    | cons c r => exact trimStart_cons (head c rfl) r
  rw [trim, start]
  exact dropEndWhile_eq_self last

/-- Between two texts without white space around them, anything may stand. -/
theorem trim_between {a b : Text} (ha : trim a = a) (hb : trim b = b) (hane : a ≠ [])
    (hbne : b ≠ []) (x : Text) : trim (a ++ x ++ b) = a ++ x ++ b := by
  obtain ⟨d, hd⟩ := Option.ne_none_iff_exists'.1 (mt List.head?_eq_none_iff.1 hane)
  obtain ⟨e, he⟩ := Option.ne_none_iff_exists'.1 (mt List.getLast?_eq_none_iff.1 hbne)
  apply trim_eq_self
  · intro c hc
    rw [List.append_assoc, List.head?_append, hd, Option.some_or, ← hd, ← ha] at hc
    exact isBlank_ends_trim.1 c hc
  · intro c hc
    rw [List.getLast?_append, he, Option.some_or, ← he, ← hb] at hc
    exact isBlank_ends_trim.2 c hc

end WebSurface.Text
