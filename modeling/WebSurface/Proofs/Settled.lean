import WebSurface.Proofs.MappedParts
import WebSurface.Proofs.MappedUnions
set_option autoImplicit false

namespace WebSurface

namespace Text

theorem head?_dense (t : Text) :
    t.dense.head? = t.head?.map fun c => if isBlank c then ' ' else c := by
  fun_induction dense t with
  | case1 => rfl
  | case2 c r hc hr ih =>
    cases r with
    | nil => cases hr
    | cons d r =>
      have hd : isBlank d := hr
      rw [ih]
      simp [hc, hd]
  | case3 c r hc _ _ => simp [hc]
  | case4 c r hc _ => simp [hc]

theorem head?_dense_eq_some_iff {d : Char} (hd : isBlank d = false) {t : Text} :
    t.dense.head? = some d ↔ t.head? = some d := by
  have space : ' ' ≠ d := by
    rintro rfl
    cases hd
  cases t with
  | nil => rfl
  | cons c r =>
    rw [head?_dense]
    cases hc : isBlank c
    · simp [hc]
    · have : c ≠ d := by
        rintro rfl
        rw [hc] at hd
        cases hd
      simp [hc, space, this]

theorem dropWhile_eq_self {d : Char} {t : Text} (h : t.head? ≠ some d) :
    t.dropWhile (· == d) = t := by
  cases t with
  | nil => rfl
  | cons c r => exact List.dropWhile_cons_of_neg (by simpa using h)

theorem dense_dropWhile {d : Char} (hd : isBlank d = false) (t : Text) :
    dense (t.dropWhile (· == d)) = t.dense.dropWhile (· == d) := by
  induction t with
  | nil => rfl
  | cons c r ih =>
    by_cases hc : c = d
    · subst hc
      rw [dense_solid hd, List.dropWhile_cons_of_pos (by simp), ih,
        List.dropWhile_cons_of_pos (by simp)]
    · have first : (c :: r).head? ≠ some d := by simpa using hc
      rw [dropWhile_eq_self first, dropWhile_eq_self (mt (head?_dense_eq_some_iff hd).1 first)]

end Text

namespace TypeText

theorem normalize_blank {t : Text} (h : t.blank) : normalize t = [] := by
  have empty : t.collapse = [] := by rw [Text.collapse, Text.trimStart_blank h, Text.squeeze]
  rw [normalize, empty]
  rfl

theorem solid_normalize_lt {t : Text} (h : t.head? = some '|') : solid (normalize t) < solid t := by
  obtain ⟨r, rfl⟩ := List.head?_eq_some_iff.1 h
  have bar : Text.isBlank '|' = false := rfl
  have bare := solid_normalize_le_bare ('|' :: r)
  rw [Text.collapse, Text.trimStart_cons bar, Text.squeeze_solid bar,
    List.dropWhile_cons_of_pos (by simp)] at bare
  have rest := solid_dropWhile_le (· == '|') (Text.squeeze r)
  rw [solid_squeeze] at rest
  rw [solid_cons, bar]
  exact Nat.lt_succ_of_le (Nat.le_trans bare rest)

theorem head?_ne_of_normalize_eq {t : Text} (h : normalize t = t) : t.head? ≠ some '|' := by
  intro bar
  have smaller := solid_normalize_lt bar
  rw [h] at smaller
  exact Nat.lt_irrefl _ smaller

/-- Normalizing once more changes a type exactly if its normal form begins with a bar. -/
theorem normalize_normalize_iff {t : Text} :
    normalize (normalize t) = normalize t ↔ (normalize t).head? ≠ some '|' := by
  refine ⟨head?_ne_of_normalize_eq, fun noBar => ?_⟩
  by_cases few : (unionMembers t).length ≤ 1
  · -- What is no union keeps its bars at the end: only one at the start could still be taken away.
    have again : (unionMembers (normalize t)).length ≤ 1 := by
      rwa [unionMembers_normalize, List.length_map]
    have collapsed : (normalize t).collapse = normalize t := by
      rw [normalize_alone few, Text.collapse_trim, Text.collapse_eq, Text.dense_dropWhile rfl,
        Text.dense_of_collapse (Text.collapse_collapse t)]
    rw [normalize_alone again, collapsed, Text.dropWhile_eq_self noBar,
      Text.trim_of_collapse collapsed]
  · exact normalize_normalize (by omega)

@[simp] theorem trim_normalize (t : Text) : (normalize t).trim = normalize t := by
  by_cases few : (unionMembers t).length ≤ 1
  · rw [normalize_alone few, Text.trim_trim]
  · have members := unionMembers_normalize t
    rw [normalize_of_two (by omega), ← members]
    exact (Text.trim_join _ fun m hm =>
      ⟨trim_of_mem_unionMembers hm, ne_nil_of_mem_unionMembers hm⟩).1

/-- Cutting at a character that is not white space loses that character and nothing else. -/
theorem weight_cuts {p : Char → Bool} (hp : ∀ c, p c → Text.isBlank c = false) (s : Nesting)
    (t : Text) : weight (s.cuts p t) = solid t + 1 := by
  induction t generalizing s with
  | nil => rfl
  | cons c r ih =>
    have rest := ih (s.step c)
    rw [Nesting.cuts]
    split
    · rename_i hc
      rw [weight_cons, rest, solid_cons, hp c (Bool.and_eq_true_iff.1 hc).2, solid_nil]
      simp +arith
    · obtain ⟨a, as, ha⟩ := Nesting.exists_cuts p (s.step c) r
      rw [ha, weight_cons] at rest
      rw [ha, List.modifyHead_cons, weight_cons, solid_cons, solid_cons]
      omega

theorem weight_tidy (ts : List Text) : weight (tidy ts) + ts.countP Text.blank = weight ts := by
  induction ts with
  | nil => rfl
  | cons t ts ih =>
    rw [tidy_cons, List.countP_cons, weight_cons]
    cases ht : t.blank with
    | false =>
      simp
      omega
    | true =>
      have none : solid t = 0 := by
        rw [solid, List.countP_eq_zero]
        intro c hc
        simpa using Text.isBlank_of_mem ht hc
      simp [none]
      omega

theorem isFull_iff {t : Text} : IsFull t ↔ weight (unionMembers t) = solid t + 1 := by
  have whole := weight_cuts (p := (· == '|')) (isBlank_of_beq (by decide)) .outside t
  have kept := weight_tidy (Nesting.outside.cuts (· == '|') t)
  have none : IsFull t ↔ (Nesting.outside.cuts (· == '|') t).countP Text.blank = 0 := by
    simp [IsFull, List.countP_eq_zero]
  rw [none, unionMembers_eq, parts]
  omega

theorem isFull_union {ms : List Text} (hne : ms ≠ []) (whole : unionMembers (union ms) = ms) :
    IsFull (union ms) := by
  obtain ⟨m, ms, rfl⟩ := List.exists_cons_of_ne_nil hne
  rw [isFull_iff, whole]
  exact (solid_union m ms).symm

theorem isFull_of_union {t : Text} (some : unionMembers t ≠ [])
    (h : normalize t = union ((unionMembers t).map Text.collapse)) : IsFull (normalize t) := by
  have members := unionMembers_normalize t
  rw [h] at members ⊢
  exact isFull_union (mt List.map_eq_nil_iff.1 some) members

/-- The normal form of a union has no empty member, whatever the union was. -/
theorem isFull_normalize {t : Text} (h : 2 ≤ (unionMembers t).length) : IsFull (normalize t) :=
  isFull_of_union (List.ne_nil_of_length_pos (by omega)) (normalize_of_two h)

namespace IsFull

variable {t : Text} (h : IsFull t)

include h

theorem head?_ne : t.head? ≠ some '|' := by
  intro bar
  obtain ⟨r, rfl⟩ := List.head?_eq_some_iff.1 bar
  have first : [] ∈ Nesting.outside.cuts (· == '|') ('|' :: r) := by
    rw [Nesting.cuts]
    exact List.mem_cons_self
  cases h [] first

theorem normalize : IsFull (normalize t) := by
  refine isFull_of_union ?_ h.normalize_eq
  obtain ⟨a, as, ha⟩ := Nesting.exists_cuts (· == '|') .outside t
  rw [h.unionMembers_eq, ha]
  exact List.cons_ne_nil _ _

theorem settled : TypeText.normalize (TypeText.normalize t) = TypeText.normalize t :=
  normalize_normalize_iff.2 h.normalize.head?_ne

end IsFull

/-- No bar at top level stands first, last or right after another one. -/
def BarsBetween (t : Text) : Prop := t.blank ∨ IsFull t

instance : DecidablePred BarsBetween := fun _ => inferInstanceAs (Decidable (_ ∨ _))

theorem BarsBetween.settled {t : Text} (h : BarsBetween t) :
    normalize (normalize t) = normalize t := by
  rcases h with blank | full
  · rw [normalize_blank blank]
    rfl
  · exact full.settled

theorem BarsBetween.splitNullish_normalize {t : Text} (h : BarsBetween t) :
    splitNullish (normalize t) = splitNullish t := by
  rw [splitNullish, h.settled, ← splitNullish]

section Members

variable {t : Text}

theorem normalize_union_properMembers :
    normalize (union (properMembers (normalize t))) = union (properMembers (normalize t)) := by
  have members := unionMembers_union_properMembers (t := normalize t)
  have collapsed :
      (properMembers (normalize t)).map Text.collapse = properMembers (normalize t) := by
    rw [properMembers_normalize, List.map_map]
    exact List.map_congr_left fun m _ => Text.collapse_collapse m
  by_cases none : properMembers (normalize t) = []
  · rw [none]
    rfl
  · rw [(isFull_union none members).normalize_eq, members, collapsed]

theorem splitNullish_fst_snd (t : Text) : (splitNullish (splitNullish t).1).2 = false := by
  rw [splitNullish_snd]
  cases hadmits : admitsNullish t with
  | false => rw [splitNullish_of_not_admitsNullish hadmits, admitsNullish_normalize, hadmits]
  | true =>
    rw [splitNullish_of_admitsNullish hadmits, ← properMembers_normalize, admitsNullish,
      unionMembers_union_properMembers, Bool.and_eq_false_iff, List.any_eq_false]
    exact .inl fun m hm => by simpa using (List.mem_filter.1 hm).2

theorem BarsBetween.normalize_fst (h : BarsBetween t) :
    normalize (splitNullish t).1 = (splitNullish t).1 := by
  cases hadmits : admitsNullish t with
  | false => rw [splitNullish_of_not_admitsNullish hadmits, h.settled]
  | true =>
    rw [splitNullish_of_admitsNullish hadmits, ← properMembers_normalize,
      normalize_union_properMembers]

end Members

end TypeText

end WebSurface
