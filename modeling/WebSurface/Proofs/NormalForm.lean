import WebSurface.Proofs.WrittenUnion
set_option autoImplicit false

namespace WebSurface

namespace Text

theorem startsBlank_dense (t : Text) : startsBlank t.dense = startsBlank t := by
  fun_induction dense t with
  | case1 => rfl
  | case2 c r hc hr ih => rw [ih, hr]; exact hc.symm
  | case3 c r hc _ _ => exact hc.symm
  | case4 c r _ _ => rfl

@[simp] theorem dense_dense (t : Text) : t.dense.dense = t.dense := by
  fun_induction dense t with
  | case1 => rfl
  | case2 c r _ _ ih => exact ih
  | case3 c r _ hr ih => rw [dense_blank rfl (by rwa [startsBlank_dense, Bool.eq_false_iff]), ih]
  | case4 c r hc ih => rw [dense_solid (Bool.eq_false_iff.2 hc), ih]

@[simp] theorem collapse_collapse (t : Text) : t.collapse.collapse = t.collapse := by
  rw [collapse_eq t, collapse_trim, collapse_eq, dense_dense]

@[simp] theorem trim_collapse (t : Text) : t.collapse.trim = t.collapse := by
  rw [collapse_eq, trim_trim]

theorem trim_join (sep : Text) {ts : List Text} (h : ∀ t ∈ ts, t.trim = t ∧ t ≠ []) :
    (join sep ts).trim = join sep ts ∧ (ts ≠ [] → join sep ts ≠ []) := by
  induction ts with
  | nil => exact ⟨rfl, fun h => absurd rfl h⟩
  | cons t ts ih =>
    obtain ⟨⟨ht, hne⟩, hts⟩ := List.forall_mem_cons.1 h
    cases ts with
    | nil => exact ⟨ht, fun _ => hne⟩
    | cons u us =>
      obtain ⟨trimmed, ne_nil⟩ := ih hts
      exact ⟨trim_between ht trimmed hne (ne_nil (List.cons_ne_nil u us)) sep, by simp [join, hne]⟩

theorem dense_append_blanks {w : Text} (hw : w.blank) (hne : w ≠ []) (t : Text) :
    dense (t ++ w) = squeeze t ++ [' '] := by
  have blanks : dense w = [' '] := by
    induction w with
    | nil => exact absurd rfl hne
    | cons c w ih =>
      rw [blank_cons, Bool.and_eq_true] at hw
      cases w with
      | nil => exact dense_blank hw.1 rfl
      | cons d w =>
        have hd : isBlank d := (Bool.and_eq_true_iff.1 hw.2).1
        rw [dense_blank_blank hw.1 (r := d :: w) hd]
        exact ih hw.2 (List.cons_ne_nil d w)
  obtain ⟨e, v, rfl⟩ := List.exists_cons_of_ne_nil hne
  rw [blank_cons, Bool.and_eq_true] at hw
  fun_induction squeeze t with
  | case1 => exact blanks
  | case2 c hc => rw [List.singleton_append, dense_blank_blank hc (r := e :: v) hw.1, blanks]; rfl
  | case3 c hc d r hd ih =>
    rw [List.cons_append, dense_blank_blank hc (r := d :: r ++ e :: v) hd]
    exact ih
  | case4 c hc d r hd ih =>
    have hd : isBlank d = false := Bool.eq_false_iff.2 hd
    rw [List.cons_append, dense_blank hc (r := d :: r ++ e :: v) hd]
    exact congrArg (' ' :: ·) ih
  | case5 c r hc ih =>
    rw [List.cons_append, dense_solid (Bool.eq_false_iff.2 hc), ih]
    rfl

theorem collapse_append {x w : Text} (hx : x.blank = false) (hw : w.blank = false) :
    collapse (x ++ ' ' :: w) = x.collapse ++ ' ' :: w.collapse := by
  obtain ⟨v, hv, hstart⟩ := exists_trimStart w
  cases hc : w.trimStart with
  | nil => rw [trimStart_eq_nil_iff.1 hc] at hw; cases hw
  | cons c r =>
    have solid : isBlank c = false := isBlank_head_trimStart hc
    have nonblank : blank (dense (c :: r)) = false := by
      rw [dense_solid solid, blank_cons, solid]
      rfl
    have right : w.collapse = trimEnd (dense (c :: r)) := by rw [collapse, hc, squeeze_eq]
    obtain ⟨u, hu, hxstart⟩ := exists_trimStart x
    have start : trimStart (x ++ ' ' :: w) = x.trimStart ++ (' ' :: v) ++ c :: r := by
      cases hd : x.trimStart with
      | nil => rw [trimStart_eq_nil_iff.1 hd] at hx; cases hx
      | cons d s =>
        have whole : x ++ ' ' :: w = u ++ d :: (s ++ ' ' :: v ++ c :: r) := by
          conv => lhs; rw [hxstart, hd, hstart, hc]
          simp
        rw [whole, trimStart_append hu, trimStart_cons (isBlank_head_trimStart hd)]
        simp
    have joined : dense (x.trimStart ++ (' ' :: v) ++ c :: r) =
        (x.collapse ++ [' ']) ++ dense (c :: r) := by
      rw [dense_append_cons solid, dense_append_blanks (w := ' ' :: v) (by rw [blank_cons, hv]; rfl)
        (List.cons_ne_nil _ _), dense_solid solid]
      rfl
    rw [right, collapse, start, squeeze_eq, joined, trimEnd_append_of_not_blank _ nonblank]
    simp

end Text

namespace Nesting

/-- Text that is cut after text that was cut before goes on with its last piece. -/
theorem cuts_append_eq (p : Char → Bool) (s : Nesting) (a b : Text) :
    cuts p s (a ++ b) = (cuts p s a).dropLast ++
      (cuts p (s.run a) b).modifyHead (((cuts p s a).getLast?.getD []) ++ ·) := by
  induction a generalizing s with
  | nil =>
    obtain ⟨x, xs, h⟩ := exists_cuts p s b
    simp [cuts, h]
  | cons c a ih =>
    obtain ⟨x, xs, h⟩ := exists_cuts p (s.step c) a
    obtain ⟨y, ys, hy⟩ := exists_cuts p ((s.step c).run a) b
    have rest := ih (s.step c)
    rw [h, hy] at rest
    rw [List.cons_append, cuts, rest, cuts, h, run_cons, hy]
    cases xs <;> split <;> simp

theorem cuts_eq_of_not_topLevel {p : Char → Bool} {s : Nesting}
    (hs : ∀ q ∈ s.literal?, isQuote q.1) (hout : s.topLevel = false) {t : Text}
    (ht : ∀ c ∈ t, isPlain c) : cuts p s t = [t] := by
  induction t generalizing s with
  | nil => rfl
  | cons c t ih =>
    obtain ⟨hc, ht⟩ := List.forall_mem_cons.1 ht
    have next : (s.step c).topLevel = false := by
      rw [Bool.eq_false_iff]
      intro h
      rw [topLevel_of_step hs hc h] at hout
      cases hout
    rw [cuts, hout, Bool.false_and, if_neg Bool.false_ne_true, ih (isQuote_step hs c) next ht]
    rfl

/-- A scan that finds nothing in white space finds the same with single spaces in its place. -/
theorem dense_congr {α : Type} {f : Nesting → Text → α}
    (blank : ∀ s c r, Text.isBlank c → f s (c :: r) = f (s.step c) r)
    (solid : ∀ s c r, f (s.step c) (Text.dense r) = f (s.step c) r →
      f s (c :: Text.dense r) = f s (c :: r))
    {s : Nesting} (hs : ∀ q ∈ s.literal?, isQuote q.1) (t : Text) : f s t.dense = f s t := by
  fun_induction Text.dense t generalizing s with
  | case1 => rfl
  | case2 c r hc hr ih =>
    cases r with
    | nil => cases hr
    | cons d r =>
      have quoted := step_blank hs hc ▸ isQuote_step hs c
      rw [ih hs, blank s c _ hc, blank s d r hr, blank _ d r hr, step_blank hs hc,
        step_blank hs hr, step_blank quoted hr, rested_rested]
  | case3 c r hc _ ih =>
    rw [blank s ' ' _ rfl, blank s c r hc, step_blank hs hc, step_blank hs (c := ' ') rfl]
    exact ih (step_blank hs hc ▸ isQuote_step hs c)
  | case4 c r _ ih => exact solid s c r (ih (isQuote_step hs c))

theorem run_dense {s : Nesting} (hs : ∀ q ∈ s.literal?, isQuote q.1) (t : Text) :
    s.run t.dense = s.run t :=
  dense_congr (f := run) (fun _ _ _ _ => rfl) (fun _ _ _ h => h) hs t

theorem closes_blank {s : Nesting} {c : Char} (hc : Text.isBlank c) : s.closes c = false :=
  closes_plain (isPlain_of_isBlank hc)

theorem opened_dense {s : Nesting} (hs : ∀ q ∈ s.literal?, isQuote q.1) (t : Text) :
    s.opened t.dense = s.opened t := by
  refine dense_congr (f := opened) (fun s c r hc => ?_) (fun s c r h => ?_) hs t
  · rw [opened, closes_blank hc]
    rfl
  · rw [opened, opened, h]

end Nesting

namespace Text

theorem balanced_trim {t : Text} : t.trim.Balanced ↔ t.Balanced := by
  obtain ⟨v, w, hv, hw, ht⟩ := exists_trim t
  conv => rhs; rw [ht, Balanced.append_plain_iff (isPlain_of_blank hw),
    Balanced.plain_append_iff (isPlain_of_blank hv)]

theorem balanced_dense {t : Text} : t.dense.Balanced ↔ t.Balanced := by
  have quoted : ∀ q ∈ Nesting.outside.literal?, isQuote q.1 := Nesting.isQuote_run_outside []
  rw [balanced_iff, balanced_iff, Nesting.opened_dense quoted, Nesting.run_dense quoted]

theorem balanced_collapse {t : Text} : t.collapse.Balanced ↔ t.Balanced := by
  rw [collapse_eq, balanced_trim, balanced_dense]

end Text

namespace TypeText

theorem normalize_of_two {t : Text} (h : 2 ≤ (unionMembers t).length) :
    normalize t = union ((unionMembers t).map Text.collapse) := by
  have members := unionMembers_bare t
  rw [normalize]
  split
  · rename_i a b ms hms
    rw [← hms, members]
  · rename_i hfew
    rw [members] at hfew
    rcases hms : unionMembers t with _ | ⟨a, _ | ⟨b, ms⟩⟩
    · rw [hms] at h; cases h
    · rw [hms] at h; exact absurd h (Nat.not_succ_le_self 1)
    · rw [hms] at hfew; exact absurd rfl (hfew _ _ _)

theorem normalize_alone {t : Text} (h : (unionMembers t).length ≤ 1) :
    normalize t = Text.trim (t.collapse.dropWhile (· == '|')) := by
  have members := congrArg List.length (unionMembers_bare t)
  rw [normalize]
  split
  · rename_i hms
    rw [hms, List.length_map] at members
    simp only [List.length_cons] at members
    omega
  · rfl

theorem normalize_normalize {t : Text} (h : 2 ≤ (unionMembers t).length) :
    normalize (normalize t) = normalize t := by
  have again : 2 ≤ (unionMembers (normalize t)).length := by
    rw [unionMembers_normalize, List.length_map]
    exact h
  have collapsed : (unionMembers t).map (Text.collapse ∘ Text.collapse) =
      (unionMembers t).map Text.collapse :=
    List.map_congr_left fun m _ => Text.collapse_collapse m
  rw [normalize_of_two again, unionMembers_normalize, List.map_map, collapsed, ← normalize_of_two h]

theorem IsFull.normalize_eq_cuts {t : Text} (h : IsFull t) :
    normalize t = union ((Nesting.outside.cuts (· == '|') t).map Text.collapse) := by
  rw [h.normalize_eq, h.unionMembers_eq, List.map_map]
  congr 1
  exact List.map_congr_left fun p _ => Text.collapse_trim p

theorem union_concat (ms : List Text) (hne : ms ≠ []) (m : Text) :
    union (ms ++ [m]) = union ms ++ " | ".toList ++ m := by
  induction ms with
  | nil => exact absurd rfl hne
  | cons a ms ih =>
    cases ms with
    | nil => rfl
    | cons b ms =>
      have rest := ih (List.cons_ne_nil b ms)
      simp only [union, List.cons_append, Text.join, List.append_assoc] at rest ⊢
      rw [rest]

/-- The last piece goes on up to a bar that is written after it, or beyond the bar if that is part
of a string or of a group that is not closed. -/
theorem exists_cuts_append_bar (s : Text) {word : Text} (plain : ∀ c ∈ word, isPlain c)
    (noBar : ∀ c ∈ word, (c == '|') = false) :
    ∃ (init : List Text) (last : Text), Nesting.outside.cuts (· == '|') s = init ++ [last] ∧
      (Nesting.outside.cuts (· == '|') (s ++ ' ' :: '|' :: ' ' :: word) =
          init ++ [last ++ [' '], ' ' :: word] ∨
        Nesting.outside.cuts (· == '|') (s ++ ' ' :: '|' :: ' ' :: word) =
          init ++ [last ++ ' ' :: '|' :: ' ' :: word]) := by
  obtain ⟨a, as, ha⟩ := Nesting.exists_cuts (· == '|') .outside s
  obtain ⟨init, last, hcuts⟩ : ∃ (init : List Text) (last : Text), a :: as = init ++ [last] :=
    ⟨_, _, (List.dropLast_append_getLast (List.cons_ne_nil a as)).symm⟩
  rw [hcuts] at ha
  refine ⟨init, last, ha, ?_⟩
  rw [Nesting.cuts_append_eq, ha, List.dropLast_concat, List.getLast?_concat, Option.getD_some]
  cases htop : (Nesting.outside.run s).topLevel with
  | true =>
    have space : (Nesting.outside.run s).step ' ' = .outside := Nesting.step_plain htop (by decide)
    have bar : Nesting.outside.step '|' = .outside := rfl
    have rest : Nesting.outside.cuts (· == '|') (' ' :: word) = [' ' :: word] :=
      Nesting.cuts_eq_singleton (List.forall_mem_cons.2 ⟨rfl, noBar⟩) _
    left
    rw [Nesting.cuts, Nesting.cuts, space, bar, rest]
    simp
  | false =>
    right
    rw [Nesting.cuts_eq_of_not_topLevel (Nesting.isQuote_run_outside s) htop]
    · rfl
    · exact List.forall_mem_cons.2 ⟨by decide, List.forall_mem_cons.2 ⟨by decide,
        List.forall_mem_cons.2 ⟨by decide, plain⟩⟩⟩

/-- A word after a bar is added to the normal form, whatever the bar is a part of. -/
theorem normalize_append_bar {s word : Text} (h : IsFull s) (hword : word.blank = false)
    (collapsed : word.collapse = word) (plain : ∀ c ∈ word, isPlain c)
    (noBar : ∀ c ∈ word, (c == '|') = false) :
    normalize (s ++ ' ' :: '|' :: ' ' :: word) = normalize s ++ ' ' :: '|' :: ' ' :: word := by
  obtain ⟨init, last, hcuts, hlonger⟩ := exists_cuts_append_bar s plain noBar
  have whole : ∀ p ∈ init ++ [last], p.blank = false := hcuts ▸ h
  have hlast : last.blank = false := whole last (by simp)
  have full : IsFull (s ++ ' ' :: '|' :: ' ' :: word) := by
    intro p hp
    rcases hlonger with hlonger | hlonger <;> rw [hlonger] at hp <;>
      simp only [List.mem_append, List.mem_cons, List.not_mem_nil, or_false] at hp
    · rcases hp with hp | rfl | rfl
      · exact whole p (by simp [hp])
      · rw [Text.blank_append, hlast, Bool.false_and]
      · rw [Text.blank_cons, hword, Bool.and_false]
    · rcases hp with hp | rfl
      · exact whole p (by simp [hp])
      · rw [Text.blank_append, hlast, Bool.false_and]
  rw [full.normalize_eq_cuts, h.normalize_eq_cuts, hcuts]
  rcases hlonger with hlonger | hlonger
  · have ends : Text.collapse (last ++ [' ']) = last.collapse := by
      rw [← Text.collapse_trim, Text.trim_append_right (w := [' ']) rfl, Text.collapse_trim]
    have starts : Text.collapse (' ' :: word) = word := by
      have := Text.trim_append_left (w := [' ']) rfl word
      rw [List.singleton_append] at this
      rw [← Text.collapse_trim, this, Text.collapse_trim, collapsed]
    rw [hlonger, List.map_append, List.map_append, List.map_cons, List.map_singleton, ends, starts,
      List.map_singleton, ← List.singleton_append, ← List.append_assoc, union_concat _ (by simp)]
    simp
  · have barred : Text.collapse ('|' :: ' ' :: word) = '|' :: ' ' :: word := by
      have := Text.collapse_append (x := ['|']) rfl hword
      rwa [collapsed] at this
    have ends : Text.collapse (last ++ ' ' :: '|' :: ' ' :: word) =
        last.collapse ++ ' ' :: '|' :: ' ' :: word := by
      rw [Text.collapse_append (w := '|' :: ' ' :: word) hlast rfl, barred]
    rw [hlonger, List.map_append, List.map_append, List.map_singleton, List.map_singleton, ends]
    cases init with
    | nil => simp [union, Text.join]
    | cons a as =>
      rw [union_concat _ (by simp), union_concat _ (by simp)]
      simp

end TypeText

end WebSurface
