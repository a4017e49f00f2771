import WebSurface.Proofs.Quiet
import WebSurface.TypeText
set_option autoImplicit false

namespace WebSurface

namespace Text

def startsBlank (t : Text) : Bool := t.head?.elim false isBlank

/-- Each run of white space becomes one space, also at the end. -/
def dense : Text → Text
  | [] => []
  | c :: r =>
    if isBlank c then if startsBlank r then dense r else ' ' :: dense r
    else c :: dense r

theorem dense_solid {c : Char} (hc : isBlank c = false) (r : Text) :
    dense (c :: r) = c :: dense r := by
  rw [dense, hc, if_neg Bool.false_ne_true]

theorem dense_blank {c : Char} (hc : isBlank c) {r : Text} (hr : startsBlank r = false) :
    dense (c :: r) = ' ' :: dense r := by
  rw [dense, if_pos hc, hr, if_neg Bool.false_ne_true]

theorem dense_blank_blank {c : Char} (hc : isBlank c) {r : Text} (hr : startsBlank r) :
    dense (c :: r) = dense r := by
  rw [dense, if_pos hc, if_pos hr]

theorem squeeze_eq (t : Text) : squeeze t = trimEnd (dense t) := by
  fun_induction squeeze t with
  | case1 => rfl
  | case2 c hc =>
    rw [dense_blank hc rfl]
    rfl
  | case3 c hc d r hd ih => rw [ih, dense_blank_blank hc (r := d :: r) hd]
  | case4 c hc d r hd ih =>
    have hd : isBlank d = false := Bool.eq_false_iff.2 hd
    have solid : blank (dense (d :: r)) = false := by rw [dense_solid hd, blank_cons, hd]; rfl
    rw [ih, dense_blank hc (r := d :: r) hd]
    exact (trimEnd_append_of_not_blank [' '] solid).symm
  | case5 c r hc ih =>
    have hc : isBlank c = false := Bool.eq_false_iff.2 hc
    rw [ih, dense_solid hc, trimEnd_cons_solid hc]

theorem trimStart_blank_cons {c : Char} (hc : isBlank c) (r : Text) :
    trimStart (c :: r) = trimStart r :=
  trimStart_append (w := [c]) (by simp [hc]) r

theorem trimStart_dense (t : Text) : trimStart (dense t) = dense (trimStart t) := by
  fun_induction dense t with
  | case1 => rfl
  | case2 c r hc _ ih => rw [ih, trimStart_blank_cons hc]
  | case3 c r hc _ ih => rw [trimStart_blank_cons rfl, ih, trimStart_blank_cons hc]
  | case4 c r hc _ =>
    have hc : isBlank c = false := Bool.eq_false_iff.2 hc
    rw [trimStart_cons hc, trimStart_cons hc, dense_solid hc]

theorem collapse_eq (t : Text) : collapse t = trim (dense t) := by
  rw [collapse, squeeze_eq, trim, trimStart_dense]

theorem squeeze_solid {c : Char} (hc : isBlank c = false) (r : Text) :
    squeeze (c :: r) = c :: squeeze r := by
  cases r <;> simp [squeeze, hc]

theorem squeeze_blank {w : Text} (hw : blank w) : squeeze w = [] := by
  fun_induction squeeze w with
  | case1 => rfl
  | case2 => rfl
  | case3 c hc d r hd ih =>
    rw [blank_cons, Bool.and_eq_true] at hw
    exact ih hw.2
  | case4 c hc d r hd ih => simp [hd] at hw
  | case5 c r hc ih => simp [hc] at hw

theorem squeeze_append_blank {w : Text} (hw : blank w) (t : Text) :
    squeeze (t ++ w) = squeeze t := by
  fun_induction squeeze t with
  | case1 => exact squeeze_blank hw
  | case2 c hc => exact squeeze_blank (w := c :: w) (by simp [hc, hw])
  | case3 c hc d r hd ih =>
    rw [List.cons_append, List.cons_append, squeeze, if_pos hc, if_pos hd]
    exact ih
  | case4 c hc d r hd ih =>
    rw [List.cons_append, List.cons_append, squeeze, if_pos hc, if_neg hd]
    exact congrArg (' ' :: ·) ih
  | case5 c r hc ih =>
    have hc : isBlank c = false := Bool.eq_false_iff.2 hc
    rw [List.cons_append, squeeze_solid hc, ih]

@[simp] theorem collapse_trim (t : Text) : collapse (trim t) = collapse t := by
  obtain ⟨w, hw, ht⟩ := exists_trimEnd t.trimStart
  rw [collapse, trimStart_trim, collapse]
  conv => rhs; rw [ht, squeeze_append_blank hw]
  rfl

theorem mem_dense {c : Char} (hc : isBlank c) {t : Text} (h : c ∈ t) : ' ' ∈ dense t := by
  induction t generalizing c with
  | nil => cases h
  | cons d t ih =>
    cases hd : isBlank d with
    | false =>
      rw [dense_solid hd]
      rcases List.mem_cons.1 h with rfl | h
      · rw [hc] at hd
        cases hd
      · exact List.mem_cons_of_mem d (ih hc h)
    | true =>
      cases ht : startsBlank t with
      | false =>
        rw [dense_blank hd ht]
        exact List.mem_cons_self
      | true =>
        rw [dense_blank_blank hd ht]
        cases t with
        | nil => cases ht
        | cons e t => exact ih ht List.mem_cons_self

theorem dense_of_solid {t : Text} (h : ∀ c ∈ t, isBlank c = false) : dense t = t := by
  induction t with
  | nil => rfl
  | cons c t ih =>
    obtain ⟨hc, ht⟩ := List.forall_mem_cons.1 h
    rw [dense_solid hc, ih ht]

/-- A character that is no white space keeps what stands before it and what follows it apart. -/
theorem dense_append_cons {c : Char} (hc : isBlank c = false) (t r : Text) :
    dense (t ++ c :: r) = dense t ++ c :: dense r := by
  induction t with
  | nil => exact dense_solid hc r
  | cons d t ih =>
    have starts : startsBlank (t ++ c :: r) = startsBlank t := by
      cases t with
      | nil => exact hc
      | cons e t => rfl
    rw [List.cons_append, dense, dense, ih, starts]
    split
    · split <;> rfl
    · rfl

theorem collapse_of_trimmed {t : Text} (h : t.trim = t) : collapse t = dense t := by
  rcases List.eq_nil_or_concat t with rfl | ⟨x, c, rfl⟩
  · rfl
  · rw [List.concat_eq_append] at h ⊢
    have hc : isBlank c = false := isBlank_ends_trim.2 c (by rw [h]; simp)
    have start : trimStart (x ++ [c]) = x ++ [c] := by
      conv => lhs; rw [← h, trimStart_trim]
      exact h
    rw [collapse, start, squeeze_eq, dense_append_cons hc]
    exact trimEnd_append_solid hc _

end Text

namespace Nesting

def rested (s : Nesting) : Nesting :=
  match s.mode with
  | .code _ => ⟨s.depth, .code false⟩
  | .literal q _ => ⟨s.depth, .literal q false⟩

theorem step_blank {s : Nesting} (hs : ∀ p ∈ s.literal?, isQuote p.1) {c : Char}
    (hc : Text.isBlank c) : s.step c = s.rested := by
  have plain := isPlain_of_isBlank hc
  obtain ⟨depth, mode⟩ := s
  cases mode with
  | code b => exact step_code depth b plain
  | literal q escaped =>
    have hq : isQuote q := hs (q, escaped) rfl
    cases escaped with
    | true => rfl
    | false =>
      have hback : c ≠ '\\' := by
        rintro rfl
        exact absurd hc (by decide)
      have hquote : c ≠ q := by
        rintro rfl
        simp [isPlain, hq] at plain
      simp [step, rested, hback, hquote]

theorem rested_rested (s : Nesting) : s.rested.rested = s.rested := by
  obtain ⟨depth, mode⟩ := s
  cases mode <;> rfl

variable {p : Char → Bool}

theorem prefix_of_cuts {s : Nesting} {t a : Text} {as : List Text} (h : cuts p s t = a :: as) :
    a <+: t := by
  induction t generalizing s a as with
  | nil =>
    obtain ⟨rfl, -⟩ := List.cons.inj h
    exact List.nil_prefix
  | cons c r ih =>
    obtain ⟨b, bs, hb⟩ := exists_cuts p (s.step c) r
    rw [cuts, hb] at h
    split at h
    · obtain ⟨rfl, -⟩ := List.cons.inj h
      exact List.nil_prefix
    · obtain ⟨rfl, -⟩ := List.cons.inj h
      exact (List.prefix_cons_inj c).2 (ih hb)

theorem cuts_blank (solid : ∀ c, p c → Text.isBlank c = false) {s : Nesting}
    (hs : ∀ q ∈ s.literal?, isQuote q.1) {c : Char} (hc : Text.isBlank c) (r : Text) :
    cuts p s (c :: r) = (cuts p s.rested r).modifyHead (c :: ·) := by
  have keep : (s.topLevel && p c) = false := by
    cases hp : p c with
    | false => rw [Bool.and_false]
    | true => exact absurd hc (by simp [solid c hp])
  rw [cuts, keep, if_neg Bool.false_ne_true, step_blank hs hc]

theorem cuts_dense (solid : ∀ c, p c → Text.isBlank c = false) {s : Nesting}
    (hs : ∀ q ∈ s.literal?, isQuote q.1) (t : Text) :
    cuts p s t.dense = (cuts p s t).map Text.dense := by
  induction t generalizing s with
  | nil => rfl
  | cons c r ih =>
    obtain ⟨a, as, ha⟩ := exists_cuts p (s.step c) r
    have rest := ih (isQuote_step hs c)
    rw [ha] at rest
    cases hc : Text.isBlank c with
    | false =>
      rw [Text.dense_solid hc, cuts, cuts, rest, ha]
      split
      · rfl
      · simp [Text.dense_solid hc]
    | true =>
      have next := step_blank hs hc
      rw [next] at ha rest
      rw [cuts_blank solid hs hc, ha]
      cases hr : Text.startsBlank r with
      | false =>
        have ha' : Text.startsBlank a = false := by
          obtain ⟨u, rfl⟩ := prefix_of_cuts ha
          cases a with
          | nil => rfl
          | cons d a => exact hr
        rw [Text.dense_blank hc hr, cuts_blank solid hs rfl, rest]
        simp [Text.dense_blank hc ha']
      | true =>
        cases r with
        | nil => cases hr
        | cons d r =>
          -- What is read before white space is forgotten with the next white space.
          have quoted := next ▸ isQuote_step hs c
          rw [cuts_blank solid quoted hr, rested_rested] at ha
          have same : cuts p s (d :: r) = a :: as := by rw [cuts_blank solid hs hr, ha]
          rw [Text.dense_blank_blank hc hr, ih hs, same]
          obtain ⟨b, bs, hb⟩ := exists_cuts p s.rested r
          rw [hb] at ha
          obtain ⟨rfl, -⟩ := List.cons.inj ha
          simp [Text.dense_blank_blank hc (r := d :: b) hr]

/-- The first piece ends at top level, and after its end the text is cut as if it began there. -/
theorem exists_of_cuts (opens : ∀ c, p c → opensNothing c) {s : Nesting} {t a b : Text}
    {as : List Text} (h : cuts p s t = a :: b :: as) :
    ∃ c r, t = a ++ c :: r ∧ (s.run a).topLevel ∧ p c ∧ cuts p outside r = b :: as := by
  induction t generalizing s a with
  | nil => cases h
  | cons c r ih =>
    obtain ⟨d, ds, hd⟩ := exists_cuts p (s.step c) r
    rw [cuts] at h
    split at h
    · rename_i hcut
      rw [Bool.and_eq_true] at hcut
      obtain ⟨rfl, hr⟩ := List.cons.inj h
      rw [cuts_topLevel (topLevel_step hcut.1 (opens c hcut.2))] at hr
      exact ⟨c, r, rfl, hcut.1, hcut.2, hr⟩
    · rw [hd] at h
      obtain ⟨rfl, rfl⟩ := List.cons.inj h
      obtain ⟨e, u, rfl, htop, he, hu⟩ := ih hd
      exact ⟨e, u, rfl, htop, he, hu⟩

theorem topLevel_of_step {s : Nesting} (hs : ∀ q ∈ s.literal?, isQuote q.1) {c : Char}
    (hc : isPlain c) (h : (s.step c).topLevel) : s.topLevel := by
  have code := inCode_of_step hs (isQuote_of_isPlain hc) (inCode_of_topLevel h)
  obtain ⟨depth, mode⟩ := s
  cases mode with
  | code b =>
    rw [step_code depth b hc] at h
    exact h
  | literal => cases code

theorem topLevel_of_run {s : Nesting} (hs : ∀ q ∈ s.literal?, isQuote q.1) {w : Text}
    (hw : ∀ c ∈ w, isPlain c) (h : (s.run w).topLevel) : s.topLevel := by
  induction w generalizing s with
  | nil => exact h
  | cons c w ih =>
    obtain ⟨hc, hw⟩ := List.forall_mem_cons.1 hw
    exact topLevel_of_step hs hc (ih (isQuote_step hs c) hw h)

theorem topLevel_run_trim {t : Text} (h : (outside.run t).topLevel) :
    (outside.run t.trim).topLevel := by
  obtain ⟨v, w, hv, hw, ht⟩ := Text.exists_trim t
  rw [ht, run_append, run_append, run_blank hv] at h
  exact topLevel_of_run (isQuote_run_outside _) (isPlain_of_blank hw) h

theorem topLevel_run_of_trim {t : Text} (h : (outside.run t.trim).topLevel) :
    (outside.run t).topLevel := by
  obtain ⟨v, w, hv, hw, ht⟩ := Text.exists_trim t
  rw [ht, run_append, run_append, run_blank hv]
  exact topLevel_run_plain (isPlain_of_blank hw) h

end Nesting

theorem Text.blank_dense (t : Text) : blank t.dense = blank t := by
  fun_induction dense t with
  | case1 => rfl
  | case2 c r hc _ ih => rw [ih, blank_cons, hc, Bool.true_and]
  | case3 c r hc _ ih => rw [blank_cons, blank_cons, ih, hc]; rfl
  | case4 c r hc ih => rw [blank_cons, blank_cons, ih]

theorem tidy_dense (ts : List Text) : tidy (ts.map Text.dense) = (tidy ts).map Text.collapse := by
  induction ts with
  | nil => rfl
  | cons t ts ih =>
    rw [List.map_cons, tidy_cons, tidy_cons, Text.blank_dense, ih]
    split
    · rfl
    · rw [List.map_cons, Text.collapse_trim, Text.collapse_eq]

section Parts

variable {p : Char → Bool} (opens : ∀ c, p c → opensNothing c)

theorem parts_collapse (solid : ∀ c, p c → Text.isBlank c = false) (t : Text) :
    parts p t.collapse = (parts p t).map Text.collapse := by
  rw [Text.collapse_eq, parts_trim, parts,
    Nesting.cuts_dense solid (by simp [Nesting.outside, Nesting.literal?]), tidy_dense, parts]

include opens in
theorem topLevel_of_mem_dropLast_parts {t m : Text} (h : m ∈ (parts p t).dropLast) :
    (Nesting.outside.run m).topLevel := by
  induction hn : t.length using Nat.strongRecOn generalizing t with
  | ind n ih =>
    obtain ⟨a, as, ha⟩ := Nesting.exists_cuts p .outside t
    rw [parts, ha, tidy_cons] at h
    cases as with
    | nil => split at h <;> cases h
    | cons b as =>
      obtain ⟨c, r, rfl, htop, -, hr⟩ := Nesting.exists_of_cuts opens ha
      rw [← hr] at h
      have shorter : r.length < n := by
        rw [← hn, List.length_append, List.length_cons]
        omega
      split at h
      · exact ih r.length shorter h rfl
      · cases hp : tidy (Nesting.outside.cuts p r) with
        | nil => rw [hp] at h; cases h
        | cons d ds =>
          rw [hp, List.dropLast_cons_cons, ← hp] at h
          rcases List.mem_cons.1 h with rfl | h
          · exact Nesting.topLevel_run_trim htop
          · exact ih r.length shorter h rfl

include opens in
theorem parts_join {v w : Text} (hv : Text.blank v) (hw : Text.blank w) {d : Char} (hd : p d)
    {ts : List Text} (closed : ∀ t ∈ ts.dropLast, (Nesting.outside.run t).topLevel) :
    parts p (Text.join (v ++ d :: w) ts) = ts.flatMap (parts p) := by
  fun_induction Text.join (v ++ d :: w) ts with
  | case1 => exact parts_blank Text.blank_nil
  | case2 t => simp
  | case3 t u ts ih =>
    rw [List.dropLast_cons_cons, List.forall_mem_cons] at closed
    have ht : (Nesting.outside.run (t ++ v)).topLevel := by
      rw [Nesting.run_append]
      exact Nesting.topLevel_run_plain (isPlain_of_blank hv) closed.1
    have assoc : t ++ (v ++ d :: w) ++ Text.join (v ++ d :: w) (u :: ts) =
        (t ++ v) ++ d :: (w ++ Text.join (v ++ d :: w) (u :: ts)) := by simp
    rw [assoc, parts_append opens ht hd, parts_append_right hv, parts_append_left hw, ih closed.2]
    rfl

include opens in
theorem parts_join_whole {v w : Text} (hv : Text.blank v) (hw : Text.blank w) {d : Char}
    (hd : p d) {ts : List Text} (closed : ∀ t ∈ ts.dropLast, (Nesting.outside.run t).topLevel)
    (whole : ∀ t ∈ ts, parts p t = [t]) : parts p (Text.join (v ++ d :: w) ts) = ts := by
  rw [parts_join opens hv hw hd closed]
  clear closed
  induction ts with
  | nil => rfl
  | cons t ts ih =>
    obtain ⟨ht, hts⟩ := List.forall_mem_cons.1 whole
    rw [List.flatMap_cons, ht, ih hts]
    rfl

include opens in
theorem parts_join_parts {v w : Text} (hv : Text.blank v) (hw : Text.blank w) {d : Char}
    (hd : p d) (t : Text) : parts p (Text.join (v ++ d :: w) (parts p t)) = parts p t :=
  parts_join_whole opens hv hw hd (fun _ => topLevel_of_mem_dropLast_parts opens)
    fun _ => parts_of_mem_parts opens

end Parts

namespace TypeText

theorem unionMembers_eq (t : Text) : unionMembers t = parts (· == '|') t := partsTopLevel_eq '|' t

theorem unionMembers_of_mem {t m : Text} (h : m ∈ unionMembers t) : unionMembers m = [m] := by
  rw [unionMembers_eq] at h ⊢
  exact parts_of_mem_parts (opensNothing_of_beq (by decide)) h

@[simp] theorem unionMembers_trim (t : Text) : unionMembers t.trim = unionMembers t := by
  rw [unionMembers_eq, parts_trim, ← unionMembers_eq]

theorem unionMembers_dropWhile (t : Text) :
    unionMembers (t.dropWhile (· == '|')) = unionMembers t := by
  induction t with
  | nil => rfl
  | cons c t ih =>
    by_cases hc : c == '|'
    · rw [List.dropWhile_cons_of_pos (p := (· == '|')) hc, ih, unionMembers_eq, unionMembers_eq]
      exact (parts_append (x := []) (opensNothing_of_beq (by decide)) rfl hc t).symm
    · rw [List.dropWhile_cons_of_neg (p := (· == '|')) hc]

theorem unionMembers_bare (t : Text) :
    unionMembers (Text.trim (t.collapse.dropWhile (· == '|'))) =
      (unionMembers t).map Text.collapse := by
  rw [unionMembers_trim, unionMembers_dropWhile, unionMembers_eq,
    parts_collapse (isBlank_of_beq (by decide)), ← unionMembers_eq]

/-- A normalized type has the members of the type as it was written, each with single spaces. -/
theorem unionMembers_normalize (t : Text) :
    unionMembers (normalize t) = (unionMembers t).map Text.collapse := by
  rw [← unionMembers_bare, normalize]
  split
  · rename_i a b ms hms
    rw [← hms, unionMembers_eq, union, unionMembers_eq]
    exact parts_join_parts (opensNothing_of_beq (by decide)) (v := [' '])
      (w := [' ']) rfl rfl rfl _
  · rfl

@[simp] theorem normalize_trim (t : Text) : normalize t.trim = normalize t := by
  rw [normalize, normalize, Text.collapse_trim]

@[simp] theorem splitNullish_trim (t : Text) : splitNullish t.trim = splitNullish t := by
  rw [splitNullish, splitNullish, normalize_trim]

theorem isNullish_collapse {m : Text} (h : m.trim = m) : isNullish m.collapse = isNullish m := by
  have word (w : Text) (hw : w.any Text.isBlank = false) : (m.collapse == w) = (m == w) := by
    have hw : ∀ c ∈ w, Text.isBlank c = false := by simpa using hw
    rw [Bool.eq_iff_iff, beq_iff_eq, beq_iff_eq, Text.collapse_of_trimmed h]
    constructor
    · intro hd
      have solid : ∀ c ∈ m, Text.isBlank c = false := fun c hc => by
        cases hb : Text.isBlank c with
        | false => rfl
        | true => exact absurd (hw ' ' (hd ▸ Text.mem_dense hb hc)) (by decide)
      rw [← hd, Text.dense_of_solid solid]
    · rintro rfl
      exact Text.dense_of_solid hw
  rw [isNullish, isNullish, word "null".toList (by decide),
    word "undefined".toList (by decide)]

theorem trim_of_mem_unionMembers {t m : Text} (h : m ∈ unionMembers t) : m.trim = m := by
  rw [unionMembers_eq, parts, tidy, List.mem_filter, List.mem_map] at h
  obtain ⟨⟨a, -, rfl⟩, -⟩ := h
  exact Text.trim_trim a

/-- Some member of the union is nullish, and some member is not. -/
def admitsNullish (t : Text) : Bool :=
  (unionMembers t).any isNullish && (unionMembers t).any (!isNullish ·)

theorem any_normalize (f : Bool → Bool) (t : Text) :
    (unionMembers (normalize t)).any (fun m => f (isNullish m)) =
      (unionMembers t).any fun m => f (isNullish m) := by
  rw [unionMembers_normalize, List.any_map, Bool.eq_iff_iff, List.any_eq_true, List.any_eq_true]
  refine exists_congr fun m => and_congr_right fun hm => ?_
  rw [Function.comp_apply, isNullish_collapse (trim_of_mem_unionMembers hm)]

theorem admitsNullish_normalize (t : Text) : admitsNullish (normalize t) = admitsNullish t := by
  have some : (unionMembers (normalize t)).any isNullish = (unionMembers t).any isNullish :=
    any_normalize id t
  rw [admitsNullish, admitsNullish, some, any_normalize (!·) t]

theorem splitNullish_snd (t : Text) : (splitNullish t).2 = admitsNullish t := by
  rw [splitNullish, ← admitsNullish_normalize, admitsNullish]
  generalize unionMembers (normalize t) = ms
  have empty : (ms.filter (!isNullish ·)).isEmpty = !ms.any (!isNullish ·) := by
    rw [Bool.eq_iff_iff]
    simp
  rw [empty]
  cases ms.any (!isNullish ·) <;> cases ms.any isNullish <;> rfl

end TypeText

end WebSurface
