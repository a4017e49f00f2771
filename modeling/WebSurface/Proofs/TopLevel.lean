import WebSurface.Proofs.Blank
import WebSurface.Scan
set_option autoImplicit false

namespace WebSurface

/-- A character that opens neither a bracket nor a string. -/
def opensNothing (c : Char) : Bool := !isOpener c && !isQuote c

theorem opensNothing_of_beq {d : Char} (hd : opensNothing d) (c : Char) (h : c == d) :
    opensNothing c := by
  rwa [beq_iff_eq.1 h]

def isPlain (c : Char) : Bool := !isOpener c && !isCloser c && !isQuote c && c != '='

theorem isQuote_of_isPlain {c : Char} (h : isPlain c) : isQuote c = false := by
  cases hq : isQuote c with
  | false => rfl
  | true => simp [isPlain, hq] at h

theorem opensNothing_of_isPlain {c : Char} (h : isPlain c) : opensNothing c := by
  simp only [isPlain, Bool.and_eq_true] at h
  simp only [opensNothing, Bool.and_eq_true]
  exact ⟨h.1.1.1, h.1.2⟩

theorem not_mem_of_all_not {p : Char → Bool} {t : Text} (hp : t.all (!p ·)) {c : Char} (h : p c) :
    c ∉ t := by
  intro hc
  have hn := List.all_eq_true.1 hp c hc
  rw [h] at hn
  cases hn

theorem isPlain_of {p : Char → Bool} (hp : "([\x7b<)]\x7d>\"'`=".toList.all (!p ·)) {c : Char}
    (h : p c) : isPlain c := by
  have hs := not_mem_of_all_not hp h
  simp only [String.reduceToList, List.mem_cons, List.not_mem_nil, or_false, not_or] at hs
  simp [isPlain, isOpener, isCloser, isQuote, hs]

theorem isPlain_of_isBlank {c : Char} (h : Text.isBlank c) : isPlain c :=
  isPlain_of (by decide) h

theorem isPlain_of_beq {d : Char} (hd : isPlain d) (c : Char) (h : c == d) : isPlain c := by
  rwa [beq_iff_eq.1 h]

theorem isBlank_of_beq {d : Char} (hd : Text.isBlank d = false) (c : Char) (h : c == d) :
    Text.isBlank c = false := by
  rwa [beq_iff_eq.1 h]

theorem isPlain_of_blank {w : Text} (hw : Text.blank w) : ∀ c ∈ w, isPlain c :=
  fun _ hc => isPlain_of_isBlank (Text.isBlank_of_mem hw hc)

namespace Nesting

theorem topLevel_iff {s : Nesting} : s.topLevel ↔ ∃ b, s = ⟨0, .code b⟩ := by
  obtain ⟨depth, mode⟩ := s
  cases mode <;> simp [topLevel, inCode]

@[simp] theorem topLevel_outside : outside.topLevel := rfl

/-- At top level nothing that came before has a say in what comes next: there is no bracket that a
`>` could close. -/
theorem step_topLevel {s : Nesting} (hs : s.topLevel) (c : Char) : s.step c = outside.step c := by
  obtain ⟨b, rfl⟩ := topLevel_iff.1 hs
  simp [step, outside, depthWith]

theorem topLevel_step {s : Nesting} (hs : s.topLevel) {c : Char} (hc : opensNothing c) :
    (s.step c).topLevel := by
  obtain ⟨b, rfl⟩ := topLevel_iff.1 hs
  simp only [opensNothing, Bool.and_eq_true, Bool.not_eq_true'] at hc
  simp [step, depthWith, topLevel, inCode, hc]

theorem step_code (n : Nat) (b : Bool) {c : Char} (hc : isPlain c) :
    (⟨n, .code b⟩ : Nesting).step c = ⟨n, .code false⟩ := by
  simp only [isPlain, Bool.and_eq_true, Bool.not_eq_true', bne_iff_ne] at hc
  obtain ⟨⟨⟨ho, hcl⟩, hq⟩, he⟩ := hc
  have hgt : c ≠ '>' := by rintro rfl; cases hcl
  simp [step, depthWith, ho, hcl, hq, he, hgt]

theorem step_plain {s : Nesting} (hs : s.topLevel) {c : Char} (hc : isPlain c) :
    s.step c = outside := by
  obtain ⟨b, rfl⟩ := topLevel_iff.1 hs
  exact step_code 0 b hc

theorem run_plain {t : Text} (ht : ∀ c ∈ t, isPlain c) {s : Nesting} (hs : s.topLevel)
    (hne : t ≠ []) : s.run t = outside := by
  induction t generalizing s with
  | nil => exact absurd rfl hne
  | cons c r ih =>
    obtain ⟨hc, hr⟩ := List.forall_mem_cons.1 ht
    rw [run_cons, step_plain hs hc]
    cases r with
    | nil => rfl
    | cons d r => exact ih hr rfl (List.cons_ne_nil d r)

theorem run_plain_outside {t : Text} (ht : ∀ c ∈ t, isPlain c) : outside.run t = outside := by
  cases t with
  | nil => rfl
  | cons c r => exact run_plain ht rfl (List.cons_ne_nil c r)

theorem topLevel_run_plain {t : Text} (ht : ∀ c ∈ t, isPlain c) {s : Nesting} (hs : s.topLevel) :
    (s.run t).topLevel := by
  cases t with
  | nil => exact hs
  | cons c r =>
    rw [run_plain ht hs (List.cons_ne_nil c r)]
    rfl

theorem run_blank {w : Text} (hw : Text.blank w) : outside.run w = outside :=
  run_plain_outside (isPlain_of_blank hw)

theorem breakAt_snd (p : Char → Bool) (s : Nesting) (t : Text) :
    (breakAt p s t).2 = [] ∨ ∃ c r, (breakAt p s t).2 = c :: r ∧ p c := by
  induction t generalizing s with
  | nil => exact .inl rfl
  | cons c r ih =>
    rw [breakAt]
    split
    · rename_i h
      rw [Bool.and_eq_true] at h
      exact .inr ⟨c, r, rfl, h.2⟩
    · exact ih (s.step c)

theorem breakAt_append_of_nil {p : Char → Bool} {s : Nesting} {t : Text}
    (h : (s.breakAt p t).2 = []) (u : Text) :
    s.breakAt p (t ++ u) = (t ++ ((s.run t).breakAt p u).1, ((s.run t).breakAt p u).2) := by
  induction t generalizing s with
  | nil => rfl
  | cons c t ih =>
    rw [breakAt] at h
    rw [List.cons_append, breakAt]
    split at h
    · cases h
    · rename_i hc
      rw [if_neg hc, ih h]
      rfl

theorem breakAt_append_of_ne_nil {p : Char → Bool} {s : Nesting} {t : Text}
    (h : (s.breakAt p t).2 ≠ []) (u : Text) :
    s.breakAt p (t ++ u) = ((s.breakAt p t).1, (s.breakAt p t).2 ++ u) := by
  fun_induction breakAt p s t with
  | case1 => exact absurd rfl h
  | case2 s c r hc => rw [List.cons_append, breakAt, if_pos hc]
  | case3 s c r hc a b hab ih =>
    rw [hab] at ih
    rw [List.cons_append, breakAt, if_neg hc, ih h]

theorem breakAt_append_eq_nil_iff (p : Char → Bool) (s : Nesting) (a b : Text) :
    (breakAt p s (a ++ b)).2 = [] ↔ (breakAt p s a).2 = [] ∧ (breakAt p (s.run a) b).2 = [] := by
  by_cases h : (breakAt p s a).2 = []
  · rw [breakAt_append_of_nil h]
    exact (and_iff_right h).symm
  · rw [breakAt_append_of_ne_nil h]
    simp [h]

theorem breakAt_append_ne_nil {p : Char → Bool} {s : Nesting} {x : Text} {c : Char} (u : Text)
    (hx : (s.run x).topLevel) (hc : p c) : (breakAt p s (x ++ c :: u)).2 ≠ [] := by
  induction x generalizing s with
  | nil =>
    rw [run_nil] at hx
    rw [List.nil_append, breakAt, hx, hc]
    exact List.cons_ne_nil c u
  | cons d x ih =>
    rw [List.cons_append, breakAt]
    split
    · exact List.cons_ne_nil d _
    · exact ih hx

/-- The pieces of a text between the characters at top level with property `p`. -/
def cuts (p : Char → Bool) (s : Nesting) : Text → List Text
  | [] => [[]]
  | c :: r =>
    if s.topLevel && p c then [] :: cuts p (s.step c) r
    else (cuts p (s.step c) r).modifyHead (c :: ·)

theorem exists_cuts (p : Char → Bool) (s : Nesting) (t : Text) :
    ∃ a as, cuts p s t = a :: as := by
  induction t generalizing s with
  | nil => exact ⟨[], [], rfl⟩
  | cons c r ih =>
    obtain ⟨a, as, h⟩ := ih (s.step c)
    rw [cuts, h]
    split
    · exact ⟨[], a :: as, rfl⟩
    · exact ⟨c :: a, as, rfl⟩

theorem cuts_topLevel {p : Char → Bool} {s : Nesting} (hs : s.topLevel) (t : Text) :
    cuts p s t = cuts p outside t := by
  cases t with
  | nil => rfl
  | cons c r => rw [cuts, cuts, step_topLevel hs, hs, topLevel_outside]

theorem cuts_append (p : Char → Bool) (s : Nesting) (x : Text) {c : Char} (u : Text)
    (hx : (s.run x).topLevel) (hc : p c) :
    cuts p s (x ++ c :: u) = cuts p s x ++ cuts p ((s.run x).step c) u := by
  induction x generalizing s with
  | nil =>
    rw [run_nil] at hx
    simp [cuts, hx, hc]
  | cons d r ih =>
    obtain ⟨a, as, h⟩ := exists_cuts p (s.step d) r
    have hr := ih (s.step d) hx
    simp only [List.cons_append, cuts, hr, h, run_cons]
    split <;> simp

theorem cuts_eq_singleton {p : Char → Bool} {t : Text} (ht : ∀ c ∈ t, p c = false) (s : Nesting) :
    cuts p s t = [t] := by
  induction t generalizing s with
  | nil => rfl
  | cons c r ih =>
    have hc := ht c List.mem_cons_self
    have hr := ih (fun d hd => ht d (List.mem_cons_of_mem c hd)) (s.step c)
    simp [cuts, hc, hr]

theorem cuts_of_breakAt {p : Char → Bool} {s : Nesting} {t : Text} (h : (breakAt p s t).2 = []) :
    cuts p s t = [t] := by
  induction t generalizing s with
  | nil => rfl
  | cons c r ih =>
    rw [breakAt] at h
    rw [cuts]
    split at h
    · cases h
    · rename_i hc
      rw [if_neg hc, ih h]
      rfl

/-- Text that stands before and has no delimiters is part of the first piece. -/
theorem cuts_plain_append {p : Char → Bool} {x : Text} (hx : ∀ c ∈ x, isPlain c ∧ p c = false)
    (t : Text) : cuts p outside (x ++ t) = (cuts p outside t).modifyHead (x ++ ·) := by
  obtain ⟨a, as, ha⟩ := exists_cuts p .outside t
  induction x with
  | nil => simp [ha]
  | cons c x ih =>
    obtain ⟨⟨hc, hp⟩, hx⟩ := List.forall_mem_cons.1 hx
    rw [List.cons_append, cuts, hp, Bool.and_false, if_neg Bool.false_ne_true,
      step_plain topLevel_outside hc, ih hx, ha]
    rfl

/-- Pieces are cut no further. Only the first of them was read in state `s`. -/
theorem cuts_of_mem_cuts {p : Char → Bool} (opens : ∀ c, p c → opensNothing c) {s : Nesting}
    {t a : Text} {as : List Text} (h : cuts p s t = a :: as) :
    cuts p s a = [a] ∧ ∀ b ∈ as, cuts p outside b = [b] := by
  induction t generalizing s a as with
  | nil =>
    obtain ⟨rfl, rfl⟩ := List.cons.inj h
    exact ⟨rfl, by simp⟩
  | cons c r ih =>
    obtain ⟨b, bs, hr⟩ := exists_cuts p (s.step c) r
    obtain ⟨hb, hbs⟩ := ih hr
    rw [cuts, hr] at h
    split at h
    · rename_i hc
      obtain ⟨rfl, rfl⟩ := List.cons.inj h
      rw [Bool.and_eq_true] at hc
      rw [cuts_topLevel (topLevel_step hc.1 (opens c hc.2))] at hb
      exact ⟨rfl, List.forall_mem_cons.2 ⟨hb, hbs⟩⟩
    · rename_i hc
      obtain ⟨rfl, rfl⟩ := List.cons.inj h
      exact ⟨by simp [cuts, hc, hb], hbs⟩

/-- Cutting the pieces at `q` is cutting the text at `p` and `q` at once. -/
theorem cuts_or {p : Char → Bool} (opens : ∀ c, p c → opensNothing c) (q : Char → Bool)
    {s : Nesting} {t a : Text} {as : List Text} (h : cuts p s t = a :: as) :
    cuts (fun c => p c || q c) s t = cuts q s a ++ as.flatMap (cuts q outside) := by
  induction t generalizing s a as with
  | nil =>
    obtain ⟨rfl, rfl⟩ := List.cons.inj h
    rfl
  | cons c r ih =>
    obtain ⟨b, bs, hr⟩ := exists_cuts p (s.step c) r
    obtain ⟨d, ds, hq⟩ := exists_cuts q (s.step c) b
    have hi := ih hr
    rw [cuts, hr] at h
    split at h
    · rename_i hc
      obtain ⟨rfl, rfl⟩ := List.cons.inj h
      rw [Bool.and_eq_true] at hc
      have top := topLevel_step hc.1 (opens c hc.2)
      rw [cuts_topLevel top] at hi
      simp [cuts, hc, hi, cuts_topLevel top]
    · rename_i hc
      obtain ⟨rfl, rfl⟩ := List.cons.inj h
      have he : (s.topLevel && (p c || q c)) = (s.topLevel && q c) := by
        cases ht : s.topLevel <;> simp_all
      simp only [cuts, he, hi, hq]
      split <;> simp

end Nesting

theorem findTopLevel_eq_none_iff {d : Char} {t : Text} :
    findTopLevel d t = none ↔ (Nesting.outside.breakAt (· == d) t).2 = [] := by
  rw [findTopLevel, breakTopLevel]
  cases Nesting.outside.breakAt (· == d) t with
  | mk a b => cases b <;> simp

/-- Texts without the white space around them; what is empty then is left out. -/
def tidy (ts : List Text) : List Text := (ts.map Text.trim).filter (!·.isEmpty)

theorem tidy_cons (t : Text) (ts : List Text) :
    tidy (t :: ts) = if Text.blank t then tidy ts else t.trim :: tidy ts := by
  by_cases h : Text.blank t
  · have := Text.trim_eq_nil_iff.2 h
    simp [tidy, h, this]
  · have := mt Text.trim_eq_nil_iff.1 h
    simp [tidy, h, this]

theorem tidy_append (ts us : List Text) : tidy (ts ++ us) = tidy ts ++ tidy us := by
  simp [tidy]

theorem tidy_congr {t u : Text} (h : t.trim = u.trim) (ts : List Text) :
    tidy (t :: ts) = tidy (u :: ts) := by
  simp [tidy, h]

theorem tidy_trim {t : Text} (ht : ¬Text.blank t) (ts : List Text) :
    tidy (t.trim :: ts) = t.trim :: tidy ts := by
  rw [tidy_congr (Text.trim_trim t), tidy_cons, if_neg ht]

theorem tidy_flatMap {α : Type} (f : α → List Text) (l : List α) :
    tidy (l.flatMap f) = l.flatMap fun a => tidy (f a) := by
  induction l with
  | nil => rfl
  | cons a l ih => simp [tidy_append, ih]

/-- The trimmed parts of a text between the characters at top level with property `p`. -/
def parts (p : Char → Bool) (t : Text) : List Text := tidy (Nesting.outside.cuts p t)

theorem text_piecesFrom (d : Char) (s : Nesting) (n : Nat) (t : Text) :
    ((atTopLevel d).piecesFrom s n t).1.text ::
      ((atTopLevel d).piecesFrom s n t).2.map Segment.text = s.cuts (· == d) t := by
  induction t generalizing s n with
  | nil => rfl
  | cons c r ih =>
    have h := ih (s.step c) (n + c.utf8Size)
    rw [Nesting.cuts, ← h]
    simp only [Cutter.piecesFrom, atTopLevel]
    cases s.topLevel && c == d <;> simp

theorem map_text_trim? (ps : List Segment) :
    (ps.filterMap Segment.trim?).map Segment.text = tidy (ps.map Segment.text) := by
  induction ps with
  | nil => rfl
  | cons p ps ih =>
    rw [List.map_cons, tidy_cons]
    by_cases h : Text.blank p.text
    · have ht : p.trim.text = [] := Text.trim_eq_nil_iff.2 h
      rw [List.filterMap_cons_none (by simp [Segment.trim?, ht]), if_pos h, ih]
    · have ht : ¬p.trim.text = [] := mt Text.trim_eq_nil_iff.1 h
      rw [List.filterMap_cons_some (b := p.trim) (by simp [Segment.trim?, ht]), if_neg h,
        List.map_cons, ih]
      rfl

theorem partsTopLevel_eq (d : Char) (t : Text) : partsTopLevel d t = parts (· == d) t := by
  rw [partsTopLevel, splitTopLevel, Cutter.segments, map_text_trim?, parts,
    ← text_piecesFrom d .outside 0 t]
  rfl

section Parts

variable {p : Char → Bool} (opens : ∀ c, p c → opensNothing c)

include opens in
theorem parts_append {x : Text} (hx : (Nesting.outside.run x).topLevel) {c : Char} (hc : p c)
    (u : Text) : parts p (x ++ c :: u) = parts p x ++ parts p u := by
  rw [parts, Nesting.cuts_append p _ x u hx hc,
    Nesting.cuts_topLevel (Nesting.topLevel_step hx (opens c hc)), tidy_append]
  rfl

theorem parts_append_left {w : Text} (hw : Text.blank w) (t : Text) :
    parts p (w ++ t) = parts p t := by
  induction w with
  | nil => rfl
  | cons c w ih =>
    rw [Text.blank_cons, Bool.and_eq_true] at hw
    obtain ⟨a, as, ha⟩ := Nesting.exists_cuts p .outside (w ++ t)
    have plain := isPlain_of_isBlank hw.1
    rw [← ih hw.2, parts, List.cons_append, Nesting.cuts,
      Nesting.step_plain Nesting.topLevel_outside plain, parts, ha]
    split
    · simp [tidy_cons]
    · exact tidy_congr (Text.trim_append_left (w := [c]) (by simp [hw.1]) a) as

theorem tidy_cuts_blank {w : Text} (hw : Text.blank w) (read : Text) (s : Nesting) :
    tidy ((s.cuts p w).modifyHead (read ++ ·)) = tidy [read] := by
  induction w generalizing read s with
  | nil => simp [Nesting.cuts]
  | cons c w ih =>
    rw [Text.blank_cons, Bool.and_eq_true] at hw
    obtain ⟨a, as, ha⟩ := Nesting.exists_cuts p (s.step c) w
    rw [Nesting.cuts, ha]
    split
    · have rest := ih hw.2 [] (s.step c)
      rw [ha] at rest
      simp only [List.modifyHead_cons, List.append_nil, List.nil_append] at rest ⊢
      rw [tidy_cons, rest, tidy_cons read]
      rfl
    · have rest := ih hw.2 (read ++ [c]) (s.step c)
      rw [ha] at rest
      have trimmed := tidy_congr (Text.trim_append_right (w := [c]) (by simp [hw.1]) read) []
      simpa [trimmed] using rest

theorem parts_append_right {w : Text} (hw : Text.blank w) (t : Text) :
    parts p (t ++ w) = parts p t := by
  -- The piece that is being read is kept apart, since only the last piece is longer by `w`.
  have h (read : Text) (s : Nesting) :
      tidy ((s.cuts p (t ++ w)).modifyHead (read ++ ·)) =
        tidy ((s.cuts p t).modifyHead (read ++ ·)) := by
    induction t generalizing read s with
    | nil =>
      rw [List.nil_append, tidy_cuts_blank hw]
      simp [Nesting.cuts]
    | cons c r ih =>
      obtain ⟨a, as, ha⟩ := Nesting.exists_cuts p (s.step c) (r ++ w)
      obtain ⟨b, bs, hb⟩ := Nesting.exists_cuts p (s.step c) r
      rw [List.cons_append, Nesting.cuts, Nesting.cuts]
      split
      · have hr := ih [] (s.step c)
        simp only [ha, hb, List.modifyHead_cons, List.nil_append] at hr ⊢
        rw [tidy_cons _ (a :: as), tidy_cons _ (b :: bs), hr]
      · have hr := ih (read ++ [c]) (s.step c)
        simpa [ha, hb] using hr
  obtain ⟨a, as, ha⟩ := Nesting.exists_cuts p .outside (t ++ w)
  obtain ⟨b, bs, hb⟩ := Nesting.exists_cuts p .outside t
  simpa [parts, ha, hb] using h [] .outside

theorem parts_trim (t : Text) : parts p t.trim = parts p t := by
  obtain ⟨v, w, hv, hw, ht⟩ := Text.exists_trim t
  conv => rhs; rw [ht, parts_append_right hw, parts_append_left hv]

theorem parts_blank {w : Text} (hw : Text.blank w) : parts p w = [] := by
  have h := parts_append_left (p := p) hw []
  rw [List.append_nil] at h
  rw [h]
  rfl

include opens in
theorem flatMap_parts (q : Char → Bool) (t : Text) :
    (parts p t).flatMap (parts q) = parts (fun c => p c || q c) t := by
  have trimmed (ts : List Text) : (tidy ts).flatMap (parts q) = ts.flatMap (parts q) := by
    induction ts with
    | nil => rfl
    | cons t ts ih =>
      rw [tidy_cons]
      split
      · rename_i ht
        rw [List.flatMap_cons, parts_blank ht, ih]
        rfl
      · rw [List.flatMap_cons, List.flatMap_cons, parts_trim, ih]
  obtain ⟨a, as, h⟩ := Nesting.exists_cuts p .outside t
  rw [parts, trimmed, parts, Nesting.cuts_or opens q h, h, ← List.flatMap_cons, tidy_flatMap]
  rfl

include opens in
theorem parts_of_mem_parts {t m : Text} (hm : m ∈ parts p t) : parts p m = [m] := by
  obtain ⟨a, as, h⟩ := Nesting.exists_cuts p .outside t
  obtain ⟨hcut, hcuts⟩ := Nesting.cuts_of_mem_cuts opens h
  simp only [parts, h, tidy, List.mem_filter, List.mem_map] at hm
  obtain ⟨⟨b, hb, rfl⟩, hne⟩ := hm
  have hb : Nesting.outside.cuts p b = [b] := by
    rcases List.mem_cons.1 hb with rfl | hb
    · exact hcut
    · exact hcuts b hb
  rw [parts_trim, parts, hb]
  simp [tidy, hne]

end Parts

end WebSurface
