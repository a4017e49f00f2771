import WebSurface.Proofs.Boundaries
import WebSurface.Proofs.WrittenParameter
set_option autoImplicit false

namespace WebSurface

namespace Nesting

theorem eq_of_cuts_singleton {p : Char → Bool} {s : Nesting} {t a : Text} (h : cuts p s t = [a]) :
    a = t := by
  induction t generalizing s a with
  | nil => exact (List.cons.inj h).1.symm
  | cons c r ih =>
    obtain ⟨b, bs, hb⟩ := exists_cuts p (s.step c) r
    rw [cuts, hb] at h
    split at h
    · cases h
    · obtain ⟨rfl, rfl⟩ := List.cons.inj h
      rw [ih hb]

end Nesting

theorem Text.Balanced.append_cons_iff {a r : Text} (ha : (Nesting.outside.run a).topLevel)
    {c : Char} (hc : isPlain c) : Text.Balanced (a ++ c :: r) ↔ a.Balanced ∧ r.Balanced := by
  refine ⟨fun ⟨opened, closed⟩ => ?_, fun ⟨h, h'⟩ => h.append_cons hc h'⟩
  rw [Nesting.opened_append, Nesting.opened, Nesting.step_plain ha hc, Bool.and_eq_true,
    Bool.and_eq_true] at opened
  rw [Nesting.run_append, Nesting.run_cons, Nesting.step_plain ha hc] at closed
  exact ⟨⟨opened.1, ha⟩, opened.2.2, closed⟩

theorem Text.Balanced.plain_append_iff {x t : Text} (hx : ∀ c ∈ x, isPlain c) :
    Text.Balanced (x ++ t) ↔ t.Balanced := by
  rw [Text.balanced_iff, Nesting.opened_append, Nesting.run_append, Nesting.run_plain_outside hx,
    Nesting.opened_plain hx, Bool.true_and, ← Text.balanced_iff]

theorem Text.Balanced.append_plain_iff {t x : Text} (hx : ∀ c ∈ x, isPlain c) :
    Text.Balanced (t ++ x) ↔ t.Balanced := by
  rw [Text.balanced_iff, Nesting.opened_append, Nesting.run_append, Nesting.opened_plain hx,
    Bool.and_true, Text.balanced_iff]
  refine and_congr_right fun _ => ⟨?_, Nesting.topLevel_run_plain hx⟩
  exact Nesting.topLevel_of_run (Nesting.isQuote_run_outside t) hx

namespace Lexeme

theorem clear_bar {r : Text} : Clear ('|' :: r) ↔ Clear r := by
  rw [Clear, ofText_sign (s := .pipe) rfl trivial, List.forall_mem_cons]
  exact and_iff_right ⟨rfl, rfl⟩

theorem clear_append_bar {a r : Text} (closed : (Nesting.outside.run a).topLevel) :
    Clear (a ++ '|' :: r) ↔ Clear a ∧ Clear r := by
  rw [clear_append_iff (apart_cons (by decide) r) (Nesting.inCode_of_topLevel closed), clear_bar]

end Lexeme

namespace TypeText

/-- The text can be written between the bars of a union. -/
structure IsMember (t : Text) : Prop where
  clear : Lexeme.Clear t
  balanced : t.Balanced
  undivided : ∀ d ∈ [',', ';'], (Nesting.outside.breakAt (· == d) t).2 = []

theorem isWritten_iff_isMember {t : Text} : IsWritten t ↔ t ≠ [] ∧ IsMember t := by
  constructor
  · rintro ⟨ne_nil, commentFree, balanced, tokens, noComma, noSemicolon⟩
    refine ⟨ne_nil, fun l hl => ⟨Token.exists_tokenize_iff.1 tokens l hl, commentFree l hl⟩,
      balanced, ?_⟩
    exact List.forall_mem_cons.2 ⟨findTopLevel_eq_none_iff.1 noComma,
      List.forall_mem_singleton.2 (findTopLevel_eq_none_iff.1 noSemicolon)⟩
  · rintro ⟨ne_nil, clear, balanced, undivided⟩
    exact ⟨ne_nil, fun l hl => (clear l hl).2, balanced,
      Token.exists_tokenize_iff.2 fun l hl => (clear l hl).1,
      findTopLevel_eq_none_iff.2 (undivided ',' (by simp)),
      findTopLevel_eq_none_iff.2 (undivided ';' (by simp))⟩

namespace IsMember

theorem ne_of_isBlank {c d : Char} (hc : Text.isBlank c) (hd : d ∈ [',', ';']) :
    (c == d) = false := by
  rw [beq_eq_false_iff_ne]
  rintro rfl
  simp only [List.mem_cons, List.not_mem_nil, or_false] at hd
  rcases hd with rfl | rfl <;> cases hc

/-- A bar at top level stands between two texts that can be written there. -/
theorem append_bar_iff {a r : Text} (ha : (Nesting.outside.run a).topLevel) :
    IsMember (a ++ '|' :: r) ↔ IsMember a ∧ IsMember r := by
  have clear := Lexeme.clear_append_bar (r := r) ha
  have balanced : Text.Balanced (a ++ '|' :: r) ↔ a.Balanced ∧ r.Balanced :=
    Text.Balanced.append_cons_iff ha (by decide)
  have undivided {d : Char} (hd : d ∈ [',', ';']) :
      (Nesting.outside.breakAt (· == d) (a ++ '|' :: r)).2 = [] ↔
        (Nesting.outside.breakAt (· == d) a).2 = [] ∧
          (Nesting.outside.breakAt (· == d) r).2 = [] := by
    have hne : ('|' == d) = false := by
      simp only [List.mem_cons, List.not_mem_nil, or_false] at hd
      rcases hd with rfl | rfl <;> rfl
    rw [Nesting.breakAt_append_eq_nil_iff, Nesting.breakAt, hne, Bool.and_false,
      if_neg Bool.false_ne_true, Nesting.step_plain ha (by decide)]
  constructor
  · intro h
    obtain ⟨hca, hcr⟩ := clear.1 h.clear
    obtain ⟨hba, hbr⟩ := balanced.1 h.balanced
    exact ⟨⟨hca, hba, fun d hd => ((undivided hd).1 (h.undivided d hd)).1⟩,
      hcr, hbr, fun d hd => ((undivided hd).1 (h.undivided d hd)).2⟩
  · rintro ⟨h, h'⟩
    exact ⟨clear.2 ⟨h.clear, h'.clear⟩, balanced.2 ⟨h.balanced, h'.balanced⟩,
      fun d hd => (undivided hd).2 ⟨h.undivided d hd, h'.undivided d hd⟩⟩

theorem breakAt_blank {w : Text} (hw : w.blank) {d : Char} (hd : d ∈ [',', ';']) (s : Nesting) :
    (s.breakAt (· == d) w).2 = [] := by
  rw [Nesting.breakAt_eq_self fun c hc => ne_of_isBlank (Text.isBlank_of_mem hw hc) hd]

theorem breakAt_blank_append {w : Text} (hw : w.blank) {d : Char} (hd : d ∈ [',', ';'])
    (t : Text) : (Nesting.outside.breakAt (· == d) (w ++ t)).2 = [] ↔
      (Nesting.outside.breakAt (· == d) t).2 = [] := by
  rw [Nesting.breakAt_append_eq_nil_iff, Nesting.run_blank hw]
  exact and_iff_right (breakAt_blank hw hd _)

theorem breakAt_append_blank {w : Text} (hw : w.blank) {d : Char} (hd : d ∈ [',', ';'])
    (t : Text) : (Nesting.outside.breakAt (· == d) (t ++ w)).2 = [] ↔
      (Nesting.outside.breakAt (· == d) t).2 = [] := by
  rw [Nesting.breakAt_append_eq_nil_iff]
  exact and_iff_left (breakAt_blank hw hd _)

theorem trim {t : Text} (h : IsMember t) : IsMember t.trim := by
  obtain ⟨v, w, hv, hw, ht⟩ := Text.exists_trim t
  rw [ht, List.append_assoc] at h
  have balanced := (Text.Balanced.plain_append_iff (isPlain_of_blank hv)).1 h.balanced
  have balanced' := (Text.Balanced.append_plain_iff (isPlain_of_blank hw)).1 balanced
  have clear := (Lexeme.clear_of_blank_append hv h.clear).2
  refine ⟨?_, balanced', fun d hd => ?_⟩
  · exact ((Lexeme.clear_append_iff (Lexeme.apart_blank hw)
      (Nesting.inCode_of_topLevel balanced'.closed)).1 clear).1
  · exact (breakAt_append_blank hw hd _).1 ((breakAt_blank_append hv hd _).1 (h.undivided d hd))

theorem spaced {t v w : Text} (h : IsMember t) (hv : ∀ c ∈ v, Lexeme.isSeparator c)
    (hw : ∀ c ∈ w, Lexeme.isSeparator c) : IsMember (v ++ t ++ w) := by
  have blank {x : Text} (hx : ∀ c ∈ x, Lexeme.isSeparator c) := Lexeme.blank_of_isSeparator hx
  have spaces : Lexeme.Clear w := by
    have := (Lexeme.clear_separators_append hw []).2 fun l hl => by simp at hl
    rwa [List.append_nil] at this
  rw [List.append_assoc]
  refine ⟨?_, ?_, fun d hd => ?_⟩
  · exact (Lexeme.clear_separators_append hv _).2 ((Lexeme.clear_append_iff
      (Lexeme.apart_blank (blank hw)) (Nesting.inCode_of_topLevel h.balanced.closed)).2
        ⟨h.clear, spaces⟩)
  · exact (Text.Balanced.plain_append_iff (isPlain_of_blank (blank hv))).2
      ((Text.Balanced.append_plain_iff (isPlain_of_blank (blank hw))).2 h.balanced)
  · exact (breakAt_blank_append (blank hv) hd _).2
      ((breakAt_append_blank (blank hw) hd _).2 (h.undivided d hd))

theorem of_mem_cuts {t p : Text} (h : IsMember t)
    (hp : p ∈ Nesting.outside.cuts (· == '|') t) : IsMember p := by
  obtain ⟨a, as, hcuts⟩ := Nesting.exists_cuts (· == '|') .outside t
  rw [hcuts] at hp
  induction as generalizing t a with
  | nil =>
    rw [List.mem_singleton.1 hp, Nesting.eq_of_cuts_singleton hcuts]
    exact h
  | cons b bs ih =>
    obtain ⟨c, r, rfl, ha, hc, hr⟩ := Nesting.exists_of_cuts (opensNothing_of_beq (by decide)) hcuts
    obtain rfl := beq_iff_eq.1 hc
    obtain ⟨hma, hmr⟩ := (append_bar_iff ha).1 h
    rcases List.mem_cons.1 hp with rfl | hp
    · exact hma
    · exact ih hmr b hp hr

theorem of_mem_unionMembers {t m : Text} (h : IsMember t) (hm : m ∈ unionMembers t) :
    IsMember m := by
  rw [unionMembers_eq, parts, tidy, List.mem_filter, List.mem_map] at hm
  obtain ⟨⟨p, hp, rfl⟩, -⟩ := hm
  exact (h.of_mem_cuts hp).trim

end IsMember

theorem blank_of_mem_unionMembers {t m : Text} (hm : m ∈ unionMembers t) : t.blank = false := by
  cases hb : t.blank with
  | false => rfl
  | true =>
    rw [unionMembers_eq, parts_blank hb] at hm
    cases hm

theorem isNullish_iff {m : Text} : isNullish m ↔ m = "null".toList ∨ m = "undefined".toList := by
  rw [isNullish, Bool.or_eq_true, beq_iff_eq, beq_iff_eq]

theorem isWritten_of_isNullish {m : Text} (h : isNullish m) :
    IsWritten m ∧ unionMembers m = [m] := by
  rcases isNullish_iff.1 h with rfl | rfl <;> decide +kernel

/-- No member of the union is empty: no bar stands first, last or right after another one. -/
def IsFull (t : Text) : Prop := ∀ p ∈ Nesting.outside.cuts (· == '|') t, p.blank = false

instance : DecidablePred IsFull := fun _ => inferInstanceAs (Decidable (∀ _ ∈ _, _))

namespace IsFull

theorem unionMembers_eq {t : Text} (h : IsFull t) :
    unionMembers t = (Nesting.outside.cuts (· == '|') t).map Text.trim := by
  rw [TypeText.unionMembers_eq, parts, tidy, List.filter_eq_self]
  intro m hm
  obtain ⟨p, hp, rfl⟩ := List.mem_map.1 hm
  rw [Bool.not_eq_true', List.isEmpty_eq_false_iff, ne_eq, Text.trim_eq_nil_iff, h p hp]
  exact Bool.false_ne_true

theorem dropWhile_collapse {t : Text} (h : IsFull t) :
    t.collapse.dropWhile (· == '|') = t.collapse := by
  obtain ⟨w, hw, ht⟩ := Text.exists_trimStart t
  rw [Text.collapse]
  cases hstart : t.trimStart with
  | nil => rfl
  | cons c r =>
    have hc : (c == '|') = false := by
      rw [beq_eq_false_iff_ne]
      rintro rfl
      have noBar : ∀ c ∈ w, (c == '|') = false := fun c hc => by
        rw [beq_eq_false_iff_ne]
        rintro rfl
        cases Text.isBlank_of_mem hw hc
      have cut := Nesting.cuts_append (· == '|') .outside w (c := '|') r
        (by rw [Nesting.run_blank hw]; rfl) rfl
      rw [← hstart, ← ht, Nesting.cuts_eq_singleton noBar] at cut
      have solid := h w (by rw [cut]; exact List.mem_cons_self)
      rw [hw] at solid
      cases solid
    rw [Text.squeeze_solid (Text.isBlank_head_trimStart hstart),
      List.dropWhile_cons_of_neg (by rw [hc]; exact Bool.false_ne_true)]

/-- Without empty members a normalized union is written from its members. -/
theorem normalize_eq {t : Text} (h : IsFull t) :
    normalize t = union ((unionMembers t).map Text.collapse) := by
  have bare : Text.trim (t.collapse.dropWhile (· == '|')) = t.collapse := by
    rw [h.dropWhile_collapse, Text.collapse_eq, Text.trim_trim]
  have members : unionMembers t.collapse = (unionMembers t).map Text.collapse := by
    rw [TypeText.unionMembers_eq, TypeText.unionMembers_eq,
      parts_collapse (isBlank_of_beq (by decide))]
  rw [normalize, bare, members]
  obtain ⟨a, as, hcuts⟩ := Nesting.exists_cuts (· == '|') .outside t
  rw [h.unionMembers_eq, hcuts]
  cases as with
  | nil =>
    rw [Nesting.eq_of_cuts_singleton hcuts]
    exact (Text.collapse_trim t).symm
  | cons b bs => rfl

end IsFull

def properMembers (t : Text) : List Text := (unionMembers t).filter (!isNullish ·)

theorem properMembers_normalize (t : Text) :
    properMembers (normalize t) = (properMembers t).map Text.collapse := by
  rw [properMembers, unionMembers_normalize, List.filter_map, properMembers]
  congr 1
  refine List.filter_congr fun m hm => ?_
  rw [Function.comp_apply, isNullish_collapse (trim_of_mem_unionMembers hm)]

theorem splitNullish_of_admitsNullish {t : Text} (h : admitsNullish t) :
    splitNullish t = (union ((properMembers t).map Text.collapse), true) := by
  have second := (splitNullish_snd t).trans h
  have proper := properMembers_normalize t
  rw [properMembers] at proper
  rw [splitNullish] at second ⊢
  split at second
  · cases second
  · rename_i hsome
    rw [if_neg hsome, proper]

theorem splitNullish_of_not_admitsNullish {t : Text} (h : admitsNullish t = false) :
    splitNullish t = (normalize t, false) := by
  have second := (splitNullish_snd t).trans h
  rw [splitNullish] at second ⊢
  split at second
  · rename_i hnone
    rw [if_pos hnone]
  · cases second

/-- Where another member stands, only a nullish one makes a union admit nullish values. -/
theorem properMembers_eq {t : Text} (h : admitsNullish t = false)
    (proper : ∃ m ∈ unionMembers t, isNullish m = false) : properMembers t = unionMembers t := by
  rw [properMembers, List.filter_eq_self]
  intro m hm
  rw [Bool.not_eq_true']
  rcases Bool.and_eq_false_iff.1 h with hno | hno
  · exact Bool.eq_false_iff.2 (List.any_eq_false.1 hno m hm)
  · obtain ⟨n, hn, hp⟩ := proper
    have := List.any_eq_false.1 hno n hn
    rw [hp] at this
    exact absurd rfl this

theorem splitNullish_fst_of_isFull {t : Text} (h : IsFull t)
    (proper : ∃ m ∈ unionMembers t, isNullish m = false) :
    (splitNullish t).1 = union ((properMembers t).map Text.collapse) := by
  cases hadmits : admitsNullish t with
  | true => rw [splitNullish_of_admitsNullish hadmits]
  | false =>
    rw [splitNullish_of_not_admitsNullish hadmits, h.normalize_eq, properMembers_eq hadmits proper]

/-- The second list has the members of the first one in their order, and nullish ones anywhere
between them. -/
inductive Inserted : List Text → List Text → Prop
  | nil : Inserted [] []
  | keep {m : Text} {ms us : List Text} : Inserted ms us → Inserted (m :: ms) (m :: us)
  | insert {m : Text} {ms us : List Text} : isNullish m → Inserted ms us → Inserted ms (m :: us)

namespace Inserted

variable {ms us : List Text} (h : Inserted ms us)

include h

theorem filter_eq : us.filter (!isNullish ·) = ms.filter (!isNullish ·) := by
  induction h with
  | nil => rfl
  | keep _ ih => rw [List.filter_cons, List.filter_cons, ih]
  | insert hm _ ih => rw [List.filter_cons, hm, ih]; rfl

theorem mem {m : Text} (hm : m ∈ us) : m ∈ ms ∨ isNullish m := by
  induction h with
  | nil => cases hm
  | keep _ ih =>
    rcases List.mem_cons.1 hm with rfl | hm
    · exact .inl List.mem_cons_self
    · exact (ih hm).imp_left (List.mem_cons_of_mem _)
  | insert hn _ ih =>
    rcases List.mem_cons.1 hm with rfl | hm
    · exact .inr hn
    · exact ih hm

theorem any_isNullish (more : ms.length < us.length) : us.any isNullish := by
  induction h with
  | nil => cases more
  | keep _ ih =>
    rw [List.any_cons, ih (by simpa using more), Bool.or_true]
  | insert hn _ _ => rw [List.any_cons, hn, Bool.true_or]

end Inserted

/-- The union is written with these members and any white space between tokens around each. -/
inductive LaidOut : List Text → Text → Prop
  | last {v m w : Text} : (∀ c ∈ v, Lexeme.isSeparator c) → (∀ c ∈ w, Lexeme.isSeparator c) →
      LaidOut [m] (v ++ m ++ w)
  | bar {v m w t : Text} {ms : List Text} : (∀ c ∈ v, Lexeme.isSeparator c) →
      (∀ c ∈ w, Lexeme.isSeparator c) → LaidOut ms t → LaidOut (m :: ms) (v ++ m ++ w ++ '|' :: t)

namespace LaidOut

variable {ms : List Text} {t : Text} (h : LaidOut ms t)

include h

theorem isMember (hms : ∀ m ∈ ms, IsMember m) : IsMember t := by
  induction h with
  | last hv hw => exact (hms _ List.mem_cons_self).spaced hv hw
  | bar hv hw _ ih =>
    obtain ⟨hm, hms⟩ := List.forall_mem_cons.1 hms
    have spaced := hm.spaced hv hw
    exact (IsMember.append_bar_iff spaced.balanced.closed).2 ⟨spaced, ih hms⟩

theorem unionMembers_eq (hms : ∀ m ∈ ms, IsMember m)
    (whole : ∀ m ∈ ms, TypeText.unionMembers m = [m]) : unionMembers t = ms := by
  have blank {x : Text} (hx : ∀ c ∈ x, Lexeme.isSeparator c) := Lexeme.blank_of_isSeparator hx
  have spaced {v m w : Text} (hv : ∀ c ∈ v, Lexeme.isSeparator c)
      (hw : ∀ c ∈ w, Lexeme.isSeparator c) (hm : TypeText.unionMembers m = [m]) :
      parts (· == '|') (v ++ m ++ w) = [m] := by
    rw [parts_append_right (blank hw),
      parts_append_left (blank hv), ← TypeText.unionMembers_eq, hm]
  induction h with
  | last hv hw =>
    rw [TypeText.unionMembers_eq, spaced hv hw (whole _ List.mem_cons_self)]
  | bar hv hw _ ih =>
    obtain ⟨hm, hms⟩ := List.forall_mem_cons.1 hms
    obtain ⟨hwhole, whole⟩ := List.forall_mem_cons.1 whole
    have rest := ih hms whole
    rw [TypeText.unionMembers_eq] at rest ⊢
    rw [parts_append (opensNothing_of_beq (by decide)) (hm.spaced hv hw).balanced.closed rfl,
      spaced hv hw hwhole, rest]
    rfl

end LaidOut

/-- A union with nullish members inserted is a type that can be written, and it is split into the
type that it was and the word that it admits nullish values. -/
theorem splitNullish_inserted {t u : Text} {ms : List Text} (ht : IsWritten t) (full : IsFull t)
    (proper : ∃ m ∈ unionMembers t, isNullish m = false) (inserted : Inserted (unionMembers t) ms)
    (more : (unionMembers t).length < ms.length) (laid : LaidOut ms u) :
    IsWritten u ∧ u.blank = false ∧ admitsNullish u ∧ (splitNullish u).1 = (splitNullish t).1 := by
  have members : ∀ m ∈ ms, IsMember m ∧ unionMembers m = [m] := fun m hm => by
    rcases inserted.mem hm with hm | hm
    · exact ⟨(isWritten_iff_isMember.1 ht).2.of_mem_unionMembers hm,
        unionMembers_of_mem hm⟩
    · obtain ⟨written, whole⟩ := isWritten_of_isNullish hm
      exact ⟨(isWritten_iff_isMember.1 written).2, whole⟩
  have listed : unionMembers u = ms :=
    laid.unionMembers_eq (fun m hm => (members m hm).1) fun m hm => (members m hm).2
  obtain ⟨m, hm, hproper⟩ := proper
  have kept : m ∈ unionMembers u ∧ (!isNullish m) = true := by
    rw [listed, ← List.mem_filter (p := (!isNullish ·)), inserted.filter_eq, List.mem_filter,
      hproper]
    exact ⟨hm, rfl⟩
  have admits : admitsNullish u := by
    have some := inserted.any_isNullish more
    rw [← listed] at some
    rw [admitsNullish, some, List.any_eq_true.2 ⟨m, kept⟩]
    rfl
  have solid := blank_of_mem_unionMembers kept.1
  refine ⟨isWritten_iff_isMember.2 ⟨?_, laid.isMember fun m hm => (members m hm).1⟩, solid,
    admits, ?_⟩
  · rintro rfl
    cases solid
  · rw [splitNullish_of_admitsNullish admits, splitNullish_fst_of_isFull full ⟨m, hm, hproper⟩,
      properMembers, properMembers, listed, inserted.filter_eq]

end TypeText

end WebSurface
