import Mathlib.Data.List.Induction
import WebSurface.Span
set_option autoImplicit false

namespace WebSurface

namespace Text

/-- The byte offset at which a line starts. Lines count from one, and the text after the last line
feed is a line too. -/
def lineStart (t : Text) (line : Nat) : Nat := bytes ((lines t).take (line - 1)).flatten

def EndsLine (t : Text) : Prop := ∀ c ∈ t.getLast?, c = '\n'

theorem lines_append {x : Text} (hx : x.EndsLine) (z : Text) :
    lines (x ++ z) = lines x ++ lines z := by
  induction x with
  | nil => rfl
  | cons c r ih =>
    rw [List.cons_append, lines, lines]
    cases r with
    | nil =>
      obtain rfl : c = '\n' := hx c rfl
      rfl
    | cons d r =>
      have rest := ih fun e he => hx e (by rwa [List.getLast?_cons_cons])
      rw [rest]
      split
      · rfl
      · cases h : lines (d :: r) with
        | nil => exact absurd (congrArg List.flatten h) (by simp)
        | cons l ls => rfl

theorem length_lines {x : Text} (hx : x.EndsLine) : (lines x).length = x.count '\n' := by
  induction x with
  | nil => rfl
  | cons c r ih =>
    rw [lines, List.count_cons]
    cases r with
    | nil =>
      obtain rfl : c = '\n' := hx c rfl
      rfl
    | cons d r =>
      have rest := ih fun e he => hx e (by rwa [List.getLast?_cons_cons])
      split
      · rename_i hc
        simp [hc, rest]
      · rename_i hc
        cases h : lines (d :: r) with
        | nil => exact absurd (congrArg List.flatten h) (by simp)
        | cons l ls => rw [h] at rest; simpa [hc] using rest

theorem exists_lastLine (t : Text) : ∃ x y, t = x ++ y ∧ x.EndsLine ∧ '\n' ∉ y := by
  induction t using List.reverseRecOn with
  | nil => exact ⟨[], [], rfl, by simp [EndsLine], by simp⟩
  | append_singleton t c ih =>
    obtain ⟨x, y, rfl, hx, hy⟩ := ih
    by_cases hc : c = '\n'
    · exact ⟨x ++ y ++ [c], [], by simp, by simp [EndsLine, hc], by simp⟩
    · exact ⟨x, y ++ [c], by simp, hx, by simpa [hy] using Ne.symm hc⟩

theorem lineStart_append {x : Text} (hx : x.EndsLine) (z : Text) :
    lineStart (x ++ z) (x.count '\n' + 1) = bytes x := by
  rw [lineStart, lines_append hx, Nat.add_sub_cancel, ← length_lines hx, List.take_left,
    flatten_lines]

end Text

namespace Position

open Text (bytes EndsLine)

/-- The order in which a text is read: by lines, and by columns within a line. -/
instance : LT Position := ⟨fun p q => p.line < q.line ∨ p.line = q.line ∧ p.column < q.column⟩

instance (p q : Position) : Decidable (p < q) := inferInstanceAs (Decidable (_ ∨ _))

theorem lt_iff {p q : Position} :
    p < q ↔ p.line < q.line ∨ p.line = q.line ∧ p.column < q.column := Iff.rfl

theorem lt_irrefl (p : Position) : ¬p < p := by
  rw [lt_iff]
  omega

theorem lt_trans {p q r : Position} (hpq : p < q) (hqr : q < r) : p < r := by
  rw [lt_iff] at *
  omega

theorem lt_advance (p : Position) (c : Char) : p < p.advance c := by
  have size := c.utf8Size_pos
  rw [advance, lt_iff]
  split
  · exact .inl (Nat.lt_succ_self p.line)
  · exact .inr ⟨rfl, Nat.lt_add_of_pos_right size⟩

theorem lt_foldl_advance {t : Text} (ht : t ≠ []) (p : Position) : p < t.foldl advance p := by
  induction t generalizing p with
  | nil => exact absurd rfl ht
  | cons c r ih =>
    cases r with
    | nil => exact lt_advance p c
    | cons d r => exact lt_trans (lt_advance p c) (ih (List.cons_ne_nil d r) (p.advance c))

theorem atEnd_append (t u : Text) : atEnd (t ++ u) = u.foldl advance (atEnd t) :=
  List.foldl_append

theorem line_atEnd (t : Text) : (atEnd t).line = t.count '\n' + 1 := by
  induction t using List.reverseRecOn with
  | nil => rfl
  | append_singleton t c ih =>
    rw [atEnd_append_singleton, advance, List.count_append]
    split
    · rename_i hc
      simp [hc, ih]
    · rename_i hc
      simp [hc, ih]

theorem column_of_endsLine {t : Text} (ht : t.EndsLine) : (atEnd t).column = 1 := by
  rcases List.eq_nil_or_concat t with rfl | ⟨t, c, rfl⟩
  · rfl
  · rw [List.concat_eq_append] at ht ⊢
    rw [atEnd_append_singleton, advance, if_pos (ht c (by simp))]

/-- A place is as far from the start of its line as its column says. -/
theorem lineStart_atEnd (t r : Text) :
    (t ++ r).lineStart (atEnd t).line + (atEnd t).column = bytes t + 1 := by
  obtain ⟨x, y, rfl, hx, hy⟩ := t.exists_lastLine
  have last : atEnd (x ++ y) = ⟨x.count '\n' + 1, 1 + bytes y⟩ := by
    rw [atEnd_append, foldl_advance hy, line_atEnd, column_of_endsLine hx]
  rw [last, List.append_assoc, Text.lineStart_append hx, Text.bytes_append, Nat.add_comm 1,
    Nat.add_assoc]

theorem atEnd_lt {a b r s : Text} (same : a ++ r = b ++ s) (shorter : bytes a < bytes b) :
    atEnd a < atEnd b := by
  rcases List.append_eq_append_iff.1 same with ⟨z, rfl, -⟩ | ⟨z, rfl, -⟩
  · have hz : z ≠ [] := by
      rintro rfl
      simp at shorter
    rw [atEnd_append]
    exact lt_foldl_advance hz (atEnd a)
  · rw [Text.bytes_append] at shorter
    omega

/-- Places come in the order of their offsets and each has one offset only, which is where its line
starts and as many bytes more as its column says. -/
theorem ofOffset_ordered {t a b r s : Text} {m n : Nat} (hm : t.splitAt? m = some (a, r))
    (hn : t.splitAt? n = some (b, s)) :
    (ofOffset t m < ofOffset t n ↔ m < n) ∧ (ofOffset t m = ofOffset t n ↔ m = n) ∧
    (ofOffset t n).line = b.count '\n' + 1 ∧
    t.lineStart (ofOffset t n).line + (ofOffset t n).column = n + 1 := by
  obtain ⟨rfl, rfl⟩ := Text.eq_of_splitAt? hm
  obtain ⟨same, rfl⟩ := Text.eq_of_splitAt? hn
  have second : ofOffset (a ++ r) (bytes b) = atEnd b := by rw [same, ofOffset_bytes]
  have before := atEnd_lt same
  have after := atEnd_lt same.symm
  have here (h : bytes a = bytes b) : atEnd a = atEnd b := by rw [← second, ← h, ofOffset_bytes]
  rw [ofOffset_bytes, second]
  refine ⟨⟨fun lt => ?_, before⟩, ⟨fun eq => ?_, here⟩, line_atEnd b, ?_⟩
  · rcases Nat.lt_trichotomy (bytes a) (bytes b) with h | h | h
    · exact h
    · rw [here h] at lt
      exact absurd lt (lt_irrefl _)
    · exact absurd (lt_trans lt (after h)) (lt_irrefl _)
  · rcases Nat.lt_trichotomy (bytes a) (bytes b) with h | h | h
    · exact absurd (eq ▸ before h) (lt_irrefl _)
    · exact h
    · exact absurd (eq ▸ after h) (lt_irrefl _)
  · rw [same]
    exact lineStart_atEnd b s

/-- Before and after a line feed that ends an empty line, behind a character of two bytes. -/
theorem ofOffset_ordered_emptyLine :
    let t : Text := "é\n\né".toList
    t.splitAt? 3 = some ("é\n".toList, "\né".toList) ∧
      t.splitAt? 6 = some ("é\n\né".toList, []) ∧
      ofOffset t 3 < ofOffset t 6 ∧ ofOffset t 3 ≠ ofOffset t 6 ∧
      (ofOffset t 6).line = 3 ∧ t.lineStart 3 + (ofOffset t 6).column = 7 := by
  intro t
  have first : t.splitAt? 3 = some ("é\n".toList, "\né".toList) := by decide
  have second : t.splitAt? 6 = some ("é\n\né".toList, []) := by decide
  obtain ⟨ordered, once, line, column⟩ := ofOffset_ordered first second
  refine ⟨first, second, ordered.2 (by decide), mt once.1 (by decide), line, ?_⟩
  rwa [line] at column

end Position

end WebSurface
