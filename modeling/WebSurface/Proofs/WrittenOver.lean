import Mathlib.Data.List.Forall2
import WebSurface.Proofs.CommentCover
import WebSurface.Proofs.Utf8
set_option autoImplicit false

/-!
Texts in which characters are written over.

`Text.WrittenOver` says of a text that it is another one in which some characters became spaces, as
many for each as it has bytes, and line feeds stayed. So every place of the one text is a place of
the other, on the same line and in the same column. Comments are written over in this way, and once
they are, none is left to write over (`Text.blankComments_inPlace`).
-/

namespace WebSurface

open CommentMode (cover)

/-- The second text is the first one with some of its characters written over. -/
inductive Text.WrittenOver : Text → Text → Prop
  | nil : WrittenOver [] []
  | keep (c : Char) {t u : Text} : WrittenOver t u → WrittenOver (c :: t) (c :: u)
  | cover (c : Char) {t u : Text} : WrittenOver t u → WrittenOver (c :: t) (cover c ++ u)

namespace Position

theorem advance_cover (p : Position) (c : Char) : (cover c).foldl advance p = p.advance c := by
  by_cases hc : c = '\n'
  · rw [hc]
    rfl
  · have space : '\n' ∉ cover c := by
      rw [cover, if_neg hc]
      exact fun h => absurd (List.eq_of_mem_replicate h) (by decide)
    rw [foldl_advance space, CommentMode.bytes_cover, advance, if_neg hc]

end Position

namespace Text

theorem ne_newline_of_mem_encode {c : Char} (hc : c ≠ '\n') :
    ∀ b ∈ String.utf8EncodeChar c, b ≠ '\n'.toUInt8 := by
  rw [utf8EncodeChar_eq, List.forall_mem_cons]
  refine ⟨?_, fun b hb => ?_⟩
  · rw [← beq_eq_false_iff_ne, lead_beq (by decide), beq_eq_false_iff_ne]
    exact hc
  · rw [← beq_eq_false_iff_ne]
    exact trail_beq (by decide) (isTrail_of_mem_trail c b hb)

/-- The byte `w` in the place of `b`: the same, or a space unless `b` is a line feed. -/
def InPlace (b w : UInt8) : Prop := w = b ∨ b ≠ '\n'.toUInt8 ∧ w = ' '.toUInt8

theorem inPlace_refl (bs : List UInt8) : List.Forall₂ InPlace bs bs :=
  List.forall₂_same.2 fun _ _ => .inl rfl

theorem inPlace_spaces {bs : List UInt8} (h : ∀ b ∈ bs, b ≠ '\n'.toUInt8) :
    List.Forall₂ InPlace bs (List.replicate bs.length ' '.toUInt8) := by
  induction bs with
  | nil => exact .nil
  | cons b bs ih =>
    obtain ⟨hb, hbs⟩ := List.forall_mem_cons.1 h
    exact .cons (.inr ⟨hb, rfl⟩) (ih hbs)

theorem inPlace_cover (c : Char) :
    List.Forall₂ InPlace (String.utf8EncodeChar c) (utf8 (cover c)) := by
  rw [cover]
  split
  · rename_i hc
    rw [hc]
    exact inPlace_refl _
  · rename_i hc
    rw [utf8_spaces, ← String.length_utf8EncodeChar]
    exact inPlace_spaces (ne_newline_of_mem_encode hc)

theorem getElem?_newline {bs ws : List UInt8} (h : List.Forall₂ InPlace bs ws) (i : Nat) :
    ws[i]? = some '\n'.toUInt8 ↔ bs[i]? = some '\n'.toUInt8 := by
  induction h generalizing i with
  | nil => rfl
  | @cons b w _ _ hb _ ih =>
    cases i with
    | zero =>
      rcases hb with rfl | ⟨hb, rfl⟩
      · rfl
      · simpa [hb] using (by decide : ' '.toUInt8 ≠ '\n'.toUInt8)
    | succ i => exact ih i

namespace WrittenOver

variable {t u : Text}

theorem bytes_eq (h : t.WrittenOver u) : bytes u = bytes t := by
  induction h with
  | nil => rfl
  | keep c _ ih => rw [bytes_cons, bytes_cons, ih]
  | cover c _ ih => rw [bytes_append, CommentMode.bytes_cover, bytes_cons, ih]

theorem forall₂_utf8 (h : t.WrittenOver u) : List.Forall₂ InPlace t.utf8 u.utf8 := by
  induction h with
  | nil => exact .nil
  | keep c _ ih => exact List.rel_append (inPlace_refl _) ih
  | cover c _ ih =>
    rw [utf8_append]
    exact List.rel_append (inPlace_cover c) ih

theorem atEnd_eq (h : t.WrittenOver u) : Position.atEnd u = Position.atEnd t := by
  unfold Position.atEnd
  generalize Position.start = p
  induction h generalizing p with
  | nil => rfl
  | keep c _ ih => exact ih (p.advance c)
  | cover c _ ih => rw [List.foldl_append, Position.advance_cover, ih, List.foldl_cons]

/-- What is written over a text is written over its beginning and over the rest. -/
theorem split {a b : Text} (h : (a ++ b).WrittenOver u) :
    ∃ x y, u = x ++ y ∧ a.WrittenOver x ∧ b.WrittenOver y := by
  induction a generalizing u with
  | nil => exact ⟨[], u, rfl, .nil, h⟩
  | cons c a ih =>
    cases h with
    | keep _ h =>
      obtain ⟨x, y, rfl, hx, hy⟩ := ih h
      exact ⟨c :: x, y, rfl, hx.keep c, hy⟩
    | cover _ h =>
      obtain ⟨x, y, rfl, hx, hy⟩ := ih h
      exact ⟨_, y, (List.append_assoc ..).symm, hx.cover c, hy⟩

/-- A place of the text is on the same line and in the same column as before. -/
theorem ofOffset_eq {a b : Text} (h : (a ++ b).WrittenOver u) :
    Position.ofOffset u (bytes a) = Position.ofOffset (a ++ b) (bytes a) := by
  obtain ⟨x, y, rfl, hx, -⟩ := h.split
  rw [← hx.bytes_eq, Position.ofOffset_bytes, hx.bytes_eq, Position.ofOffset_bytes, hx.atEnd_eq]

end WrittenOver

end Text

namespace CommentMode

theorem writtenOver_blank (m : CommentMode) (t : Text) : t.WrittenOver (blank m t) := by
  fun_induction blank m t with
  | case1 => exact .nil
  | case2 r ih => exact (ih.cover '/').cover '/'
  | case3 r ih => exact (ih.cover '*').cover '/'
  | case4 c r _ _ ih => exact ih.keep c
  | case5 q c r ih => exact (ih.keep c).keep '\\'
  | case6 q c r _ ih => exact ih.keep c
  | case7 c r ih => exact ih.cover c
  | case8 r ih => exact (ih.cover '/').cover '*'
  | case9 c r _ ih => exact ih.cover c

/-- The mode in which what was written over in mode `m` is read again. -/
def again : CommentMode → CommentMode
  | .literal q => .literal q
  | .code | .line | .block => .code

theorem blank_code_cover (c : Char) (r : Text) :
    code.blank (cover c ++ r) = cover c ++ code.blank r := by
  refine blank_code_append (fun d hd => ?_) r
  have hd : d ∈ [c].flatMap cover := by simpa using hd
  exact plain_of_isSeparator (isSeparator_of_mem_cover d hd)

/-- The strings are the same when the text is read again, and no mark of a comment is left: one
that is cut short by a comment stands before a space. -/
theorem blank_blank (m : CommentMode) (t : Text) : m.again.blank (m.blank t) = m.blank t := by
  fun_induction blank m t with
  | case1 m => exact blank.eq_1 _
  | case2 r ih | case3 r ih =>
    refine (blank_code (by decide) rfl _).trans (congrArg _ ?_)
    exact (blank_code (by decide) rfl _).trans (congrArg _ ih)
  | case4 c r hline hblock ih =>
    have first {d : Char} (hd : d ≠ ' ') (hr : ∀ s, c = '/' → r = d :: s → False) :
        c = '/' → (blank (if isQuote c then .literal c else .code) r).head? ≠ some d := by
      rintro rfl h
      obtain ⟨s, rfl⟩ := List.head?_eq_some_iff.1 ((head?_blank_code h).resolve_right hd)
      exact hr s rfl rfl
    rw [apply_ite again, again, again] at ih
    exact (blank_code_cons (first (by decide) hline) (first (by decide) hblock)).trans
      (congrArg _ ih)
  | case5 q c r ih =>
    rw [again] at ih ⊢
    rw [blank, ih]
  | case6 q c r hback ih =>
    rw [apply_ite again, again, again] at ih
    rw [again, blank, ih]
    rintro d s rfl hs
    cases r with
    | nil => cases hs
    | cons e r => exact hback e r rfl rfl
  | case7 c r ih =>
    rw [apply_ite again, again, again, ite_self] at ih
    exact (blank_code_cover c _).trans (congrArg _ ih)
  | case8 r ih =>
    refine (blank_code (by decide) rfl _).trans (congrArg _ ?_)
    exact (blank_code (by decide) rfl _).trans (congrArg _ ih)
  | case9 c r _ ih => exact (blank_code_cover c _).trans (congrArg _ ih)

end CommentMode

namespace Text

/-- Writing over comments keeps every place of a text: its bytes are what they were or spaces, its
line feeds are where they were, and each place is on the line and in the column where it was. What
is left has no comment to write over. -/
theorem blankComments_inPlace (t : Text) :
    bytes t.blankComments = bytes t ∧
      (∀ i : Nat, t.blankComments.utf8[i]? = some '\n'.toUInt8 ↔ t.utf8[i]? = some '\n'.toUInt8) ∧
      List.Forall₂ (fun b w => w = b ∨ w = ' '.toUInt8) t.utf8 t.blankComments.utf8 ∧
      (∀ a b, t = a ++ b →
        Position.ofOffset t.blankComments (bytes a) = Position.ofOffset t (bytes a)) ∧
      t.blankComments.blankComments = t.blankComments := by
  have written : t.WrittenOver t.blankComments := CommentMode.writtenOver_blank .code t
  have inPlace := written.forall₂_utf8
  refine ⟨written.bytes_eq, getElem?_newline inPlace,
    inPlace.imp fun b w h => h.imp_right And.right, ?_, CommentMode.blank_blank .code t⟩
  rintro a b rfl
  exact written.ofOffset_eq

/-- A star between two comments, a string with a mark in it, and a comment that is not closed. -/
theorem blankComments_inPlace_marks :
    let a : Text := "é/*é\n*/*".toList
    let b : Text := "//é\n\"//\"/*/".toList
    a ++ b = "é/*é\n*/*//é\n\"//\"/*/".toList ∧
      blankComments (a ++ b) = "é    \n  *    \n\"//\"   ".toList ∧
      Position.ofOffset (blankComments (a ++ b)) (bytes a) = ⟨2, 4⟩ ∧
      blankComments (blankComments (a ++ b)) = blankComments (a ++ b) := by
  intro a b
  obtain ⟨-, -, -, places, same⟩ := blankComments_inPlace (a ++ b)
  exact ⟨rfl, by decide +kernel, (places a b rfl).trans (by decide +kernel), same⟩

end Text

end WebSurface
