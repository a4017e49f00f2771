import WebSurface.Proofs.Filing
import WebSurface.Proofs.InterfaceLayout
import WebSurface.Proofs.JoinedCorpus
import WebSurface.Proofs.ReadMembers
set_option autoImplicit false

namespace WebSurface

open Text (bytes)

theorem Skips.append_right {isSpace : Char → Bool} {g r : Text} (h : Skips isSpace g r)
    (hr : r ≠ []) (u : Text) : Skips isSpace g (r ++ u) := by
  induction h with
  | nil => exact .nil
  | space hc _ ih => exact .space hc (ih hr)
  | @line body g r hbody hstop _ ih =>
    refine .line hbody ?_ (ih hr)
    rwa [← List.append_assoc,
      List.head?_append_of_ne_nil _ (List.append_ne_nil_of_right_ne_nil g hr)]
  | block hbody _ ih => exact .block hbody (ih hr)

namespace CommentMode

/-- The character is no part of what begins or ends a comment and takes no other along. -/
def IsUnmarked (c : Char) : Prop := c ≠ '/' ∧ c ≠ '*' ∧ c ≠ '\\'

instance (c : Char) : Decidable (IsUnmarked c) :=
  inferInstanceAs (Decidable (c ≠ '/' ∧ c ≠ '*' ∧ c ≠ '\\'))

theorem exists_blank_cons {c : Char} (hc : IsUnmarked c) (m : CommentMode) :
    ∃ (y : Text) (m' : CommentMode), ∀ r, m.blank (c :: r) = y ++ m'.blank r := by
  obtain ⟨slash, star, back⟩ := hc
  cases m with
  | code =>
    exact ⟨[c], _, fun r => blank_code_cons (fun e => absurd e slash) fun e => absurd e slash⟩
  | literal q =>
    exact ⟨[c], _, fun r => blank_literal_cons fun e => absurd e back⟩
  | line => exact ⟨cover c, if c = '\n' then .code else .line, fun r => by rw [blank]⟩
  | block =>
    exact ⟨cover c, .block, fun r => blank_block_cons fun e => absurd e star⟩

/-- What is written for a text stays as it is, whatever follows, if the text does not end within the
mark of a comment. -/
theorem exists_blank_append {c : Char} (hc : IsUnmarked c) (m : CommentMode) (x u : Text) :
    ∃ z, m.blank (x ++ c :: u) = m.blank (x ++ [c]) ++ z := by
  -- Where one character is looked at ahead, it is one of the text or `c`, which is in no mark.
  have head {d : Char} (hd : c ≠ d) {x : Text} (hx : ∀ s, x = d :: s → False) (r : Text) :
      (x ++ c :: r).head? ≠ some d := by
    cases x with
    | nil => simpa using hd
    | cons e x =>
      rintro ⟨⟩
      exact hx x rfl
  fun_induction blank m x with
  | case1 m =>
    obtain ⟨y, m', h⟩ := exists_blank_cons hc m
    refine ⟨m'.blank u, ?_⟩
    rw [List.nil_append, List.nil_append, h, h, List.append_assoc]
    cases m' <;> rfl
  | case2 r ih | case3 r ih | case8 r ih =>
    obtain ⟨z, ih⟩ := ih
    exact ⟨z, by simp only [List.cons_append, blank, ih]⟩
  | case4 d r hline hblock ih =>
    obtain ⟨z, ih⟩ := ih
    refine ⟨z, ?_⟩
    have first (u : Text) : code.blank (d :: (r ++ c :: u)) =
        d :: blank (if isQuote d then .literal d else .code) (r ++ c :: u) :=
      blank_code_cons (fun e => head hc.1 (fun s => hline s e) u)
        fun e => head hc.2.1 (fun s => hblock s e) u
    rw [List.cons_append, List.cons_append, first, first, ih]
    rfl
  | case5 q c r ih =>
    obtain ⟨z, ih⟩ := ih
    exact ⟨z, by simp only [List.cons_append, blank, ih]⟩
  | case6 q d r hback ih =>
    obtain ⟨z, ih⟩ := ih
    by_cases hlast : d = '\\' ∧ r = []
    · -- The backslash takes along the character after it, which is `c` in both texts.
      obtain ⟨rfl, rfl⟩ := hlast
      exact ⟨(literal q).blank u, by simp [blank]⟩
    · have bare : d ≠ '\\' := by
        rintro rfl
        cases r with
        | nil => exact hlast ⟨rfl, rfl⟩
        | cons a r => exact hback a r rfl rfl
      have first (u : Text) := blank_literal_cons (q := q) (r := r ++ c :: u) fun e => absurd e bare
      refine ⟨z, ?_⟩
      rw [List.cons_append, List.cons_append, first, first, ih]
      rfl
  | case7 d r ih =>
    obtain ⟨z, ih⟩ := ih
    exact ⟨z, by simp only [List.cons_append, blank, ih, List.append_assoc]⟩
  | case9 d r hstar ih =>
    obtain ⟨z, ih⟩ := ih
    have first (u : Text) := blank_block_cons fun e => head hc.1 (fun s => hstar s e) u
    refine ⟨z, ?_⟩
    rw [List.cons_append, List.cons_append, first, first, ih, List.append_assoc]

end CommentMode

/-- A text is written as it is alone, with white space for what is skipped before it. -/
theorem Text.exists_blankComments_placed {p t : Text} (before : Skips Text.isBlank p t) {c : Char}
    (hc : CommentMode.IsUnmarked c) (last : t.getLast? = some c) (q : Text) :
    ∃ w z, Text.blank w ∧ bytes w = bytes p ∧
      blankComments (p ++ t ++ q) = w ++ (t.blankComments ++ z) := by
  obtain ⟨x, rfl⟩ := List.getLast?_eq_some_iff.1 last
  obtain ⟨w, hw, skipped⟩ := CommentMode.blank_skips (before.append_right (by simp) q)
  obtain ⟨z, kept⟩ := CommentMode.exists_blank_append hc .code x q
  have size := congrArg bytes skipped
  simp only [bytes_append, CommentMode.bytes_blank] at size
  refine ⟨w, z, hw, by omega, ?_⟩
  rw [List.append_assoc, blankComments, skipped, List.append_assoc, List.singleton_append, kept]
  rfl

namespace Head

theorem cut_append_of_ne_nil {t : Text} (h : (cut t).2 ≠ []) (u : Text) :
    cut (t ++ u) = ((cut t).1, (cut t).2 ++ u) := Nesting.breakAt_append_of_ne_nil h u

theorem ofText?_append {t : Text} (h : (cut t).2 ≠ []) (u : Text) :
    ofText? (t ++ u) = ofText? t := by
  simp only [ofText?, cut_append_of_ne_nil h u]

theorem after_append {t : Text} {head : Head} (hh : ofText? t = some head) (h : (cut t).2 ≠ [])
    (u : Text) : Text.after (t ++ u) head.stop = t.after head.stop ++ u := by
  have hu : ofText? (t ++ u) = some head := (ofText?_append h u).trans hh
  rw [stop_of_ofText? hu, stop_of_ofText? hh, cut_append_of_ne_nil h u]

end Head

namespace Interface

def Reading.shift (r : Reading) (n : Nat) : Reading where
  interface := r.interface
  skipped := r.skipped.map fun s => { s with span := s.span.shift n }

def close? (raw : Text) : Option Nat :=
  let whole := raw.blankComments
  let text := whole.trimStart
  (Head.ofText? text).bind fun head =>
    (matchingClose text head.stop).map (whole.bytes - text.bytes + ·)

structure EndsWithBody (t : Text) : Prop where
  brace : t.getLast? = some '}'
  closes : close? t = some (bytes t - 1)

theorem foldl_member_shift (k n : Nat) (i : Interface) (ss : List Segment) :
    ss.foldl (Reading.member (n + k)) ⟨i, []⟩ =
      (ss.foldl (Reading.member n) ⟨i, []⟩).shift k := by
  have moved (s : Segment) : skipped? (n + k) s =
      (skipped? n s).map fun x => { x with span := x.span.shift k } := by
    unfold skipped?
    cases Member.ofText s.text with
    | ok m => rfl
    | error reason => simp [Span.shift_shift]
  rw [foldl_member, foldl_member, Reading.shift, List.nil_append, List.nil_append,
    List.map_filterMap]
  simp only [moved]

theorem bodyOf_append {t body after : Text} (h : group? t = some (body, after)) (u : Text) :
    bodyOf (t ++ u) = bodyOf t := by
  rw [bodyOf, bodyOf, h, group?_append h]

/-- What is read of an interface, told from the text that its head begins. -/
theorem read_eq_ok_iff {raw v text : Text} {r : Reading} (whole : raw.blankComments = v ++ text)
    (hv : v.blank) (start : text.trimStart = text) : read raw = .ok r ↔
      ∃ head, Head.ofText? text = some head ∧ head.kind = .interface ∧
        Text.startsWith ['{'] (text.after head.stop) ∧
        r = (Member.split (bodyOf (text.after head.stop))).foldl
          (Reading.member (bytes v + head.stop + 1))
          ⟨⟨head.name, head.bases, .empty, .empty, none⟩, []⟩ := by
  have lead : bytes (v ++ text) - bytes text = bytes v := by
    rw [Text.bytes_append, Nat.add_sub_cancel]
  simp only [read, whole, Text.trimStart_append hv, start, lead]
  cases Head.ofText? text with
  | none => simp
  | some head =>
    obtain ⟨kind, name, bases, stop⟩ := head
    cases kind with
    | «alias» => simp
    | interface =>
      by_cases brace : Text.startsWith ['{'] (text.after stop)
      · simp [brace, eq_comm (b := r)]
      · simp [brace]

theorem exists_group?_of_close? {raw v text : Text} {n : Nat} {head : Head}
    (whole : raw.blankComments = v ++ text) (hv : v.blank) (start : text.trimStart = text)
    (hh : Head.ofText? text = some head) (h : close? raw = some n) :
    ∃ body after, group? (text.after head.stop) = some (body, after) := by
  simp only [close?, whole, Text.trimStart_append hv, start, hh, Option.bind_some,
    Option.map_eq_some_iff] at h
  obtain ⟨m, hm, -⟩ := h
  obtain ⟨⟨body, after⟩, group, -⟩ := Option.map_eq_some_iff.1 hm
  obtain ⟨⟨a, b⟩, cut, group⟩ := Option.bind_eq_some_iff.1 group
  obtain ⟨rfl, stop⟩ := Text.splitAt?_eq_some_iff.1 cut
  refine ⟨body, after, ?_⟩
  rwa [stop, Text.after_bytes]

/-- What is read does not depend on the white space before the head, except for its places, nor on
what follows the body. -/
theorem read_moved {raw raw' v v' text z : Text} {r : Reading} {k n : Nat}
    (whole : raw.blankComments = v ++ text) (hv : v.blank) (start : text.trimStart = text)
    (whole' : raw'.blankComments = v' ++ (text ++ z)) (hv' : v'.blank)
    (size : bytes v' = bytes v + k) (closed : close? raw = some n) (h : read raw = .ok r) :
    read raw' = .ok (r.shift k) := by
  obtain ⟨head, hh, kind, brace, rfl⟩ := (read_eq_ok_iff whole hv start).1 h
  obtain ⟨body, after, group⟩ := exists_group?_of_close? whole hv start hh closed
  rw [Text.startsWith_singleton] at brace
  have cut : (Head.cut text).2 ≠ [] := by
    rw [← Head.stop_of_ofText? hh]
    rintro hnil
    rw [hnil] at brace
    cases brace
  have rest : Text.after (text ++ z) head.stop = text.after head.stop ++ z :=
    Head.after_append hh cut z
  have start' : Text.trimStart (text ++ z) = text ++ z := by
    cases text with
    | nil => exact absurd rfl cut
    | cons c s => exact Text.trimStart_cons (Text.isBlank_head_trimStart start) (s ++ z)
  refine (read_eq_ok_iff whole' hv' start').2
    ⟨head, (Head.ofText?_append cut z).trans hh, kind, ?_, ?_⟩
  · rw [Text.startsWith_singleton, rest, List.head?_append, brace]
    rfl
  · have offset : bytes v' + head.stop + 1 = bytes v + head.stop + 1 + k := by omega
    rw [rest, bodyOf_append group, offset]
    exact (foldl_member_shift k _ _ _).symm

/-- An interface that ends with its body is read in the same way after any white space and comments
and before any text. -/
theorem read_placed {p t : Text} {r : Reading} (before : Skips Text.isBlank p t)
    (ends : EndsWithBody t) (h : read t = .ok r) (q : Text) :
    read (p ++ t ++ q) = .ok (r.shift (bytes p)) := by
  obtain ⟨w, z, hw, size, placed⟩ :=
    Text.exists_blankComments_placed before (c := '}') (by decide) ends.brace q
  obtain ⟨v, hv, whole⟩ := Text.exists_trimStart t.blankComments
  have start : t.blankComments.trimStart.trimStart = t.blankComments.trimStart := by
    rw [← Text.trimStart_append hv, ← whole]
  have placed' : (p ++ t ++ q).blankComments = (w ++ v) ++ (t.blankComments.trimStart ++ z) := by
    rw [placed]
    conv => lhs; rw [whole]
    simp only [List.append_assoc]
  exact read_moved whole hv start placed' (by simp [hw, hv])
    (by rw [Text.bytes_append, size, Nat.add_comm]) ends.closes h

/-- Braces and quotes stand in the comments around the interface, of which a member is left out. -/
theorem read_placed_comments :
    let t : Text := "interface A \x7b é: B; [k: C]: D \x7d".toList
    let p : Text := " // interface E \x7b '\n/* \x7d é */\u2003".toList
    let r (start stop : Nat) : Reading :=
      ⟨⟨['A'], [], .ofList [⟨['é'], ['B'], false, false⟩], .empty, none⟩,
        [⟨⟨start, stop⟩, "[k: C]: D".toList, .indexSignature⟩]⟩
    read t = .ok (r 21 30) ∧ read (p ++ t ++ "\x7d /* \" ; interface".toList) = .ok (r 54 63) := by
  intro t p r
  have before : Skips Text.isBlank p t := by
    have parts : p = ' ' :: '/' :: '/' :: (" interface E \x7b '".toList ++
        '\n' :: '/' :: '*' :: (" \x7d é ".toList ++ '*' :: '/' :: ['\u2003'])) := by decide +kernel
    rw [parts]
    exact .space (by decide) (.line (by decide +kernel) (by simp)
      (.space (by decide) (.block (by decide +kernel) (.space (by decide) .nil))))
  have ends : EndsWithBody t := ⟨by decide +kernel, by decide +kernel⟩
  have alone : read t = .ok (r 21 30) := by decide +kernel
  exact ⟨alone, read_placed before ends alone _⟩

end Interface

end WebSurface
