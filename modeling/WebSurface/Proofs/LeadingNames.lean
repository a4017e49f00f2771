import WebSurface.Proofs.Blank
import WebSurface.Scan
import WebSurface.Token
set_option autoImplicit false

namespace WebSurface

def Lexeme.names : List Lexeme → List Text
  | .blank _ :: ls => names ls
  | .token (.name n) :: ls => n :: names ls
  | _ => []

namespace Text

open Lexeme

def startsName (c : Char) : Bool := isNameChar c && !c.isDigit

def blanks : List Nat :=
  List.range' 9 5 ++ List.range' 0x2000 11 ++
    [0x20, 0x85, 0xA0, 0x1680, 0x2028, 0x2029, 0x202F, 0x205F, 0x3000]

theorem toNat_mem_blanks {c : Char} (h : isBlank c) : c.toNat ∈ blanks := by
  simp only [isBlank, Bool.or_eq_true, Bool.and_eq_true, decide_eq_true_eq, beq_iff_eq] at h
  have tab : 9 ≤ c.toNat ∧ c.toNat ≤ 13 → c.toNat ∈ blanks := fun h =>
    List.mem_append_left _ (List.mem_append_left _ (List.mem_range'_1.2 (by omega)))
  have quad : 0x2000 ≤ c.toNat ∧ c.toNat ≤ 0x200A → c.toNat ∈ blanks := fun h =>
    List.mem_append_left _ (List.mem_append_right _ (List.mem_range'_1.2 (by omega)))
  have single : c.toNat ∈ [0x20, 0x85, 0xA0, 0x1680, 0x2028, 0x2029, 0x202F, 0x205F, 0x3000] →
      c.toNat ∈ blanks := List.mem_append_right _
  simp only [List.mem_cons, List.not_mem_nil] at single
  grind

def gaps : List (Nat × Nat) :=
  [(0xA0, 0x1680), (0x1680, 0x2000), (0x205F, 0x3000), (0x3000, 0x110000)]

theorem exists_gap : ∀ r ∈ alphanumericRanges.toList, ∃ g ∈ gaps, g.1 < r.1 ∧ r.2 < g.2 := by
  decide +kernel

theorem isNameChar_of_isBlank {c : Char} (h : isBlank c) : isNameChar c = false := by
  have hn := toNat_mem_blanks h
  have ascii : ∀ n ∈ blanks,
      ((Char.ofNat n).isAlphanum || Char.ofNat n == '_' || Char.ofNat n == '$') = false := by
    decide
  have ha := ascii c.toNat hn
  rw [Char.ofNat_toNat, Bool.or_eq_false_iff, Bool.or_eq_false_iff] at ha
  have hr : inRanges alphanumericRanges c = false := by
    rw [inRanges, Array.any_eq_false']
    intro r hr hin
    obtain ⟨g, hg, hlo, hhi⟩ := exists_gap r (Array.mem_toList_iff.2 hr)
    have outside : ∀ n ∈ blanks, ∀ g ∈ gaps, n ≤ g.1 ∨ g.2 ≤ n := by decide
    have := outside c.toNat hn g hg
    simp only [Bool.and_eq_true, decide_eq_true_eq] at hin
    omega
  simp [isNameChar, isAlphanumeric, ha, hr]

theorem startsName_of_isBlank {c : Char} (h : isBlank c) : startsName c = false := by
  simp [startsName, isNameChar_of_isBlank h]

theorem isNameChar_of_startsName {c : Char} (h : startsName c) : isNameChar c := by
  simp only [startsName, Bool.and_eq_true] at h
  exact h.1

theorem eq_of_isSeparator {c : Char} (h : isSeparator c) :
    c = ' ' ∨ c = '\t' ∨ c = '\r' ∨ c = '\n' := by
  simpa [isSeparator] using h

theorem eq_of_isQuote {c : Char} (h : isQuote c) : c = '"' ∨ c = '\'' ∨ c = '`' := by
  simpa [isQuote] using h

theorem isBlank_of_isNameChar {c : Char} (h : isNameChar c) : isBlank c = false := by
  cases hb : isBlank c with
  | false => rfl
  | true =>
    rw [isNameChar_of_isBlank hb] at h
    cases h

theorem ne_of_isNameChar {c d : Char} (h : isNameChar c) (hd : isNameChar d = false) : c ≠ d := by
  rintro rfl
  rw [h] at hd
  cases hd

theorem ne_slash_of_isNameChar {c : Char} (h : isNameChar c) : c ≠ '/' :=
  ne_of_isNameChar h (by decide)

theorem isQuote_of_isNameChar {c : Char} (h : isNameChar c) : isQuote c = false := by
  cases hq : isQuote c with
  | false => rfl
  | true =>
    rcases eq_of_isQuote hq with rfl | rfl | rfl <;> exact absurd h (by decide)

theorem isSeparator_of_isNameChar {c : Char} (h : isNameChar c) : isSeparator c = false := by
  cases hs : isSeparator c with
  | false => rfl
  | true =>
    rcases eq_of_isSeparator hs with rfl | rfl | rfl | rfl <;> exact absurd h (by decide)

/-- Neither white space nor a comment nor a name begins a text with this first character. -/
structure Stops (c : Char) (r : Text) : Prop where
  separator : isSeparator c = false
  name : startsName c = false
  line : c = '/' → r.head? ≠ some '/'
  block : c = '/' → r.head? ≠ some '*'

def leadingNames (t : Text) : List Text := names (ofText t)

@[simp] theorem leadingNames_nil : leadingNames [] = [] := by simp [leadingNames, names]

theorem next_separator {c : Char} (h : isSeparator c) (r : Text) : next c r = (.blank [c], r) :=
  if_pos h

theorem leadingNames_separator {c : Char} (h : isSeparator c) (r : Text) :
    leadingNames (c :: r) = leadingNames r := by
  rw [leadingNames, ofText_cons, next_separator h]
  rfl

theorem next_line (s : Text) : next '/' ('/' :: s) =
    (.blank ('/' :: '/' :: s.takeWhile (· != '\n')), s.dropWhile (· != '\n')) := by
  unfold next
  rfl

theorem leadingNames_line (s : Text) :
    leadingNames ('/' :: '/' :: s) = leadingNames (s.dropWhile (· != '\n')) := by
  rw [leadingNames, ofText_cons, next_line]
  rfl

theorem next_block (s : Text) : next '/' ('*' :: s) =
    match closeComment? s with
    | some (body, rest) => (.blank ('/' :: '*' :: body), rest)
    | none => (.fault .unterminatedComment ('/' :: '*' :: s), []) := by
  unfold next
  rfl

theorem leadingNames_block (s : Text) :
    leadingNames ('/' :: '*' :: s) = (closeComment? s).elim [] fun p => leadingNames p.2 := by
  rw [leadingNames, ofText_cons, next_block]
  cases closeComment? s with
  | none => simp [names]
  | some p => rfl

theorem next_name {c : Char} (h : startsName c) (r : Text) :
    next c r = (.token (.name (c :: r.takeWhile isNameChar)), r.dropWhile isNameChar) := by
  have hn := isNameChar_of_startsName h
  have hd : c.isDigit = false := by simpa [startsName, hn] using h
  have hm : (c == '-') = false := by
    cases hm : c == '-' with
    | false => rfl
    | true => rw [beq_iff_eq.1 hm] at hn; exact absurd hn (by decide)
  have hs : startsNumber c r = false := by simp [startsNumber, hd, hm]
  unfold next
  simp only [isSeparator_of_isNameChar hn, isQuote_of_isNameChar hn, hs, hn, Bool.false_eq_true,
    if_false, if_true]

theorem leadingNames_name {c : Char} (h : startsName c) (r : Text) :
    leadingNames (c :: r) =
      (c :: r.takeWhile isNameChar) :: leadingNames (r.dropWhile isNameChar) := by
  rw [leadingNames, ofText_cons, next_name h, names, leadingNames]

theorem leadingNames_of_stops {c : Char} {r : Text} (h : Stops c r) :
    leadingNames (c :: r) = [] := by
  obtain ⟨hs, hn, hl, hb⟩ := h
  rw [leadingNames, ofText_cons]
  fun_cases next c r with
  | case1 => simp_all
  | case5 =>
    rename_i hname hnumber
    have hdigit : c.isDigit = false := by
      cases hdigit : c.isDigit with
      | false => rfl
      | true => simp [startsNumber, hdigit] at hnumber
    simp [startsName, hname, hdigit] at hn
  | case6 => exact absurd rfl (hl rfl)
  | case7 => exact absurd rfl (hb rfl)
  | _ => rfl

/-- Induction along the names, white space and comments with which a text begins. -/
theorem leading_induction {P : Text → Prop} (nil : P [])
    (separator : ∀ c r, isSeparator c → P r → P (c :: r))
    (line : ∀ s, P (s.dropWhile (· != '\n')) → P ('/' :: '/' :: s))
    (closed : ∀ s body rest, closeComment? s = some (body, rest) → P rest → P ('/' :: '*' :: s))
    (opened : ∀ s, closeComment? s = none → P ('/' :: '*' :: s))
    (name : ∀ c r, startsName c → P (r.dropWhile isNameChar) → P (c :: r))
    (stops : ∀ c r, Stops c r → P (c :: r)) (t : Text) : P t := by
  induction h : t.length using Nat.strongRecOn generalizing t with
  | ind n ih =>
    have shorter (u : Text) (hu : u.length < t.length) : P u := ih u.length (h ▸ hu) u rfl
    cases t with
    | nil => exact nil
    | cons c r =>
      by_cases hs : isSeparator c
      · exact separator c r hs (shorter r (Nat.lt_succ_self _))
      by_cases hn : startsName c
      · refine name c r hn (shorter _ ?_)
        exact Nat.lt_succ_of_le (List.dropWhile_sublist _).length_le
      by_cases hl : c = '/' ∧ r.head? = some '/'
      · obtain ⟨rfl, hr⟩ := hl
        obtain ⟨s, rfl⟩ := List.head?_eq_some_iff.1 hr
        have := (List.dropWhile_sublist (· != '\n') (l := s)).length_le
        exact line s (shorter _ (by simp only [List.length_cons]; omega))
      by_cases hb : c = '/' ∧ r.head? = some '*'
      · obtain ⟨rfl, hr⟩ := hb
        obtain ⟨s, rfl⟩ := List.head?_eq_some_iff.1 hr
        cases hc : closeComment? s with
        | none => exact opened s hc
        | some p =>
          have := congrArg List.length (closeComment?_append (a := p.1) (b := p.2) hc)
          simp only [List.length_append] at this
          exact closed s p.1 p.2 hc (shorter _ (by simp only [List.length_cons]; omega))
      · exact stops c r ⟨by simpa using hs, by simpa using hn, fun e h => hl ⟨e, h⟩,
          fun e h => hb ⟨e, h⟩⟩

/-- A text goes on without making the last name longer. -/
def Fresh (u : Text) : Prop := ∀ c, u.head? = some c → isNameChar c = false

theorem takeWhile_append_fresh {u : Text} (hu : Fresh u) (r : Text) :
    (r ++ u).takeWhile isNameChar = r.takeWhile isNameChar := by
  induction r with
  | nil =>
    cases u with
    | nil => rfl
    | cons c u => simp [hu c rfl]
  | cons c r ih => cases h : isNameChar c <;> simp [h, ih]

theorem takeWhile_fresh {u : Text} (hu : Fresh u) : u.takeWhile isNameChar = [] :=
  takeWhile_append_fresh hu []

theorem dropWhile_append_fresh {u : Text} (hu : Fresh u) (r : Text) :
    (r ++ u).dropWhile isNameChar = r.dropWhile isNameChar ++ u := by
  induction r with
  | nil =>
    cases u with
    | nil => rfl
    | cons c u => simp [hu c rfl]
  | cons c r ih => cases h : isNameChar c <;> simp [h, ih]

theorem dropWhile_fresh {u : Text} (hu : Fresh u) : u.dropWhile isNameChar = u :=
  dropWhile_append_fresh hu []

theorem fresh_dropWhile (r : Text) : Fresh (r.dropWhile isNameChar) := by
  intro c hc
  induction r with
  | nil => simp at hc
  | cons d r ih =>
    cases h : isNameChar d with
    | true => exact ih (by simpa [h] using hc)
    | false =>
      simp only [List.dropWhile_cons, h] at hc
      exact Option.some.inj hc ▸ h

theorem closeComment?_append_right {s body rest : Text} (h : closeComment? s = some (body, rest))
    (u : Text) : closeComment? (s ++ u) = some (body, rest ++ u) := by
  fun_induction closeComment? s generalizing body with
  | case1 => cases h
  | case2 r =>
    obtain ⟨rfl, rfl⟩ := Prod.mk.inj (Option.some.inj h)
    rfl
  | case3 c r hstar ih =>
    obtain ⟨⟨x, y⟩, hxy, he⟩ := Option.map_eq_some_iff.1 h
    obtain ⟨rfl, rfl⟩ := Prod.mk.inj he
    cases r with
    | nil => simp [closeComment?] at hxy
    | cons d r =>
      rw [List.cons_append, List.cons_append, closeComment?]
      · rw [← List.cons_append, ih hxy]
        rfl
      · intro v hc hv
        obtain ⟨rfl, rfl⟩ := List.cons.inj hv
        exact hstar r hc rfl

theorem leadingNames_prefix {u : Text} (hu : Fresh u) (t : Text) :
    leadingNames t <+: leadingNames (t ++ u) := by
  induction t using leading_induction with
  | nil => exact leadingNames_nil ▸ List.nil_prefix
  | separator c r hc ih =>
    rw [List.cons_append, leadingNames_separator hc, leadingNames_separator hc]
    exact ih
  | line s ih =>
    simp only [List.cons_append, leadingNames_line]
    cases h : (s.dropWhile (· != '\n')).isEmpty with
    | true => exact List.isEmpty_iff.1 h ▸ leadingNames_nil ▸ List.nil_prefix
    | false =>
      rw [List.dropWhile_append, if_neg (by simp [h])]
      exact ih
  | closed s body rest hs ih =>
    simp only [List.cons_append, leadingNames_block, closeComment?_append_right hs, hs]
    exact ih
  | opened s hs =>
    rw [leadingNames_block, hs]
    exact List.nil_prefix
  | name c r hc ih =>
    rw [List.cons_append, leadingNames_name hc, leadingNames_name hc, takeWhile_append_fresh hu,
      dropWhile_append_fresh hu]
    exact (List.prefix_cons_inj _).2 ih
  | stops c r h => exact leadingNames_of_stops h ▸ List.nil_prefix

/-- White space at the start hides the names of a text or makes no difference. -/
theorem leadingNames_blank_append {v : Text} (hv : blank v) {t : Text}
    (h : leadingNames (v ++ t) ≠ []) : leadingNames (v ++ t) = leadingNames t := by
  induction v with
  | nil => rfl
  | cons c v ih =>
    simp only [blank_cons, Bool.and_eq_true] at hv
    cases hs : isSeparator c with
    | true =>
      rw [List.cons_append, leadingNames_separator hs] at h ⊢
      exact ih hv.2 h
    | false =>
      have hne : c ≠ '/' := by
        rintro rfl
        exact absurd hv.1 (by decide)
      exact absurd (leadingNames_of_stops
        ⟨hs, startsName_of_isBlank hv.1, fun e => absurd e hne, fun e => absurd e hne⟩) h

end Text

namespace CommentMode

open Text Lexeme

theorem blank_code_cons {c : Char} {r : Text} (hl : c = '/' → r.head? ≠ some '/')
    (hb : c = '/' → r.head? ≠ some '*') :
    code.blank (c :: r) = c :: blank (if isQuote c then .literal c else .code) r := by
  rw [blank]
  · rintro s rfl rfl
    exact hl rfl rfl
  · rintro s rfl rfl
    exact hb rfl rfl

theorem blank_literal_cons {q c : Char} {r : Text} (h : c = '\\' → r = []) :
    (literal q).blank (c :: r) =
      c :: blank (if c = q ∨ c = '\n' then .code else .literal q) r := by
  rw [blank]
  rintro d s rfl rfl
  cases h rfl

theorem blank_block_cons {c : Char} {r : Text} (h : c = '*' → r.head? ≠ some '/') :
    block.blank (c :: r) = cover c ++ block.blank r := by
  rw [blank]
  rintro s rfl rfl
  exact h rfl rfl

theorem blank_code {c : Char} (hc : c ≠ '/') (hq : isQuote c = false) (r : Text) :
    code.blank (c :: r) = c :: code.blank r := by
  rw [blank_code_cons (fun e => absurd e hc) (fun e => absurd e hc), hq]
  rfl

theorem blank_code_names {w : Text} (hw : ∀ c ∈ w, isNameChar c) (r : Text) :
    code.blank (w ++ r) = w ++ code.blank r := by
  induction w with
  | nil => rfl
  | cons c w ih =>
    have hc := hw c List.mem_cons_self
    rw [List.cons_append, blank_code (ne_slash_of_isNameChar hc) (isQuote_of_isNameChar hc),
      ih fun d hd => hw d (List.mem_cons_of_mem c hd)]
    rfl

theorem head?_blank_code {r : Text} {c : Char} (h : (code.blank r).head? = some c) :
    r.head? = some c ∨ c = ' ' := by
  cases r with
  | nil => simp [blank] at h
  | cons d r =>
    by_cases hl : d = '/' ∧ r.head? = some '/'
    · obtain ⟨rfl, hr⟩ := hl
      obtain ⟨s, rfl⟩ := List.head?_eq_some_iff.1 hr
      exact .inr (Option.some.inj h).symm
    by_cases hb : d = '/' ∧ r.head? = some '*'
    · obtain ⟨rfl, hr⟩ := hb
      obtain ⟨s, rfl⟩ := List.head?_eq_some_iff.1 hr
      exact .inr (Option.some.inj h).symm
    · rw [blank_code_cons (fun e h => hl ⟨e, h⟩) fun e h => hb ⟨e, h⟩] at h
      exact .inl h

theorem names_cover_append {c : Char} (t : Text) :
    leadingNames (cover c ++ t) = leadingNames t := by
  have spaces (n : Nat) : leadingNames (List.replicate n ' ' ++ t) = leadingNames t := by
    induction n with
    | zero => rfl
    | succ n ih => rw [List.replicate_succ, List.cons_append, leadingNames_separator rfl, ih]
  unfold cover
  split
  · exact leadingNames_separator rfl t
  · exact spaces c.utf8Size

theorem names_blank_line (s : Text) :
    leadingNames (line.blank s) = leadingNames (code.blank (s.dropWhile (· != '\n'))) := by
  induction s with
  | nil => rfl
  | cons c s ih =>
    rw [blank, names_cover_append]
    by_cases hc : c = '\n'
    · subst hc
      have hd : ('\n' :: s).dropWhile (· != '\n') = '\n' :: s := rfl
      rw [if_pos rfl, hd, blank_code (by decide) rfl, leadingNames_separator rfl]
    · rw [if_neg hc, ih, List.dropWhile_cons_of_pos (by simpa using hc)]

theorem names_blank_block (s : Text) :
    leadingNames (block.blank s) =
      (closeComment? s).elim [] fun p => leadingNames (code.blank p.2) := by
  fun_induction closeComment? s with
  | case1 => simp [blank]
  | case2 r =>
    rw [blank, leadingNames_separator rfl, leadingNames_separator rfl]
    rfl
  | case3 c r hstar ih =>
    rw [blank, names_cover_append, ih]
    · cases closeComment? r <;> rfl
    · exact hstar

/-- Writing over the comments of a text leaves the names with which it begins. -/
theorem leadingNames_blank (t : Text) : leadingNames (code.blank t) = leadingNames t := by
  induction t using leading_induction with
  | nil => rfl
  | separator c r hc ih =>
    have h : c ≠ '/' ∧ isQuote c = false := by
      rcases eq_of_isSeparator hc with rfl | rfl | rfl | rfl <;> decide
    rw [blank_code h.1 h.2, leadingNames_separator hc, leadingNames_separator hc, ih]
  | line s ih =>
    rw [blank, leadingNames_separator rfl, leadingNames_separator rfl, names_blank_line, ih,
      leadingNames_line]
  | closed s body rest hs ih =>
    rw [blank, leadingNames_separator rfl, leadingNames_separator rfl, names_blank_block,
      leadingNames_block, hs]
    exact ih
  | opened s hs =>
    rw [blank, leadingNames_separator rfl, leadingNames_separator rfl, names_blank_block,
      leadingNames_block, hs]
    rfl
  | name c r hc ih =>
    have hn := isNameChar_of_startsName hc
    have hw : ∀ d ∈ r.takeWhile isNameChar, isNameChar d :=
      fun d hd => List.all_eq_true.1 List.all_takeWhile d hd
    -- What is written after the name begins as the text or with a space: the name ends there.
    have hf : Fresh (code.blank (r.dropWhile isNameChar)) := by
      intro d hd
      rcases head?_blank_code hd with h | rfl
      · exact fresh_dropWhile r d h
      · decide
    have hr : code.blank r =
        r.takeWhile isNameChar ++ code.blank (r.dropWhile isNameChar) := by
      rw [← blank_code_names hw, List.takeWhile_append_dropWhile]
    rw [blank_code (ne_slash_of_isNameChar hn) (isQuote_of_isNameChar hn), leadingNames_name hc,
      leadingNames_name hc, hr, List.takeWhile_append_of_pos hw, takeWhile_fresh hf,
      List.append_nil, List.dropWhile_append_of_pos hw, dropWhile_fresh hf, ih]
  | stops c r h =>
    have hs : Stops c (blank (if isQuote c then .literal c else .code) r) := by
      refine ⟨h.separator, h.name, ?_, ?_⟩
      · rintro rfl hd
        rcases head?_blank_code hd with hd | hd
        · exact h.line rfl hd
        · exact absurd hd (by decide)
      · rintro rfl hd
        rcases head?_blank_code hd with hd | hd
        · exact h.block rfl hd
        · exact absurd hd (by decide)
    rw [blank_code_cons h.line h.block, leadingNames_of_stops hs, leadingNames_of_stops h]

end CommentMode

end WebSurface
