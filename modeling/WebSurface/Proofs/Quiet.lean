import WebSurface.Proofs.CommentCover
import WebSurface.Proofs.TopLevel
set_option autoImplicit false

namespace WebSurface

namespace Nesting

def literal? (s : Nesting) : Option (Char × Bool) :=
  match s.mode with
  | .code _ => none
  | .literal q escaped => some (q, escaped)

def quiet (s : Nesting) : Text → Bool
  | [] => true
  | c :: r =>
    (if s.inCode then !(c == '/' && (r.head? == some '/' || r.head? == some '*')) else c != '\n') &&
      (s.step c).quiet r

theorem inCode_iff {s : Nesting} : s.inCode ↔ s.literal? = none := by
  obtain ⟨depth, mode⟩ := s
  cases mode <;> simp [inCode, literal?]

theorem inCode_of_topLevel {s : Nesting} (h : s.topLevel) : s.inCode := by
  rw [topLevel, Bool.and_eq_true] at h
  exact h.2

theorem literal?_step {s s' : Nesting} (h : s.literal? = s'.literal?) (c : Char) :
    (s.step c).literal? = (s'.step c).literal? := by
  obtain ⟨depth, mode⟩ := s
  obtain ⟨depth', mode'⟩ := s'
  cases mode with
  | code b =>
    cases mode' with
    | code b' =>
      simp only [step]
      split <;> rfl
    | literal q escaped => cases h
  | literal q escaped =>
    cases mode' with
    | code b => cases h
    | literal q' escaped' =>
      obtain ⟨rfl, rfl⟩ := Prod.mk.inj (Option.some.inj h)
      cases escaped with
      | true => rfl
      | false =>
        simp only [step]
        split
        · rfl
        · split <;> rfl

theorem literal?_run {s s' : Nesting} (h : s.literal? = s'.literal?) (t : Text) :
    (s.run t).literal? = (s'.run t).literal? := by
  induction t generalizing s s' with
  | nil => exact h
  | cons c r ih => exact ih (literal?_step h c)

theorem inCode_congr {s s' : Nesting} (h : s.literal? = s'.literal?) : s.inCode = s'.inCode := by
  rw [Bool.eq_iff_iff, inCode_iff, inCode_iff, h]

theorem quiet_congr {s s' : Nesting} (h : s.literal? = s'.literal?) (t : Text) :
    s.quiet t = s'.quiet t := by
  induction t generalizing s s' with
  | nil => rfl
  | cons c r ih => rw [quiet, quiet, inCode_congr h, ih (literal?_step h c)]

theorem quiet_append {s : Nesting} {a b : Text} (h : s.quiet (a ++ b)) :
    s.quiet a ∧ (s.run a).quiet b := by
  induction a generalizing s with
  | nil => exact ⟨rfl, h⟩
  | cons c a ih =>
    rw [List.cons_append, quiet, Bool.and_eq_true] at h
    obtain ⟨ha, hb⟩ := ih h.2
    refine ⟨?_, hb⟩
    rw [quiet, ha, Bool.and_true]
    cases a with
    | nil => cases hc : s.inCode <;> simp_all
    | cons d a => exact h.1

theorem inCode_step {s : Nesting} (hs : s.inCode) {c : Char} (hc : isQuote c = false) :
    (s.step c).inCode := by
  obtain ⟨depth, mode⟩ := s
  cases mode with
  | code b => simp [step, hc, inCode]
  | literal q escaped => cases hs

theorem isQuote_step {s : Nesting} (h : ∀ p ∈ s.literal?, isQuote p.1) (c : Char) :
    ∀ p ∈ (s.step c).literal?, isQuote p.1 := by
  obtain ⟨depth, mode⟩ := s
  cases mode with
  | code b =>
    intro p hp
    simp only [step] at hp
    split at hp
    · obtain rfl := Option.some.inj hp
      assumption
    · cases hp
  | literal q escaped =>
    have hq : isQuote q := h (q, escaped) rfl
    intro p hp
    cases escaped with
    | true => exact Option.some.inj hp ▸ hq
    | false =>
      simp only [step] at hp
      split at hp
      · exact Option.some.inj hp ▸ hq
      · split at hp
        · cases hp
        · exact Option.some.inj hp ▸ hq

theorem isQuote_run {s : Nesting} (h : ∀ p ∈ s.literal?, isQuote p.1) {t : Text} :
    ∀ p ∈ (s.run t).literal?, isQuote p.1 := by
  induction t generalizing s with
  | nil => exact h
  | cons c r ih => exact ih (isQuote_step h c)

theorem isQuote_run_outside (t : Text) : ∀ p ∈ (outside.run t).literal?, isQuote p.1 :=
  isQuote_run (by simp [outside, literal?])

theorem inCode_of_step {s : Nesting} (h : ∀ p ∈ s.literal?, isQuote p.1) {c : Char}
    (hc : isQuote c = false) (hcode : (s.step c).inCode) : s.inCode := by
  obtain ⟨depth, mode⟩ := s
  cases mode with
  | code b => rfl
  | literal q escaped =>
    have hq : isQuote q := h (q, escaped) rfl
    have hne : c ≠ q := by
      rintro rfl
      rw [hq] at hc
      cases hc
    cases escaped with
    | true => cases hcode
    | false =>
      simp only [step, hne, if_false] at hcode
      split at hcode <;> cases hcode

theorem inCode_of_run {s : Nesting} (h : ∀ p ∈ s.literal?, isQuote p.1) {w : Text}
    (hw : ∀ c ∈ w, isQuote c = false) (hcode : (s.run w).inCode) : s.inCode := by
  induction w generalizing s with
  | nil => exact hcode
  | cons c w ih =>
    obtain ⟨hc, hw⟩ := List.forall_mem_cons.1 hw
    exact inCode_of_step h hc (ih (isQuote_step h c) hw hcode)

theorem quiet_plain {x : Text} (hx : ∀ c ∈ x, c ≠ '/' ∧ isQuote c = false) {s : Nesting}
    (hs : s.inCode) (r : Text) : (s.run x).inCode ∧ s.quiet (x ++ r) = (s.run x).quiet r := by
  induction x generalizing s with
  | nil => exact ⟨hs, rfl⟩
  | cons c x ih =>
    obtain ⟨⟨hslash, hquote⟩, hx⟩ := List.forall_mem_cons.1 hx
    obtain ⟨hcode, hrest⟩ := ih hx (inCode_step hs hquote)
    refine ⟨hcode, ?_⟩
    rw [List.cons_append, quiet, hrest]
    simp [hs, hslash]

theorem step_raw {q c : Char} (hc : c ≠ q) (hne : c ≠ '\\') (n : Nat) :
    (⟨n, .literal q false⟩ : Nesting).step c = ⟨n, .literal q false⟩ := by
  simp [step, hc, hne]

theorem run_literal {q : Char} (hq : isQuote q) {raw : Text} (hraw : IsRaw q raw) (n : Nat) :
    (⟨n, .literal q false⟩ : Nesting).run (raw ++ [q]) = ⟨n, .code false⟩ := by
  have hback := Lexeme.ne_backslash_of_isQuote hq
  induction hraw with
  | nil => simp [step, hback]
  | escape _ ih => exact ih
  | char hc hne _ ih => rw [List.cons_append, run_cons, step_raw hc hne, ih]

theorem quiet_literal {q : Char} (hq : isQuote q) {raw : Text} (hraw : IsRaw q raw)
    (hline : '\n' ∉ raw) (n : Nat) (r : Text) :
    (⟨n, .literal q false⟩ : Nesting).quiet (raw ++ q :: r) =
      (⟨n, .code false⟩ : Nesting).quiet r := by
  have hback := Lexeme.ne_backslash_of_isQuote hq
  have hfeed : q ≠ '\n' := by
    rintro rfl
    cases hq
  induction hraw with
  | nil => simp [quiet, step, inCode, hback, hfeed]
  | @escape c raw _ ih =>
    simp only [List.mem_cons, not_or] at hline
    have hc : (c != '\n') = true := by simpa using Ne.symm hline.2.1
    simp [quiet, step, inCode, hc, ih hline.2.2]
  | @char c raw hc hne _ ih =>
    rw [List.mem_cons, not_or] at hline
    have hn : (c != '\n') = true := by simpa using Ne.symm hline.1
    simp [quiet, step, inCode, hn, hc, hne, ih hline.2]

/-- A string that closes on its line leaves the scan in code, where it was before. -/
theorem quiet_quoted {q : Char} (hq : isQuote q) {raw : Text} (hraw : IsRaw q raw)
    (hline : '\n' ∉ raw) {s : Nesting} (hs : s.inCode) (r : Text) :
    (s.run (q :: (raw ++ [q]))).inCode ∧
      s.quiet (q :: (raw ++ [q]) ++ r) = (s.run (q :: (raw ++ [q]))).quiet r := by
  obtain ⟨n, mode⟩ := s
  cases mode with
  | literal => cases hs
  | code b =>
    have opens : (⟨n, .code b⟩ : Nesting).step q = ⟨n, .literal q false⟩ := by
      simp [step, hq]
    have hslash : (q == '/') = false := by
      rcases Text.eq_of_isQuote hq with rfl | rfl | rfl <;> rfl
    rw [run_cons, opens, run_literal hq hraw]
    refine ⟨rfl, ?_⟩
    rw [List.cons_append, List.append_assoc, List.singleton_append, quiet, opens,
      quiet_literal hq hraw hline, hslash]
    rfl

theorem quiet_unreadable {c : Char} {r : Text} (hc : Lexeme.Unreadable c r) {s : Nesting}
    (hs : s.inCode) : s.quiet (c :: CommentMode.code.blank r) =
      (s.step c).quiet (CommentMode.code.blank r) := by
  rw [quiet, if_pos hs]
  have follows {m : Char} (hm : m ≠ ' ') (hr : r.head? ≠ some m) :
      ((CommentMode.code.blank r).head? == some m) = false := by
    rw [beq_eq_false_iff_ne]
    exact fun hb => (CommentMode.head?_blank_code hb).elim hr hm
  by_cases hslash : c = '/'
  · rw [follows (by decide) (hc.line hslash), follows (by decide) (hc.block hslash)]
    simp
  · simp [hslash]

end Nesting

theorem CommentMode.plain_of_isBlank {c : Char} (hc : Text.isBlank c) :
    c ≠ '/' ∧ isQuote c = false := by
  refine ⟨?_, isQuote_of_isPlain (isPlain_of_isBlank hc)⟩
  rintro rfl
  cases hc

theorem CommentMode.plain_of_mem_cover {t : Text} (c : Char) (hc : c ∈ t.flatMap cover) :
    c ≠ '/' ∧ isQuote c = false :=
  plain_of_isSeparator (isSeparator_of_mem_cover c hc)

/-- A lexeme whose comments are written over leaves the scan outside strings. -/
theorem Nesting.quiet_covered {l : Lexeme} {r : Text} (h : Lexeme.Reads l r) (hl : l.onLine)
    {s : Nesting} (hs : s.inCode) :
    (s.run l.covered).inCode ∧
      s.quiet (l.covered ++ CommentMode.code.blank r) =
        (s.run l.covered).quiet (CommentMode.code.blank r) := by
  have plain (hp : ∀ c ∈ l.covered, c ≠ '/' ∧ isQuote c = false) :=
    Nesting.quiet_plain hp hs (CommentMode.code.blank r)
  have comment (hc : l.isComment) : ∀ c ∈ l.covered, c ≠ '/' ∧ isQuote c = false := by
    rw [Lexeme.covered, if_pos hc]
    exact CommentMode.plain_of_mem_cover
  cases h with
  | @space c _ hc =>
    refine plain ?_
    rw [CommentMode.covered_space hc, List.forall_mem_singleton]
    exact CommentMode.plain_of_isSeparator hc
  | line => exact plain (comment rfl)
  | block => exact plain (comment rfl)
  | openComment => exact plain (comment rfl)
  | openLiteral => cases hl
  | @unexpected c _ hc => exact ⟨Nesting.inCode_step hs hc.quote, Nesting.quiet_unreadable hc hs⟩
  | @token k _ hk _ =>
    cases k with
    | name t =>
      refine plain fun d hd => ?_
      have hd := hk.isNameChar d hd
      exact ⟨Text.ne_slash_of_isNameChar hd, Text.isQuote_of_isNameChar hd⟩
    | number t => exact plain (CommentMode.plain_of_mem_number hk)
    | sign sign => exact plain fun _ => CommentMode.plain_of_mem_spelling
    | eof => exact hk.elim
    | literal q raw =>
      have hline : '\n' ∉ raw := by simpa [Lexeme.onLine] using hl
      exact Nesting.quiet_quoted hk.1 hk.2 hline hs _

namespace Text

/-- No comment begins outside strings, and strings close on the line on which they open. -/
def Quiet (t : Text) : Prop := Nesting.outside.quiet t ∧ (Nesting.outside.run t).inCode

theorem Quiet.of_inCode {s : Nesting} (hs : s.inCode) {t : Text} (hq : s.quiet t)
    (hc : (s.run t).inCode) : Quiet t := by
  have same : s.literal? = Nesting.outside.literal? := Nesting.inCode_iff.1 hs
  exact ⟨Nesting.quiet_congr same t ▸ hq, Nesting.inCode_congr (Nesting.literal?_run same t) ▸ hc⟩

theorem Quiet.trim {t : Text} (h : Quiet t) : Quiet t.trim := by
  obtain ⟨v, w, hv, hw, ht⟩ := exists_trim t
  rw [ht, List.append_assoc] at h
  obtain ⟨hquiet, hcode⟩ := h
  have hquiet := (Nesting.quiet_append hquiet).2
  rw [Nesting.run_append, Nesting.run_append] at hcode
  rw [Nesting.run_blank hv] at hquiet hcode
  exact ⟨(Nesting.quiet_append hquiet).1,
    Nesting.inCode_of_run (Nesting.isQuote_run_outside _)
      (fun c hc => isQuote_of_isPlain (isPlain_of_blank hw c hc)) hcode⟩

theorem quiet_blankComments {t : Text} (h : t.LiteralsOnLine) : Quiet t.blankComments := by
  have all : ∀ s : Nesting, s.inCode →
      s.quiet t.blankComments ∧ (s.run t.blankComments).inCode := by
    unfold LiteralsOnLine at h
    unfold blankComments
    fun_induction Lexeme.ofText t with
    | case1 => exact fun s hs => ⟨rfl, hs⟩
    | case2 c r ih =>
      obtain ⟨hl, hrest⟩ := List.forall_mem_cons.1 h
      intro s hs
      have reads := Lexeme.reads_next c r
      have := CommentMode.blank_text_append reads hl
      rw [Lexeme.text_next] at this
      obtain ⟨hcode, hquiet⟩ := Nesting.quiet_covered reads hl hs
      rw [this, hquiet, Nesting.run_append]
      exact ih hrest _ hcode
  exact all .outside rfl

end Text

namespace CommentMode

def ofNesting (s : Nesting) : CommentMode :=
  match s.mode with
  | .code _ => .code
  | .literal q _ => .literal q

def pending (s : Nesting) : Text :=
  match s.mode with
  | .literal _ true => ['\\']
  | _ => []

/-- A text that is quiet has no comments to write over, whatever follows it. -/
theorem blank_quiet_append {s : Nesting} {x y : Text} (hx : s.quiet x) (hcode : (s.run x).inCode)
    (hy : x.getLast? = some '/' → y.head? ≠ some '/' ∧ y.head? ≠ some '*') :
    (ofNesting s).blank (pending s ++ (x ++ y)) = pending s ++ (x ++ code.blank y) := by
  -- After a backslash in a string one scan is behind: it reads the two characters at once.
  induction x generalizing s with
  | nil =>
    obtain ⟨depth, mode⟩ := s
    cases mode with
    | code b => rfl
    | literal q escaped => cases hcode
  | cons c x ih =>
    have hy' : x.getLast? = some '/' → y.head? ≠ some '/' ∧ y.head? ≠ some '*' := fun h =>
      hy (by rw [List.getLast?_cons, h]; rfl)
    rw [Nesting.quiet, Bool.and_eq_true] at hx
    obtain ⟨hc, hx⟩ := hx
    have rest := ih hx hcode hy'
    obtain ⟨depth, mode⟩ := s
    cases mode with
    | code b =>
      have hopen : c = '/' → (x ++ y).head? ≠ some '/' ∧ (x ++ y).head? ≠ some '*' := by
        rintro rfl
        cases x with
        | nil => exact hy rfl
        | cons d x => simpa [Nesting.inCode] using hc
      have hnext : (ofNesting ((⟨depth, .code b⟩ : Nesting).step c)) =
          if isQuote c then .literal c else .code := by
        simp only [Nesting.step]
        split <;> rfl
      have hpending : pending ((⟨depth, .code b⟩ : Nesting).step c) = [] := by
        simp only [Nesting.step]
        split <;> rfl
      rw [hnext, hpending] at rest
      simp only [ofNesting, pending, List.nil_append, List.cons_append] at rest ⊢
      rw [blank_code_cons (fun e => (hopen e).1) (fun e => (hopen e).2), rest]
    | literal q escaped =>
      have hline : c ≠ '\n' := by simpa [Nesting.inCode] using hc
      cases escaped with
      | true =>
        simp only [ofNesting, pending, Nesting.step, List.nil_append] at rest ⊢
        simp [blank, rest]
      | false =>
        simp only [ofNesting, pending, List.nil_append, List.cons_append]
        by_cases hback : c = '\\'
        · subst hback
          simpa [ofNesting, pending, Nesting.step] using rest
        · rw [blank_literal_cons fun e => absurd e hback]
          by_cases hquote : c = q
          · subst hquote
            simp_all [ofNesting, pending, Nesting.step]
          · simp_all [ofNesting, pending, Nesting.step]

theorem blank_quiet {t : Text} (h : t.Quiet) : t.blankComments = t := by
  have := blank_quiet_append (y := []) h.1 h.2 (by simp)
  simpa [ofNesting, pending, Nesting.outside, blank, Text.blankComments] using this

end CommentMode

end WebSurface
