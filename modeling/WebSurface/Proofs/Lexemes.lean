import WebSurface.Proofs.LeadingNames
import WebSurface.Token
set_option autoImplicit false

/-!
What can stand in a text as a lexeme.

`Lexeme.reads_next` says it once for all lexemes: blanks are single separators and whole comments,
tokens are spelled as their kind demands, and a fault is a character with which nothing begins, or a
string or a comment that is still open at the end of the text. All that is said about tokens and
their places is told from it.
-/

namespace WebSurface

/-- The text `g`, when `r` follows it, is white space and whole comments. A comment on a line goes
on up to a line feed or to the end of the text. -/
inductive Skips (isSpace : Char → Bool) : Text → Text → Prop
  | nil {r : Text} : Skips isSpace [] r
  | space {c : Char} {g r : Text} : isSpace c → Skips isSpace g r → Skips isSpace (c :: g) r
  | line {body g r : Text} : '\n' ∉ body → (∀ c ∈ (g ++ r).head?, c = '\n') → Skips isSpace g r →
      Skips isSpace ('/' :: '/' :: (body ++ g)) r
  | block {body g r : Text} : ¬['*', '/'] <:+: body → Skips isSpace g r →
      Skips isSpace ('/' :: '*' :: (body ++ '*' :: '/' :: g)) r

namespace Skips

variable {isSpace : Char → Bool}

theorem append {g h r : Text} (hg : Skips isSpace g (h ++ r)) (hh : Skips isSpace h r) :
    Skips isSpace (g ++ h) r := by
  generalize hu : h ++ r = u at hg
  induction hg with
  | nil => exact hh
  | space hc _ ih => exact .space hc (ih hu)
  | line hbody hstop _ ih =>
    subst hu
    rw [List.cons_append, List.cons_append, List.append_assoc]
    exact .line hbody (by simpa using hstop) (ih rfl)
  | block hbody _ ih =>
    rw [List.cons_append, List.cons_append, List.append_assoc, List.cons_append, List.cons_append]
    exact .block hbody (ih hu)

end Skips

/-- What stands between the quotes of a string: a backslash takes the next character along, and no
other character is the quote. -/
inductive IsRaw (q : Char) : Text → Prop
  | nil : IsRaw q []
  | escape {c : Char} {raw : Text} : IsRaw q raw → IsRaw q ('\\' :: c :: raw)
  | char {c : Char} {raw : Text} : c ≠ q → c ≠ '\\' → IsRaw q raw → IsRaw q (c :: raw)

/-- The token has a spelling of its kind. -/
def TokenKind.WellSpelled : TokenKind → Prop
  | .name t => ∃ c r, t = c :: r ∧ Text.startsName c ∧ ∀ d ∈ r, Text.isNameChar d
  | .literal q raw => isQuote q ∧ IsRaw q raw
  | .number t => ∃ c r, t = c :: r ∧ Lexeme.startsNumber c r ∧ ∀ d ∈ r, Lexeme.isNumberChar d
  | .sign _ => True
  | .eof => False

/-- The text that follows the token does not make it a longer one. -/
def TokenKind.EndsBefore : TokenKind → Text → Prop
  | .name _, r => ∀ c ∈ r.head?, Text.isNameChar c = false
  | .number _, r => ∀ c ∈ r.head?, Lexeme.isNumberChar c = false
  | .sign .dot, r => ¬['.', '.'] <+: r
  | .sign .equals, r => ¬['>'] <+: r
  | _, _ => True

theorem TokenKind.WellSpelled.spelling_ne_nil {k : TokenKind} (h : k.WellSpelled) :
    k.spelling ≠ [] := by
  cases k with
  | name t =>
    obtain ⟨c, r, rfl, -⟩ := h
    exact List.cons_ne_nil c r
  | literal q raw => exact List.cons_ne_nil q _
  | number t =>
    obtain ⟨c, r, rfl, -⟩ := h
    exact List.cons_ne_nil c r
  | sign s => cases s with
    | opening kind => cases kind <;> exact List.cons_ne_nil _ _
    | closing kind => cases kind <;> exact List.cons_ne_nil _ _
    | _ => exact List.cons_ne_nil _ _
  | eof => exact h.elim

theorem TokenKind.WellSpelled.isNameChar {t : Text} (h : (TokenKind.name t).WellSpelled) :
    ∀ c ∈ t, Text.isNameChar c := by
  obtain ⟨c, r, rfl, hc, hr⟩ := h
  exact List.forall_mem_cons.2 ⟨Text.isNameChar_of_startsName hc, hr⟩

theorem TokenKind.WellSpelled.isNumberChar {t : Text} (h : (TokenKind.number t).WellSpelled) :
    ∀ c ∈ t, Lexeme.isNumberChar c ∨ c = '-' := by
  obtain ⟨c, r, rfl, hc, hr⟩ := h
  refine List.forall_mem_cons.2 ⟨?_, fun d hd => .inl (hr d hd)⟩
  rcases Bool.or_eq_true_iff.1 hc with hdigit | hminus
  · exact .inl (by simp [Lexeme.isNumberChar, Char.isAlphanum, hdigit])
  · exact .inr (beq_iff_eq.1 (Bool.and_eq_true_iff.1 hminus).1)

/-- Where text is rewritten so that it begins as before or with a space, and dots are kept, no token
before it becomes longer. -/
theorem TokenKind.EndsBefore.rewritten {f : Text → Text}
    (start : ∀ {r : Text} {c : Char}, (f r).head? = some c → r.head? = some c ∨ c = ' ')
    (dot : ∀ r, f ('.' :: r) = '.' :: f r) {k : TokenKind} {r : Text} (h : k.EndsBefore r) :
    k.EndsBefore (f r) := by
  have head {p : Char → Bool} (hp : p ' ' = false) (hr : ∀ c ∈ r.head?, p c = false) :
      ∀ c ∈ (f r).head?, p c = false := fun c hc => by
    rcases start hc with hc | rfl
    · exact hr c hc
    · exact hp
  have first {c : Char} {r u : Text} (hc : c ≠ ' ') (hu : c :: u <+: f r) : ∃ s, r = c :: s := by
    obtain ⟨v, hv⟩ := hu
    have begins : (f r).head? = some c := by rw [← hv]; rfl
    exact List.head?_eq_some_iff.1 ((start begins).resolve_right hc)
  cases k with
  | name t => exact head (by decide) h
  | number t => exact head rfl h
  | sign s =>
    cases s with
    | dot =>
      intro hdots
      obtain ⟨s, rfl⟩ := first (by decide) hdots
      rw [dot] at hdots
      obtain ⟨w, rfl⟩ := first (by decide) ((List.prefix_cons_inj '.').1 hdots)
      exact h ⟨w, rfl⟩
    | equals =>
      intro harrow
      obtain ⟨s, rfl⟩ := first (by decide) harrow
      exact h ⟨s, rfl⟩
    | _ => trivial
  | _ => trivial

def FaultCause.Covers : FaultCause → Text → Prop
  | .unexpected c, t => t = [c]
  | .unterminatedString, t => ∃ q r, t = q :: r ∧ isQuote q
  | .unterminatedComment, t => ∃ r, t = '/' :: '*' :: r

theorem FaultCause.Covers.ne_nil {cause : FaultCause} {t : Text} (h : cause.Covers t) :
    t ≠ [] := by
  cases cause with
  | unexpected c =>
    rw [show t = [c] from h]
    exact List.cons_ne_nil c []
  | unterminatedString =>
    obtain ⟨q, r, rfl, -⟩ := h
    exact List.cons_ne_nil q r
  | unterminatedComment =>
    obtain ⟨r, rfl⟩ := h
    exact List.cons_ne_nil '/' _

theorem Sign.ofChar?_of_spelling {s : Sign} {c : Char} (h : s.spelling = [c]) :
    ofChar? c = some s := by
  cases s with
  | opening kind => cases kind <;> (cases h; rfl)
  | closing kind => cases kind <;> (cases h; rfl)
  | ellipsis => cases h
  | arrow => cases h
  | _ => cases h; rfl

namespace Lexeme

def isFault : Lexeme → Bool
  | .fault _ _ => true
  | _ => false

def isComment : Lexeme → Bool
  | .blank t => t.head? == some '/'
  | .fault .unterminatedComment _ => true
  | _ => false

theorem not_infix_of_closeComment? {t a b : Text} (h : closeComment? t = some (a, b)) :
    ∃ body, a = body ++ ['*', '/'] ∧ ¬['*', '/'] <:+: body := by
  fun_induction closeComment? t generalizing a with
  | case1 => cases h
  | case2 r =>
    obtain ⟨rfl, rfl⟩ := Prod.mk.inj (Option.some.inj h)
    exact ⟨[], rfl, by simp⟩
  | case3 c r hstar ih =>
    obtain ⟨⟨x, y⟩, hxy, he⟩ := Option.map_eq_some_iff.1 h
    obtain ⟨rfl, rfl⟩ := Prod.mk.inj he
    obtain ⟨body, rfl, hbody⟩ := ih hxy
    refine ⟨c :: body, rfl, fun hin => ?_⟩
    rcases List.infix_cons_iff.1 hin with hstart | hin
    · obtain ⟨v, hv⟩ := hstart
      obtain ⟨rfl, rfl⟩ := List.cons.inj hv
      exact hstar _ rfl (closeComment?_append hxy).symm
    · exact hbody hin

theorem isRaw_of_closeLiteral? {q : Char} {t a b : Text} (h : closeLiteral? q t = some (a, b)) :
    IsRaw q a := by
  fun_induction closeLiteral? q t generalizing a with
  | case1 => cases h
  | case2 c r ih =>
    obtain ⟨⟨x, y⟩, hxy, he⟩ := Option.map_eq_some_iff.1 h
    obtain ⟨rfl, rfl⟩ := Prod.mk.inj he
    exact .escape (ih hxy)
  | case3 r =>
    obtain ⟨rfl, rfl⟩ := Prod.mk.inj (Option.some.inj h)
    exact .nil
  | case4 c r hback hc ih =>
    obtain ⟨⟨x, y⟩, hxy, he⟩ := Option.map_eq_some_iff.1 h
    obtain ⟨rfl, rfl⟩ := Prod.mk.inj he
    refine .char hc ?_ (ih hxy)
    rintro rfl
    cases r with
    | nil => simp [closeLiteral?] at hxy
    | cons d r => exact hback d r rfl rfl

theorem not_infix_of_closeComment?_eq_none {t : Text} (h : closeComment? t = none) :
    ¬['*', '/'] <:+: t := by
  fun_induction closeComment? t with
  | case1 => simp
  | case2 r => cases h
  | case3 c r hstar ih =>
    intro hin
    rcases List.infix_cons_iff.1 hin with ⟨v, hv⟩ | hin
    · obtain ⟨rfl, rfl⟩ := List.cons.inj hv
      exact hstar v rfl rfl
    · exact ih (Option.map_eq_none_iff.1 h) hin

structure Unreadable (c : Char) (r : Text) : Prop where
  separator : isSeparator c = false
  quote : isQuote c = false
  name : Text.isNameChar c = false
  number : startsNumber c r = false
  sign : Sign.ofChar? c = none
  line : c = '/' → r.head? ≠ some '/'
  block : c = '/' → r.head? ≠ some '*'

inductive Reads : Lexeme → Text → Prop
  | space {c : Char} {r : Text} : isSeparator c → Reads (.blank [c]) r
  | line {body r : Text} : '\n' ∉ body → (∀ c ∈ r.head?, c = '\n') →
      Reads (.blank ('/' :: '/' :: body)) r
  | block {body r : Text} : ¬['*', '/'] <:+: body →
      Reads (.blank ('/' :: '*' :: (body ++ ['*', '/']))) r
  | token {k : TokenKind} {r : Text} : k.WellSpelled → k.EndsBefore r → Reads (.token k) r
  | unexpected {c : Char} {r : Text} : Unreadable c r → Reads (.fault (.unexpected c) [c]) r
  | openLiteral {q : Char} {t : Text} : isQuote q → Reads (.fault .unterminatedString (q :: t)) []
  | openComment {t : Text} : ¬['*', '/'] <:+: t →
      Reads (.fault .unterminatedComment ('/' :: '*' :: t)) []

theorem startsNumber_takeWhile {c : Char} {r : Text} (h : startsNumber c r) :
    startsNumber c (r.takeWhile isNumberChar) := by
  simp only [startsNumber, Bool.or_eq_true, Bool.and_eq_true] at h ⊢
  refine h.imp_right (And.imp_right fun hd => ?_)
  cases r with
  | nil => cases hd
  | cons d r =>
    have hdigit : d.isDigit := hd
    have hn : isNumberChar d := by simp [isNumberChar, Char.isAlphanum, hdigit]
    rw [List.takeWhile_cons_of_pos hn]
    exact hd

theorem head?_dropWhile {p : Char → Bool} (r : Text) :
    ∀ c ∈ (r.dropWhile p).head?, p c = false := by
  intro c hc
  have := List.head?_dropWhile_not p r
  rw [hc] at this
  simpa using this

theorem isDigit_eq_false {c : Char} {r : Text} (h : ¬startsNumber c r) : c.isDigit = false := by
  simp only [startsNumber, Bool.or_eq_true, not_or] at h
  simpa using h.1

theorem reads_next (c : Char) (r : Text) : Reads (next c r).1 (next c r).2 := by
  have all {p : Char → Bool} (t : Text) : ∀ d ∈ t.takeWhile p, p d :=
    List.all_eq_true.1 List.all_takeWhile
  fun_cases next c r with
  | case1 => exact .space ‹_›
  | case2 => exact .token ⟨‹_›, isRaw_of_closeLiteral? ‹_›⟩ trivial
  | case3 => exact .openLiteral ‹_›
  | case4 => exact .token ⟨c, _, rfl, startsNumber_takeWhile ‹_›, all r⟩ (head?_dropWhile r)
  | case5 =>
    rename_i hname hnumber
    have hdigit := isDigit_eq_false hnumber
    exact .token ⟨c, _, rfl, by simp [Text.startsName, hname, hdigit], all r⟩ (head?_dropWhile r)
  | case6 s =>
    refine .line (fun h => by simpa using all s _ h) fun d hd => ?_
    simpa using head?_dropWhile s d hd
  | case7 =>
    obtain ⟨body, rfl, hbody⟩ := not_infix_of_closeComment? ‹_›
    exact .block hbody
  | case8 => exact .openComment (not_infix_of_closeComment?_eq_none ‹_›)
  | case9 => exact .token trivial trivial
  | case10 => exact .token trivial trivial
  | case11 =>
    rename_i sign hsign hsep hquote hname hline hblock hdots harrow hnumber
    refine .token trivial ?_
    have hc := Sign.spelling_of_ofChar? hsign
    cases sign with
    | dot =>
      rintro ⟨s, rfl⟩
      exact hdots s (List.cons.inj hc).1.symm rfl
    | equals =>
      rintro ⟨s, rfl⟩
      exact harrow s (List.cons.inj hc).1.symm rfl
    | _ => trivial
  | case12 =>
    rename_i hsign hsep hquote hname hline hblock hdots harrow hnumber
    refine .unexpected ⟨by simpa using hsep, by simpa using hquote, by simpa using hname,
      by simpa using hnumber, hsign, fun hc h => ?_, fun hc h => ?_⟩
    · obtain ⟨s, hs⟩ := List.head?_eq_some_iff.1 h
      exact hline s hc hs
    · obtain ⟨s, hs⟩ := List.head?_eq_some_iff.1 h
      exact hblock s hc hs

theorem closeComment?_of_body {body : Text} (h : ¬['*', '/'] <:+: body) (r : Text) :
    closeComment? (body ++ '*' :: '/' :: r) = some (body ++ ['*', '/'], r) := by
  induction body with
  | nil => rfl
  | cons c body ih =>
    have hrest := ih fun hin => h (List.infix_cons_iff.2 (.inr hin))
    rw [List.cons_append, closeComment?]
    · rw [hrest]
      rfl
    · rintro s rfl hs
      cases body with
      | nil => cases hs
      | cons d body =>
        obtain ⟨rfl, -⟩ := List.cons.inj hs
        exact h ⟨[], body, rfl⟩

theorem ne_backslash_of_isQuote {q : Char} (h : isQuote q) : q ≠ '\\' := by
  rintro rfl
  cases h

theorem closeLiteral?_of_isRaw {q : Char} (hq : isQuote q) {raw : Text} (h : IsRaw q raw)
    (r : Text) : closeLiteral? q (raw ++ q :: r) = some (raw, r) := by
  have hback := ne_backslash_of_isQuote hq
  induction h with
  | nil => simp [closeLiteral?, hback]
  | escape _ ih => simp [closeLiteral?, ih]
  | @char c raw hc hne _ ih => simp [closeLiteral?, hc, hne, ih]

theorem takeWhile_append_of {p : Char → Bool} {w r : Text} (hw : ∀ c ∈ w, p c)
    (hr : ∀ c ∈ r.head?, p c = false) :
    (w ++ r).takeWhile p = w ∧ (w ++ r).dropWhile p = r := by
  rw [List.takeWhile_append_of_pos hw, List.dropWhile_append_of_pos hw]
  cases r with
  | nil => simp
  | cons c r => simp [hr c rfl]

theorem plain_of_ofChar? {c : Char} {s : Sign} (h : Sign.ofChar? c = some s) :
    (isSeparator c || isQuote c || c.isDigit || c == '-' || Text.isNameChar c || c == '/') =
      false := by
  have all : ":?;,.|&=([\x7b<)]\x7d>".toList.all (fun c => (isSeparator c || isQuote c ||
      c.isDigit || c == '-' || Text.isNameChar c || c == '/') == false) := by
    decide
  have hc : c ∈ ":?;,.|&=([\x7b<)]\x7d>".toList := by
    unfold Sign.ofChar? at h
    split at h <;> first | decide | cases h
  exact beq_iff_eq.1 (List.all_eq_true.1 all c hc)

theorem next_sign {c : Char} {s : Sign} (hs : Sign.ofChar? c = some s) {r : Text}
    (hr : (TokenKind.sign s).EndsBefore r) : next c r = (.token (.sign s), r) := by
  have hplain := plain_of_ofChar? hs
  simp only [Bool.or_eq_false_iff, beq_eq_false_iff_ne] at hplain
  obtain ⟨⟨⟨⟨⟨hsep, hquote⟩, hdigit⟩, hminus⟩, hname⟩, hslash⟩ := hplain
  have hnumber : startsNumber c r = false := by simp [startsNumber, hdigit, hminus]
  unfold next
  rw [if_neg (by simp [hsep]), if_neg (by simp [hquote]), if_neg (by simp [hnumber]),
    if_neg (by simp [hname])]
  split
  · exact absurd rfl hslash
  · exact absurd rfl hslash
  · rename_i t
    cases hs
    exact absurd ⟨t, rfl⟩ hr
  · rename_i t
    cases hs
    exact absurd ⟨t, rfl⟩ hr
  · rw [hs]

theorem not_isNameChar_slash : Text.isNameChar '/' = false := by decide

theorem next_line (s : Text) : next '/' ('/' :: s) =
    (.blank ('/' :: '/' :: s.takeWhile (· != '\n')), s.dropWhile (· != '\n')) := by
  simp [next, not_isNameChar_slash, isSeparator, isQuote, startsNumber]

theorem next_block {s a b : Text} (h : closeComment? s = some (a, b)) :
    next '/' ('*' :: s) = (.blank ('/' :: '*' :: a), b) := by
  simp [next, not_isNameChar_slash, isSeparator, isQuote, startsNumber, h]

theorem ofText_ellipsis (r : Text) :
    ofText ('.' :: '.' :: '.' :: r) = .token (.sign .ellipsis) :: ofText r := by
  have hname : Text.isNameChar '.' = false := by decide
  rw [ofText_cons]
  simp [next, hname, isSeparator, isQuote, startsNumber]

theorem ofText_arrow (r : Text) : ofText ('=' :: '>' :: r) = .token (.sign .arrow) :: ofText r := by
  have hname : Text.isNameChar '=' = false := by decide
  rw [ofText_cons]
  simp [next, hname, isSeparator, isQuote, startsNumber]

theorem next_number {c : Char} {r : Text} (h : startsNumber c r) :
    next c r = (.token (.number (c :: r.takeWhile isNumberChar)), r.dropWhile isNumberChar) := by
  have hsep : isSeparator c = false := by
    cases hs : isSeparator c with
    | false => rfl
    | true => rcases Text.eq_of_isSeparator hs with rfl | rfl | rfl | rfl <;> cases h
  have hquote : isQuote c = false := by
    cases hq : isQuote c with
    | false => rfl
    | true => rcases Text.eq_of_isQuote hq with rfl | rfl | rfl <;> cases h
  simp [next, hsep, hquote, h]

theorem startsNumber_append {c : Char} {s : Text} (h : startsNumber c s) (r : Text) :
    startsNumber c (s ++ r) := by
  cases s with
  | nil =>
    have hdigit : c.isDigit := by simpa [startsNumber] using h
    simp [startsNumber, hdigit]
  | cons d s => exact h

theorem ofText_spelling {k : TokenKind} {r : Text} (hk : k.WellSpelled) (hr : k.EndsBefore r) :
    ofText (k.spelling ++ r) = .token k :: ofText r := by
  cases k with
  | name t =>
    obtain ⟨c, s, rfl, hc, hs⟩ := hk
    obtain ⟨htake, hdrop⟩ := takeWhile_append_of hs hr
    rw [TokenKind.spelling, List.cons_append, ofText_cons, Text.next_name hc, htake, hdrop]
  | literal q raw =>
    obtain ⟨hq, hraw⟩ := hk
    have hsep : isSeparator q = false := by
      rcases Text.eq_of_isQuote hq with rfl | rfl | rfl <;> rfl
    have hclose := closeLiteral?_of_isRaw hq hraw r
    rw [TokenKind.spelling, List.cons_append, List.cons_append, List.append_assoc,
      List.singleton_append, ofText_cons]
    simp [next, hsep, hq, hclose]
  | number t =>
    obtain ⟨c, s, rfl, hc, hs⟩ := hk
    obtain ⟨htake, hdrop⟩ := takeWhile_append_of hs hr
    rw [TokenKind.spelling, List.cons_append, ofText_cons, next_number (startsNumber_append hc r),
      htake, hdrop]
  | sign s =>
    have one {c : Char} (hc : s.spelling = [c]) :
        ofText ((TokenKind.sign s).spelling ++ r) = .token (.sign s) :: ofText r := by
      rw [TokenKind.spelling, hc, List.singleton_append, ofText_cons,
        next_sign (Sign.ofChar?_of_spelling hc) hr]
    cases s with
    | ellipsis => exact ofText_ellipsis r
    | arrow => exact ofText_arrow r
    | opening kind => cases kind <;> exact one rfl
    | closing kind => cases kind <;> exact one rfl
    | _ => exact one rfl
  | eof => exact hk.elim

theorem ofText_of_reads {l : Lexeme} {r : Text} (h : Reads l r) (hf : l.isFault = false) :
    ofText (l.text ++ r) = l :: ofText r := by
  cases h with
  | @space c _ hc =>
    rw [text, List.singleton_append, ofText_cons]
    simp [next, hc]
  | @line body _ hbody hstop =>
    have hne : ∀ c ∈ body, c != '\n' := fun c hc => by
      rw [bne_iff_ne]
      rintro rfl
      exact hbody hc
    obtain ⟨htake, hdrop⟩ := takeWhile_append_of hne
      (fun c hc => by simpa using hstop c hc : ∀ c ∈ r.head?, (c != '\n') = false)
    rw [text, List.cons_append, List.cons_append, ofText_cons, next_line, htake, hdrop]
  | @block body _ hbody =>
    rw [text, List.cons_append, List.cons_append, List.append_assoc, List.cons_append,
      List.singleton_append, ofText_cons, next_block (closeComment?_of_body hbody r)]
  | token hk hr => exact ofText_spelling hk hr
  | _ => cases hf

/-- The text does not make longer what is read before it. -/
def Apart (u : Text) : Prop := ∀ c ∈ u.head?, Text.isNameChar c = false ∧ c ≠ '.' ∧ c ≠ '>'

def ApartFrom (t u : Text) : Prop :=
  ∀ c ∈ u.head?, Text.isNameChar c = false ∧ c ≠ '.' ∧ (c = '>' → t.getLast? ≠ some '=')

theorem Apart.apartFrom {u : Text} (hu : Apart u) (t : Text) : ApartFrom t u := fun c hc =>
  ⟨(hu c hc).1, (hu c hc).2.1, fun e => absurd e (hu c hc).2.2⟩

theorem ApartFrom.of_append {t r u : Text} (h : ApartFrom (t ++ r) u) : ApartFrom r u :=
  fun c hc => ⟨(h c hc).1, (h c hc).2.1, fun e last =>
    (h c hc).2.2 e (by rw [List.getLast?_append, last]; rfl)⟩

theorem isNumberChar_eq_false {c : Char} (hname : Text.isNameChar c = false) (hdot : c ≠ '.') :
    isNumberChar c = false := by
  have halnum : c.isAlphanum = false := by
    cases ha : c.isAlphanum with
    | false => rfl
    | true => simp [Text.isNameChar, Text.isAlphanumeric, ha] at hname
  simp [isNumberChar, halnum, hdot]

theorem endsBefore_append {k : TokenKind} {r u : Text} (h : k.EndsBefore r)
    (hu : ApartFrom (k.spelling ++ r) u) : k.EndsBefore (r ++ u) := by
  -- Only one character is looked at, but two for an ellipsis: it may be the last before `u`.
  cases r with
  | nil =>
    cases u with
    | nil => exact h
    | cons c u =>
      have hc := hu c rfl
      have head {p : Char → Bool} (hp : p c = false) : ∀ d ∈ (c :: u).head?, p d = false :=
        fun d hd => Option.some.inj hd ▸ hp
      cases k with
      | name t => exact head hc.1
      | number t => exact head (isNumberChar_eq_false hc.1 hc.2.1)
      | sign s =>
        cases s with
        | dot =>
          rintro ⟨v, hv⟩
          exact hc.2.1 (List.cons.inj hv).1.symm
        | equals =>
          rintro ⟨v, hv⟩
          exact hc.2.2 (List.cons.inj hv).1.symm rfl
        | _ => trivial
      | _ => trivial
  | cons d r =>
    cases k with
    | name t => exact h
    | number t => exact h
    | sign s =>
      cases s with
      | dot =>
        rintro ⟨v, hv⟩
        obtain ⟨rfl, htail⟩ := List.cons.inj hv
        cases r with
        | nil =>
          obtain rfl : '.' :: v = u := htail
          exact (hu '.' rfl).2.1 rfl
        | cons e r =>
          obtain ⟨rfl, -⟩ := List.cons.inj htail
          exact h ⟨r, rfl⟩
      | equals =>
        rintro ⟨v, hv⟩
        exact h ⟨r, by rw [← (List.cons.inj hv).1]; rfl⟩
      | _ => trivial
    | _ => trivial

theorem reads_append {l : Lexeme} {r u : Text} (h : Reads l r) (hf : l.isFault = false)
    (hc : r = [] → l.isComment → ∀ c ∈ u.head?, c = '\n') (hu : ApartFrom (l.text ++ r) u) :
    Reads l (r ++ u) := by
  cases h with
  | space h => exact .space h
  | line hbody hstop =>
    refine .line hbody ?_
    cases r with
    | nil => exact hc rfl rfl
    | cons d r => exact hstop
  | block hbody => exact .block hbody
  | token hk hends => exact .token hk (endsBefore_append hends hu)
  | _ => cases hf

/-- A text without faults keeps its lexemes when another one that stands apart from it follows,
unless it ends with a comment. -/
theorem ofText_append_of_apartFrom {t u : Text} (hf : ∀ l ∈ ofText t, l.isFault = false)
    (hlast : ∀ l ∈ (ofText t).getLast?, l.isComment = false) (hu : ApartFrom t u) :
    ofText (t ++ u) = ofText t ++ ofText u := by
  fun_induction ofText t with
  | case1 => rfl
  | case2 c r ih =>
    obtain ⟨hl, hf⟩ := List.forall_mem_cons.1 hf
    have hc (hnil : (next c r).2 = []) (hcomment : (next c r).1.isComment) :
        ∀ d ∈ u.head?, d = '\n' := by
      rw [hlast _ (by rw [hnil, ofText_nil]; rfl)] at hcomment
      cases hcomment
    rw [← text_next c r] at hu ⊢
    have hr := ih hf (fun l h => hlast l (by
      rw [List.getLast?_cons, Option.mem_def.1 h]
      rfl)) hu.of_append
    have := ofText_of_reads (reads_append (reads_next c r) hl hc hu) hl
    rw [List.append_assoc, this, hr]
    rfl

theorem ofText_append {t u : Text} (hf : ∀ l ∈ ofText t, l.isFault = false)
    (hlast : ∀ l ∈ (ofText t).getLast?, l.isComment = false) (hu : Apart u) :
    ofText (t ++ u) = ofText t ++ ofText u :=
  ofText_append_of_apartFrom hf hlast (hu.apartFrom t)

theorem skips_of_reads {b r : Text} (h : Reads (.blank b) r) : Skips isSeparator b r := by
  cases h with
  | space hc => exact .space hc .nil
  | @line body _ hbody hstop => simpa using Skips.line (g := []) hbody hstop .nil
  | block hbody => exact .block hbody .nil

theorem covers_of_reads {cause : FaultCause} {m r : Text} (h : Reads (.fault cause m) r) :
    cause.Covers m := by
  cases h with
  | unexpected => exact rfl
  | @openLiteral q t hq => exact ⟨q, t, rfl, hq⟩
  | @openComment t _ => exact ⟨t, rfl⟩

theorem unexpected_or_nil_of_reads {cause : FaultCause} {m r : Text}
    (h : Reads (.fault cause m) r) : (∃ c, cause = .unexpected c) ∨ r = [] := by
  cases h with
  | @unexpected c _ _ => exact .inl ⟨c, rfl⟩
  | openLiteral => exact .inr rfl
  | openComment => exact .inr rfl

theorem reads_of_ofText {t : Text} {before after : List Lexeme} {l : Lexeme}
    (h : ofText t = before ++ l :: after) : Reads l (after.flatMap text) := by
  fun_induction ofText t generalizing before with
  | case1 => cases before <;> cases h
  | case2 c r ih =>
    cases before with
    | nil =>
      obtain ⟨rfl, rfl⟩ := List.cons.inj h
      rw [flatMap_text_ofText]
      exact reads_next c r
    | cons m before => exact ih (List.cons.inj h).2

theorem mem_place {n : Nat} {ls : List Lexeme} {x : Span × Lexeme} (h : x ∈ place n ls) :
    ∃ before after, ls = before ++ x.2 :: after ∧
      x.1.start = n + Text.bytes (before.flatMap text) ∧
      x.1.stop = x.1.start + Text.bytes x.2.text := by
  induction ls generalizing n with
  | nil => cases h
  | cons l ls ih =>
    rcases List.mem_cons.1 h with rfl | h
    · exact ⟨[], ls, rfl, rfl, rfl⟩
    · obtain ⟨before, after, rfl, hstart, hstop⟩ := ih h
      refine ⟨l :: before, after, rfl, ?_, hstop⟩
      rw [hstart, List.flatMap_cons, Text.bytes_append, Nat.add_assoc]

theorem pairwise_place (n : Nat) (ls : List Lexeme) :
    (place n ls).Pairwise fun x y => x.1.stop ≤ y.1.start := by
  induction ls generalizing n with
  | nil => exact .nil
  | cons l ls ih =>
    refine .cons (fun y hy => ?_) (ih _)
    obtain ⟨before, after, -, hstart, -⟩ := mem_place hy
    rw [hstart]
    exact Nat.le_add_right _ _

theorem slice?_of_mem_place {t : Text} {x : Span × Lexeme} (h : x ∈ place 0 (ofText t)) :
    t.slice? x.1 = some x.2.text := by
  obtain ⟨before, after, hls, hstart, hstop⟩ := mem_place h
  refine Text.slice?_eq_some_iff.2
    ⟨before.flatMap text, after.flatMap text, ?_, by rw [hstart, Nat.zero_add], ?_⟩
  · rw [← flatMap_text_ofText t, hls]
    simp
  · rw [hstop, hstart, Nat.zero_add]

end Lexeme

namespace Token

open Lexeme

/-- The tokens among lexemes that start at byte `n`. -/
def among (n : Nat) (ls : List Lexeme) : List Token := (place n ls).filterMap ofLexeme?

/-- The places of a text at which no token could be read. -/
def faultsOf (t : Text) : List Fault := (place 0 (ofText t)).filterMap (faultOfLexeme? t)

def endAt (n : Nat) : Token := ⟨.eof, ⟨n, n⟩⟩

@[simp] theorem among_nil (n : Nat) : among n [] = [] := rfl

@[simp] theorem among_blank (n : Nat) (t : Text) (ls : List Lexeme) :
    among n (.blank t :: ls) = among (n + Text.bytes t) ls := rfl

@[simp] theorem among_token (n : Nat) (k : TokenKind) (ls : List Lexeme) :
    among n (.token k :: ls) =
      ⟨k, ⟨n, n + Text.bytes k.spelling⟩⟩ :: among (n + Text.bytes k.spelling) ls := rfl

theorem filterMap_fault_eq_nil_iff {t : Text} {n : Nat} {ls : List Lexeme} :
    (place n ls).filterMap (faultOfLexeme? t) = [] ↔ ∀ l ∈ ls, l.isFault = false := by
  induction ls generalizing n with
  | nil => simp [place]
  | cons l ls ih =>
    rw [place, List.forall_mem_cons]
    cases l with
    | blank b => exact ih.trans ⟨fun h => ⟨rfl, h⟩, And.right⟩
    | token k => exact ih.trans ⟨fun h => ⟨rfl, h⟩, And.right⟩
    | fault cause b => simp [faultOfLexeme?, isFault]

theorem faultsOf_eq_nil_iff {t : Text} : faultsOf t = [] ↔ ∀ l ∈ ofText t, l.isFault = false :=
  filterMap_fault_eq_nil_iff

theorem tokenize_eq_ok {t : Text} (h : ∀ l ∈ ofText t, l.isFault = false) :
    tokenize t = .ok (among 0 (ofText t) ++ [endAt (Text.bytes t)]) := by
  rw [tokenize, filterMap_fault_eq_nil_iff.2 h]
  rfl

theorem tokenize_eq_error {t : Text} (h : ¬∀ l ∈ ofText t, l.isFault = false) :
    tokenize t = .error (faultsOf t) := by
  rw [tokenize]
  split
  · rename_i hf
    exact absurd (filterMap_fault_eq_nil_iff.1 hf) h
  · rfl

theorem exists_tokenize_iff {t : Text} :
    (∃ tokens, tokenize t = .ok tokens) ↔ ∀ l ∈ ofText t, l.isFault = false := by
  constructor
  · rintro ⟨tokens, h⟩
    refine Decidable.byContradiction fun hf => ?_
    rw [tokenize_eq_error hf] at h
    cases h
  · intro h
    exact ⟨_, tokenize_eq_ok h⟩

end Token

end WebSurface
