import WebSurface.Proofs.Quiet
set_option autoImplicit false

/-!
The structure of brackets, read by characters and read by tokens.

Where a text has no faults and no comments, a scan of its characters comes to the end of each lexeme
outside strings, with as many brackets open as the tokens say (`Lexeme.between_run`). So both
readings find the same places (`Token.nesting_of_tokenize`).
-/

namespace WebSurface

/-- The number of brackets open after a token, when `n` are open before it. -/
def TokenKind.depthAfter (n : Nat) : TokenKind → Nat
  | .sign (.opening _) => n + 1
  | .sign (.closing _) => n - 1
  | _ => n

def Sign.isDelimiter : Sign → Bool
  | .colon | .semicolon | .comma | .pipe | .ampersand | .question => true
  | _ => false

namespace Token

def depthAfter (n : Nat) (tokens : List Token) : Nat :=
  tokens.foldl (fun n k => k.kind.depthAfter n) n

/-- The first token for which `q` holds of the number of brackets open before it and of its kind. -/
def first? (q : Nat → TokenKind → Bool) (n : Nat) : List Token → Option Token
  | [] => none
  | k :: ks => if q n k.kind then some k else first? q (k.kind.depthAfter n) ks

end Token

namespace TokenKind

def isOutermost (s : Sign) (n : Nat) (k : TokenKind) : Bool := n == 0 && k == .sign s

def closesLast (n : Nat) (k : TokenKind) : Bool := n != 0 && k.depthAfter n == 0

def IsMark (k : TokenKind) : Prop := ∃ s c, k = .sign s ∧ s.spelling = [c]

end TokenKind

def isMark (c : Char) : Bool := isOpener c || isCloser c || ":;,|&?".toList.elem c

/-- A character that the scan passes over wherever it stands. -/
def isInert (c : Char) : Bool := isPlain c && !isMark c

theorem isInert_of {p : Char → Bool} (hp : "([\x7b<)]\x7d>\"'`=:;,|&?".toList.all (!p ·)) {c : Char}
    (h : p c) : isInert c := by
  have hs := not_mem_of_all_not hp h
  simp only [String.reduceToList, List.mem_cons, List.not_mem_nil, or_false, not_or] at hs
  simp [isInert, isPlain, isMark, isOpener, isCloser, isQuote, hs]

namespace Nesting

/-- The scan is outside strings with `n` brackets open, and a `>` that comes next is a bracket. -/
def Between (s : Nesting) (n : Nat) (r : Text) : Prop :=
  ∃ b, s = ⟨n, .code b⟩ ∧ (b → r.head? ≠ some '>')

theorem between_code (n : Nat) (r : Text) : (⟨n, .code false⟩ : Nesting).Between n r :=
  ⟨false, rfl, fun h => by cases h⟩

theorem run_inert {x : Text} (hx : ∀ c ∈ x, isInert c) (hne : x ≠ []) (n : Nat) (b : Bool) :
    (⟨n, .code b⟩ : Nesting).run x = ⟨n, .code false⟩ := by
  induction x generalizing b with
  | nil => exact absurd rfl hne
  | cons c x ih =>
    obtain ⟨hc, hx⟩ := List.forall_mem_cons.1 hx
    rw [isInert, Bool.and_eq_true] at hc
    rw [run_cons, step_code n b hc.1]
    cases x with
    | nil => rfl
    | cons d x => exact ih hx (List.cons_ne_nil d x) false

theorem step_quote {q : Char} (hq : isQuote q) (n : Nat) (b : Bool) :
    (⟨n, .code b⟩ : Nesting).step q = ⟨n, .literal q false⟩ := by
  simp [step, hq]

theorem step_sign {s : Sign} {c : Char} (hs : s.spelling = [c]) {n : Nat} {b : Bool}
    (hb : c = '>' → b = false) :
    (⟨n, .code b⟩ : Nesting).step c = ⟨(TokenKind.sign s).depthAfter n, .code (c == '=')⟩ := by
  cases s with
  | opening kind => cases kind <;> (cases hs; cases b <;> rfl)
  | closing kind =>
    cases kind with
    | angle =>
      cases hs
      rw [hb rfl]
      rfl
    | _ => cases hs; cases b <;> rfl
  | ellipsis => cases hs
  | arrow => cases hs
  | _ => cases hs; cases b <;> rfl

def offset? (p : Nesting → Char → Bool) (s : Nesting) (i : Nat) : Text → Option Nat
  | [] => none
  | c :: r => if p s c then some i else offset? p (s.step c) (i + c.utf8Size) r

theorem offset?_of_not {p : Nesting → Char → Bool} {s : Nesting} {c : Char} (h : p s c = false)
    (i : Nat) (r : Text) : offset? p s i (c :: r) = offset? p (s.step c) (i + c.utf8Size) r := by
  rw [offset?, h, if_neg Bool.false_ne_true]

/-- What is looked for in the state of the scan and what is looked for among tokens agree. -/
structure Agree (p : Nesting → Char → Bool) (q : Nat → TokenKind → Bool) : Prop where
  literal : ∀ n a e c, p ⟨n, .literal a e⟩ c = false
  unmarked : ∀ n b c, isMark c = false → p ⟨n, .code b⟩ c = false
  arrow : ∀ n, p ⟨n, .code true⟩ '>' = false
  sign : ∀ n b s c, s.spelling = [c] → (c = '>' → b = false) →
    p ⟨n, .code b⟩ c = q n (.sign s)
  other : ∀ n k, ¬k.IsMark → q n k = false

theorem step_opener {o : Char} (ho : isOpener o) (afterEquals : Bool) :
    (⟨0, .code afterEquals⟩ : Nesting).step o = ⟨1, .code false⟩ := by
  rcases eq_of_isOpener ho with rfl | rfl | rfl | rfl <;> rfl

namespace Agree

variable {p : Nesting → Char → Bool} {q : Nat → TokenKind → Bool}

theorem offset?_inert (h : Agree p q) {x : Text} (hx : ∀ c ∈ x, isInert c) (n : Nat) (b : Bool)
    (i : Nat) (r : Text) : offset? p ⟨n, .code b⟩ i (x ++ r) =
      offset? p ((⟨n, .code b⟩ : Nesting).run x) (i + Text.bytes x) r := by
  induction x generalizing b i with
  | nil => rfl
  | cons c x ih =>
    obtain ⟨hc, hx⟩ := List.forall_mem_cons.1 hx
    rw [isInert, Bool.and_eq_true, Bool.not_eq_true'] at hc
    rw [List.cons_append, offset?_of_not (h.unmarked n b c hc.2), run_cons, step_code n b hc.1,
      ih hx, Text.bytes_cons, Nat.add_assoc]

theorem offset?_literal (h : Agree p q) {a : Char} (ha : isQuote a) {raw : Text}
    (hraw : IsRaw a raw) (n i : Nat) (r : Text) :
    offset? p ⟨n, .literal a false⟩ i (raw ++ a :: r) =
      offset? p ⟨n, .code false⟩ (i + Text.bytes (raw ++ [a])) r := by
  have hback := Lexeme.ne_backslash_of_isQuote ha
  induction hraw generalizing i with
  | nil =>
    rw [List.nil_append, offset?_of_not (h.literal n a false a)]
    simp [step, hback]
  | @escape c raw _ ih =>
    rw [List.cons_append, List.cons_append, offset?_of_not (h.literal n a false '\\'),
      show (⟨n, .literal a false⟩ : Nesting).step '\\' = ⟨n, .literal a true⟩ from rfl,
      offset?_of_not (h.literal n a true c)]
    refine (ih _).trans ?_
    simp [Nat.add_assoc]
  | @char c raw hc hne _ ih =>
    rw [List.cons_append, offset?_of_not (h.literal n a false c), step_raw hc hne, ih]
    simp [Nat.add_assoc]

end Agree

end Nesting

namespace Lexeme

open Nesting

def depthAfter (n : Nat) : Lexeme → Nat
  | .token k => k.depthAfter n
  | _ => n

def isFound (q : Nat → TokenKind → Bool) (n : Nat) : Lexeme → Bool
  | .token k => q n k
  | _ => false

/-- How a scan meets a lexeme before the text `r`. -/
inductive Met : Lexeme → Text → Prop
  | blank {x r : Text} : x ≠ [] → (∀ c ∈ x, isInert c) → Met (.blank x) r
  | inert {k : TokenKind} {r : Text} : k.spelling ≠ [] → (∀ c ∈ k.spelling, isInert c) →
      ¬k.IsMark → (∀ n, k.depthAfter n = n) → Met (.token k) r
  | literal {a : Char} {raw r : Text} : isQuote a → IsRaw a raw → Met (.token (.literal a raw)) r
  | arrow {r : Text} : Met (.token (.sign .arrow)) r
  | mark {s : Sign} {c : Char} {r : Text} : s.spelling = [c] → (s = .equals → r.head? ≠ some '>') →
      Met (.token (.sign s)) r

theorem isInert_of_isNameChar {c : Char} (h : Text.isNameChar c) : isInert c :=
  isInert_of (p := Text.isNameChar) (by decide) h

theorem isInert_of_isNumberChar {c : Char} (h : isNumberChar c) : isInert c :=
  isInert_of (p := isNumberChar) (by decide) h

theorem isInert_of_isSeparator {c : Char} (h : isSeparator c) : isInert c :=
  isInert_of (p := isSeparator) (by decide) h

theorem met_of_reads {l : Lexeme} {r : Text} (h : Reads l r) (hf : l.isFault = false)
    (hc : l.isComment = false) : Met l r := by
  cases h with
  | @space c _ hs =>
    exact .blank (List.cons_ne_nil c []) (List.forall_mem_singleton.2 (isInert_of_isSeparator hs))
  | line => cases hc
  | block => cases hc
  | @token k _ hk hends =>
    have nonempty := hk.spelling_ne_nil
    cases k with
    | name t =>
      refine .inert nonempty (fun d hd => ?_) ?_ fun _ => rfl
      · exact isInert_of_isNameChar (hk.isNameChar d hd)
      · rintro ⟨s, c, h, -⟩
        cases h
    | number t =>
      refine .inert nonempty (fun d hd => ?_) ?_ fun _ => rfl
      · rcases hk.isNumberChar d hd with hn | rfl
        · exact isInert_of_isNumberChar hn
        · rfl
      · rintro ⟨s, c, h, -⟩
        cases h
    | literal a raw => exact .literal hk.1 hk.2
    | sign s =>
      cases s with
      | ellipsis =>
        refine .inert nonempty (fun c hc => ?_) ?_ fun _ => rfl
        · rw [List.eq_of_mem_replicate (n := 3) hc]
          rfl
        · rintro ⟨s, c, h, hs⟩
          cases h
          cases hs
      | arrow => exact .arrow
      | equals =>
        refine .mark (c := '=') rfl fun _ hr => hends ?_
        obtain ⟨v, rfl⟩ := List.head?_eq_some_iff.1 hr
        exact ⟨v, rfl⟩
      | opening kind => cases kind <;> exact .mark rfl nofun
      | closing kind => cases kind <;> exact .mark rfl nofun
      | _ => exact .mark rfl nofun
    | eof => exact hk.elim
  | _ => cases hf

variable {l : Lexeme} {r : Text}

/-- A lexeme leaves the scan outside strings, with the brackets open that the lexeme says. -/
theorem between_run (h : Met l r) {s : Nesting} {n : Nat} (hs : s.Between n (l.text ++ r)) :
    (s.run l.text).Between (l.depthAfter n) r := by
  obtain ⟨b, rfl, hb⟩ := hs
  cases h with
  | blank hne hx =>
    rw [text, run_inert hx hne]
    exact between_code n r
  | inert hne hx _ hdepth =>
    rw [text, run_inert hx hne, depthAfter, hdepth]
    exact between_code n r
  | literal ha hraw =>
    rw [text, TokenKind.spelling, List.cons_append, run_cons, step_quote ha, run_literal ha hraw]
    exact between_code n r
  | arrow =>
    have run : (⟨n, .code b⟩ : Nesting).run ['=', '>'] = ⟨n, .code false⟩ := by cases b <;> rfl
    rw [text, TokenKind.spelling, Sign.spelling, run]
    exact between_code n r
  | @mark sign c _ hsign hnext =>
    rw [text, TokenKind.spelling, hsign] at hb ⊢
    have closes : c = '>' → b = false := by
      rintro rfl
      exact Bool.eq_false_iff.2 fun h => hb h rfl
    rw [run_cons, run_nil, step_sign hsign closes]
    refine ⟨c == '=', rfl, fun hc => hnext ?_⟩
    rw [beq_iff_eq.1 hc] at hsign
    exact (Option.some.inj (Sign.ofChar?_of_spelling hsign)).symm

variable {p : Nesting → Char → Bool} {q : Nat → TokenKind → Bool}

theorem offset?_text (agree : Agree p q) (h : Met l r) {s : Nesting} {n : Nat}
    (hs : s.Between n (l.text ++ r)) (i : Nat) :
    offset? p s i (l.text ++ r) =
      if l.isFound q n then some i else offset? p (s.run l.text) (i + Text.bytes l.text) r := by
  obtain ⟨b, rfl, hb⟩ := hs
  cases h with
  | blank hne hx =>
    exact agree.offset?_inert hx n b i r
  | inert hne hx hmark _ =>
    rw [isFound, agree.other n _ hmark, if_neg Bool.false_ne_true]
    exact agree.offset?_inert hx n b i r
  | @literal a raw _ ha hraw =>
    have hmark : ¬(TokenKind.literal a raw).IsMark := by
      rintro ⟨s, c, h, -⟩
      cases h
    have quote : isMark a = false := by
      rcases Text.eq_of_isQuote ha with rfl | rfl | rfl <;> rfl
    rw [isFound, agree.other n _ hmark, if_neg Bool.false_ne_true, text, TokenKind.spelling,
      List.cons_append, List.cons_append, List.append_assoc, List.singleton_append,
      offset?_of_not (agree.unmarked n b a quote), step_quote ha,
      agree.offset?_literal ha hraw, run_cons, step_quote ha, run_literal ha hraw, Text.bytes_cons,
      Nat.add_assoc]
  | arrow =>
    have hmark : ¬(TokenKind.sign .arrow).IsMark := by
      rintro ⟨s, c, h, hs⟩
      cases h
      cases hs
    have equals : (⟨n, .code b⟩ : Nesting).step '=' = ⟨n, .code true⟩ := by cases b <;> rfl
    rw [isFound, agree.other n _ hmark, if_neg Bool.false_ne_true, text, TokenKind.spelling,
      Sign.spelling, List.cons_append, List.cons_append,
      offset?_of_not (agree.unmarked n b '=' rfl), equals, offset?_of_not (agree.arrow n), run_cons,
      equals]
    rfl
  | @mark sign c _ hsign hnext =>
    have spelling : (TokenKind.sign sign).spelling = [c] := hsign
    rw [text, spelling] at hb ⊢
    have closes : c = '>' → b = false := by
      rintro rfl
      exact Bool.eq_false_iff.2 fun h => hb h rfl
    rw [List.singleton_append, offset?, agree.sign n b sign c hsign closes]
    rfl

def Clear (t : Text) : Prop := ∀ l ∈ ofText t, l.isFault = false ∧ l.isComment = false

theorem run_eq {t : Text} (ht : Clear t) {s : Nesting} {n : Nat} (hs : s.Between n t) (i : Nat) :
    ∃ b, s.run t = ⟨Token.depthAfter n (Token.among i (ofText t)), .code b⟩ := by
  unfold Clear at ht
  fun_induction ofText t generalizing s n i with
  | case1 =>
    obtain ⟨b, rfl, -⟩ := hs
    exact ⟨b, rfl⟩
  | case2 c r ih =>
    obtain ⟨⟨hf, hc⟩, ht⟩ := List.forall_mem_cons.1 ht
    rw [← text_next c r] at hs ⊢
    obtain ⟨b, hb⟩ := ih ht (between_run (met_of_reads (reads_next c r) hf hc) hs)
      (i + Text.bytes (next c r).1.text)
    refine ⟨b, ?_⟩
    rw [run_append, hb]
    cases (next c r).1 <;> rfl

theorem map_first?_cons (q : Nat → TokenKind → Bool) (n i : Nat) (l : Lexeme) (ls : List Lexeme) :
    (Token.first? q n (Token.among i (l :: ls))).map (·.span.start) =
      if l.isFound q n then some i
      else (Token.first? q (l.depthAfter n) (Token.among (i + Text.bytes l.text) ls)).map
        (·.span.start) := by
  cases l with
  | token k =>
    rw [Token.among_token, Token.first?, isFound]
    split <;> rfl
  | _ => rfl

theorem offset?_eq (agree : Agree p q) {t : Text} (ht : Clear t) {s : Nesting} {n : Nat}
    (hs : s.Between n t) (i : Nat) :
    offset? p s i t = (Token.first? q n (Token.among i (ofText t))).map (·.span.start) := by
  unfold Clear at ht
  fun_induction ofText t generalizing s n i with
  | case1 => rfl
  | case2 c r ih =>
    obtain ⟨⟨hf, hc⟩, ht⟩ := List.forall_mem_cons.1 ht
    have met := met_of_reads (reads_next c r) hf hc
    rw [map_first?_cons]
    conv at hs => rw [← text_next c r]
    conv => lhs; rw [← text_next c r]
    rw [offset?_text agree met hs, ih ht (between_run met hs)]

end Lexeme

namespace Nesting.Agree

theorem depthWith_unmarked {c : Char} (hc : isMark c = false) (n : Nat) (b : Bool) :
    depthWith n b c = n := by
  simp only [isMark, Bool.or_eq_false_iff] at hc
  obtain ⟨⟨ho, hcl⟩, -⟩ := hc
  have hgt : c ≠ '>' := by
    rintro rfl
    cases hcl
  simp [depthWith, ho, hcl, hgt]

theorem depth_step_unmarked {c : Char} (hc : isMark c = false) (n : Nat) (b : Bool) :
    ((⟨n, .code b⟩ : Nesting).step c).depth = n := by
  simp only [step]
  split
  · rfl
  · exact depthWith_unmarked hc n b

theorem depth_step_literal (n : Nat) (a : Char) (e : Bool) (c : Char) :
    ((⟨n, .literal a e⟩ : Nesting).step c).depth = n := by
  cases e with
  | true => rfl
  | false =>
    simp only [step]
    split
    · rfl
    · split <;> rfl

theorem not_topLevel_of_depth {s : Nesting} (h : s.depth = 1) : s.topLevel = false := by
  rw [topLevel, h]
  rfl

theorem depthAfter_of_not_isMark {k : TokenKind} (h : ¬k.IsMark) (n : Nat) :
    k.depthAfter n = n := by
  cases k with
  | sign s =>
    cases s with
    | opening kind => cases kind <;> exact absurd ⟨_, _, rfl, rfl⟩ h
    | closing kind => cases kind <;> exact absurd ⟨_, _, rfl, rfl⟩ h
    | _ => rfl
  | _ => rfl

theorem isMark_of_isDelimiter {s : Sign} {d : Char} (hs : s.spelling = [d]) (hd : s.isDelimiter) :
    isMark d ∧ d ≠ '>' := by
  cases s with
  | colon | semicolon | comma | pipe | ampersand | question => cases hs; decide
  | _ => cases hd

/-- A delimiter at top level is the token that it is, outside all brackets. -/
theorem outermost {s : Sign} {d : Char} (hs : s.spelling = [d]) (hd : s.isDelimiter) :
    Agree (fun s c => s.topLevel && c == d) (TokenKind.isOutermost s) where
  literal n a e c := by simp [topLevel, inCode]
  unmarked n b c hc := by
    have : c ≠ d := by
      rintro rfl
      rw [(isMark_of_isDelimiter hs hd).1] at hc
      cases hc
    simp [this]
  arrow n := by
    simp [(isMark_of_isDelimiter hs hd).2.symm]
  sign n b s' c hs' _ := by
    have same : (c == d) = (TokenKind.sign s' == .sign s) := by
      rw [Bool.eq_iff_iff, beq_iff_eq, beq_iff_eq]
      constructor
      · rintro rfl
        have := (Sign.ofChar?_of_spelling hs').symm.trans (Sign.ofChar?_of_spelling hs)
        rw [Option.some.inj this]
      · intro h
        cases h
        exact (List.cons.inj (hs'.symm.trans hs)).1
    rw [TokenKind.isOutermost, ← same, topLevel, inCode, Bool.and_true]
  other n k hk := by
    have : k ≠ .sign s := by
      rintro rfl
      exact hk ⟨s, d, rfl, hs⟩
    simp [TokenKind.isOutermost, this]

/-- The character that closes the last open bracket is the token that closes it. -/
theorem closesLast :
    Agree (fun s c => s.depth == 1 && (s.step c).topLevel) TokenKind.closesLast where
  literal n a e c := by
    rw [Bool.and_eq_false_imp]
    intro h
    exact not_topLevel_of_depth ((depth_step_literal n a e c).trans (beq_iff_eq.1 h))
  unmarked n b c hc := by
    rw [Bool.and_eq_false_imp]
    intro h
    exact not_topLevel_of_depth ((depth_step_unmarked hc n b).trans (beq_iff_eq.1 h))
  arrow n := by
    rw [Bool.and_eq_false_imp]
    intro h
    exact not_topLevel_of_depth (beq_iff_eq.1 h)
  sign n b s c hs hb := by
    rw [step_sign hs hb, TokenKind.closesLast, topLevel, inCode, Bool.and_true]
    rw [Bool.eq_iff_iff]
    cases s <;> simp [TokenKind.depthAfter] <;> omega
  other n k hk := by
    simp [TokenKind.closesLast, depthAfter_of_not_isMark hk]

end Nesting.Agree

open Nesting

theorem breakAt_eq_offset? (d : Char) (s : Nesting) (i : Nat) (t : Text) :
    (if (breakAt (· == d) s t).2.isEmpty then none
      else some (i + Text.bytes (breakAt (· == d) s t).1)) =
      offset? (fun s c => s.topLevel && c == d) s i t := by
  induction t generalizing s i with
  | nil => rfl
  | cons c r ih =>
    rw [breakAt, offset?, ← ih]
    split
    · rfl
    · simp [Nat.add_assoc]

theorem findTopLevel_eq_offset? (d : Char) (t : Text) :
    findTopLevel d t = offset? (fun s c => s.topLevel && c == d) .outside 0 t := by
  rw [← breakAt_eq_offset?, findTopLevel, breakTopLevel]
  simp

theorem closing?_eq_offset? (s : Nesting) (i : Nat) (t : Text) :
    (s.closing? t).map (fun p => i + Text.bytes p.1) =
      offset? (fun s c => s.depth == 1 && (s.step c).topLevel) s i t := by
  induction t generalizing s i with
  | nil => rfl
  | cons c r ih =>
    rw [closing?, offset?, ← ih]
    by_cases h : s.depth = 1 && (s.step c).topLevel
    · rw [if_pos h, if_pos (by simpa using h)]
      rfl
    · rw [if_neg h, if_neg (by simpa using h), Option.map_map]
      simp [Function.comp_def, Nat.add_assoc]

theorem matchingClose_eq_offset? {o : Char} (ho : isOpener o) (x y : Text) :
    matchingClose (x ++ o :: y) (Text.bytes x) =
      offset? (fun s c => s.depth == 1 && (s.step c).topLevel) ⟨1, .code false⟩
        (Text.bytes x + 1) y := by
  rw [← closing?_eq_offset?, matchingClose_append, group?, if_pos ho,
    show Nesting.outside.step o = _ from Nesting.step_opener ho false]

namespace Token

open Lexeme

theorem first?_append_endAt {q : Nat → TokenKind → Bool} (hq : ∀ n, q n .eof = false) (n m : Nat)
    (tokens : List Token) : first? q n (tokens ++ [endAt m]) = first? q n tokens := by
  induction tokens generalizing n with
  | nil => simp [first?, endAt, hq]
  | cons k ks ih => rw [List.cons_append, first?, first?, ih]

/-- A token stands in the text with its spelling, and the tokens after it are those of the rest. -/
theorem exists_of_among {t : Text} {n : Nat} {e k : Token} {before after : List Token} (hk : k ≠ e)
    (h : among n (ofText t) ++ [e] = before ++ k :: after) : ∃ x y,
      t = x ++ (k.kind.spelling ++ y) ∧ k.span.start = n + Text.bytes x ∧
      after = among (n + Text.bytes (x ++ k.kind.spelling)) (ofText y) ++ [e] ∧
      ∀ l ∈ ofText y, l ∈ ofText t := by
  fun_induction ofText t generalizing n before with
  | case1 =>
    cases before with
    | nil => exact absurd (List.cons.inj h).1.symm hk
    | cons b before => cases before <;> cases h
  | case2 c r ih =>
    have split := text_next c r
    have later {l : Lexeme} (hl : l ∈ ofText (next c r).2) :
        l ∈ (next c r).1 :: ofText (next c r).2 := List.mem_cons_of_mem _ hl
    -- A token that stands after the first lexeme is one of the rest of the text.
    have step {before : List Token} (h : among (n + Text.bytes (next c r).1.text)
        (ofText (next c r).2) ++ [e] = before ++ k :: after) : ∃ x y,
          c :: r = x ++ (k.kind.spelling ++ y) ∧ k.span.start = n + Text.bytes x ∧
          after = among (n + Text.bytes (x ++ k.kind.spelling)) (ofText y) ++ [e] ∧
          ∀ l ∈ ofText y, l ∈ (next c r).1 :: ofText (next c r).2 := by
      obtain ⟨x, y, hr, hstart, rfl, hy⟩ := ih h
      refine ⟨(next c r).1.text ++ x, y, ?_, ?_, ?_, fun l hl => later (hy l hl)⟩
      · rw [List.append_assoc, ← hr, split]
      · rw [hstart, Text.bytes_append, Nat.add_assoc]
      · rw [List.append_assoc, Text.bytes_append (next c r).1.text, Nat.add_assoc]
    cases hl : (next c r).1 with
    | token kind =>
      rw [hl] at h split step
      rw [among_token, List.cons_append] at h
      cases before with
      | nil =>
        obtain ⟨rfl, rfl⟩ := List.cons.inj h
        exact ⟨[], (next c r).2, split.symm, rfl, rfl, fun l hl => List.mem_cons_of_mem _ hl⟩
      | cons b before => exact step (List.cons.inj h).2
    | blank b =>
      rw [hl] at h step
      exact step h
    | fault cause b =>
      rw [hl] at h step
      exact step h

/-- The structure of brackets that a scan of the characters finds is that of the tokens. -/
theorem nesting_of_tokenize {t : Text} {tokens : List Token} (hc : t.CommentFree)
    (h : tokenize t = .ok tokens) :
    WebSurface.depthAfter t = depthAfter 0 tokens ∧
    (∀ s d, s.isDelimiter → s.spelling = [d] →
      findTopLevel d t = (first? (TokenKind.isOutermost s) 0 tokens).map (·.span.start)) ∧
    ∀ before k after kind, tokens = before ++ k :: after → k.kind = .sign (.opening kind) →
      matchingClose t k.span.start =
        (first? TokenKind.closesLast 1 after).map (·.span.start) := by
  have faultless := exists_tokenize_iff.1 ⟨tokens, h⟩
  have clear : Clear t := fun l hl => ⟨faultless l hl, hc l hl⟩
  rw [tokenize_eq_ok faultless] at h
  obtain rfl := Except.ok.inj h
  refine ⟨?_, fun s d hd hs => ?_, fun before k after kind htokens hk => ?_⟩
  · obtain ⟨b, hb⟩ := run_eq clear (between_code 0 t) 0
    rw [depthAfter, List.foldl_append]
    exact congrArg Nesting.depth hb
  · rw [findTopLevel_eq_offset?, first?_append_endAt fun n => by simp [TokenKind.isOutermost]]
    exact offset?_eq (.outermost hs hd) clear (between_code 0 t) 0
  · obtain ⟨x, y, rfl, hstart, rfl, hy⟩ := exists_of_among (by rintro rfl; cases hk) htokens
    have spelled : ∃ o, k.kind.spelling = [o] ∧ isOpener o := by
      rw [hk]
      cases kind <;> exact ⟨_, rfl, rfl⟩
    obtain ⟨o, ho, hopen⟩ := spelled
    rw [ho] at hy clear ⊢
    rw [hstart, first?_append_endAt fun n => by simp [TokenKind.closesLast, TokenKind.depthAfter],
      Nat.zero_add, List.singleton_append, matchingClose_eq_offset? hopen,
      offset?_eq .closesLast (fun l hl => clear l (hy l hl)) (between_code 1 y)]
    have one : o.utf8Size = 1 := by
      rcases eq_of_isOpener hopen with rfl | rfl | rfl | rfl <;> rfl
    simp [one]

/-- Brackets in a string and the end of an arrow do not count, and kinds of brackets do not
differ. -/
theorem nesting_of_tokenize_arrow :
    let text : Text := "<\"(\\\"\" =>) | >".toList
    let tokens : List Token := [⟨.sign (.opening .angle), ⟨0, 1⟩⟩,
      ⟨.literal '"' "(\\\"".toList, ⟨1, 6⟩⟩, ⟨.sign .arrow, ⟨7, 9⟩⟩,
      ⟨.sign (.closing .round), ⟨9, 10⟩⟩, ⟨.sign .pipe, ⟨11, 12⟩⟩,
      ⟨.sign (.closing .angle), ⟨13, 14⟩⟩, endAt 14]
    text.CommentFree ∧ tokenize text = .ok tokens ∧ WebSurface.depthAfter text = 0 ∧
      findTopLevel '|' text = some 11 ∧ matchingClose text 0 = some 9 := by
  intro text tokens
  have commentFree : text.CommentFree := by decide +kernel
  have read : tokenize text = .ok tokens :=
    (tokenize_eq_ok (by decide +kernel)).trans (congrArg Except.ok (by decide +kernel))
  obtain ⟨depth, find, close⟩ := nesting_of_tokenize commentFree read
  exact ⟨commentFree, read, depth.trans (by decide),
    (find .pipe '|' rfl rfl).trans (by decide +kernel),
    (close [] ⟨.sign (.opening .angle), ⟨0, 1⟩⟩ tokens.tail .angle rfl rfl).trans
      (by decide +kernel)⟩

end Token

end WebSurface
