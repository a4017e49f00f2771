import WebSurface.Scan
import WebSurface.Text.Letter
set_option autoImplicit false

/-!
Declaration text as tokens.

A text is first cut into lexemes: blanks (white space and comments), tokens and faults. No
character is lost: `Lexeme.flatMap_text_ofText`. The tokens are then given the places at which they
stand; a text with a fault in it has no tokens, but the list of all its faults.
-/

namespace WebSurface

inductive Bracket where
  | round
  | square
  | curly
  | angle
  deriving DecidableEq, Repr

inductive Sign where
  | colon
  | question
  | semicolon
  | comma
  | dot
  | ellipsis
  | pipe
  | ampersand
  | equals
  | arrow
  | opening (kind : Bracket)
  | closing (kind : Bracket)
  deriving DecidableEq, Repr

namespace Sign

def spelling : Sign → Text
  | .colon => [':']
  | .question => ['?']
  | .semicolon => [';']
  | .comma => [',']
  | .dot => ['.']
  | .ellipsis => ['.', '.', '.']
  | .pipe => ['|']
  | .ampersand => ['&']
  | .equals => ['=']
  | .arrow => ['=', '>']
  | .opening .round => ['(']
  | .opening .square => ['[']
  | .opening .curly => ['{']
  | .opening .angle => ['<']
  | .closing .round => [')']
  | .closing .square => [']']
  | .closing .curly => ['}']
  | .closing .angle => ['>']

def ofChar? : Char → Option Sign
  | ':' => some .colon
  | '?' => some .question
  | ';' => some .semicolon
  | ',' => some .comma
  | '.' => some .dot
  | '|' => some .pipe
  | '&' => some .ampersand
  | '=' => some .equals
  | '(' => some (.opening .round)
  | '[' => some (.opening .square)
  | '{' => some (.opening .curly)
  | '<' => some (.opening .angle)
  | ')' => some (.closing .round)
  | ']' => some (.closing .square)
  | '}' => some (.closing .curly)
  | '>' => some (.closing .angle)
  | _ => none

theorem spelling_of_ofChar? {c : Char} {s : Sign} (h : ofChar? c = some s) : s.spelling = [c] := by
  unfold ofChar? at h
  split at h <;> simp_all <;> subst h <;> rfl

end Sign

/-- What a token is. Keywords are names; the text of a literal is kept as it is written. -/
inductive TokenKind where
  | name (text : Text)
  | literal (quote : Char) (raw : Text)
  | number (text : Text)
  | sign (s : Sign)
  | eof
  deriving DecidableEq, Repr

namespace TokenKind

def spelling : TokenKind → Text
  | .name t => t
  | .literal q raw => q :: raw ++ [q]
  | .number t => t
  | .sign s => s.spelling
  | .eof => []

def isWord (k : TokenKind) (word : String) : Bool := k == .name word.toList

def name? : TokenKind → Option Text
  | .name t => some t
  | _ => none

end TokenKind

inductive FaultCause where
  | unterminatedString
  | unterminatedComment
  | unexpected (c : Char)
  deriving DecidableEq, Repr

inductive Lexeme where
  | blank (text : Text)
  | token (kind : TokenKind)
  | fault (cause : FaultCause) (text : Text)
  deriving DecidableEq, Repr

namespace Lexeme

def text : Lexeme → Text
  | .blank t => t
  | .token k => k.spelling
  | .fault _ t => t

def closeComment? : Text → Option (Text × Text)
  | [] => none
  | '*' :: '/' :: r => some (['*', '/'], r)
  | c :: r => (closeComment? r).map fun (a, b) => (c :: a, b)

/-- The text of a string after its opening quote, and what follows its closing quote. A backslash
takes the next character along. -/
def closeLiteral? (q : Char) : Text → Option (Text × Text)
  | [] => none
  | '\\' :: c :: r => (closeLiteral? q r).map fun (a, b) => ('\\' :: c :: a, b)
  | c :: r => if c = q then some ([], r) else (closeLiteral? q r).map fun (a, b) => (c :: a, b)

def isNumberChar (c : Char) : Bool := c.isAlphanum || c == '.'

/-- A number starts with a digit, or with a minus sign before a digit. -/
def startsNumber (c : Char) (r : Text) : Bool :=
  c.isDigit || (c == '-' && (r.head?.elim false Char.isDigit))

/-- The white space between tokens; other blanks are unexpected. -/
def isSeparator (c : Char) : Bool := " \t\r\n".toList.elem c

/-- The first lexeme of a text, and the rest of the text. -/
def next (c : Char) (r : Text) : Lexeme × Text :=
  if isSeparator c then (.blank [c], r)
  else if isQuote c then
    match closeLiteral? c r with
    | some (raw, rest) => (.token (.literal c raw), rest)
    | none => (.fault .unterminatedString (c :: r), [])
  else if startsNumber c r then
    (.token (.number (c :: r.takeWhile isNumberChar)), r.dropWhile isNumberChar)
  else if Text.isNameChar c then
    (.token (.name (c :: r.takeWhile Text.isNameChar)), r.dropWhile Text.isNameChar)
  else
    match c, r with
    | '/', '/' :: s => (.blank ('/' :: '/' :: s.takeWhile (· != '\n')), s.dropWhile (· != '\n'))
    | '/', '*' :: s =>
      match closeComment? s with
      | some (body, rest) => (.blank ('/' :: '*' :: body), rest)
      | none => (.fault .unterminatedComment ('/' :: '*' :: s), [])
    | '.', '.' :: '.' :: s => (.token (.sign .ellipsis), s)
    | '=', '>' :: s => (.token (.sign .arrow), s)
    | c, r =>
      match Sign.ofChar? c with
      | some sign => (.token (.sign sign), r)
      | none => (.fault (.unexpected c) [c], r)

theorem closeComment?_append {t a b : Text} (h : closeComment? t = some (a, b)) : a ++ b = t := by
  fun_induction closeComment? t generalizing a with
  | case1 => simp at h
  | case2 r => simp at h; simp [← h]
  | case3 c r _ ih =>
    obtain ⟨⟨x, y⟩, hxy, he⟩ := Option.map_eq_some_iff.1 h
    obtain ⟨rfl, rfl⟩ := Prod.mk.inj he
    simp [ih hxy]

theorem closeLiteral?_append {q : Char} {t a b : Text} (h : closeLiteral? q t = some (a, b)) :
    a ++ q :: b = t := by
  fun_induction closeLiteral? q t generalizing a with
  | case1 => simp at h
  | case2 c r ih =>
    obtain ⟨⟨x, y⟩, hxy, he⟩ := Option.map_eq_some_iff.1 h
    obtain ⟨rfl, rfl⟩ := Prod.mk.inj he
    simp [ih hxy]
  | case3 r => simp at h; simp [h]
  | case4 c r _ _ ih =>
    obtain ⟨⟨x, y⟩, hxy, he⟩ := Option.map_eq_some_iff.1 h
    obtain ⟨rfl, rfl⟩ := Prod.mk.inj he
    simp [ih hxy]

theorem text_next (c : Char) (r : Text) : (next c r).1.text ++ (next c r).2 = c :: r := by
  fun_cases next c r with
  | case2 => simpa [text, TokenKind.spelling] using closeLiteral?_append ‹_›
  | case7 => simpa [text] using closeComment?_append ‹closeComment? _ = _›
  | case11 => simp [text, TokenKind.spelling, Sign.spelling_of_ofChar? ‹Sign.ofChar? _ = _›]
  | _ => simp_all [text, TokenKind.spelling, Sign.spelling]

theorem text_next_ne_nil (c : Char) (r : Text) : (next c r).1.text ≠ [] := by
  fun_cases next c r with
  | case11 => simp [text, TokenKind.spelling, Sign.spelling_of_ofChar? ‹Sign.ofChar? _ = _›]
  | _ => simp [text, TokenKind.spelling, Sign.spelling]

theorem length_next (c : Char) (r : Text) : (next c r).2.length < (c :: r).length := by
  have h := congrArg List.length (text_next c r)
  have hp := List.length_pos_iff.2 (text_next_ne_nil c r)
  simp only [List.length_append] at h
  omega

def ofText : Text → List Lexeme
  | [] => []
  | c :: r => (next c r).1 :: ofText (next c r).2
termination_by t => t.length
decreasing_by exact length_next c r

@[simp] theorem ofText_nil : ofText [] = [] := by rw [ofText]

theorem ofText_cons (c : Char) (r : Text) :
    ofText (c :: r) = (next c r).1 :: ofText (next c r).2 := by rw [ofText]

@[simp] theorem flatMap_text_ofText (t : Text) : (ofText t).flatMap text = t := by
  fun_induction ofText t with
  | case1 => rfl
  | case2 c r ih => simp [ih, text_next]

def place (n : Nat) : List Lexeme → List (Span × Lexeme)
  | [] => []
  | l :: ls =>
    let stop := n + Text.bytes l.text
    (⟨n, stop⟩, l) :: place stop ls

end Lexeme

structure Token where
  kind : TokenKind
  span : Span
  deriving DecidableEq, Repr

structure Fault where
  cause : FaultCause
  span : Span
  place : Position
  deriving DecidableEq, Repr

namespace Fault

def message (f : Fault) : Text :=
  let what : Text := match f.cause with
    | .unterminatedString => "unterminated string literal".toList
    | .unterminatedComment => "unterminated block comment".toList
    | .unexpected c => "unexpected character `".toList ++ [c] ++ "`".toList
  what ++ " (line ".toList ++ (toString f.place.line).toList ++ ", column ".toList ++
    (toString f.place.column).toList ++ ")".toList

end Fault

namespace Token

def ofLexeme? : Span × Lexeme → Option Token
  | (s, .token k) => some ⟨k, s⟩
  | _ => none

def faultOfLexeme? (t : Text) : Span × Lexeme → Option Fault
  | (s, .fault cause _) => some ⟨cause, s, .ofOffset t s.start⟩
  | _ => none

/-- The tokens of a text, or all its faults. The last token is the end of the text. -/
def tokenize (t : Text) : Except (List Fault) (List Token) :=
  let placed := Lexeme.place 0 (Lexeme.ofText t)
  match placed.filterMap (faultOfLexeme? t) with
  | [] =>
    let stop := Text.bytes t
    .ok (placed.filterMap ofLexeme? ++ [⟨.eof, ⟨stop, stop⟩⟩])
  | faults => .error faults

def isWord (t : Token) (word : String) : Bool := t.kind.isWord word

end Token

end WebSurface
