import WebSurface.Span
set_option autoImplicit false

/-!
The bracket and string structure of declaration text.

`Nesting` is what has to be known of the text read so far: how many brackets are open, and whether
a string is. The four kinds of brackets count alike, the `>` of an arrow is no bracket, and nothing
inside a string counts. Texts are cut at characters at *top level*, that is, outside all brackets
and strings. Comments are written over with spaces, byte for byte, so that every offset into the
text stays valid (`Text.bytes_blankComments`).
-/

namespace WebSurface

def isOpener (c : Char) : Bool := "([\x7b<".toList.elem c
def isCloser (c : Char) : Bool := ")]\x7d>".toList.elem c
def isQuote (c : Char) : Bool := "\"'`".toList.elem c

theorem eq_of_isOpener {c : Char} (h : isOpener c) : c = '(' ∨ c = '[' ∨ c = '{' ∨ c = '<' := by
  simpa [isOpener] using h

theorem eq_of_isCloser {c : Char} (h : isCloser c) : c = ')' ∨ c = ']' ∨ c = '}' ∨ c = '>' := by
  simpa [isCloser] using h

theorem isBlank_of_isOpener {c : Char} (h : isOpener c) : Text.isBlank c = false := by
  rcases eq_of_isOpener h with rfl | rfl | rfl | rfl <;> decide

inductive Mode where
  /-- outside strings; the flag tells that the last character was an equals sign -/
  | code (afterEquals : Bool)
  /-- inside a string; the flag tells that the last character was an escaping backslash -/
  | literal (quote : Char) (escaped : Bool)
  deriving DecidableEq, Repr

structure Nesting where
  depth : Nat
  mode : Mode
  deriving DecidableEq, Repr

namespace Nesting

def outside : Nesting := ⟨0, .code false⟩

def inCode (s : Nesting) : Bool :=
  match s.mode with
  | .code _ => true
  | .literal _ _ => false

def topLevel (s : Nesting) : Bool := s.depth == 0 && s.inCode

/-- The depth after a character outside strings. A closing bracket too many changes nothing. -/
def depthWith (depth : Nat) (afterEquals : Bool) (c : Char) : Nat :=
  if isOpener c then depth + 1
  else if c = '>' && afterEquals then depth
  else if isCloser c then depth - 1
  else depth

def step (s : Nesting) (c : Char) : Nesting :=
  match s.mode with
  | .literal q true => ⟨s.depth, .literal q false⟩
  | .literal q false =>
    if c = '\\' then ⟨s.depth, .literal q true⟩
    else if c = q then ⟨s.depth, .code false⟩
    else s
  | .code afterEquals =>
    if isQuote c then ⟨s.depth, .literal c false⟩
    else ⟨depthWith s.depth afterEquals c, .code (c == '=')⟩

def run (s : Nesting) (t : Text) : Nesting := t.foldl step s

@[simp] theorem run_nil (s : Nesting) : s.run [] = s := rfl

@[simp] theorem run_cons (s : Nesting) (c : Char) (r : Text) :
    s.run (c :: r) = (s.step c).run r := rfl

@[simp] theorem run_append (s : Nesting) (a b : Text) : s.run (a ++ b) = (s.run a).run b := by
  simp [run]

end Nesting

/-- What a scan does with a character: keep it in the current piece, drop it and begin the next
piece, or make it the last of its piece. -/
inductive Cut where
  | keep
  | drop
  | close
  deriving DecidableEq, Repr

/-- A rule that cuts a text into pieces in one pass. -/
structure Cutter (σ : Type) where
  start : σ
  next : σ → Char → σ × Cut

namespace Cutter

variable {σ : Type}

/-- The pieces of a text that starts at byte `n`, read in state `s`; there is always a first. -/
def piecesFrom (k : Cutter σ) (s : σ) (n : Nat) : Text → Segment × List Segment
  | [] => (⟨n, []⟩, [])
  | c :: r =>
    let (p, ps) := k.piecesFrom (k.next s c).1 (n + c.utf8Size) r
    match (k.next s c).2 with
    | .keep => (⟨n, c :: p.text⟩, ps)
    | .drop => (⟨n, []⟩, p :: ps)
    | .close => (⟨n, [c]⟩, p :: ps)

def pieces (k : Cutter σ) (t : Text) : List Segment :=
  let (p, ps) := k.piecesFrom k.start 0 t
  p :: ps

/-- The pieces without the white space around them; what is empty then is left out. -/
def segments (k : Cutter σ) (t : Text) : List Segment := (k.pieces t).filterMap Segment.trim?

end Cutter

def atTopLevel (d : Char) : Cutter Nesting where
  start := .outside
  next s c := (s.step c, if s.topLevel && c == d then .drop else .keep)

def splitTopLevel (d : Char) (t : Text) : List Segment := (atTopLevel d).segments t

def partsTopLevel (d : Char) (t : Text) : List Text := (splitTopLevel d t).map Segment.text

/-- Cuts a file into its statements. A statement ends at a semicolon at top level, which it does
not include, or with the brace that closes a block at top level; after an equals sign at top level
only a semicolon ends it. -/
def atStatements : Cutter (Nesting × Bool) where
  start := (.outside, false)
  next := fun (s, assigned) c =>
    let s' := s.step c
    if s.topLevel && c == ';' then ((s', false), .drop)
    else if s.topLevel && c == '=' then ((s', true), .keep)
    else if !assigned && c == '}' && s'.topLevel then ((s', assigned), .close)
    else ((s', assigned), .keep)

def splitStatements (t : Text) : List Segment := atStatements.segments t

namespace Nesting

def breakAt (p : Char → Bool) (s : Nesting) : Text → Text × Text
  | [] => ([], [])
  | c :: r =>
    if s.topLevel && p c then ([], c :: r)
    else
      let (a, b) := breakAt p (s.step c) r
      (c :: a, b)

theorem breakAt_append (p : Char → Bool) (s : Nesting) (t : Text) :
    (breakAt p s t).1 ++ (breakAt p s t).2 = t := by
  fun_induction breakAt p s t <;> simp_all

def closing? (s : Nesting) : Text → Option (Text × Text)
  | [] => none
  | c :: r =>
    if s.depth = 1 && (s.step c).topLevel then some ([], r)
    else (closing? (s.step c) r).map fun (a, b) => (c :: a, b)

theorem eq_of_closing? {s : Nesting} {t a b : Text} (h : s.closing? t = some (a, b)) :
    ∃ c, t = a ++ c :: b := by
  fun_induction closing? s t generalizing a with
  | case1 => simp at h
  | case2 s c r _ => simp at h; exact ⟨c, by simp [h]⟩
  | case3 s c r _ ih =>
    obtain ⟨⟨x, y⟩, hxy, he⟩ := Option.map_eq_some_iff.1 h
    obtain ⟨rfl, rfl⟩ := Prod.mk.inj he
    obtain ⟨d, rfl⟩ := ih hxy
    exact ⟨d, rfl⟩

def meets (needle : Text) (s : Nesting) : Text → Bool
  | [] => false
  | c :: r => (s.topLevel && Text.startsWith needle (c :: r)) || meets needle (s.step c) r

end Nesting

def breakTopLevel (p : Char → Bool) (t : Text) : Text × Text := Nesting.outside.breakAt p t

def findTopLevel (d : Char) (t : Text) : Option Nat :=
  let (a, b) := breakTopLevel (· == d) t
  if b.isEmpty then none else some (Text.bytes a)

def containsTopLevel (needle t : Text) : Bool :=
  !needle.isEmpty && Nesting.outside.meets needle t

/-- For a text that begins with an opening bracket: what the bracket encloses, and what follows
the bracket that closes it. -/
def group? : Text → Option (Text × Text)
  | [] => none
  | c :: r => if isOpener c then (Nesting.outside.step c).closing? r else none

theorem eq_of_group? {t a b : Text} (h : group? t = some (a, b)) :
    ∃ o c, isOpener o ∧ t = o :: a ++ c :: b := by
  cases t with
  | nil => simp [group?] at h
  | cons o r =>
    simp only [group?, Option.ite_none_right_eq_some] at h
    obtain ⟨c, rfl⟩ := Nesting.eq_of_closing? h.2
    exact ⟨o, c, h.1, rfl⟩

/-- The byte offset of the bracket that closes the one at offset `n`. -/
def matchingClose (t : Text) (n : Nat) : Option Nat :=
  ((t.splitAt? n).bind fun p => group? p.2).map fun (a, _) => n + 1 + Text.bytes a

theorem matchingClose_append (p r : Text) : matchingClose (p ++ r) (Text.bytes p) =
    (group? r).map fun (a, _) => Text.bytes p + 1 + Text.bytes a := by
  rw [matchingClose, Text.splitAt?_bytes, Option.bind_some]

def depthAfter (t : Text) : Nat := (Nesting.outside.run t).depth

inductive CommentMode where
  | code
  | literal (quote : Char)
  | line
  | block
  deriving DecidableEq, Repr

namespace CommentMode

/-- As many spaces as the character has bytes; line feeds stay. -/
def cover (c : Char) : Text := if c = '\n' then ['\n'] else List.replicate c.utf8Size ' '

@[simp] theorem bytes_cover (c : Char) : Text.bytes (cover c) = c.utf8Size := by
  have h : ∀ n, Text.bytes (List.replicate n ' ') = n := by
    intro n
    induction n with
    | zero => rfl
    | succ n ih =>
      rw [List.replicate_succ, Text.bytes_cons, ih, show Char.utf8Size ' ' = 1 from rfl,
        Nat.add_comm]
  unfold cover
  split
  · rename_i hc; subst hc; rfl
  · exact h _

/-- Writes over the comments of a text that is read in the given mode. A string ends with its
quote or at the end of its line; a backslash in it takes the next character along. -/
def blank : CommentMode → Text → Text
  | _, [] => []
  | .code, '/' :: '/' :: r => ' ' :: ' ' :: blank .line r
  | .code, '/' :: '*' :: r => ' ' :: ' ' :: blank .block r
  | .code, c :: r => c :: blank (if isQuote c then .literal c else .code) r
  | .literal q, '\\' :: c :: r => '\\' :: c :: blank (.literal q) r
  | .literal q, c :: r => c :: blank (if c = q ∨ c = '\n' then .code else .literal q) r
  | .line, c :: r => cover c ++ blank (if c = '\n' then .code else .line) r
  | .block, '*' :: '/' :: r => ' ' :: ' ' :: blank .code r
  | .block, c :: r => cover c ++ blank .block r

theorem bytes_blank (m : CommentMode) (t : Text) : Text.bytes (blank m t) = Text.bytes t := by
  have slash : Char.utf8Size '/' = Char.utf8Size ' ' := rfl
  have star : Char.utf8Size '*' = Char.utf8Size ' ' := rfl
  fun_induction blank m t <;> simp_all

end CommentMode

namespace Text

/-- The text with spaces in the place of its comments. -/
def blankComments (t : Text) : Text := CommentMode.code.blank t

@[simp] theorem bytes_blankComments (t : Text) : bytes (blankComments t) = bytes t :=
  CommentMode.bytes_blank .code t

end Text

end WebSurface
