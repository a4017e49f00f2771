import WebSurface.Text
set_option autoImplicit false

namespace WebSurface

structure Span where
  start : Nat
  stop : Nat
  deriving DecidableEq, Repr, Inhabited

namespace Span

def size (s : Span) : Nat := s.stop - s.start

def shift (s : Span) (n : Nat) : Span := ⟨s.start + n, s.stop + n⟩

theorem shift_shift (s : Span) (m n : Nat) : (s.shift m).shift n = s.shift (m + n) := by
  simp [shift, Nat.add_assoc]

def toText (s : Span) : Text :=
  (toString s.start).toList ++ "..".toList ++ (toString s.stop).toList

end Span

namespace Text

/-- The part of the text that a span covers, if both its ends are boundaries in order. -/
def slice? (t : Text) (s : Span) : Option Text :=
  if s.start ≤ s.stop then
    (t.splitAt? s.start).bind fun p => (p.2.splitAt? s.size).map Prod.fst
  else none

/-- The part of the text that a span covers, empty when there is none. -/
def slice (t : Text) (s : Span) : Text := (t.slice? s).getD []

theorem slice?_eq_some_iff {t m : Text} {s : Span} :
    t.slice? s = some m ↔
      ∃ a b, t = a ++ m ++ b ∧ s.start = bytes a ∧ s.stop = bytes a + bytes m := by
  unfold slice?
  split
  · rename_i hs
    simp only [Option.bind_eq_some_iff, Option.map_eq_some_iff, Prod.exists, splitAt?_eq_some_iff,
      Span.size]
    constructor
    · rintro ⟨a, r, ⟨rfl, ha⟩, m', b, ⟨rfl, hm⟩, rfl⟩
      exact ⟨a, b, by simp, ha, by omega⟩
    · rintro ⟨a, b, rfl, ha, hm⟩
      exact ⟨a, m ++ b, ⟨by simp, ha⟩, m, b, ⟨rfl, by omega⟩, rfl⟩
  · rename_i hs
    simp only [reduceCtorEq, false_iff, not_exists, not_and]
    intro a b _ ha hm
    omega

end Text

/-- A place in a text; lines count from one, columns count bytes from one. -/
structure Position where
  line : Nat
  column : Nat
  deriving DecidableEq, Repr

namespace Position

def start : Position := ⟨1, 1⟩

def advance (p : Position) (c : Char) : Position :=
  if c = '\n' then ⟨p.line + 1, 1⟩ else ⟨p.line, p.column + c.utf8Size⟩

def atEnd (t : Text) : Position := t.foldl advance start

/-- The place of a byte offset; an offset that is no boundary stands for the end of the text. -/
def ofOffset (t : Text) (n : Nat) : Position := atEnd (((t.splitAt? n).map Prod.fst).getD t)

@[simp] theorem ofOffset_bytes (a b : Text) : ofOffset (a ++ b) (Text.bytes a) = atEnd a := by
  simp [ofOffset]

theorem atEnd_append_singleton (t : Text) (c : Char) :
    atEnd (t ++ [c]) = (atEnd t).advance c := by
  simp [atEnd]

/-- Within a line the columns count bytes. -/
theorem foldl_advance {t : Text} (h : '\n' ∉ t) (p : Position) :
    t.foldl advance p = ⟨p.line, p.column + Text.bytes t⟩ := by
  induction t generalizing p with
  | nil => rfl
  | cons c r ih =>
    rw [List.mem_cons, not_or] at h
    rw [List.foldl_cons, advance, if_neg (Ne.symm h.1), ih h.2, Text.bytes_cons, Nat.add_assoc]

end Position

structure Segment where
  start : Nat
  text : Text
  deriving DecidableEq, Repr

namespace Segment

def stop (s : Segment) : Nat := s.start + Text.bytes s.text

def span (s : Segment) : Span := ⟨s.start, s.stop⟩

def shift (s : Segment) (n : Nat) : Segment := { s with start := s.start + n }

def trim (s : Segment) : Segment where
  start := s.start + (Text.bytes s.text - Text.bytes (Text.trimStart s.text))
  text := Text.trim s.text

def trim? (s : Segment) : Option Segment := if s.trim.text = [] then none else some s.trim

end Segment

end WebSurface
