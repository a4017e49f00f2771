import Mathlib.Data.List.Induction
import WebSurface.Proofs.ByteNesting
import WebSurface.Proofs.Lexemes
set_option autoImplicit false

namespace WebSurface.Checked

open Text (utf8 bytes lead trail)

def skip? (p : UInt8 → Bool) (bs : List UInt8) (i : Nat) : Option Nat :=
  if i < bs.length then do
    let b ← bs[i]?
    if p b then skip? p bs (i + 1) else return i
  else some i
termination_by bs.length - i

/-- The offset of the quote that closes a string, or one that is not before the end. -/
def closing? (quote : UInt8) (bs : List UInt8) (i : Nat) : Option Nat :=
  if i < bs.length then do
    let b ← bs[i]?
    if b == quote then return i
    else if b == '\\'.toUInt8 then closing? quote bs (i + 2)
    else closing? quote bs (i + 1)
  else some i
termination_by bs.length - i

def beforeMark : List UInt8 → Option Nat
  | a :: b :: rest =>
    if a == '*'.toUInt8 && b == '/'.toUInt8 then some 0 else (beforeMark (b :: rest)).map (· + 1)
  | _ => none

def commentEnd (bs : List UInt8) (i : Nat) : Option Nat :=
  if i ≤ bs.length then (beforeMark (bs.drop i)).map (i + · + 2) else none

def nameEnd? (t : Text) (i : Nat) : Option Nat := do
  let rest ← from? t i
  return if (rest.dropWhile Text.isNameChar).isEmpty then bytes t
    else i + bytes (rest.takeWhile Text.isNameChar)

def lastLine : Text → Option Nat
  | [] => none
  | c :: r => ((lastLine r).map (c.utf8Size + ·)).or (if c == '\n' then some 0 else none)

def column? (t : Text) : Option Nat :=
  match lastLine t with
  | none => some (bytes t)
  | some line => do
    let rest ← minus? (bytes t) line
    minus? rest 1

def atEnd? (t : Text) : Option Position := do
  let column ← column? t
  return ⟨t.count '\n' + 1, column + 1⟩

/-- The line and the column of an offset; one that is no boundary stands for the end. -/
def position? (t : Text) (i : Nat) : Option Position := atEnd? ((upTo? t i).getD t)

/-! ### The loops -/

theorem skip?_eq (p : UInt8 → Bool) (x y : List UInt8) :
    skip? p (x ++ y) x.length = some (x.length + (y.takeWhile p).length) := by
  induction y generalizing x with
  | nil => rw [skip?, List.append_nil, if_neg (Nat.lt_irrefl _)]; rfl
  | cons b y ih =>
    have next := ih (x ++ [b])
    rw [List.append_assoc, List.singleton_append, List.length_append, List.length_singleton] at next
    rw [skip?, if_pos (by simp)]
    simp only [List.getElem?_append_right (Nat.le_refl _), Nat.sub_self, List.getElem?_cons_zero,
      Option.bind_eq_bind, Option.bind_some, next]
    cases hb : p b <;> simp [hb, Nat.add_assoc, Nat.add_comm 1]

theorem takeWhile_utf8 {p : UInt8 → Bool} {q : Char → Bool} (char : ∀ c, p (lead c) = q c)
    (rest : ∀ c, q c → ∀ b ∈ trail c, p b) (t : Text) :
    (utf8 t).takeWhile p = utf8 (t.takeWhile q) := by
  induction t with
  | nil => rfl
  | cons c r ih =>
    rw [Text.utf8_cons, List.takeWhile_cons, char, List.takeWhile_cons]
    cases hc : q c with
    | false => rfl
    | true =>
      rw [if_pos rfl, if_pos rfl, List.takeWhile_append_of_pos (rest c hc), ih, Text.utf8_cons]

theorem skip?_text {p : UInt8 → Bool} {q : Char → Bool} (char : ∀ c, p (lead c) = q c)
    (rest : ∀ c, q c → ∀ b ∈ trail c, p b) (a r : Text) :
    skip? p (utf8 (a ++ r)) (bytes a) = some (bytes a + bytes (r.takeWhile q)) := by
  rw [Text.utf8_append, ← Text.length_utf8, skip?_eq, takeWhile_utf8 char rest, Text.length_utf8,
    Text.length_utf8]

theorem closing?_cons (q : UInt8) (x : List UInt8) (b : UInt8) (y : List UInt8) :
    closing? q (x ++ b :: y) x.length =
      if b == q then some x.length
      else if b == '\\'.toUInt8 then closing? q (x ++ b :: y) (x.length + 2)
      else closing? q (x ++ [b] ++ y) (x ++ [b]).length := by
  rw [closing?, if_pos (by simp)]
  simp

theorem closing?_trail {q : Char} (hq : isQuote q) {bs : List UInt8} (hbs : ∀ b ∈ bs, IsTrail b)
    (x y : List UInt8) :
    closing? q.toUInt8 (x ++ (bs ++ y)) x.length =
      closing? q.toUInt8 (x ++ bs ++ y) (x ++ bs).length := by
  induction bs generalizing x with
  | nil => simp
  | cons b bs ih =>
    obtain ⟨hb, hbs⟩ := List.forall_mem_cons.1 hbs
    have quote := Text.trail_beq (onlyAscii_isQuote q hq) hb
    have back := Text.trail_beq (show '\\'.toNat < 128 by decide) hb
    have step := closing?_cons q.toUInt8 x b (bs ++ y)
    rw [quote, back, if_neg Bool.false_ne_true, if_neg Bool.false_ne_true, ih hbs] at step
    simpa using step

/-- A closing quote is found where the characters have it, and none before the end otherwise. -/
def Closes (q : Char) (x : List UInt8) (r : Text) : Prop :=
  match Lexeme.closeLiteral? q r with
  | some (raw, _) => closing? q.toUInt8 (x ++ utf8 r) x.length = some (x.length + bytes raw)
  | none => ∃ stop, closing? q.toUInt8 (x ++ utf8 r) x.length = some stop ∧
      (x ++ utf8 r).length ≤ stop

theorem Closes.append {q : Char} {x : List UInt8} {w r : Text}
    (read : Lexeme.closeLiteral? q (w ++ r) =
      (Lexeme.closeLiteral? q r).map fun p => (w ++ p.1, p.2))
    (step : closing? q.toUInt8 (x ++ utf8 (w ++ r)) x.length =
      closing? q.toUInt8 (x ++ utf8 w ++ utf8 r) (x ++ utf8 w).length)
    (h : Closes q (x ++ utf8 w) r) : Closes q x (w ++ r) := by
  unfold Closes at h ⊢
  rw [read, step]
  cases hr : Lexeme.closeLiteral? q r with
  | none => simpa [hr] using h
  | some p => simpa [hr, Nat.add_assoc] using h

theorem closing?_eq {q : Char} (hq : isQuote q) (x : List UInt8) (r : Text) : Closes q x r := by
  have ascii := onlyAscii_isQuote q hq
  have back : '\\'.toNat < 128 := by decide
  have other : q ≠ '\\' := Lexeme.ne_backslash_of_isQuote hq
  have differ : ('\\'.toUInt8 == q.toUInt8) = false := by
    rw [← Text.lead_ascii back, Text.lead_beq ascii]
    exact beq_false_of_ne other.symm
  -- The loop goes on from the bytes `x` that it has passed, so these are any.
  fun_induction Lexeme.closeLiteral? q r generalizing x with
  | case1 =>
    have done : ¬x.length < x.length := Nat.lt_irrefl _
    exact ⟨x.length, by rw [Text.utf8_nil, List.append_nil, closing?, if_neg done], by simp⟩
  | case2 c r ih =>
    refine Closes.append (w := ['\\', c]) rfl ?_ (ih _)
    have trails := closing?_trail hq (Text.isTrail_of_mem_trail c)
      (x ++ ['\\'.toUInt8, lead c]) (utf8 r)
    have step := closing?_cons q.toUInt8 x '\\'.toUInt8 (lead c :: (trail c ++ utf8 r))
    rw [differ, if_neg Bool.false_ne_true, beq_self_eq_true, if_pos rfl] at step
    simp only [List.cons_append, List.nil_append, Text.utf8_ascii_cons back, Text.utf8_cons,
      Text.utf8_nil, List.append_nil] at step trails ⊢
    rw [step]
    simpa using trails
  | case3 r =>
    have here := closing?_cons q.toUInt8 x q.toUInt8 (utf8 r)
    rw [beq_self_eq_true, if_pos rfl] at here
    unfold Closes
    simp only [Lexeme.closeLiteral?, if_true]
    rw [Text.utf8_ascii_cons ascii, here]
    rfl
  | case4 c r hback hne ih =>
    by_cases hc : c = '\\'
    · -- A backslash at the end escapes nothing; the loop steps past the end.
      obtain rfl : r = [] := by
        cases r with
        | nil => rfl
        | cons d s => exact (hback d s hc rfl).elim
      subst hc
      have unclosed : Lexeme.closeLiteral? q ['\\'] = none := by
        simp [Lexeme.closeLiteral?, other.symm]
      have past : closing? q.toUInt8 (x ++ ['\\'.toUInt8]) (x.length + 2) =
          some (x.length + 2) := by
        rw [closing?, if_neg (by simp)]
      have here := closing?_cons q.toUInt8 x '\\'.toUInt8 []
      rw [differ, if_neg Bool.false_ne_true, beq_self_eq_true, if_pos rfl, past] at here
      unfold Closes
      rw [unclosed, Text.utf8_ascii_cons back, Text.utf8_nil]
      exact ⟨_, here, by simp⟩
    · refine Closes.append (w := [c]) ?_ ?_ (ih _)
      · cases r <;> simp [Lexeme.closeLiteral?, hne]
      · have trails := closing?_trail hq (Text.isTrail_of_mem_trail c)
          (x ++ [lead c]) (utf8 r)
        have step := closing?_cons q.toUInt8 x (lead c) (trail c ++ utf8 r)
        rw [Text.lead_beq ascii, Text.lead_beq back, beq_false_of_ne hne, beq_false_of_ne hc,
          if_neg Bool.false_ne_true, if_neg Bool.false_ne_true] at step
        simp only [List.cons_append, List.nil_append, Text.utf8_cons, Text.utf8_nil,
          List.append_nil] at step trails ⊢
        rw [step, trails]
        simp

theorem beforeMark_cons {b : UInt8} {y : List UInt8}
    (h : (b == '*'.toUInt8 && y.head? == some '/'.toUInt8) = false) :
    beforeMark (b :: y) = (beforeMark y).map (· + 1) := by
  cases y with
  | nil => rfl
  | cons d y =>
    rw [List.head?_cons, Option.some_beq_some] at h
    rw [beforeMark, h, if_neg Bool.false_ne_true]

theorem beforeMark_eq (r : Text) :
    (beforeMark (utf8 r)).map (· + 2) = (Lexeme.closeComment? r).map fun p => bytes p.1 := by
  have star : '*'.toNat < 128 := by decide
  have slash : '/'.toNat < 128 := by decide
  fun_induction Lexeme.closeComment? r with
  | case1 => rfl
  | case2 r =>
    rw [Text.utf8_ascii_cons star, Text.utf8_ascii_cons slash, beforeMark]
    rfl
  | case3 c r hclose ih =>
    have trails (bs : List UInt8) (hbs : ∀ b ∈ bs, IsTrail b) (y : List UInt8) :
        beforeMark (bs ++ y) = (beforeMark y).map (· + bs.length) := by
      induction bs with
      | nil => simp
      | cons b bs ih =>
        obtain ⟨hb, hbs⟩ := List.forall_mem_cons.1 hbs
        rw [List.cons_append, beforeMark_cons (by rw [Text.trail_beq star hb]; rfl), ih hbs]
        simp [Function.comp_def, Nat.add_assoc]
    have here : (lead c == '*'.toUInt8 && (trail c ++ utf8 r).head? == some '/'.toUInt8) =
        false := by
      rw [Text.lead_pair star slash, Text.head?_pair hclose]
    rw [Text.utf8_cons, beforeMark_cons here, trails _ (Text.isTrail_of_mem_trail c)]
    have size := Text.length_trail c
    simp only [Option.map_map]
    cases hb : beforeMark (utf8 r) with
    | none =>
      rw [hb] at ih
      rw [Option.map_eq_none_iff.1 ih.symm]
      rfl
    | some n =>
      rw [hb] at ih
      obtain ⟨p, hp, hn⟩ := Option.map_eq_some_iff.1 ih.symm
      rw [hp, Option.map_some, Option.map_some, Option.some.injEq]
      simp only [Function.comp_apply, Text.bytes_cons] at hn ⊢
      omega

theorem nameEnd?_eq (a r : Text) :
    nameEnd? (a ++ r) (bytes a) = some (bytes a + bytes (r.takeWhile Text.isNameChar)) := by
  rw [nameEnd?, from?_bytes]
  simp only [Option.bind_eq_bind, Option.bind_some, Option.pure_def, Text.bytes_append]
  split
  · rename_i h
    have split := List.takeWhile_append_dropWhile (p := Text.isNameChar) (l := r)
    rw [List.isEmpty_iff.1 h, List.append_nil] at split
    rw [split]
  · rfl

/-! ### Lines and columns -/

theorem lastLine_append_singleton (t : Text) (c : Char) :
    lastLine (t ++ [c]) = if c = '\n' then some (bytes t) else lastLine t := by
  induction t with
  | nil => simp [lastLine]
  | cons d t ih =>
    rw [List.cons_append, lastLine, ih, lastLine]
    split <;> simp

theorem lastLine_lt {t : Text} {n : Nat} (h : lastLine t = some n) : n < bytes t := by
  induction t generalizing n with
  | nil => cases h
  | cons c t ih =>
    have := c.utf8Size_pos
    rw [lastLine] at h
    rw [Text.bytes_cons]
    cases ht : lastLine t with
    | none =>
      rw [ht] at h
      split at h <;> simp at h
      omega
    | some m =>
      rw [ht] at h
      obtain rfl : c.utf8Size + m = n := by simpa using h
      have := ih ht
      omega

theorem column?_append_singleton (t : Text) (c : Char) :
    column? (t ++ [c]) = if c = '\n' then some 0 else (column? t).map (· + c.utf8Size) := by
  have size : bytes (t ++ [c]) = bytes t + c.utf8Size := by simp
  rw [column?, lastLine_append_singleton, size]
  by_cases hc : c = '\n'
  · have one : c.utf8Size = 1 := by rw [hc]; rfl
    rw [if_pos hc, if_pos hc, one]
    simp [minus?]
  · rw [if_neg hc, if_neg hc, column?]
    cases hl : lastLine t with
    | none => rfl
    | some n =>
      have := lastLine_lt hl
      have step : bytes t + c.utf8Size - n - 1 = bytes t - n - 1 + c.utf8Size := by omega
      have rest : 1 ≤ bytes t - n := by omega
      have last : 1 ≤ bytes t + c.utf8Size - n := by omega
      simp only [Option.bind_eq_bind]
      rw [minus?_of_le (by omega), minus?_of_le (by omega), Option.bind_some, Option.bind_some,
        minus?_of_le last, minus?_of_le rest, step]
      rfl

theorem atEnd?_eq (t : Text) : atEnd? t = some (.atEnd t) := by
  induction t using List.reverseRec with
  | nil => rfl
  | append_singleton t c ih =>
    obtain ⟨column, hcolumn, hend⟩ := Option.bind_eq_some_iff.1 ih
    rw [Position.atEnd_append_singleton, ← Option.some.inj hend, atEnd?,
      column?_append_singleton, hcolumn]
    by_cases hc : c = '\n'
    · simp [hc, Position.advance]
    · simp [hc, Position.advance]
      omega

@[simp] theorem position?_eq (t : Text) (i : Nat) : position? t i = some (.ofOffset t i) :=
  atEnd?_eq _

end WebSurface.Checked
