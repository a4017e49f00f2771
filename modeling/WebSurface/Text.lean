set_option autoImplicit false

/-!
Declaration text: lists of characters, measured in the bytes of their UTF-8 form.

Offsets into a text count bytes. `Text.splitAt?` is the one way to cut at an offset; it fails
unless the offset is a character boundary, and `Text.splitAt?_eq_some_iff` says when it succeeds.
-/

namespace WebSurface

abbrev Text := List Char

namespace Text

/-- What holds of every character of a text is decided over the text, not over all characters. -/
instance decidableForallMem (p : Char → Prop) [DecidablePred p] (t : Text) :
    Decidable (∀ c ∈ t, p c) :=
  List.decidableBAll p t

def bytes : Text → Nat
  | [] => 0
  | c :: r => c.utf8Size + bytes r

@[simp] theorem bytes_nil : bytes [] = 0 := rfl

@[simp] theorem bytes_cons (c : Char) (r : Text) : bytes (c :: r) = c.utf8Size + bytes r := rfl

@[simp] theorem bytes_append (a b : Text) : bytes (a ++ b) = bytes a + bytes b := by
  induction a with
  | nil => simp
  | cons c r ih => simp [ih, Nat.add_assoc]

theorem bytes_pos {t : Text} (h : t ≠ []) : 0 < bytes t := by
  cases t with
  | nil => exact absurd rfl h
  | cons c r => have := c.utf8Size_pos; simp; omega

@[simp] theorem bytes_eq_zero (t : Text) : bytes t = 0 ↔ t = [] := by
  cases t with
  | nil => simp
  | cons c r => have := c.utf8Size_pos; simp; omega

/-- The text before and after a byte offset, if the offset is a character boundary. -/
def splitAt? : Text → Nat → Option (Text × Text)
  | t, 0 => some ([], t)
  | [], _ + 1 => none
  | c :: r, n + 1 =>
    if c.utf8Size ≤ n + 1 then (splitAt? r (n + 1 - c.utf8Size)).map fun p => (c :: p.1, p.2)
    else none

@[simp] theorem splitAt?_zero (t : Text) : t.splitAt? 0 = some ([], t) := by
  cases t <;> rfl

@[simp] theorem splitAt?_bytes (a b : Text) : splitAt? (a ++ b) (bytes a) = some (a, b) := by
  induction a with
  | nil => simp
  | cons c r ih =>
    obtain ⟨k, hk⟩ : ∃ k, c.utf8Size + bytes r = k + 1 :=
      ⟨c.utf8Size + bytes r - 1, by have := c.utf8Size_pos; omega⟩
    rw [bytes_cons, hk, List.cons_append, splitAt?, if_pos (by omega)]
    rw [show k + 1 - c.utf8Size = bytes r by omega, ih]
    rfl

theorem eq_of_splitAt? {t : Text} {n : Nat} {a b : Text} (h : t.splitAt? n = some (a, b)) :
    t = a ++ b ∧ n = bytes a := by
  fun_induction splitAt? t n generalizing a b with
  | case1 t => simp at h; obtain ⟨rfl, rfl⟩ := h; simp
  | case2 => simp at h
  | case3 c r n hn ih =>
    obtain ⟨⟨x, y⟩, hxy, he⟩ := Option.map_eq_some_iff.1 h
    obtain ⟨rfl, rfl⟩ := Prod.mk.inj he
    obtain ⟨rfl, hb⟩ := ih hxy
    exact ⟨rfl, by simp; omega⟩
  | case4 => simp at h

/-- An offset is a boundary exactly when it is the size of an initial piece. -/
theorem splitAt?_eq_some_iff {t : Text} {n : Nat} {a b : Text} :
    t.splitAt? n = some (a, b) ↔ t = a ++ b ∧ n = bytes a :=
  ⟨eq_of_splitAt?, fun ⟨ht, hn⟩ => by rw [ht, hn, splitAt?_bytes]⟩

/-- What follows the first `n` bytes; empty when `n` is no boundary. -/
def after (t : Text) (n : Nat) : Text := (t.splitAt? n).elim [] Prod.snd

@[simp] theorem after_bytes (a b : Text) : after (a ++ b) (bytes a) = b := by simp [after]

/-- White space in the sense of the Unicode property White_Space. -/
def isBlank (c : Char) : Bool :=
  let n := c.toNat
  (9 ≤ n && n ≤ 13) || n == 0x20 || n == 0x85 || n == 0xA0 || n == 0x1680 ||
    (0x2000 ≤ n && n ≤ 0x200A) || n == 0x2028 || n == 0x2029 || n == 0x202F || n == 0x205F ||
    n == 0x3000

def trimStart (t : Text) : Text := t.dropWhile isBlank

def dropEndWhile (p : Char → Bool) (t : Text) : Text := (t.reverse.dropWhile p).reverse

def trimEnd (t : Text) : Text := t.dropEndWhile isBlank

def trim (t : Text) : Text := trimEnd (trimStart t)

def blank (t : Text) : Bool := t.all isBlank

/-- Each run of white space becomes one space, a run at the end nothing. -/
def squeeze : Text → Text
  | [] => []
  | c :: r =>
    if isBlank c then
      match r with
      | [] => []
      | d :: _ => if isBlank d then squeeze r else ' ' :: squeeze r
    else c :: squeeze r

def collapse (t : Text) : Text := squeeze (trimStart t)

def strip? : (p t : Text) → Option Text
  | [], t => some t
  | _ :: _, [] => none
  | c :: p, d :: t => if c = d then strip? p t else none

theorem strip?_eq_some_iff {p t r : Text} : strip? p t = some r ↔ t = p ++ r := by
  fun_induction strip? p t <;> simp_all [eq_comm]

def startsWith (p t : Text) : Bool := (strip? p t).isSome

theorem startsWith_singleton {c : Char} {t : Text} : startsWith [c] t ↔ t.head? = some c := by
  rw [startsWith, Option.isSome_iff_exists, List.head?_eq_some_iff]
  exact exists_congr fun _ => strip?_eq_some_iff

def stripEnd? (s t : Text) : Option Text := (strip? s.reverse t.reverse).map List.reverse

theorem stripEnd?_eq_some_iff {s t r : Text} : stripEnd? s t = some r ↔ t = r ++ s := by
  simp only [stripEnd?, Option.map_eq_some_iff, strip?_eq_some_iff]
  constructor
  · rintro ⟨u, hu, rfl⟩
    simpa using congrArg List.reverse hu
  · rintro rfl
    exact ⟨r.reverse, by simp, by simp⟩

def endsWith (s t : Text) : Bool := (stripEnd? s t).isSome

def contains (t p : Text) : Bool :=
  match t with
  | [] => p.isEmpty
  | _ :: r => startsWith p t || contains r p

def lines : Text → List Text
  | [] => []
  | c :: r =>
    if c = '\n' then [c] :: lines r
    else match lines r with
      | [] => [[c]]
      | l :: ls => (c :: l) :: ls

@[simp] theorem flatten_lines (t : Text) : (lines t).flatten = t := by
  fun_induction lines t <;> simp_all

def firstLine (t : Text) : Text := trim (t.takeWhile (· != '\n'))

def asciiLower (t : Text) : Text := t.map Char.toLower

def hex (width n : Nat) : Text :=
  let digits := Nat.toDigits 16 n
  List.replicate (width - digits.length) '0' ++ digits

/-- The value of digits, the first of which weighs most; letters count from ten on. -/
def readDigits (base : Nat) (t : Text) : Nat :=
  t.foldl (fun n c => n * base + if c.isDigit then c.toNat - 48 else c.toLower.toNat - 87) 0

def join (sep : Text) : List Text → Text
  | [] => []
  | [t] => t
  | t :: u :: ts => t ++ sep ++ join sep (u :: ts)

/-- What holds of texts and is kept when two of them are put together with `sep` between them. -/
theorem join_induction {p : Text → Prop} {sep : Text} (nil : p [])
    (append : ∀ t u, p t → p u → p (t ++ sep ++ u)) {ts : List Text} (h : ∀ t ∈ ts, p t) :
    p (join sep ts) := by
  fun_induction join sep ts with
  | case1 => exact nil
  | case2 t => exact h t List.mem_cons_self
  | case3 t u ts ih =>
    obtain ⟨ht, hts⟩ := List.forall_mem_cons.1 h
    exact append t _ ht (ih hts)

end Text

end WebSurface
