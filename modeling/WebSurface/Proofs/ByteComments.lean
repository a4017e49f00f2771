import WebSurface.Proofs.ByteNesting
import WebSurface.Scan
set_option autoImplicit false

namespace WebSurface.Checked

open Text (utf8 bytes lead trail)

abbrev Bytes := List UInt8

def set? (bs : Bytes) (i : Nat) (b : UInt8) : Option Bytes :=
  if i < bs.length then some (bs.set i b) else none

def space : UInt8 := ' '.toUInt8

namespace Bytes

def blankLine? (bs : Bytes) (i : Nat) : Option (Bytes × Nat) :=
  if i < bs.length then do
    let b ← bs[i]?
    if b == '\n'.toUInt8 then return (bs, i)
    else do
      let bs ← set? bs i space
      bs |>.blankLine? (i + 1)
  else some (bs, i)
partial_fixpoint

def blankBlock? (bs : Bytes) (i : Nat) : Option (Bytes × Nat) :=
  if i < bs.length then do
    let b ← bs[i]?
    if b == '*'.toUInt8 && bs[i + 1]? == some '/'.toUInt8 then do
      let bs ← set? bs i space
      let bs ← set? bs (i + 1) space
      return (bs, i + 2)
    else if b == '\n'.toUInt8 then bs |>.blankBlock? (i + 1)
    else do
      let bs ← set? bs i space
      bs |>.blankBlock? (i + 1)
  else some (bs, i)
partial_fixpoint

def blankFrom? (bs : Bytes) (quote : Option UInt8) (i : Nat) : Option Bytes :=
  if i < bs.length then do
    let b ← bs[i]?
    match quote with
    | some q =>
      if b == '\\'.toUInt8 then bs |>.blankFrom? quote (i + 2)
      else if b == q || b == '\n'.toUInt8 then bs |>.blankFrom? none (i + 1)
      else bs |>.blankFrom? quote (i + 1)
    | none =>
      if isQuote (.ofUInt8 b) then bs |>.blankFrom? (some b) (i + 1)
      else if b == '/'.toUInt8 && bs[i + 1]? == some '/'.toUInt8 then do
        let (bs, i) ← blankLine? bs i
        bs |>.blankFrom? none i
      else if b == '/'.toUInt8 && bs[i + 1]? == some '*'.toUInt8 then do
        let bs ← set? bs i space
        let bs ← set? bs (i + 1) space
        let (bs, i) ← blankBlock? bs (i + 2)
        bs |>.blankFrom? none i
      else bs |>.blankFrom? none (i + 1)
  else some bs
partial_fixpoint

end Bytes

open Bytes (blankLine? blankBlock? blankFrom?)

def blankComments? (t : Text) : Option Text :=
  if !t.contains "//".toList && !t.contains "/*".toList then some t
  else do
    let bs ← blankFrom? (utf8 t) none 0
    Text.ofUtf8? bs

/-! ### One step of the loops -/

section Step

variable (x y : List UInt8) (b : UInt8)

@[simp] theorem getElem?_length : (x ++ b :: y)[x.length]? = some b := by simp

@[simp] theorem getElem?_length_succ : (x ++ b :: y)[x.length + 1]? = y.head? := by
  rw [List.getElem?_append_right (Nat.le_add_right _ 1), Nat.add_sub_cancel_left,
    List.getElem?_cons_succ, List.head?_eq_getElem?]

@[simp] theorem set?_length (c : UInt8) : set? (x ++ b :: y) x.length c = some (x ++ c :: y) := by
  simp [set?]

@[simp] theorem set?_length_succ (c : UInt8) :
    set? (x ++ c :: b :: y) (x.length + 1) space = some (x ++ c :: space :: y) := by
  have next := set?_length (x ++ [c]) y b space
  simpa only [List.append_assoc, List.singleton_append, List.length_append,
    List.length_singleton] using next

theorem length_lt : x.length < (x ++ b :: y).length := by simp

theorem blankLine?_cons : blankLine? (x ++ b :: y) x.length =
    if b == '\n'.toUInt8 then some (x ++ b :: y, x.length)
    else blankLine? (x ++ [space] ++ y) (x ++ [space]).length := by
  rw [blankLine?, if_pos (length_lt x y b), getElem?_length]
  simp

theorem blankBlock?_close : blankBlock? (x ++ '*'.toUInt8 :: '/'.toUInt8 :: y) x.length =
    some (x ++ [space, space] ++ y, (x ++ [space, space]).length) := by
  rw [blankBlock?, if_pos (length_lt x _ _), getElem?_length, getElem?_length_succ]
  simp

theorem blankBlock?_cons (h : (b == '*'.toUInt8 && y.head? == some '/'.toUInt8) = false) :
    blankBlock? (x ++ b :: y) x.length =
      if b == '\n'.toUInt8 then blankBlock? (x ++ [b] ++ y) (x ++ [b]).length
      else blankBlock? (x ++ [space] ++ y) (x ++ [space]).length := by
  rw [blankBlock?, if_pos (length_lt x y b), getElem?_length, getElem?_length_succ]
  simp only [Option.bind_eq_bind, Option.bind_some, h, Bool.false_eq_true, if_false]
  simp

theorem blankFrom?_literal (q : UInt8) : blankFrom? (x ++ b :: y) (some q) x.length =
    if b == '\\'.toUInt8 then blankFrom? (x ++ b :: y) (some q) (x.length + 2)
    else if b == q || b == '\n'.toUInt8 then blankFrom? (x ++ [b] ++ y) none (x ++ [b]).length
    else blankFrom? (x ++ [b] ++ y) (some q) (x ++ [b]).length := by
  rw [blankFrom?, if_pos (length_lt x y b), getElem?_length]
  simp

theorem blankFrom?_code
    (h : (b == '/'.toUInt8 && (y.head? == some '/'.toUInt8 || y.head? == some '*'.toUInt8)) =
      false) :
    blankFrom? (x ++ b :: y) none x.length =
      if isQuote (.ofUInt8 b) then blankFrom? (x ++ [b] ++ y) (some b) (x ++ [b]).length
      else blankFrom? (x ++ [b] ++ y) none (x ++ [b]).length := by
  rw [Bool.and_or_distrib_left, Bool.or_eq_false_iff] at h
  rw [blankFrom?, if_pos (length_lt x y b), getElem?_length, getElem?_length_succ]
  simp only [Option.bind_eq_bind, Option.bind_some, h, Bool.false_eq_true, if_false]
  simp

theorem blankFrom?_line : blankFrom? (x ++ '/'.toUInt8 :: '/'.toUInt8 :: y) none x.length =
    (blankLine? (x ++ [space, space] ++ y) (x ++ [space, space]).length).bind
      fun p => blankFrom? p.1 none p.2 := by
  have first := blankLine?_cons x ('/'.toUInt8 :: y) '/'.toUInt8
  have second := blankLine?_cons (x ++ [space]) y '/'.toUInt8
  have slash : ('/'.toUInt8 == '\n'.toUInt8) = false := by decide
  have plain : isQuote (.ofUInt8 '/'.toUInt8) = false := by decide
  rw [slash, if_neg Bool.false_ne_true] at first second
  simp only [List.append_assoc, List.cons_append, List.nil_append] at first second ⊢
  rw [blankFrom?, if_pos (length_lt x _ _), getElem?_length, getElem?_length_succ]
  simp [plain, first.trans second]

theorem blankFrom?_block : blankFrom? (x ++ '/'.toUInt8 :: '*'.toUInt8 :: y) none x.length =
    (blankBlock? (x ++ [space, space] ++ y) (x ++ [space, space]).length).bind
      fun p => blankFrom? p.1 none p.2 := by
  have star : '*'.toUInt8 ≠ '/'.toUInt8 := by decide
  have plain : isQuote (.ofUInt8 '/'.toUInt8) = false := by decide
  rw [blankFrom?, if_pos (length_lt x _ _), getElem?_length, getElem?_length_succ]
  simp [plain, star]

end Step

/-! ### The loops over a text -/

def blankIn? (m : CommentMode) (bs : List UInt8) (i : Nat) : Option (List UInt8) :=
  match m with
  | .code => blankFrom? bs none i
  | .literal q => blankFrom? bs (some q.toUInt8) i
  | .line => (blankLine? bs i).bind fun p => blankFrom? p.1 none p.2
  | .block => (blankBlock? bs i).bind fun p => blankFrom? p.1 none p.2

/-- What is written in the place of a byte that ends nothing. -/
def written (m : CommentMode) (b : UInt8) : UInt8 :=
  match m with
  | .code | .literal _ => b
  | .line | .block => space

/-- A string that is read begins with an ASCII character. -/
def Quotes (m : CommentMode) : Prop := ∀ q, m = .literal q → isQuote q

theorem blankIn?_trail {m : CommentMode} (hm : Quotes m) {bs : List UInt8}
    (hbs : ∀ b ∈ bs, IsTrail b) (x y : List UInt8) :
    blankIn? m (x ++ bs ++ y) x.length =
      blankIn? m (x ++ bs.map (written m) ++ y) (x ++ bs.map (written m)).length := by
  induction bs generalizing x with
  | nil => simp
  | cons b bs ih =>
    obtain ⟨hb, hbs⟩ := List.forall_mem_cons.1 hbs
    have slash := Text.trail_beq (show '/'.toNat < 128 by decide) hb
    have star := Text.trail_beq (show '*'.toNat < 128 by decide) hb
    have newline := Text.trail_beq (show '\n'.toNat < 128 by decide) hb
    have back := Text.trail_beq (show '\\'.toNat < 128 by decide) hb
    have step : blankIn? m (x ++ b :: (bs ++ y)) x.length =
        blankIn? m (x ++ [written m b] ++ (bs ++ y)) (x ++ [written m b]).length := by
      cases m with
      | code =>
        rw [blankIn?, blankFrom?_code _ _ _ (by rw [slash]; rfl), onlyAscii_isQuote.trail hb]
        rfl
      | literal q =>
        have quote := Text.trail_beq (onlyAscii_isQuote q (hm q rfl)) hb
        rw [blankIn?, blankFrom?_literal, back, quote, newline]
        rfl
      | line =>
        rw [blankIn?, blankLine?_cons, newline]
        rfl
      | block =>
        rw [blankIn?, blankBlock?_cons _ _ _ (by rw [star]; rfl), newline]
        rfl
    have rest := ih hbs (x ++ [written m b])
    simp only [List.append_assoc, List.cons_append, List.nil_append, List.map_cons] at step rest ⊢
    rw [step, rest]

section Character

variable {m : CommentMode} {c : Char} {r : Text} {x : List UInt8}

/-- Once the lead of a character is dealt with, so is the character. -/
theorem blankIn?_cons {next : CommentMode} {w : UInt8} (hnext : Quotes next)
    (step : blankIn? m (x ++ lead c :: (trail c ++ utf8 r)) x.length =
      blankIn? next (x ++ [w] ++ (trail c ++ utf8 r)) (x ++ [w]).length)
    (rest : ∀ x, blankIn? next (x ++ utf8 r) x.length = some (x ++ utf8 (next.blank r))) :
    blankIn? m (x ++ utf8 (c :: r)) x.length =
      some (x ++ w :: ((trail c).map (written next) ++ utf8 (next.blank r))) := by
  have trails := blankIn?_trail hnext (Text.isTrail_of_mem_trail c) (x ++ [w]) (utf8 r)
  rw [← List.append_assoc] at step
  rw [Text.utf8_cons, step, trails, rest]
  simp

theorem utf8_kept (h : written m = id) (t : Text) :
    lead c :: ((trail c).map (written m) ++ utf8 t) = utf8 (c :: t) := by
  rw [h, List.map_id, Text.utf8_cons]

theorem utf8_cover (t : Text) : utf8 (CommentMode.cover c ++ t) =
    (if c = '\n' then lead c else space) :: ((trail c).map (fun _ => space) ++ utf8 t) := by
  rw [Text.utf8_append, CommentMode.cover]
  split
  · rename_i hc
    subst hc
    rfl
  · rw [Text.utf8_spaces, ← Text.length_trail, List.replicate_succ, List.map_const']
    rfl

theorem blankIn?_code (y : List UInt8)
    (plain : (lead c == '/'.toUInt8 &&
      (y.head? == some '/'.toUInt8 || y.head? == some '*'.toUInt8)) = false) :
    blankIn? .code (x ++ lead c :: y) x.length =
      blankIn? (if isQuote c then .literal c else .code) (x ++ [lead c] ++ y)
        (x ++ [lead c]).length := by
  rw [blankIn?, blankFrom?_code _ _ _ plain, onlyAscii_isQuote.lead]
  split
  · rename_i hc
    rw [Text.lead_ascii (onlyAscii_isQuote c hc)]
    rfl
  · rfl

theorem blankIn?_escape (q : Char) :
    blankIn? (.literal q) (x ++ utf8 ('\\' :: c :: r)) x.length =
      blankIn? (.literal q) (x ++ ['\\'.toUInt8, lead c] ++ trail c ++ utf8 r)
        (x ++ ['\\'.toUInt8, lead c]).length := by
  have back : ('\\'.toUInt8 == '\\'.toUInt8) = true := rfl
  rw [blankIn?, Text.utf8_ascii_cons (by decide), blankFrom?_literal, back, if_pos rfl,
    Text.utf8_cons]
  simp [blankIn?]

theorem blankIn?_literal {q : Char} (hq : isQuote q) (hc : c ≠ '\\') (y : List UInt8) :
    blankIn? (.literal q) (x ++ lead c :: y) x.length =
      blankIn? (if c = q ∨ c = '\n' then .code else .literal q) (x ++ [lead c] ++ y)
        (x ++ [lead c]).length := by
  rw [blankIn?, blankFrom?_literal, Text.lead_beq (by decide),
    Text.lead_beq (onlyAscii_isQuote q hq), Text.lead_beq (by decide), beq_false_of_ne hc,
    if_neg Bool.false_ne_true]
  simp only [Bool.or_eq_true, beq_iff_eq]
  split <;> rfl

/-- The line feed after a comment is read once more, as code. -/
theorem blankIn?_line (y : List UInt8) :
    blankIn? .line (x ++ lead c :: y) x.length =
      blankIn? (if c = '\n' then .code else .line)
        (x ++ [if c = '\n' then lead c else space] ++ y)
        (x ++ [if c = '\n' then lead c else space]).length := by
  have step := blankLine?_cons x y (lead c)
  rw [Text.lead_beq (by decide)] at step
  by_cases hc : c = '\n'
  · have other : (lead c == '/'.toUInt8) = false := by
      rw [Text.lead_beq (by decide), hc]
      rfl
    have quote : isQuote c = false := by rw [hc]; rfl
    rw [if_pos hc, if_pos hc]
    change (blankLine? _ _).bind _ = blankFrom? _ none _
    rw [step, beq_iff_eq.2 hc, if_pos rfl, Option.bind_some,
      blankFrom?_code _ _ _ (by rw [other]; rfl), onlyAscii_isQuote.lead, quote,
      if_neg Bool.false_ne_true]
  · rw [if_neg hc, if_neg hc]
    change (blankLine? _ _).bind _ = (blankLine? _ _).bind _
    rw [step, beq_false_of_ne hc, if_neg Bool.false_ne_true]

theorem blankIn?_block (y : List UInt8)
    (plain : (lead c == '*'.toUInt8 && y.head? == some '/'.toUInt8) = false) :
    blankIn? .block (x ++ lead c :: y) x.length =
      blankIn? .block (x ++ [if c = '\n' then lead c else space] ++ y)
        (x ++ [if c = '\n' then lead c else space]).length := by
  rw [blankIn?, blankBlock?_cons _ _ _ plain, Text.lead_beq (by decide)]
  by_cases hc : c = '\n' <;> simp [hc, blankIn?]

end Character

theorem blankIn?_nil (m : CommentMode) (x : List UInt8) : blankIn? m x x.length = some x := by
  have done : ¬x.length < x.length := Nat.lt_irrefl _
  cases m with
  | code => rw [blankIn?, blankFrom?, if_neg done]
  | literal => rw [blankIn?, blankFrom?, if_neg done]
  | line => rw [blankIn?, blankLine?, if_neg done, Option.bind_some, blankFrom?, if_neg done]
  | block => rw [blankIn?, blankBlock?, if_neg done, Option.bind_some, blankFrom?, if_neg done]

/-- What has been written so far is `x`, in which there are as many bytes as have been read. -/
theorem blankIn?_eq {m : CommentMode} (hm : Quotes m) (x : List UInt8) (t : Text) :
    blankIn? m (x ++ utf8 t) x.length = some (x ++ utf8 (m.blank t)) := by
  have code : Quotes .code := fun q h => by cases h
  have line : Quotes .line := fun q h => by cases h
  have block : Quotes .block := fun q h => by cases h
  have slash : '/'.toNat < 128 := by decide
  have star : '*'.toNat < 128 := by decide
  have blank : ' '.toNat < 128 := by decide
  -- The two characters of a mark are read at once, and so are a backslash and what it escapes.
  fun_induction CommentMode.blank m t generalizing x with
  | case1 m => simpa using blankIn?_nil m x
  | case2 r ih =>
    have rest := ih line (x ++ [space, space])
    rw [blankIn?] at rest
    rw [blankIn?, Text.utf8_ascii_cons slash, Text.utf8_ascii_cons slash, blankFrom?_line, rest,
      Text.utf8_ascii_cons blank, Text.utf8_ascii_cons blank, List.append_assoc]
    rfl
  | case3 r ih =>
    have rest := ih block (x ++ [space, space])
    rw [blankIn?] at rest
    rw [blankIn?, Text.utf8_ascii_cons slash, Text.utf8_ascii_cons star, blankFrom?_block, rest,
      Text.utf8_ascii_cons blank, Text.utf8_ascii_cons blank, List.append_assoc]
    rfl
  | case4 c r hline hblock ih =>
    have next : Quotes (if isQuote c then .literal c else .code) := by
      intro q h
      split at h
      · rename_i hc
        exact CommentMode.literal.inj h ▸ hc
      · cases h
    have plain : (lead c == '/'.toUInt8 && ((trail c ++ utf8 r).head? == some '/'.toUInt8 ||
        (trail c ++ utf8 r).head? == some '*'.toUInt8)) = false := by
      rw [Bool.and_or_distrib_left, Text.lead_pair slash slash, Text.lead_pair slash star,
        Text.head?_pair hline, Text.head?_pair hblock]
      rfl
    rw [blankIn?_cons next (blankIn?_code _ plain) (ih next), utf8_kept]
    split <;> rfl
  | case5 q c r ih =>
    rw [blankIn?_escape, blankIn?_trail hm (Text.isTrail_of_mem_trail c), ih hm,
      Text.utf8_ascii_cons (by decide), ← utf8_kept (m := .literal q) rfl]
    simp
  | case6 q c r hback ih =>
    have next : Quotes (if c = q ∨ c = '\n' then .code else .literal q) := by
      intro a h
      split at h
      · cases h
      · exact hm a h
    by_cases hc : c = '\\'
    · -- Nothing is left to escape: the loop steps past the end.
      obtain rfl : r = [] := by
        cases r with
        | nil => rfl
        | cons d s => exact (hback d s hc rfl).elim
      subst hc
      have past : ¬x.length + 2 < (x ++ ['\\'.toUInt8]).length := by simp
      rw [blankIn?, Text.utf8_ascii_cons (by decide), Text.utf8_nil, blankFrom?_literal,
        if_pos (by decide), blankFrom?, if_neg past]
      split <;> rfl
    · rw [blankIn?_cons next (blankIn?_literal (hm q rfl) hc _) (ih next), utf8_kept]
      split <;> rfl
  | case7 c r ih =>
    have next : Quotes (if c = '\n' then .code else .line) := by
      split
      · exact code
      · exact line
    rw [blankIn?_cons next (blankIn?_line _) (ih next), utf8_cover]
    split
    · rename_i hc
      rw [show trail c = [] from Text.trail_ascii (by rw [hc]; decide)]
      rfl
    · rfl
  | case8 r ih =>
    have rest := ih code (x ++ [space, space])
    rw [blankIn?] at rest
    rw [blankIn?, Text.utf8_ascii_cons star, Text.utf8_ascii_cons slash, blankBlock?_close,
      Option.bind_some, rest, Text.utf8_ascii_cons blank, Text.utf8_ascii_cons blank,
      List.append_assoc]
    rfl
  | case9 c r hclose ih =>
    have plain : (lead c == '*'.toUInt8 && (trail c ++ utf8 r).head? == some '/'.toUInt8) =
        false := by
      rw [Text.lead_pair star slash, Text.head?_pair hclose]
    rw [blankIn?_cons block (blankIn?_block _ plain) (ih block), utf8_cover]
    rfl

theorem contains_eq_false_cons {c : Char} {r p : Text} (h : Text.contains (c :: r) p = false) :
    Text.startsWith p (c :: r) = false ∧ Text.contains r p = false := by
  rwa [Text.contains, Bool.or_eq_false_iff] at h

theorem blank_eq_self {m : CommentMode} {t : Text} (hline : t.contains "//".toList = false)
    (hblock : t.contains "/*".toList = false) (hm : m = .code ∨ ∃ q, m = .literal q) :
    m.blank t = t := by
  fun_induction CommentMode.blank m t with
  | case1 => rfl
  | case2 r => simp [Text.contains, Text.startsWith, Text.strip?] at hline
  | case3 r => simp [Text.contains, Text.startsWith, Text.strip?] at hblock
  | case4 c r _ _ ih =>
    rw [ih (contains_eq_false_cons hline).2 (contains_eq_false_cons hblock).2]
    split <;> simp
  | case5 q c r ih =>
    have hline := (contains_eq_false_cons (contains_eq_false_cons hline).2).2
    have hblock := (contains_eq_false_cons (contains_eq_false_cons hblock).2).2
    rw [ih hline hblock hm]
  | case6 q c r _ ih =>
    rw [ih (contains_eq_false_cons hline).2 (contains_eq_false_cons hblock).2]
    split <;> simp
  | case7 => simp at hm
  | case8 => simp at hm
  | case9 => simp at hm

@[simp] theorem blankComments?_eq (t : Text) : blankComments? t = some t.blankComments := by
  have code : Quotes .code := fun q h => by cases h
  have blanked := blankIn?_eq code [] t
  rw [List.nil_append, List.length_nil, List.nil_append] at blanked
  rw [blankComments?]
  split
  · rename_i h
    rw [Bool.and_eq_true, Bool.not_eq_true', Bool.not_eq_true'] at h
    rw [Text.blankComments, blank_eq_self h.1 h.2 (.inl rfl)]
  · exact (congrArg (Option.bind · Text.ofUtf8?) blanked).trans (Text.ofUtf8?_utf8 _)

end WebSurface.Checked
