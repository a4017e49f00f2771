import WebSurface.Proofs.ByteLoops
set_option autoImplicit false

namespace WebSurface

namespace Checked

open Text (utf8 bytes lead trail)

def drop? (bs : List UInt8) (i : Nat) : Option (List UInt8) :=
  if i ≤ bs.length then some (bs.drop i) else none

inductive Entry where
  | skipped
  | token (k : Token)
  | fault (f : Fault)
  deriving DecidableEq, Repr

def unexpected? (t : Text) (i : Nat) : Option (Entry × Nat) := do
  let rest ← from? t i
  let c := rest.head?.getD '\uFFFD'
  let place ← position? t i
  let span : Span := ⟨i, i + c.utf8Size⟩
  return (.fault ⟨.unexpected c, span, place⟩, i + max span.size 1)

/-- A fault after which nothing more is read. -/
def open? (cause : FaultCause) (t : Text) (i : Nat) : Option (Entry × Nat) := do
  let place ← position? t i
  return (.fault ⟨cause, ⟨i, bytes t⟩, place⟩, bytes t)

def literal? (t : Text) (i : Nat) (quote : UInt8) : Option (Entry × Nat) := do
  let stop ← closing? quote (utf8 t) (i + 1)
  if bytes t ≤ stop then open? .unterminatedString t i
  else
    let raw ← t.slice? ⟨i + 1, stop⟩
    return (.token ⟨.literal (.ofUInt8 quote) raw, ⟨i, stop + 1⟩⟩, stop + 1)

def number? (t : Text) (i : Nat) : Option (Entry × Nat) := do
  let stop ← skip? (fun b => Lexeme.isNumberChar (.ofUInt8 b)) (utf8 t) (i + 1)
  let text ← t.slice? ⟨i, stop⟩
  return (.token ⟨.number text, ⟨i, stop⟩⟩, stop)

def name? (t : Text) (i : Nat) : Option (Entry × Nat) := do
  let stop ← nameEnd? t i
  if i < stop then
    let text ← t.slice? ⟨i, stop⟩
    return (.token ⟨.name text, ⟨i, stop⟩⟩, stop)
  else unexpected? t i

def dots? (t : Text) (i : Nat) : Option (Entry × Nat) := do
  let rest ← drop? (utf8 t) i
  let (sign, stop) :=
    if (utf8 "...".toList).isPrefixOf rest then (Sign.ellipsis, i + 3) else (.dot, i + 1)
  return (.token ⟨.sign sign, ⟨i, stop⟩⟩, stop)

def startsName (b : UInt8) : Bool :=
  (Char.ofUInt8 b).isAlpha || b == '_'.toUInt8 || b == '$'.toUInt8 || 128 ≤ b.toNat

def word? (t : Text) (i : Nat) (b : UInt8) : Option (Entry × Nat) :=
  let c := Char.ofUInt8 b
  let digitAfter : Bool := (utf8 t)[i + 1]?.any fun d => (Char.ofUInt8 d).isDigit
  if isQuote c then literal? t i b
  else if c.isDigit || (b == '-'.toUInt8 && digitAfter) then number? t i
  else if startsName b then name? t i
  else unexpected? t i

def read? (t : Text) (i : Nat) (b : UInt8) : Option (Entry × Nat) :=
  let bs := utf8 t
  let c := Char.ofUInt8 b
  let before (d : Char) : Bool := bs[i + 1]? == some d.toUInt8
  if Lexeme.isSeparator c then some (.skipped, i + 1)
  else if b == '/'.toUInt8 && before '/' then do
    let stop ← skip? (· != '\n'.toUInt8) bs i
    return (.skipped, stop)
  else if b == '/'.toUInt8 && before '*' then
    match commentEnd bs (i + 2) with
    | some stop => some (.skipped, stop)
    | none => open? .unterminatedComment t i
  else if b == '.'.toUInt8 then dots? t i
  else if b == '='.toUInt8 && before '>' then some (.token ⟨.sign .arrow, ⟨i, i + 2⟩⟩, i + 2)
  else
    match Sign.ofChar? c with
    | some s => some (.token ⟨.sign s, ⟨i, i + 1⟩⟩, i + 1)
    | none => word? t i b

end Checked

open Checked in
def Text.entries? (t : Text) (i : Nat) : Option (List Entry) :=
  match (utf8 t)[i]? with
  | none => some []
  | some b => do
    let (entry, stop) ← read? t i b
    let entries ← t |>.entries? stop
    return entry :: entries
partial_fixpoint

namespace Checked

open Text (utf8 bytes lead trail entries?)

def Entry.token? : Entry → Option Token
  | .token k => some k
  | _ => none

def Entry.fault? : Entry → Option Fault
  | .fault f => some f
  | _ => none

def tokenize? (t : Text) : Option (Except (List Fault) (List Token)) := do
  let entries ← entries? t 0
  let tokens := entries.filterMap Entry.token? ++ [⟨.eof, ⟨bytes t, bytes t⟩⟩]
  let faults := entries.filterMap Entry.fault?
  return if faults.isEmpty then .ok tokens else .error faults

/-! ### What is read -/

theorem isPrefixOf_utf8 {p : Text} (hp : ∀ d ∈ p, d.toNat < 128) (t : Text) :
    (utf8 p).isPrefixOf (utf8 t) = p.isPrefixOf t := by
  induction p generalizing t with
  | nil => simp
  | cons d p ih =>
    obtain ⟨hd, hp⟩ := List.forall_mem_cons.1 hp
    cases t with
    | nil => rw [Text.utf8_ascii_cons hd]; rfl
    | cons c r =>
      rw [Text.utf8_ascii_cons hd, Text.utf8_cons, List.isPrefixOf, List.isPrefixOf,
        BEq.comm (a := d.toUInt8), Text.lead_beq hd, BEq.comm (a := d)]
      by_cases hc : c = d
      · rw [Text.trail_ascii (hc ▸ hd), List.nil_append, ih hp]
      · rw [beq_false_of_ne hc, Bool.false_and, Bool.false_and]

namespace Entry

/-- What becomes of a lexeme that stands in a text at `s`. -/
def ofLexeme (t : Text) (s : Span) : Lexeme → Entry
  | .blank _ => .skipped
  | .token kind => .token ⟨kind, s⟩
  | .fault cause _ => .fault ⟨cause, s, .ofOffset t s.start⟩

theorem token?_ofLexeme (t : Text) (s : Span) (l : Lexeme) :
    (ofLexeme t s l).token? = Token.ofLexeme? (s, l) := by
  cases l <;> rfl

theorem fault?_ofLexeme (t : Text) (s : Span) (l : Lexeme) :
    (ofLexeme t s l).fault? = Token.faultOfLexeme? t (s, l) := by
  cases l <;> rfl

end Entry

def lexeme (t : Text) (i : Nat) (l : Lexeme) : Entry × Nat :=
  let stop := i + bytes l.text
  (.ofLexeme t ⟨i, stop⟩ l, stop)

section Reading

variable (a r : Text) {c : Char}

theorem open?_eq (cause : FaultCause) :
    open? cause (a ++ r) (bytes a) = some (lexeme (a ++ r) (bytes a) (.fault cause r)) := by
  simp [open?, lexeme, Entry.ofLexeme, Lexeme.text]

theorem unexpected?_eq : unexpected? (a ++ c :: r) (bytes a) =
    some (lexeme (a ++ c :: r) (bytes a) (.fault (.unexpected c) [c])) := by
  have size : max c.utf8Size 1 = c.utf8Size := Nat.max_eq_left c.utf8Size_pos
  simp [unexpected?, lexeme, Entry.ofLexeme, Lexeme.text, Span.size, size]

theorem slice?_takeWhile (p : Char → Bool) :
    (a ++ c :: r).slice? ⟨bytes a, bytes a + bytes (c :: r.takeWhile p)⟩ =
      some (c :: r.takeWhile p) := by
  have slice := slice?_between a (c :: r.takeWhile p) (r.dropWhile p)
  rwa [List.append_assoc, List.cons_append, List.takeWhile_append_dropWhile,
    Text.bytes_append] at slice

theorem closes_quote (hc : isQuote c) : match Lexeme.closeLiteral? c r with
    | some (raw, _) => closing? c.toUInt8 (utf8 (a ++ c :: r)) (bytes a + 1) =
        some (bytes a + 1 + bytes raw)
    | none => ∃ stop, closing? c.toUInt8 (utf8 (a ++ c :: r)) (bytes a + 1) = some stop ∧
        bytes (a ++ c :: r) ≤ stop := by
  have found := closing?_eq hc (utf8 (a ++ [c])) r
  have size : bytes (a ++ [c]) = bytes a + 1 := by
    rw [Text.bytes_append, Text.bytes_cons, Text.utf8Size_ascii (onlyAscii_isQuote c hc)]
    rfl
  unfold Closes at found
  rwa [← Text.utf8_append, Text.length_utf8, Text.length_utf8, size, List.append_assoc] at found

theorem literal?_closed (hc : isQuote c) {raw rest : Text}
    (hr : Lexeme.closeLiteral? c r = some (raw, rest)) :
    literal? (a ++ c :: r) (bytes a) c.toUInt8 =
      some (lexeme (a ++ c :: r) (bytes a) (.token (.literal c raw))) := by
  have ascii := onlyAscii_isQuote c hc
  have size := Text.utf8Size_ascii ascii
  have found := closes_quote a r hc
  rw [hr] at found
  obtain rfl := Lexeme.closeLiteral?_append hr
  have slice := slice?_between (a ++ [c]) raw (c :: rest)
  have inside : ¬bytes (a ++ c :: (raw ++ c :: rest)) ≤ bytes a + 1 + bytes raw := by
    simp [size]
    omega
  simp only [List.append_assoc, List.cons_append, List.nil_append, Text.bytes_append,
    Text.bytes_cons, Text.bytes_nil, size, Nat.add_zero, ← Nat.add_assoc] at slice
  rw [literal?]
  simp only [Option.bind_eq_bind]
  rw [found, Option.bind_some, if_neg inside, slice, Text.ofUInt8_toUInt8 ascii]
  have stop : bytes a + 1 + bytes raw + 1 = bytes a + bytes (c :: raw ++ [c]) := by
    simp [size]
    omega
  rw [stop]
  rfl

theorem literal?_open (hc : isQuote c) (hr : Lexeme.closeLiteral? c r = none) :
    literal? (a ++ c :: r) (bytes a) c.toUInt8 =
      some (lexeme (a ++ c :: r) (bytes a) (.fault .unterminatedString (c :: r))) := by
  have found := closes_quote a r hc
  rw [hr] at found
  obtain ⟨stop, hstop, hle⟩ := found
  rw [literal?]
  simp only [Option.bind_eq_bind]
  rw [hstop, Option.bind_some, if_pos hle, open?_eq]

theorem onlyAscii_isAlphanum : OnlyAscii Char.isAlphanum := by
  intro c h
  delta Char.isAlphanum Char.isAlpha Char.isUpper Char.isLower Char.isDigit at h
  simp [UInt32.le_iff_toNat_le] at h
  omega

theorem onlyAscii_isDigit : OnlyAscii Char.isDigit := fun c h =>
  onlyAscii_isAlphanum c (by simp [Char.isAlphanum, h])

theorem onlyAscii_isNumberChar : OnlyAscii Lexeme.isNumberChar := by
  intro c h
  rcases Bool.or_eq_true_iff.1 h with h | h
  · exact onlyAscii_isAlphanum c h
  · exact onlyAscii_beq (by decide) c h

theorem number?_eq (hc : c.toNat < 128) : number? (a ++ c :: r) (bytes a) =
    some (lexeme (a ++ c :: r) (bytes a)
      (.token (.number (c :: r.takeWhile Lexeme.isNumberChar)))) := by
  have bare : ∀ c, Lexeme.isNumberChar c → ∀ b ∈ trail c, Lexeme.isNumberChar (.ofUInt8 b) := by
    intro c h b hb
    rw [Text.trail_ascii (onlyAscii_isNumberChar c h)] at hb
    cases hb
  have loop := skip?_text (p := fun b => Lexeme.isNumberChar (.ofUInt8 b))
    onlyAscii_isNumberChar.lead bare (a ++ [c]) r
  have slice := slice?_takeWhile a r (c := c) Lexeme.isNumberChar
  have size := Text.utf8Size_ascii hc
  simp only [List.append_assoc, List.singleton_append, Text.bytes_append, Text.bytes_cons,
    Text.bytes_nil, size, Nat.add_zero, ← Nat.add_assoc] at loop slice
  rw [number?]
  simp only [Option.bind_eq_bind]
  rw [loop, Option.bind_some, slice]
  simp only [lexeme, Lexeme.text, TokenKind.spelling, Text.bytes_cons, size, ← Nat.add_assoc]
  rfl

theorem name?_eq (hc : Text.isNameChar c) : name? (a ++ c :: r) (bytes a) =
    some (lexeme (a ++ c :: r) (bytes a)
      (.token (.name (c :: r.takeWhile Text.isNameChar)))) := by
  have size : 0 < bytes (c :: r.takeWhile Text.isNameChar) := Text.bytes_pos (List.cons_ne_nil _ _)
  rw [name?, nameEnd?_eq, List.takeWhile_cons, if_pos hc]
  simp only [Option.bind_eq_bind, Option.bind_some, slice?_takeWhile]
  rw [if_pos (by omega)]
  rfl

theorem name?_of_not (hc : Text.isNameChar c = false) : name? (a ++ c :: r) (bytes a) =
    some (lexeme (a ++ c :: r) (bytes a) (.fault (.unexpected c) [c])) := by
  rw [name?, nameEnd?_eq, List.takeWhile_cons, hc]
  simp [unexpected?_eq]

theorem dots?_eq : dots? (a ++ '.' :: r) (bytes a) =
    some (lexeme (a ++ '.' :: r) (bytes a)
      (.token (.sign (if ['.', '.'].isPrefixOf r then .ellipsis else .dot)))) := by
  have drop : drop? (utf8 (a ++ '.' :: r)) (bytes a) = some (utf8 ('.' :: r)) := by
    rw [drop?, Text.drop_utf8, if_pos (by simp)]
  have three : (utf8 "...".toList).isPrefixOf (utf8 ('.' :: r)) = ['.', '.'].isPrefixOf r :=
    isPrefixOf_utf8 (by simp) _
  rw [dots?, drop]
  simp only [Option.bind_eq_bind, Option.bind_some, three]
  split <;> rfl

theorem commentEnd_eq : commentEnd (utf8 (a ++ '/' :: '*' :: r)) (bytes a + 2) =
    (Lexeme.closeComment? r).map fun p => bytes a + bytes ('/' :: '*' :: p.1) := by
  have mark (t : Text) : bytes ('/' :: '*' :: t) = 2 + bytes t := Text.bytes_append ['/', '*'] t
  have size : bytes (a ++ ['/', '*']) = bytes a + 2 := Text.bytes_append _ _
  have text : a ++ '/' :: '*' :: r = a ++ ['/', '*'] ++ r := by simp
  have found := congrArg (Option.map (bytes a + 2 + ·)) (beforeMark_eq r)
  simp only [Option.map_map, Function.comp_def, Nat.add_assoc] at found
  rw [text, ← size, commentEnd, Text.drop_utf8, Text.length_utf8, Text.bytes_append (_ ++ _),
    if_pos (Nat.le_add_right _ _), size]
  simp only [Nat.add_assoc, mark]
  exact found

end Reading

theorem ascii_of_ofChar? {c : Char} {s : Sign} (h : Sign.ofChar? c = some s) :
    c.toNat < 128 := by
  unfold Sign.ofChar? at h
  split at h <;> first | decide | cases h

theorem ofChar?_lead (c : Char) : Sign.ofChar? (.ofUInt8 (lead c)) = Sign.ofChar? c := by
  have wide {c : Char} (hc : 128 ≤ c.toNat) : Sign.ofChar? c = none :=
    Option.eq_none_iff_forall_ne_some.2 fun s h => Nat.not_le_of_lt (ascii_of_ofChar? h) hc
  by_cases hc : c.toNat < 128
  · rw [Text.lead_ascii hc, Text.ofUInt8_toUInt8 hc]
  · have := Text.lead_wide (Nat.le_of_not_lt hc)
    rw [wide (Nat.le_of_not_lt hc), wide (by rw [Text.toNat_ofUInt8]; omega)]

theorem startsName_lead {c : Char} (h : c.isDigit = false) (hc : Text.isNameChar c) :
    startsName (lead c) := by
  by_cases wide : 128 ≤ c.toNat
  · have := Text.lead_wide wide
    simp [startsName]
    omega
  · have ascii := Nat.lt_of_not_le wide
    have plain : (c.isAlpha || c == '_' || c == '$') = true := by
      simpa [Text.isNameChar, Text.isAlphanumeric, Char.isAlphanum, h, wide] using hc
    rw [startsName, Text.lead_beq (by decide), Text.lead_beq (by decide), Text.lead_ascii ascii,
      Text.ofUInt8_toUInt8 ascii, plain]
    rfl

theorem startsNumber_lead (c : Char) (r : Text) :
    (c.isDigit || (lead c == '-'.toUInt8 &&
      (trail c ++ utf8 r).head?.any fun d => (Char.ofUInt8 d).isDigit)) =
        Lexeme.startsNumber c r := by
  rw [Text.lead_beq (by decide), Lexeme.startsNumber]
  by_cases hc : c = '-'
  · rw [Text.trail_ascii (hc ▸ by decide), List.nil_append]
    cases r with
    | nil => rfl
    | cons d r => simp [Text.utf8_cons, onlyAscii_isDigit.lead]
  · rw [beq_false_of_ne hc, Bool.false_and, Bool.false_and]

/-- What begins a string, a number or a name begins neither a comment nor a sign. -/
theorem plain_of_word {c : Char} {r : Text}
    (h : isQuote c ∨ Lexeme.startsNumber c r ∨ Text.isNameChar c) :
    Sign.ofChar? c = none ∧ c ≠ '/' ∧ c ≠ '.' ∧ c ≠ '=' := by
  have slash := Lexeme.not_isNameChar_slash
  have none_sign : Sign.ofChar? c = none := by
    cases hs : Sign.ofChar? c with
    | none => rfl
    | some s =>
      have plain := Lexeme.plain_of_ofChar? hs
      simp only [Bool.or_eq_false_iff] at plain
      simp [Lexeme.startsNumber, plain] at h
  refine ⟨none_sign, ?_, ?_, ?_⟩
  · rintro rfl
    rcases h with h | h | h
    · cases h
    · cases h
    · rw [slash] at h
      cases h
  · rintro rfl
    cases none_sign
  · rintro rfl
    cases none_sign

theorem word?_lead (a : Text) (c : Char) (r : Text) :
    word? (a ++ c :: r) (bytes a) (lead c) =
      if isQuote c then literal? (a ++ c :: r) (bytes a) (lead c)
      else if Lexeme.startsNumber c r then number? (a ++ c :: r) (bytes a)
      else if startsName (lead c) then name? (a ++ c :: r) (bytes a)
      else unexpected? (a ++ c :: r) (bytes a) := by
  rw [word?]
  simp only [onlyAscii_isQuote.lead, onlyAscii_isDigit.lead, Text.getElem?_utf8_succ,
    startsNumber_lead]

theorem ascii_of_startsNumber {c : Char} {r : Text} (h : Lexeme.startsNumber c r) :
    c.toNat < 128 := by
  rcases Bool.or_eq_true_iff.1 h with h | h
  · exact onlyAscii_isDigit c h
  · exact onlyAscii_beq (by decide) c (Bool.and_eq_true_iff.1 h).1

theorem lead_bne_newline (c : Char) : (lead c != '\n'.toUInt8) = (c != '\n') := by
  rw [bne, Text.lead_beq (by decide), bne]

theorem trail_bne_newline (c : Char) (_ : c != '\n') :
    ∀ b ∈ trail c, (b != '\n'.toUInt8) = true := by
  intro b hb
  rw [bne, Text.trail_beq (by decide) (Text.isTrail_of_mem_trail c b hb)]
  rfl

/-- The lead of a character and the byte after it decide as the characters do. -/
theorem read?_lead (a : Text) (c : Char) (r : Text) :
    read? (a ++ c :: r) (bytes a) (lead c) =
      if Lexeme.isSeparator c then some (.skipped, bytes a + 1)
      else if c == '/' && r.head? == some '/' then do
        let stop ← skip? (· != '\n'.toUInt8) (utf8 (a ++ c :: r)) (bytes a)
        return (.skipped, stop)
      else if c == '/' && r.head? == some '*' then
        match commentEnd (utf8 (a ++ c :: r)) (bytes a + 2) with
        | some stop => some (.skipped, stop)
        | none => open? .unterminatedComment (a ++ c :: r) (bytes a)
      else if c == '.' then dots? (a ++ c :: r) (bytes a)
      else if c == '=' && r.head? == some '>' then
        some (.token ⟨.sign .arrow, ⟨bytes a, bytes a + 2⟩⟩, bytes a + 2)
      else
        match Sign.ofChar? c with
        | some s => some (.token ⟨.sign s, ⟨bytes a, bytes a + 1⟩⟩, bytes a + 1)
        | none => word? (a ++ c :: r) (bytes a) (lead c) := by
  have separator : OnlyAscii Lexeme.isSeparator := onlyAscii_elem (by simp)
  have slash : '/'.toNat < 128 := by decide
  rw [read?]
  simp only [separator.lead, ofChar?_lead, Text.getElem?_utf8_succ, Text.lead_pair slash slash,
    Text.lead_pair slash (show '*'.toNat < 128 by decide),
    Text.lead_pair (show '='.toNat < 128 by decide) (show '>'.toNat < 128 by decide),
    Text.lead_beq (show '.'.toNat < 128 by decide)]

theorem read?_word (a : Text) {c : Char} {r : Text} (hsep : ¬Lexeme.isSeparator c)
    (h : isQuote c ∨ Lexeme.startsNumber c r ∨ Text.isNameChar c) :
    read? (a ++ c :: r) (bytes a) (lead c) = word? (a ++ c :: r) (bytes a) (lead c) := by
  obtain ⟨sign, slash, dot, equals⟩ := plain_of_word h
  simp only [read?_lead, hsep, sign, beq_false_of_ne slash, beq_false_of_ne dot,
    beq_false_of_ne equals, Bool.false_and, Bool.false_eq_true, if_false]

theorem read?_eq (a : Text) (c : Char) (r : Text) :
    read? (a ++ c :: r) (bytes a) (lead c) =
      some (lexeme (a ++ c :: r) (bytes a) (Lexeme.next c r).1) := by
  -- One case for each way to read a lexeme; the bytes decide in the same order.
  fun_cases Lexeme.next c r with
  | case1 c r h =>
    rw [read?_lead, if_pos h]
    rcases Text.eq_of_isSeparator h with rfl | rfl | rfl | rfl <;> rfl
  | case2 c r hsep hquote raw rest h =>
    rw [read?_word a hsep (.inl hquote), word?_lead, if_pos hquote,
      Text.lead_ascii (onlyAscii_isQuote c hquote), literal?_closed a r hquote h]
  | case3 c r hsep hquote h =>
    rw [read?_word a hsep (.inl hquote), word?_lead, if_pos hquote,
      Text.lead_ascii (onlyAscii_isQuote c hquote), literal?_open a r hquote h]
  | case4 c r hsep hquote h =>
    rw [read?_word a hsep (.inr (.inl h)), word?_lead, if_neg hquote, if_pos h,
      number?_eq a r (ascii_of_startsNumber h)]
  | case5 c r hsep hquote hnumber h =>
    have starts := startsName_lead (Lexeme.isDigit_eq_false hnumber) h
    rw [read?_word a hsep (.inr (.inr h)), word?_lead, if_neg hquote, if_neg hnumber,
      if_pos starts, name?_eq a r h]
  | case6 s hsep =>
    have line := skip?_text lead_bne_newline trail_bne_newline a ('/' :: '/' :: s)
    rw [read?_lead, if_neg hsep, if_pos (by simp), line]
    rfl
  | case7 s body rest h hsep =>
    rw [read?_lead, if_neg hsep, if_neg (by simp), if_pos (by simp), commentEnd_eq, h]
    rfl
  | case8 s h hsep =>
    rw [read?_lead, if_neg hsep, if_neg (by simp), if_pos (by simp), commentEnd_eq, h,
      Option.map_none]
    exact open?_eq a _ _
  | case9 s hsep =>
    rw [read?_lead, if_neg hsep, if_neg (by simp), if_neg (by simp), if_pos (by simp), dots?_eq]
    rfl
  | case10 s hsep =>
    rw [read?_lead, if_neg hsep, if_neg (by simp), if_neg (by simp), if_neg (by simp),
      if_pos (by simp)]
    rfl
  | case11 c r hline hblock hdots harrow sign h hsep =>
    rw [read?_lead, if_neg hsep, Text.head?_pair hline, Text.head?_pair hblock,
      Text.head?_pair harrow, if_neg Bool.false_ne_true, if_neg Bool.false_ne_true,
      if_neg Bool.false_ne_true, h]
    -- A dot is looked at once more, for the two that may follow it.
    have spelling := Sign.spelling_of_ofChar? h
    split
    · rename_i hc
      obtain rfl := beq_iff_eq.1 hc
      have few : ['.', '.'].isPrefixOf r = false := by
        rw [Bool.eq_false_iff, ne_eq, List.isPrefixOf_iff_prefix]
        rintro ⟨s, rfl⟩
        exact hdots s rfl rfl
      cases h
      rw [dots?_eq, few]
      rfl
    · have size := Text.utf8Size_ascii (ascii_of_ofChar? h)
      simp only [lexeme, Lexeme.text, TokenKind.spelling, spelling, Text.bytes_cons, size]
      rfl
  | case12 c r hline hblock hdots harrow h hsep hquote hname hnumber =>
    -- No lexeme begins here. The character is no dot, since a dot is a sign.
    have dot : (c == '.') = false := by
      rw [beq_eq_false_iff_ne]
      rintro rfl
      cases h
    rw [read?_lead, if_neg hsep, Text.head?_pair hline, Text.head?_pair hblock,
      Text.head?_pair harrow, dot, if_neg Bool.false_ne_true, if_neg Bool.false_ne_true,
      if_neg Bool.false_ne_true, if_neg Bool.false_ne_true, h]
    refine (word?_lead a c r).trans ?_
    rw [if_neg hquote, if_neg hnumber]
    split
    · exact name?_of_not a r (Bool.eq_false_iff.2 hname)
    · exact unexpected?_eq a r

theorem entries?_eq (a t : Text) : entries? (a ++ t) (bytes a) =
    some ((Lexeme.place (bytes a) (Lexeme.ofText t)).map fun p => .ofLexeme (a ++ t) p.1 p.2) := by
  fun_induction Lexeme.ofText t generalizing a with
  | case1 =>
    have done : (utf8 (a ++ []))[bytes a]? = none :=
      List.getElem?_eq_none (by simp)
    rw [entries?, done]
    rfl
  | case2 c r ih =>
    have rest := ih (a ++ (Lexeme.next c r).1.text)
    rw [List.append_assoc, Lexeme.text_next, Text.bytes_append] at rest
    rw [entries?, Text.getElem?_utf8]
    simp only [Option.bind_eq_bind, read?_eq, Option.bind_some, lexeme, rest]
    rfl

/-- Every token of a text is read within the text and cut at boundaries, and the loop ends. -/
@[simp] theorem tokenize?_eq (t : Text) : tokenize? t = some (Token.tokenize t) := by
  have entries := entries?_eq [] t
  rw [List.nil_append, Text.bytes_nil] at entries
  rw [tokenize?, entries]
  simp only [Option.bind_eq_bind, Option.bind_some, List.filterMap_map, Function.comp_def,
    Entry.token?_ofLexeme, Entry.fault?_ofLexeme, Option.pure_def, Option.some.injEq,
    Token.tokenize]
  cases h : (Lexeme.place 0 (Lexeme.ofText t)).filterMap (Token.faultOfLexeme? t) with
  | nil => rfl
  | cons f faults => rfl

end Checked

end WebSurface
