import WebSurface.Text
set_option autoImplicit false

namespace WebSurface

inductive Value where
  | null
  | flag (b : Bool)
  | text (t : Text)
  | list (items : List Value)
  | table (fields : List (Text × Value))
  /-- a number or a date, of which nothing makes use -/
  | other
  deriving Repr, Inhabited

namespace Value

def text? : Value → Option Text
  | .text t => some t
  | _ => none

def flag? : Value → Option Bool
  | .flag b => some b
  | _ => none

def texts? : Value → Option (List Text)
  | .list items => items.mapM text?
  | _ => none

def optionalText? : Value → Option (Option Text)
  | .null => some none
  | .text t => some (some t)
  | _ => none

def fieldOr? {α : Type} (fields : List (Text × Value)) (name : String) (read : Value → Option α)
    (default : α) : Option α :=
  match fields.lookup name.toList with
  | some v => read v
  | none => some default

end Value

namespace Toml

abbrev Read (α : Type) := Option (α × Text)

def isSpace (c : Char) : Bool := c == ' ' || c == '\t'

def skipSpaces (t : Text) : Text := t.dropWhile isSpace

/-- A character that may stand in a comment or, quotes and backslashes apart, in a string. -/
def isPlain (c : Char) : Bool := c == '\t' || (0x20 ≤ c.toNat && c.toNat != 0x7F)

def newline? : Text → Option Text
  | '\n' :: r => some r
  | '\r' :: '\n' :: r => some r
  | _ => none

def skipComment : Text → Text
  | '#' :: r => r.dropWhile isPlain
  | t => t

def endLine? (t : Text) : Option Text :=
  match skipComment (skipSpaces t) with
  | [] => some []
  | r => newline? r

theorem length_skipSpaces_le (t : Text) : (skipSpaces t).length ≤ t.length :=
  (List.dropWhile_sublist _).length_le

theorem length_skipComment_le (t : Text) : (skipComment t).length ≤ t.length := by
  unfold skipComment
  split
  · exact Nat.le_trans (List.dropWhile_sublist _).length_le (Nat.le_succ _)
  · exact Nat.le_refl _

theorem length_newline?_lt {t r : Text} (h : newline? t = some r) : r.length < t.length := by
  unfold newline? at h
  split at h
  · exact Option.some.inj h ▸ Nat.lt_succ_self _
  · exact Option.some.inj h ▸ Nat.lt_succ_of_lt (Nat.lt_succ_self _)
  · cases h

def skipLines (t : Text) : Text :=
  match _h : newline? (skipComment (skipSpaces t)) with
  | some r => skipLines r
  | none => skipComment (skipSpaces t)
termination_by t.length
decreasing_by
  have h1 := length_newline?_lt _h
  have h2 := length_skipComment_le (skipSpaces t)
  have h3 := length_skipSpaces_le t
  omega

def scalar? (n : Nat) : Option Char := if h : n.isValidChar then some (Char.ofNatAux n h) else none

def isHexDigit (c : Char) : Bool := c.isDigit || "abcdefABCDEF".toList.elem c

def codePoint? (width : Nat) (t : Text) : Read Char :=
  let digits := t.take width
  if digits.length = width && digits.all isHexDigit then
    (scalar? (Text.readDigits 16 digits)).map fun c => (c, t.drop width)
  else none

def escape? : Text → Read Char
  | 'b' :: r => some ('\x08', r)
  | 't' :: r => some ('\t', r)
  | 'n' :: r => some ('\n', r)
  | 'f' :: r => some ('\x0c', r)
  | 'r' :: r => some ('\r', r)
  | '"' :: r => some ('"', r)
  | '\\' :: r => some ('\\', r)
  | 'u' :: r => codePoint? 4 r
  | 'U' :: r => codePoint? 8 r
  | _ => none

theorem length_escape?_lt {t r : Text} {c : Char} (h : escape? t = some (c, r)) :
    r.length < t.length := by
  have code {width : Nat} {s : Text} (h : codePoint? width s = some (c, r)) :
      r.length ≤ s.length := by
    simp only [codePoint?] at h
    split at h
    · obtain ⟨_, -, he⟩ := Option.map_eq_some_iff.1 h
      obtain ⟨-, rfl⟩ := Prod.mk.inj he
      simp
    · simp at h
  unfold escape? at h
  split at h
  case h_8 => exact Nat.lt_succ_of_le (code h)
  case h_9 => exact Nat.lt_succ_of_le (code h)
  all_goals simp_all

def basic? (t : Text) : Read Text :=
  match t with
  | [] => none
  | '"' :: r => some ([], r)
  | '\\' :: r =>
    match _h : escape? r with
    | some (c, rest) => (basic? rest).map fun (s, rest) => (c :: s, rest)
    | none => none
  | c :: r => if isPlain c then (basic? r).map fun (s, rest) => (c :: s, rest) else none
termination_by t.length
decreasing_by
  · have := length_escape?_lt _h
    simp only [List.length_cons]
    omega
  · simp

/-- A string of several lines after its opening quotes. Three quotes end it, of which the last of a
run of up to five count; a backslash at the end of a line takes the white space along. -/
def basicLines? (t : Text) : Read Text :=
  match t with
  | [] => none
  | '"' :: '"' :: '"' :: '"' :: '"' :: r => some (['"', '"'], r)
  | '"' :: '"' :: '"' :: '"' :: r => some (['"'], r)
  | '"' :: '"' :: '"' :: r => some ([], r)
  | '\\' :: r =>
    match _h : newline? (skipSpaces r), _e : escape? r with
    | some rest, _ =>
      basicLines? (rest.dropWhile fun c => isSpace c || c == '\n' || c == '\r')
    | none, some (c, rest) => (basicLines? rest).map fun (s, rest) => (c :: s, rest)
    | none, none => none
  | '\r' :: '\n' :: r => (basicLines? r).map fun (s, rest) => ('\n' :: s, rest)
  | c :: r =>
    if isPlain c || c == '\n' then (basicLines? r).map fun (s, rest) => (c :: s, rest) else none
termination_by t.length
decreasing_by
  · have h1 := length_newline?_lt _h
    have h2 := length_skipSpaces_le r
    have h3 := (List.dropWhile_sublist (l := rest)
      fun c => isSpace c || c == '\n' || c == '\r').length_le
    simp only [List.length_cons]
    omega
  · have := length_escape?_lt _e
    simp only [List.length_cons]
    omega
  · simp only [List.length_cons]
    omega
  · simp

def literal? : Text → Read Text
  | [] => none
  | c :: r =>
    if c == '\x27' then some ([], r)
    else if isPlain c then (literal? r).map fun (s, rest) => (c :: s, rest)
    else none

def literalLines? : Text → Read Text
  | [] => none
  | '\x27' :: '\x27' :: '\x27' :: '\x27' :: '\x27' :: r => some (['\x27', '\x27'], r)
  | '\x27' :: '\x27' :: '\x27' :: '\x27' :: r => some (['\x27'], r)
  | '\x27' :: '\x27' :: '\x27' :: r => some ([], r)
  | '\r' :: '\n' :: r => (literalLines? r).map fun (s, rest) => ('\n' :: s, rest)
  | c :: r =>
    if isPlain c || c == '\n' then (literalLines? r).map fun (s, rest) => (c :: s, rest) else none

/-- A line end right after the opening quotes does not count. -/
def dropNewline (t : Text) : Text := (newline? t).getD t

def quoted? : Text → Read Text
  | '"' :: r => basic? r
  | '\x27' :: r => literal? r
  | _ => none

def string? : Text → Read Text
  | '"' :: '"' :: '"' :: r => basicLines? (dropNewline r)
  | '\x27' :: '\x27' :: '\x27' :: r => literalLines? (dropNewline r)
  | t => quoted? t

def isBareKeyChar (c : Char) : Bool := c.isAlphanum || c == '_' || c == '-'

def keyPart? (t : Text) : Read Text :=
  match quoted? t with
  | some k => some k
  | none =>
    let bare := t.takeWhile isBareKeyChar
    if bare.isEmpty then none else some (bare, t.dropWhile isBareKeyChar)

/-- A key of at most as many parts as the first argument says: its parts up to the last, and the
last. -/
def keyWithin? : Nat → Text → Read (List Text × Text)
  | 0, _ => none
  | n + 1, t =>
    (keyPart? (skipSpaces t)).bind fun (part, rest) =>
      match skipSpaces rest with
      | '.' :: rest =>
        (keyWithin? n rest).map fun ((path, last), rest) => ((part :: path, last), rest)
      | rest => some (([], part), rest)

def key? (t : Text) : Read (List Text × Text) := keyWithin? (t.length + 1) t

def digits? (isDigit : Char → Bool) : Text → Read Text
  | [] => none
  | c :: r =>
    if isDigit c then
      match r with
      | '_' :: r => (digits? isDigit r).map fun (ds, rest) => (c :: ds, rest)
      | r =>
        match digits? isDigit r with
        | some (ds, rest) => some (c :: ds, rest)
        | none => some ([c], r)
    else none

def decimalDigits? (t : Text) : Read Text :=
  match t with
  | '0' :: r => some (['0'], r)
  | t => digits? Char.isDigit t

def sign (t : Text) : Bool × Text :=
  match t with
  | '+' :: r => (false, r)
  | '-' :: r => (true, r)
  | r => (false, r)

def exponent? : Text → Option Text
  | e :: r => if e == 'e' || e == 'E' then (digits? Char.isDigit (sign r).2).map Prod.snd else none
  | [] => none

def float? (t : Text) : Option Text :=
  let unsigned := (sign t).2
  (Text.strip? "inf".toList unsigned).or <| (Text.strip? "nan".toList unsigned).or do
    let (_, rest) ← decimalDigits? unsigned
    match rest with
    | '.' :: rest =>
      let (_, rest) ← digits? Char.isDigit rest
      return (exponent? rest).getD rest
    | rest => exponent? rest

def integer? (t : Text) : Option Text :=
  let within (base : Nat) (r : Read Text) : Option Text :=
    r.bind fun (ds, rest) => if Text.readDigits base ds < Nat.pow 2 63 then some rest else none
  match t with
  | '0' :: 'x' :: r => within 16 (digits? isHexDigit r)
  | '0' :: 'o' :: r => within 8 (digits? (fun c => "01234567".toList.elem c) r)
  | '0' :: 'b' :: r => within 2 (digits? (fun c => c == '0' || c == '1') r)
  | t => do
    let (isNegative, unsigned) := sign t
    let (ds, rest) ← decimalDigits? unsigned
    if Text.readDigits 10 ds < Nat.pow 2 63 + (if isNegative then 1 else 0) then some rest else none

def field? (width low high : Nat) (t : Text) : Read Nat :=
  let ds := t.take width
  let n := Text.readDigits 10 ds
  if ds.length = width && ds.all Char.isDigit && low ≤ n && n ≤ high then some (n, t.drop width)
  else none

def daysIn (year month : Nat) : Nat :=
  if month = 2 then
    if (year % 4 = 0 && year % 100 != 0) || year % 400 = 0 then 29 else 28
  else if [4, 6, 9, 11].elem month then 30
  else 31

def date? (t : Text) : Option Text := do
  let (year, rest) ← field? 4 0 9999 t
  let rest ← Text.strip? ['-'] rest
  let (month, rest) ← field? 2 1 12 rest
  let rest ← Text.strip? ['-'] rest
  let (_, rest) ← field? 2 1 (daysIn year month) rest
  return rest

def time? (t : Text) : Option Text := do
  let (_, rest) ← field? 2 0 23 t
  let rest ← Text.strip? [':'] rest
  let (_, rest) ← field? 2 0 59 rest
  let rest ← Text.strip? [':'] rest
  let (_, rest) ← field? 2 0 60 rest
  match rest with
  | '.' :: d :: r => if d.isDigit then some (r.dropWhile Char.isDigit) else some rest
  | rest => some rest

def offset? (t : Text) : Option Text :=
  match t with
  | 'Z' :: r | 'z' :: r => some r
  | c :: r =>
    if c == '+' || c == '-' then do
      let (_, rest) ← field? 2 0 23 r
      let rest ← Text.strip? [':'] rest
      let (_, rest) ← field? 2 0 59 rest
      return rest
    else some t
  | [] => some []

def moment? (t : Text) : Option Text :=
  match date? t with
  | some rest =>
    match rest with
    | c :: r =>
      if c == 'T' || c == 't' || c == ' ' then
        match time? r with
        | some rest => offset? rest
        | none => if c == ' ' then some rest else none
      else some rest
    | [] => some []
  | none => time? t

def plain? (t : Text) : Read Value :=
  ((moment? t).or ((float? t).or (integer? t))).map fun rest => (.other, rest)

end Toml

end WebSurface
