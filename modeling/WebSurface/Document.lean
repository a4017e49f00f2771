import WebSurface.Text
set_option autoImplicit false

/-!
Written documents: texts, flags, lists and records with their fields in order, as YAML in block
layout or as JSON.

In YAML a text is written plain where it reads back as the same text, and in quotes otherwise: in
single quotes if all its characters are printable, else in double quotes with escapes. A text with a
line feed is written as a literal block where that is possible.
-/

namespace WebSurface

inductive Document where
  | text (t : Text)
  | flag (b : Bool)
  | list (items : List Document)
  | record (fields : List (Text × Document))
  deriving Repr

namespace Document

def field (name : String) (value : Document) : List (Text × Document) := [(name.toList, value)]

def fieldIf (condition : Bool) (name : String) (value : Document) : List (Text × Document) :=
  if condition then field name value else []

def field? {α : Type} (name : String) (value : Option α) (f : α → Document) :
    List (Text × Document) :=
  match value with
  | some a => field name (f a)
  | none => []

def texts (ts : List Text) : Document := .list (ts.map .text)

def indent (n : Nat) : Text := List.replicate n ' '

def flagText (b : Bool) : Text := if b then "true".toList else "false".toList

end Document

namespace Document.Scalar

structure Decimal where
  digits : Text
  exponent : Int
  deriving DecidableEq, Repr

/-- The largest finite number of 53 bits lies below this, and all that lies below rounds to a
finite number. -/
def Decimal.limit : Nat := Nat.pow 2 1024 - Nat.pow 2 970

def Decimal.isFinite (d : Decimal) : Bool :=
  let significant := d.digits.dropWhile (· == '0')
  let magnitude : Int := significant.length + d.exponent
  let value := Text.readDigits 10 significant
  if significant.isEmpty || magnitude < 308 then true
  else if 310 < magnitude then false
  else value * Nat.pow 10 d.exponent.toNat < Decimal.limit * Nat.pow 10 (-d.exponent).toNat

def allDigits (t : Text) : Bool := !t.isEmpty && t.all Char.isDigit

def exponent? (t : Text) : Option Int :=
  match t with
  | [] => some 0
  | e :: rest =>
    if e == 'e' || e == 'E' then
      match rest with
      | '-' :: digits =>
        if allDigits digits then some (-(Text.readDigits 10 digits : Int)) else none
      | '+' :: digits => if allDigits digits then some (Text.readDigits 10 digits) else none
      | digits => if allDigits digits then some (Text.readDigits 10 digits) else none
    else none

def decimal? (t : Text) : Option Decimal :=
  let whole := t.takeWhile Char.isDigit
  let rest := t.dropWhile Char.isDigit
  let (fraction, rest) : Text × Text := match rest with
    | '.' :: r => (r.takeWhile Char.isDigit, r.dropWhile Char.isDigit)
    | r => ([], r)
  if (whole ++ fraction).isEmpty then none
  else (exponent? rest).map fun e => ⟨whole ++ fraction, e - fraction.length⟩

def isHexDigit (c : Char) : Bool := c.isDigit || "abcdefABCDEF".toList.elem c
def isOctalDigit (c : Char) : Bool := "01234567".toList.elem c
def isBinaryDigit (c : Char) : Bool := c == '0' || c == '1'

def isBelow (limit base : Nat) (isDigit : Char → Bool) (t : Text) : Bool :=
  !t.isEmpty && t.all isDigit && Text.readDigits base t < limit

def isBased (limit : Nat) : Text → Bool
  | '0' :: 'x' :: r => isBelow limit 16 isHexDigit r
  | '0' :: 'o' :: r => isBelow limit 8 isOctalDigit r
  | '0' :: 'b' :: r => isBelow limit 2 isBinaryDigit r
  | _ => false

/-- A number in positional, scientific or marked notation. Marked numbers have up to 128 bits, the
sign included; decimal ones have to be finite, unless they are digits with a zero in front. -/
def isNumber (t : Text) : Bool :=
  let (digits, limit) : Text × Nat := match t with
    | '+' :: r => (r, Nat.pow 2 128)
    | '-' :: r => (r, Nat.pow 2 127 + 1)
    | r => (r, Nat.pow 2 128)
  isBased limit digits || (decimal? digits).elim false Decimal.isFinite ||
    (Text.startsWith ['0'] digits && allDigits digits)

def words : List Text :=
  ["", "~", "null", "Null", "NULL", "true", "True", "TRUE", "false", "False", "FALSE", ".inf",
    ".Inf", ".INF", "+.inf", "+.Inf", "+.INF", "-.inf", "-.Inf", "-.INF", ".nan", ".NaN",
    ".NAN"].map String.toList

def isAmbiguous (t : Text) : Bool := words.elem t || isNumber t

def isBreak (c : Char) : Bool := "\n\r\u0085\u2028\u2029".toList.elem c

/-- A character that may stand in a document unescaped; of the control characters only the line
feed. -/
def isPrintable (c : Char) : Bool :=
  let n := c.toNat
  n == 0x0A || (0x20 ≤ n && n ≤ 0x7E) || (0xA0 ≤ n && n != 0xFEFF && n != 0xFFFE && n != 0xFFFF)

def blankNext (t : Text) : Bool :=
  match t with
  | [] => true
  | c :: _ => c == ' ' || c == '\t' || isBreak c

def adjacent (p q : Char → Bool) : Text → Bool
  | c :: d :: r => (p c && q d) || adjacent p q (d :: r)
  | _ => false

/-- A colon before a blank, or a number sign after one, past the first character. -/
def hasInnerMark : Text → Bool
  | c :: d :: r =>
    (d == ':' && blankNext r) || (d == '#' && blankNext [c]) || hasInnerMark (d :: r)
  | _ => false

def startsWithMark (t : Text) : Bool :=
  Text.startsWith "---".toList t || Text.startsWith "...".toList t ||
    match t with
    | [] => false
    | c :: r =>
      "#,[]\x7b\x7d&*!|>'\"%@`".toList.elem c || ("?:-".toList.elem c && blankNext r)

inductive Style where
  | plain
  | singleQuoted
  | doubleQuoted
  | literal
  deriving DecidableEq, Repr

def allowsSingle (t : Text) : Bool :=
  t.all isPrintable && !adjacent isBreak (· == ' ') t && !adjacent (· == ' ') isBreak t

def allowsPlain (t : Text) : Bool :=
  let isEdge (c : Char) : Bool := c == ' ' || isBreak c
  allowsSingle t && !t.any isBreak && !startsWithMark t && !hasInnerMark t &&
    !t.head?.elim false isEdge && !t.getLast?.elim false isEdge

def allowsLiteral (t : Text) : Bool :=
  t.all isPrintable && !adjacent (· == ' ') isBreak t && t.getLast? != some ' '

def styleOf (t : Text) : Style :=
  if t.elem '\n' then if allowsLiteral t then .literal else .doubleQuoted
  else if !isAmbiguous t && allowsPlain t then .plain
  else if allowsSingle t then .singleQuoted
  else .doubleQuoted

/-- The text line by line: after a line break each line begins with `level` spaces. -/
def layOut (level : Nat) (escape : Char → Text) (fresh : Bool) : Text → Text
  | [] => []
  | c :: r =>
    if isBreak c then c :: layOut level escape true r
    else (if fresh then indent level else []) ++ escape c ++ layOut level escape false r

def escapeDouble (c : Char) : Text :=
  match c with
  | '\x00' => "\\0".toList
  | '\x07' => "\\a".toList
  | '\x08' => "\\b".toList
  | '\t' => "\\t".toList
  | '\n' => "\\n".toList
  | '\x0b' => "\\v".toList
  | '\x0c' => "\\f".toList
  | '\r' => "\\r".toList
  | '\x1b' => "\\e".toList
  | '"' => "\\\"".toList
  | '\\' => "\\\\".toList
  | '\u0085' => "\\N".toList
  | '\u2028' => "\\L".toList
  | '\u2029' => "\\P".toList
  | c =>
    if isPrintable c then [c]
    else
      let n := c.toNat
      let (mark, width) := if n ≤ 0xFF then ('x', 2) else if n ≤ 0xFFFF then ('u', 4) else ('U', 8)
      '\\' :: mark :: (Text.hex width n).map Char.toUpper

/-- What a literal block says about itself: its indentation if it begins with a blank or a line
break, and whether the line breaks at its end are all kept, or not even one is there. -/
def literalHints (t : Text) : Text :=
  let indentation := if t.head?.elim false fun c => c == ' ' || isBreak c then ['2'] else []
  let chomping := match t.reverse.takeWhile isBreak with
    | [] => ['-']
    | [_] => if t.length == 1 then ['+'] else []
    | _ => ['+']
  indentation ++ chomping

def write (level : Nat) (t : Text) : Text :=
  match styleOf t with
  | .plain => t ++ ['\n']
  | .singleQuoted =>
    let doubled (c : Char) : Text := if c == '\x27' then [c, c] else [c]
    let closing := if t.getLast?.elim false isBreak then indent level else []
    ['\x27'] ++ layOut level doubled false t ++ closing ++ "'\n".toList
  | .doubleQuoted => ['"'] ++ t.flatMap escapeDouble ++ "\"\n".toList
  | .literal =>
    let ending := if t.getLast?.elim false isBreak then [] else ['\n']
    ['|'] ++ literalHints t ++ ['\n'] ++ layOut level (fun c => [c]) true t ++ ending

end Document.Scalar

namespace Document

mutual

/-- A list or a record from the column `level` on, at which the text before it ends; anything else
to the end of its line. -/
def yamlAt (level : Nat) : Document → Text
  | .text t => Scalar.write (level + 2) t
  | .flag b => flagText b ++ ['\n']
  | .list [] => "[]\n".toList
  | .list items => Text.join (indent level) (yamlItems level items)
  | .record [] => "\x7b\x7d\n".toList
  | .record fields => Text.join (indent level) (yamlFields level fields)

def yamlItems (level : Nat) : List Document → List Text
  | [] => []
  | .text t :: ds => ("- ".toList ++ Scalar.write (level + 2) t) :: yamlItems level ds
  | d :: ds => ("- ".toList ++ yamlAt (level + 2) d) :: yamlItems level ds

def yamlFields (level : Nat) : List (Text × Document) → List Text
  | [] => []
  | f :: fs => yamlField level f :: yamlFields level fs

def yamlField (level : Nat) : Text × Document → Text
  | (name, d) =>
    let value := match d with
      | .list (_ :: _) => '\n' :: indent level ++ yamlAt level d
      | .record (_ :: _) => '\n' :: indent (level + 2) ++ yamlAt (level + 2) d
      | _ => ' ' :: yamlAt level d
    name ++ ":".toList ++ value

end

def yaml (d : Document) : Text := yamlAt 0 d

def escapeJson (c : Char) : Text :=
  match c with
  | '"' => "\\\"".toList
  | '\\' => "\\\\".toList
  | '\n' => "\\n".toList
  | '\r' => "\\r".toList
  | '\t' => "\\t".toList
  | '\x08' => "\\b".toList
  | '\x0c' => "\\f".toList
  | c => if c.toNat < 0x20 then "\\u".toList ++ Text.hex 4 c.toNat else [c]

def quoteJson (t : Text) : Text := ['"'] ++ t.flatMap escapeJson ++ ['"']

def bracketed (level : Nat) (opening closing : Char) (items : List Text) : Text :=
  match items with
  | [] => [opening, closing]
  | items =>
    let line := '\n' :: indent (2 * (level + 1))
    [opening] ++ line ++ Text.join (',' :: line) items ++ '\n' :: indent (2 * level) ++ [closing]

mutual

def jsonAt (level : Nat) : Document → Text
  | .text t => quoteJson t
  | .flag b => flagText b
  | .list items => bracketed level '[' ']' (jsonItems (level + 1) items)
  | .record fields => bracketed level '{' '}' (jsonFields (level + 1) fields)

def jsonItems (level : Nat) : List Document → List Text
  | [] => []
  | d :: ds => jsonAt level d :: jsonItems level ds

def jsonFields (level : Nat) : List (Text × Document) → List Text
  | [] => []
  | f :: fs => jsonField level f :: jsonFields level fs

def jsonField (level : Nat) : Text × Document → Text
  | (name, d) => quoteJson name ++ ": ".toList ++ jsonAt level d

end

def json (d : Document) : Text := jsonAt 0 d

end Document

end WebSurface
