import WebSurface.Declaration.Interface
set_option autoImplicit false

namespace WebSurface

namespace Digest

structure State where
  a : UInt32
  b : UInt32
  c : UInt32
  d : UInt32
  e : UInt32
  deriving DecidableEq, Repr

def State.start : State := ⟨0x67452301, 0xEFCDAB89, 0x98BADCFE, 0x10325476, 0xC3D2E1F0⟩

def State.add (s t : State) : State := ⟨s.a + t.a, s.b + t.b, s.c + t.c, s.d + t.d, s.e + t.e⟩

def rotate (w : UInt32) (n : UInt32) : UInt32 := (w <<< n) ||| (w >>> (32 - n))

def mix (round : Nat) (b c d : UInt32) : UInt32 :=
  if round < 20 then ((b &&& c) ||| (~~~b &&& d)) + 0x5A827999
  else if round < 40 then (b ^^^ c ^^^ d) + 0x6ED9EBA1
  else if round < 60 then ((b &&& c) ||| (b &&& d) ||| (c &&& d)) + 0x8F1BBCDC
  else (b ^^^ c ^^^ d) + 0xCA62C1D6

def State.round (s : State) (w : UInt32 × Nat) : State :=
  ⟨rotate s.a 5 + mix w.2 s.b s.c s.d + s.e + w.1, s.a, rotate s.b 30, s.c, s.d⟩

/-- Adds words to a schedule that is given last word first. -/
def extend : Nat → List UInt32 → List UInt32
  | 0, ws => ws
  | n + 1, ws =>
    extend n (rotate (ws.getD 2 0 ^^^ ws.getD 7 0 ^^^ ws.getD 13 0 ^^^ ws.getD 15 0) 1 :: ws)

def State.block (s : State) (block : List UInt32) : State :=
  s.add ((extend 64 block.reverse).reverse.zipIdx.foldl State.round s)

/-- Four bytes a word, the first of which weighs most; bytes that do not fill a word are dropped. -/
def words : List UInt8 → List UInt32
  | a :: b :: c :: d :: r =>
    (a.toUInt32 <<< 24 ||| b.toUInt32 <<< 16 ||| c.toUInt32 <<< 8 ||| d.toUInt32) :: words r
  | _ => []

def blocks : Nat → List UInt32 → List (List UInt32)
  | 0, _ => []
  | n + 1, ws => ws.take 16 :: blocks n (ws.drop 16)

def padded (message : List UInt8) : List UInt8 :=
  let bits := message.length * 8
  let zeros := (119 - message.length % 64) % 64
  let length := (List.range 8).map fun i => (bits / Nat.pow 256 (7 - i)).toUInt8
  message ++ 0x80 :: List.replicate zeros 0 ++ length

def sha1 (t : Text) : Text :=
  let ws := words (padded (t.flatMap String.utf8EncodeChar))
  let s := (blocks (ws.length / 16) ws).foldl State.block .start
  [s.a, s.b, s.c, s.d, s.e].flatMap fun w => Text.hex 8 w.toNat

end Digest

structure Declarations where
  interfaces : NameTable Text
  aliases : NameTable Text
  deriving DecidableEq, Repr

namespace Declarations

def empty : Declarations := ⟨.empty, .empty⟩

def interface? (d : Declarations) (name : Text) : Option Text := d.interfaces.get? name

def alias? (d : Declarations) (name : Text) : Option Text := d.aliases.get? name

def interfaceNames (d : Declarations) : List Text := (NameSet.ofList d.interfaces.keys).list

def aliasNames (d : Declarations) : List Text := (NameSet.ofList d.aliases.keys).list

/-- Adds a statement under the name that its head declares, unless the name is taken. Statements
that declare neither an interface nor an alias leave no trace. -/
def add (d : Declarations) (statement : Text) : Declarations :=
  match Head.ofText? statement with
  | some ⟨.interface, name, _, _⟩ => { d with interfaces := d.interfaces.putNew (name, statement) }
  | some ⟨.alias, name, _, _⟩ => { d with aliases := d.aliases.putNew (name, statement) }
  | none => d

def ofText (corpus : Text) : Declarations :=
  ((splitStatements corpus.blankComments).map Segment.text).foldl add empty

end Declarations

structure Index where
  key : Text
  /-- the digest of the text of the corpus -/
  fingerprint : Text
  declarations : Declarations
  deriving DecidableEq, Repr

def Index.build (key corpus : Text) : Index := ⟨key, Digest.sha1 corpus, .ofText corpus⟩

def Index.empty (key : Text) : Index := .build key []

end WebSurface
