import WebSurface.Proofs.NormalTokens
set_option autoImplicit false

/-!
Types as trees, and the texts in which they are written.

A type is a keyword, a literal or a name, or it is made of smaller types (`TypeTree`). Its tokens
follow from the tree, and any white space that the tokenizer skips may stand around them (`Spells`).
However much of it there is, the text is read as the tokens that it was written with
(`Spells.kinds_eq`): no token of a type can grow into the one after it (`TypeTree.ends_tokens`).
-/

namespace WebSurface

/-- The token is a name or a number: without white space between them two of these become one. -/
def TokenKind.isAlphanumeric : TokenKind → Bool
  | .name _ => true
  | .number _ => true
  | _ => false

/-- The second token, right after the first, is not read as a part of it, unless both are
alphanumeric. -/
def TokenKind.Precedes : TokenKind → TokenKind → Prop
  | .number _, k => k ≠ .sign .dot ∧ k ≠ .sign .ellipsis
  | .sign .dot, k => k ≠ .sign .dot ∧ k ≠ .sign .ellipsis
  | .sign .equals, _ => False
  | _, _ => True

/-- The text consists of the tokens, in their order, and of white space, which stands at least
between two of them that are alphanumeric. -/
inductive Spells : List TokenKind → Text → Prop
  | nil {w : Text} : (∀ c ∈ w, Lexeme.isSeparator c) → Spells [] w
  | cons {k : TokenKind} {ks : List TokenKind} {w r : Text} : (∀ c ∈ w, Lexeme.isSeparator c) →
      (k.isAlphanumeric → ks.head?.any TokenKind.isAlphanumeric →
        r.head?.any Lexeme.isSeparator) →
      Spells ks r → Spells (k :: ks) (w ++ (k.spelling ++ r))

def Writable : List TokenKind → Prop
  | [] => True
  | k :: ks => k.WellSpelled ∧ (∀ l ∈ ks.head?, k.Precedes l) ∧ Writable ks

namespace TokenKind

variable {k l : TokenKind}

theorem WellSpelled.isNameChar_head (h : k.WellSpelled) (hk : k.isAlphanumeric = false) :
    ∀ c ∈ k.spelling.head?, Text.isNameChar c = false := by
  intro c hc
  cases k with
  | name t => cases hk
  | number t => cases hk
  | literal q raw =>
    cases hc
    rcases Text.eq_of_isQuote h.1 with rfl | rfl | rfl <;> decide
  | sign s =>
    cases s with
    | opening kind => cases kind <;> (cases hc; decide)
    | closing kind => cases kind <;> (cases hc; decide)
    | _ => cases hc; decide
  | eof => cases hc

theorem WellSpelled.eq_of_head (h : k.WellSpelled) (hc : k.spelling.head? = some '.') :
    k = .sign .dot ∨ k = .sign .ellipsis := by
  cases k with
  | name t =>
    obtain ⟨c, r, rfl, start, -⟩ := h
    cases hc
    exact absurd start (by decide)
  | literal q raw =>
    cases hc
    cases h.1
  | number t =>
    obtain ⟨c, r, rfl, start, -⟩ := h
    cases hc
    cases start
  | sign s =>
    cases s with
    | dot => exact .inl rfl
    | ellipsis => exact .inr rfl
    | opening kind => cases kind <;> cases hc
    | closing kind => cases kind <;> cases hc
    | _ => cases hc
  | eof => cases hc

end TokenKind

theorem Writable.head {ks : List TokenKind} (h : Writable ks) : ∀ k ∈ ks.head?, k.WellSpelled := by
  cases ks with
  | nil => simp
  | cons k ks =>
    rintro l ⟨⟩
    exact h.1

namespace Spells

variable {k : TokenKind} {ks : List TokenKind} {r t : Text}

theorem isNameChar_of_isSeparator {c : Char} (h : Lexeme.isSeparator c) :
    Text.isNameChar c = false := by
  rcases Text.eq_of_isSeparator h with rfl | rfl | rfl | rfl <;> decide

theorem head (h : Spells ks r) (spelled : ∀ l ∈ ks.head?, l.WellSpelled) :
    ∀ c ∈ r.head?, Lexeme.isSeparator c ∨ ∃ l ∈ ks.head?, l.spelling.head? = some c := by
  intro c hc
  cases h with
  | nil hw => exact .inl (hw c (List.mem_of_mem_head? hc))
  | @cons l ls w r hw _ _ =>
    cases w with
    | cons d w => exact .inl (hw c (List.mem_of_mem_head? (by simpa using hc)))
    | nil =>
      obtain ⟨d, u, hd⟩ := List.exists_cons_of_ne_nil (spelled l rfl).spelling_ne_nil
      rw [List.nil_append, hd] at hc
      exact .inr ⟨l, rfl, by rw [hd]; exact hc⟩

theorem endsBefore (h : Spells ks r) (spelled : ∀ l ∈ ks.head?, l.WellSpelled)
    (precedes : ∀ l ∈ ks.head?, k.Precedes l)
    (gap : k.isAlphanumeric → ks.head?.any TokenKind.isAlphanumeric →
      r.head?.any Lexeme.isSeparator) : k.EndsBefore r := by
  have apart : k.isAlphanumeric → ∀ c ∈ r.head?, Text.isNameChar c = false := by
    intro hk c hc
    rcases h.head spelled c hc with hsep | ⟨l, hl, first⟩
    · exact isNameChar_of_isSeparator hsep
    · cases halnum : l.isAlphanumeric with
      | false => exact (spelled l hl).isNameChar_head halnum c first
      | true =>
        have space := gap hk (by simpa [Option.mem_def.1 hl] using halnum)
        rw [Option.mem_def.1 hc] at space
        exact isNameChar_of_isSeparator space
  have noDot : (∀ l, k.Precedes l → l ≠ .sign .dot ∧ l ≠ .sign .ellipsis) → r.head? ≠ some '.' := by
    intro hk hc
    rcases h.head spelled '.' hc with hsep | ⟨l, hl, first⟩
    · cases hsep
    · obtain ⟨notDot, notEllipsis⟩ := hk l (precedes l hl)
      exact ((spelled l hl).eq_of_head first).elim notDot notEllipsis
  cases k with
  | name t => exact apart rfl
  | number t =>
    intro c hc
    refine Lexeme.isNumberChar_eq_false (apart rfl c hc) ?_
    rintro rfl
    exact noDot (fun _ => id) hc
  | sign s =>
    cases s with
    | dot =>
      rintro ⟨u, rfl⟩
      exact noDot (fun _ => id) rfl
    | equals =>
      rintro ⟨u, rfl⟩
      obtain ⟨l, hl, -⟩ := (h.head spelled '>' rfl).resolve_left (by decide)
      exact (precedes l hl).elim
    | _ => trivial
  | _ => trivial

/-- White space before every token is enough. -/
theorem spread {gap : Text} (space : ∀ c ∈ gap, Lexeme.isSeparator c) (some : gap ≠ [])
    (ks : List TokenKind) : Spells ks (ks.flatMap fun k => gap ++ k.spelling) := by
  induction ks with
  | nil => exact .nil (by simp)
  | cons k ks ih =>
    simp only [List.flatMap_cons, List.append_assoc]
    refine .cons space (fun _ _ => ?_) ih
    obtain ⟨c, w, rfl⟩ := List.exists_cons_of_ne_nil some
    cases ks with
    | nil => contradiction
    | cons l ls => exact space c (List.mem_cons_self ..)

/-- A text is read as the tokens that it was written with. -/
theorem kinds_eq (h : Spells ks t) (writable : Writable ks) :
    Lexeme.Clear t ∧ Lexeme.kinds t = ks := by
  induction h with
  | @nil w hw =>
    rw [← List.append_nil w, Lexeme.clear_separators_append hw, Lexeme.kinds_separators hw]
    simp [Lexeme.Clear, Lexeme.kinds]
  | @cons k ks w r hw gap rest ih =>
    obtain ⟨spelled, precedes, writable⟩ := writable
    obtain ⟨clear, same⟩ := ih writable
    have read := Lexeme.ofText_spelling spelled (rest.endsBefore writable.head precedes gap)
    rw [Lexeme.clear_separators_append hw, Lexeme.kinds_separators hw, Lexeme.Clear, Lexeme.kinds,
      read]
    exact ⟨List.forall_mem_cons.2 ⟨⟨rfl, rfl⟩, clear⟩, congrArg (k :: ·) same⟩

end Spells

structure Identifier where
  text : Text
  isName : Head.IsName text

structure Path where
  first : Identifier
  later : List Identifier

structure Label where
  name : Identifier
  isOptional : Bool

inductive Row where
  | arguments
  | elements
  | parameters
  | members
  deriving DecidableEq

structure Lead where
  isRest : Bool
  label? : Option Label

namespace Row

/-- Arguments have no labels, parameters and members always have one. -/
def Admits : Row → Lead → Prop
  | .arguments, l => l.isRest = false ∧ l.label? = none
  | .elements, _ => True
  | .parameters, l => l.label?.isSome
  | .members, l => l.isRest = false ∧ l.label?.isSome

def separators : Row → List Sign
  | .members => [.semicolon, .comma]
  | _ => [.comma]

end Row

def Sign.joints : List Sign := [.pipe, .ampersand]

/-- A type, or a list of types. Keywords stand alone or before a type, a union or an intersection
may begin with its sign, and the last type of a list may have a separator after it. -/
inductive TypeTree : Option Row → Type
  | keyword (word : Text) : word ∈ TypeText.keywords → TypeTree none
  | operator (word : Text) : word ∈ TypeText.keywords → TypeTree none → TypeTree none
  | literal (quote : Char) (raw : Text) : (TokenKind.literal quote raw).WellSpelled → TypeTree none
  | number (text : Text) : (TokenKind.number text).WellSpelled → TypeTree none
  | reference (path : Path) : TypeTree none
  | generic (path : Path) (arguments : TypeTree (some .arguments)) : TypeTree none
  | array (element : TypeTree none) : TypeTree none
  | parens (inner : TypeTree none) : TypeTree none
  | led (joint : Sign) : joint ∈ Sign.joints → TypeTree none → TypeTree none
  | joined (joint : Sign) : joint ∈ Sign.joints → TypeTree none → TypeTree none → TypeTree none
  | tuple (elements : TypeTree (some .elements)) : TypeTree none
  | function (parameters : TypeTree (some .parameters)) (result : TypeTree none) : TypeTree none
  | object (members : TypeTree (some .members)) : TypeTree none
  | nil {row : Row} : TypeTree (some row)
  | last {row : Row} (lead : Lead) : row.Admits lead → TypeTree none → TypeTree (some row)
  | cons {row : Row} (lead : Lead) : row.Admits lead → TypeTree none →
      (separator : Sign) → separator ∈ row.separators → TypeTree (some row) → TypeTree (some row)

def Path.tokens (p : Path) : List TokenKind :=
  .name p.first.text :: p.later.flatMap fun n => [.sign .dot, .name n.text]

def Label.tokens (l : Label) : List TokenKind :=
  .name l.name.text :: ((if l.isOptional then [.sign .question] else []) ++ [.sign .colon])

def Lead.tokens (l : Lead) : List TokenKind :=
  (if l.isRest then [.sign .ellipsis] else []) ++ l.label?.elim [] Label.tokens

namespace TypeTree

def tokens : {part : Option Row} → TypeTree part → List TokenKind
  | _, .keyword word _ => [.name word]
  | _, .operator word _ t => .name word :: t.tokens
  | _, .literal quote raw _ => [.literal quote raw]
  | _, .number text _ => [.number text]
  | _, .reference path => path.tokens
  | _, .generic path arguments =>
    path.tokens ++ .sign (.opening .angle) :: (arguments.tokens ++ [.sign (.closing .angle)])
  | _, .array element => element.tokens ++ [.sign (.opening .square), .sign (.closing .square)]
  | _, .parens inner => .sign (.opening .round) :: (inner.tokens ++ [.sign (.closing .round)])
  | _, .led joint _ t => .sign joint :: t.tokens
  | _, .joined joint _ t u => t.tokens ++ .sign joint :: u.tokens
  | _, .tuple elements =>
    .sign (.opening .square) :: (elements.tokens ++ [.sign (.closing .square)])
  | _, .function parameters result => .sign (.opening .round) ::
      (parameters.tokens ++ .sign (.closing .round) :: .sign .arrow :: result.tokens)
  | _, .object members => .sign (.opening .curly) :: (members.tokens ++ [.sign (.closing .curly)])
  | _, .nil => []
  | _, .last lead _ t => lead.tokens ++ t.tokens
  | _, .cons lead _ t separator _ rest =>
    lead.tokens ++ (t.tokens ++ .sign separator :: rest.tokens)

/-- The first parts of the names in the type to which it refers, in the order in which they are
written. -/
def heads : {part : Option Row} → TypeTree part → List Text
  | _, .keyword _ _ => []
  | _, .operator _ _ t => t.heads
  | _, .literal _ _ _ => []
  | _, .number _ _ => []
  | _, .reference path => [path.first.text]
  | _, .generic path arguments => path.first.text :: arguments.heads
  | _, .array element => element.heads
  | _, .parens inner => inner.heads
  | _, .led _ _ t => t.heads
  | _, .joined _ _ t u => t.heads ++ u.heads
  | _, .tuple elements => elements.heads
  | _, .function parameters result => parameters.heads ++ result.heads
  | _, .object members => members.heads
  | _, .nil => []
  | _, .last _ _ t => t.heads
  | _, .cons _ _ t _ _ rest => t.heads ++ rest.heads

end TypeTree

def TokenKind.isStop : TokenKind → Bool
  | .sign s => s ∈ [.closing .round, .closing .square, .closing .curly, .closing .angle,
      .opening .square, .pipe, .ampersand, .comma, .semicolon]
  | _ => false

namespace Writable

variable {ks : List TokenKind}

theorem name (n : Identifier) (h : Writable ks) : Writable (.name n.text :: ks) :=
  ⟨n.isName, fun _ _ => trivial, h⟩

theorem sign {s : Sign} (hs : s ≠ .dot ∧ s ≠ .equals) (h : Writable ks) :
    Writable (.sign s :: ks) := by
  refine ⟨trivial, fun l _ => ?_, h⟩
  cases s with
  | dot => exact absurd rfl hs.1
  | equals => exact absurd rfl hs.2
  | _ => trivial

theorem joint {s : Sign} (hs : s ∈ Sign.joints) (h : Writable ks) : Writable (.sign s :: ks) := by
  have all : ∀ s ∈ Sign.joints, s ≠ .dot ∧ s ≠ .equals := by decide
  exact h.sign (all s hs)

theorem path (p : Path) (h : Writable ks) : Writable (p.tokens ++ ks) := by
  obtain ⟨first, later⟩ := p
  refine Writable.name first ?_
  induction later with
  | nil => exact h
  | cons n later ih => exact ⟨trivial, by simp [TokenKind.Precedes], Writable.name n ih⟩

theorem lead (l : Lead) (h : Writable ks) : Writable (l.tokens ++ ks) := by
  obtain ⟨isRest, label?⟩ := l
  have labelled : Writable (label?.elim [] Label.tokens ++ ks) := by
    cases label? with
    | none => exact h
    | some label =>
      obtain ⟨n, isOptional⟩ := label
      refine Writable.name n ?_
      cases isOptional with
      | false => exact h.sign (by decide)
      | true => exact (h.sign (s := .colon) (by decide)).sign (by decide)
  cases isRest with
  | false => exact labelled
  | true => exact labelled.sign (by decide)

theorem closing (kind : Bracket) (h : Writable ks) : Writable (.sign (.closing kind) :: ks) :=
  h.sign ⟨by simp, by simp⟩

theorem opening (kind : Bracket) (h : Writable ks) : Writable (.sign (.opening kind) :: ks) :=
  h.sign ⟨by simp, by simp⟩

end Writable

/-- The tokens can be written before all that ends a type or goes on with it. -/
def Ends (ks : List TokenKind) : Prop :=
  ∀ rest, Writable rest → (∀ k ∈ rest.head?, k.isStop) → Writable (ks ++ rest)

namespace Ends

variable {ks rest : List TokenKind}

theorem before {s : Sign} (h : Ends ks) (hs : (TokenKind.sign s).isStop)
    (hrest : Writable rest) : Writable (ks ++ .sign s :: rest) := by
  have plain : s ≠ .dot ∧ s ≠ .equals := by
    constructor <;> (rintro rfl; cases hs)
  refine h _ (hrest.sign plain) ?_
  rintro k ⟨⟩
  exact hs

theorem brackets (kind : Bracket) (h : Ends ks) (hrest : Writable rest) :
    Writable (.sign (.opening kind) :: (ks ++ .sign (.closing kind) :: rest)) :=
  (h.before (by cases kind <;> rfl) hrest).opening kind

end Ends

namespace TypeTree

theorem isStop_separator {row : Row} {s : Sign} (h : s ∈ row.separators) :
    (TokenKind.sign s).isStop := by
  cases row <;> (revert s; decide)

/-- No token of a type grows into the one after it. -/
theorem ends_tokens {part : Option Row} (t : TypeTree part) : Ends t.tokens := by
  have isName : ∀ word ∈ TypeText.keywords, Head.IsName word := by decide
  have isStop : ∀ s ∈ Sign.joints, (TokenKind.sign s).isStop := by decide
  -- Only a number asks what follows it; every other form ends as its last part does.
  induction t with
  | keyword word hw => exact fun rest h _ => .name ⟨word, isName word hw⟩ h
  | operator word hw t ih => exact fun rest h stop => .name ⟨word, isName word hw⟩ (ih rest h stop)
  | literal quote raw hk => exact fun rest h _ => ⟨hk, fun _ _ => trivial, h⟩
  | number text hk =>
    refine fun rest h stop => ⟨hk, fun l hl => ?_, h⟩
    constructor <;> (rintro rfl; cases stop _ hl)
  | reference path => exact fun rest h _ => h.path path
  | generic path arguments ih =>
    intro rest h _
    simpa [tokens] using (ih.brackets .angle h).path path
  | array element ih =>
    intro rest h _
    simpa [tokens] using ih.before rfl (h.closing .square)
  | parens inner ih =>
    intro rest h _
    simpa [tokens] using ih.brackets .round h
  | led joint hj t ih => exact fun rest h stop => (ih rest h stop).joint hj
  | joined joint hj t u iht ihu =>
    intro rest h stop
    simpa [tokens] using iht.before (isStop joint hj) (ihu rest h stop)
  | tuple elements ih =>
    intro rest h _
    simpa [tokens] using ih.brackets .square h
  | function parameters result ihp ihr =>
    intro rest h stop
    simpa [tokens] using ihp.brackets .round ((ihr rest h stop).sign (s := .arrow) (by decide))
  | object members ih =>
    intro rest h _
    simpa [tokens] using ih.brackets .curly h
  | nil => exact fun rest h _ => h
  | last lead _ t ih =>
    intro rest h stop
    simpa [tokens] using (ih rest h stop).lead lead
  | cons lead _ t separator hs more iht ihm =>
    intro rest h stop
    simpa [tokens] using (iht.before (isStop_separator hs) (ihm rest h stop)).lead lead

end TypeTree

end WebSurface
