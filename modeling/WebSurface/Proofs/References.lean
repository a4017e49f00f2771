import WebSurface.Proofs.WrittenType
set_option autoImplicit false

namespace WebSurface

open TypeText (keywords isLabelMark namesAfter references)

/-- The names among the tokens are those of the list that are no keywords, and then the names among
the tokens that follow. -/
def TokenKind.Refer (ks : List TokenKind) (names : List Text) : Prop :=
  ∀ rest, isLabelMark rest = false →
    namesAfter false (ks ++ rest) = names.filter (!keywords.elem ·) ++ namesAfter false rest

namespace TypeText

variable {ks rest : List TokenKind}

theorem namesAfter_sign {s : Sign} (hs : s ≠ .dot) :
    namesAfter false (.sign s :: ks) = namesAfter false ks := by
  have other : (TokenKind.sign s == .sign .dot) = false := beq_eq_false_iff_ne.2 (by simpa using hs)
  rw [namesAfter, other]
  simp

theorem isLabelMark_sign {s : Sign} (hs : s ≠ .colon ∧ s ≠ .question) :
    isLabelMark (.sign s :: ks) = false := by
  cases s with
  | colon => exact absurd rfl hs.1
  | question => exact absurd rfl hs.2
  | _ => rfl

theorem namesAfter_lead (l : Lead) : namesAfter false (l.tokens ++ ks) = namesAfter false ks := by
  obtain ⟨isRest, label?⟩ := l
  have labelled : namesAfter false (label?.elim [] Label.tokens ++ ks) = namesAfter false ks := by
    cases label? with
    | none => rfl
    | some label =>
      obtain ⟨n, isOptional⟩ := label
      have marked : isLabelMark
          ((if isOptional then [.sign .question] else []) ++ .sign .colon :: ks) := by
        cases isOptional <;> rfl
      have signs : namesAfter false
          ((if isOptional then [.sign .question] else []) ++ .sign .colon :: ks) =
          namesAfter false ks := by
        cases isOptional <;> rfl
      simp [Label.tokens, namesAfter, marked, signs]
  cases isRest with
  | false => exact labelled
  | true => exact (namesAfter_sign (s := .ellipsis) (by decide)).trans labelled

end TypeText

open TypeText (namesAfter_sign isLabelMark_sign namesAfter_lead)

namespace TokenKind.Refer

variable {ks ls : List TokenKind} {names more : List Text} {s : Sign}

theorem sign (h : Refer ks names) (hs : s ≠ .dot) : Refer (.sign s :: ks) names :=
  fun rest hrest => (namesAfter_sign hs).trans (h rest hrest)

theorem lead (h : Refer ks names) (l : Lead) : Refer (l.tokens ++ ks) names := by
  intro rest hrest
  rw [List.append_assoc, namesAfter_lead]
  exact h rest hrest

/-- The sign in between tells the last name before it from a label. -/
theorem joined (h : Refer ks names) (hl : Refer ls more) (plain : s ≠ .dot)
    (unlabelled : s ≠ .colon ∧ s ≠ .question) : Refer (ks ++ .sign s :: ls) (names ++ more) := by
  intro rest hrest
  rw [List.append_assoc, List.cons_append, h _ (isLabelMark_sign unlabelled), namesAfter_sign plain,
    hl rest hrest, List.filter_append, List.append_assoc]

theorem closed (h : Refer ks names) (kind : Bracket) :
    Refer (ks ++ [.sign (.closing kind)]) names := by
  have none : Refer [] [] := fun _ _ => rfl
  simpa using h.joined none (s := .closing kind) (by simp) (by simp)

theorem brackets (h : Refer ks names) (kind : Bracket) :
    Refer (.sign (.opening kind) :: (ks ++ [.sign (.closing kind)])) names :=
  (h.closed kind).sign (by simp)

theorem name {word : Text} (tail : Refer ks names)
    (unlabelled : ∀ rest, isLabelMark rest = false → isLabelMark (ks ++ rest) = false) :
    Refer (.name word :: ks) (word :: names) := by
  intro rest hrest
  rw [List.cons_append, namesAfter, unlabelled rest hrest, tail rest hrest, List.filter_cons]
  cases keywords.elem word <;> rfl

theorem path (p : Path) : Refer p.tokens [p.first.text] := by
  obtain ⟨first, later⟩ := p
  refine Refer.name ?_ ?_
  · intro rest _
    induction later with
    | nil => rfl
    | cons n later ih =>
      -- the name that comes after the dot is skipped, whatever stands after it
      simp only [List.flatMap_cons, List.cons_append, List.nil_append, namesAfter, beq_self_eq_true,
        Bool.or_true, Bool.true_or, if_true]
      exact ih
  · intro rest hrest
    cases later with
    | nil => exact hrest
    | cons n later => rfl

end TokenKind.Refer

namespace TypeTree

theorem refer_tokens {part : Option Row} (t : TypeTree part) :
    TokenKind.Refer t.tokens t.heads := by
  have isJoint : ∀ s ∈ Sign.joints, s ≠ .dot ∧ s ≠ .colon ∧ s ≠ .question := by decide
  have isSeparator : ∀ row : Row, ∀ s ∈ row.separators, s ≠ .dot ∧ s ≠ .colon ∧ s ≠ .question := by
    intro row
    cases row <;> decide
  induction t with
  | keyword word hw =>
    intro rest _
    simp [tokens, heads, namesAfter, hw]
  | operator word hw t ih =>
    intro rest hrest
    simpa [tokens, heads, namesAfter, hw] using ih rest hrest
  | literal quote raw _ => exact fun _ _ => rfl
  | number text _ => exact fun _ _ => rfl
  | reference path => exact .path path
  | generic path arguments ih =>
    exact (TokenKind.Refer.path path).joined (ih.closed .angle) (by simp) (by simp)
  | array element ih =>
    have nothing : TokenKind.Refer [.sign (.closing .square)] [] := fun _ _ => rfl
    simpa [tokens, heads] using ih.joined nothing (s := .opening .square) (by simp) (by simp)
  | parens inner ih => exact ih.brackets .round
  | led joint hj t ih => exact ih.sign (isJoint joint hj).1
  | joined joint hj t u iht ihu => exact iht.joined ihu (isJoint joint hj).1 (isJoint joint hj).2
  | tuple elements ih => exact ih.brackets .square
  | function parameters result ihp ihr =>
    have arrow := ihr.sign (s := .arrow) (by decide)
    exact (ihp.joined arrow (s := .closing .round) (by simp) (by simp)).sign (by simp)
  | object members ih => exact ih.brackets .curly
  | nil => exact fun _ _ => rfl
  | last lead _ t ih => exact ih.lead lead
  | @cons row lead _ t separator hs more iht ihm =>
    obtain ⟨plain, unlabelled⟩ := isSeparator row separator hs
    exact (iht.joined ihm plain unlabelled).lead lead

/-- What is found in the text of a type is what the type refers to. -/
theorem references_of_spells (t : TypeTree none) {text : Text} (h : Spells t.tokens text) :
    references text = (t.heads.filter (!keywords.elem ·)).eraseDups := by
  have writable : Writable t.tokens := by
    simpa using t.ends_tokens [] trivial (by simp)
  obtain ⟨clear, same⟩ := h.kinds_eq writable
  obtain ⟨tokens, read, kinds⟩ := Lexeme.map_kind_tokenize fun l hl => (clear l hl).1
  rw [references, read]
  show (namesAfter false (tokens.map Token.kind)).eraseDups = _
  rw [kinds, same, t.refer_tokens [.eof] rfl]
  simp [namesAfter]

/-- `(list?: dom.List<Node[], keyof Key>, ...rest: ("s" | 7 | this)[]) =>
{ at?: [Node, to: End]; }` -/
def listener : TypeTree none :=
  let list := TypeTree.generic ⟨⟨"dom".toList, by decide⟩, [⟨"List".toList, by decide⟩]⟩
    (.cons ⟨false, none⟩ ⟨rfl, rfl⟩
      (.array (.reference ⟨⟨"Node".toList, by decide⟩, []⟩)) .comma (by decide)
      (.last ⟨false, none⟩ ⟨rfl, rfl⟩
        (.operator "keyof".toList (by decide) (.reference ⟨⟨"Key".toList, by decide⟩, []⟩))))
  let rest := TypeTree.array (.parens (.joined .pipe (by decide)
    (.literal '"' ['s'] ⟨rfl, .char (by decide) (by decide) .nil⟩)
    (.joined .pipe (by decide)
      (.number ['7'] ⟨'7', [], rfl, by decide, by decide⟩) (.keyword "this".toList (by decide)))))
  let at_ := TypeTree.tuple
    (.cons ⟨false, none⟩ trivial (.reference ⟨⟨"Node".toList, by decide⟩, []⟩) .comma (by decide)
      (.last ⟨false, some ⟨⟨"to".toList, by decide⟩, false⟩⟩ trivial
        (.reference ⟨⟨"End".toList, by decide⟩, []⟩)))
  .function
    (.cons ⟨false, some ⟨⟨"list".toList, by decide⟩, true⟩⟩ rfl list .comma (by decide)
      (.last ⟨true, some ⟨⟨"rest".toList, by decide⟩, false⟩⟩ rfl rest))
    (.object (.cons ⟨false, some ⟨⟨"at".toList, by decide⟩, true⟩⟩ ⟨rfl, rfl⟩ at_
      .semicolon (by decide) .nil))

theorem references_listener :
    let text := listener.tokens.flatMap fun k => "\n ".toList ++ k.spelling
    Spells listener.tokens text ∧
      references text = ["dom".toList, "Node".toList, "Key".toList, "End".toList] := by
  have spelled : Spells listener.tokens
      (listener.tokens.flatMap fun k => "\n ".toList ++ k.spelling) :=
    .spread (by decide) (by decide) _
  refine ⟨spelled, (references_of_spells listener spelled).trans ?_⟩
  decide

end TypeTree

end WebSurface
