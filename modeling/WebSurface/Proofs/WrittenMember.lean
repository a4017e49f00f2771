import WebSurface.Proofs.WrittenParameter
set_option autoImplicit false

namespace WebSurface

/-- The text can be written between the angle brackets before the parameters. -/
@[mk_iff]
structure TypeText.IsTypeParameters (t : Text) : Prop where
  enclosed : TypeText.enclosed? ('<' :: (t ++ ['>'])) = some t
  tokens : ∃ tokens, Token.tokenize ('<' :: (t ++ ['>'])) = .ok tokens
  uncommented : ∀ l ∈ (Lexeme.ofText ('<' :: (t ++ ['>']))).getLast?, l.isComment = false

instance (t : Text) : Decidable (TypeText.IsTypeParameters t) :=
  decidable_of_iff' _ (TypeText.isTypeParameters_iff t)

theorem TypeText.group?_of_enclosed? {t a : Text} (h : enclosed? t = some a) :
    group? t = some (a, []) := by
  unfold enclosed? at h
  split at h
  · rename_i inner hgroup
    rw [hgroup, Option.some.inj h]
  · cases h

namespace Written

structure Signature where
  typeParameters? : Option Text
  parameters : List Parameter
  return? : Option Text
  deriving DecidableEq, Repr

namespace Signature

def typeParametersText (s : Signature) : Text :=
  s.typeParameters?.elim [] fun t => '<' :: (t ++ ['>'])

def parametersText (s : Signature) : Text := Text.join [',', ' '] (s.parameters.map Parameter.text)

def text (s : Signature) : Text :=
  s.typeParametersText ++ '(' :: (s.parametersText ++ ')' :: ascription s.return?)

def meaning (s : Signature) : WebSurface.Signature where
  parameters := s.parameters.map Parameter.meaning
  returnType := properType s.return?
  returnIsNullable := s.return?.any TypeText.admitsNullish

@[mk_iff]
structure Valid (s : Signature) : Prop where
  typeParameters : ∀ t ∈ s.typeParameters?, TypeText.IsTypeParameters t
  parameters : ∀ p ∈ s.parameters, p.Valid
  returns : ∀ t ∈ s.return?, TypeText.IsWritten t ∧ t.blank = false

instance (s : Signature) : Decidable s.Valid := decidable_of_iff' _ (valid_iff s)

end Signature

end Written

/-- A semicolon at the end of a type would be one at top level. -/
theorem TypeText.IsWritten.getLast?_trim {t : Text} (h : IsWritten t) :
    t.trim.getLast? ≠ some ';' := by
  intro hlast
  obtain ⟨y, hy⟩ := List.getLast?_eq_some_iff.1 hlast
  obtain ⟨v, w, hv, -, ht⟩ := Text.exists_trim t
  have closed := Nesting.topLevel_run_trim h.balanced.closed
  rw [hy, Nesting.run_append] at closed
  have before := Nesting.topLevel_of_step (Nesting.isQuote_run_outside y) (by decide) closed
  have whole : t = (v ++ y) ++ ';' :: w := by
    rw [ht, hy]
    simp
  have none := findTopLevel_eq_none_iff.1 h.noSemicolon
  rw [whole] at none
  refine Nesting.breakAt_append_ne_nil w ?_ (c := ';') rfl none
  rwa [Nesting.run_append, Nesting.run_blank hv]

namespace Written

/-- What follows the parameters is read as the type that is written there, or `any`. -/
theorem returnText?_ascription {type? : Option Text}
    (h : ∀ t ∈ type?, TypeText.IsWritten t ∧ t.blank = false) :
    WebSurface.Signature.returnText? (ascription type?) =
      some (type?.elim "any".toList Text.trim) := by
  cases type? with
  | none => rfl
  | some t =>
    obtain ⟨ht, hblank⟩ := h t rfl
    have solid : ∀ c ∈ [':'], Text.isBlank c = false := List.forall_mem_singleton.2 (by decide)
    have rest : Text.trim (ascription (some t)) = [':'] ++ Text.trimEnd (' ' :: t) :=
      Text.trim_append_solids solid (List.cons_ne_nil _ _) (' ' :: t)
    have type : Text.trim (Text.trimEnd (' ' :: t)) = t.trim :=
      (Text.trim_trimEnd _).trans (Text.trim_append_left (w := [' ']) rfl t)
    have ends : Text.dropEndWhile (· == ';') t.trim = t.trim :=
      Text.dropEndWhile_eq_self fun c hc => by
        rw [beq_eq_false_iff_ne]
        rintro rfl
        exact ht.getLast?_trim hc
    have ne_nil : t.trim.isEmpty = false := by
      rw [List.isEmpty_eq_false_iff, ne_eq, Text.trim_eq_nil_iff, hblank]
      exact Bool.false_ne_true
    rw [WebSurface.Signature.returnText?, rest, Text.strip?_eq_some_iff.2 rfl]
    simp only [type, ends, Text.trim_trim, ne_nil, Bool.false_eq_true, if_false,
      Option.elim_some]

/-- What stands before the type that a signature returns. Any text may be in parentheses. -/
structure Heading where
  typeParameters? : Option Text
  parameters : Text
  deriving DecidableEq, Repr

namespace Heading

def parenthesis (h : Heading) : Text := '(' :: (h.parameters ++ [')'])

def text (h : Heading) : Text :=
  (h.typeParameters?.elim [] fun t => '<' :: (t ++ ['>'])) ++ h.parenthesis

def meaning (h : Heading) (return? : Option Text) : WebSurface.Signature where
  parameters := WebSurface.Parameter.listOfText h.parameters
  returnType := properType return?
  returnIsNullable := return?.any TypeText.admitsNullish

@[mk_iff]
structure Valid (h : Heading) : Prop where
  typeParameters : ∀ t ∈ h.typeParameters?, TypeText.IsTypeParameters t
  enclosed : TypeText.enclosed? h.parenthesis = some h.parameters
  tokens : ∃ tokens, Token.tokenize h.parenthesis = .ok tokens
  uncommented : ∀ l ∈ (Lexeme.ofText h.parenthesis).getLast?, l.isComment = false

instance (h : Heading) : Decidable h.Valid := decidable_of_iff' _ (valid_iff h)

variable {h : Heading} {return? : Option Text}

theorem ofParenthesis?_ascription (hh : h.Valid)
    (returns : ∀ t ∈ return?, TypeText.IsWritten t ∧ t.blank = false) :
    WebSurface.Signature.ofParenthesis? (h.parenthesis ++ ascription return?) =
      some (h.meaning return?) := by
  have group : group? (h.parenthesis ++ ascription return?) =
      some (h.parameters, ascription return?) :=
    group?_append (TypeText.group?_of_enclosed? hh.enclosed) _
  have type := splitNullish_ascription return?
  rw [WebSurface.Signature.ofParenthesis?, if_pos (by simp [parenthesis]), group]
  simp only [Option.bind_eq_bind, Option.bind_some, returnText?_ascription returns, type]
  rfl

theorem ofText?_ascription (hh : h.Valid)
    (returns : ∀ t ∈ return?, TypeText.IsWritten t ∧ t.blank = false) :
    WebSurface.Signature.ofText? (h.text ++ ascription return?) = some (h.meaning return?) := by
  have parenthesis := ofParenthesis?_ascription hh returns
  unfold text
  cases htype : h.typeParameters? with
  | none => exact parenthesis
  | some g =>
    have enclosed := TypeText.group?_of_enclosed? (hh.typeParameters g htype).enclosed
    have group : group? ('<' :: (g ++ ['>']) ++ (h.parenthesis ++ ascription return?)) =
        some (g, h.parenthesis ++ ascription return?) := group?_append enclosed _
    rw [Option.elim_some, List.append_assoc, List.cons_append, WebSurface.Signature.ofText?,
      if_pos (by simp), ← List.cons_append, group]
    exact parenthesis

theorem exists_bracket (h : Heading) (r : Text) : ∃ c k, ∃ u : Text, h.text ++ r = c :: u ∧
    Sign.ofChar? c = some (.opening k) ∧ (k = .round ∨ k = .angle) := by
  unfold text
  cases h.typeParameters? with
  | none => exact ⟨'(', .round, _, rfl, rfl, .inl rfl⟩
  | some g => exact ⟨'<', .angle, _, rfl, rfl, .inr rfl⟩

theorem apart_append (h : Heading) (r : Text) : Lexeme.Apart (h.text ++ r) := by
  unfold text
  cases h.typeParameters? with
  | none => exact Lexeme.apart_cons (by decide) _
  | some g => exact Lexeme.apart_cons (by decide) _

theorem readable_ascription (hh : h.Valid) (returns : ∀ t ∈ return?, TypeText.IsWritten t) :
    Text.Readable (h.text ++ ascription return?) := by
  have parenthesis : Text.Readable (h.parenthesis ++ ascription return?) :=
    Text.Readable.append ⟨Token.exists_tokenize_iff.1 hh.tokens, hh.uncommented⟩
      (Written.readable_ascription returns) (apart_ascription _)
  unfold text
  cases htype : h.typeParameters? with
  | none => exact parenthesis
  | some g =>
    obtain ⟨-, tokens, uncommented⟩ := hh.typeParameters g htype
    have angles : Text.Readable ('<' :: (g ++ ['>'])) :=
      ⟨Token.exists_tokenize_iff.1 tokens, uncommented⟩
    rw [Option.elim_some, List.append_assoc]
    exact angles.append parenthesis (Lexeme.apart_cons (by decide) _)

end Heading

namespace Signature

variable {s : Signature}

def heading (s : Signature) : Heading := ⟨s.typeParameters?, s.parametersText⟩

theorem text_eq (s : Signature) : s.text = s.heading.text ++ ascription s.return? := by
  simp [text, typeParametersText, heading, Heading.text, Heading.parenthesis]

theorem balanced_parametersText (h : s.Valid) : s.parametersText.Balanced :=
  .join (by decide) (List.forall_mem_map.2 fun p hp =>
    Parameter.balanced_text (h.parameters p hp))

theorem valid_heading (h : s.Valid) : s.heading.Valid := by
  obtain ⟨opened, closed⟩ := balanced_parametersText h
  have group : group? s.heading.parenthesis = some (s.parametersText, []) :=
    Nesting.closing?_opened opened closed
      (Nesting.closes_of_isCloser closed (by decide) (by decide)) []
  have close : Text.Readable [')'] := .sign (s := .closing .round) rfl trivial .nil
  have readable : s.heading.parenthesis.Readable :=
    .sign (s := .opening .round) rfl trivial
      ((Parameter.readable_join h.parameters).append close (Lexeme.apart_cons (by decide) _))
  refine ⟨h.typeParameters, ?_, Token.exists_tokenize_iff.2 readable.faultless,
    readable.uncommented⟩
  rw [TypeText.enclosed?, group]
  rfl

theorem meaning_heading (h : s.Valid) : s.heading.meaning s.return? = s.meaning := by
  have parameters := Parameter.listOfText_join h.parameters
  rw [Heading.meaning, heading, parametersText, parameters]
  rfl

theorem ofText?_text (h : s.Valid) : WebSurface.Signature.ofText? s.text = some s.meaning := by
  rw [text_eq, Heading.ofText?_ascription (valid_heading h) h.returns, meaning_heading h]

theorem exists_bracket (s : Signature) : ∃ c k r, s.text = c :: r ∧
    Sign.ofChar? c = some (.opening k) ∧ (k = .round ∨ k = .angle) :=
  s.text_eq ▸ s.heading.exists_bracket _

theorem readable_text (h : s.Valid) : s.text.Readable :=
  s.text_eq ▸ Heading.readable_ascription (valid_heading h) fun t ht => (h.returns t ht).1

end Signature

inductive Member where
  | property (isReadonly : Bool) (name : Text) (isOptional : Bool) (type : Text)
  | method (name : Text) (isOptional : Bool) (signature : Signature)
  | call (signature : Signature)
  deriving DecidableEq, Repr

namespace Member

/-- The word before a property that cannot be written. -/
def lead (isReadonly : Bool) : Text := if isReadonly then "readonly".toList ++ [' '] else []

def text : Member → Text
  | .property isReadonly name isOptional type =>
    lead isReadonly ++ (name ++ (mark isOptional ++ ascription (some type)))
  | .method name isOptional signature => name ++ (mark isOptional ++ signature.text)
  | .call signature => signature.text

def meaning : Member → WebSurface.Member
  | .property isReadonly name isOptional type =>
    .property ⟨name, properType (some type), isOptional || TypeText.admitsNullish type, isReadonly⟩
  | .method name _ signature =>
    let s := signature.meaning
    .method ⟨name, s.parameters, s.returnType, s.returnIsNullable, none⟩
  | .call signature => .call ⟨signature.meaning.parameters, signature.meaning.returnType⟩

/-- A signature after the word `new` would be one of a constructor. -/
def Valid : Member → Prop
  | .property _ name _ type => Head.IsName name ∧ TypeText.IsWritten type ∧ type.blank = false
  | .method name isOptional signature =>
    Head.IsName name ∧ (name = "new".toList → isOptional) ∧ signature.Valid
  | .call signature => signature.Valid

instance : DecidablePred Valid
  | .property .. => inferInstanceAs (Decidable (_ ∧ _))
  | .method .. => inferInstanceAs (Decidable (_ ∧ _))
  | .call signature => inferInstanceAs (Decidable signature.Valid)

open Token (among endAt)

def markTokens (n : Nat) (isOptional : Bool) : List Token :=
  if isOptional then [⟨.sign .question, ⟨n, n + Text.bytes ['?']⟩⟩] else []

theorem among_mark (before : Text) (isOptional : Bool) {c : Char} {s : Sign}
    (hs : Sign.ofChar? c = some s) {r : Text} (hr : (TokenKind.sign s).EndsBefore r) :
    ∃ more, among (Text.bytes before) (Lexeme.ofText (mark isOptional ++ c :: r)) =
      markTokens (Text.bytes before) isOptional ++
        ⟨.sign s, ⟨Text.bytes (before ++ mark isOptional),
          Text.bytes (before ++ mark isOptional ++ [c])⟩⟩ :: more := by
  have sign := Lexeme.ofText_sign hs hr
  have spelling := Sign.spelling_of_ofChar? hs
  cases isOptional with
  | false =>
    refine ⟨among (Text.bytes (before ++ [c])) (Lexeme.ofText r), ?_⟩
    simp [mark, markTokens, sign, TokenKind.spelling, spelling]
  | true =>
    have query : Sign.question.spelling = ['?'] := rfl
    have question : Lexeme.ofText ('?' :: c :: r) =
        .token (.sign .question) :: .token (.sign s) :: Lexeme.ofText r := by
      rw [Lexeme.ofText_sign (s := .question) rfl trivial, sign]
    refine ⟨among (Text.bytes (before ++ ['?'] ++ [c])) (Lexeme.ofText r), ?_⟩
    simp [mark, markTokens, question, TokenKind.spelling, spelling, query, Nat.add_assoc]

variable {t name : Text} {isReadonly isOptional : Bool} {n : Nat} {more : List Token}

theorem ofName_signature {k : Bracket} {span : Span}
    (hk : WebSurface.Member.opensSignature (.sign (.opening k))) {s : WebSurface.Signature}
    (hs : WebSurface.Signature.ofText? (t.after span.start) = some s) :
    WebSurface.Member.ofName t isReadonly name
        (markTokens n isOptional ++ ⟨.sign (.opening k), span⟩ :: more) =
      .ok (.method ⟨name, s.parameters, s.returnType, s.returnIsNullable, none⟩) := by
  cases isOptional <;>
    simp [WebSurface.Member.ofName, markTokens, WebSurface.Member.firstIs, hk, hs]

theorem ofName_ascription {span : Span} {type : Text} (hblank : type.blank = false)
    (h : t.after span.stop = ' ' :: type) :
    WebSurface.Member.ofName t isReadonly name
        (markTokens n isOptional ++ ⟨.sign .colon, span⟩ :: more) =
      .ok (.property ⟨name, (TypeText.splitNullish type).1,
        isOptional || TypeText.admitsNullish type, isReadonly⟩) := by
  have trim : Text.trim (t.after span.stop) = type.trim := by
    rw [h]
    exact Text.trim_append_left (w := [' ']) rfl type
  have ne_nil : type.trim ≠ [] := by
    rw [ne_eq, Text.trim_eq_nil_iff, hblank]
    exact Bool.false_ne_true
  cases isOptional <;>
    simp [WebSurface.Member.ofName, markTokens, WebSurface.Member.firstIs,
      WebSurface.Member.opensSignature, trim, ne_nil, TypeText.splitNullish_trim,
      TypeText.splitNullish_snd]

theorem firstIs_startsName {s : Sign} (hs : WebSurface.Member.startsName (.sign s) = false)
    (span : Span) : WebSurface.Member.firstIs WebSurface.Member.startsName
      (markTokens n isOptional ++ ⟨.sign s, span⟩ :: more) = false := by
  cases isOptional with
  | false => exact hs
  | true => rfl

/-- A name is that of the member, also where it is a word that could be a modifier. -/
theorem ofTokens_name {span signSpan : Span} {s : Sign}
    (hs : WebSurface.Member.startsName (.sign s) = false)
    (hnew : name = "new".toList → isOptional = false →
      WebSurface.Member.opensSignature (.sign s) = false) :
    WebSurface.Member.ofTokens t isReadonly
        (⟨.name name, span⟩ :: (markTokens n isOptional ++ ⟨.sign s, signSpan⟩ :: more)) =
      WebSurface.Member.ofName t isReadonly name
        (markTokens n isOptional ++ ⟨.sign s, signSpan⟩ :: more) := by
  have construct : (name == "new".toList && WebSurface.Member.firstIs
      WebSurface.Member.opensSignature
        (markTokens n isOptional ++ ⟨.sign s, signSpan⟩ :: more)) = false := by
    rw [Bool.and_eq_false_imp]
    intro hname
    cases isOptional with
    | false => exact hnew (beq_iff_eq.1 hname) rfl
    | true => rfl
  simp only [WebSurface.Member.ofTokens, construct, firstIs_startsName hs, Bool.and_false,
    Bool.false_eq_true, if_false]

def leadTokens (isReadonly : Bool) : List Token :=
  if isReadonly then [⟨.name "readonly".toList, ⟨0, Text.bytes "readonly".toList⟩⟩] else []

theorem isName_readonly : Head.IsName "readonly".toList := by decide

theorem ofText_tokens {span signSpan : Span} {s : Sign}
    (hs : WebSurface.Member.startsName (.sign s) = false)
    (tokens : Token.tokenize t = .ok (leadTokens isReadonly ++ ⟨.name name, span⟩ ::
      (markTokens n isOptional ++ ⟨.sign s, signSpan⟩ :: more))) :
    WebSurface.Member.ofText t = WebSurface.Member.ofTokens t isReadonly
      (⟨.name name, span⟩ :: (markTokens n isOptional ++ ⟨.sign s, signSpan⟩ :: more)) := by
  rw [WebSurface.Member.ofText, tokens]
  cases isReadonly with
  | false =>
    simp only [leadTokens, Bool.false_eq_true, if_false, List.nil_append, List.tail_cons,
      firstIs_startsName hs, Bool.and_false]
  | true => rfl

theorem exists_tokens (hn : Head.IsName name) (isReadonly isOptional : Bool) {c : Char} {s : Sign}
    (hs : Sign.ofChar? c = some s) {r : Text} (hr : (TokenKind.sign s).EndsBefore r)
    (readable : Text.Readable (c :: r)) (apart : Lexeme.Apart (c :: r)) :
    ∃ span more, Token.tokenize (lead isReadonly ++ (name ++ (mark isOptional ++ c :: r))) =
      .ok (leadTokens isReadonly ++ ⟨.name name, span⟩ ::
        (markTokens (Text.bytes (lead isReadonly ++ name)) isOptional ++ ⟨.sign s,
          ⟨Text.bytes (lead isReadonly ++ name ++ mark isOptional),
            Text.bytes (lead isReadonly ++ name ++ mark isOptional ++ [c])⟩⟩ :: more)) := by
  have marked := apart_mark isOptional apart
  have named := Text.Readable.name hn marked (readable_mark isOptional readable)
  have lexemes := Lexeme.ofText_name hn marked.fresh
  obtain ⟨more, rest⟩ := among_mark (lead isReadonly ++ name) isOptional hs hr
  refine ⟨⟨Text.bytes (lead isReadonly), Text.bytes (lead isReadonly ++ name)⟩,
    more ++ [endAt (Text.bytes (lead isReadonly ++ (name ++ (mark isOptional ++ c :: r))))], ?_⟩
  cases isReadonly with
  | false =>
    have blank : lead false = [] := rfl
    rw [blank, List.nil_append] at rest ⊢
    rw [List.nil_append, Token.tokenize_eq_ok named.faultless, lexemes, Token.among_token,
      TokenKind.spelling, Nat.zero_add, rest]
    simp [leadTokens]
  | true =>
    have word : lead true = "readonly".toList ++ [' '] := rfl
    have whole :
        Text.Readable ("readonly".toList ++ ' ' :: (name ++ (mark isOptional ++ c :: r))) :=
      .name isName_readonly (Lexeme.apart_cons (by decide) _) named.space
    have words : Lexeme.ofText ("readonly".toList ++ ' ' :: (name ++ (mark isOptional ++ c :: r))) =
        .token (.name "readonly".toList) :: .blank [' '] :: .token (.name name) ::
          Lexeme.ofText (mark isOptional ++ c :: r) := by
      rw [Lexeme.ofText_name isName_readonly (Interface.fresh_space _), Lexeme.ofText_space,
        lexemes]
    have start : 0 + Text.bytes "readonly".toList + Text.bytes [' '] = Text.bytes (lead true) := by
      rw [word, Text.bytes_append, Nat.zero_add]
    have text : lead true ++ (name ++ (mark isOptional ++ c :: r)) =
        "readonly".toList ++ ' ' :: (name ++ (mark isOptional ++ c :: r)) := rfl
    rw [text, Token.tokenize_eq_ok whole.faultless, words, Token.among_token, Token.among_blank,
      Token.among_token, TokenKind.spelling, TokenKind.spelling, start, ← Text.bytes_append, rest]
    simp [leadTokens]

theorem ofText_signature {s : Signature} (h : s.Valid) :
    WebSurface.Member.ofText s.text =
      .ok (.call ⟨s.meaning.parameters, s.meaning.returnType⟩) := by
  obtain ⟨c, k, r, htext, hc, hk⟩ := s.exists_bracket
  have readable := Signature.readable_text h
  have read := Signature.ofText?_text h
  have whole : Text.after s.text 0 = s.text := Text.after_bytes [] _
  have tokens := Token.tokenize_eq_ok readable.faultless
  rw [htext, Lexeme.ofText_sign hc trivial, Token.among_token, ← htext] at tokens
  rw [WebSurface.Member.ofText, tokens]
  rcases hk with rfl | rfl <;>
    simp [WebSurface.Member.ofTokens, WebSurface.Member.firstIs, WebSurface.Member.opensSignature,
      TokenKind.isWord, whole, read]

theorem ofText_property {name type : Text} (hn : Head.IsName name)
    (htype : TypeText.IsWritten type) (hblank : type.blank = false) (isReadonly isOptional : Bool) :
    WebSurface.Member.ofText (property isReadonly name isOptional type).text =
      .ok (.property ⟨name, (TypeText.splitNullish type).1,
        isOptional || TypeText.admitsNullish type, isReadonly⟩) := by
  have readable : (ascription (some type)).Readable :=
    readable_ascription fun t ht => Option.some.inj ht ▸ htype
  obtain ⟨span, more, tokens⟩ := exists_tokens hn isReadonly isOptional (s := .colon) rfl trivial
    readable (apart_ascription (some type))
  rw [text, ascription, Option.elim_some, ofText_tokens rfl tokens,
    ofTokens_name rfl fun _ _ => rfl]
  refine ofName_ascription hblank ?_
  simpa using Text.after_bytes (lead isReadonly ++ name ++ mark isOptional ++ [':']) (' ' :: type)

theorem ofText_method {name : Text} (hn : Head.IsName name) {isOptional : Bool}
    (hnew : name = "new".toList → isOptional) {h : Heading} (hh : h.Valid) {return? : Option Text}
    (returns : ∀ t ∈ return?, TypeText.IsWritten t ∧ t.blank = false) :
    WebSurface.Member.ofText (name ++ (mark isOptional ++ (h.text ++ ascription return?))) =
      .ok (.method ⟨name, (h.meaning return?).parameters, (h.meaning return?).returnType,
        (h.meaning return?).returnIsNullable, none⟩) := by
  obtain ⟨c, k, r, hsign, hc, hk⟩ := h.exists_bracket (ascription return?)
  have readable := Heading.readable_ascription hh fun t ht => (returns t ht).1
  have apart := h.apart_append (ascription return?)
  have signature := Heading.ofText?_ascription hh returns
  rw [hsign] at readable apart signature ⊢
  have starts : WebSurface.Member.startsName (.sign (.opening k)) = false := by
    rcases hk with rfl | rfl <;> rfl
  have opens : WebSurface.Member.opensSignature (.sign (.opening k)) := by
    rcases hk with rfl | rfl <;> rfl
  obtain ⟨span, more, tokens⟩ := exists_tokens hn false isOptional hc trivial readable apart
  have bare : lead false ++ (name ++ (mark isOptional ++ c :: r)) =
      name ++ (mark isOptional ++ c :: r) := rfl
  rw [bare] at tokens
  rw [ofText_tokens starts tokens, ofTokens_name starts fun hname hno => ?_]
  · refine ofName_signature opens (s := h.meaning return?) ?_
    have after := Text.after_bytes (lead false ++ name ++ mark isOptional) (c :: r)
    rw [List.append_assoc, List.append_assoc] at after
    exact (congrArg WebSurface.Signature.ofText? after).trans signature
  · rw [hnew hname] at hno
    cases hno

/-- A member is read back, whatever its names are, its types and the number of its parameters. -/
theorem ofText_text {w : Member} (h : w.Valid) :
    WebSurface.Member.ofText w.text = .ok w.meaning := by
  cases w with
  | property isReadonly name isOptional type =>
    obtain ⟨hn, htype, hblank⟩ := h
    exact ofText_property hn htype hblank isReadonly isOptional
  | method name isOptional signature =>
    obtain ⟨hn, hnew, hsignature⟩ := h
    have read := ofText_method hn hnew (Signature.valid_heading hsignature) hsignature.returns
    rwa [← signature.text_eq, Signature.meaning_heading hsignature] at read
  | call signature => exact ofText_signature h

/-- A method whose name could be a modifier. -/
theorem ofText_text_get : WebSurface.Member.ofText
    "get?<K extends string>(key: K, ...rest: (K | null)[]): Map<K, () => V> | undefined".toList =
      .ok (.method ⟨"get".toList, [⟨"key".toList, ['K'], false, false⟩,
        ⟨"rest".toList, "(K | null)[]".toList, false, true⟩], "Map<K, () => V>".toList, true,
        none⟩) := by
  let get : Member := .method "get".toList true ⟨some "K extends string".toList,
    [⟨false, "key".toList, false, some ['K']⟩,
      ⟨true, "rest".toList, false, some "(K | null)[]".toList⟩],
    some "Map<K, () => V> | undefined".toList⟩
  have meaning : get.meaning = .method ⟨"get".toList, [⟨"key".toList, ['K'], false, false⟩,
      ⟨"rest".toList, "(K | null)[]".toList, false, true⟩], "Map<K, () => V>".toList, true,
      none⟩ := by
    decide +kernel
  have text : get.text =
      "get?<K extends string>(key: K, ...rest: (K | null)[]): Map<K, () => V> | undefined".toList :=
    by decide +kernel
  have read := ofText_text (w := get) (by decide +kernel)
  rwa [text, meaning] at read

/-- White space is no type of a property and no return type, a type of nullish members only is not
nullable, and type parameters have to be readable and must not end inside a comment. -/
theorem ofText_text_excluded :
    (TypeText.IsWritten [' '] ∧
      WebSurface.Member.ofText (property false ['n'] false [' ']).text = .error .unrecognized ∧
      WebSurface.Member.ofText (method ['n'] false ⟨none, [], some [' ']⟩).text =
        .error .unrecognized) ∧
    (TypeText.IsWritten "null".toList ∧
      (TypeText.unionMembers "null".toList).any TypeText.isNullish ∧
      WebSurface.Member.ofText (property false ['n'] false "null".toList).text =
        .ok (.property ⟨['n'], "null".toList, false, false⟩)) ∧
    (TypeText.enclosed? "<#>".toList = some ['#'] ∧
      WebSurface.Member.ofText (method ['n'] false ⟨some ['#'], [], none⟩).text =
        .error (.lexing [⟨.unexpected '#', ⟨2, 3⟩, ⟨1, 3⟩⟩])) ∧
    (TypeText.enclosed? "<T //>".toList = some "T //".toList ∧
      (∃ tokens, Token.tokenize "<T //>".toList = .ok tokens) ∧
      TypeText.IsWritten "\"\n\"".toList ∧
      WebSurface.Member.ofText (method ['n'] false
          ⟨some "T //".toList, [⟨false, ['x'], false, some "\"\n\"".toList⟩], none⟩).text =
        .error (.lexing [⟨.unterminatedString, ⟨13, 15⟩, ⟨2, 1⟩⟩])) := by
  refine ⟨⟨?_, ?_, ?_⟩, ⟨?_, ?_, ?_⟩, ⟨?_, ?_⟩, ?_, ?_, ?_, ?_⟩ <;> decide +kernel

end Member

end Written

end WebSurface
