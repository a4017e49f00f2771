import Mathlib.Tactic.MkIffOfInductiveProp
import WebSurface.Declaration.Member
import WebSurface.Proofs.CommentCover
import WebSurface.Proofs.InterfaceLayout
import WebSurface.Proofs.Unions
set_option autoImplicit false

namespace WebSurface

namespace Lexeme

theorem Apart.fresh {u : Text} (hu : Apart u) : u.Fresh := fun c hc => (hu c hc).1

theorem apart_nil : Apart [] := fun c hc => by cases hc

theorem apart_cons {c : Char} (hc : (Text.isNameChar c || c == '.' || c == '>') = false)
    (r : Text) : Apart (c :: r) := by
  simp only [Bool.or_eq_false_iff, beq_eq_false_iff_ne] at hc
  intro d hd
  rw [← Option.some.inj hd]
  exact ⟨hc.1.1, hc.1.2, hc.2⟩

theorem ofText_sign {c : Char} {s : Sign} (hs : Sign.ofChar? c = some s) {r : Text}
    (hr : (TokenKind.sign s).EndsBefore r) : ofText (c :: r) = .token (.sign s) :: ofText r := by
  rw [ofText_cons, next_sign hs hr]

end Lexeme

open Lexeme

/-- All of the text can be read, and it does not end with a comment. -/
structure Text.Readable (t : Text) : Prop where
  faultless : ∀ l ∈ ofText t, l.isFault = false
  uncommented : ∀ l ∈ (ofText t).getLast?, l.isComment = false

namespace Text.Readable

variable {t u : Text}

theorem of_commentFree (ht : t.CommentFree) (h : ∃ tokens, Token.tokenize t = .ok tokens) :
    t.Readable where
  faultless := Token.exists_tokenize_iff.1 h
  uncommented l hl := ht l (List.mem_of_getLast? hl)

theorem ofText_append_of_apartFrom (ht : t.Readable) (hu : ApartFrom t u) :
    ofText (t ++ u) = ofText t ++ ofText u :=
  Lexeme.ofText_append_of_apartFrom ht.faultless ht.uncommented hu

theorem nil : Text.Readable [] where
  faultless l hl := by simp at hl
  uncommented l hl := by simp at hl

theorem append_of_apartFrom (ht : t.Readable) (hu : u.Readable) (apart : ApartFrom t u) :
    Text.Readable (t ++ u) where
  faultless := by
    rw [ht.ofText_append_of_apartFrom apart]
    exact List.forall_mem_append.2 ⟨ht.faultless, hu.faultless⟩
  uncommented l hl := by
    rw [ht.ofText_append_of_apartFrom apart, List.getLast?_append] at hl
    rcases Option.or_eq_some_iff.1 hl with hl | ⟨-, hl⟩
    · exact hu.uncommented l hl
    · exact ht.uncommented l hl

theorem append (ht : t.Readable) (hu : u.Readable) (apart : Apart u) : Text.Readable (t ++ u) :=
  ht.append_of_apartFrom hu (apart.apartFrom t)

theorem cons {l : Lexeme} (hl : ofText u = l :: ofText t) (hf : l.isFault = false)
    (hc : l.isComment = false) (ht : t.Readable) : u.Readable where
  faultless := by
    rw [hl]
    exact List.forall_mem_cons.2 ⟨hf, ht.faultless⟩
  uncommented k hk := by
    rw [hl, List.getLast?_cons] at hk
    obtain rfl := Option.some.inj hk
    cases hlast : (ofText t).getLast? with
    | none => exact hc
    | some k => exact ht.uncommented k hlast

theorem sign {c : Char} {s : Sign} (hs : Sign.ofChar? c = some s)
    (hends : (TokenKind.sign s).EndsBefore t) (ht : t.Readable) : Text.Readable (c :: t) :=
  cons (ofText_sign hs hends) rfl rfl ht

theorem space (ht : t.Readable) : Text.Readable (' ' :: t) := cons (ofText_space t) rfl rfl ht

theorem ellipsis (ht : t.Readable) : Text.Readable ('.' :: '.' :: '.' :: t) :=
  cons (ofText_ellipsis t) rfl rfl ht

theorem name {name : Text} (hn : Head.IsName name) (apart : Apart t) (ht : t.Readable) :
    Text.Readable (name ++ t) :=
  cons (ofText_name hn apart.fresh) rfl rfl ht

theorem join {ts : List Text} (h : ∀ t ∈ ts, t.Readable) :
    Text.Readable (Text.join [',', ' '] ts) := by
  refine Text.join_induction nil (fun t u ht hu => ?_) h
  have rest : Text.Readable (',' :: ' ' :: u) := sign (s := .comma) rfl trivial (space hu)
  rw [List.append_assoc]
  exact ht.append rest (apart_cons (by decide) _)

end Text.Readable

/-- All brackets and strings of the text are closed at its end, and none is closed before it is
opened. -/
@[mk_iff]
structure Text.Balanced (t : Text) : Prop where
  opened : Nesting.outside.opened t
  closed : (Nesting.outside.run t).topLevel

namespace Text.Balanced

variable {t u : Text}

theorem nil : Text.Balanced [] := ⟨rfl, rfl⟩

theorem of_plain {x : Text} (hx : ∀ c ∈ x, isPlain c) : Text.Balanced x where
  opened := Nesting.opened_plain hx
  closed := Nesting.topLevel_run_plain hx rfl

theorem append (ht : t.Balanced) (hu : u.Balanced) : Text.Balanced (t ++ u) where
  opened := by
    rw [Nesting.opened_append, ht.opened, Nesting.opened_of_topLevel ht.closed hu.opened]
    rfl
  closed := by
    rw [Nesting.run_append]
    exact Nesting.topLevel_run ht.closed hu.closed

theorem plain_append {x : Text} (hx : ∀ c ∈ x, isPlain c) (ht : t.Balanced) :
    Text.Balanced (x ++ t) :=
  (of_plain hx).append ht

theorem append_cons {c : Char} (hc : isPlain c) (ht : t.Balanced) (hu : u.Balanced) :
    Text.Balanced (t ++ c :: u) :=
  ht.append (hu.plain_append (List.forall_mem_singleton.2 hc))

theorem join {sep : Text} (plain : ∀ c ∈ sep, isPlain c) {ts : List Text}
    (h : ∀ t ∈ ts, t.Balanced) : Text.Balanced (Text.join sep ts) :=
  Text.join_induction nil (fun _ _ ht hu => (ht.append (of_plain plain)).append hu) h

end Text.Balanced

instance (t : Text) : Decidable t.Balanced := decidable_of_iff' _ (Text.balanced_iff t)

instance (t : Text) : Decidable (∃ tokens, Token.tokenize t = .ok tokens) :=
  decidable_of_iff ((Lexeme.ofText t).all (!·.isFault))
    (by simp [Token.exists_tokenize_iff])

/-- The text can be written where a type is expected. -/
@[mk_iff]
structure TypeText.IsWritten (t : Text) : Prop where
  ne_nil : t ≠ []
  commentFree : t.CommentFree
  balanced : t.Balanced
  tokens : ∃ tokens, Token.tokenize t = .ok tokens
  noComma : findTopLevel ',' t = none
  noSemicolon : findTopLevel ';' t = none

instance (t : Text) : Decidable (TypeText.IsWritten t) :=
  decidable_of_iff' _ (TypeText.isWritten_iff t)

namespace Written

def dots (isVariadic : Bool) : Text := if isVariadic then ['.', '.', '.'] else []

def mark (isOptional : Bool) : Text := if isOptional then ['?'] else []

def ascription (type? : Option Text) : Text := type?.elim [] fun t => ':' :: ' ' :: t

def properType (type? : Option Text) : Text :=
  type?.elim "any".toList fun t => (TypeText.splitNullish t).1

structure Parameter where
  isVariadic : Bool
  name : Text
  isOptional : Bool
  type? : Option Text
  deriving DecidableEq, Repr

namespace Parameter

def text (p : Parameter) : Text :=
  dots p.isVariadic ++ (p.name ++ (mark p.isOptional ++ ascription p.type?))

def meaning (p : Parameter) : WebSurface.Parameter where
  name := p.name
  type := properType p.type?
  isNullable := p.isOptional || p.type?.any TypeText.admitsNullish
  isVariadic := p.isVariadic

@[mk_iff]
structure Valid (p : Parameter) : Prop where
  isName : Head.IsName p.name
  ne_this : p.name ≠ "this".toList
  type : ∀ t ∈ p.type?, TypeText.IsWritten t

instance (p : Parameter) : Decidable p.Valid := decidable_of_iff' _ (valid_iff p)

end Parameter

theorem splitNullish_any : TypeText.splitNullish "any".toList = ("any".toList, false) := by
  decide

theorem splitNullish_ascription (type? : Option Text) :
    TypeText.splitNullish (type?.elim "any".toList Text.trim) =
      (properType type?, type?.any TypeText.admitsNullish) := by
  cases type? with
  | none =>
    rw [Option.elim_none, splitNullish_any]
    rfl
  | some t =>
    rw [Option.elim_some, TypeText.splitNullish_trim, Option.any_some, properType,
      Option.elim_some, ← TypeText.splitNullish_snd]

/-- A character of a name, or one that may stand right before or after it. -/
structure IsCore (c : Char) : Prop where
  plain : isPlain c
  solid : Text.isBlank c = false
  ne_colon : (c == ':') = false
  ne_comma : (c == ',') = false

theorem isCore_dots (isVariadic : Bool) : ∀ c ∈ dots isVariadic, IsCore c := by
  intro c hc
  unfold dots at hc
  split at hc
  · rw [List.eq_of_mem_replicate (n := 3) hc]
    exact ⟨by decide, by decide, rfl, rfl⟩
  · cases hc

theorem isCore_mark {name : Text} (hn : Head.IsName name) (isOptional : Bool) :
    ∀ c ∈ name ++ mark isOptional, IsCore c := by
  intro c hc
  rcases List.mem_append.1 hc with hc | hc
  · have hc := hn.isNameChar c hc
    exact ⟨isPlain_of_isNameChar hc, Text.isBlank_of_isNameChar hc,
      beq_eq_false_iff_ne.2 (Text.ne_of_isNameChar hc (by decide)),
      beq_eq_false_iff_ne.2 (Text.ne_of_isNameChar hc (by decide))⟩
  · unfold mark at hc
    split at hc
    · rw [List.mem_singleton.1 hc]
      exact ⟨by decide, by decide, rfl, rfl⟩
    · cases hc

namespace Parameter

variable {p : Parameter}

theorem isCore (h : p.Valid) :
    ∀ c ∈ dots p.isVariadic ++ (p.name ++ mark p.isOptional), IsCore c :=
  List.forall_mem_append.2 ⟨isCore_dots p.isVariadic, isCore_mark h.isName p.isOptional⟩

theorem ne_nil (h : p.Valid) : p.name ++ mark p.isOptional ≠ [] := by
  obtain ⟨c, r, hname, -, -⟩ := h.isName
  simp [hname]

theorem trim_text (h : p.Valid) : p.text.trim =
    dots p.isVariadic ++ (p.name ++ mark p.isOptional ++ Text.trimEnd (ascription p.type?)) := by
  have assoc : p.text = dots p.isVariadic ++ (p.name ++ mark p.isOptional) ++
      ascription p.type? := by simp [text]
  rw [assoc, Text.trim_append_solids (fun c hc => (isCore h c hc).solid) (by simp [ne_nil h]),
    List.append_assoc]

theorem breakAt_text (h : p.Valid) :
    breakTopLevel (· == ':') (p.name ++ mark p.isOptional ++ Text.trimEnd (ascription p.type?)) =
      (p.name ++ mark p.isOptional, Text.trimEnd (ascription p.type?)) := by
  have core := isCore_mark h.isName p.isOptional
  cases p.type? with
  | none =>
    have : Text.trimEnd (ascription none) = [] := rfl
    rw [this, List.append_nil]
    exact Nesting.breakAt_eq_self fun c hc => (core c hc).ne_colon
  | some t =>
    have : Text.trimEnd (ascription (some t)) = ':' :: Text.trimEnd (' ' :: t) :=
      Text.trimEnd_cons_solid (by decide) _
    rw [this]
    exact Nesting.breakAt_plain (p := (· == ':'))
      (fun c hc => ⟨(core c hc).plain, (core c hc).ne_colon⟩) rfl _

theorem trimEnd_ascription (type? : Option Text) :
    (Text.trimEnd (ascription type?) = [] ∧ type?.elim "any".toList Text.trim = "any".toList) ∨
      ∃ t, Text.trimEnd (ascription type?) = ':' :: t ∧
        type?.elim "any".toList Text.trim = Text.trim t := by
  cases type? with
  | none => exact .inl ⟨rfl, rfl⟩
  | some t =>
    refine .inr ⟨Text.trimEnd (' ' :: t), Text.trimEnd_cons_solid (by decide) _, ?_⟩
    exact (Text.trim_append_left (w := [' ']) rfl t).symm.trans (Text.trim_trimEnd _).symm

theorem strip?_dots (h : p.Valid) (r : Text) :
    Text.strip? "...".toList (dots p.isVariadic ++ (p.name ++ r)) =
      if p.isVariadic then some (p.name ++ r) else none := by
  obtain ⟨c, w, hname, hc, -⟩ := h.isName
  have hne : c ≠ '.' := Text.ne_of_isNameChar (Text.isNameChar_of_startsName hc) (by decide)
  cases p.isVariadic with
  | true => exact Text.strip?_eq_some_iff.2 rfl
  | false => simp [dots, hname, Text.strip?, Ne.symm hne]

theorem stripEnd?_mark {name : Text} (hn : Head.IsName name) (isOptional : Bool) :
    (isOptional = true ∧ Text.stripEnd? ['?'] (name ++ mark isOptional) = some name) ∨
      (isOptional = false ∧ Text.stripEnd? ['?'] (name ++ mark isOptional) = none ∧
        name ++ mark isOptional = name) := by
  cases isOptional with
  | true => exact .inl ⟨rfl, Text.stripEnd?_eq_some_iff.2 rfl⟩
  | false =>
    have bare : name ++ mark false = name := List.append_nil name
    refine .inr ⟨rfl, Option.eq_none_iff_forall_ne_some.2 fun r hr => ?_, bare⟩
    rw [bare] at hr
    have := hn.isNameChar '?' (by rw [Text.stripEnd?_eq_some_iff.1 hr]; simp)
    exact absurd this (by decide)

/-- A parameter is read back, whatever white space was around it. -/
theorem ofText?_text (h : p.Valid) :
    WebSurface.Parameter.ofText? p.text.trim = some p.meaning := by
  have solid : ∀ c ∈ p.name ++ mark p.isOptional, Text.isBlank c = false := fun c hc =>
    (isCore_mark h.isName p.isOptional c hc).solid
  have start := Text.trimStart_solids solid (ne_nil h) (Text.trimEnd (ascription p.type?))
  have core : Text.trim (p.name ++ mark p.isOptional) = p.name ++ mark p.isOptional := by
    have := Text.trimStart_solids solid (ne_nil h) []
    rw [List.append_nil] at this
    rw [Text.trim, this, Text.trimEnd_solids solid]
  have name : Text.trimEnd p.name = p.name :=
    Text.trimEnd_solids fun c hc => solid c (List.mem_append_left _ hc)
  have named : (p.name.isEmpty || p.name == "this".toList) = false := by
    obtain ⟨c, r, hname, -, -⟩ := h.isName
    rw [beq_eq_false_iff_ne.2 h.ne_this, hname]
    rfl
  have variadic := strip?_dots h (mark p.isOptional ++ Text.trimEnd (ascription p.type?))
  have cut := breakAt_text h
  have marked := stripEnd?_mark h.isName p.isOptional
  have typed := splitNullish_ascription p.type?
  rw [← List.append_assoc p.name] at variadic
  rw [trim_text h, WebSurface.Parameter.ofText?, variadic]
  -- What is read depends on these texts only through the facts above: they are no longer opened.
  clear variadic solid
  generalize p.name ++ mark p.isOptional ++ Text.trimEnd (ascription p.type?) = body at *
  generalize p.name ++ mark p.isOptional = head at *
  rcases trimEnd_ascription p.type? with ⟨hrest, htype⟩ | ⟨t, hrest, htype⟩
  all_goals
    rw [hrest] at cut
    rw [htype] at typed
    rcases marked with ⟨ho, marked⟩ | ⟨ho, marked, rfl⟩ <;> cases hv : p.isVariadic <;>
      simp only [dots, List.nil_append, Bool.false_eq_true, if_true, if_false, start, cut, core,
        marked, name, named, typed, meaning, hv, ho]

theorem exists_lead (h : p.Valid) : ∃ x, p.text = x ++ p.type?.getD [] ∧
    ∀ c ∈ x, isPlain c ∧ (c == ',') = false := by
  refine ⟨dots p.isVariadic ++ (p.name ++ mark p.isOptional) ++ p.type?.elim [] fun _ => [':', ' '],
    ?_, List.forall_mem_append.2 ⟨fun c hc => ?_, ?_⟩⟩
  · unfold text ascription
    cases p.type? <;> simp
  · exact ⟨(isCore h c hc).plain, (isCore h c hc).ne_comma⟩
  · cases p.type? with
    | none => exact fun c hc => by cases hc
    | some t => exact List.forall_mem_cons.2 ⟨by decide, List.forall_mem_singleton.2 (by decide)⟩

theorem blank_text (h : p.Valid) : p.text.blank = false := by
  obtain ⟨c, r, hname, -, -⟩ := h.isName
  have := (isCore h c (by simp [hname])).solid
  simp [text, hname, this]

theorem parts_text (h : p.Valid) : parts (· == ',') p.text = [p.text.trim] := by
  obtain ⟨x, htext, hx⟩ := exists_lead h
  have type : Nesting.outside.cuts (· == ',') (p.type?.getD []) = [p.type?.getD []] := by
    have valid := h.type
    cases htype : p.type? with
    | none => rfl
    | some t =>
      exact Nesting.cuts_of_breakAt (findTopLevel_eq_none_iff.1 (valid t htype).noComma)
  have whole : Nesting.outside.cuts (· == ',') p.text = [p.text] := by
    rw [htext, Nesting.cuts_plain_append hx, type]
    rfl
  rw [parts, whole, tidy_cons, blank_text h]
  rfl

theorem balanced_text (h : p.Valid) : p.text.Balanced := by
  obtain ⟨x, htext, hx⟩ := exists_lead h
  rw [htext]
  refine .plain_append (fun c hc => (hx c hc).1) ?_
  have valid := h.type
  cases htype : p.type? with
  | none => exact .nil
  | some t => exact (valid t htype).balanced

/-- The parameters of a list are read back, each as it is and in their order. -/
theorem listOfText_join {ps : List Parameter} (h : ∀ p ∈ ps, p.Valid) :
    WebSurface.Parameter.listOfText (Text.join [',', ' '] (ps.map text)) = ps.map meaning := by
  have closed : ∀ t ∈ (ps.map text).dropLast, (Nesting.outside.run t).topLevel := fun t ht => by
    obtain ⟨p, hp, rfl⟩ := List.mem_map.1 (List.dropLast_subset _ ht)
    exact (balanced_text (h p hp)).closed
  have cut : partsTopLevel ',' (Text.join [',', ' '] (ps.map text)) =
      ps.map fun p => p.text.trim := by
    rw [partsTopLevel_eq]
    refine (parts_join (opensNothing_of_beq (by decide)) (v := [])
      (w := [' ']) rfl rfl (d := ',') rfl closed).trans ?_
    rw [List.flatMap_map, List.map_eq_flatMap]
    exact List.flatMap_congr fun p hp => parts_text (h p hp)
  have read : ∀ p ∈ ps, (WebSurface.Parameter.ofText? ∘ fun p : Parameter => p.text.trim) p =
      (some ∘ meaning) p := fun p hp => by
    rw [Function.comp_apply, ofText?_text (h p hp)]
    rfl
  rw [WebSurface.Parameter.listOfText, cut, List.filterMap_map, List.filterMap_congr read,
    List.filterMap_eq_map]

end Parameter

theorem apart_ascription (type? : Option Text) : Lexeme.Apart (ascription type?) := by
  cases type? with
  | none => exact Lexeme.apart_nil
  | some t => exact Lexeme.apart_cons (by decide) _

theorem readable_ascription {type? : Option Text} (h : ∀ t ∈ type?, TypeText.IsWritten t) :
    (ascription type?).Readable := by
  cases type? with
  | none => exact .nil
  | some t =>
    obtain ⟨-, commentFree, -, tokens, -, -⟩ := h t rfl
    exact .sign (s := .colon) rfl trivial (.space (.of_commentFree commentFree tokens))

theorem apart_mark (isOptional : Bool) {t : Text} (ht : Lexeme.Apart t) :
    Lexeme.Apart (mark isOptional ++ t) := by
  cases isOptional with
  | false => exact ht
  | true => exact Lexeme.apart_cons (by decide) _

theorem readable_mark (isOptional : Bool) {t : Text} (ht : t.Readable) :
    Text.Readable (mark isOptional ++ t) := by
  cases isOptional with
  | false => exact ht
  | true => exact .sign (s := .question) rfl trivial ht

namespace Parameter

theorem readable_text {p : Parameter} (h : p.Valid) : p.text.Readable := by
  have named : Text.Readable (p.name ++ (mark p.isOptional ++ ascription p.type?)) :=
    .name h.isName (apart_mark _ (apart_ascription _))
      (readable_mark _ (readable_ascription h.type))
  unfold text dots
  split
  · exact .ellipsis named
  · exact named

theorem readable_join {ps : List Parameter} (h : ∀ p ∈ ps, p.Valid) :
    Text.Readable (Text.join [',', ' '] (ps.map text)) :=
  .join (List.forall_mem_map.2 fun p hp => readable_text (h p hp))

end Parameter

end Written

end WebSurface
