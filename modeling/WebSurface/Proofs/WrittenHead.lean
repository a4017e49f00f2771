import WebSurface.Proofs.AliasHeads
import WebSurface.Proofs.MappedParts
import WebSurface.Proofs.TokenSpans
set_option autoImplicit false

namespace WebSurface

open Text (bytes)

@[mk_iff]
structure TypeText.IsAngled (t : Text) : Prop where
  commentFree : t.CommentFree
  tokens : ∃ tokens, Token.tokenize t = .ok tokens
  balanced : t.Balanced
  noEquals : t.getLast? ≠ some '='

instance (t : Text) : Decidable (TypeText.IsAngled t) :=
  decidable_of_iff' _ (TypeText.isAngled_iff t)

theorem TypeText.IsAngled.apartFrom {t : Text} (ht : IsAngled t) (u : Text) :
    Lexeme.ApartFrom t ('>' :: u) := by
  intro c hc
  obtain rfl := Option.some.inj hc
  exact ⟨by decide, by decide, fun _ => ht.noEquals⟩

namespace Written

def angled (inner? : Option Text) : Text := inner?.elim [] fun t => '<' :: (t ++ ['>'])

/-- An interface that another one extends: names with dots between them, and perhaps type
arguments. -/
structure Base where
  first : Text
  more : List Text
  arguments? : Option Text
  deriving DecidableEq, Repr

namespace Base

def name (b : Base) : Text := b.first ++ b.more.flatMap ('.' :: ·)

def text (b : Base) : Text := b.name ++ angled b.arguments?

@[mk_iff]
structure Valid (b : Base) : Prop where
  isName : ∀ n ∈ b.first :: b.more, Head.IsName n
  arguments : ∀ t ∈ b.arguments?, TypeText.IsAngled t

instance (b : Base) : Decidable b.Valid := decidable_of_iff' _ (valid_iff b)

end Base

/-- The head of an interface. It has a list of bases if the word `extends` is written. -/
structure InterfaceHead where
  modifiers : List String
  name : Text
  parameters? : Option Text
  bases? : Option (List Base)
  deriving DecidableEq, Repr

namespace InterfaceHead

def lead (words : List String) : Text := words.flatMap fun word => word.toList ++ [' ']

def clause (bases? : Option (List Base)) : Text :=
  bases?.elim [] fun bs =>
    ' ' :: ("extends".toList ++ ' ' :: Text.join ", ".toList (bs.map Base.text))

def rest (h : InterfaceHead) : Text := angled h.parameters? ++ (clause h.bases? ++ [' '])

def text (h : InterfaceHead) : Text :=
  lead h.modifiers ++ ("interface".toList ++ ' ' :: (h.name ++ h.rest))

def bases (h : InterfaceHead) : List Text := (h.bases?.getD []).map Base.name

@[mk_iff]
structure Valid (h : InterfaceHead) : Prop where
  modifiers : ∀ word ∈ h.modifiers, word ∈ Alias.modifiers
  name : Head.IsName h.name
  parameters : ∀ t ∈ h.parameters?, TypeText.IsAngled t
  bases : ∀ bs ∈ h.bases?, ∀ b ∈ bs, b.Valid

instance (h : InterfaceHead) : Decidable h.Valid := decidable_of_iff' _ (valid_iff h)

end InterfaceHead

end Written

/-! ### Where the head ends -/

/-- After the text a scan is where it was before, and no character of the text with property `p`
stands at top level. -/
structure Text.Passed (p : Char → Bool) (t : Text) : Prop where
  run : Nesting.outside.run t = .outside
  undivided : t.Undivided p

namespace Text.Passed

variable {p : Char → Bool} {t u : Text}

theorem of_plain (h : ∀ c ∈ t, isPlain c ∧ p c = false) : t.Passed p where
  run := Nesting.run_plain_outside fun c hc => (h c hc).1
  undivided := .of_forall fun c hc => (h c hc).2

theorem nil : Passed p [] := of_plain (by simp)

theorem append (ht : t.Passed p) (hu : u.Passed p) : Passed p (t ++ u) where
  run := by rw [Nesting.run_append, ht.run, hu.run]
  undivided := Undivided.append_iff.2 ⟨ht.undivided, by rw [ht.run]; exact hu.undivided⟩

theorem join {sep : Text} (hsep : sep.Passed p) {ts : List Text} (h : ∀ t ∈ ts, Passed p t) :
    Passed p (Text.join sep ts) :=
  Text.join_induction nil (fun _ _ ht hu => (ht.append hsep).append hu) h

theorem angled (hp : p '<' = false) {inner? : Option Text}
    (h : ∀ t ∈ inner?, TypeText.IsAngled t) : Passed p (Written.angled inner?) := by
  cases inner? with
  | none => exact nil
  | some t =>
    have ht := h t rfl
    refine ⟨?_, .enclosed rfl hp ht.balanced.opened⟩
    rw [Written.angled, Option.elim_some, Nesting.run_cons, Nesting.outside_step_opener rfl,
      Nesting.run_append, Nesting.run_deeper ht.balanced.opened,
      Nesting.run_eq_outside ht.balanced.closed ht.noEquals]
    rfl

theorem breakAt_cons (h : t.Passed p) {c : Char} (hc : p c) (r : Text) :
    Nesting.outside.breakAt p (t ++ c :: r) = (t, c :: r) := by
  rw [Nesting.breakAt_append_of_nil h.undivided, h.run, Nesting.breakAt, hc]
  simp [Nesting.topLevel_outside]

end Text.Passed

namespace Written

/-! ### The bases -/

namespace Base

variable {b : Base} (hb : b.Valid)

include hb

theorem forall_mem_name {p : Char → Prop} (named : ∀ c, Text.isNameChar c → p c) (dot : p '.') :
    ∀ c ∈ b.name, p c := by
  obtain ⟨first, more⟩ := List.forall_mem_cons.1 hb.isName
  refine List.forall_mem_append.2 ⟨fun c hc => named c (first.isNameChar c hc), fun c hc => ?_⟩
  obtain ⟨n, hn, hc⟩ := List.mem_flatMap.1 hc
  rcases List.mem_cons.1 hc with rfl | hc
  · exact dot
  · exact named c ((more n hn).isNameChar c hc)

theorem isBlank_name : ∀ c ∈ b.name, Text.isBlank c = false :=
  forall_mem_name hb (fun _ => Text.isBlank_of_isNameChar) rfl

theorem name_ne_nil : b.name ≠ [] := by
  obtain ⟨c, r, hfirst, -, -⟩ := hb.isName b.first List.mem_cons_self
  simp [name, hfirst]

theorem passed_text {p : Char → Bool} (named : ∀ c, Text.isNameChar c → p c = false)
    (dot : p '.' = false) (angle : p '<' = false) : b.text.Passed p := by
  have plain : ∀ c ∈ b.name, isPlain c ∧ p c = false :=
    forall_mem_name hb (fun c hc => ⟨isPlain_of_isNameChar hc, named c hc⟩) ⟨by decide, dot⟩
  exact (Text.Passed.of_plain plain).append (.angled angle hb.arguments)

theorem trim_text : b.text.trim = b.text := by
  rw [text, Text.trim_append_solids (isBlank_name hb) (name_ne_nil hb)]
  cases b.arguments? with
  | none => rfl
  | some t => exact congrArg _ (Text.trimEnd_append_solid (c := '>') (by decide) ('<' :: t))

theorem baseName_text : Head.baseName b.text = b.name := by
  have other : ∀ c ∈ b.name, (c != '<') = true :=
    forall_mem_name hb (fun c hc => bne_iff_ne.2 (Text.ne_of_isNameChar hc (by decide))) rfl
  have arguments : (angled b.arguments?).takeWhile (· != '<') = [] := by
    cases b.arguments? with
    | none => rfl
    | some t => rfl
  rw [Head.baseName, text, List.takeWhile_append_of_pos other, arguments, List.append_nil]
  exact Text.trim_eq_self (fun c hc => isBlank_name hb c (List.mem_of_mem_head? hc))
    fun c hc => isBlank_name hb c (List.mem_of_mem_getLast? hc)

end Base

theorem basesOf_join {bs : List Base} (hbs : ∀ b ∈ bs, b.Valid) :
    Head.basesOf (' ' :: (Text.join ", ".toList (bs.map Base.text) ++ [' '])) =
      bs.map Base.name := by
  have passed : ∀ t ∈ bs.map Base.text, t.Passed (· == ',') := List.forall_mem_map.2 fun b hb =>
    Base.passed_text (hbs b hb)
      (fun c hc => beq_eq_false_iff_ne.2 (Text.ne_of_isNameChar hc (by decide))) rfl rfl
  have whole : ∀ t ∈ bs.map Base.text, parts (· == ',') t = [t] := fun t ht => by
    obtain ⟨b, hb, rfl⟩ := List.mem_map.1 ht
    refine (passed _ ht).undivided.parts_eq (Base.trim_text (hbs b hb)) ?_
    simp [Base.text, Base.name_ne_nil (hbs b hb)]
  have list : partsTopLevel ',' (' ' :: (Text.join ", ".toList (bs.map Base.text) ++ [' '])) =
      bs.map Base.text := by
    rw [partsTopLevel_eq, ← List.singleton_append, parts_append_left rfl, parts_append_right rfl]
    refine parts_join_whole (opensNothing_of_beq (by decide)) (v := []) (w := [' ']) rfl rfl
      (d := ',') rfl (fun t ht => ?_) whole
    rw [(passed t (List.dropLast_subset _ ht)).run]
    rfl
  have names : (bs.map Base.text).map Head.baseName = bs.map Base.name := by
    rw [List.map_map]
    exact List.map_congr_left fun b hb => Base.baseName_text (hbs b hb)
  rw [Head.basesOf, list, names, List.filter_eq_self]
  exact List.forall_mem_map.2 fun b hb => by simpa using Base.name_ne_nil (hbs b hb)

/-! ### What is read of the head -/

theorem readable_angled {inner? : Option Text} (h : ∀ t ∈ inner?, TypeText.IsAngled t) :
    (angled inner?).Readable := by
  cases inner? with
  | none => exact .nil
  | some t =>
    have ht := h t rfl
    have close : Text.Readable ['>'] := .sign (s := .closing .angle) rfl trivial .nil
    exact .sign (s := .opening .angle) rfl trivial
      ((Text.Readable.of_commentFree ht.commentFree ht.tokens).append_of_apartFrom close
        (ht.apartFrom []))

theorem apart_angled (inner? : Option Text) {u : Text} (hu : Lexeme.Apart u) :
    Lexeme.Apart (angled inner? ++ u) := by
  cases inner? with
  | none => exact hu
  | some t => exact Lexeme.apart_cons (by decide) _

theorem Base.readable_text {b : Base} (hb : b.Valid) : b.text.Readable := by
  obtain ⟨first, more, arguments?⟩ := b
  have name : Text.Readable (first ++ more.flatMap ('.' :: ·)) := by
    have isName := hb.isName
    clear hb
    induction more generalizing first with
    | nil => exact .name (isName first List.mem_cons_self) Lexeme.apart_nil .nil
    | cons n ns ih =>
      obtain ⟨hfirst, hns⟩ := List.forall_mem_cons.1 isName
      obtain ⟨c, r, hn, hc, -⟩ := hns n List.mem_cons_self
      have noDots : ¬['.', '.'] <+: n ++ ns.flatMap ('.' :: ·) := by
        rw [hn]
        rintro ⟨v, hv⟩
        rw [← (List.cons.inj hv).1] at hc
        cases hc
      have fresh : Text.Fresh ('.' :: (n ++ ns.flatMap ('.' :: ·))) := fun c hc =>
        Option.some.inj hc ▸ rfl
      exact .cons (Lexeme.ofText_name hfirst fresh) rfl rfl
        (.sign (s := .dot) rfl noDots (ih n hns))
  have apart := apart_angled arguments? Lexeme.apart_nil
  rw [List.append_nil] at apart
  exact name.append (readable_angled hb.arguments) apart

namespace InterfaceHead

theorem clause_some (bs : List Base) : clause (some bs) ++ [' '] =
    ' ' :: ("extends".toList ++ ' ' :: (Text.join ", ".toList (bs.map Base.text) ++ [' '])) := by
  simp [clause]

theorem apart_clause (bases? : Option (List Base)) : Lexeme.Apart (clause bases? ++ [' ']) := by
  cases bases? with
  | none => exact Lexeme.apart_cons (by decide) _
  | some bs => exact Lexeme.apart_cons (by decide) _

theorem readable_clause {bases? : Option (List Base)} (h : ∀ bs ∈ bases?, ∀ b ∈ bs, b.Valid) :
    Text.Readable (clause bases? ++ [' ']) := by
  have space : Text.Readable [' '] := .space .nil
  cases bases? with
  | none => exact space
  | some bs =>
    have each : ∀ u ∈ bs.map Base.text, Text.Readable u :=
      List.forall_mem_map.2 fun b hb => Base.readable_text (h bs rfl b hb)
    have list : Text.Readable (Text.join ", ".toList (bs.map Base.text) ++ [' ']) :=
      (Text.Readable.join each).append space (Lexeme.apart_cons (by decide) _)
    have word : Head.IsName "extends".toList := by decide
    rw [clause_some]
    exact .space (.name word (Lexeme.apart_cons (by decide) _) (.space list))

variable {h : InterfaceHead}

theorem readable_rest (hh : h.Valid) : h.rest.Readable :=
  (readable_angled hh.parameters).append (readable_clause hh.bases) (apart_clause h.bases?)

theorem apart_rest (h : InterfaceHead) : Lexeme.Apart h.rest :=
  apart_angled h.parameters? (apart_clause h.bases?)

end InterfaceHead

end Written

open Token (among endAt)
open Lexeme (ofText)

namespace Written

theorem ofText_angled {t : Text} (ht : TypeText.IsAngled t) (u : Text) :
    ofText (angled (some t) ++ u) = .token (.sign (.opening .angle)) ::
      (ofText t ++ .token (.sign (.closing .angle)) :: ofText u) := by
  have inner : ofText (t ++ '>' :: u) = ofText t ++ ofText ('>' :: u) :=
    (Text.Readable.of_commentFree ht.commentFree ht.tokens).ofText_append_of_apartFrom
      (ht.apartFrom u)
  rw [Lexeme.ofText_sign (s := .closing .angle) rfl trivial] at inner
  rw [← inner, ← Lexeme.ofText_sign (c := '<') (s := .opening .angle) rfl trivial]
  simp [angled]

theorem group?_angled {t : Text} (ht : TypeText.IsAngled t) (u : Text) :
    group? (angled (some t) ++ u) = some (t, u) := by
  rw [angled, Option.elim_some, List.cons_append, List.append_assoc]
  exact group?_eq rfl ht.balanced
    (Nesting.closes_of_noEquals ht.balanced.closed ht.noEquals rfl) u

theorem bytes_angled (t : Text) : bytes (angled (some t)) = 1 + bytes t + 1 := by
  simp only [angled, Option.elim_some, Text.bytes_cons, Text.bytes_append, Text.bytes_nil,
    Nat.add_zero, ← Nat.add_assoc]
  rfl

theorem matchingClose_angled {t : Text} (ht : TypeText.IsAngled t) (a u : Text) :
    matchingClose (a ++ (angled (some t) ++ u)) (bytes a) = some (bytes a + 1 + bytes t) := by
  rw [matchingClose_append, group?_angled ht]
  rfl

theorem among_angled {t : Text} (ht : TypeText.IsAngled t) (n : Nat) (u : Text) :
    among n (ofText (angled (some t) ++ u)) = ⟨.sign (.opening .angle), ⟨n, n + 1⟩⟩ ::
      (among (n + 1) (ofText t) ++
        [⟨.sign (.closing .angle), ⟨n + 1 + bytes t, n + 1 + bytes t + 1⟩⟩] ++
        among (n + 1 + bytes t + 1) (ofText u)) := by
  rw [ofText_angled ht, Token.among_token, Token.among_append, Token.among_token,
    Lexeme.flatMap_text_ofText, ← List.append_cons]
  rfl

/-- The tokens of type parameters are skipped, and no others. -/
theorem skipTypeParameters?_angled {inner? : Option Text} (hi : ∀ t ∈ inner?, TypeText.IsAngled t)
    (a u : Text)
    (first : ∀ k ∈ (among (bytes a) (ofText u)).head?, k.kind ≠ .sign (.opening .angle)) :
    Head.skipTypeParameters? (a ++ (angled inner? ++ u))
        (among (bytes a) (ofText (angled inner? ++ u)) ++
          [endAt (bytes (a ++ (angled inner? ++ u)))]) =
      some (among (bytes (a ++ angled inner?)) (ofText u) ++
        [endAt (bytes (a ++ (angled inner? ++ u)))]) := by
  cases inner? with
  | none =>
    rw [show angled none = [] from rfl, List.nil_append, List.append_nil]
    cases hks : among (bytes a) (ofText u) with
    | nil => rfl
    | cons k ks =>
      rw [hks] at first
      rw [List.cons_append, Head.skipTypeParameters?, if_neg (by simpa using first k rfl)]
  | some t =>
    have ht := hi t rfl
    have close := matchingClose_angled ht a u
    have tokens := among_angled ht (bytes a) u
    have after : bytes (a ++ angled (some t)) = bytes a + 1 + bytes t + 1 := by
      rw [Text.bytes_append, bytes_angled]
      omega
    have stop : bytes a + 1 + bytes t < bytes (a ++ (angled (some t) ++ u)) := by
      rw [← List.append_assoc, Text.bytes_append (a ++ _), after]
      omega
    generalize bytes (a ++ (angled (some t) ++ u)) = e at stop
    generalize hn : bytes a + 1 + bytes t = n at close tokens after stop
    -- The tokens up to the closing bracket start there or before, and all others after it.
    have inside : ∀ k ∈ among (bytes a + 1) (ofText t) ++ [⟨.sign (.closing .angle), ⟨n, n + 1⟩⟩],
        k.span.start ≤ n := by
      refine List.forall_mem_append.2 ⟨fun k hk => ?_, by simp⟩
      have := (Token.start_of_mem_among hk).2
      rwa [Lexeme.flatMap_text_ofText, hn] at this
    have beyond : ∀ k ∈ among (n + 1) (ofText u) ++ [endAt e], n < k.span.start :=
      List.forall_mem_append.2 ⟨fun k hk => (Token.start_of_mem_among hk).1,
        List.forall_mem_singleton.2 stop⟩
    rw [tokens, after, List.cons_append, Head.skipTypeParameters?, if_pos (beq_self_eq_true _),
      close, Option.map_some, List.append_assoc (_ ++ [_]),
      Token.dropWhile_append_of_start inside beyond]

namespace InterfaceHead

variable {h : InterfaceHead}

theorem among_clause (bs : List Base) (n : Nat) :
    among n (ofText (clause (some bs) ++ [' '])) = ⟨.name "extends".toList, ⟨n + 1, n + 8⟩⟩ ::
      among (n + 8) (ofText (' ' :: (Text.join ", ".toList (bs.map Base.text) ++ [' ']))) := by
  have lexemes : ofText (clause (some bs) ++ [' ']) = .blank [' '] ::
      .token (.name "extends".toList) ::
        ofText (' ' :: (Text.join ", ".toList (bs.map Base.text) ++ [' '])) := by
    rw [clause_some, Lexeme.ofText_space,
      Lexeme.ofText_name (by decide) (Interface.fresh_space _)]
  rw [lexemes]
  rfl

theorem bases?_rest (hh : h.Valid) (a : Text) :
    Head.bases? (a ++ h.rest) (among (bytes a) (ofText h.rest) ++ [endAt (bytes (a ++ h.rest))]) =
      some h.bases := by
  have space (n : Nat) : among n (ofText (clause none ++ [' '])) = [] := by
    rw [show clause none ++ [' '] = [' '] from rfl, Lexeme.ofText_space, Lexeme.ofText_nil]
    rfl
  have first (n : Nat) : ∀ k ∈ (among n (ofText (clause h.bases? ++ [' ']))).head?,
      k.kind ≠ .sign (.opening .angle) := by
    cases h.bases? with
    | none => simp [space]
    | some bs => simp [among_clause]
  rw [Head.bases?, rest, skipTypeParameters?_angled hh.parameters a _ (first _), Option.map_some,
    bases]
  cases hb : h.bases? with
  | none =>
    rw [space]
    rfl
  | some bs =>
    have cut : a ++ (angled h.parameters? ++ (clause (some bs) ++ [' '])) =
        (a ++ angled h.parameters? ++ ' ' :: ("extends".toList)) ++
          ' ' :: (Text.join ", ".toList (bs.map Base.text) ++ [' ']) := by
      rw [clause_some]
      simp
    have stop : bytes (a ++ angled h.parameters? ++ ' ' :: "extends".toList) =
        bytes (a ++ angled h.parameters?) + 8 := by
      rw [Text.bytes_append]
      rfl
    rw [among_clause, cut]
    refine congrArg some ((if_pos (beq_self_eq_true (TokenKind.name "extends".toList))).trans ?_)
    rw [← stop, Text.after_bytes, basesOf_join (hh.bases bs hb)]
    rfl

theorem lead_cons (word : String) (words : List String) (t : Text) :
    lead (word :: words) ++ t = word.toList ++ ' ' :: (lead words ++ t) := by
  simp [lead]

theorem dropWhile_lead {words : List String} (hw : ∀ word ∈ words, word ∈ Alias.modifiers)
    (n : Nat) (t : Text) (ks : List Token) :
    (among n (ofText (lead words ++ t)) ++ ks).dropWhile Head.isModifier =
      (among (n + bytes (lead words)) (ofText t) ++ ks).dropWhile Head.isModifier := by
  induction words generalizing n with
  | nil => rfl
  | cons word words ih =>
    obtain ⟨hword, hwords⟩ := List.forall_mem_cons.1 hw
    have place : n + bytes (TokenKind.name word.toList).spelling + bytes [' '] +
        bytes (lead words) = n + bytes (lead (word :: words)) := by
      simp [lead, TokenKind.spelling, Nat.add_assoc]
    rw [lead_cons, Lexeme.ofText_name (Alias.isName_of_mem_modifiers word hword)
      (Interface.fresh_space _), Lexeme.ofText_space, Token.among_token, Token.among_blank,
      List.cons_append, List.dropWhile_cons_of_pos (Alias.isModifier_of_mem_modifiers hword _),
      ih hwords, place]

def front (h : InterfaceHead) : Text := lead h.modifiers ++ ("interface".toList ++ ' ' :: h.name)

theorem text_eq (h : InterfaceHead) : h.text = h.front ++ h.rest := by simp [text, front]

theorem dropWhile_tokens (hh : h.Valid) (ks : List Token) : ∃ s s' : Span,
    (among 0 (ofText h.text) ++ ks).dropWhile Head.isModifier =
      ⟨.name "interface".toList, s⟩ :: ⟨.name h.name, s'⟩ ::
        (among (bytes h.front) (ofText h.rest) ++ ks) := by
  have place : 0 + bytes (lead h.modifiers) + bytes (TokenKind.name "interface".toList).spelling +
      bytes [' '] + bytes (TokenKind.name h.name).spelling = bytes h.front := by
    simp [front, TokenKind.spelling, Nat.add_assoc]
  rw [text, dropWhile_lead hh.modifiers, Lexeme.ofText_name (by decide) (Interface.fresh_space _),
    Lexeme.ofText_space, Lexeme.ofText_name hh.name (apart_rest h).fresh, Token.among_token,
    Token.among_blank, Token.among_token, place]
  exact ⟨_, _, rfl⟩

theorem forall_mem_front (hh : h.Valid) {p : Char → Prop} (named : ∀ c, Text.isNameChar c → p c)
    (space : p ' ') : ∀ c ∈ h.front, p c := by
  have word {w : Text} (hw : Head.IsName w) : ∀ c ∈ w, p c := fun c hc =>
    named c (hw.isNameChar c hc)
  refine List.forall_mem_append.2 ⟨fun c hc => ?_, List.forall_mem_append.2
    ⟨word Interface.isName_interface, List.forall_mem_cons.2 ⟨space, word hh.name⟩⟩⟩
  obtain ⟨w, hw, hc⟩ := List.mem_flatMap.1 hc
  rcases List.mem_append.1 hc with hc | hc
  · exact word (Alias.isName_of_mem_modifiers w (hh.modifiers w hw)) c hc
  · exact List.mem_singleton.1 hc ▸ space

theorem passed_text (hh : h.Valid) : h.text.Passed fun c => c == '{' || c == '=' := by
  have named (c : Char) (hc : Text.isNameChar c) : (c == '{' || c == '=') = false := by
    simp [Text.ne_of_isNameChar hc (d := '\x7b') (by decide),
      Text.ne_of_isNameChar hc (d := '=') (by decide)]
  have front : h.front.Passed fun c => c == '{' || c == '=' := .of_plain
    (forall_mem_front hh (fun c hc => ⟨isPlain_of_isNameChar hc, named c hc⟩) (by decide))
  have clause : (clause h.bases?).Passed fun c => c == '{' || c == '=' := by
    cases hb : h.bases? with
    | none => exact .nil
    | some bs =>
      have list : (Text.join ", ".toList (bs.map Base.text)).Passed fun c => c == '{' || c == '=' :=
        .join (.of_plain (by decide)) (List.forall_mem_map.2 fun b hb' =>
          Base.passed_text (hh.bases bs hb b hb') named rfl rfl)
      exact (Text.Passed.of_plain (t := " extends ".toList) (by decide)).append list
  rw [text_eq]
  exact front.append ((Text.Passed.angled rfl hh.parameters).append
    (clause.append (.of_plain (by decide))))

theorem readable_lead {words : List String} (hw : ∀ word ∈ words, word ∈ Alias.modifiers)
    {t : Text} (ht : t.Readable) : Text.Readable (lead words ++ t) := by
  induction words with
  | nil => exact ht
  | cons word words ih =>
    obtain ⟨hword, hwords⟩ := List.forall_mem_cons.1 hw
    rw [lead_cons]
    exact .name (Alias.isName_of_mem_modifiers word hword) (Lexeme.apart_cons (by decide) _)
      (.space (ih hwords))

theorem readable_text (hh : h.Valid) : h.text.Readable :=
  readable_lead hh.modifiers (.name Interface.isName_interface (Lexeme.apart_cons (by decide) _)
    (.space (.name hh.name (apart_rest h) (readable_rest hh))))

/-- The head of an interface is read as it is written, whatever the body is and whatever follows. -/
theorem ofText?_text_brace (hh : h.Valid) (r : Text) :
    Head.ofText? (h.text ++ '{' :: r) = some ⟨.interface, h.name, h.bases, bytes h.text⟩ := by
  have cut : Head.cut (h.text ++ '{' :: r) = (h.text, '{' :: r) :=
    (passed_text hh).breakAt_cons rfl r
  obtain ⟨s, s', tokens⟩ := dropWhile_tokens hh [endAt (bytes h.text)]
  have bases := bases?_rest hh h.front
  rw [← text_eq] at bases
  simp only [Head.ofText?, cut, Token.tokenize_eq_ok (readable_text hh).faultless, tokens]
  have kind : Head.kind? ⟨.name "interface".toList, s⟩ = some .interface := rfl
  rw [kind]
  simp [TokenKind.name?, bases]

/-- Braces, equals signs, an arrow and a string stand in the type parameters. -/
theorem ofText?_text_brace_arrow :
    let h : InterfaceHead :=
      ⟨["export", "declare"], ['A'], some "T = \x7b a: '<' \x7d, U = () => T".toList,
        some [⟨['b'], [['C']], some "X<Y>, Z".toList⟩, ⟨['E'], [], none⟩]⟩
    h.text = ("export declare interface A<T = \x7b a: '<' \x7d, U = () => T>" ++
        " extends b.C<X<Y>, Z>, E ").toList ∧
      Head.ofText? (h.text ++ '{' :: "= /* '".toList) =
        some ⟨.interface, ['A'], ["b.C".toList, ['E']], 80⟩ := by
  intro h
  have valid : h.Valid := by decide +kernel
  have text : h.text = ("export declare interface A<T = \x7b a: '<' \x7d, U = () => T>" ++
      " extends b.C<X<Y>, Z>, E ").toList := by
    decide +kernel
  have bases : h.bases = ["b.C".toList, ['E']] := by decide +kernel
  have stop : bytes h.text = 80 := by decide +kernel
  have head := ofText?_text_brace valid "= /* '".toList
  rw [bases, stop] at head
  exact ⟨text, head⟩

end InterfaceHead

end Written

end WebSurface
