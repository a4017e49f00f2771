import WebSurface.Declaration.Interface
import WebSurface.Proofs.Boundaries
import WebSurface.Proofs.InterfaceLayout
set_option autoImplicit false

namespace WebSurface

namespace Alias

open Lexeme (isSeparator)

def modifiers : List String := ["export", "declare", "default"]

/-- The text is the head of the alias of a name: modifiers, the word `type` and the name, with white
space between them. -/
inductive IsHead (name : Text) : Text → Prop
  | named {g h : Text} : (∀ c ∈ g, isSeparator c) → g ≠ [] → (∀ c ∈ h, isSeparator c) →
      IsHead name ("type".toList ++ (g ++ (name ++ h)))
  | modified {word : String} {g t : Text} : word ∈ modifiers → (∀ c ∈ g, isSeparator c) → g ≠ [] →
      IsHead name t → IsHead name (word.toList ++ (g ++ t))

theorem isName_of_mem_modifiers : ∀ word ∈ modifiers, Head.IsName word.toList := by decide

theorem isModifier_of_mem_modifiers {word : String} (h : word ∈ modifiers) (s : Span) :
    Head.isModifier ⟨.name word.toList, s⟩ := by
  simp only [modifiers, List.mem_cons, List.not_mem_nil, or_false] at h
  rcases h with rfl | rfl | rfl <;> rfl

theorem fresh_separators {g : Text} (hg : ∀ c ∈ g, isSeparator c) (hne : g ≠ []) (t : Text) :
    Text.Fresh (g ++ t) := by
  obtain ⟨c, g, rfl⟩ := List.exists_cons_of_ne_nil hne
  intro d hd
  rw [← Option.some.inj hd]
  exact Text.isNameChar_of_isBlank (Lexeme.isBlank_of_isSeparator (hg c List.mem_cons_self))

namespace IsHead

theorem trimStart_append {name head : Text} (h : IsHead name head) (r : Text) :
    Text.trimStart (head ++ r) = head ++ r := by
  cases h with
  | named => rfl
  | modified hword =>
    simp only [modifiers, List.mem_cons, List.not_mem_nil, or_false] at hword
    rcases hword with rfl | rfl | rfl <;> rfl

variable {name head : Text} (named : Head.IsName name) (h : IsHead name head)

include named h

theorem forall_mem {p : Char → Prop} (hname : ∀ c, Text.isNameChar c → p c)
    (hspace : ∀ c, isSeparator c → p c) : ∀ c ∈ head, p c := by
  have word {w : Text} (hw : Head.IsName w) : ∀ c ∈ w, p c := fun c hc =>
    hname c (hw.isNameChar c hc)
  have gap {g : Text} (hg : ∀ c ∈ g, isSeparator c) : ∀ c ∈ g, p c := fun c hc =>
    hspace c (hg c hc)
  induction h with
  | named hg _ hh =>
    exact List.forall_mem_append.2 ⟨word (by decide),
      List.forall_mem_append.2 ⟨gap hg, List.forall_mem_append.2 ⟨word named, gap hh⟩⟩⟩
  | modified hword hg _ _ ih =>
    exact List.forall_mem_append.2 ⟨word (isName_of_mem_modifiers _ hword),
      List.forall_mem_append.2 ⟨gap hg, ih⟩⟩

theorem blank_append (r : Text) :
    CommentMode.code.blank (head ++ r) = head ++ CommentMode.code.blank r :=
  CommentMode.blank_code_append (h.forall_mem named
    (fun _ hc => ⟨Text.ne_slash_of_isNameChar hc, Text.isQuote_of_isNameChar hc⟩)
    fun _ => CommentMode.plain_of_isSeparator) r

theorem cut_append (r : Text) : Head.cut (head ++ '=' :: r) = (head, '=' :: r) := by
  refine Nesting.breakAt_plain (h.forall_mem named (fun c hc => ?_) fun c hc => ?_) rfl r
  · refine ⟨isPlain_of_isNameChar hc, ?_⟩
    simp [Text.ne_of_isNameChar hc (d := '\x7b') (by decide),
      Text.ne_of_isNameChar hc (d := '=') (by decide)]
  · rcases Text.eq_of_isSeparator hc with rfl | rfl | rfl | rfl <;> decide

/-- The head is read as words, and those after its modifiers are the word `type` and the name. -/
theorem lexemes : (∀ l ∈ Lexeme.ofText head, l.isFault = false) ∧
    ∀ (n : Nat) (rest : List Token), ∃ word named : Token,
      (Token.among n (Lexeme.ofText head) ++ rest).dropWhile Head.isModifier =
        word :: named :: rest ∧ Head.kind? word = some .alias ∧ named.kind = .name name := by
  have spaces {g : Text} : ∀ l ∈ g.map fun c => Lexeme.blank [c], l.isFault = false :=
    List.forall_mem_map.2 fun _ _ => rfl
  induction h with
  | @named g h hg hne hh =>
    have after : Lexeme.ofText (name ++ h) =
        .token (.name name) :: (h.map (fun c => .blank [c]) ++ []) := by
      have fresh : Text.Fresh h := by
        by_cases hnil : h = []
        · simp [hnil, Text.Fresh]
        · simpa using fresh_separators hh hnil []
      have gap := Lexeme.ofText_separators hh []
      rw [List.append_nil, Lexeme.ofText_nil] at gap
      rw [Lexeme.ofText_name named fresh, gap]
    rw [Lexeme.ofText_name (by decide) (fresh_separators hg hne (name ++ h)),
      Lexeme.ofText_separators hg, after]
    refine ⟨?_, fun n rest => ?_⟩
    · rw [List.append_nil]
      exact List.forall_mem_cons.2 ⟨rfl, List.forall_mem_append.2
        ⟨spaces, List.forall_mem_cons.2 ⟨rfl, spaces⟩⟩⟩
    · rw [Token.among_token, Token.among_blanks, Token.among_token, Token.among_blanks]
      exact ⟨⟨.name "type".toList, _⟩, ⟨.name name, _⟩, rfl, rfl, rfl⟩
  | @modified word g t hword hg hne _ ih =>
    have isName := isName_of_mem_modifiers word hword
    obtain ⟨faultless, ih⟩ := ih
    rw [Lexeme.ofText_name isName (fresh_separators hg hne t), Lexeme.ofText_separators hg]
    refine ⟨?_, fun n rest => ?_⟩
    · exact List.forall_mem_cons.2 ⟨rfl, List.forall_mem_append.2 ⟨spaces, faultless⟩⟩
    · rw [Token.among_token, Token.among_blanks, List.cons_append,
        List.dropWhile_cons_of_pos (isModifier_of_mem_modifiers hword _)]
      exact ih _ rest

theorem ofText?_append (r : Text) :
    Head.ofText? (head ++ '=' :: r) = some ⟨.alias, name, [], Text.bytes head⟩ := by
  obtain ⟨faultless, tokens⟩ := h.lexemes named
  obtain ⟨word, next, dropped, kind, hname⟩ := tokens 0 [Token.endAt (Text.bytes head)]
  simp only [Head.ofText?, h.cut_append named, Token.tokenize_eq_ok faultless, dropped, kind, hname,
    TokenKind.name?]
  rfl

end IsHead

/-- What is written before the equals sign is read as the head, and what follows it as the type. -/
theorem ofText_written {name head : Text} (named : Head.IsName name) (h : IsHead name head)
    (t : Text) : ofText (head ++ '=' :: t) = .ok ⟨name, bodyOf t.blankComments⟩ := by
  have covered : Text.blankComments (head ++ '=' :: t) = head ++ '=' :: t.blankComments := by
    rw [Text.blankComments, h.blank_append named, CommentMode.blank_code (by decide) rfl]
    rfl
  have trimmed : Text.trim (head ++ '=' :: t.blankComments) =
      head ++ '=' :: t.blankComments.trimEnd := by
    rw [Text.trim, h.trimStart_append, Text.trimEnd, Text.dropEndWhile_append_cons rfl]
    rfl
  have rest : Text.after (head ++ '=' :: t.blankComments.trimEnd) (Text.bytes head) =
      '=' :: t.blankComments.trimEnd := Text.after_bytes _ _
  have body : bodyOf t.blankComments.trimEnd = bodyOf t.blankComments := by
    rw [bodyOf, bodyOf, Text.trim_trimEnd]
  have stripped : Text.strip? ['='] ('=' :: t.blankComments.trimEnd) =
      some t.blankComments.trimEnd := Text.strip?_eq_some_iff.2 rfl
  rw [ofText, covered]
  simp only [trimmed, h.ofText?_append named, rest, stripped, body]

end Alias

end WebSurface
