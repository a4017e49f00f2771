import WebSurface.Declaration.Interface
import WebSurface.Corpus.Index
import WebSurface.Proofs.LeadingNames
import WebSurface.Proofs.TopLevel
set_option autoImplicit false

namespace WebSurface

namespace Token

def names : List TokenKind → List Text
  | .name n :: ks => n :: names ks
  | _ => []

theorem names_place {t : Text} {eof : Token} (heof : eof.kind = .eof) (n : Nat) (ls : List Lexeme)
    (h : (Lexeme.place n ls).filterMap (faultOfLexeme? t) = []) :
    names (((Lexeme.place n ls).filterMap ofLexeme? ++ [eof]).map kind) = Lexeme.names ls := by
  induction ls generalizing n with
  | nil => simp [Lexeme.place, heof, names, Lexeme.names]
  | cons l ls ih =>
    cases l with
    | blank b => exact ih _ (by simpa [Lexeme.place, faultOfLexeme?] using h)
    | fault cause b => simp [Lexeme.place, faultOfLexeme?] at h
    | token k =>
      have hr := ih _ (by simpa [Lexeme.place, faultOfLexeme?] using h)
      simp only [Lexeme.place, List.filterMap_cons, ofLexeme?, List.cons_append, List.map_cons]
      cases k with
      | name m => exact congrArg (m :: ·) hr
      | _ => rfl

theorem names_tokenize {t : Text} {tokens : List Token} (h : tokenize t = .ok tokens) :
    names (tokens.map kind) = t.leadingNames := by
  simp only [tokenize] at h
  split at h
  · rename_i hf
    rw [← Except.ok.inj h]
    exact names_place rfl 0 _ hf
  · cases h

end Token

def DeclarationKind.word : DeclarationKind → Text
  | .interface => "interface".toList
  | .alias => "type".toList

theorem DeclarationKind.word_injective {kind kind' : DeclarationKind} (h : kind.word = kind'.word) :
    kind = kind' := by
  revert h
  cases kind <;> cases kind' <;> decide

namespace Head

def modifiers : List Text := ["export", "declare", "default"].map String.toList

def Declares (names : List Text) (kind : DeclarationKind) (name : Text) : Prop :=
  ∃ before rest, names = before ++ kind.word :: name :: rest ∧ ∀ m ∈ before, m ∈ modifiers

theorem word_not_mem_modifiers (kind : DeclarationKind) : kind.word ∉ modifiers := by
  cases kind <;> decide

theorem Declares.mono {names more : List Text} {kind : DeclarationKind} {name : Text}
    (h : Declares names kind name) (hp : names <+: more) : Declares more kind name := by
  obtain ⟨before, rest, rfl, hb⟩ := h
  obtain ⟨last, rfl⟩ := hp
  exact ⟨before, rest ++ last, by simp, hb⟩

theorem Declares.ne_nil {names : List Text} {kind : DeclarationKind} {name : Text}
    (h : Declares names kind name) : names ≠ [] := by
  obtain ⟨before, rest, rfl, -⟩ := h
  simp

/-- The first word that is no modifier tells what is declared. -/
theorem Declares.unique {names : List Text} {kind kind' : DeclarationKind} {name name' : Text}
    (h : Declares names kind name) (h' : Declares names kind' name') :
    kind = kind' ∧ name = name' := by
  obtain ⟨before, rest, rfl, hb⟩ := h
  obtain ⟨before', rest', e, hb'⟩ := h'
  induction before generalizing before' with
  | nil =>
    cases before' with
    | nil =>
      simp only [List.nil_append, List.cons.injEq] at e
      exact ⟨DeclarationKind.word_injective e.1, e.2.1⟩
    | cons m ms =>
      have hm := hb' m List.mem_cons_self
      obtain ⟨rfl, -⟩ := List.cons.inj e
      exact absurd hm (word_not_mem_modifiers kind)
  | cons m ms ih =>
    have hm := hb m List.mem_cons_self
    cases before' with
    | nil =>
      obtain ⟨rfl, -⟩ := List.cons.inj e
      exact absurd hm (word_not_mem_modifiers kind')
    | cons m' ms' =>
      exact ih (fun d hd => hb d (List.mem_cons_of_mem m hd)) ms' (List.cons.inj e).2
        fun d hd => hb' d (List.mem_cons_of_mem m' hd)

theorem kind_of_isModifier {t : Token} (h : isModifier t) :
    ∃ m ∈ modifiers, t.kind = .name m := by
  simp only [isModifier, Token.isWord, TokenKind.isWord, Bool.or_eq_true, beq_iff_eq] at h
  rcases h with (h | h) | h
  · exact ⟨_, by decide, h⟩
  · exact ⟨_, by decide, h⟩
  · exact ⟨_, by decide, h⟩

theorem kind_of_kind? {t : Token} {kind : DeclarationKind} (h : kind? t = some kind) :
    t.kind = .name kind.word := by
  unfold kind? at h
  split at h
  · rename_i hw
    rw [← Option.some.inj h]
    exact beq_iff_eq.1 hw
  · split at h
    · rename_i hw
      rw [← Option.some.inj h]
      exact beq_iff_eq.1 hw
    · cases h

theorem declares_tokens {tokens rest : List Token} {word named : Token} {kind : DeclarationKind}
    {name : Text} (h : tokens.dropWhile isModifier = word :: named :: rest)
    (hk : kind? word = some kind) (hn : named.kind = .name name) :
    Declares (Token.names (tokens.map Token.kind)) kind name := by
  induction tokens with
  | nil => cases h
  | cons t ts ih =>
    cases ht : isModifier t with
    | true =>
      obtain ⟨m, hm, hkind⟩ := kind_of_isModifier ht
      obtain ⟨before, last, he, hb⟩ := ih (by simpa [ht] using h)
      refine ⟨m :: before, last, by simp [hkind, Token.names, he], ?_⟩
      exact List.forall_mem_cons.2 ⟨hm, hb⟩
    | false =>
      simp only [List.dropWhile_cons, ht] at h
      obtain ⟨rfl, hts⟩ := List.cons.inj h
      refine ⟨[], Token.names (rest.map Token.kind), ?_, by simp⟩
      simp [hts, kind_of_kind? hk, hn, Token.names]

theorem fresh_cut (t : Text) : Text.Fresh (cut t).2 := by
  intro c hc
  rcases Nesting.breakAt_snd (fun c => c == '{' || c == '=') .outside t with h | ⟨d, r, h, hd⟩
  · rw [cut, breakTopLevel, h] at hc
    cases hc
  · rw [cut, breakTopLevel, h] at hc
    obtain rfl := Option.some.inj hc
    simp only [Bool.or_eq_true, beq_iff_eq] at hd
    rcases hd with rfl | rfl <;> decide

/-- What a head says is decided by the names with which its text begins. -/
theorem declares_of_ofText? {t : Text} {h : Head} (ht : ofText? t = some h) :
    Declares t.leadingNames h.kind h.name := by
  have hp := Text.leadingNames_prefix (fresh_cut t) (cut t).1
  rw [cut_append] at hp
  refine Declares.mono ?_ hp
  simp only [ofText?] at ht
  split at ht
  · cases ht
  · rename_i tokens htok
    rw [← Token.names_tokenize htok]
    split at ht
    · rename_i word named rest hdrop
      obtain ⟨kind, hk, ht⟩ := Option.bind_eq_some_iff.1 ht
      obtain ⟨name, hn, ht⟩ := Option.bind_eq_some_iff.1 ht
      have hname : named.kind = .name name := by
        cases hkind : named.kind <;> simp_all [TokenKind.name?]
      have hh : h.kind = kind ∧ h.name = name := by
        cases kind with
        | interface =>
          obtain ⟨bases, -, ht⟩ := Option.bind_eq_some_iff.1 ht
          exact Option.some.inj ht ▸ ⟨rfl, rfl⟩
        | «alias» => exact Option.some.inj ht ▸ ⟨rfl, rfl⟩
      rw [hh.1, hh.2]
      exact declares_tokens hdrop hk hname
    · cases ht

theorem agree_of_blankComments {raw x v w : Text} (hv : Text.blank v) (hw : Text.blank w)
    (hx : raw.blankComments = v ++ x ++ w) {h h' : Head} (hh : ofText? raw = some h)
    (hh' : ofText? x = some h') : h.kind = h'.kind ∧ h.name = h'.name := by
  have hd := declares_of_ofText? hh
  rw [← CommentMode.leadingNames_blank raw] at hd
  have he : CommentMode.code.blank raw = v ++ (x ++ w) := by simpa [Text.blankComments] using hx
  have fresh : Text.Fresh w := by
    intro c hc
    cases w with
    | nil => cases hc
    | cons d w =>
      rw [Text.blank_cons, Bool.and_eq_true] at hw
      exact Option.some.inj hc ▸ Text.isNameChar_of_isBlank hw.1
  rw [he] at hd
  rw [Text.leadingNames_blank_append hv hd.ne_nil] at hd
  exact hd.unique ((declares_of_ofText? hh').mono (Text.leadingNames_prefix fresh x))

end Head

theorem Interface.name_member (n : Nat) (r : Reading) (s : Segment) :
    (r.member n s).interface.name = r.interface.name := by
  unfold Reading.member
  split
  · rename_i m hm
    cases m <;> rfl
  · rfl

theorem Interface.name_foldl_member (n : Nat) (r : Reading) (ss : List Segment) :
    (ss.foldl (Reading.member n) r).interface.name = r.interface.name := by
  induction ss generalizing r with
  | nil => rfl
  | cons s ss ih => rw [List.foldl_cons, ih, name_member]

theorem Interface.exists_read {raw : Text} {i : Interface} (h : ofText raw = .ok i) :
    ∃ r, read raw = .ok r ∧ r.interface = i := by
  cases hr : read raw with
  | error e => simp [ofText, hr, Except.map] at h
  | ok r => exact ⟨r, rfl, by simpa [ofText, hr, Except.map] using h⟩

theorem Interface.head_of_ofText {raw : Text} {i : Interface} (h : ofText raw = .ok i) :
    ∃ head : Head, Head.ofText? raw.blankComments.trimStart = some head ∧
      head.kind = .interface ∧ head.name = i.name := by
  obtain ⟨r, hr, rfl⟩ := exists_read h
  simp only [read] at hr
  split at hr
  · rename_i hh
    split at hr
    · rw [← Except.ok.inj hr, name_foldl_member]
      exact ⟨_, hh, rfl, rfl⟩
    · cases hr
  · cases hr

theorem Alias.head_of_ofText {raw : Text} {a : Alias} (h : ofText raw = .ok a) :
    ∃ head : Head, Head.ofText? raw.blankComments.trim = some head ∧
      head.kind = .alias ∧ head.name = a.name := by
  simp only [ofText] at h
  split at h
  · rename_i hh
    split at h
    · rw [← Except.ok.inj h]
      exact ⟨_, hh, rfl, rfl⟩
    · cases h
  · cases h

namespace Declarations

/-- The texts of a corpus can be read under no other names than those under which they are found. -/
structure Named (d : Declarations) : Prop where
  interface_name {name raw : Text} {i : Interface} (h : d.interface? name = some raw)
    (hi : Interface.ofText raw = .ok i) : i.name = name
  alias_name {name raw : Text} {a : Alias} (h : d.alias? name = some raw)
    (ha : Alias.ofText raw = .ok a) : a.name = name

def Filed (kind : DeclarationKind) (m : NameTable Text) : Prop :=
  ∀ name raw, m.get? name = some raw →
    ∃ h : Head, Head.ofText? raw = some h ∧ h.kind = kind ∧ h.name = name

theorem Filed.putNew {kind : DeclarationKind} {m : NameTable Text} (hm : Filed kind m) {raw : Text}
    {h : Head} (hh : Head.ofText? raw = some h) (hk : h.kind = kind) :
    Filed kind (m.putNew (h.name, raw)) := by
  intro name raw' hr
  unfold Keyed.putNew at hr
  split at hr
  · exact hm name raw' hr
  · rw [NameTable.get?_put] at hr
    split at hr
    · rename_i hn
      obtain rfl := Option.some.inj hr
      exact ⟨h, hh, hk, hn.symm⟩
    · exact hm name raw' hr

theorem filed_empty (kind : DeclarationKind) : Filed kind .empty := by
  intro name raw h
  cases h

theorem filed_foldl_add (statements : List Text) {d : Declarations}
    (hi : Filed .interface d.interfaces) (ha : Filed .alias d.aliases) :
    Filed .interface (statements.foldl add d).interfaces ∧
      Filed .alias (statements.foldl add d).aliases := by
  induction statements generalizing d with
  | nil => exact ⟨hi, ha⟩
  | cons t ts ih =>
    rw [List.foldl_cons]
    refine ih ?_ ?_ <;> unfold add
    · split
      · rename_i h
        exact hi.putNew h rfl
      · exact hi
      · exact hi
    · split
      · exact ha
      · rename_i h
        exact ha.putNew h rfl
      · exact ha

theorem named_of_filed {d : Declarations} (hi : Filed .interface d.interfaces)
    (ha : Filed .alias d.aliases) : d.Named where
  interface_name {name raw i} h hr := by
    obtain ⟨head, hh, -, rfl⟩ := hi name raw h
    obtain ⟨head', hh', -, hn⟩ := Interface.head_of_ofText hr
    obtain ⟨v, hv, ht⟩ := Text.exists_trimStart raw.blankComments
    rw [← hn]
    exact (Head.agree_of_blankComments hv Text.blank_nil (by simpa using ht) hh hh').2.symm
  alias_name {name raw a} h hr := by
    obtain ⟨head, hh, -, rfl⟩ := ha name raw h
    obtain ⟨head', hh', -, hn⟩ := Alias.head_of_ofText hr
    obtain ⟨v, w, hv, hw, ht⟩ := Text.exists_trim raw.blankComments
    rw [← hn]
    exact (Head.agree_of_blankComments hv hw ht hh hh').2.symm

theorem filed_ofText (corpus : Text) : Filed .interface (ofText corpus).interfaces ∧
    Filed .alias (ofText corpus).aliases :=
  filed_foldl_add ((splitStatements corpus.blankComments).map Segment.text)
    (filed_empty .interface) (filed_empty .alias)

theorem named_ofText (corpus : Text) : (ofText corpus).Named :=
  named_of_filed (filed_ofText corpus).1 (filed_ofText corpus).2

end Declarations

end WebSurface
