import WebSurface.Proofs.Settled
set_option autoImplicit false

/-!
The tokens of a normalized type.

White space between tokens may become single spaces, or be left out at both ends of a text, without
a change to the tokens (`Lexeme.clear_dense`, `Lexeme.clear_trim`), and a bar between two members is
a token of its own, whatever stands on its sides (`Lexeme.kinds_append_bar`). So normalization
leaves the tokens of a type as they are, except that it changes white space in strings as well
(`TypeText.tokenize_normalize`).
-/

namespace WebSurface

/-- The token with white space in strings made single spaces. -/
def TokenKind.dense : TokenKind → TokenKind
  | .literal q raw => .literal q raw.dense
  | k => k

namespace IsRaw

variable {q : Char}

theorem tail {c : Char} {raw : Text} (h : IsRaw q (c :: raw)) (hc : c ≠ '\\') : IsRaw q raw := by
  cases h with
  | escape => exact absurd rfl hc
  | char _ _ h => exact h

theorem dense (hq : isQuote q) {raw : Text} (h : IsRaw q raw) : IsRaw q raw.dense := by
  have space : ' ' ≠ q := by
    rintro rfl
    cases hq
  induction h with
  | nil => exact .nil
  | @escape c raw _ ih =>
    rw [Text.dense_solid rfl]
    cases hc : Text.isBlank c with
    | false =>
      rw [Text.dense_solid hc]
      exact .escape ih
    | true =>
      cases hr : Text.startsBlank raw with
      | false =>
        rw [Text.dense_blank hc hr]
        exact .escape ih
      | true =>
        -- The space that is escaped now is the first of those that followed.
        obtain ⟨u, hu⟩ : ∃ u, raw.dense = ' ' :: u := by
          cases raw with
          | nil => cases hr
          | cons d raw =>
            have hd : Text.isBlank d := hr
            refine List.head?_eq_some_iff.1 ?_
            rw [Text.head?_dense]
            simp [hd]
        rw [Text.dense_blank_blank hc hr, hu]
        rw [hu] at ih
        exact .escape (ih.tail (by decide))
  | @char c raw hne hback _ ih =>
    cases hc : Text.isBlank c with
    | false =>
      rw [Text.dense_solid hc]
      exact .char hne hback ih
    | true =>
      cases hr : Text.startsBlank raw with
      | false =>
        rw [Text.dense_blank hc hr]
        exact .char space (by decide) ih
      | true =>
        rw [Text.dense_blank_blank hc hr]
        exact ih

end IsRaw

namespace TokenKind

variable {k : TokenKind} {r : Text}

theorem WellSpelled.dense (h : k.WellSpelled) : k.dense.WellSpelled := by
  cases k with
  | literal q raw => exact ⟨h.1, h.2.dense h.1⟩
  | _ => exact h

theorem EndsBefore.dense (h : k.EndsBefore r) : k.dense.EndsBefore r.dense := by
  have same : k.EndsBefore r.dense := by
    refine h.rewritten (fun {r c} hc => ?_) fun _ => Text.dense_solid rfl _
    cases r with
    | nil => cases hc
    | cons d r =>
      rw [Text.head?_dense, List.head?_cons, Option.map_some, Option.some.injEq] at hc
      split at hc
      · exact .inr hc.symm
      · exact .inl (congrArg some hc)
  cases k with
  | literal => trivial
  | _ => exact same

theorem dense_spelling_append (h : k.WellSpelled) (r : Text) :
    Text.dense (k.spelling ++ r) = k.dense.spelling ++ r.dense := by
  have solid {w : Text} (hw : ∀ c ∈ w, Text.isBlank c = false) :
      Text.dense (w ++ r) = w ++ r.dense := by
    induction w with
    | nil => rfl
    | cons c w ih =>
      obtain ⟨hc, hw⟩ := List.forall_mem_cons.1 hw
      rw [List.cons_append, Text.dense_solid hc, ih hw]
      rfl
  cases k with
  | literal q raw =>
    have hq : Text.isBlank q = false := by
      rcases Text.eq_of_isQuote h.1 with rfl | rfl | rfl <;> rfl
    simp [spelling, dense, Text.dense_solid hq, Text.dense_append_cons hq]
  | _ => exact solid (Lexeme.isBlank_of_mem_spelling h (by rintro _ _ ⟨⟩))

end TokenKind

namespace Lexeme

def kind? : Lexeme → Option TokenKind
  | .token k => some k
  | _ => none

def kinds (t : Text) : List TokenKind := (ofText t).filterMap kind?

theorem map_kind_among (n : Nat) (ls : List Lexeme) :
    (Token.among n ls).map Token.kind = ls.filterMap kind? := by
  induction ls generalizing n with
  | nil => rfl
  | cons l ls ih =>
    cases l with
    | token k => rw [Token.among_token, List.map_cons, ih]; rfl
    | _ => exact ih _

theorem map_kind_tokenize {t : Text} (h : ∀ l ∈ ofText t, l.isFault = false) :
    ∃ tokens, Token.tokenize t = .ok tokens ∧ tokens.map Token.kind = kinds t ++ [.eof] := by
  refine ⟨_, Token.tokenize_eq_ok h, ?_⟩
  rw [List.map_append, map_kind_among]
  rfl

theorem kinds_separators {w : Text} (hw : ∀ c ∈ w, isSeparator c) (t : Text) :
    kinds (w ++ t) = kinds t := by
  have blanks : (w.map fun c => Lexeme.blank [c]).filterMap kind? = [] := by
    simp [List.filterMap_map, kind?]
  rw [kinds, ofText_separators hw, List.filterMap_append, blanks, kinds, List.nil_append]

/-- White space after a lexeme, and in it, that becomes single spaces: a token stays a token. -/
theorem ofText_dense_append {l : Lexeme} {r : Text} (h : Reads l r) (hf : l.isFault = false)
    (hc : l.isComment = false) : ∃ ls, ofText (Text.dense (l.text ++ r)) = ls ++ ofText r.dense ∧
      (∀ m ∈ ls, m.isFault = false ∧ m.isComment = false) ∧
      ls.filterMap kind? = (l.kind?.map TokenKind.dense).toList := by
  cases h with
  | @space c _ hsep =>
    have blank := isBlank_of_isSeparator hsep
    cases hr : Text.startsBlank r with
    | true => exact ⟨[], by rw [text, List.singleton_append, Text.dense_blank_blank blank hr]; rfl,
        by simp, rfl⟩
    | false =>
      refine ⟨[.blank [' ']], ?_, by decide, rfl⟩
      rw [text, List.singleton_append, Text.dense_blank blank hr]
      exact ofText_separators (w := [' ']) (by decide) r.dense
  | line => cases hc
  | block => cases hc
  | @token k _ hk hends =>
    refine ⟨[.token k.dense], ?_, fun m hm => ?_, rfl⟩
    · rw [text, TokenKind.dense_spelling_append hk]
      exact ofText_of_reads (.token hk.dense hends.dense) rfl
    · rw [List.mem_singleton.1 hm]
      exact ⟨rfl, rfl⟩
  | _ => cases hf

theorem clear_dense {t : Text} (h : Clear t) :
    Clear t.dense ∧ kinds t.dense = (kinds t).map TokenKind.dense := by
  unfold Clear kinds at *
  fun_induction ofText t with
  | case1 => simp [Text.dense]
  | case2 c r ih =>
    obtain ⟨⟨hf, hc⟩, rest⟩ := List.forall_mem_cons.1 h
    obtain ⟨clear, same⟩ := ih rest
    obtain ⟨ls, read, clearFirst, first⟩ := ofText_dense_append (reads_next c r) hf hc
    rw [text_next] at read
    rw [read, List.filterMap_append, first, same]
    refine ⟨List.forall_mem_append.2 ⟨clearFirst, clear⟩, ?_⟩
    cases hk : (next c r).1.kind? <;> simp [hk]

theorem kinds_blank {w : Text} (hw : w.blank) (h : Clear w) : kinds w = [] := by
  obtain ⟨separators, -⟩ := clear_of_blank_append hw (t := []) (by rwa [List.append_nil])
  rw [← List.append_nil w, kinds_separators separators]
  simp [kinds]

theorem clear_trim {t : Text} (h : Clear t) : Clear t.trim ∧ kinds t.trim = kinds t := by
  obtain ⟨v, w, hv, hw, ht⟩ := Text.exists_trim t
  rw [ht, List.append_assoc] at h
  obtain ⟨before, clear⟩ := clear_of_blank_append hv h
  have code : (Nesting.outside.run t.trim).inCode := by
    obtain ⟨b, hb⟩ := run_eq clear (Nesting.between_code 0 _) 0
    refine Nesting.inCode_of_run (w := w) (Nesting.isQuote_run_outside _) (fun c hc =>
      isQuote_of_isPlain (isPlain_of_blank hw c hc)) ?_
    rw [← Nesting.run_append]
    exact congrArg Nesting.inCode hb
  obtain ⟨clearTrim, clearAfter⟩ := (clear_append_iff (apart_blank hw) code).1 clear
  refine ⟨clearTrim, ?_⟩
  conv => rhs; rw [ht, List.append_assoc, kinds_separators before, kinds,
    ofText_split clear (apart_blank hw) (Nesting.between_code 0 _) code, List.filterMap_append]
  exact (List.append_nil _).symm.trans (congrArg _ (kinds_blank hw clearAfter).symm)

theorem clear_collapse {t : Text} (h : Clear t) :
    Clear t.collapse ∧ kinds t.collapse = (kinds t).map TokenKind.dense := by
  obtain ⟨clear, same⟩ := clear_dense h
  obtain ⟨clear', same'⟩ := clear_trim clear
  rw [Text.collapse_eq, same', same]
  exact ⟨clear', rfl⟩

theorem clear_append {a u : Text} (ha : Clear a) (hu : Clear u) (apart : Apart u) :
    Clear (a ++ u) ∧ kinds (a ++ u) = kinds a ++ kinds u := by
  have whole := ofText_append (fun l hl => (ha l hl).1)
    (fun l hl => (ha l (List.mem_of_getLast? hl)).2) apart
  unfold Clear kinds
  rw [whole, List.filterMap_append]
  exact ⟨List.forall_mem_append.2 ⟨ha, hu⟩, rfl⟩

theorem kinds_bar (r : Text) : kinds ('|' :: r) = .sign .pipe :: kinds r := by
  rw [kinds, ofText_sign (s := .pipe) rfl trivial]
  rfl

theorem clear_spaced_bar {a r : Text} (ha : Clear a) (hr : Clear r) :
    Clear (a ++ " | ".toList ++ r) ∧
      kinds (a ++ " | ".toList ++ r) = kinds a ++ .sign .pipe :: kinds r := by
  have space : ∀ c ∈ [' '], isSeparator c := by decide
  have clear : Clear (" | ".toList ++ r) := (clear_separators_append space ('|' :: ' ' :: r)).2
    (clear_bar.2 ((clear_separators_append space r).2 hr))
  have same : kinds (" | ".toList ++ r) = .sign .pipe :: kinds r := by
    refine (kinds_separators space ('|' :: ' ' :: r)).trans ?_
    rw [kinds_bar]
    exact congrArg _ (kinds_separators space r)
  rw [List.append_assoc, ← same]
  exact clear_append ha clear (apart_cons (by decide) _)

/-- The members of a union, joined again, have the tokens of the union. -/
theorem clear_union {t a : Text} {as : List Text} (h : Clear t)
    (cuts : Nesting.outside.cuts (· == '|') t = a :: as) :
    Clear (TypeText.union ((a :: as).map Text.collapse)) ∧
      kinds (TypeText.union ((a :: as).map Text.collapse)) = (kinds t).map TokenKind.dense := by
  induction as generalizing t a with
  | nil =>
    rw [Nesting.eq_of_cuts_singleton cuts]
    exact clear_collapse h
  | cons b bs ih =>
    obtain ⟨c, r, rfl, closed, hc, rest⟩ :=
      Nesting.exists_of_cuts (opensNothing_of_beq (by decide)) cuts
    obtain rfl := beq_iff_eq.1 hc
    obtain ⟨ha, hr⟩ := (clear_append_bar closed).1 h
    obtain ⟨clear, same⟩ := ih hr rest
    obtain ⟨clear', same'⟩ := clear_collapse ha
    obtain ⟨whole, kinds⟩ := clear_spaced_bar clear' clear
    refine ⟨whole, kinds.trans ?_⟩
    have bar := (clear_append ha (clear_bar.2 hr) (apart_cons (by decide) r)).2
    rw [same, same', bar, kinds_bar, List.map_append]
    rfl

end Lexeme

namespace TypeText

open Token (tokenize)

theorem clear_normalize {t : Text} (bars : BarsBetween t) (h : Lexeme.Clear t) :
    Lexeme.Clear (normalize t) ∧
      Lexeme.kinds (normalize t) = (Lexeme.kinds t).map TokenKind.dense := by
  rcases bars with blank | full
  · rw [normalize_blank blank, Lexeme.kinds_blank blank h]
    simp [Lexeme.Clear, Lexeme.kinds]
  · obtain ⟨a, as, cuts⟩ := Nesting.exists_cuts (· == '|') .outside t
    rw [full.normalize_eq_cuts, cuts]
    exact Lexeme.clear_union h cuts

/-- A comment-free type without empty members that can be read has the same tokens when it is
normalized, with white space in strings made single spaces. So they are the same tokens exactly if
no string has other white space than spaces that stand alone. -/
theorem tokenize_normalize {t : Text} {tokens : List Token} (bars : BarsBetween t)
    (commentFree : t.CommentFree) (h : tokenize t = .ok tokens) :
    ∃ tokens', tokenize (normalize t) = .ok tokens' ∧
      tokens'.map Token.kind = tokens.map (fun k => k.kind.dense) ∧
      (tokens'.map Token.kind = tokens.map Token.kind ↔
        ∀ k ∈ tokens, ∀ q raw, k.kind = .literal q raw → raw.dense = raw) := by
  have faultless := Token.exists_tokenize_iff.1 ⟨tokens, h⟩
  obtain ⟨clear, same⟩ := clear_normalize bars fun l hl => ⟨faultless l hl, commentFree l hl⟩
  obtain ⟨tokens', h', kinds'⟩ := Lexeme.map_kind_tokenize fun l hl => (clear l hl).1
  obtain ⟨given, hg, kinds⟩ := Lexeme.map_kind_tokenize faultless
  obtain rfl := Except.ok.inj (h.symm.trans hg)
  have dense : tokens'.map Token.kind = tokens.map (fun k => k.kind.dense) := by
    rw [kinds', same, ← Function.comp_def, ← List.map_map, kinds, List.map_append]
    rfl
  refine ⟨tokens', h', dense, ?_⟩
  rw [dense, List.map_inj_left]
  refine forall₂_congr fun k _ => ?_
  cases k.kind <;> simp [TokenKind.dense]

/-- A string beside a name, with and without white space around the bar. -/
theorem tokenize_normalize_string :
    let t : Text := "\"a b\"|A".toList
    let tokens : List Token := [⟨.literal '"' "a b".toList, ⟨0, 5⟩⟩, ⟨.sign .pipe, ⟨5, 6⟩⟩,
      ⟨.name ['A'], ⟨6, 7⟩⟩, Token.endAt 7]
    let tokens' : List Token := [⟨.literal '"' "a b".toList, ⟨0, 5⟩⟩, ⟨.sign .pipe, ⟨6, 7⟩⟩,
      ⟨.name ['A'], ⟨8, 9⟩⟩, Token.endAt 9]
    BarsBetween t ∧ t.CommentFree ∧ tokenize t = .ok tokens ∧
      normalize t = "\"a b\" | A".toList ∧ tokenize (normalize t) = .ok tokens' ∧
      tokens'.map Token.kind = tokens.map Token.kind := by
  intro t tokens tokens'
  obtain ⟨bars, commentFree, whole⟩ :
      BarsBetween t ∧ t.CommentFree ∧ normalize t = "\"a b\" | A".toList := by
    decide +kernel
  have read : tokenize t = .ok tokens :=
    (Token.tokenize_eq_ok (by decide +kernel)).trans (congrArg Except.ok (by decide +kernel))
  have read' : tokenize (normalize t) = .ok tokens' :=
    (Token.tokenize_eq_ok (by decide +kernel)).trans (congrArg Except.ok (by decide +kernel))
  obtain ⟨found, hfound, -, same⟩ := tokenize_normalize bars commentFree read
  obtain rfl := Except.ok.inj (hfound.symm.trans read')
  refine ⟨bars, commentFree, read, whole, read', same.2 fun k hk q raw literal => ?_⟩
  simp only [tokens, List.mem_cons, List.not_mem_nil, or_false] at hk
  rcases hk with rfl | rfl | rfl | rfl <;> cases literal
  decide +kernel

/-- Two spaces in a string become one. -/
theorem not_tokenize_normalize : ¬∀ t tokens, BarsBetween t → t.CommentFree →
    tokenize t = .ok tokens → ∃ tokens', tokenize (normalize t) = .ok tokens' ∧
      tokens'.map Token.kind = tokens.map Token.kind := by
  intro h
  let t : Text := "\"a  b\"".toList
  have facts : BarsBetween t ∧ t.CommentFree ∧ normalize t = "\"a b\"".toList := by
    decide +kernel
  obtain ⟨bars, commentFree, whole⟩ := facts
  have read : tokenize t = .ok [⟨.literal '"' "a  b".toList, ⟨0, 6⟩⟩, Token.endAt 6] :=
    (Token.tokenize_eq_ok (by decide +kernel)).trans (congrArg Except.ok (by decide +kernel))
  have changed : tokenize "\"a b\"".toList =
      .ok [⟨.literal '"' "a b".toList, ⟨0, 5⟩⟩, Token.endAt 5] :=
    (Token.tokenize_eq_ok (by decide +kernel)).trans (congrArg Except.ok (by decide +kernel))
  obtain ⟨tokens', read', same⟩ := h t _ bars commentFree read
  rw [whole, changed] at read'
  obtain rfl := Except.ok.inj read'
  cases same

end TypeText

end WebSurface
