import WebSurface.Proofs.AliasHeads
import WebSurface.Proofs.Enclosure
set_option autoImplicit false

/-!
Unions of string literals as they are written, and the aliases that are read of them.

A union of string literals is read as their values, whatever is written in them, and a union with
another member as a type (`Alias.ofText_union`). Neither the bars, semicolons and marks of comments
in a string nor the white space around a member make a difference. Only a string that goes on to
another line can be taken for a comment in part, and what is left of its member for a string literal
(`Alias.not_ofText_union`).
-/

namespace WebSurface.Alias

/-! ### The type after the equals sign -/

/-- The text without the white space around it and without the semicolons at its end. -/
def bare (t : Text) : Text := Text.trim (Text.dropEndWhile (· == ';') t.trim)

def value? (m : Text) : Option Text :=
  match Token.tokenize m with
  | .ok [⟨.literal _ raw, _⟩, ⟨.eof, _⟩] => some raw
  | _ => none

theorem literals?_eq (t : Text) : literals? t =
    match (TypeText.unionMembers t).mapM value? with
    | none | some [] => none
    | some values => some values := by
  rw [← TypeText.unionMembers_dropWhile]
  rfl

theorem bodyOf_literals {t : Text} {values : List Text} (hne : values ≠ [])
    (h : (TypeText.unionMembers (bare t)).mapM value? = some values) :
    bodyOf t = .literals values := by
  have read : literals? (bare t) = some values := by
    rw [literals?_eq, h]
    cases values with
    | nil => exact absurd rfl hne
    | cons v vs => rfl
  rw [bodyOf, ← bare, read]

theorem bodyOf_type {t m : Text} (hm : m ∈ TypeText.unionMembers (bare t)) (h : value? m = none) :
    bodyOf t = .type (TypeText.normalize (bare t)) := by
  have none_of_mem {ms : List Text} (hm : m ∈ ms) : ms.mapM value? = none := by
    induction ms with
    | nil => cases hm
    | cons k ms ih =>
      rw [List.mapM_cons]
      rcases List.mem_cons.1 hm with rfl | hm
      · rw [h]
        rfl
      · rw [ih hm]
        cases value? k <;> rfl
  have read : literals? (bare t) = none := by
    rw [literals?_eq, none_of_mem hm]
  rw [bodyOf, ← bare, read]

/-! ### The members of the union -/

/-- A string literal on one line in which nothing is escaped. -/
structure Literal where
  quote : Char
  value : Text
  isQuote : WebSurface.isQuote quote
  unquoted : quote ∉ value
  unescaped : '\\' ∉ value
  onLine : '\n' ∉ value

def Literal.text (l : Literal) : Text := l.quote :: (l.value ++ [l.quote])

@[mk_iff]
structure IsOther (m : Text) : Prop where
  balanced : m.Balanced
  noBar : findTopLevel '|' m = none
  noSemicolon : findTopLevel ';' m = none
  notLiteral : value? m = none

instance (m : Text) : Decidable (IsOther m) := decidable_of_iff' _ (isOther_iff m)

/-- What stands between two bars is read as one member, or as none when it is empty. -/
structure IsPiece (m : Text) : Prop where
  closed : (Nesting.outside.run m).topLevel
  undivided : m.Undivided (· == '|')
  last : m.getLast? ≠ some ';'

theorem IsPiece.nil : IsPiece [] := ⟨rfl, rfl, by simp⟩

theorem IsOther.isPiece {m : Text} (h : IsOther m) : IsPiece m where
  closed := h.balanced.closed
  undivided := findTopLevel_eq_none_iff.1 h.noBar
  last hlast := by
    obtain ⟨a, rfl⟩ := List.getLast?_eq_some_iff.1 hlast
    have closed := h.balanced.closed
    rw [Nesting.run_append] at closed
    have before := Nesting.topLevel_of_step (Nesting.isQuote_run_outside a) (by decide) closed
    exact Nesting.breakAt_append_ne_nil [] before rfl (findTopLevel_eq_none_iff.1 h.noSemicolon)

namespace Literal

variable (l : Literal)

theorem isRaw : IsRaw l.quote l.value := by
  have all {v : Text} (hq : l.quote ∉ v) (hb : '\\' ∉ v) : IsRaw l.quote v := by
    induction v with
    | nil => exact .nil
    | cons c v ih =>
      rw [List.mem_cons, not_or] at hq hb
      exact .char (Ne.symm hq.1) (Ne.symm hb.1) (ih hq.2 hb.2)
  exact all l.unquoted l.unescaped

theorem step_quote : Nesting.outside.step l.quote = ⟨0, .literal l.quote false⟩ := by
  simp [Nesting.step, Nesting.outside, l.isQuote]

theorem isPiece : IsPiece l.text where
  closed := by
    rw [text, Nesting.run_cons, l.step_quote, Nesting.run_literal l.isQuote l.isRaw]
    rfl
  undivided := by
    have bar : (l.quote == '|') = false := by
      rcases Text.eq_of_isQuote l.isQuote with h | h | h <;> rw [h] <;> rfl
    rw [Text.Undivided, text, Nesting.breakAt, bar, Bool.and_false, if_neg Bool.false_ne_true,
      l.step_quote]
    exact Nesting.breakAt_literal _ l.isRaw 0
  last := by
    have hne : l.quote ≠ ';' := by
      rcases Text.eq_of_isQuote l.isQuote with h | h | h <;> rw [h] <;> decide
    simpa [text, List.getLast?_cons] using hne

theorem value?_text : value? l.text = some l.value := by
  have read : Lexeme.ofText l.text = [.token (.literal l.quote l.value)] := by
    have := Lexeme.ofText_spelling (k := .literal l.quote l.value) (r := []) ⟨l.isQuote, l.isRaw⟩
      trivial
    rw [List.append_nil, Lexeme.ofText_nil] at this
    exact this
  have tokens := Token.tokenize_eq_ok (t := l.text) (by simp [read, Lexeme.isFault])
  rw [read] at tokens
  rw [value?, tokens]
  rfl

theorem blank_append (r : Text) :
    CommentMode.code.blank (l.text ++ r) = l.text ++ CommentMode.code.blank r := by
  have hne : l.quote ≠ '/' := by
    rcases Text.eq_of_isQuote l.isQuote with h | h | h <;> rw [h] <;> decide
  rw [text, List.cons_append, List.append_assoc, CommentMode.blank_code_cons
    (fun e => absurd e hne) (fun e => absurd e hne), if_pos l.isQuote, List.singleton_append,
    CommentMode.blank_literal_append l.isQuote l.isRaw l.onLine]
  simp

end Literal

/-! ### The union as it is written -/

def barred (ps : List Text) : Text := Text.join ['|'] ps

theorem barred_append {ps qs : List Text} (hp : ps ≠ []) (hq : qs ≠ []) :
    barred (ps ++ qs) = barred ps ++ '|' :: barred qs := by
  obtain ⟨q, qs, rfl⟩ := List.exists_cons_of_ne_nil hq
  induction ps with
  | nil => exact absurd rfl hp
  | cons p ps ih =>
    cases ps with
    | nil => simp [barred, Text.join]
    | cons r ps =>
      have rest := ih (List.cons_ne_nil r ps)
      simp only [barred, List.cons_append, Text.join] at rest ⊢
      rw [rest]
      simp

section Pieces

variable {ps : List Text} (pieces : ∀ p ∈ ps, IsPiece p.trim)

include pieces

theorem topLevel_barred : (Nesting.outside.run (barred ps)).topLevel := by
  unfold barred
  fun_induction Text.join ['|'] ps with
  | case1 => rfl
  | case2 p => exact Nesting.topLevel_run_of_trim (pieces p List.mem_cons_self).closed
  | case3 p q ps ih =>
    obtain ⟨hp, hps⟩ := List.forall_mem_cons.1 pieces
    rw [Nesting.run_append, Nesting.run_append, Nesting.run_cons,
      Nesting.step_plain (Nesting.topLevel_run_of_trim hp.closed) (by decide)]
    exact ih hps

theorem unionMembers_barred : TypeText.unionMembers (barred ps) = tidy ps := by
  have part {p : Text} (hp : IsPiece p.trim) : parts (· == '|') p = tidy [p] := by
    have whole : parts (· == '|') p.trim = tidy [p.trim] := by
      rw [parts, Nesting.cuts_of_breakAt hp.undivided]
    rw [← parts_trim, whole]
    exact tidy_congr (Text.trim_trim p) []
  have closed : ∀ p ∈ ps.dropLast, (Nesting.outside.run p).topLevel := fun p hp =>
    Nesting.topLevel_run_of_trim (pieces p (List.dropLast_subset _ hp)).closed
  have joined := parts_join (opensNothing_of_beq (by decide)) (v := [])
    (w := []) rfl rfl (beq_self_eq_true '|') closed
  rw [TypeText.unionMembers_eq]
  refine joined.trans ?_
  clear joined closed
  induction ps with
  | nil => rfl
  | cons p ps ih =>
    obtain ⟨hp, hps⟩ := List.forall_mem_cons.1 pieces
    rw [List.flatMap_cons, part hp, ih hps, ← tidy_append]
    rfl

theorem exists_last_barred : (barred ps).blank ∨ ∃ (u : Text) (c : Char) (w : Text),
    barred ps = u ++ c :: w ∧ Text.isBlank c = false ∧ c ≠ ';' ∧ w.blank := by
  unfold barred
  fun_induction Text.join ['|'] ps with
  | case1 => exact .inl rfl
  | case2 p =>
    obtain ⟨v, w, -, hw, hp⟩ := Text.exists_trim p
    rcases List.eq_nil_or_concat p.trim with hnil | ⟨u, c, hu⟩
    · exact .inl (Text.trim_eq_nil_iff.1 hnil)
    · have last : p.trim.getLast? = some c := by rw [hu]; simp
      refine .inr ⟨v ++ u, c, w, ?_, Text.isBlank_ends_trim.2 c last, ?_, hw⟩
      · conv => lhs; rw [hp, hu]
        simp
      · rintro rfl
        exact (pieces p List.mem_cons_self).last last
  | case3 p q ps ih =>
    obtain ⟨-, hps⟩ := List.forall_mem_cons.1 pieces
    rw [List.append_assoc, List.singleton_append]
    rcases ih hps with hblank | ⟨u, c, w, hu, hc⟩
    · exact .inr ⟨p, '|', _, rfl, rfl, by decide, hblank⟩
    · exact .inr ⟨p ++ '|' :: u, c, w, by rw [hu]; simp, hc⟩

end Pieces

theorem unionMembers_bare {c : Char} (hc : Text.isBlank c = false) (hs : c ≠ ';') (u z : Text) :
    TypeText.unionMembers (bare (u ++ c :: z)) =
      TypeText.unionMembers (u ++ c :: Text.dropEndWhile (· == ';') z.trimEnd) := by
  have trimmed : Text.trim (u ++ c :: z) = u.trimStart ++ c :: z.trimEnd := by
    rw [Text.trim, Text.trimStart_append_solid hc, Text.trimEnd,
      Text.dropEndWhile_append_cons hc]
    rfl
  obtain ⟨v, hv, hu⟩ := Text.exists_trimStart u
  rw [bare, trimmed, TypeText.unionMembers_trim,
    Text.dropEndWhile_append_cons (p := (· == ';')) (beq_eq_false_iff_ne.2 hs)]
  conv => rhs; rw [hu, List.append_assoc, TypeText.unionMembers_eq,
    parts_append_left hv, ← TypeText.unionMembers_eq]

/-- What may follow a union: nothing, or a semicolon and white space. -/
def IsStop (stop : Text) : Prop := stop = [] ∨ ∃ w, Text.blank w ∧ stop = ';' :: w

theorem unionMembers_bare_stop {ps : List Text} (pieces : ∀ p ∈ ps, IsPiece p.trim)
    (some : tidy ps ≠ []) {stop : Text} (hstop : IsStop stop) :
    TypeText.unionMembers (bare (barred ps ++ stop)) = tidy ps := by
  rcases exists_last_barred pieces with hblank | ⟨u, c, w, hu, hc, hs, hw⟩
  · rw [← unionMembers_barred pieces, TypeText.unionMembers_eq,
      parts_blank hblank] at some
    exact absurd rfl some
  · have rest : Text.blank (Text.dropEndWhile (· == ';') (w ++ stop).trimEnd) := by
      rcases hstop with rfl | ⟨w', hw', rfl⟩
      · refine Text.blank_dropEndWhile (Text.blank_dropEndWhile ?_ _) _
        rwa [List.append_nil]
      · have none : Text.dropEndWhile Text.isBlank w' = [] := Text.trimEnd_eq_nil_iff.2 hw'
        rw [Text.trimEnd, Text.dropEndWhile_append_cons rfl, none, Text.dropEndWhile_concat rfl]
        exact Text.blank_dropEndWhile hw _
    have ends {z : Text} (hz : z.blank) : TypeText.unionMembers (u ++ c :: z) =
        TypeText.unionMembers (u ++ [c]) := by
      have more := parts_append_right (p := (· == '|')) hz (u ++ [c])
      rw [List.append_assoc, List.singleton_append] at more
      rw [TypeText.unionMembers_eq, TypeText.unionMembers_eq, more]
    rw [hu, List.append_assoc, List.cons_append, unionMembers_bare hc hs, ends rest, ← ends hw,
      ← hu, unionMembers_barred pieces]

theorem blank_piece_append {p : Text} (h : p.trim = [] ∨ ∃ l : Literal, p.trim = l.text)
    (r : Text) : CommentMode.code.blank (p ++ r) = p ++ CommentMode.code.blank r := by
  have space {w : Text} (hw : w.blank) (r : Text) :
      CommentMode.code.blank (w ++ r) = w ++ CommentMode.code.blank r :=
    CommentMode.blank_code_append
      (fun c hc => CommentMode.plain_of_isBlank (Text.isBlank_of_mem hw hc)) r
  rcases h with h | ⟨l, h⟩
  · exact space (Text.trim_eq_nil_iff.1 h) r
  · obtain ⟨v, w, hv, hw, hp⟩ := Text.exists_trim p
    rw [hp, h, List.append_assoc, List.append_assoc, space hv, List.append_assoc, l.blank_append,
      space hw, List.append_assoc]

theorem blank_barred_append {ps : List Text}
    (h : ∀ p ∈ ps, p.trim = [] ∨ ∃ l : Literal, p.trim = l.text) (r : Text) :
    CommentMode.code.blank (barred ps ++ r) = barred ps ++ CommentMode.code.blank r := by
  unfold barred
  fun_induction Text.join ['|'] ps with
  | case1 => rfl
  | case2 p => exact blank_piece_append (h p List.mem_cons_self) r
  | case3 p q ps ih =>
    obtain ⟨hp, hps⟩ := List.forall_mem_cons.1 h
    rw [List.append_assoc, List.append_assoc, blank_piece_append hp, List.singleton_append,
      CommentMode.blank_code (by decide) rfl, ih hps, List.append_assoc, List.append_assoc]
    rfl

theorem isPiece_of_mem {ps ms : List Text} (h : tidy ps = ms) (hms : ∀ m ∈ ms, IsPiece m) :
    ∀ p ∈ ps, IsPiece p.trim := by
  intro p hp
  by_cases hnil : p.trim = []
  · rw [hnil]
    exact .nil
  · have mem : p.trim ∈ tidy ps :=
      List.mem_filter.2 ⟨List.mem_map_of_mem hp, by simpa using hnil⟩
    exact hms _ (h ▸ mem)

theorem exists_literal_of_mem {ps : List Text} {ls : List Literal}
    (h : tidy ps = ls.map Literal.text) :
    ∀ p ∈ ps, p.trim = [] ∨ ∃ l : Literal, p.trim = l.text := by
  intro p hp
  by_cases hnil : p.trim = []
  · exact .inl hnil
  · have mem : p.trim ∈ tidy ps :=
      List.mem_filter.2 ⟨List.mem_map_of_mem hp, by simpa using hnil⟩
    obtain ⟨l, -, hl⟩ := List.mem_map.1 (h ▸ mem)
    exact .inr ⟨l, hl.symm⟩

/-- The piece in which a member is written, and the pieces before it. -/
theorem exists_of_tidy {ps ms ns : List Text} {m : Text} (h : tidy ps = ms ++ m :: ns) :
    ∃ qs p rs, ps = qs ++ p :: rs ∧ tidy qs = ms ∧ p.blank = false ∧ p.trim = m := by
  induction ps generalizing ms with
  | nil => cases ms <;> cases h
  | cons p ps ih =>
    rw [tidy_cons] at h
    split at h
    · rename_i hblank
      obtain ⟨qs, q, rs, rfl, hqs, hq⟩ := ih h
      exact ⟨p :: qs, q, rs, rfl, by rw [tidy_cons, if_pos hblank, hqs], hq⟩
    · rename_i hblank
      cases ms with
      | nil => exact ⟨[], p, ps, rfl, rfl, Bool.eq_false_iff.2 hblank, (List.cons.inj h).1⟩
      | cons k ms =>
        obtain ⟨hk, h⟩ := List.cons.inj h
        obtain ⟨qs, q, rs, rfl, hqs, hq⟩ := ih h
        exact ⟨p :: qs, q, rs, rfl, by rw [tidy_cons, if_neg hblank, hqs, hk], hq⟩

theorem ne_marks_of_isBlank {c : Char} (hc : Text.isBlank c) : c ≠ '/' ∧ c ≠ '*' ∧ c ≠ '\\' := by
  refine ⟨?_, ?_, ?_⟩ <;> (rintro rfl; cases hc)

/-- Nothing is written over up to the end of a member that is left as it is. -/
theorem blank_barred_concat_append {qs : List Text} {p : Text}
    (h : ∀ q ∈ qs, q.trim = [] ∨ ∃ l : Literal, q.trim = l.text)
    (kept : p.trim.blankComments = p.trim) {y : Text}
    (hy : ∀ c ∈ y, c ≠ '/' ∧ c ≠ '*' ∧ c ≠ '\\') {r : Text} (hr : y = [] → r = []) :
    ∃ r', CommentMode.code.blank (barred (qs ++ [p]) ++ (y ++ r)) =
      barred (qs ++ [p]) ++ (y ++ r') := by
  have before : ∃ a, barred (qs ++ [p]) = a ++ p ∧
      ∀ r, CommentMode.code.blank (a ++ r) = a ++ CommentMode.code.blank r := by
    by_cases hqs : qs = []
    · exact ⟨[], by rw [hqs]; rfl, fun _ => rfl⟩
    · refine ⟨barred qs ++ ['|'], ?_, fun r => ?_⟩
      · rw [barred_append hqs (List.cons_ne_nil p [])]
        simp [barred, Text.join]
      · rw [List.append_assoc, blank_barred_append h, List.singleton_append,
          CommentMode.blank_code (by decide) rfl, List.append_assoc]
        rfl
  obtain ⟨a, ha, before⟩ := before
  obtain ⟨v, w, hv, hw, hp⟩ := Text.exists_trim p
  have unmarked : ∀ c ∈ w ++ y, c ≠ '/' ∧ c ≠ '*' ∧ c ≠ '\\' :=
    List.forall_mem_append.2 ⟨fun c hc => ne_marks_of_isBlank (Text.isBlank_of_mem hw hc), hy⟩
  obtain ⟨r', hr'⟩ := CommentMode.blank_kept_append (.inl rfl) kept unmarked (r := r)
    fun e => hr (List.append_eq_nil_iff.1 e).2
  refine ⟨r', ?_⟩
  have space := blank_piece_append (p := v) (.inl (Text.trim_eq_nil_iff.2 hv))
  have whole : a ++ p ++ (y ++ r) = a ++ (v ++ (p.trim ++ (w ++ y ++ r))) := by
    conv => lhs; rw [hp]
    simp
  rw [ha, whole, before, space, hr']
  conv => rhs; rw [hp]
  simp

theorem IsStop.forall_mem {stop : Text} (h : IsStop stop) {p : Char → Prop} (semicolon : p ';')
    (space : ∀ c, Text.isBlank c → p c) : ∀ c ∈ stop, p c := by
  rcases h with rfl | ⟨w, hw, rfl⟩
  · simp
  · exact List.forall_mem_cons.2 ⟨semicolon, fun c hc => space c (Text.isBlank_of_mem hw hc)⟩

theorem blankComments_barred {ps : List Text} {ls : List Literal}
    (hps : tidy ps = ls.map Literal.text) {stop : Text} (hstop : IsStop stop) :
    Text.blankComments (barred ps ++ stop) = barred ps ++ stop := by
  have stays := CommentMode.blank_code_append
    (hstop.forall_mem (by decide) fun _ => CommentMode.plain_of_isBlank) []
  rw [CommentMode.blank, List.append_nil] at stays
  rw [Text.blankComments, blank_barred_append (exists_literal_of_mem hps), stays]

theorem mapM_value?_text (ls : List Literal) :
    (ls.map Literal.text).mapM value? = some (ls.map Literal.value) := by
  rw [List.mapM_map, ← Option.pure_def, ← List.mapM_pure]
  exact congrArg (ls.mapM ·) (funext Literal.value?_text)

/-- A member that is left as it is remains one, whatever becomes of those that follow it. -/
theorem mem_unionMembers_covered {qs : List Text} {p : Text} {ls : List Literal}
    (before : tidy qs = ls.map Literal.text) (some : p.blank = false) (piece : IsPiece p.trim)
    (kept : p.trim.blankComments = p.trim) {stop : Text} (hstop : IsStop stop) (rs : List Text) :
    p.trim ∈ TypeText.unionMembers (bare (barred (qs ++ p :: rs) ++ stop).blankComments) := by
  have last : tidy [p] = [p.trim] := by rw [tidy_cons, some]; rfl
  have first : tidy (qs ++ [p]) = ls.map Literal.text ++ [p.trim] := by
    rw [tidy_append, before, last]
  have pieces : ∀ q ∈ qs ++ [p], IsPiece q.trim := isPiece_of_mem first
    (List.forall_mem_append.2 ⟨List.forall_mem_map.2 fun l _ => l.isPiece,
      List.forall_mem_singleton.2 piece⟩)
  have covered {y : Text} (hy : ∀ c ∈ y, c ≠ '/' ∧ c ≠ '*' ∧ c ≠ '\\') {r : Text}
      (hr : y = [] → r = []) :=
    blank_barred_concat_append (exists_literal_of_mem before) kept hy hr
  -- The member is last, where the statement ends after it, or a bar follows it.
  by_cases hrs : rs = []
  · obtain ⟨r', hr'⟩ := covered (hstop.forall_mem (by decide) fun _ => ne_marks_of_isBlank)
      (r := []) fun _ => rfl
    have size := CommentMode.bytes_blank .code (barred (qs ++ [p]) ++ (stop ++ []))
    rw [hr'] at size
    obtain rfl : r' = [] := by simpa using size
    rw [List.append_nil] at hr'
    rw [hrs, Text.blankComments, hr', unionMembers_bare_stop pieces (by simp [first]) hstop,
      first]
    exact List.mem_append_right _ List.mem_cons_self
  · obtain ⟨r', hr'⟩ := covered (y := ['|']) (r := barred rs ++ stop) (by decide) (by simp)
    have whole : barred (qs ++ p :: rs) ++ stop =
        barred (qs ++ [p]) ++ (['|'] ++ (barred rs ++ stop)) := by
      have cut := barred_append (by simp : qs ++ [p] ≠ []) hrs
      rw [List.append_assoc, List.singleton_append] at cut
      rw [cut, List.append_assoc]
      rfl
    rw [whole, Text.blankComments, hr', List.singleton_append,
      unionMembers_bare (by decide) (by decide), TypeText.unionMembers_eq,
      parts_append (opensNothing_of_beq (by decide)) (topLevel_barred pieces) (by decide),
      ← TypeText.unionMembers_eq, unionMembers_barred pieces, first]
    exact List.mem_append_left _ (List.mem_append_right _ List.mem_cons_self)

def withUnion (head : Text) (ps : List Text) (stop : Text) : Text :=
  head ++ '=' :: (barred ps ++ stop)

/-- A union of string literals is read as their values in order, whatever is written in them. A
union in which another member stands is read as a type, if writing over comments leaves the first
such member as it is, as it does where the member has no comment and no string over several lines.
The pieces between the bars are the members with any white space around them; a piece of white space
only, such as the one before a leading bar, is none. -/
theorem ofText_union {name head : Text} (named : Head.IsName name) (hhead : IsHead name head)
    {ps : List Text} {stop : Text} (hstop : IsStop stop) :
    (∀ ls : List Literal, ls ≠ [] → tidy ps = ls.map Literal.text →
      ofText (withUnion head ps stop) = .ok ⟨name, .literals (ls.map Literal.value)⟩) ∧
    ∀ (ls : List Literal) (m : Text) (ms : List Text), tidy ps = ls.map Literal.text ++ m :: ms →
      IsOther m → m.blankComments = m →
      ∃ type, ofText (withUnion head ps stop) = .ok ⟨name, .type type⟩ := by
  constructor
  · intro ls hne hps
    have pieces : ∀ p ∈ ps, IsPiece p.trim := isPiece_of_mem hps
      (List.forall_mem_map.2 fun l _ => l.isPiece)
    have some : tidy ps ≠ [] := by simpa [hps] using hne
    have values : (TypeText.unionMembers (bare (barred ps ++ stop))).mapM value? =
        Option.some (ls.map Literal.value) := by
      rw [unionMembers_bare_stop pieces some hstop, hps, mapM_value?_text]
    rw [withUnion, ofText_written named hhead, blankComments_barred hps hstop,
      bodyOf_literals (by simpa using hne) values]
  · intro ls m ms hps other kept
    obtain ⟨qs, p, rs, rfl, before, some, rfl⟩ := exists_of_tidy hps
    have member := mem_unionMembers_covered before some other.isPiece kept hstop rs
    exact ⟨_, by rw [withUnion, ofText_written named hhead, bodyOf_type member other.notLiteral]⟩

/-- Strings with bars, semicolons, braces, equals signs, other quotes and the marks of comments. -/
theorem ofText_union_marks :
    ofText "export declare type N =\n| \"a | b; // \x7b\" |'\"=`/*'\t|`  `;\n".toList =
        .ok ⟨['N'], .literals ["a | b; // \x7b".toList, "\"=`/*".toList, "  ".toList]⟩ ∧
      ofText "type N = 'a|' | \x7bb: `|\n;`\x7d[] | \"// c\"".toList =
        .ok ⟨['N'], .type "'a|' | \x7bb: `| ;`\x7d[] | \"// c\"".toList⟩ := by
  have head : IsHead ['N'] "type N ".toList :=
    .named (g := [' ']) (h := [' ']) (by decide) (by decide) (by decide)
  have modified : IsHead ['N'] "export declare type N ".toList :=
    .modified (g := [' ']) (by decide : "export" ∈ modifiers) (by decide) (by decide)
      (.modified (g := [' ']) (by decide : "declare" ∈ modifiers) (by decide) (by decide) head)
  constructor
  · let literals : List Literal :=
      [⟨'"', "a | b; // \x7b".toList, by decide, by decide, by decide, by decide⟩,
        ⟨'\'', "\"=`/*".toList, by decide, by decide, by decide, by decide⟩,
        ⟨'`', "  ".toList, by decide, by decide, by decide, by decide⟩]
    let ps : List Text :=
      ["\n".toList, " \"a | b; // \x7b\" ".toList, "'\"=`/*'\t".toList, "`  `".toList]
    have pieces : tidy ps = literals.map Literal.text := by decide
    have text : withUnion "export declare type N ".toList ps ";\n".toList =
        "export declare type N =\n| \"a | b; // \x7b\" |'\"=`/*'\t|`  `;\n".toList := by decide
    rw [← text]
    exact (ofText_union (by decide) modified (.inr ⟨"\n".toList, rfl, rfl⟩)).1 literals
      (List.cons_ne_nil _ _) pieces
  · let literals : List Literal :=
      [⟨'\'', "a|".toList, by decide, by decide, by decide, by decide⟩]
    let member : Text := "\x7bb: `|\n;`\x7d[]".toList
    let ps : List Text := [" 'a|' ".toList, ' ' :: (member ++ [' ']), " \"// c\"".toList]
    have pieces : tidy ps = literals.map Literal.text ++ member :: ["\"// c\"".toList] := by decide
    have text : withUnion "type N ".toList ps [] =
        "type N = 'a|' | \x7bb: `|\n;`\x7d[] | \"// c\"".toList := by decide
    obtain ⟨type, read⟩ := (ofText_union (by decide) head (.inl rfl)).2 literals member
      ["\"// c\"".toList] pieces (by decide +kernel) (by decide)
    rw [text] at read
    have body : (ofText "type N = 'a|' | \x7bb: `|\n;`\x7d[] | \"// c\"".toList).toOption.map
        Alias.body = some (.type "'a|' | \x7bb: `| ;`\x7d[] | \"// c\"".toList) := by
      decide +kernel
    rw [read] at body ⊢
    cases body
    rfl

/-- What stands between the strings of this member is written over, since the first of them goes
on to another line, on which the mark of a comment stands. What is left is a string literal. -/
theorem not_ofText_union :
    let m : Text := "`a\n/*`&`*/`".toList
    m.CommentFree ∧ IsOther m ∧
      ofText ("type N = \"b\" | ".toList ++ m) =
        .ok ⟨['N'], .literals ["b".toList, "a\n       ".toList]⟩ ∧
      ¬∀ (ls : List Literal) (m : Text) (ms ps : List Text),
        tidy ps = ls.map Literal.text ++ m :: ms → m.CommentFree → IsOther m →
        ∃ type, ofText (withUnion "type N ".toList ps []) = .ok ⟨['N'], .type type⟩ := by
  intro m
  have free : m.CommentFree := by decide +kernel
  have other : IsOther m := by decide +kernel
  have read : ofText ("type N = \"b\" | ".toList ++ m) =
      .ok ⟨['N'], .literals ["b".toList, "a\n       ".toList]⟩ := by decide +kernel
  refine ⟨free, other, read, fun all => ?_⟩
  obtain ⟨type, h⟩ := all [⟨'"', "b".toList, by decide, by decide, by decide, by decide⟩] m []
    [" \"b\" ".toList, ' ' :: m] (by decide) free other
  have same : withUnion "type N ".toList [" \"b\" ".toList, ' ' :: m] [] =
      "type N = \"b\" | ".toList ++ m := by decide
  rw [same, read] at h
  cases h

end WebSurface.Alias
