import WebSurface.Proofs.Lexemes
set_option autoImplicit false

namespace WebSurface

namespace Lexeme

def onLine : Lexeme → Bool
  | .token (.literal _ raw) => !raw.elem '\n'
  | .fault .unterminatedString _ => false
  | _ => true

def covered (l : Lexeme) : Text :=
  if l.isComment then l.text.flatMap CommentMode.cover else l.text

end Lexeme

/-- Each string outside comments closes on the line on which it opens. -/
def Text.LiteralsOnLine (t : Text) : Prop := ∀ l ∈ Lexeme.ofText t, l.onLine

/-- The text has no comment outside its strings. -/
def Text.CommentFree (t : Text) : Prop := ∀ l ∈ Lexeme.ofText t, l.isComment = false

instance (t : Text) : Decidable t.LiteralsOnLine :=
  List.decidableBAll (fun l : Lexeme => l.onLine) (Lexeme.ofText t)

instance (t : Text) : Decidable t.CommentFree :=
  List.decidableBAll (fun l : Lexeme => l.isComment = false) (Lexeme.ofText t)

namespace CommentMode

open Lexeme

theorem blank_code_append {w : Text} (hw : ∀ c ∈ w, c ≠ '/' ∧ isQuote c = false) (r : Text) :
    code.blank (w ++ r) = w ++ code.blank r := by
  induction w with
  | nil => rfl
  | cons c w ih =>
    obtain ⟨⟨hslash, hquote⟩, hw⟩ := List.forall_mem_cons.1 hw
    rw [List.cons_append, blank_code hslash hquote, ih hw]
    rfl

theorem blank_line_append {body : Text} (hbody : '\n' ∉ body) (r : Text) :
    line.blank (body ++ r) = body.flatMap cover ++ line.blank r := by
  induction body with
  | nil => rfl
  | cons c body ih =>
    rw [List.mem_cons, not_or] at hbody
    rw [List.cons_append, blank, if_neg (Ne.symm hbody.1), ih hbody.2, List.flatMap_cons,
      List.append_assoc]

theorem blank_line_eq_code {r : Text} (hr : ∀ c ∈ r.head?, c = '\n') :
    line.blank r = code.blank r := by
  cases r with
  | nil => rfl
  | cons c r =>
    obtain rfl := hr c rfl
    rw [blank_code (c := '\n') (by decide) rfl r, blank]
    rfl

theorem blank_block_append {body : Text} (hbody : ¬['*', '/'] <:+: body) (r : Text) :
    block.blank (body ++ '*' :: '/' :: r) =
      body.flatMap cover ++ ' ' :: ' ' :: code.blank r := by
  induction body with
  | nil => rfl
  | cons c body ih =>
    have hrest := ih fun hin => hbody (List.infix_cons_iff.2 (.inr hin))
    have inside : c = '*' → (body ++ '*' :: '/' :: r).head? ≠ some '/' := by
      rintro rfl hs
      cases body with
      | nil => cases hs
      | cons d body =>
        obtain rfl : d = '/' := Option.some.inj hs
        exact hbody ⟨[], body, rfl⟩
    rw [List.cons_append, blank_block_cons inside, hrest, List.flatMap_cons, List.append_assoc]

theorem blank_block {t : Text} (ht : ¬['*', '/'] <:+: t) : block.blank t = t.flatMap cover := by
  induction t with
  | nil => rfl
  | cons c t ih =>
    have hrest := ih fun hin => ht (List.infix_cons_iff.2 (.inr hin))
    have inside : c = '*' → t.head? ≠ some '/' := by
      rintro rfl hs
      obtain ⟨s, rfl⟩ := List.head?_eq_some_iff.1 hs
      exact ht ⟨[], s, rfl⟩
    rw [blank_block_cons inside, hrest, List.flatMap_cons]

theorem blank_literal_append {q : Char} (hq : isQuote q) {raw : Text} (hraw : IsRaw q raw)
    (hline : '\n' ∉ raw) (r : Text) :
    (literal q).blank (raw ++ q :: r) = raw ++ q :: code.blank r := by
  have hback := ne_backslash_of_isQuote hq
  induction hraw with
  | nil =>
    rw [List.nil_append, blank_literal_cons fun e => absurd e hback, if_pos (.inl rfl)]
    rfl
  | escape _ ih =>
    simp only [List.mem_cons, not_or] at hline
    rw [List.cons_append, List.cons_append, blank, ih hline.2.2]
    rfl
  | @char c raw hc hne _ ih =>
    rw [List.mem_cons, not_or] at hline
    rw [List.cons_append, blank_literal_cons fun e => absurd e hne,
      if_neg (by simp [hc, Ne.symm hline.1]), ih hline.2]
    rfl

theorem blank_plain_append {y : Text} (hy : ∀ c ∈ y, c ≠ '/' ∧ c ≠ '\\') {m : CommentMode}
    (hm : m = .code ∨ ∃ q, m = .literal q) (r : Text) :
    ∃ r', m.blank (y ++ r) = y ++ r' := by
  induction y generalizing m with
  | nil => exact ⟨m.blank r, rfl⟩
  | cons c y ih =>
    obtain ⟨⟨hslash, hback⟩, hy⟩ := List.forall_mem_cons.1 hy
    rcases hm with rfl | ⟨q, rfl⟩
    · obtain ⟨r', h⟩ := ih hy (m := if isQuote c then .literal c else .code)
        (by split <;> simp)
      refine ⟨r', ?_⟩
      rw [List.cons_append, blank_code_cons (fun e => absurd e hslash) (fun e => absurd e hslash),
        h]
      rfl
    · obtain ⟨r', h⟩ := ih hy (m := if c = q ∨ c = '\n' then .code else .literal q)
        (by split <;> simp)
      refine ⟨r', ?_⟩
      rw [List.cons_append, blank_literal_cons fun e => absurd e hback, h]
      rfl

/-- A text that is left as it is is left so whatever follows, if that does not complete the mark
of a comment. -/
theorem blank_kept_append {m : CommentMode} (hm : m = .code ∨ ∃ q, m = .literal q) {x : Text}
    (kept : m.blank x = x) {y : Text} (hy : ∀ c ∈ y, c ≠ '/' ∧ c ≠ '*' ∧ c ≠ '\\') {r : Text}
    (hr : y = [] → r = []) : ∃ r', m.blank (x ++ (y ++ r)) = x ++ (y ++ r') := by
  -- What follows completes no mark with the last character of the text.
  have apart : (y ++ r).head? ≠ some '/' ∧ (y ++ r).head? ≠ some '*' := by
    cases y with
    | nil => simp [hr rfl]
    | cons c y =>
      have hc := hy c List.mem_cons_self
      simp [hc.1, hc.2.1]
  have plain {m : CommentMode} (hm : m = .code ∨ ∃ q, m = .literal q) :=
    blank_plain_append (fun c hc => ⟨(hy c hc).1, (hy c hc).2.2⟩) hm r
  fun_induction CommentMode.blank m x with
  | case1 m =>
    rw [List.nil_append]
    exact plain hm
  | case2 | case3 => simp at kept
  | case4 c x hline hblock ih =>
    obtain ⟨r', h⟩ := ih (by split <;> simp) (List.cons.inj kept).2
    refine ⟨r', ?_⟩
    have head {d : Char} (hd : (y ++ r).head? ≠ some d) (hx : ∀ s, c = '/' → x = d :: s → False) :
        c = '/' → (x ++ (y ++ r)).head? ≠ some d := by
      rintro rfl
      cases x with
      | nil => exact hd
      | cons e x =>
        intro he
        obtain rfl : e = d := Option.some.inj he
        exact hx x rfl rfl
    rw [List.cons_append, blank_code_cons (head apart.1 hline) (head apart.2 hblock), h]
    rfl
  | case5 q c x ih =>
    obtain ⟨r', h⟩ := ih (.inr ⟨q, rfl⟩) (List.cons.inj (List.cons.inj kept).2).2
    refine ⟨r', ?_⟩
    rw [List.cons_append, List.cons_append, blank, h]
    rfl
  | case6 q c x hback ih =>
    by_cases hlast : c = '\\' ∧ x = []
    · -- The backslash takes along the character that follows the text.
      obtain ⟨rfl, rfl⟩ := hlast
      cases y with
      | nil => exact ⟨[], by rw [hr rfl]; exact kept⟩
      | cons d y =>
        have rest := fun e he => hy e (List.mem_cons_of_mem d he)
        obtain ⟨r', h⟩ := blank_plain_append (fun e he => ⟨(rest e he).1, (rest e he).2.2⟩)
          (.inr ⟨q, rfl⟩ : CommentMode.literal q = .code ∨ _) r
        refine ⟨r', ?_⟩
        rw [List.singleton_append, List.cons_append, blank, h]
        rfl
    · obtain ⟨r', h⟩ := ih (by split <;> simp) (List.cons.inj kept).2
      have bare : c ≠ '\\' := by
        rintro rfl
        cases x with
        | nil => exact hlast ⟨rfl, rfl⟩
        | cons e x => exact hback e x rfl rfl
      refine ⟨r', ?_⟩
      rw [List.cons_append, blank_literal_cons fun e => absurd e bare, h]
      rfl
  | _ => simp at hm

theorem plain_of_isNumberChar {c : Char} (h : isNumberChar c) : c ≠ '/' ∧ isQuote c = false := by
  constructor
  · rintro rfl
    cases h
  · cases hq : isQuote c with
    | false => rfl
    | true => rcases Text.eq_of_isQuote hq with rfl | rfl | rfl <;> cases h

theorem plain_of_mem_number {t : Text} (h : (TokenKind.number t).WellSpelled) :
    ∀ c ∈ t, c ≠ '/' ∧ isQuote c = false := by
  intro c hc
  rcases h.isNumberChar c hc with hn | rfl
  · exact plain_of_isNumberChar hn
  · decide

theorem plain_of_mem_spelling {s : Sign} {c : Char} (hc : c ∈ s.spelling) :
    c ≠ '/' ∧ isQuote c = false := by
  have all : s.spelling.all fun c => c != '/' && !isQuote c := by
    cases s with
    | opening kind => cases kind <;> rfl
    | closing kind => cases kind <;> rfl
    | _ => rfl
  simpa using List.all_eq_true.1 all c hc

theorem plain_of_isSeparator {c : Char} (hc : isSeparator c) : c ≠ '/' ∧ isQuote c = false := by
  rcases Text.eq_of_isSeparator hc with rfl | rfl | rfl | rfl <;> decide

theorem covered_space {c : Char} (hc : isSeparator c) : (Lexeme.blank [c]).covered = [c] := by
  simp [covered, isComment, (plain_of_isSeparator hc).1, text]

/-- Writing over the comments of a text that begins with a lexeme covers this first. -/
theorem blank_text_append {l : Lexeme} {r : Text} (h : Reads l r) (hl : l.onLine) :
    code.blank (l.text ++ r) = l.covered ++ code.blank r := by
  cases h with
  | @space c _ hc =>
    have plain := plain_of_isSeparator hc
    rw [covered_space hc]
    exact blank_code plain.1 plain.2 r
  | line hbody hstop =>
    have := blank_line_append hbody r
    rw [blank_line_eq_code hstop] at this
    simp only [text, List.cons_append, blank, this]
    rfl
  | @block body _ hbody =>
    have : (Lexeme.blank ('/' :: '*' :: (body ++ ['*', '/']))).covered =
        ' ' :: ' ' :: (body.flatMap cover ++ [' ', ' ']) := by
      simp [covered, isComment, text]
      rfl
    rw [this, text]
    simp [blank, blank_block_append hbody]
  | @token k _ hk hends =>
    cases k with
    | name t => exact blank_code_names hk.isNameChar r
    | literal q raw =>
      obtain ⟨hq, hraw⟩ := hk
      have hline : '\n' ∉ raw := by simpa [onLine] using hl
      have hslash : q ≠ '/' := by
        rintro rfl
        cases hq
      have := blank_literal_append hq hraw hline r
      simp only [text, TokenKind.spelling, List.cons_append, List.append_assoc, List.nil_append]
      rw [blank_code_cons (fun e => absurd e hslash) (fun e => absurd e hslash), if_pos hq, this]
      simp [covered, isComment, text, TokenKind.spelling]
    | number t => exact blank_code_append (plain_of_mem_number hk) r
    | sign s => exact blank_code_append (fun _ => plain_of_mem_spelling) r
    | eof => exact hk.elim
  | @unexpected c _ h =>
    have := blank_code_cons h.line h.block
    rw [h.quote] at this
    exact this
  | openLiteral hq => cases hl
  | openComment ht =>
    simp [text, blank, blank_block ht, covered, isComment]
    rfl

end CommentMode

/-- Comments become white space, and all else stays. -/
theorem Text.blankComments_eq {t : Text} (h : t.LiteralsOnLine) :
    t.blankComments = (Lexeme.ofText t).flatMap Lexeme.covered := by
  unfold Text.LiteralsOnLine at h
  unfold Text.blankComments
  fun_induction Lexeme.ofText t with
  | case1 => rfl
  | case2 c r ih =>
    obtain ⟨hl, hrest⟩ := List.forall_mem_cons.1 h
    have := CommentMode.blank_text_append (Lexeme.reads_next c r) hl
    rw [Lexeme.text_next] at this
    rw [this, ih hrest, List.flatMap_cons]

theorem Text.blankComments_commentFree {t : Text} (h : t.LiteralsOnLine) (hc : t.CommentFree) :
    t.blankComments = t := by
  have same : (Lexeme.ofText t).flatMap Lexeme.covered = (Lexeme.ofText t).flatMap Lexeme.text :=
    congrArg List.flatten (List.map_congr_left fun l hl => by simp [Lexeme.covered, hc l hl])
  rw [blankComments_eq h, same, Lexeme.flatMap_text_ofText]

namespace CommentMode

open Lexeme

theorem isSeparator_of_mem_cover {t : Text} : ∀ c ∈ t.flatMap cover, isSeparator c := by
  intro c hc
  obtain ⟨d, -, hd⟩ := List.mem_flatMap.1 hc
  unfold cover at hd
  split at hd
  · rw [List.mem_singleton.1 hd]
    decide
  · rw [List.eq_of_mem_replicate hd]
    decide

theorem blank_cover (c : Char) : Text.blank (cover c) := by
  unfold cover
  split
  · rfl
  · exact List.all_eq_true.2 fun d hd => (List.mem_replicate.1 hd).2 ▸ rfl

theorem bytes_flatMap_cover (t : Text) : Text.bytes (t.flatMap cover) = Text.bytes t := by
  induction t with
  | nil => rfl
  | cons c t ih => rw [List.flatMap_cons, Text.bytes_append, bytes_cover, ih, Text.bytes_cons]

theorem endsBefore_blank {k : TokenKind} {r : Text} (h : k.EndsBefore r) :
    k.EndsBefore (code.blank r) :=
  h.rewritten head?_blank_code (blank_code (by decide) rfl)

end CommentMode

namespace Lexeme

theorem ofText_separators {w : Text} (hw : ∀ c ∈ w, isSeparator c) (r : Text) :
    ofText (w ++ r) = w.map (fun c => .blank [c]) ++ ofText r := by
  induction w with
  | nil => rfl
  | cons c w ih =>
    obtain ⟨hc, hw⟩ := List.forall_mem_cons.1 hw
    have := ofText_of_reads (Reads.space (r := w ++ r) hc) rfl
    rw [text, List.singleton_append, ih hw] at this
    exact this

/-- What a lexeme becomes is read with what follows it as it was read before. -/
theorem ofText_covered {l : Lexeme} {r : Text} (h : Reads l r) (hf : l.isFault = false) :
    ofText (l.covered ++ CommentMode.code.blank r) =
      (if l.isComment then (l.text.flatMap CommentMode.cover).map (fun c => .blank [c]) else [l]) ++
        ofText (CommentMode.code.blank r) := by
  unfold covered
  split
  · exact ofText_separators CommentMode.isSeparator_of_mem_cover _
  · rename_i hc
    refine ofText_of_reads ?_ hf
    cases h with
    | space h => exact .space h
    | token hk hends => exact .token hk (CommentMode.endsBefore_blank hends)
    | line => exact absurd rfl hc
    | block => exact absurd rfl hc
    | _ => cases hf

end Lexeme

namespace Token

open Lexeme

theorem among_blanks (n : Nat) (w : Text) (ls : List Lexeme) :
    among n (w.map (fun c => .blank [c]) ++ ls) = among (n + Text.bytes w) ls := by
  induction w generalizing n with
  | nil => rfl
  | cons c w ih =>
    rw [List.map_cons, List.cons_append, among_blank, ih]
    simp [Nat.add_assoc]

theorem among_blankComments {t : Text} (hf : ∀ l ∈ ofText t, l.isFault = false)
    (hline : t.LiteralsOnLine) (n : Nat) :
    among n (ofText t.blankComments) = among n (ofText t) ∧
      ∀ l ∈ ofText t.blankComments, l.isFault = false ∧ l.isComment = false := by
  unfold Text.LiteralsOnLine at hline
  unfold Text.blankComments
  fun_induction ofText t generalizing n with
  | case1 => constructor <;> simp [CommentMode.blank]
  | case2 c r ih =>
    obtain ⟨hl, hf⟩ := List.forall_mem_cons.1 hf
    obtain ⟨hon, hline⟩ := List.forall_mem_cons.1 hline
    have reads := reads_next c r
    have first := CommentMode.blank_text_append reads hon
    rw [text_next] at first
    obtain ⟨same, clear⟩ := ih hf hline (n + Text.bytes (next c r).1.text)
    rw [first, ofText_covered reads hl]
    -- A comment turns into separators of the same size, which are no tokens.
    split
    · rename_i hc
      refine ⟨?_, List.forall_mem_append.2 ⟨List.forall_mem_map.2 fun d hd => ⟨rfl, ?_⟩, clear⟩⟩
      · rw [among_blanks, CommentMode.bytes_flatMap_cover, same]
        cases hn : (next c r).1 with
        | token k => rw [hn] at hc; cases hc
        | _ => rfl
      · have slash := (CommentMode.plain_of_isSeparator
          (CommentMode.isSeparator_of_mem_cover d hd)).1
        simpa [isComment] using slash
    · rename_i hc
      refine ⟨?_, List.forall_mem_cons.2 ⟨⟨hl, Bool.eq_false_iff.2 hc⟩, clear⟩⟩
      rw [List.singleton_append]
      cases hn : (next c r).1 with
      | token k =>
        rw [hn] at same
        exact congrArg (List.cons _) same
      | _ => rw [hn] at same; exact same

theorem exists_mem_among {k : TokenKind} {n : Nat} {ls : List Lexeme} (h : .token k ∈ ls) :
    ∃ token ∈ among n ls, token.kind = k := by
  induction ls generalizing n with
  | nil => cases h
  | cons l ls ih =>
    rcases List.mem_cons.1 h with rfl | h
    · exact ⟨_, List.mem_cons_self, rfl⟩
    · obtain ⟨token, htoken, hk⟩ := ih h (n := n + Text.bytes l.text)
      refine ⟨token, ?_, hk⟩
      cases l with
      | token kind => exact List.mem_cons_of_mem _ htoken
      | _ => exact htoken

/-- Writing over comments leaves no comment, and it changes no token and no place of one. -/
theorem tokenize_blankComments {t : Text} {tokens : List Token} (h : tokenize t = .ok tokens)
    (hline : ∀ k ∈ tokens, ∀ q raw, k.kind = .literal q raw → '\n' ∉ raw) :
    tokenize t.blankComments = .ok tokens ∧ t.blankComments.CommentFree := by
  have faultless := exists_tokenize_iff.1 ⟨tokens, h⟩
  rw [tokenize_eq_ok faultless] at h
  obtain rfl := Except.ok.inj h
  have onLine : t.LiteralsOnLine := fun l hl => by
    have hf := faultless l hl
    cases l with
    | token k =>
      cases k with
      | literal q raw =>
        obtain ⟨token, htoken, hk⟩ := exists_mem_among (n := 0) hl
        simpa [onLine] using hline token (List.mem_append_left _ htoken) q raw hk
      | _ => rfl
    | fault => cases hf
    | blank => rfl
  obtain ⟨same, clear⟩ := among_blankComments faultless onLine 0
  refine ⟨?_, fun l hl => (clear l hl).2⟩
  rw [tokenize_eq_ok fun l hl => (clear l hl).1, same, Text.bytes_blankComments]

/-- Quotes in comments and marks of comments in strings. -/
theorem tokenize_blankComments_marks :
    let text : Text := "a/*/ \"é */: // '\n\"/*\\\"//\"..".toList
    let tokens : List Token := [⟨.name ['a'], ⟨0, 1⟩⟩, ⟨.sign .colon, ⟨11, 12⟩⟩,
      ⟨.literal '"' "/*\\\"//".toList, ⟨18, 26⟩⟩, ⟨.sign .dot, ⟨26, 27⟩⟩,
      ⟨.sign .dot, ⟨27, 28⟩⟩, endAt 28]
    tokenize text = .ok tokens ∧
      (∀ k ∈ tokens, ∀ q raw, k.kind = .literal q raw → '\n' ∉ raw) ∧
      text.blankComments = "a          :     \n\"/*\\\"//\"..".toList ∧
      tokenize text.blankComments = .ok tokens ∧ text.blankComments.CommentFree := by
  intro text tokens
  have read : tokenize text = .ok tokens :=
    (tokenize_eq_ok (by decide +kernel)).trans (congrArg Except.ok (by decide +kernel))
  have onLine : ∀ k ∈ tokens, ∀ q raw, k.kind = .literal q raw → '\n' ∉ raw := by
    simp [tokens, endAt]
  exact ⟨read, onLine, by decide +kernel, tokenize_blankComments read onLine⟩

end Token

end WebSurface
