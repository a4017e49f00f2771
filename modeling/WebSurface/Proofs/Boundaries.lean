import WebSurface.Proofs.TokenNesting
set_option autoImplicit false

namespace WebSurface.Lexeme

open Nesting

variable {l : Lexeme} {r : Text}

theorem reads_of_append {y u : Text} (h : Reads l (y ++ u)) (hf : l.isFault = false)
    (hc : l.isComment = false) : Reads l y := by
  have head {P : Char → Prop} (hP : ∀ c ∈ (y ++ u).head?, P c) : ∀ c ∈ y.head?, P c := by
    cases y with
    | nil => exact fun c hc => by cases hc
    | cons d y => exact hP
  have start {w : Text} (hw : ¬w <+: y ++ u) : ¬w <+: y := fun h => hw (h.trans ⟨u, rfl⟩)
  generalize y ++ u = r at h head start
  cases h with
  | space h => exact .space h
  | line => cases hc
  | block => cases hc
  | @token k _ hk hends =>
    refine .token hk ?_
    cases k with
    | name t => exact head hends
    | number t => exact head hends
    | sign s =>
      cases s with
      | dot => exact start hends
      | equals => exact start hends
      | _ => trivial
    | _ => trivial
  | _ => cases hf

theorem not_inCode_run_raw {a : Char} {raw x : Text} (hraw : IsRaw a raw) (hx : x <+: raw)
    (n : Nat) : ((⟨n, .literal a false⟩ : Nesting).run x).inCode = false := by
  induction hraw generalizing x with
  | nil =>
    rw [List.prefix_nil.1 hx]
    rfl
  | @escape c raw _ ih =>
    rcases List.prefix_cons_iff.1 hx with rfl | ⟨y, rfl, hy⟩
    · rfl
    · rcases List.prefix_cons_iff.1 hy with rfl | ⟨z, rfl, hz⟩
      · rfl
      · exact ih (x := z) hz
  | @char c raw hc hne _ ih =>
    rcases List.prefix_cons_iff.1 hx with rfl | ⟨y, rfl, hy⟩
    · rfl
    · rw [run_cons, step_raw hc hne]
      exact ih hy

/-- A lexeme does not end later than a place outside strings where no token goes on. -/
theorem not_straddles {x z : Text} (h : Reads l r) (hf : l.isFault = false)
    (hc : l.isComment = false) (hl : l.text = x ++ z) (hx : x ≠ []) (hz : z ≠ []) {n : Nat}
    {b : Bool} (hcode : ((⟨n, .code b⟩ : Nesting).run x).inCode) : ¬Apart (z ++ r) := by
  obtain ⟨c, x, rfl⟩ := List.exists_cons_of_ne_nil hx
  obtain ⟨d, z, rfl⟩ := List.exists_cons_of_ne_nil hz
  intro apart
  have hd := apart d rfl
  -- The place stands before `d`, a character of the lexeme, and so the lexeme goes on there.
  cases h with
  | space => simp [text] at hl
  | line => cases hc
  | block => cases hc
  | @token k _ hk hends =>
    rw [text] at hl
    cases k with
    | name t =>
      obtain ⟨e, w, rfl, -, hw⟩ := hk
      obtain ⟨rfl, rfl⟩ := List.cons.inj hl
      rw [hw d (by simp)] at hd
      cases hd.1
    | number t =>
      obtain ⟨e, w, rfl, -, hw⟩ := hk
      obtain ⟨rfl, rfl⟩ := List.cons.inj hl
      have := isNumberChar_eq_false hd.1 hd.2.1
      rw [hw d (by simp)] at this
      cases this
    | literal a raw =>
      obtain ⟨ha, hraw⟩ := hk
      obtain ⟨rfl, hraw'⟩ := List.cons.inj hl
      replace hraw' : raw ++ [a] = x ++ d :: z := hraw'
      have inside : x <+: raw := by
        rcases List.eq_nil_or_concat z with rfl | ⟨z, e, rfl⟩
        · exact ⟨[], by simpa using (List.append_inj' hraw' rfl).1.symm⟩
        · refine ⟨d :: z, ?_⟩
          rw [List.concat_eq_append, ← List.cons_append, ← List.append_assoc] at hraw'
          exact (List.append_inj' hraw' rfl).1.symm
      rw [run_cons, step_quote ha, not_inCode_run_raw hraw inside] at hcode
      cases hcode
    | sign s =>
      cases s with
      | ellipsis =>
        have : d ∈ (TokenKind.sign .ellipsis).spelling := by rw [hl]; simp
        exact hd.2.1 (List.eq_of_mem_replicate (n := 3) this)
      | arrow =>
        obtain ⟨-, hl⟩ := List.cons.inj hl
        cases x with
        | nil => exact hd.2.2 (List.cons.inj hl).1.symm
        | cons e x => simp at hl
      | opening kind => cases kind <;> simp [TokenKind.spelling, Sign.spelling] at hl
      | closing kind => cases kind <;> simp [TokenKind.spelling, Sign.spelling] at hl
      | _ => simp [TokenKind.spelling, Sign.spelling] at hl
    | eof => exact hk.elim
  | _ => cases hf

/-- At a place outside strings where no token goes on, the lexemes of the text are those before it
and those after it. -/
theorem ofText_split {x u : Text} (ht : Clear (x ++ u)) (hu : Apart u) {s : Nesting} {n : Nat}
    (hs : s.Between n (x ++ u)) (hcode : (s.run x).inCode) :
    ofText (x ++ u) = ofText x ++ ofText u := by
  generalize he : x ++ u = t at ht hs
  unfold Clear at ht
  fun_induction ofText t generalizing x s n with
  | case1 =>
    obtain ⟨rfl, rfl⟩ := List.append_eq_nil_iff.1 he
    simp
  | case2 c r ih =>
    obtain ⟨⟨hf, hc⟩, ht⟩ := List.forall_mem_cons.1 ht
    have reads := reads_next c r
    by_cases hx : x = []
    · rw [hx, ← ofText_cons, ← he, hx, ofText_nil]
      rfl
    rw [← text_next c r] at he hs
    rcases List.append_eq_append_iff.1 he with ⟨z, hl, rfl⟩ | ⟨y, rfl, hr⟩
    · by_cases hz : z = []
      · rw [hz, List.append_nil] at hl
        rw [hz, List.nil_append, ← hl, ← List.append_nil (next c r).1.text, ofText_of_reads _ hf]
        · simp
        · exact reads_of_append (y := []) (u := (next c r).2) reads hf hc
      · obtain ⟨b, rfl, -⟩ := hs
        exact absurd hu (not_straddles reads hf hc hl hx hz hcode)
    · rw [run_append] at hcode
      have rest := ih hcode hr.symm ht (between_run (met_of_reads reads hf hc) hs)
      rw [hr] at reads
      rw [rest, ofText_of_reads (reads_of_append reads hf hc) hf]
      rfl

theorem apart_blank {w : Text} (hw : w.blank) : Apart w := by
  intro c hc
  have blank := Text.isBlank_of_mem hw (List.mem_of_mem_head? hc)
  refine ⟨Text.isNameChar_of_isBlank blank, ?_, ?_⟩ <;> (rintro rfl; cases blank)

theorem clear_append_iff {x u : Text} (hu : Apart u) (hcode : (outside.run x).inCode) :
    Clear (x ++ u) ↔ Clear x ∧ Clear u := by
  constructor
  · intro h
    have split := ofText_split h hu (between_code 0 _) hcode
    unfold Clear at h
    rw [split] at h
    exact List.forall_mem_append.1 h
  · rintro ⟨hx, hu'⟩
    have whole := ofText_append (fun l hl => (hx l hl).1)
      (fun l hl => (hx l (List.mem_of_getLast? hl)).2) hu
    unfold Clear
    rw [whole]
    exact List.forall_mem_append.2 ⟨hx, hu'⟩

theorem clear_separators_append {w : Text} (hw : ∀ c ∈ w, isSeparator c) (t : Text) :
    Clear (w ++ t) ↔ Clear t := by
  rw [Clear, ofText_separators hw, List.forall_mem_append]
  refine and_iff_right fun l hl => ?_
  obtain ⟨c, hc, rfl⟩ := List.mem_map.1 hl
  obtain rfl | rfl | rfl | rfl := Text.eq_of_isSeparator (hw c hc) <;> exact ⟨rfl, rfl⟩

theorem isBlank_of_isSeparator {c : Char} (h : isSeparator c) : Text.isBlank c := by
  obtain rfl | rfl | rfl | rfl := Text.eq_of_isSeparator h <;> rfl

theorem blank_of_isSeparator {w : Text} (hw : ∀ c ∈ w, isSeparator c) : w.blank :=
  List.all_eq_true.2 fun c hc => isBlank_of_isSeparator (hw c hc)

theorem isBlank_of_isNumberChar {c : Char} (h : isNumberChar c) : Text.isBlank c = false := by
  rw [isNumberChar, Bool.or_eq_true, beq_iff_eq] at h
  rcases h with h | rfl
  · exact Text.isBlank_of_isNameChar (by simp [Text.isNameChar, Text.isAlphanumeric, h])
  · rfl

theorem isBlank_of_mem_spelling {k : TokenKind} (hk : k.WellSpelled)
    (notLiteral : ∀ q raw, k ≠ .literal q raw) : ∀ c ∈ k.spelling, Text.isBlank c = false := by
  cases k with
  | name t => exact fun c hc => Text.isBlank_of_isNameChar (hk.isNameChar c hc)
  | number t =>
    intro c hc
    rcases hk.isNumberChar c hc with hn | rfl
    · exact isBlank_of_isNumberChar hn
    · rfl
  | literal a raw => exact absurd rfl (notLiteral a raw)
  | sign s =>
    cases s with
    | opening kind => cases kind <;> decide
    | closing kind => cases kind <;> decide
    | _ => decide
  | eof => exact hk.elim

theorem isBlank_spelling {k : TokenKind} (hk : k.WellSpelled) {c : Char} {w : Text}
    (h : k.spelling = c :: w) : Text.isBlank c = false := by
  cases k with
  | literal a raw =>
    obtain ⟨rfl, -⟩ := List.cons.inj h
    obtain rfl | rfl | rfl := Text.eq_of_isQuote hk.1 <;> rfl
  | _ => exact isBlank_of_mem_spelling hk (by rintro _ _ ⟨⟩) c (by rw [h]; exact List.mem_cons_self)

theorem isSeparator_of_isBlank {c : Char} {r : Text} (hb : Text.isBlank c)
    (hf : (next c r).1.isFault = false) : isSeparator c := by
  have reads := reads_next c r
  have whole := text_next c r
  generalize (next c r).1 = l at reads whole hf
  generalize (next c r).2 = s at reads whole
  cases reads with
  | space h => exact (List.cons.inj whole).1 ▸ h
  | line => rw [← (List.cons.inj whole).1] at hb; cases hb
  | block => rw [← (List.cons.inj whole).1] at hb; cases hb
  | @token k _ hk _ =>
    obtain ⟨d, w, hw⟩ := List.exists_cons_of_ne_nil hk.spelling_ne_nil
    rw [text, hw] at whole
    rw [← (List.cons.inj whole).1, isBlank_spelling hk hw] at hb
    cases hb
  | _ => cases hf

theorem clear_of_blank_append {w t : Text} (hw : w.blank) (h : Clear (w ++ t)) :
    (∀ c ∈ w, isSeparator c) ∧ Clear t := by
  induction w with
  | nil => exact ⟨fun c hc => (by cases hc), h⟩
  | cons c w ih =>
    rw [Text.blank_cons, Bool.and_eq_true] at hw
    have first : (next c (w ++ t)).1 ∈ ofText (c :: (w ++ t)) := by
      rw [ofText_cons]
      exact List.mem_cons_self
    have hc := isSeparator_of_isBlank hw.1 (h _ first).1
    have rest := (clear_separators_append (List.forall_mem_singleton.2 hc) (w ++ t)).1 h
    obtain ⟨hw', ht⟩ := ih hw.2 rest
    exact ⟨List.forall_mem_cons.2 ⟨hc, hw'⟩, ht⟩

end WebSurface.Lexeme
