import WebSurface.Proofs.CommentCover
import WebSurface.Proofs.Lexemes
set_option autoImplicit false

namespace WebSurface

namespace Token

open Lexeme
open Text (bytes)

def gaps (n : Nat) : List Token → List Span
  | [] => []
  | k :: ks => ⟨n, k.span.start⟩ :: gaps k.span.stop ks

/-- The tokens say all of the text that is not skipped. -/
structure Lossless (t : Text) (tokens : List Token) : Prop where
  last : tokens.getLast? = some (endAt (bytes t))
  only : ∀ k ∈ tokens.dropLast, k.kind ≠ .eof ∧ k.kind.WellSpelled
  nonempty : ∀ k ∈ tokens.dropLast, k.span.start < k.span.stop
  ordered : tokens.Pairwise fun k l => k.span.stop ≤ l.span.start
  slice : ∀ k ∈ tokens, t.slice? k.span = some k.kind.spelling
  skipped : ∀ s ∈ gaps 0 tokens, ∃ a g r, t = a ++ g ++ r ∧ s = ⟨bytes a, bytes a + bytes g⟩ ∧
    Skips isSeparator g r

/-- The faults are the places at which no token of the text could be read. -/
structure Reported (t : Text) (faults : List Fault) : Prop where
  some : faults ≠ []
  ordered : faults.Pairwise fun f g => f.span.stop ≤ g.span.start
  nonempty : ∀ f ∈ faults, f.span.start < f.span.stop
  slice : ∀ f ∈ faults, ∃ m, t.slice? f.span = .some m ∧ f.cause.Covers m
  place : ∀ f ∈ faults, f.place = .ofOffset t f.span.start
  unexpected : ∀ f ∈ faults.dropLast, ∃ c, f.cause = .unexpected c
  toEnd : ∀ f ∈ faults, (∃ c, f.cause = .unexpected c) ∨ f.span.stop = bytes t

theorem exists_of_mem_among {n : Nat} {ls : List Lexeme} {k : Token} (h : k ∈ among n ls) :
    (k.span, .token k.kind) ∈ Lexeme.place n ls := by
  obtain ⟨⟨s, l⟩, hl, hk⟩ := List.mem_filterMap.1 h
  cases l with
  | token kind => exact Option.some.inj hk ▸ hl
  | _ => cases hk

theorem among_append (n : Nat) (ls ms : List Lexeme) :
    among n (ls ++ ms) = among n ls ++ among (n + bytes (ls.flatMap text)) ms := by
  induction ls generalizing n with
  | nil => rfl
  | cons l ls ih =>
    have rest := ih (n + bytes l.text)
    rw [List.flatMap_cons, Text.bytes_append, ← Nat.add_assoc]
    cases l with
    | token k => exact congrArg _ rest
    | _ => exact rest

theorem start_of_mem_among {n : Nat} {ls : List Lexeme} {k : Token} (h : k ∈ among n ls) :
    n ≤ k.span.start ∧ k.span.start ≤ n + bytes (ls.flatMap text) := by
  obtain ⟨before, after, rfl, start, -⟩ := mem_place (exists_of_mem_among h)
  rw [start, List.flatMap_append, Text.bytes_append]
  omega

theorem dropWhile_append_of_start {n : Nat} {ks ls : List Token}
    (inside : ∀ k ∈ ks, k.span.start ≤ n) (beyond : ∀ k ∈ ls, n < k.span.start) :
    (ks ++ ls).dropWhile (·.span.start ≤ n) = ls := by
  rw [List.dropWhile_append_of_pos fun k hk => decide_eq_true (inside k hk)]
  cases ls with
  | nil => rfl
  | cons k ls =>
    refine List.dropWhile_cons_of_neg ?_
    simpa using beyond k List.mem_cons_self

theorem pairwise_among (n : Nat) (ls : List Lexeme) :
    (among n ls).Pairwise fun k l => k.span.stop ≤ l.span.start := by
  refine (pairwise_place n ls).filterMap _ fun x y hxy k hk l hl => ?_
  obtain ⟨s, m⟩ := x
  obtain ⟨s', m'⟩ := y
  cases m <;> cases hk
  cases m' <;> cases hl
  exact hxy

theorem wellSpelled_of_mem_among {n : Nat} {t : Text} {k : Token} (h : k ∈ among n (ofText t)) :
    k.kind.WellSpelled := by
  obtain ⟨before, after, hls, -⟩ := mem_place (exists_of_mem_among h)
  cases reads_of_ofText hls with
  | token hk _ => exact hk

/-- Every gap between tokens is skipped. What has been skipped before the text is `g`. -/
theorem skips_gaps {a g t : Text} (hg : Skips isSeparator g t)
    (hf : ∀ l ∈ ofText t, l.isFault = false) :
    ∀ s ∈ gaps (bytes a) (among (bytes a + bytes g) (ofText t) ++ [endAt (bytes (a ++ g ++ t))]),
      ∃ b h r, a ++ g ++ t = b ++ h ++ r ∧ s = ⟨bytes b, bytes b + bytes h⟩ ∧
        Skips isSeparator h r := by
  -- White space and comments are added to the gap that is open; a token ends it.
  fun_induction ofText t generalizing a g with
  | case1 =>
    intro s hs
    simp only [among_nil, List.nil_append, gaps, List.mem_singleton, List.append_nil,
      Text.bytes_append] at hs
    exact ⟨a, g, [], rfl, hs, hg⟩
  | case2 c r ih =>
    have split := text_next c r
    have reads := reads_next c r
    obtain ⟨hfault, hf⟩ := List.forall_mem_cons.1 hf
    cases hl : (next c r).1 with
    | blank b =>
      rw [hl] at split reads
      rw [← split] at hg ⊢
      have := ih (a := a) (hg.append (skips_of_reads reads)) hf
      simpa [text, Nat.add_assoc] using this
    | token k =>
      rw [hl] at split
      rw [← split] at hg ⊢
      have := ih (a := a ++ g ++ k.spelling) .nil hf
      intro s hs
      rw [among_token, List.cons_append, gaps] at hs
      rcases List.mem_cons.1 hs with rfl | hs
      · exact ⟨a, g, _, rfl, rfl, hg⟩
      · obtain ⟨b, h, u, hu, hs, hh⟩ := this s (by simpa [text, Nat.add_assoc] using hs)
        exact ⟨b, h, u, by simpa [text] using hu, hs, hh⟩
    | fault cause b =>
      rw [hl] at hfault
      cases hfault

theorem lossless_of_ok {t : Text} (hf : ∀ l ∈ ofText t, l.isFault = false) :
    Lossless t (among 0 (ofText t) ++ [endAt (bytes t)]) := by
  have stop_le : ∀ k ∈ among 0 (ofText t), k.span.stop ≤ bytes t := by
    intro k hk
    obtain ⟨a, b, hab, -, hstop⟩ :=
      Text.slice?_eq_some_iff.1 (slice?_of_mem_place (exists_of_mem_among hk))
    rw [hstop, hab, Text.bytes_append, Text.bytes_append]
    exact Nat.le_add_right _ _
  refine ⟨by simp, ?_, ?_, ?_, ?_, ?_⟩
  · intro k hk
    rw [List.dropLast_concat] at hk
    have spelled := wellSpelled_of_mem_among hk
    refine ⟨fun he => ?_, spelled⟩
    rw [he] at spelled
    exact spelled
  · intro k hk
    rw [List.dropLast_concat] at hk
    obtain ⟨-, -, -, -, hstop⟩ := mem_place (exists_of_mem_among hk)
    have := Text.bytes_pos (wellSpelled_of_mem_among hk).spelling_ne_nil
    rw [hstop]
    exact Nat.lt_add_of_pos_right this
  · refine List.pairwise_append.2 ⟨pairwise_among 0 _, List.pairwise_singleton _ _, ?_⟩
    intro k hk l hl
    rw [List.mem_singleton.1 hl]
    exact stop_le k hk
  · intro k hk
    rcases List.mem_append.1 hk with hk | hk
    · exact slice?_of_mem_place (exists_of_mem_among hk)
    · rw [List.mem_singleton.1 hk]
      exact Text.slice?_eq_some_iff.2 ⟨t, [], by simp [endAt, TokenKind.spelling], rfl, rfl⟩
  · exact skips_gaps (a := []) (g := []) .nil hf

section Faults

variable {t : Text} {f : Fault} (h : f ∈ faultsOf t)

include h

theorem placed_of_mem_faultsOf : ∃ m, (f.span, .fault f.cause m) ∈ Lexeme.place 0 (ofText t) ∧
    f.place = .ofOffset t f.span.start := by
  obtain ⟨⟨s, l⟩, hl, hk⟩ := List.mem_filterMap.1 h
  cases l with
  | fault cause m => exact ⟨m, Option.some.inj hk ▸ hl, Option.some.inj hk ▸ rfl⟩
  | _ => cases hk

theorem slice_of_mem_faultsOf : ∃ m, t.slice? f.span = some m ∧ f.cause.Covers m := by
  obtain ⟨m, hm, -⟩ := placed_of_mem_faultsOf h
  obtain ⟨before, after, hls, -⟩ := mem_place hm
  exact ⟨m, slice?_of_mem_place hm, covers_of_reads (reads_of_ofText hls)⟩

theorem start_lt_of_mem_faultsOf : f.span.start < f.span.stop ∧ f.span.stop ≤ bytes t := by
  obtain ⟨m, hm, hcovers⟩ := slice_of_mem_faultsOf h
  obtain ⟨a, b, rfl, hstart, hstop⟩ := Text.slice?_eq_some_iff.1 hm
  have := Text.bytes_pos hcovers.ne_nil
  simp only [Text.bytes_append]
  omega

theorem stop_of_mem_faultsOf : (∃ c, f.cause = .unexpected c) ∨ f.span.stop = bytes t := by
  obtain ⟨m, hm, -⟩ := placed_of_mem_faultsOf h
  obtain ⟨before, after, hls, hstart, hstop⟩ := mem_place hm
  refine (unexpected_or_nil_of_reads (reads_of_ofText hls)).imp_right fun hafter => ?_
  rw [hstop, hstart, Nat.zero_add, ← flatMap_text_ofText t, hls, List.flatMap_append,
    List.flatMap_cons, hafter, List.append_nil, Text.bytes_append]

end Faults

theorem pairwise_faultsOf (t : Text) :
    (faultsOf t).Pairwise fun f g => f.span.stop ≤ g.span.start := by
  refine (pairwise_place 0 _).filterMap _ fun x y hxy f hx g hy => ?_
  obtain ⟨s, m⟩ := x
  obtain ⟨s', m'⟩ := y
  cases m <;> cases hx
  cases m' <;> cases hy
  exact hxy

theorem reported_of_error {t : Text} (hf : ¬∀ l ∈ ofText t, l.isFault = false) :
    Reported t (faultsOf t) := by
  have some : faultsOf t ≠ [] := mt faultsOf_eq_nil_iff.1 hf
  refine ⟨some, pairwise_faultsOf t, fun f h => (start_lt_of_mem_faultsOf h).1,
    fun f h => slice_of_mem_faultsOf h, fun f h => ?_, fun f h => ?_,
    fun f h => stop_of_mem_faultsOf h⟩
  · obtain ⟨-, -, hplace⟩ := placed_of_mem_faultsOf h
    exact hplace
  · -- A fault that goes on to the end of the text leaves no room for the last one.
    refine (stop_of_mem_faultsOf (List.dropLast_subset _ h)).resolve_right fun hstop => ?_
    have ordered := pairwise_faultsOf t
    rw [← List.dropLast_concat_getLast some] at ordered
    have before := (List.pairwise_append.1 ordered).2.2 f h _ List.mem_cons_self
    have last := start_lt_of_mem_faultsOf (List.getLast_mem some)
    omega

/-- The tokens of a text say all of it that is neither white space nor a comment, and a text without
tokens has faults that tell where and why. -/
theorem tokenize_lossless (t : Text) :
    match tokenize t with
    | .ok tokens => Lossless t tokens
    | .error faults => Reported t faults := by
  by_cases hf : ∀ l ∈ ofText t, l.isFault = false
  · rw [tokenize_eq_ok hf]
    exact lossless_of_ok hf
  · rw [tokenize_eq_error hf]
    exact reported_of_error hf

end Token

namespace Lexeme

theorem apart_newline (u : Text) : Apart ('\n' :: u) := by
  rintro c ⟨⟩
  decide

theorem ofText_append_newline {a : Text} (hf : ∀ l ∈ ofText a, l.isFault = false) (b : Text) :
    ofText (a ++ '\n' :: b) = ofText a ++ .blank ['\n'] :: ofText b := by
  fun_induction ofText a with
  | case1 => exact ofText_separators (w := ['\n']) (by decide) b
  | case2 c r ih =>
    obtain ⟨hl, hf⟩ := List.forall_mem_cons.1 hf
    have reads := reads_append (reads_next c r) hl (fun _ _ => by simp)
      ((apart_newline b).apartFrom _)
    calc ofText (c :: r ++ '\n' :: b)
        = ofText ((next c r).1.text ++ ((next c r).2 ++ '\n' :: b)) := by
          rw [← List.append_assoc, text_next]
      _ = (next c r).1 :: ofText ((next c r).2 ++ '\n' :: b) := ofText_of_reads reads hl
      _ = _ := by rw [ih hf, List.cons_append]

end Lexeme

namespace Token

open Lexeme
open Text (bytes)

/-- The token as it stands in a text in which the text it was read from starts at byte `n`. -/
def shift (n : Nat) (k : Token) : Token := { k with span := k.span.shift n }

theorem among_add (m n : Nat) (ls : List Lexeme) :
    among (m + n) ls = (among m ls).map (shift n) := by
  induction ls generalizing m with
  | nil => rfl
  | cons l ls ih =>
    have rest := ih (m + bytes l.text)
    rw [Nat.add_right_comm] at rest
    cases l with
    | token k =>
      simp only [text] at rest
      simp [rest, shift, Span.shift, Nat.add_right_comm]
    | _ => exact rest

/-- Two texts that can be read can be read with a line feed between them, and the tokens are those
of the first text and then those of the second, which stand behind the line feed. -/
theorem tokenize_newline {a b : Text} {ks ls : List Token} (ha : tokenize a = .ok ks)
    (hb : tokenize b = .ok ls) :
    tokenize (a ++ '\n' :: b) = .ok (ks.dropLast ++ ls.map (shift (bytes a + 1))) := by
  have faultless := exists_tokenize_iff.1 ⟨ks, ha⟩
  have faultless' := exists_tokenize_iff.1 ⟨ls, hb⟩
  have whole := ofText_append_newline faultless b
  rw [tokenize_eq_ok faultless] at ha
  rw [tokenize_eq_ok faultless'] at hb
  obtain rfl := Except.ok.inj ha
  obtain rfl := Except.ok.inj hb
  have faultlessAll : ∀ l ∈ ofText (a ++ '\n' :: b), l.isFault = false := by
    rw [whole]
    exact List.forall_mem_append.2 ⟨faultless, List.forall_mem_cons.2 ⟨rfl, faultless'⟩⟩
  have start : 0 + bytes a + bytes ['\n'] = 0 + (bytes a + 1) := by
    simp [show Char.utf8Size '\n' = 1 from rfl]
  have stop : endAt (bytes (a ++ '\n' :: b)) = (endAt (bytes b)).shift (bytes a + 1) := by
    simp [endAt, shift, Span.shift, show Char.utf8Size '\n' = 1 from rfl]
    omega
  rw [tokenize_eq_ok faultlessAll, whole, among_append, flatMap_text_ofText, among_blank, start,
    among_add, List.dropLast_concat, List.map_append, List.append_assoc, stop]
  rfl

/-- An equals sign, dots and a comment at the line feed, and characters of more than one byte. -/
theorem tokenize_newline_marks :
    let ks : List Token := [⟨.name ['é'], ⟨0, 2⟩⟩, ⟨.sign .dot, ⟨3, 4⟩⟩, ⟨.sign .equals, ⟨4, 5⟩⟩,
      endAt 9]
    let ls : List Token := [⟨.sign (.closing .angle), ⟨0, 1⟩⟩, ⟨.sign .dot, ⟨1, 2⟩⟩,
      ⟨.sign .dot, ⟨2, 3⟩⟩, ⟨.number ['1', 'a'], ⟨3, 5⟩⟩, endAt 5]
    tokenize "é .=//é".toList = .ok ks ∧ tokenize ">..1a".toList = .ok ls ∧
      tokenize "é .=//é\n>..1a".toList = .ok [⟨.name ['é'], ⟨0, 2⟩⟩, ⟨.sign .dot, ⟨3, 4⟩⟩,
        ⟨.sign .equals, ⟨4, 5⟩⟩, ⟨.sign (.closing .angle), ⟨10, 11⟩⟩, ⟨.sign .dot, ⟨11, 12⟩⟩,
        ⟨.sign .dot, ⟨12, 13⟩⟩, ⟨.number ['1', 'a'], ⟨13, 15⟩⟩, endAt 15] := by
  intro ks ls
  have first : tokenize "é .=//é".toList = .ok ks :=
    (tokenize_eq_ok (by decide +kernel)).trans (congrArg Except.ok (by decide +kernel))
  have second : tokenize ">..1a".toList = .ok ls :=
    (tokenize_eq_ok (by decide +kernel)).trans (congrArg Except.ok (by decide +kernel))
  exact ⟨first, second, tokenize_newline first second⟩

end Token

end WebSurface
