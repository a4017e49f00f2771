import WebSurface.Proofs.Pieces
set_option autoImplicit false

namespace WebSurface

open Text (bytes isBlank)

namespace Text

theorem append_eq_append_cons {u v a b : Text} {c : Char} (h : u ++ v = a ++ c :: b) :
    (∃ y, u = a ++ c :: y) ∨ ∃ x, a = u ++ x ∧ v = x ++ c :: b := by
  rcases List.append_eq_append_iff.1 h with ⟨x, rfl, hv⟩ | ⟨y, rfl, hy⟩
  · exact .inr ⟨x, rfl, hv⟩
  · cases y with
    | nil => exact .inr ⟨[], by simp, hy.symm⟩
    | cons d y =>
      obtain ⟨rfl, -⟩ := List.cons.inj hy
      exact .inl ⟨y, rfl⟩

theorem exists_at {t : Text} {n : Nat} (h : n < bytes t) :
    ∃ a c b, t = a ++ c :: b ∧ bytes a ≤ n ∧ n < bytes a + c.utf8Size := by
  induction t generalizing n with
  | nil => cases h
  | cons d t ih =>
    by_cases hn : n < d.utf8Size
    · exact ⟨[], d, t, rfl, Nat.zero_le n, by simpa using hn⟩
    · rw [bytes_cons] at h
      obtain ⟨a, c, b, rfl, first, last⟩ := ih (n := n - d.utf8Size) (by omega)
      exact ⟨d :: a, c, b, rfl, by rw [bytes_cons]; omega, by rw [bytes_cons]; omega⟩

/-- A byte is one of a single character. -/
theorem at_unique {a b u v : Text} {c d : Char} {n : Nat} (h : a ++ c :: b = u ++ d :: v)
    (hc : bytes a ≤ n ∧ n < bytes a + c.utf8Size) (hd : bytes u ≤ n ∧ n < bytes u + d.utf8Size) :
    a = u ∧ c = d := by
  rcases append_eq_append_cons h with ⟨y, rfl⟩ | ⟨x, rfl, hx⟩
  · rw [bytes_append, bytes_cons] at hc
    omega
  cases x with
  | nil => exact ⟨(List.append_nil a).symm, (List.cons.inj hx).1⟩
  | cons e x =>
    rw [bytes_append, bytes_cons, ← (List.cons.inj hx).1] at hd
    omega

variable {q : Char → Bool} (solid : ∀ c, isBlank c → q c = false)

include solid

theorem filter_blank {w : Text} (hw : w.blank) : w.filter q = [] :=
  List.filter_eq_nil_iff.2 fun c hc => by
    rw [solid c (isBlank_of_mem hw hc)]
    exact Bool.false_ne_true

theorem filter_trim (t : Text) : t.trim.filter q = t.filter q := by
  obtain ⟨v, w, hv, hw, ht⟩ := exists_trim t
  conv => rhs; rw [ht]
  rw [List.filter_append, List.filter_append, filter_blank solid hv, filter_blank solid hw,
    List.nil_append, List.append_nil]

end Text

namespace Segment

/-- The characters of the text with property `q` are those of the segments, in their order. -/
def Keeps (q : Char → Bool) (t : Text) (ss : List Segment) : Prop :=
  (ss.flatMap Segment.text).filter q = t.filter q

variable {q : Char → Bool} {n : Nat} {t u : Text} {ss us : List Segment}

theorem Keeps.append (h : Keeps q t ss) (h' : Keeps q u us) : Keeps q (t ++ u) (ss ++ us) := by
  rw [Keeps, List.flatMap_append, List.filter_append, List.filter_append, h, h']

/-- Cutting the segments once more keeps what is kept of each of them. -/
theorem Keeps.flatMap (h : Keeps q t ss) {f : Segment → List Segment}
    (hf : ∀ s, Keeps q s.text (f s)) : Keeps q t (ss.flatMap f) := by
  rw [Keeps, ← h]
  clear h
  induction ss with
  | nil => rfl
  | cons s ss ih =>
    rw [List.flatMap_cons, List.flatMap_append, List.filter_append, hf s, ih, List.flatMap_cons,
      List.filter_append]

theorem Keeps.shift (h : Keeps q t ss) (n : Nat) : Keeps q t (ss.map fun s => s.shift n) := by
  rwa [Keeps, List.flatMap_map]

theorem keeps_self (s : Segment) : Keeps q s.text [s] := by simp [Keeps]

theorem keeps_trim? (solid : ∀ c, isBlank c → q c = false) (s : Segment) :
    Keeps q s.text s.trim?.toList := by
  have trimmed : s.trim.text.filter q = s.text.filter q := Text.filter_trim solid s.text
  rw [trim?]
  split
  · rename_i h
    rw [h] at trimmed
    exact trimmed
  · simpa [Keeps] using trimmed

theorem Within.sublist (h : Within n t ss) : (ss.flatMap Segment.text).Sublist t := by
  induction h with
  | nil => exact List.nil_sublist _
  | cons gap x _ ih =>
    rw [List.flatMap_cons, List.append_assoc]
    exact ((List.Sublist.refl x).append ih).trans (List.sublist_append_right gap _)

theorem Within.exists_of_keeps (h : Within n t ss) (kept : Keeps q t ss) {a b : Text} {c : Char}
    (ht : t = a ++ c :: b) (hc : q c) :
    ∃ s ∈ ss, s.start ≤ n + bytes a ∧ n + bytes a + c.utf8Size ≤ s.stop := by
  have mem {u v : Text} : c ∈ (u ++ c :: v).filter q := List.mem_filter.2 ⟨by simp, hc⟩
  induction h generalizing a with
  | nil n t =>
    rw [Keeps, ht] at kept
    have := kept ▸ mem (u := a) (v := b)
    cases this
  | @cons n gap x rest ss h ih =>
    -- What the later segments hold is at most the rest, so that nothing is left for the gap.
    have later := h.sublist.filter q
    have size := congrArg List.length kept
    simp only [List.flatMap_cons, List.filter_append, List.length_append] at size
    have none : gap.filter q = [] := List.length_eq_zero_iff.1 (by have := later.length_le; omega)
    have same : Keeps q rest ss := later.eq_of_length (by rw [none] at size; simp at size; omega)
    rw [List.append_assoc] at ht
    rcases Text.append_eq_append_cons ht with ⟨y, rfl⟩ | ⟨d, rfl, hd⟩
    · have := none ▸ mem (u := a) (v := y)
      cases this
    · rcases Text.append_eq_append_cons hd with ⟨y, rfl⟩ | ⟨e, rfl, he⟩
      · refine ⟨_, List.mem_cons_self, ?_, ?_⟩
        · simp
        · simp [stop]; omega
      · obtain ⟨s, hs, first, last⟩ := ih same he
        refine ⟨s, List.mem_cons_of_mem _ hs, ?_, ?_⟩
        · simp; omega
        · simp; omega

end Segment

namespace Cutter

variable {σ : Type} {k : Cutter σ} {q : Char → Bool}
  (uncut : ∀ s c, (k.next s c).2 = .drop → q c = false)

include uncut

theorem keeps_pieces (t : Text) : Segment.Keeps q t (k.pieces t) := by
  rw [pieces]
  generalize k.start = s
  generalize 0 = n
  induction t generalizing s n with
  | nil => rfl
  | cons c r ih =>
    have rest := ih (k.next s c).1 (n + c.utf8Size)
    rw [Segment.Keeps] at rest ⊢
    rw [piecesFrom]
    generalize k.piecesFrom (k.next s c).1 (n + c.utf8Size) r = found at rest
    obtain ⟨p, ps⟩ := found
    cases hc : (k.next s c).2 with
    | drop => simpa [uncut s c hc] using rest
    | keep | close =>
      -- The character stands first in the text and in the pieces.
      simp only [List.flatMap_cons, List.nil_append, List.cons_append] at rest ⊢
      rw [List.filter_cons, List.filter_cons, rest]

theorem keeps_segments (solid : ∀ c, isBlank c → q c = false) (t : Text) :
    Segment.Keeps q t (k.segments t) := by
  rw [segments, List.filterMap_eq_flatMap_toList]
  exact (keeps_pieces uncut t).flatMap (Segment.keeps_trim? solid)

end Cutter

theorem keeps_splitTopLevel {q : Char → Bool} (solid : ∀ c, isBlank c → q c = false) {d : Char}
    (hd : q d = false) (t : Text) : Segment.Keeps q t (splitTopLevel d t) := by
  refine Cutter.keeps_segments (fun s c hc => ?_) solid t
  simp only [atTopLevel, Bool.and_eq_true, beq_iff_eq] at hc
  split at hc
  · rename_i h
    rw [h.2, hd]
  · cases hc

namespace Member

open Segment (Keeps)

def isSubstance (c : Char) : Bool := !isBlank c && !isSeparator c

theorem isSubstance_of_isBlank (c : Char) (h : isBlank c) : isSubstance c = false := by
  simp [isSubstance, h]

theorem keeps_chunks (run : Segment) : Keeps isSubstance run.text (chunks run) := by
  have parts := keeps_splitTopLevel isSubstance_of_isBlank (d := ';') rfl run.text
  exact parts.flatMap fun part =>
    (keeps_splitTopLevel isSubstance_of_isBlank (d := ',') rfl part.text).shift _

theorem keeps_runsFrom (n : Nat) (pending : Option Segment) (lines : List Text) :
    Keeps isSubstance (pendingText pending ++ lines.flatten) (runsFrom n pending lines) := by
  induction lines generalizing n pending with
  | nil =>
    rw [runsFrom, List.flatten_nil, List.append_nil]
    cases pending with
    | none => rfl
    | some s => exact s.keeps_self
  | cons line rest ih =>
    have fresh := ih (n + line.bytes) none
    rw [runsFrom_cons, List.flatten_cons, ← List.append_assoc]
    split
    · rename_i h
      obtain ⟨hnone, hblank⟩ := Bool.and_eq_true_iff.1 h
      obtain rfl := Option.isNone_iff_eq_none.1 hnone
      have none : line.filter isSubstance = [] := Text.filter_blank isSubstance_of_isBlank hblank
      rw [show pendingText .none ++ line = line from rfl, Keeps, List.filter_append, none]
      exact fresh
    · rw [← text_runOf n]
      split
      · exact ih _ (some (runOf n pending line))
      · exact (runOf n pending line).keeps_self.append fresh

theorem keeps_split (body : Text) : Keeps isSubstance body (split body) := by
  have runs := keeps_runsFrom 0 none body.lines
  rw [Text.flatten_lines] at runs
  exact runs.flatMap keeps_chunks

theorem isSubstance_eq_false {c : Char} (h : isSubstance c = false) :
    isBlank c ∨ c = ';' ∨ c = ',' := by
  simpa [isSubstance, isSeparator, or_iff_not_imp_left] using h

/-- The members of a body stand in it one after another, each where its span says and without white
space around it, and what no member covers is white space, a semicolon or a comma. -/
theorem split_covers (body : Text) :
    (∀ s ∈ split body, s.text ≠ [] ∧ s.text.trim = s.text ∧ s.stop ≤ bytes body ∧
      body.slice? s.span = some s.text) ∧
    ((split body).Pairwise fun x y => x.start < y.start ∧ x.stop < y.stop ∧ x.stop ≤ y.start) ∧
    ∀ n < bytes body, (∀ s ∈ split body, ¬(s.start ≤ n ∧ n < s.stop)) →
      ∃ a c b, body = a ++ c :: b ∧ bytes a ≤ n ∧ n < bytes a + c.utf8Size ∧
        (isBlank c ∨ c = ';' ∨ c = ',') := by
  have within := within_split body
  have solid {s} (hs : s ∈ split body) : s.Solid := solid_of_mem_split hs
  have size {s} (hs : s ∈ split body) : s.start < s.stop :=
    Nat.lt_add_of_pos_right
      (Nat.pos_of_ne_zero fun h => (solid hs).ne_nil ((Text.bytes_eq_zero s.text).1 h))
  refine ⟨fun s hs => ?_, ?_, fun n hn outside => ?_⟩
  · obtain ⟨a, b, whole, start⟩ := within.exists_of_mem hs
    rw [Nat.zero_add] at start
    refine ⟨(solid hs).ne_nil, Text.trim_eq_self (solid hs).head (solid hs).last, ?_, ?_⟩
    · rw [whole, Segment.stop, start, Text.bytes_append, Text.bytes_append]
      omega
    · have stop : s.span.stop = s.start + Text.bytes s.text := rfl
      exact Text.slice?_eq_some_iff.2 ⟨a, b, whole, start, by rw [stop, start]⟩
  · refine within.pairwise.1.imp_of_mem fun hx hy h => ?_
    have := size hx
    have := size hy
    omega
  · obtain ⟨a, c, b, whole, first, last⟩ := Text.exists_at hn
    refine ⟨a, c, b, whole, first, last, isSubstance_eq_false ?_⟩
    by_contra kept
    rw [Bool.not_eq_false] at kept
    obtain ⟨s, hs, start, stop⟩ := within.exists_of_keeps (keeps_split body) whole kept
    exact outside s hs ⟨by omega, by omega⟩

/-- Byte 6 is the second byte of an em space. The bracket after it stays open. -/
theorem split_covers_em_space :
    let a := "a();,".toList
    let b := "b: \x7bc".toList
    (split (a ++ '\u2003' :: b)).map Segment.span = [⟨0, 3⟩, ⟨8, 13⟩] ∧
      (bytes a ≤ 6 ∧ 6 < bytes a + '\u2003'.utf8Size) ∧
      (isBlank '\u2003' ∨ '\u2003' = ';' ∨ '\u2003' = ',') := by
  intro a b
  obtain ⟨spans, here⟩ : (split (a ++ '\u2003' :: b)).map Segment.span = [⟨0, 3⟩, ⟨8, 13⟩] ∧
      bytes a ≤ 6 ∧ 6 < bytes a + '\u2003'.utf8Size := by
    decide +kernel
  obtain ⟨u, c, v, whole, first, last, dropped⟩ :=
    (split_covers (a ++ '\u2003' :: b)).2.2 6 (by decide +kernel) (by decide +kernel)
  obtain ⟨-, rfl⟩ := Text.at_unique whole here ⟨first, last⟩
  exact ⟨spans, here, dropped⟩

end Member

end WebSurface
