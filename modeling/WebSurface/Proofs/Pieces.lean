import Mathlib.Data.List.Basic
import WebSurface.Proofs.MemberRuns
import WebSurface.Proofs.WrittenOver
set_option autoImplicit false

namespace WebSurface

namespace Segment

open Text (bytes)

inductive Within : Nat → Text → List Segment → Prop
  | nil (n : Nat) (t : Text) : Within n t []
  | cons {n : Nat} (gap x : Text) {rest : Text} {ss : List Segment} :
      Within (n + bytes gap + bytes x) rest ss →
      Within n (gap ++ x ++ rest) (⟨n + bytes gap, x⟩ :: ss)

variable {n : Nat} {t u : Text} {ss us : List Segment}

theorem shift_shift (s : Segment) (m n : Nat) : (s.shift m).shift n = s.shift (m + n) := by
  simp [shift, Nat.add_assoc]

theorem within_self (s : Segment) : Within s.start s.text [s] := by
  have h := Within.cons (n := s.start) [] s.text (.nil _ [])
  simpa using h

theorem Within.skip (a : Text) (h : Within (n + bytes a) t ss) : Within n (a ++ t) ss := by
  cases h with
  | nil => exact .nil n _
  | cons gap x h =>
    have h' := Within.cons (n := n) (a ++ gap) x (by rwa [Text.bytes_append, ← Nat.add_assoc])
    simpa [Nat.add_assoc] using h'

theorem Within.append (h : Within n t ss) (h' : Within (n + bytes t) u us) :
    Within n (t ++ u) (ss ++ us) := by
  induction h with
  | nil n t => exact h'.skip t
  | cons gap x _ ih =>
    have rest := ih (by simpa [Nat.add_assoc] using h')
    simpa using Within.cons gap x rest

theorem Within.flatMap {f : Segment → List Segment} (h : Within n t ss)
    (hf : ∀ s ∈ ss, Within s.start s.text (f s)) : Within n t (ss.flatMap f) := by
  induction h with
  | nil n t => exact .nil n t
  | cons gap x _ ih =>
    have first := hf _ List.mem_cons_self
    have rest := ih fun s hs => hf s (List.mem_cons_of_mem _ hs)
    rw [List.append_assoc, List.flatMap_cons]
    exact (first.append rest).skip gap

theorem Within.shift (h : Within n t ss) (m : Nat) :
    Within (n + m) t (ss.map fun s => s.shift m) := by
  induction h with
  | nil n t => exact .nil _ t
  | @cons n gap x _ _ _ ih =>
    have start : n + bytes gap + m = n + m + bytes gap := by omega
    rw [show n + bytes gap + bytes x + m = n + m + bytes gap + bytes x by omega] at ih
    have h' := Within.cons gap x ih
    rwa [← start] at h'

theorem Within.pairwise (h : Within n t ss) :
    (ss.Pairwise fun x y => x.stop ≤ y.start) ∧ ∀ s ∈ ss, n ≤ s.start := by
  induction h with
  | nil => exact ⟨.nil, by simp⟩
  | cons gap x _ ih =>
    obtain ⟨pairwise, after⟩ := ih
    refine ⟨List.pairwise_cons.2 ⟨after, pairwise⟩, ?_⟩
    rintro s (_ | ⟨_, hs⟩)
    · exact Nat.le_add_right _ _
    · have := after s hs
      omega

theorem Within.exists_of_mem (h : Within n t ss) {s : Segment} (hs : s ∈ ss) :
    ∃ a b, t = a ++ s.text ++ b ∧ s.start = n + bytes a := by
  induction h with
  | nil => cases hs
  | cons gap x _ ih =>
    rcases List.mem_cons.1 hs with rfl | hs
    · exact ⟨gap, _, rfl, rfl⟩
    · obtain ⟨a, b, rfl, ha⟩ := ih hs
      exact ⟨gap ++ x ++ a, b, by simp, by rw [ha]; simp [Nat.add_assoc]⟩

structure Solid (s : Segment) : Prop where
  ne_nil : s.text ≠ []
  head : ∀ c, s.text.head? = some c → Text.isBlank c = false
  last : ∀ c, s.text.getLast? = some c → Text.isBlank c = false

theorem within_trim? (s : Segment) : Within s.start s.text s.trim?.toList := by
  unfold trim?
  split
  · exact .nil _ _
  · obtain ⟨v, hv, hs⟩ := Text.exists_trimStart s.text
    obtain ⟨w, hw, ht⟩ := Text.exists_trimEnd (Text.trimStart s.text)
    have whole : v ++ s.text.trim ++ w = s.text := by
      rw [Text.trim, List.append_assoc, ← ht, ← hs]
    have size := congrArg bytes hs
    rw [Text.bytes_append] at size
    have start : s.trim = ⟨s.start + bytes v, s.text.trim⟩ := by
      rw [trim, size, Nat.add_sub_cancel]
    have h := Within.cons (n := s.start) v s.text.trim (.nil _ w)
    rw [whole] at h
    rw [start]
    exact h

theorem solid_of_trim? {s s' : Segment} (h : s.trim? = some s') : s'.Solid := by
  unfold trim? at h
  split at h
  · cases h
  · rename_i hne
    rw [← Option.some.inj h]
    exact ⟨hne, Text.isBlank_ends_trim.1, Text.isBlank_ends_trim.2⟩

end Segment

open Segment (Within Solid)

namespace Cutter

variable {σ : Type} (k : Cutter σ)

theorem within_piecesFrom (s : σ) (n : Nat) (t : Text) : ∃ r,
    t = (k.piecesFrom s n t).1.text ++ r ∧ (k.piecesFrom s n t).1.start = n ∧
      Within (n + Text.bytes (k.piecesFrom s n t).1.text) r (k.piecesFrom s n t).2 := by
  induction t generalizing s n with
  | nil => exact ⟨[], rfl, rfl, .nil _ _⟩
  | cons c t ih =>
    obtain ⟨r, ht, start, rest⟩ := ih (k.next s c).1 (n + c.utf8Size)
    rw [piecesFrom]
    generalize k.piecesFrom (k.next s c).1 (n + c.utf8Size) t = pieces at ht start rest
    obtain ⟨p, ps⟩ := pieces
    have both : Within (n + c.utf8Size) t (p :: ps) := by
      have h := Within.cons (n := n + c.utf8Size) [] p.text rest
      obtain ⟨start', text⟩ := p
      obtain rfl : start' = n + c.utf8Size := start
      rw [ht]
      exact h
    cases (k.next s c).2 with
    | keep =>
      refine ⟨r, by rw [ht]; rfl, rfl, ?_⟩
      simpa [Nat.add_assoc] using rest
    | drop => exact ⟨c :: t, rfl, rfl, both.skip [c]⟩
    | close => exact ⟨t, rfl, rfl, both⟩

theorem within_pieces (t : Text) : Within 0 t (k.pieces t) := by
  obtain ⟨r, ht, start, rest⟩ := k.within_piecesFrom k.start 0 t
  rw [pieces]
  generalize k.piecesFrom k.start 0 t = pieces at ht start rest
  obtain ⟨⟨n, x⟩, ps⟩ := pieces
  obtain rfl : n = 0 := start
  have h := Within.cons [] x rest
  rw [ht]
  exact h

theorem within_segments (t : Text) : Within 0 t (k.segments t) := by
  rw [segments, List.filterMap_eq_flatMap_toList]
  exact (k.within_pieces t).flatMap fun s _ => s.within_trim?

theorem solid_of_mem_segments {t : Text} {s : Segment} (h : s ∈ k.segments t) : s.Solid := by
  obtain ⟨p, -, hp⟩ := List.mem_filterMap.1 h
  exact Segment.solid_of_trim? hp

end Cutter

theorem within_splitTopLevel (d : Char) (t : Text) : Within 0 t (splitTopLevel d t) :=
  (atTopLevel d).within_segments t

theorem solid_of_mem_splitTopLevel {d : Char} {t : Text} {s : Segment}
    (h : s ∈ splitTopLevel d t) : s.Solid :=
  (atTopLevel d).solid_of_mem_segments h

namespace Member

theorem within_chunks (run : Segment) : Within run.start run.text (chunks run) := by
  let cut (part : Segment) : List Segment :=
    (splitTopLevel ',' part.text).map fun s => s.shift part.start
  have parts : Within 0 run.text ((splitTopLevel ';' run.text).flatMap cut) := by
    refine (within_splitTopLevel ';' run.text).flatMap fun part _ => ?_
    have h := (within_splitTopLevel ',' part.text).shift part.start
    rwa [Nat.zero_add] at h
  have moved : chunks run =
      ((splitTopLevel ';' run.text).flatMap cut).map fun s => s.shift run.start := by
    simp only [chunks, cut, List.map_flatMap, List.map_map, Function.comp_def,
      Segment.shift_shift, Nat.add_comm]
  have h := parts.shift run.start
  rw [Nat.zero_add] at h
  rwa [moved]

theorem solid_of_mem_chunks {run s : Segment} (h : s ∈ chunks run) : s.Solid := by
  obtain ⟨part, -, h⟩ := List.mem_flatMap.1 h
  obtain ⟨piece, hp, rfl⟩ := List.mem_map.1 h
  have solid := solid_of_mem_splitTopLevel hp
  exact ⟨solid.ne_nil, solid.head, solid.last⟩

theorem within_runsFrom (n : Nat) (pending : Option Segment) (lines : List Text)
    (hp : ∀ s ∈ pending, s.stop = n) :
    Within ((pending.map Segment.start).getD n) (pendingText pending ++ lines.flatten)
      (runsFrom n pending lines) := by
  induction lines generalizing n pending with
  | nil =>
    rw [runsFrom]
    cases pending with
    | none => exact .nil _ _
    | some s => simpa [pendingText] using s.within_self
  | cons line rest ih =>
    -- The line is skipped, or it joins the run, which goes on or ends with it.
    have fresh := ih (n + line.bytes) none (by simp)
    have run : ∀ s ∈ some (runOf n pending line), s.stop = n + line.bytes := by
      rintro s ⟨⟩
      cases pending with
      | none => rfl
      | some s =>
        have := hp s rfl
        simp only [Segment.stop, runOf, Text.bytes_append] at this ⊢
        omega
    have start : (pending.map Segment.start).getD n = (runOf n pending line).start := by
      cases pending <;> rfl
    have text : pendingText pending ++ (line :: rest).flatten =
        (runOf n pending line).text ++ rest.flatten := by
      rw [text_runOf, List.flatten_cons, List.append_assoc]
    rw [runsFrom_cons]
    split
    · rename_i h
      obtain rfl : pending = none := Option.isNone_iff_eq_none.1 (Bool.and_eq_true_iff.1 h).1
      exact fresh.skip line
    · rw [start, text]
      split
      · exact ih _ _ run
      · have stop := run _ rfl
        rw [Segment.stop] at stop
        rw [← stop] at fresh ⊢
        exact Within.cons [] (runOf n pending line).text fresh

theorem within_split (body : Text) : Within 0 body (split body) := by
  have runs := within_runsFrom 0 none body.lines (by simp)
  rw [Text.flatten_lines] at runs
  exact runs.flatMap fun run _ => within_chunks run

theorem solid_of_mem_split {body : Text} {s : Segment} (h : s ∈ split body) : s.Solid := by
  obtain ⟨run, -, h⟩ := List.mem_flatMap.1 h
  exact solid_of_mem_chunks h

end Member

namespace Text

theorem isSome_slice? {t a b x y : Text} (h : t = a ++ b) (h' : t = x ++ y)
    (hle : bytes a ≤ bytes x) : (t.slice? ⟨bytes a, bytes x⟩).isSome := by
  rw [h] at h'
  rcases List.append_eq_append_iff.1 h' with ⟨m, rfl, rfl⟩ | ⟨m, rfl, rfl⟩
  · rw [Option.isSome_iff_exists]
    exact ⟨m, slice?_eq_some_iff.2 ⟨a, y, by simp [h], rfl, by simp⟩⟩
  · obtain rfl : m = [] := by
      rw [bytes_append] at hle
      exact (bytes_eq_zero m).1 (by omega)
    rw [Option.isSome_iff_exists]
    exact ⟨[], slice?_eq_some_iff.2 ⟨x, b, by simp [h], by simp, by simp⟩⟩

/-- The characters of `u` that are no white space stand at the same places in `t`. -/
def Shows (t u : Text) : Prop :=
  ∀ a b c, isBlank c = false → u = a ++ c :: b → ∃ x y, t = x ++ c :: y ∧ bytes x = bytes a

theorem shows_nil (t : Text) : t.Shows [] := by
  intro a b c _ h
  simp at h

theorem Shows.cons {t u : Text} (h : t.Shows u) (d : Char) : Shows (d :: t) (d :: u) := by
  intro a b c hc hu
  cases a with
  | nil =>
    obtain ⟨rfl, -⟩ := List.cons.inj hu
    exact ⟨[], t, rfl, rfl⟩
  | cons e a =>
    obtain ⟨rfl, tail⟩ := List.cons.inj hu
    obtain ⟨x, y, rfl, hx⟩ := h a b c hc tail
    exact ⟨d :: x, y, rfl, by simp [hx]⟩

theorem Shows.cover {t u v w : Text} (h : t.Shows u) (hw : blank w) (size : bytes v = bytes w) :
    Shows (v ++ t) (w ++ u) := by
  intro a b c hc hu
  rcases List.append_eq_append_iff.1 hu with ⟨m, rfl, hm⟩ | ⟨m, rfl, hm⟩
  · obtain ⟨x, y, rfl, hx⟩ := h m b c hc hm
    exact ⟨v ++ x, y, by simp, by simp [size, hx]⟩
  · cases m with
    | nil =>
      obtain ⟨x, y, rfl, hx⟩ := h [] b c hc hm.symm
      exact ⟨v ++ x, y, by simp, by simpa [hx] using size⟩
    | cons d m =>
      obtain ⟨rfl, -⟩ := List.cons.inj hm
      rw [isBlank_of_mem hw (by simp)] at hc
      cases hc

end Text

theorem Text.WrittenOver.shows {t u : Text} (h : t.WrittenOver u) : t.Shows u := by
  induction h with
  | nil => exact shows_nil []
  | keep c _ ih => exact ih.cons c
  | cover c _ ih => exact ih.cover (v := [c]) (CommentMode.blank_cover c) (by simp)

theorem CommentMode.shows_blank (m : CommentMode) (t : Text) : t.Shows (blank m t) :=
  (writtenOver_blank m t).shows

theorem Segment.Solid.isSome_slice? {s : Segment} (hs : s.Solid) {raw a b : Text}
    (h : raw.blankComments = a ++ s.text ++ b) :
    (raw.slice? ⟨Text.bytes a, Text.bytes a + Text.bytes s.text⟩).isSome := by
  have shows : raw.Shows raw.blankComments := CommentMode.shows_blank .code raw
  obtain ⟨c, r, hc⟩ := List.exists_cons_of_ne_nil hs.ne_nil
  obtain ⟨l, d, hd⟩ := (List.eq_nil_or_concat s.text).resolve_left hs.ne_nil
  rw [List.concat_eq_append] at hd
  have first : raw.blankComments = a ++ c :: (r ++ b) := by rw [h, hc]; simp
  have last : raw.blankComments = (a ++ l) ++ d :: b := by rw [h, hd]; simp
  obtain ⟨x, y, hx, start⟩ := shows _ _ c (hs.head c (by rw [hc]; rfl)) first
  obtain ⟨v, w, hv, stop⟩ := shows _ _ d (hs.last d (by rw [hd]; simp)) last
  have cut : raw = (v ++ [d]) ++ w := by rw [hv]; simp
  have size : Text.bytes (v ++ [d]) = Text.bytes a + Text.bytes s.text := by
    rw [Text.bytes_append, stop, hd]
    simp [Nat.add_assoc]
  have slice := Text.isSome_slice? hx cut (by rw [start, size]; exact Nat.le_add_right _ _)
  rwa [start, size] at slice

end WebSurface
