import WebSurface.Declaration.Interface
import WebSurface.Proofs.MemberRuns
set_option autoImplicit false

/-!
Layouts of interface bodies.

Members may be laid out in a body with any white space and any separators between them. A body has
exactly the members that were laid out in it (`Member.pieces_laidOut`), and an interface says the
same in all layouts of its body (`Interface.read_laidOut`).
-/

namespace WebSurface

namespace Nesting

def closes (s : Nesting) (c : Char) : Bool :=
  match s.mode with
  | .code afterEquals => isCloser c && !(c == '>' && afterEquals)
  | .literal _ _ => false

/-- Each bracket that is closed is one that was opened before. -/
def opened (s : Nesting) : Text → Bool
  | [] => true
  | c :: r => (!s.closes c || decide (0 < s.depth)) && opened (s.step c) r

end Nesting

namespace Member

/-- The text is one member when it stands alone, and does not depend on what stands around it. -/
structure Alone (m : Text) : Prop where
  no_line_comment : ¬"//".toList <:+: m
  no_block_comment : ¬"/*".toList <:+: m
  opened : Nesting.outside.opened m
  closed : (Nesting.outside.run m).topLevel
  whole : (split m).map Segment.text = [m]
  start : startsWithMark m = false
  stop : endsWithMark m = false

def IsGap (g : Text) : Prop := ∀ c ∈ g, Text.isBlank c ∨ isSeparator c

/-- A gap that keeps the members on both sides of it apart. -/
def Separates (g : Text) : Prop := IsGap g ∧ ∃ c ∈ g, c = '\n' ∨ isSeparator c

instance (g : Text) : Decidable (IsGap g) :=
  List.decidableBAll (fun c => Text.isBlank c ∨ isSeparator c) g

instance (g : Text) : Decidable (Separates g) :=
  haveI := List.decidableBEx (fun c => c = '\n' ∨ isSeparator c) g
  inferInstanceAs (Decidable (IsGap g ∧ _))

/-- The members are laid out in the body, each two of them apart. -/
inductive LaidOut : List Text → Text → Prop
  | empty {g : Text} : IsGap g → LaidOut [] g
  | last {g m h : Text} : IsGap g → IsGap h → LaidOut [m] (g ++ (m ++ h))
  | cons {g m h body : Text} {ms : List Text} : IsGap g → Separates h → LaidOut ms body →
      LaidOut (m :: ms) (g ++ (m ++ (h ++ body)))

theorem IsGap.tail {c : Char} {g : Text} (h : IsGap (c :: g)) : IsGap g :=
  fun d hd => h d (List.mem_cons_of_mem c hd)

theorem IsGap.head?_ne {g : Text} (h : IsGap g) : g.head? ≠ some '>' := by
  intro hc
  have := h '>' (List.mem_of_head? hc)
  revert this
  decide

theorem Separates.head?_ne {g : Text} (h : Separates g) (r : Text) : (g ++ r).head? ≠ some '>' := by
  obtain ⟨hg, c, hc, -⟩ := h
  cases g with
  | nil => cases hc
  | cons d g => exact hg.head?_ne

theorem goesOn_gap {g r : Text} (hg : IsGap g) (hr : goesOn r = false) :
    goesOn (g ++ r) = false := by
  induction g with
  | nil => exact hr
  | cons c g ih =>
    rw [List.cons_append]
    rcases hg c List.mem_cons_self with hc | hc
    · by_cases hn : c = '\n'
      · rw [hn, goesOn_newline]
      · rw [goesOn_blank hc hn, ih hg.tail]
    · rw [goesOn_solid (isBlank_of_isSeparator c hc), startsWithMark_cons]
      simp only [isSeparator, Bool.or_eq_true, beq_iff_eq] at hc
      rcases hc with rfl | rfl <;> rfl

theorem pieces_gap {g : Text} (hg : IsGap g) (r : Text) : pieces [] (g ++ r) = pieces [] r := by
  induction g with
  | nil => rfl
  | cons c g ih =>
    rw [List.cons_append]
    rcases hg c List.mem_cons_self with hc | hc
    · by_cases hn : c = '\n'
      · subst hn
        rw [pieces_newline]
        exact ih hg.tail
      · have hw : Text.blank [c] := by simp [hc]
        have := pieces_blank hw [] (g ++ r)
        rw [pieces_cons hn, List.nil_append, ← ih hg.tail]
        simpa using this
    · have hn := ne_newline_of_solid (isBlank_of_isSeparator c hc)
      have := pieces_separator (y := []) rfl hc [] (g ++ r)
      rw [pieces_cons hn, ← ih hg.tail]
      simpa [parts_blank Text.blank_nil] using this

/-- What has been read is a whole number of members. -/
structure Settled (read : Text) : Prop where
  closed : (Nesting.outside.run read).topLevel
  stop : endsWithMark read.trimEnd = false

theorem Settled.isUnfinished {read : Text} (h : Settled read) : isUnfinished read = false := by
  obtain ⟨b, hb⟩ := Nesting.topLevel_iff.1 h.closed
  rw [isUnfinished_eq, hb, h.stop]
  rfl

theorem Settled.append_blank {read w : Text} (h : Settled read) (hw : w.blank) :
    Settled (read ++ w) where
  closed := by
    rw [Nesting.run_append]
    exact Nesting.topLevel_run_plain (isPlain_of_blank hw) h.closed
  stop := by
    rw [Text.trimEnd_append hw]
    exact h.stop

theorem exists_separator_tail {c : Char} {g : Text} (hn : c ≠ '\n') (hs : isSeparator c = false)
    (h : ∃ d ∈ c :: g, d = '\n' ∨ isSeparator d) : ∃ d ∈ g, d = '\n' ∨ isSeparator d := by
  obtain ⟨d, hd, hsd⟩ := h
  rcases List.mem_cons.1 hd with rfl | hd
  · rcases hsd with rfl | hsd
    · exact absurd rfl hn
    · rw [hs] at hsd
      cases hsd
  · exact ⟨d, hd, hsd⟩

/-- A gap ends what has been read, if it separates it from what follows or nothing follows. -/
theorem pieces_between {read g r : Text} (hs : Settled read) (hg : IsGap g)
    (h : (∃ c ∈ g, c = '\n' ∨ isSeparator c) ∨ r = []) (hr : goesOn r = false) :
    pieces read (g ++ r) = parts isSeparator read ++ pieces [] r := by
  induction g generalizing read with
  | nil =>
    rcases h with ⟨c, hc, -⟩ | rfl
    · cases hc
    · rw [List.nil_append, pieces_nil, pieces_nil,
        parts_blank Text.blank_nil, List.append_nil]
  | cons c g ih =>
    rw [List.cons_append]
    cases hsep : isSeparator c with
    | true =>
      have hn := ne_newline_of_solid (isBlank_of_isSeparator c hsep)
      have := pieces_separator hs.closed hsep [] (g ++ r)
      rw [List.append_nil] at this
      rw [pieces_cons hn, this, pieces_gap hg.tail]
    | false =>
      by_cases hn : c = '\n'
      · subst hn
        rw [pieces_newline, hs.isUnfinished, goesOn_gap hg.tail hr, pieces_gap hg.tail]
        split
        · rename_i hb
          rw [parts_blank hb, List.nil_append]
        · rfl
      · have hc : Text.isBlank c := by
          rcases hg c List.mem_cons_self with hc | hc
          · exact hc
          · rw [hsep] at hc
            cases hc
        have hw : Text.blank [c] := by simp [hc]
        have rest := h.imp_left (exists_separator_tail hn hsep)
        rw [pieces_cons hn, ih (hs.append_blank hw) hg.tail rest,
          parts_append_right hw]

namespace Alone

variable {m : Text}

theorem pieces_eq (h : Alone m) : pieces [] m = [m] := by
  rw [← text_split, h.whole]

theorem isBlank_ends (h : Alone m) : m ≠ [] ∧ (∀ c, m.head? = some c → Text.isBlank c = false) ∧
    ∀ c, m.getLast? = some c → Text.isBlank c = false := by
  have hm : m ∈ pieces [] m := by
    rw [h.pieces_eq]
    exact List.mem_cons_self
  exact isBlank_ends_of_mem_pieces hm

theorem settled (h : Alone m) : Settled m where
  closed := h.closed
  stop := by
    obtain ⟨hne, -, hlast⟩ := h.isBlank_ends
    rcases List.eq_nil_or_concat m with rfl | ⟨t, c, rfl⟩
    · exact absurd rfl hne
    · rw [List.concat_eq_append] at h hlast ⊢
      rw [Text.trimEnd_append_solid (hlast c (by simp))]
      exact h.stop

theorem goesOn_append (h : Alone m) {r : Text} (hr : r.head? ≠ some '>') :
    goesOn (m ++ r) = false := by
  obtain ⟨hne, hhead, -⟩ := h.isBlank_ends
  cases m with
  | nil => exact absurd rfl hne
  | cons c s =>
    have hc := hhead c rfl
    rw [Member.goesOn_append (by simp [hc]) hr, goesOn_solid hc]
    exact h.start

end Alone

theorem goesOn_laidOut {ms : List Text} (alone : ∀ m ∈ ms, Alone m) {body : Text}
    (h : LaidOut ms body) : goesOn body = false := by
  cases h with
  | empty hg => simpa using goesOn_gap hg goesOn_nil
  | last hg hh => exact goesOn_gap hg ((alone _ List.mem_cons_self).goesOn_append hh.head?_ne)
  | cons hg hh _ =>
    exact goesOn_gap hg ((alone _ List.mem_cons_self).goesOn_append (hh.head?_ne _))

/-- A body has the members that are laid out in it. -/
theorem pieces_laidOut {ms : List Text} (alone : ∀ m ∈ ms, Alone m) {body : Text}
    (h : LaidOut ms body) : pieces [] body = ms := by
  induction h with
  | @empty g hg =>
    have := pieces_gap hg []
    rw [List.append_nil] at this
    rw [this]
    rfl
  | @last g m h hg hh =>
    have hm := alone m List.mem_cons_self
    have := pieces_between hm.settled hh (.inr rfl) goesOn_nil
    rw [List.append_nil] at this
    rw [pieces_gap hg, pieces_whole hm.pieces_eq hh.head?_ne, this, parts_whole hm.pieces_eq]
    rfl
  | @cons g m h body ms hg hh laid ih =>
    have hm := alone m List.mem_cons_self
    have rest : ∀ k ∈ ms, Alone k := fun k hk => alone k (List.mem_cons_of_mem m hk)
    rw [pieces_gap hg, pieces_whole hm.pieces_eq (hh.head?_ne body),
      pieces_between hm.settled hh.1 (.inl hh.2) (goesOn_laidOut rest laid),
      parts_whole hm.pieces_eq, ih rest]
    rfl

end Member

end WebSurface
