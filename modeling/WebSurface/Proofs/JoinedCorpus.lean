import WebSurface.Proofs.Filing
import WebSurface.Proofs.Statements
import WebSurface.Proofs.Utf8
set_option autoImplicit false

namespace WebSurface

namespace Statement

/-- The text has no comments and is one statement when it stands alone. -/
structure Alone (m : Text) : Prop where
  commentFree : m.CommentFree
  onLine : m.LiteralsOnLine
  closed : (Nesting.outside.run m).topLevel
  whole : (splitStatements m).map Segment.text = [m]

/-- The statement ends with the brace of its block, and nothing is assigned in it. -/
def endsWithBlock (m : Text) : Bool := Text.endsWith ['}'] m && !containsTopLevel ['='] m

def terminator (m : Text) : Text := if endsWithBlock m then [] else [';']

/-- The statements stand in the corpus, each with its terminator, and with white space and comments
around them. -/
inductive Joined : List Text → Text → Prop
  | nil {g : Text} : Skips Text.isBlank g [] → Joined [] g
  | cons {g m r : Text} {ms : List Text} : Skips Text.isBlank g (m ++ (terminator m ++ r)) →
      Joined ms r → Joined (m :: ms) (g ++ (m ++ (terminator m ++ r)))

end Statement

namespace CommentMode

theorem blank_flatMap_cover (t : Text) : Text.blank (t.flatMap cover) := by
  refine List.all_eq_true.2 fun c hc => ?_
  obtain ⟨d, -, hd⟩ := List.mem_flatMap.1 hc
  exact Text.isBlank_of_mem (blank_cover d) hd

theorem blank_skips {g r : Text} (h : Skips Text.isBlank g r) :
    ∃ w, Text.blank w ∧ code.blank (g ++ r) = w ++ code.blank r := by
  induction h with
  | nil => exact ⟨[], rfl, rfl⟩
  | @space c g r hc _ ih =>
    obtain ⟨w, hw, e⟩ := ih
    have plain := plain_of_isBlank hc
    refine ⟨c :: w, by simp [hc, hw], ?_⟩
    rw [List.cons_append, blank_code plain.1 plain.2, e]
    rfl
  | @line body g r hbody hstop _ ih =>
    obtain ⟨w, hw, e⟩ := ih
    refine ⟨' ' :: ' ' :: (body.flatMap cover ++ w), by simp [blank_flatMap_cover, hw]; decide, ?_⟩
    simp only [List.cons_append, List.append_assoc]
    rw [blank, blank_line_append hbody, blank_line_eq_code hstop, e]
  | @block body g r hbody _ ih =>
    obtain ⟨w, hw, e⟩ := ih
    refine ⟨' ' :: ' ' :: (body.flatMap cover ++ (' ' :: ' ' :: w)),
      by simp [blank_flatMap_cover, hw]; decide, ?_⟩
    simp only [List.cons_append, List.append_assoc]
    rw [blank, blank_block_append hbody, e]

end CommentMode

namespace Statement

namespace Alone

variable {m : Text}

theorem quiet (h : Alone m) : m.Quiet := by
  have := Text.quiet_blankComments h.onLine
  rwa [Text.blankComments_commentFree h.onLine h.commentFree] at this

theorem exists_piece (h : Alone m) : ∃ p ∈ cuts .outside false m, p.trim = m ∧ m ≠ [] := by
  have hm : m ∈ tidy (cuts .outside false m) := by
    rw [← text_splitStatements, h.whole]
    exact List.mem_singleton_self m
  simp only [tidy, List.mem_filter, List.mem_map, Bool.not_eq_true',
    List.isEmpty_eq_false_iff] at hm
  obtain ⟨⟨p, hp, htrim⟩, hne⟩ := hm
  exact ⟨p, hp, htrim, hne⟩

theorem length_le (h : Alone m) {a r : Text}
    (hcuts : cuts .outside false m = a :: cuts .outside false r)
    (hr : r.length < m.length) : m.length ≤ a.length := by
  obtain ⟨p, hp, htrim, -⟩ := h.exists_piece
  have hm := Text.length_trim_le p
  rw [htrim] at hm
  rw [hcuts] at hp
  rcases List.mem_cons.1 hp with rfl | hp
  · exact hm
  · have := length_le_of_mem_cuts hp
    omega

theorem ended (h : Alone m) : Ended m := by
  cases first .outside false m with
  | whole hm => exact .semicolon hm h.closed
  | @semicolon a r hm ha htop =>
    subst hm
    have := h.length_le (cuts_semicolon ha htop r) (by simp; omega)
    rw [List.length_append, List.length_cons] at this
    omega
  | @block a r hm ha hend =>
    subst hm
    have := h.length_le (cuts_block ha hend r) (by simp; omega)
    obtain rfl : r = [] := by simpa using this
    exact .block rfl ha hend

theorem endsWithBlock_iff {m : Text} :
    endsWithBlock m ↔ ∃ a, m = a ++ ['}'] ∧ Nesting.outside.meets ['='] a = false := by
  have brace (a : Text) : containsTopLevel ['='] (a ++ ['}']) = Nesting.outside.meets ['='] a := by
    have last (s : Nesting) : s.meets ['='] ['}'] = false := by
      rw [meets_equals_cons]
      simp [Nesting.meets]
    rw [containsTopLevel, meets_equals_append, last, Bool.or_false]
    rfl
  simp only [endsWithBlock, Text.endsWith, Bool.and_eq_true, Option.isSome_iff_exists,
    Text.stripEnd?_eq_some_iff, Bool.not_eq_true']
  constructor
  · rintro ⟨⟨a, rfl⟩, h⟩
    exact ⟨a, rfl, brace a ▸ h⟩
  · rintro ⟨a, rfl, h⟩
    exact ⟨⟨a, rfl⟩, (brace a).trans h⟩

/-- A statement with its terminator is cut off, and the scan goes on as it began. -/
theorem cuts_append (h : Alone m) (r : Text) :
    cuts .outside false (m ++ (terminator m ++ r)) = m :: cuts .outside false r := by
  cases h.ended with
  | semicolon hm hclosed =>
    have noBlock : ¬endsWithBlock m := by
      rw [endsWithBlock_iff]
      rintro ⟨a, rfl, hequals⟩
      rw [Nesting.run_append, Nesting.run_cons, Nesting.run_nil] at hclosed
      rw [keeps_append, hequals] at hm
      simp [keeps, ends, hclosed] at hm
    rw [terminator, if_neg noBlock]
    exact cuts_semicolon hm hclosed r
  | @block a hm ha hend =>
    subst hm
    have block : endsWithBlock (a ++ ['}']) := by
      refine endsWithBlock_iff.2 ⟨a, rfl, ?_⟩
      simp only [ends, Bool.and_eq_true, Bool.not_eq_true'] at hend
      exact hend.1.1
    rw [terminator, if_pos block, List.append_assoc]
    exact cuts_block ha hend r

theorem blank_append (h : Alone m) (r : Text) :
    CommentMode.code.blank (m ++ (terminator m ++ r)) =
      m ++ (terminator m ++ CommentMode.code.blank r) := by
  have apart : m.getLast? = some '/' →
      (terminator m ++ r).head? ≠ some '/' ∧ (terminator m ++ r).head? ≠ some '*' := by
    intro hlast
    have noBlock : ¬endsWithBlock m := by
      rw [endsWithBlock_iff]
      rintro ⟨a, rfl, -⟩
      simp at hlast
    rw [terminator, if_neg noBlock]
    simp
  have := CommentMode.blank_quiet_append h.quiet.1 h.quiet.2 apart
  refine Eq.trans this (congrArg (m ++ ·) ?_)
  rw [terminator]
  split
  · rfl
  · exact CommentMode.blank_code (by decide) rfl r

theorem trim_eq (h : Alone m) : m.trim = m := by
  obtain ⟨p, -, htrim, -⟩ := h.exists_piece
  rw [← htrim, Text.trim_trim]

theorem not_blank (h : Alone m) : Text.blank m = false := by
  obtain ⟨p, -, -, hne⟩ := h.exists_piece
  rw [← h.trim_eq] at hne
  exact Bool.eq_false_iff.2 (mt Text.trim_eq_nil_iff.2 hne)

end Alone

theorem tidy_cuts_blankComments {ms : List Text} (alone : ∀ m ∈ ms, Alone m) {corpus : Text}
    (h : Joined ms corpus) : tidy (cuts .outside false corpus.blankComments) = ms := by
  induction h with
  | nil hg =>
    obtain ⟨w, hw, e⟩ := CommentMode.blank_skips hg
    rw [List.append_nil] at e
    rw [Text.blankComments, e, tidy_cuts_blank hw]
    rfl
  | @cons g m r ms hg _ ih =>
    obtain ⟨hm, alone⟩ := List.forall_mem_cons.1 alone
    obtain ⟨w, hw, e⟩ := CommentMode.blank_skips hg
    rw [Text.blankComments, e, hm.blank_append, tidy_cuts_blank hw, hm.cuts_append, tidy_cons,
      if_neg (by simp [hm.not_blank]), hm.trim_eq]
    exact congrArg (m :: ·) (ih alone)

end Statement

namespace Declarations

/-- The declarations are those of the statements, the first of each name, and nothing else. -/
structure OfStatements (ms : List Text) (d : Declarations) : Prop where
  interface_eq (name : Text) : d.interface? name = ms.find? (·.declares .interface name)
  alias_eq (name : Text) : d.alias? name = ms.find? (·.declares .alias name)
  mem_interfaceNames_iff (name : Text) :
    name ∈ d.interfaceNames ↔ ∃ m ∈ ms, m.declares .interface name
  mem_aliasNames_iff (name : Text) : name ∈ d.aliasNames ↔ ∃ m ∈ ms, m.declares .alias name
  interfaceNames_ascending : d.interfaceNames.Pairwise fun a b => Text.utf8 a < Text.utf8 b
  aliasNames_ascending : d.aliasNames.Pairwise fun a b => Text.utf8 a < Text.utf8 b

theorem ofStatements_foldl_add (ms : List Text) : OfStatements ms (ms.foldl add empty) where
  interface_eq := get?_foldl_add_empty ms .interface
  alias_eq := get?_foldl_add_empty ms .alias
  mem_interfaceNames_iff name := by
    have := get?_foldl_add_empty ms .interface name
    rw [mem_interfaceNames, interface?, show interfaces = (table · .interface) from rfl, this,
      ← Option.isSome_iff_exists, List.find?_isSome]
  mem_aliasNames_iff name := by
    have := get?_foldl_add_empty ms .alias name
    rw [mem_aliasNames, alias?, show aliases = (table · .alias) from rfl, this,
      ← Option.isSome_iff_exists, List.find?_isSome]
  interfaceNames_ascending := NameSet.ascending_utf8 _
  aliasNames_ascending := NameSet.ascending_utf8 _

/-- Statements that declare neither an interface nor an alias leave no trace. -/
theorem foldl_add_filter (ms : List Text) (d : Declarations) :
    (ms.filter fun m => (Head.ofText? m).isSome).foldl add d = ms.foldl add d := by
  induction ms generalizing d with
  | nil => rfl
  | cons m ms ih =>
    cases h : Head.ofText? m with
    | none =>
      have unchanged : d.add m = d := by rw [add, h]
      rw [List.filter_cons_of_neg (by simp [h]), List.foldl_cons, unchanged, ih]
    | some head => rw [List.filter_cons_of_pos (by simp [h]), List.foldl_cons, List.foldl_cons, ih]

theorem ofText_joined {ms : List Text} (alone : ∀ m ∈ ms, Statement.Alone m) {corpus : Text}
    (h : Statement.Joined ms corpus) : ofText corpus = ms.foldl add empty := by
  rw [ofText, Statement.text_splitStatements, Statement.tidy_cuts_blankComments alone h]

end Declarations

/-- The index of a corpus that is put together from statements leads from a name to the first
statement that declares it. Those that declare nothing might as well be left out. -/
theorem Index.build_joined (key : Text) {ms : List Text} (alone : ∀ m ∈ ms, Statement.Alone m)
    {corpus : Text} (h : Statement.Joined ms corpus) :
    (build key corpus).declarations.OfStatements ms ∧
      ∀ rest, Statement.Joined (ms.filter fun m => (Head.ofText? m).isSome) rest →
        (build key rest).declarations = (build key corpus).declarations := by
  have whole : (build key corpus).declarations = ms.foldl Declarations.add .empty :=
    Declarations.ofText_joined alone h
  constructor
  · exact whole ▸ Declarations.ofStatements_foldl_add ms
  · intro rest hrest
    have declaring := Declarations.ofText_joined
      (fun m hm => alone m (List.mem_filter.1 hm).1) hrest
    exact declaring.trans ((Declarations.foldl_add_filter ms .empty).trans whole.symm)

/-- An interface that is declared twice, an alias that ends with a brace, a statement that declares
nothing, and marks in a comment and in a string. -/
theorem Index.build_joined_marks :
    let first : Text := "interface B \x7b a: '\x7d' \x7d".toList
    let again : Text := "interface B \x7b b: C \x7d".toList
    let ms : List Text :=
      [first, "type T = \x7b x: 1 \x7d".toList, "declare var v: X".toList, again]
    let corpus : Text := ("interface B \x7b a: '\x7d' \x7d//\x7d\n" ++
      "type T = \x7b x: 1 \x7d; declare var v: X;/*;*/interface B \x7b b: C \x7d").toList
    (∀ m ∈ ms, Statement.Alone m) ∧ Statement.Joined ms corpus ∧
      (build [] corpus).declarations.interface? ['B'] = some first ∧
      (build [] corpus).declarations.OfStatements ms := by
  intro first again ms corpus
  have alone : ∀ m ∈ ms, Statement.Alone m := by
    refine List.forall_mem_cons.2 ⟨⟨?_, ?_, ?_, ?_⟩, List.forall_mem_cons.2 ⟨⟨?_, ?_, ?_, ?_⟩,
      List.forall_mem_cons.2 ⟨⟨?_, ?_, ?_, ?_⟩, List.forall_mem_singleton.2 ⟨?_, ?_, ?_, ?_⟩⟩⟩⟩
      <;> decide +kernel
  have text : corpus = [] ++ (first ++ (Statement.terminator first ++
      (['/', '/', '\x7d', '\n'] ++ ("type T = \x7b x: 1 \x7d".toList ++
        (Statement.terminator "type T = \x7b x: 1 \x7d".toList ++
      ([' '] ++ ("declare var v: X".toList ++ (Statement.terminator "declare var v: X".toList ++
      (['/', '*', ';', '*', '/'] ++ (again ++ (Statement.terminator again ++ []))))))))))) := by
    decide +kernel
  have joined : Statement.Joined ms corpus := by
    rw [text]
    refine .cons .nil (.cons ?_ (.cons (.space (by decide) .nil) (.cons ?_ (.nil .nil))))
    · exact @Skips.line _ ['\x7d'] ['\n'] _ (by decide) (by simp) (.space (by decide) .nil)
    · exact @Skips.block _ [';'] [] _ (by decide) .nil
  have index := (build_joined [] alone joined).1
  refine ⟨alone, joined, ?_, index⟩
  rw [index.interface_eq]
  decide +kernel

end WebSurface
