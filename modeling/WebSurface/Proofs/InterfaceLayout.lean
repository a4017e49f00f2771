import Mathlib.Data.List.Chain
import WebSurface.Proofs.LeadingNames
import WebSurface.Proofs.Layout
set_option autoImplicit false

namespace WebSurface

open Member (IsGap LaidOut Alone)

def Text.Uncommented (t : Text) : Prop :=
  t.IsChain fun a b => ¬(a = '/' ∧ (b = '/' ∨ b = '*'))

namespace Text

theorem uncommented_of_infix {t : Text} (hl : ¬"//".toList <:+: t) (hb : ¬"/*".toList <:+: t) :
    Uncommented t := by
  rw [Uncommented, List.isChain_iff_forall_rel_of_append_cons_cons]
  rintro a b u v rfl ⟨rfl, rfl | rfl⟩
  · exact hl ⟨u, v, by simp⟩
  · exact hb ⟨u, v, by simp⟩

theorem Uncommented.append {x t : Text} (hx : Uncommented x) (ht : Uncommented t)
    (h : ∀ c ∈ t.head?, c ≠ '/' ∧ c ≠ '*') : Uncommented (x ++ t) := by
  refine List.IsChain.append hx ht fun a _ b hb hab => ?_
  rcases hab.2 with hab | hab
  · exact (h b hb).1 hab
  · exact (h b hb).2 hab

theorem Uncommented.append_left {x t : Text} (hx : ∀ c ∈ x, c ≠ '/') (ht : Uncommented t) :
    Uncommented (x ++ t) := by
  have chain : Uncommented x := by
    rw [Uncommented, List.isChain_iff_forall_rel_of_append_cons_cons]
    rintro a b u v rfl ⟨ha, -⟩
    exact hx a (by simp) ha
  exact List.IsChain.append chain ht fun a ha b _ hab => hx a (List.mem_of_getLast? ha) hab.1

end Text

theorem CommentMode.blank_uncommented {t : Text} (ht : t.Uncommented) {m : CommentMode}
    (hm : m = .code ∨ ∃ q, m = .literal q) : m.blank t = t := by
  fun_induction CommentMode.blank m t with
  | case1 => rfl
  | case2 r ih => exact absurd ⟨rfl, .inl rfl⟩ (List.isChain_cons_cons.1 ht).1
  | case3 r ih => exact absurd ⟨rfl, .inr rfl⟩ (List.isChain_cons_cons.1 ht).1
  | case4 c r _ _ ih =>
    rw [ih ht.tail]
    split
    · exact .inr ⟨c, rfl⟩
    · exact .inl rfl
  | case5 q c r ih => rw [ih ht.tail.tail (.inr ⟨q, rfl⟩)]
  | case6 q c r _ ih =>
    rw [ih ht.tail]
    split
    · exact .inl rfl
    · exact .inr ⟨q, rfl⟩
  | _ => simp at hm

namespace Nesting

variable {s : Nesting}

theorem closes_plain {c : Char} (hc : isPlain c) : s.closes c = false := by
  simp only [isPlain, Bool.and_eq_true, Bool.not_eq_true'] at hc
  unfold closes
  split
  · simp [hc.1.1.2]
  · rfl

theorem opened_cons {c : Char} {r : Text} :
    s.opened (c :: r) ↔ (s.closes c → 0 < s.depth) ∧ (s.step c).opened r := by
  rw [opened, Bool.and_eq_true, Bool.or_eq_true, Bool.not_eq_true', decide_eq_true_eq,
    ← Bool.not_eq_true, imp_iff_not_or]

theorem opened_plain {t : Text} (ht : ∀ c ∈ t, isPlain c) : s.opened t := by
  induction t generalizing s with
  | nil => rfl
  | cons c r ih =>
    obtain ⟨hc, hr⟩ := List.forall_mem_cons.1 ht
    simp [opened, closes_plain hc, ih hr]

theorem opened_append (a b : Text) : s.opened (a ++ b) = (s.opened a && (s.run a).opened b) := by
  induction a generalizing s with
  | nil => rfl
  | cons c r ih => simp [opened, ih, Bool.and_assoc]

theorem opened_of_topLevel (hs : s.topLevel) {t : Text} (h : outside.opened t) : s.opened t := by
  cases t with
  | nil => rfl
  | cons c r =>
    rw [opened_cons] at h ⊢
    rw [step_topLevel hs]
    refine ⟨fun hc => ?_, h.2⟩
    have closes : outside.closes c := by
      obtain ⟨b, rfl⟩ := topLevel_iff.1 hs
      rw [closes, Bool.and_eq_true] at hc
      simp [Nesting.closes, outside, hc.1]
    exact absurd (h.1 closes) (Nat.lt_irrefl 0)

theorem topLevel_run (hs : s.topLevel) {t : Text} (h : (outside.run t).topLevel) :
    (s.run t).topLevel := by
  cases t with
  | nil => exact hs
  | cons c r =>
    rw [run_cons, step_topLevel hs]
    exact h

/-- The same place in a text that is enclosed in one more bracket. -/
def deeper (s : Nesting) : Nesting := ⟨s.depth + 1, s.mode⟩

theorem step_deeper {c : Char} (h : s.closes c → 0 < s.depth) :
    s.deeper.step c = (s.step c).deeper := by
  obtain ⟨depth, mode⟩ := s
  cases mode with
  | literal q escaped =>
    cases escaped with
    | true => rfl
    | false =>
      simp only [deeper, step]
      split
      · rfl
      · split <;> rfl
  | code b =>
    simp only [deeper, step]
    split
    · rfl
    · simp only [closes] at h
      simp only [depthWith]
      split
      · rfl
      · split
        · rfl
        · rename_i harrow
          split
          · rename_i hcloser
            have hpos := h (by
              rw [hcloser, Bool.true_and, Bool.not_eq_true']
              exact Bool.eq_false_iff.2 harrow)
            simp only [Nesting.mk.injEq, and_true]
            omega
          · rfl

/-- The character that closes the bracket around a text whose brackets are closed encloses it. -/
theorem closing?_deeper {t : Text} (ho : s.opened t) (hdepth : (s.run t).depth = 0) {d : Char}
    (hd : ((s.run t).deeper.step d).topLevel) (r : Text) :
    s.deeper.closing? (t ++ d :: r) = some (t, r) := by
  induction t generalizing s with
  | nil =>
    have one : s.deeper.depth = 1 := congrArg (· + 1) hdepth
    rw [List.nil_append, closing?, one, show (s.deeper.step d).topLevel = true from hd]
    rfl
  | cons c t ih =>
    obtain ⟨hopen, ho⟩ := opened_cons.1 ho
    have step : s.deeper.step c = (s.step c).deeper := step_deeper hopen
    have inner : (s.step c).deeper.topLevel = false := by simp [topLevel, deeper]
    rw [List.cons_append, closing?, step, inner, Bool.and_false, if_neg (by simp), ih ho hdepth hd]
    rfl

theorem topLevel_step_deeper (hs : s.topLevel) {c : Char} (hc : s.closes c) :
    (s.deeper.step c).topLevel := by
  obtain ⟨b, rfl⟩ := topLevel_iff.1 hs
  rw [closes, Bool.and_eq_true] at hc
  rcases eq_of_isCloser hc.1 with rfl | rfl | rfl | rfl
  · cases b <;> rfl
  · cases b <;> rfl
  · cases b <;> rfl
  · cases b with
    | false => rfl
    | true => cases hc.2

theorem closes_of_isCloser (hs : s.topLevel) {c : Char} (hc : isCloser c) (harrow : c ≠ '>') :
    s.closes c := by
  obtain ⟨b, rfl⟩ := topLevel_iff.1 hs
  simp [closes, hc, harrow]

theorem closing?_opened {t : Text} (ho : s.opened t) (hc : (s.run t).topLevel) {d : Char}
    (hd : (s.run t).closes d) (r : Text) : s.deeper.closing? (t ++ d :: r) = some (t, r) := by
  have depth : (s.run t).depth = 0 := by
    obtain ⟨b, hb⟩ := topLevel_iff.1 hc
    rw [hb]
  exact closing?_deeper ho depth (topLevel_step_deeper hc hd) r

theorem closing?_append {t a b : Text} (h : s.closing? t = some (a, b)) (u : Text) :
    s.closing? (t ++ u) = some (a, b ++ u) := by
  induction t generalizing s a with
  | nil => cases h
  | cons c t ih =>
    rw [closing?] at h
    rw [List.cons_append, closing?]
    split at h
    · rename_i hc
      obtain ⟨rfl, rfl⟩ := Prod.mk.inj (Option.some.inj h)
      rw [if_pos hc]
    · rename_i hc
      obtain ⟨⟨x, y⟩, hxy, he⟩ := Option.map_eq_some_iff.1 h
      obtain ⟨rfl, rfl⟩ := Prod.mk.inj he
      rw [if_neg hc, ih hxy]
      rfl

theorem breakAt_eq_self {p : Char → Bool} {t : Text} (h : ∀ c ∈ t, p c = false) :
    s.breakAt p t = (t, []) := by
  induction t generalizing s with
  | nil => rfl
  | cons c r ih =>
    obtain ⟨hc, hr⟩ := List.forall_mem_cons.1 h
    rw [breakAt, hc, Bool.and_false, if_neg Bool.false_ne_true, ih hr]

theorem breakAt_plain {p : Char → Bool} {x : Text} (hx : ∀ c ∈ x, isPlain c ∧ p c = false)
    {c : Char} (hc : p c) (r : Text) : outside.breakAt p (x ++ c :: r) = (x, c :: r) := by
  have whole : (outside.breakAt p x).2 = [] := by rw [breakAt_eq_self fun d hd => (hx d hd).2]
  rw [breakAt_append_of_nil whole, run_plain_outside fun d hd => (hx d hd).1, breakAt, hc]
  simp [topLevel_outside]

end Nesting

theorem group?_append {t a b : Text} (h : group? t = some (a, b)) (u : Text) :
    group? (t ++ u) = some (a, b ++ u) := by
  cases t with
  | nil => cases h
  | cons o r =>
    rw [group?, Option.ite_none_right_eq_some] at h
    rw [List.cons_append, group?, if_pos h.1]
    exact Nesting.closing?_append h.2 u

namespace Member

theorem IsGap.isPlain {g : Text} (hg : IsGap g) : ∀ c ∈ g, isPlain c := by
  intro c hc
  rcases hg c hc with h | h
  · exact isPlain_of_isBlank h
  · exact isPlain_of_isSeparator c h

theorem IsGap.ne_marks {g : Text} (hg : IsGap g) : ∀ c ∈ g, c ≠ '/' ∧ c ≠ '*' := by
  intro c hc
  constructor
  · rintro rfl
    exact absurd (hg '/' hc) (by decide)
  · rintro rfl
    exact absurd (hg '*' hc) (by decide)

theorem Separates.head?_ne_marks {h : Text} (hh : Separates h) (body : Text) :
    ∀ c ∈ (h ++ body).head?, c ≠ '/' ∧ c ≠ '*' := by
  obtain ⟨hg, c, hc, -⟩ := hh
  cases h with
  | nil => cases hc
  | cons d h =>
    intro e he
    exact hg.ne_marks e (Option.some.inj he ▸ List.mem_cons_self)

theorem Alone.uncommented {m : Text} (h : Alone m) : m.Uncommented :=
  Text.uncommented_of_infix h.no_line_comment h.no_block_comment

theorem uncommented_laidOut {ms : List Text} (alone : ∀ m ∈ ms, Alone m) {body : Text}
    (h : LaidOut ms body) : body.Uncommented := by
  have gap {g : Text} (hg : IsGap g) {t : Text} (ht : t.Uncommented) : Text.Uncommented (g ++ t) :=
    ht.append_left fun c hc => (hg.ne_marks c hc).1
  induction h with
  | @empty g hg =>
    rw [← List.append_nil g]
    exact gap hg .nil
  | @last g m h hg hh =>
    have hm := (alone m List.mem_cons_self).uncommented
    have tail : Text.Uncommented (h ++ []) := gap hh .nil
    rw [List.append_nil] at tail
    exact gap hg (hm.append tail fun c hc => hh.ne_marks c (List.mem_of_head? hc))
  | @cons g m h body ms hg hh _ ih =>
    have hm := (alone m List.mem_cons_self).uncommented
    have rest := ih fun k hk => alone k (List.mem_cons_of_mem m hk)
    exact gap hg (hm.append (gap hh.1 rest) (hh.head?_ne_marks body))

theorem opened_laidOut {ms : List Text} (alone : ∀ m ∈ ms, Alone m) {body : Text}
    (h : LaidOut ms body) :
    Nesting.outside.opened body ∧ (Nesting.outside.run body).topLevel := by
  induction h with
  | @empty g hg =>
    rw [Nesting.run_plain_outside hg.isPlain]
    exact ⟨Nesting.opened_plain hg.isPlain, rfl⟩
  | @last g m h hg hh =>
    have hm := alone m List.mem_cons_self
    simp only [Nesting.opened_append, Nesting.run_append, Nesting.run_plain_outside hg.isPlain,
      Nesting.topLevel_run_plain hh.isPlain hm.closed, Nesting.opened_plain hg.isPlain, hm.opened,
      Nesting.opened_plain hh.isPlain, Bool.and_self, and_self]
  | @cons g m h body ms hg hh _ ih =>
    have hm := alone m List.mem_cons_self
    obtain ⟨opened, closed⟩ := ih fun k hk => alone k (List.mem_cons_of_mem m hk)
    have hne : h ≠ [] := by
      rintro rfl
      obtain ⟨-, c, hc, -⟩ := hh
      cases hc
    simp only [Nesting.opened_append, Nesting.run_append, Nesting.run_plain_outside hg.isPlain,
      Nesting.run_plain hh.1.isPlain hm.closed hne, Nesting.opened_plain hg.isPlain, hm.opened,
      Nesting.opened_plain hh.1.isPlain, opened, closed, Bool.and_self, and_self]

end Member

def Head.IsName (name : Text) : Prop :=
  ∃ c r, name = c :: r ∧ Text.startsName c ∧ ∀ d ∈ r, Text.isNameChar d

instance : DecidablePred Head.IsName
  | [] => .isFalse fun ⟨_, _, h, _⟩ => by cases h
  | c :: r => decidable_of_iff (Text.startsName c ∧ r.all Text.isNameChar)
      ⟨fun ⟨hc, hr⟩ => ⟨c, r, rfl, hc, List.all_eq_true.1 hr⟩, fun ⟨_, _, h, hc, hr⟩ => by
        obtain ⟨rfl, rfl⟩ := List.cons.inj h
        exact ⟨hc, List.all_eq_true.2 hr⟩⟩

theorem Head.IsName.isNameChar {name : Text} (hn : Head.IsName name) :
    ∀ c ∈ name, Text.isNameChar c := by
  obtain ⟨d, r, rfl, hd, hr⟩ := hn
  exact List.forall_mem_cons.2 ⟨Text.isNameChar_of_startsName hd, hr⟩

theorem Lexeme.ofText_name {name : Text} (hn : Head.IsName name) {t : Text} (ht : t.Fresh) :
    ofText (name ++ t) = .token (.name name) :: ofText t := by
  obtain ⟨c, r, rfl, hc, hr⟩ := hn
  rw [List.cons_append, ofText_cons, Text.next_name hc, List.takeWhile_append_of_pos hr,
    Text.takeWhile_fresh ht, List.append_nil, List.dropWhile_append_of_pos hr,
    Text.dropWhile_fresh ht]

theorem Lexeme.ofText_space (t : Text) : ofText (' ' :: t) = .blank [' '] :: ofText t := by
  rw [ofText_cons]
  rfl

theorem isPlain_of_isNameChar {c : Char} (h : Text.isNameChar c) : isPlain c :=
  isPlain_of (by decide) h

namespace Interface

def headOf (name : Text) : Text := "interface".toList ++ ' ' :: (name ++ [' '])

def withBody (name body : Text) : Text := headOf name ++ '{' :: (body ++ ['}'])

theorem fresh_space (t : Text) : Text.Fresh (' ' :: t) := by
  intro c hc
  rw [← Option.some.inj hc]
  decide

theorem isName_interface : Head.IsName "interface".toList := by decide

theorem forall_headOf {p : Char → Prop} (hp : ∀ c, Text.isNameChar c → p c) (hs : p ' ')
    {name : Text} (hn : Head.IsName name) : ∀ c ∈ headOf name, p c := by
  intro c hc
  rcases List.mem_append.1 hc with hc | hc
  · exact hp c (isName_interface.isNameChar c hc)
  rcases List.mem_cons.1 hc with rfl | hc
  · exact hs
  rcases List.mem_append.1 hc with hc | hc
  · exact hp c (hn.isNameChar c hc)
  · rw [List.mem_singleton.1 hc]
    exact hs

theorem tokenize_headOf {name : Text} (hn : Head.IsName name) :
    ∃ word named eof : Token, Token.tokenize (headOf name) = .ok [word, named, eof] ∧
      word.kind = .name "interface".toList ∧ named.kind = .name name ∧ eof.kind = .eof := by
  have lexemes : Lexeme.ofText (headOf name) = [.token (.name "interface".toList), .blank [' '],
      .token (.name name), .blank [' ']] := by
    have after : Lexeme.ofText (name ++ [' ']) = [.token (.name name), .blank [' ']] := by
      rw [Lexeme.ofText_name hn (fresh_space []), Lexeme.ofText_space, Lexeme.ofText_nil]
    have word := Lexeme.ofText_name isName_interface (fresh_space (name ++ [' ']))
    rw [Lexeme.ofText_space, after] at word
    exact word
  unfold Token.tokenize
  rw [lexemes]
  exact ⟨_, _, _, rfl, rfl, rfl, rfl⟩

theorem isPlain_headOf {name : Text} (hn : Head.IsName name) : ∀ c ∈ headOf name, isPlain c :=
  forall_headOf (fun _ => isPlain_of_isNameChar) (by decide) hn

theorem cut_withBody {name : Text} (hn : Head.IsName name) (body : Text) :
    Head.cut (withBody name body) = (headOf name, '{' :: (body ++ ['}'])) := by
  refine Nesting.breakAt_plain (p := fun c => c == '{' || c == '=')
    (fun c hc => ⟨isPlain_headOf hn c hc, ?_⟩) rfl _
  have hp := isPlain_headOf hn c hc
  cases h : c == '{' || c == '=' with
  | false => rfl
  | true =>
    simp only [Bool.or_eq_true, beq_iff_eq] at h
    rcases h with rfl | rfl <;> cases hp

theorem ofText?_withBody {name : Text} (hn : Head.IsName name) (body : Text) :
    Head.ofText? (withBody name body) = some ⟨.interface, name, [], Text.bytes (headOf name)⟩ := by
  obtain ⟨word, named, eof, tokens, hw, hnamed, heof⟩ := tokenize_headOf hn
  have modifier : Head.isModifier word = false := by
    simp [Head.isModifier, Token.isWord, TokenKind.isWord, hw]
  have kind : Head.kind? word = some .interface := by
    simp [Head.kind?, Token.isWord, TokenKind.isWord, hw]
  have bases : Head.bases? (headOf name) [eof] = some [] := by
    simp [Head.bases?, Head.skipTypeParameters?, Token.isWord, TokenKind.isWord, heof]
  simp only [Head.ofText?, cut_withBody hn, tokens, List.dropWhile_cons, modifier,
    Bool.false_eq_true, if_false, kind, hnamed, TokenKind.name?, bases]
  rfl

theorem bodyOf_braces {body : Text} (ho : Nesting.outside.opened body)
    (hc : (Nesting.outside.run body).topLevel) : bodyOf ('{' :: (body ++ ['}'])) = body := by
  have h : group? ('{' :: (body ++ ['}'])) = some (body, []) :=
    Nesting.closing?_opened ho hc (Nesting.closes_of_isCloser hc (by decide) (by decide)) []
  rw [bodyOf, h]

/-- An interface is read as one with the members in its body. -/
theorem read_withBody {name body : Text} (hn : Head.IsName name) (hu : body.Uncommented)
    (ho : Nesting.outside.opened body) (hc : (Nesting.outside.run body).topLevel) :
    read (withBody name body) =
      .ok ((Member.split body).foldl (Reading.member (Text.bytes (headOf name) + 1))
        ⟨⟨name, [], .empty, .empty, none⟩, []⟩) := by
  have uncommented : (withBody name body).Uncommented := by
    have head : ∀ c ∈ headOf name, c ≠ '/' :=
      forall_headOf (fun _ => Text.ne_slash_of_isNameChar) (by decide) hn
    have brace : ∀ c ∈ ['{'], c ≠ '/' := List.forall_mem_singleton.2 (by decide)
    have closed : Text.Uncommented (body ++ ['}']) :=
      hu.append (.singleton '}') fun c hc =>
        Option.some.inj hc ▸ (by decide : '}' ≠ '/' ∧ '}' ≠ '*')
    exact (closed.append_left brace).append_left head
  have whole : Text.blankComments (withBody name body) = withBody name body :=
    CommentMode.blank_uncommented uncommented (.inl rfl)
  have start : Text.trimStart (withBody name body) = withBody name body := rfl
  have rest : Text.after (withBody name body) (Text.bytes (headOf name)) =
      '{' :: (body ++ ['}']) := Text.after_bytes _ _
  simp only [read, whole, start, ofText?_withBody hn, rest, bodyOf_braces ho hc, Nat.sub_self,
    Nat.zero_add]
  rfl

/-- Two readings differ in nothing but the places of members that were left out. -/
structure Reading.Alike (r r' : Reading) : Prop where
  interface_eq : r.interface = r'.interface
  skipped_eq : r.skipped.map (fun s => (s.text, s.reason)) =
    r'.skipped.map (fun s => (s.text, s.reason))

theorem Reading.Alike.member {r r' : Reading} (h : r.Alike r') (n : Nat) {s s' : Segment}
    (hs : s.text = s'.text) : (r.member n s).Alike (r'.member n s') := by
  unfold Reading.member
  rw [hs]
  cases Member.ofText s'.text with
  | ok m => exact ⟨by rw [h.interface_eq], h.skipped_eq⟩
  | error reason =>
    refine ⟨h.interface_eq, ?_⟩
    rw [List.map_append, List.map_append, h.skipped_eq]
    rfl

theorem Reading.Alike.foldl {r r' : Reading} (h : r.Alike r') (n : Nat) {ss ss' : List Segment}
    (hs : ss.map Segment.text = ss'.map Segment.text) :
    (ss.foldl (Reading.member n) r).Alike (ss'.foldl (Reading.member n) r') := by
  induction ss generalizing ss' r r' with
  | nil =>
    cases ss' with
    | nil => exact h
    | cons s' ss' => cases hs
  | cons s ss ih =>
    cases ss' with
    | nil => cases hs
    | cons s' ss' =>
      obtain ⟨hhead, htail⟩ := List.cons.inj hs
      exact ih (h.member n hhead) htail

/-- A body has the members that are laid out in it, and an interface says the same, and leaves out
the same, in any two layouts of its body. -/
theorem read_laidOut {ms : List Text} (alone : ∀ m ∈ ms, Member.Alone m) {a b : Text}
    (ha : LaidOut ms a) (hb : LaidOut ms b) {name : Text} (hn : Head.IsName name) :
    (Member.split a).map Segment.text = ms ∧
      ∃ r r', read (withBody name a) = .ok r ∧ read (withBody name b) = .ok r' ∧
        r.interface = r'.interface ∧
        r.skipped.map (fun s => (s.text, s.reason)) =
          r'.skipped.map (fun s => (s.text, s.reason)) := by
  have splits {body : Text} (h : LaidOut ms body) : (Member.split body).map Segment.text = ms := by
    rw [Member.text_split, Member.pieces_laidOut alone h]
  obtain ⟨oa, ca⟩ := Member.opened_laidOut alone ha
  obtain ⟨ob, cb⟩ := Member.opened_laidOut alone hb
  have same : (Member.split a).map Segment.text = (Member.split b).map Segment.text := by
    rw [splits ha, splits hb]
  have start : (⟨⟨name, [], .empty, .empty, none⟩, []⟩ : Reading).Alike
      ⟨⟨name, [], .empty, .empty, none⟩, []⟩ := ⟨rfl, rfl⟩
  have alike := start.foldl (Text.bytes (headOf name) + 1) same
  refine ⟨splits ha, _, _, read_withBody hn (Member.uncommented_laidOut alone ha) oa ca,
    read_withBody hn (Member.uncommented_laidOut alone hb) ob cb, ?_, ?_⟩
  · exact alike.interface_eq
  · exact alike.skipped_eq

/-- Three members on one line, and the same members on lines of their own. One of them is left out
of the interface. -/
theorem read_laidOut_lines :
    let line := "a: A;m(\n): B |\nC,[k: K]: V".toList
    let lines := "\n a: A,\n\n m(\n): B |\nC\n [k: K]: V;\n".toList
    let members := ["a: A".toList, "m(\n): B |\nC".toList, "[k: K]: V".toList]
    let i : Interface := ⟨['N'], [], .ofList [⟨['a'], ['A'], false, false⟩],
      .ofList [⟨['m'], [], "B | C".toList, false, none⟩], none⟩
    let skipped (start : Nat) : Skipped :=
      ⟨⟨start, start + 9⟩, "[k: K]: V".toList, .indexSignature⟩
    (Member.split line).map Segment.text = members ∧
      (Member.split lines).map Segment.text = members ∧
      read (withBody ['N'] line) = .ok ⟨i, [skipped 30]⟩ ∧
      read (withBody ['N'] lines) = .ok ⟨i, [skipped 36]⟩ := by
  intro line lines members i skipped
  have alone : ∀ m ∈ members, Member.Alone m := by
    simp only [members, List.forall_mem_cons, List.not_mem_nil, false_implies, implies_true]
    refine ⟨⟨?_, ?_, ?_, ?_, ?_, ?_, ?_⟩, ⟨?_, ?_, ?_, ?_, ?_, ?_, ?_⟩,
      ⟨?_, ?_, ?_, ?_, ?_, ?_, ?_⟩, trivial⟩ <;> decide +kernel
  have short : LaidOut members line :=
    .cons (g := []) (h := [';']) (by decide) (by decide)
      (.cons (g := []) (h := [',']) (by decide) (by decide)
        (.last (g := []) (h := []) (by decide) (by decide)))
  have long : LaidOut members lines :=
    .cons (g := "\n ".toList) (h := ",\n\n ".toList) (by decide) (by decide)
      (.cons (g := []) (h := "\n ".toList) (by decide) (by decide)
        (.last (g := []) (h := ";\n".toList) (by decide) (by decide)))
  have name : Head.IsName ['N'] := ⟨'N', [], rfl, by decide +kernel, by simp⟩
  refine ⟨(read_laidOut alone short long name).1, (read_laidOut alone long short name).1, ?_, ?_⟩
  all_goals decide +kernel

end Interface

end WebSurface
