import WebSurface.Proofs.Utf8
import WebSurface.Scan
set_option autoImplicit false

/-!
The scans of declaration text, byte by byte and with every access checked.

The functions of `Checked` do with offsets into the bytes of a text what the functions on its
characters do without. They have no result where a byte or a piece of a text is taken that is not
there, where a text is cut inside a character, or where a number is subtracted from a smaller one.

A scan visits every byte, also those inside a character. `Traces` says what it sees: the lead of
each character in the state in which the character is read, and after it bytes that change nothing.
-/

namespace WebSurface.Checked

open Text (utf8 bytes lead trail)

def minus? (m n : Nat) : Option Nat := if n ≤ m then some (m - n) else none

theorem minus?_of_le {m n : Nat} (h : n ≤ m) : minus? m n = some (m - n) := if_pos h

def upTo? (t : Text) (n : Nat) : Option Text := (t.splitAt? n).map Prod.fst

def from? (t : Text) (n : Nat) : Option Text := (t.splitAt? n).map Prod.snd

@[simp] theorem upTo?_bytes (a b : Text) : upTo? (a ++ b) (bytes a) = some a := by simp [upTo?]

@[simp] theorem from?_bytes (a b : Text) : from? (a ++ b) (bytes a) = some b := by simp [from?]

theorem slice?_between (a m r : Text) :
    (a ++ m ++ r).slice? ⟨bytes a, bytes (a ++ m)⟩ = some m :=
  Text.slice?_eq_some_iff.2 ⟨a, r, rfl, rfl, Text.bytes_append a m⟩

structure State where
  depth : Nat
  quote : Option UInt8
  escaped : Bool
  deriving DecidableEq, Repr

namespace State

def outside : State := ⟨0, none, false⟩

def topLevel (s : State) : Bool := s.depth == 0 && s.quote.isNone

def step (s : State) (previous : Option UInt8) (b : UInt8) : State :=
  match s.quote with
  | some q =>
    if s.escaped then { s with escaped := false }
    else if b == '\\'.toUInt8 then { s with escaped := true }
    else if b == q then { s with quote := none }
    else s
  | none =>
    if isQuote (.ofUInt8 b) then { s with quote := some b }
    else if isOpener (.ofUInt8 b) then { s with depth := s.depth + 1 }
    else if b == '>'.toUInt8 && previous == some '='.toUInt8 then s
    else if isCloser (.ofUInt8 b) then { s with depth := s.depth - 1 }
    else s

def ofNesting (s : Nesting) : State :=
  match s.mode with
  | .code _ => ⟨s.depth, none, false⟩
  | .literal q escaped => ⟨s.depth, some q.toUInt8, escaped⟩

end State

structure Visit where
  offset : Nat
  byte : UInt8
  before : State
  after : State
  deriving DecidableEq, Repr

def previous? (bs : List UInt8) (i : Nat) : Option (Option UInt8) :=
  if i = 0 then some none else bs[i - 1]?.map some

/-- What a scan sees of the last bytes of `bs`, which stand from offset `i` on. -/
def visits? (bs : List UInt8) (s : State) (i : Nat) : List UInt8 → Option (List Visit)
  | [] => some []
  | b :: rest => do
    let previous ← previous? bs i
    let after := s.step previous b
    let visits ← visits? bs after (i + 1) rest
    return ⟨i, b, s, after⟩ :: visits

def scan? (t : Text) : Option (List Visit) := visits? (utf8 t) .outside 0 (utf8 t)

/-! ### The states of a scan of bytes -/

theorem onlyAscii_isOpener : OnlyAscii isOpener := onlyAscii_elem (by simp)

theorem onlyAscii_isCloser : OnlyAscii isCloser := onlyAscii_elem (by simp)

theorem onlyAscii_isQuote : OnlyAscii isQuote := onlyAscii_elem (by simp)

/-- The byte before the next character tells what the state says of the last character. -/
def Follows (s : Nesting) (previous : Option UInt8) : Prop :=
  match s.mode with
  | .code afterEquals => afterEquals = (previous == some '='.toUInt8)
  | .literal q _ => isQuote q

@[simp] theorem depth_ofNesting (s : Nesting) : (State.ofNesting s).depth = s.depth := by
  obtain ⟨depth, mode⟩ := s
  cases mode <;> rfl

@[simp] theorem topLevel_ofNesting (s : Nesting) : (State.ofNesting s).topLevel = s.topLevel := by
  obtain ⟨depth, mode⟩ := s
  cases mode <;> rfl

theorem step_lead {s : Nesting} {previous : Option UInt8} (h : Follows s previous) (c : Char) :
    (State.ofNesting s).step previous (lead c) = .ofNesting (s.step c) := by
  obtain ⟨depth, mode⟩ := s
  cases mode with
  | code afterEquals =>
    simp only [Follows] at h
    simp only [State.ofNesting, State.step, Nesting.step, onlyAscii_isQuote.lead,
      onlyAscii_isOpener.lead, onlyAscii_isCloser.lead,
      Text.lead_beq (show '>'.toNat < 128 by decide), ← h]
    by_cases hq : isQuote c
    · rw [if_pos hq, if_pos hq, Text.lead_ascii (onlyAscii_isQuote c hq)]
    · rw [if_neg hq, if_neg hq]
      simp only [Nesting.depthWith, beq_iff_eq, Bool.and_eq_true, decide_eq_true_eq]
      split
      · rfl
      · split
        · rfl
        · split <;> rfl
  | literal q escaped =>
    have hq : q.toNat < 128 := onlyAscii_isQuote q h
    cases escaped with
    | true => rfl
    | false =>
      simp only [State.ofNesting, State.step, Nesting.step, Bool.false_eq_true, if_false,
        Text.lead_beq hq, Text.lead_beq (show '\\'.toNat < 128 by decide), beq_iff_eq]
      split
      · rfl
      · split <;> rfl

/-- A byte inside a character changes nothing, unless it is escaped. -/
theorem step_trail {s : State} (hs : s.escaped = false) (hq : ∀ q ∈ s.quote, q.toNat < 128)
    (previous : Option UInt8) {b : UInt8} (hb : IsTrail b) : s.step previous b = s := by
  obtain ⟨depth, quote, escaped⟩ := s
  cases quote with
  | none =>
    simp [State.step, onlyAscii_isQuote.trail hb, onlyAscii_isOpener.trail hb,
      onlyAscii_isCloser.trail hb, Text.trail_beq (show '>'.toNat < 128 by decide) hb]
  | some q =>
    have hne : (b == q) = false := by
      rw [beq_eq_false_iff_ne]
      rintro rfl
      exact absurd hb.1 (Nat.not_le_of_lt (hq _ rfl))
    obtain rfl : escaped = false := hs
    simp [State.step, hne, Text.trail_beq (show '\\'.toNat < 128 by decide) hb]

theorem getLast?_beq {d : Char} (hd : d.toNat < 128) (c : Char) :
    ((String.utf8EncodeChar c).getLast? == some d.toUInt8) = (c == d) := by
  rw [Text.utf8EncodeChar_eq]
  cases hb : (trail c).getLast? with
  | none =>
    rw [List.getLast?_eq_none_iff.1 hb, List.getLast?_singleton, Option.some_beq_some,
      Text.lead_beq hd]
  | some b =>
    have hm := List.mem_of_getLast? hb
    have wide : ¬c.toNat < 128 := fun h => by
      rw [Text.trail_ascii h] at hm
      cases hm
    have hcd : (c == d) = false := by
      rw [beq_eq_false_iff_ne]
      rintro rfl
      exact wide hd
    rw [List.getLast?_cons, hb, Option.getD_some, Option.some_beq_some, hcd]
    exact Text.trail_beq hd (Text.isTrail_of_mem_trail c _ hm)

theorem Follows.step {s : Nesting} {previous : Option UInt8} (h : Follows s previous) (c : Char) :
    Follows (s.step c) (String.utf8EncodeChar c).getLast? := by
  obtain ⟨depth, mode⟩ := s
  have equals := getLast?_beq (show '='.toNat < 128 by decide) c
  cases mode with
  | code afterEquals =>
    unfold Nesting.step
    split
    · rename_i hm
      cases hm
    · rename_i hm
      cases hm
    · split
      · rename_i hq
        exact hq
      · exact equals.symm
  | literal q escaped =>
    cases escaped with
    | true => exact h
    | false =>
      simp only [Nesting.step]
      split
      · exact h
      · split
        · rename_i hc
          subst hc
          have quote : isQuote c := h
          have other : (c == '=') = false := by
            rw [beq_eq_false_iff_ne]
            rintro rfl
            cases quote
          exact (equals.trans other).symm
        · exact h

/-! ### What a scan sees -/

theorem previous?_append (x y : List UInt8) : previous? (x ++ y) x.length = some x.getLast? := by
  rcases List.eq_nil_or_concat x with rfl | ⟨x, b, rfl⟩
  · rfl
  · simp [previous?]

/-- The byte stands inside a character and changes nothing of the state. -/
structure Visit.Idle (s : State) (v : Visit) : Prop where
  trail : IsTrail v.byte
  before : v.before = s
  after : v.after = s

/-- What a scan sees of a text that starts at byte `n` and is read in state `s`. -/
inductive Traces : Nesting → Nat → Text → List Visit → Prop
  | nil (s : Nesting) (n : Nat) : Traces s n [] []
  | cons {s : Nesting} {n : Nat} {c : Char} {r : Text} {idle visits : List Visit} :
    (∀ v ∈ idle, v.Idle (.ofNesting (s.step c))) → Traces (s.step c) (n + c.utf8Size) r visits →
    Traces s n (c :: r) (⟨n, lead c, .ofNesting s, .ofNesting (s.step c)⟩ :: (idle ++ visits))

theorem visits?_cons (x : List UInt8) (s : State) (b : UInt8) (rest : List UInt8) :
    visits? (x ++ b :: rest) s x.length (b :: rest) =
      (visits? (x ++ b :: rest) (s.step x.getLast? b) (x ++ [b]).length rest).map
        (⟨x.length, b, s, s.step x.getLast? b⟩ :: ·) := by
  rw [visits?, previous?_append, List.length_append, List.length_singleton]
  cases h : visits? (x ++ b :: rest) (s.step x.getLast? b) (x.length + 1) rest <;> simp [h]

theorem visits?_trail {s : State} (hs : s.escaped = false) (hq : ∀ q ∈ s.quote, q.toNat < 128)
    {bs : List UInt8} (hbs : ∀ b ∈ bs, IsTrail b) (x z : List UInt8) :
    ∃ idle : List Visit, (∀ v ∈ idle, v.Idle s) ∧
      visits? (x ++ bs ++ z) s x.length (bs ++ z) =
        (visits? (x ++ bs ++ z) s (x ++ bs).length z).map (idle ++ ·) := by
  induction bs generalizing x with
  | nil => exact ⟨[], by simp, by simp⟩
  | cons b bs ih =>
    obtain ⟨hb, hbs⟩ := List.forall_mem_cons.1 hbs
    obtain ⟨idle, hidle, h⟩ := ih hbs (x ++ [b])
    refine ⟨⟨x.length, b, s, s⟩ :: idle, List.forall_mem_cons.2 ⟨⟨hb, rfl, rfl⟩, hidle⟩, ?_⟩
    have step := visits?_cons x s b (bs ++ z)
    rw [step_trail hs hq _ hb] at step
    simp only [List.append_assoc, List.cons_append, List.nil_append] at h step ⊢
    rw [step, h, Option.map_map]
    rfl

theorem escaped_step {c : Char} (hc : 128 ≤ c.toNat) (s : Nesting) :
    (State.ofNesting (s.step c)).escaped = false := by
  have hne : c ≠ '\\' := by
    rintro rfl
    exact absurd hc (by decide)
  unfold Nesting.step
  split
  · rfl
  · rw [if_neg hne]
    split
    · rfl
    · rename_i hm _
      simp only [State.ofNesting, hm]
  · split <;> rfl

theorem Follows.quote {s : Nesting} {previous : Option UInt8} (h : Follows s previous) :
    ∀ q ∈ (State.ofNesting s).quote, q.toNat < 128 := by
  intro q hq
  obtain ⟨depth, mode⟩ := s
  cases mode with
  | code => cases hq
  | literal a escaped =>
    obtain rfl := Option.some.inj hq
    have ha := onlyAscii_isQuote a h
    rwa [Text.toNat_toUInt8 ha]

/-- A scan ends, and it sees what its characters have it see. -/
theorem exists_visits {s : Nesting} {x : Text} (h : Follows s (utf8 x).getLast?) (t : Text) :
    ∃ visits, visits? (utf8 (x ++ t)) (.ofNesting s) (bytes x) (utf8 t) = some visits ∧
      Traces s (bytes x) t visits := by
  induction t generalizing s x with
  | nil => exact ⟨[], rfl, .nil s _⟩
  | cons c r ih =>
    have last : (utf8 (x ++ [c])).getLast? = (String.utf8EncodeChar c).getLast? := by
      rw [Text.utf8_append, utf8, utf8, List.flatMap_singleton, Text.utf8EncodeChar_eq,
        List.getLast?_append, List.getLast?_cons, Option.some_or]
    have next : Follows (s.step c) (utf8 (x ++ [c])).getLast? := last ▸ h.step c
    obtain ⟨visits, hv, traces⟩ := ih next
    -- No byte inside the character changes the state that its lead leaves, as none is escaped.
    obtain ⟨idle, hidle, skip⟩ : ∃ idle : List Visit,
        (∀ v ∈ idle, v.Idle (.ofNesting (s.step c))) ∧
        visits? (utf8 x ++ [lead c] ++ trail c ++ utf8 r) (.ofNesting (s.step c))
            (utf8 x ++ [lead c]).length (trail c ++ utf8 r) =
          (visits? (utf8 x ++ [lead c] ++ trail c ++ utf8 r) (.ofNesting (s.step c))
            (utf8 x ++ [lead c] ++ trail c).length (utf8 r)).map (idle ++ ·) := by
      by_cases hc : c.toNat < 128
      · exact ⟨[], by simp, by simp [Text.trail_ascii hc]⟩
      · exact visits?_trail (escaped_step (Nat.le_of_not_lt hc) s) next.quote
          (Text.isTrail_of_mem_trail c) _ _
    refine ⟨⟨bytes x, lead c, .ofNesting s, .ofNesting (s.step c)⟩ :: (idle ++ visits), ?_, ?_⟩
    · have step := visits?_cons (utf8 x) (.ofNesting s) (lead c) (trail c ++ utf8 r)
      have size : (utf8 x ++ lead c :: trail c).length = bytes (x ++ [c]) := by
        rw [← Text.length_utf8, Text.utf8_append, Text.utf8_cons, Text.utf8_nil, List.append_nil]
      rw [step_lead h] at step
      simp only [Text.utf8_append, Text.utf8_cons, List.append_assoc, List.nil_append,
        List.cons_append] at hv step skip ⊢
      rw [← Text.length_utf8, step, skip, size, hv]
      rfl
    · rw [Text.bytes_append] at traces
      exact .cons hidle traces

theorem exists_scan (t : Text) : ∃ visits, scan? t = some visits ∧ Traces .outside 0 t visits :=
  exists_visits (s := .outside) (x := []) rfl t

end WebSurface.Checked
