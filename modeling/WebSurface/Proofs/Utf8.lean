import WebSurface.Names
import WebSurface.Span
set_option autoImplicit false

/-!
The bytes of a text.

An ASCII character is one byte. The bytes of any other character are no ASCII characters, and only
the first of them, its lead, is the first byte of any character. So whatever looks for ASCII
characters byte by byte finds all of them and nothing else.
-/

namespace WebSurface

theorem ofNat_cons_lt {m n : Nat} {u v : List UInt8} (hn : n < 256) (hle : m ≤ n)
    (h : m = n → u < v) : UInt8.ofNat m :: u < UInt8.ofNat n :: v := by
  rw [List.cons_lt_cons_iff]
  rcases Nat.lt_or_eq_of_le hle with hlt | rfl
  · refine .inl ?_
    rw [UInt8.lt_iff_toNat_lt, UInt8.toNat_ofNat', UInt8.toNat_ofNat']
    omega
  · exact .inr ⟨rfl, h rfl⟩

/-- The bytes of two characters differ before those of either end. -/
theorem utf8EncodeChar_lt {c d : Char} (h : c < d) (u v : List UInt8) :
    String.utf8EncodeChar c ++ u < String.utf8EncodeChar d ++ v := by
  have hlt : c.val.toNat < d.val.toNat := h
  have hd : d.val.toNat < 0x110000 := by
    rcases d.valid with hd | ⟨-, hd⟩
    · exact Nat.lt_trans hd (by decide)
    · exact hd
  clear h
  rw [String.utf8EncodeChar.eq_1, String.utf8EncodeChar.eq_1]
  generalize c.val.toNat = m at *
  generalize d.val.toNat = n at *
  -- By the number of bytes of `c`; `d` has as many or more, and a larger lead if it has more.
  by_cases h₁ : m ≤ 127
  · rw [if_pos h₁]
    repeat' split
    all_goals exact ofNat_cons_lt (by omega) (by omega) fun e => by omega
  by_cases h₂ : m ≤ 2047
  · rw [if_neg h₁, if_pos h₂, if_neg (show ¬n ≤ 127 by omega)]
    split
    · exact ofNat_cons_lt (by omega) (by omega) fun _ =>
        ofNat_cons_lt (by omega) (by omega) fun _ => by omega
    · split
      all_goals exact ofNat_cons_lt (by omega) (by omega) fun _ => by omega
  by_cases h₃ : m ≤ 65535
  · rw [if_neg h₁, if_neg h₂, if_pos h₃, if_neg (show ¬n ≤ 127 by omega),
      if_neg (show ¬n ≤ 2047 by omega)]
    split
    · exact ofNat_cons_lt (by omega) (by omega) fun _ =>
        ofNat_cons_lt (by omega) (by omega) fun _ =>
          ofNat_cons_lt (by omega) (by omega) fun _ => by omega
    · exact ofNat_cons_lt (by omega) (by omega) fun _ => by omega
  · rw [if_neg h₁, if_neg h₂, if_neg h₃, if_neg (show ¬n ≤ 127 by omega),
      if_neg (show ¬n ≤ 2047 by omega), if_neg (show ¬n ≤ 65535 by omega)]
    exact ofNat_cons_lt (by omega) (by omega) fun _ =>
      ofNat_cons_lt (by omega) (by omega) fun _ =>
        ofNat_cons_lt (by omega) (by omega) fun _ =>
          ofNat_cons_lt (by omega) (by omega) fun _ => by omega

namespace Text

def utf8 (t : Text) : List UInt8 := t.flatMap String.utf8EncodeChar

theorem utf8_lt {a b : Text} (h : a < b) : a.utf8 < b.utf8 := by
  induction h with
  | @nil c b =>
    rw [utf8, utf8, List.flatMap_nil, List.flatMap_cons]
    cases he : String.utf8EncodeChar c with
    | nil => exact absurd he String.utf8EncodeChar_ne_nil
    | cons => exact List.nil_lt_cons _ _
  | cons _ ih => exact List.append_left_lt ih
  | rel hcd => exact utf8EncodeChar_lt hcd _ _

end Text

namespace NameSet

/-- A set of names lists them in the order of their bytes. -/
theorem ascending_utf8 (s : NameSet) :
    s.list.Pairwise fun a b => Text.utf8 a < Text.utf8 b :=
  s.ascending.imp Text.utf8_lt

end NameSet

def IsTrail (b : UInt8) : Prop := 128 ≤ b.toNat ∧ b.toNat < 192

def OnlyAscii (p : Char → Bool) : Prop := ∀ c, p c → c.toNat < 128

theorem onlyAscii_elem {s : Text} (hs : ∀ c ∈ s, c.toNat < 128) : OnlyAscii fun c => s.elem c :=
  fun c h => hs c (List.elem_iff.1 h)

theorem onlyAscii_beq {d : Char} (hd : d.toNat < 128) : OnlyAscii (· == d) := by
  intro c h
  rwa [beq_iff_eq.1 h]

namespace Text

theorem toNat_ofUInt8 (b : UInt8) : (Char.ofUInt8 b).toNat = b.toNat := rfl

theorem ofUInt8_toUInt8 {c : Char} (h : c.toNat < 128) : Char.ofUInt8 c.toUInt8 = c := by
  refine Char.ext (UInt32.toNat_inj.1 ?_)
  change c.val.toNat % 256 = c.val.toNat
  exact Nat.mod_eq_of_lt (Nat.lt_trans h (by decide))

theorem toNat_toUInt8 {c : Char} (h : c.toNat < 128) : c.toUInt8.toNat = c.toNat := by
  rw [← toNat_ofUInt8, ofUInt8_toUInt8 h]

def lead (c : Char) : UInt8 := (String.utf8EncodeChar c).head String.utf8EncodeChar_ne_nil

def trail (c : Char) : List UInt8 := (String.utf8EncodeChar c).tail

theorem utf8EncodeChar_eq (c : Char) : String.utf8EncodeChar c = lead c :: trail c :=
  (List.cons_head_tail String.utf8EncodeChar_ne_nil).symm

@[simp] theorem utf8_nil : utf8 [] = [] := rfl

theorem utf8_cons (c : Char) (r : Text) : utf8 (c :: r) = lead c :: (trail c ++ utf8 r) := by
  rw [utf8, List.flatMap_cons, utf8EncodeChar_eq]
  rfl

@[simp] theorem utf8_append (a b : Text) : utf8 (a ++ b) = utf8 a ++ utf8 b := List.flatMap_append

@[simp] theorem length_utf8 (t : Text) : (utf8 t).length = bytes t := by
  induction t with
  | nil => rfl
  | cons c r ih =>
    rw [utf8, List.flatMap_cons, List.length_append, String.length_utf8EncodeChar, ← utf8, ih]
    rfl

theorem length_trail (c : Char) : (trail c).length + 1 = c.utf8Size := by
  rw [← String.length_utf8EncodeChar, utf8EncodeChar_eq, List.length_cons]

theorem encode_ascii {c : Char} (h : c.toNat < 128) : String.utf8EncodeChar c = [c.toUInt8] := by
  have : c.val.toNat ≤ 127 := Nat.le_of_lt_succ h
  rw [String.utf8EncodeChar.eq_1, if_pos this]
  rfl

theorem utf8Size_ascii {c : Char} (h : c.toNat < 128) : c.utf8Size = 1 := by
  rw [← String.length_utf8EncodeChar, encode_ascii h, List.length_singleton]

theorem lead_ascii {c : Char} (h : c.toNat < 128) : lead c = c.toUInt8 := by
  simp only [lead, encode_ascii h, List.head_cons]

theorem trail_ascii {c : Char} (h : c.toNat < 128) : trail c = [] := by
  simp only [trail, encode_ascii h, List.tail_cons]

theorem exists_encode_wide {c : Char} (h : 128 ≤ c.toNat) :
    ∃ b bs, String.utf8EncodeChar c = b :: bs ∧ 192 ≤ b.toNat ∧ ∀ x ∈ bs, IsTrail x := by
  have hle : 128 ≤ c.val.toNat := h
  rw [String.utf8EncodeChar.eq_1]
  generalize c.val.toNat = n at hle
  clear h
  have trails (ms : List Nat) :
      ∀ x ∈ ms.map fun m => UInt8.ofNat (m % 64 + 128), IsTrail x := by
    intro x hx
    obtain ⟨m, -, rfl⟩ := List.mem_map.1 hx
    rw [IsTrail, UInt8.toNat_ofNat']
    omega
  rw [if_neg (show ¬n ≤ 127 by omega)]
  repeat' split
  · exact ⟨_, _, rfl, by rw [UInt8.toNat_ofNat']; omega, trails [n]⟩
  · exact ⟨_, _, rfl, by rw [UInt8.toNat_ofNat']; omega, trails [n / 64, n]⟩
  · exact ⟨_, _, rfl, by rw [UInt8.toNat_ofNat']; omega, trails [n / 4096, n / 64, n]⟩

theorem lead_wide {c : Char} (h : 128 ≤ c.toNat) : 192 ≤ (lead c).toNat := by
  obtain ⟨b, bs, he, hb, -⟩ := exists_encode_wide h
  simpa only [lead, he, List.head_cons] using hb

theorem isTrail_of_mem_trail (c : Char) : ∀ b ∈ trail c, IsTrail b := by
  intro b hb
  by_cases h : c.toNat < 128
  · rw [trail_ascii h] at hb
    cases hb
  · obtain ⟨x, bs, he, -, hbs⟩ := exists_encode_wide (Nat.le_of_not_lt h)
    rw [trail, he] at hb
    exact hbs b hb

theorem not_isTrail_lead (c : Char) : ¬IsTrail (lead c) := by
  rintro ⟨low, high⟩
  by_cases h : c.toNat < 128
  · rw [lead_ascii h, toNat_toUInt8 h] at low
    omega
  · have := lead_wide (Nat.le_of_not_lt h)
    omega

end Text

section Ascii

open Text

variable {p : Char → Bool} (hp : OnlyAscii p)

include hp

theorem OnlyAscii.lead (c : Char) : p (.ofUInt8 (lead c)) = p c := by
  by_cases h : c.toNat < 128
  · rw [lead_ascii h, ofUInt8_toUInt8 h]
  · have wide := lead_wide (Nat.le_of_not_lt h)
    have hc : p c = false := Bool.eq_false_iff.2 fun hc => h (hp c hc)
    rw [hc, Bool.eq_false_iff]
    intro hl
    have := hp _ hl
    rw [toNat_ofUInt8] at this
    omega

theorem OnlyAscii.trail {b : UInt8} (hb : IsTrail b) : p (.ofUInt8 b) = false := by
  rw [Bool.eq_false_iff]
  intro h
  have := hp _ h
  rw [toNat_ofUInt8] at this
  exact absurd hb.1 (by omega)

end Ascii

namespace Text

theorem ofUInt8_beq {d : Char} (hd : d.toNat < 128) (b : UInt8) :
    (Char.ofUInt8 b == d) = (b == d.toUInt8) := by
  rw [Bool.eq_iff_iff, beq_iff_eq, beq_iff_eq]
  constructor
  · rintro rfl
    exact UInt8.toNat_inj.1 (toNat_toUInt8 hd).symm
  · rintro rfl
    exact ofUInt8_toUInt8 hd

theorem lead_beq {d : Char} (hd : d.toNat < 128) (c : Char) : (lead c == d.toUInt8) = (c == d) := by
  rw [← ofUInt8_beq hd, (onlyAscii_beq hd).lead]

theorem trail_beq {d : Char} (hd : d.toNat < 128) {b : UInt8} (hb : IsTrail b) :
    (b == d.toUInt8) = false := by
  rw [← ofUInt8_beq hd, (onlyAscii_beq hd).trail hb]

theorem utf8_ascii_cons {d : Char} (hd : d.toNat < 128) (r : Text) :
    utf8 (d :: r) = d.toUInt8 :: utf8 r := by
  rw [utf8_cons, lead_ascii hd, trail_ascii hd, List.nil_append]

theorem utf8_spaces (n : Nat) : utf8 (List.replicate n ' ') = List.replicate n ' '.toUInt8 := by
  induction n with
  | zero => rfl
  | succ n ih => rw [List.replicate_succ, utf8_ascii_cons (by decide), ih, List.replicate_succ]

theorem head?_utf8_beq {d : Char} (hd : d.toNat < 128) (t : Text) :
    ((utf8 t).head? == some d.toUInt8) = (t.head? == some d) := by
  cases t with
  | nil => rfl
  | cons c r =>
    rw [utf8_cons, List.head?_cons, List.head?_cons, Option.some_beq_some, Option.some_beq_some,
      lead_beq hd]

theorem lead_pair {d e : Char} (hd : d.toNat < 128) (he : e.toNat < 128) (c : Char) (r : Text) :
    (lead c == d.toUInt8 && (trail c ++ utf8 r).head? == some e.toUInt8) =
      (c == d && r.head? == some e) := by
  rw [lead_beq hd]
  by_cases hc : c = d
  · rw [trail_ascii (hc ▸ hd), List.nil_append, head?_utf8_beq he]
  · rw [beq_false_of_ne hc, Bool.false_and, Bool.false_and]

theorem head?_pair {c d e : Char} {r : Text} (h : ∀ s, c = d → r = e :: s → False) :
    (c == d && r.head? == some e) = false := by
  cases r with
  | nil => simp
  | cons f s =>
    rw [Bool.and_eq_false_imp, List.head?_cons, Option.some_beq_some, beq_iff_eq]
    exact fun hc => beq_false_of_ne fun hf => h s hc (by rw [hf])

section Offset

variable (a : Text) (c : Char) (r : Text)

theorem drop_utf8 (a b : Text) : (utf8 (a ++ b)).drop (bytes a) = utf8 b := by
  rw [utf8_append, ← length_utf8, List.drop_left]

@[simp] theorem getElem?_utf8 : (utf8 (a ++ c :: r))[bytes a]? = some (lead c) := by
  simp [utf8_cons]

@[simp] theorem getElem?_utf8_succ :
    (utf8 (a ++ c :: r))[bytes a + 1]? = (trail c ++ utf8 r).head? := by
  rw [utf8_append, ← length_utf8, List.getElem?_append_right (Nat.le_add_right _ 1),
    Nat.add_sub_cancel_left, utf8_cons, List.getElem?_cons_succ, List.head?_eq_getElem?]

end Offset

theorem exists_lead {t : Text} {n : Nat} {b : UInt8} (h : (utf8 t)[n]? = some b)
    (hb : ¬IsTrail b) : ∃ a c r, t = a ++ c :: r ∧ n = bytes a ∧ b = lead c := by
  induction t generalizing n with
  | nil => cases h
  | cons c r ih =>
    rw [utf8_cons, ← List.cons_append] at h
    by_cases hn : n < (lead c :: trail c).length
    · rw [List.getElem?_append_left hn] at h
      cases n with
      | zero => exact ⟨[], c, r, rfl, rfl, (Option.some.inj h).symm⟩
      | succ n =>
        rw [List.getElem?_cons_succ] at h
        exact absurd (isTrail_of_mem_trail c b (List.mem_of_getElem? h)) hb
    · have size : (lead c :: trail c).length = c.utf8Size := length_trail c
      rw [List.getElem?_append_right (Nat.le_of_not_lt hn), size] at h
      obtain ⟨a, d, u, rfl, hn', rfl⟩ := ih h
      exact ⟨c :: a, d, u, rfl, by rw [bytes_cons]; omega, rfl⟩

/-- The text of these bytes, if they are those of a text. -/
def ofUtf8? (bs : List UInt8) : Option Text := bs.toByteArray.utf8Decode?.map Array.toList

@[simp] theorem ofUtf8?_utf8 (t : Text) : ofUtf8? (utf8 t) = some t := by
  have := List.utf8Decode?_utf8Encode (l := t)
  simp only [ofUtf8?, utf8]
  rw [← List.utf8Encode.eq_1, this]
  rfl

end Text

end WebSurface
