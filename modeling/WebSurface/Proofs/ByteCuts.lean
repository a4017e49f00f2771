import WebSurface.Proofs.ByteNesting
import WebSurface.Proofs.TokenNesting
set_option autoImplicit false

namespace WebSurface.Checked

open Text (utf8 bytes lead trail)

def pushTrimmed? (t : Text) (start stop : Nat) (pieces : List Segment) : Option (List Segment) := do
  let raw ← t.slice? ⟨start, stop⟩
  if raw.trim.isEmpty then return pieces
  let leading ← minus? raw.bytes raw.trimStart.bytes
  return pieces ++ [⟨start + leading, raw.trim⟩]

/-- What a scan that cuts a text has found: where the piece starts that it is in, and the pieces
before. The memory is what its rule keeps from one byte to the next. -/
structure Found (τ : Type) where
  memory : τ
  start : Nat
  pieces : List Segment

section Cut

variable {τ : Type} (t : Text) (rule : τ → Visit → τ × Cut)

def cutAt? (f : Found τ) (v : Visit) : Option (Found τ) :=
  match rule f.memory v with
  | (memory, .keep) => some ⟨memory, f.start, f.pieces⟩
  | (memory, .drop) => do
    let pieces ← pushTrimmed? t f.start v.offset f.pieces
    return ⟨memory, v.offset + 1, pieces⟩
  | (memory, .close) => do
    let pieces ← pushTrimmed? t f.start (v.offset + 1) f.pieces
    return ⟨memory, v.offset + 1, pieces⟩

def lastPiece? (f : Found τ) : Option (List Segment) :=
  pushTrimmed? t f.start (utf8 t).length f.pieces

/-- The pieces of a text that a rule for bytes cuts. -/
def cut? (memory : τ) : Option (List Segment) := do
  let visits ← scan? t
  let found ← visits.foldlM (cutAt? t rule) ⟨memory, 0, []⟩
  lastPiece? t found

end Cut

def splitTopLevel? (delimiter : UInt8) (t : Text) : Option (List Segment) :=
  cut? t (fun _ v => ((), if v.before.topLevel && v.byte == delimiter then .drop else .keep)) ()

def atStatement (assigned : Bool) (v : Visit) : Bool × Cut :=
  if v.before.topLevel && v.byte == ';'.toUInt8 then (false, .drop)
  else if v.before.topLevel && v.byte == '='.toUInt8 then (true, .keep)
  else if !assigned && v.byte == '}'.toUInt8 && v.after.topLevel then (assigned, .close)
  else (assigned, .keep)

def splitStatements? (t : Text) : Option (List Segment) := cut? t atStatement false

theorem pushTrimmed?_eq (a p r : Text) (pieces : List Segment) :
    pushTrimmed? (a ++ p ++ r) (bytes a) (bytes a + bytes p) pieces =
      some (pieces ++ (Segment.trim? ⟨bytes a, p⟩).toList) := by
  have raw := slice?_between a p r
  rw [Text.bytes_append] at raw
  have shorter : bytes p.trimStart ≤ bytes p := by
    have split := congrArg bytes (List.takeWhile_append_dropWhile (p := Text.isBlank) (l := p))
    rw [Text.bytes_append] at split
    exact Nat.le.intro (by rw [Nat.add_comm]; exact split)
  simp only [pushTrimmed?, raw, Segment.trim?, Segment.trim, List.isEmpty_iff]
  by_cases h : p.trim = [] <;> simp [h, minus?, shorter]

/-- A rule for bytes does at the lead of a character what a cutter does at the character, and
nothing inside characters. -/
structure Applies {σ τ : Type} (rule : τ → Visit → τ × Cut) (k : Cutter σ) (nesting : σ → Nesting)
    (memory : σ → τ) : Prop where
  start : nesting k.start = .outside
  step (s : σ) (c : Char) : nesting (k.next s c).1 = (nesting s).step c
  char (s : σ) (n : Nat) (c : Char) :
    rule (memory s) ⟨n, lead c, .ofNesting (nesting s), .ofNesting ((nesting s).step c)⟩ =
      (memory (k.next s c).1, (k.next s c).2)
  idle (m : τ) {s : State} {v : Visit} : v.Idle s → rule m v = (m, .keep)
  ascii (s : σ) (c : Char) : (k.next s c).2 ≠ .keep → c.toNat < 128

theorem foldlM_idle {α β : Type} {f : β → α → Option β} {b : β} {idle : List α}
    (h : ∀ a ∈ idle, f b a = some b) (as : List α) :
    (idle ++ as).foldlM f b = as.foldlM f b := by
  induction idle with
  | nil => rfl
  | cons a idle ih =>
    obtain ⟨ha, hidle⟩ := List.forall_mem_cons.1 h
    rw [List.cons_append, List.foldlM_cons, ha]
    exact ih hidle

theorem first_piecesFrom {σ : Type} (k : Cutter σ) (s : σ) (n : Nat) (t : Text) :
    (⟨n, (k.piecesFrom s n t).1.text⟩ : Segment) = (k.piecesFrom s n t).1 := by
  cases t with
  | nil => rfl
  | cons c r =>
    rw [Cutter.piecesFrom]
    cases (k.next s c).2 <;> rfl

section Applies

variable {σ τ : Type} {rule : τ → Visit → τ × Cut} {k : Cutter σ} {nesting : σ → Nesting}
  {memory : σ → τ} (h : Applies rule k nesting memory)

include h

theorem Applies.cutAt?_lead (a p r : Text) (s : σ) (c : Char) (pieces : List Segment) :
    cutAt? (a ++ p ++ c :: r) rule ⟨memory s, bytes a, pieces⟩
        ⟨bytes (a ++ p), lead c, .ofNesting (nesting s), .ofNesting ((nesting s).step c)⟩ =
      some (match (k.next s c).2 with
        | .keep => ⟨memory (k.next s c).1, bytes a, pieces⟩
        | .drop => ⟨memory (k.next s c).1, bytes (a ++ p ++ [c]),
            pieces ++ (Segment.trim? ⟨bytes a, p⟩).toList⟩
        | .close => ⟨memory (k.next s c).1, bytes (a ++ p ++ [c]),
            pieces ++ (Segment.trim? ⟨bytes a, p ++ [c]⟩).toList⟩) := by
  have next (hc : (k.next s c).2 ≠ .keep) : bytes (a ++ p) + 1 = bytes (a ++ p ++ [c]) := by
    simp [Text.utf8Size_ascii (h.ascii s c hc), Nat.add_assoc]
  rw [cutAt?, h.char]
  cases hc : (k.next s c).2 with
  | keep => rfl
  | drop =>
    have pushed := pushTrimmed?_eq a p (c :: r) pieces
    rw [← Text.bytes_append] at pushed
    simp only [pushed, next (by simp [hc]), Option.bind_eq_bind, Option.bind_some, Option.pure_def]
  | close =>
    have pushed := pushTrimmed?_eq a (p ++ [c]) r pieces
    rw [← Text.bytes_append, ← List.append_assoc, List.append_assoc _ [c]] at pushed
    simp only [next (by simp [hc]), Option.bind_eq_bind, Option.pure_def]
    rw [← List.singleton_append, pushed]
    rfl

theorem Applies.foldlM_eq {s : σ} {a p r : Text} {visits : List Visit}
    (traces : Traces (nesting s) (bytes (a ++ p)) r visits) (pieces : List Segment) :
    (visits.foldlM (cutAt? (a ++ p ++ r) rule) ⟨memory s, bytes a, pieces⟩).bind
        (lastPiece? (a ++ p ++ r)) =
      some (pieces ++ (⟨bytes a, p ++ (k.piecesFrom s (bytes (a ++ p)) r).1.text⟩ ::
        (k.piecesFrom s (bytes (a ++ p)) r).2).filterMap Segment.trim?) := by
  -- The piece that is open starts after `a` and has been read up to `p`.
  induction r generalizing s a p visits pieces with
  | nil =>
    cases traces
    have last := pushTrimmed?_eq a p [] pieces
    rw [← Text.bytes_append] at last
    simp only [List.foldlM_nil, Option.pure_def, Option.bind_some, lastPiece?, Text.length_utf8,
      List.append_nil] at last ⊢
    rw [last]
    cases hp : Segment.trim? ⟨bytes a, p⟩ <;> simp [Cutter.piecesFrom, hp]
  | cons c r ih =>
    cases traces with
    | @cons _ _ _ _ idle visits hidle traces =>
      rw [← h.step] at traces
      have skip (f : Found τ) : (idle ++ visits).foldlM (cutAt? (a ++ p ++ c :: r) rule) f =
          visits.foldlM (cutAt? (a ++ p ++ c :: r) rule) f :=
        foldlM_idle (fun v hv => by rw [cutAt?, h.idle f.memory (hidle v hv)]) visits
      have size : bytes (a ++ p) + c.utf8Size = bytes (a ++ p ++ [c]) := by simp [Nat.add_assoc]
      have same : a ++ p ++ c :: r = a ++ p ++ [c] ++ r := by simp
      simp only [List.foldlM_cons, h.cutAt?_lead, Option.bind_eq_bind, Option.bind_some, skip]
      rw [Cutter.piecesFrom, size, same]
      rw [size] at traces
      cases hc : (k.next s c).2 with
      | keep =>
        have := ih (a := a) (p := p ++ [c]) (by rwa [← List.append_assoc]) pieces
        simp only [← List.append_assoc] at this ⊢
        rw [this]
        simp
      | drop =>
        have := ih (a := a ++ p ++ [c]) (p := []) (by rwa [List.append_nil])
          (pieces ++ (Segment.trim? ⟨bytes a, p⟩).toList)
        simp only [List.append_nil, List.nil_append] at this ⊢
        rw [this, first_piecesFrom]
        cases hp : Segment.trim? ⟨bytes a, p⟩ <;> simp [hp]
      | close =>
        have := ih (a := a ++ p ++ [c]) (p := []) (by rwa [List.append_nil])
          (pieces ++ (Segment.trim? ⟨bytes a, p ++ [c]⟩).toList)
        simp only [List.append_nil, List.nil_append] at this ⊢
        rw [this, first_piecesFrom]
        cases hp : Segment.trim? ⟨bytes a, p ++ [c]⟩ <;> simp [hp]

theorem Applies.cut?_eq (t : Text) : cut? t rule (memory k.start) = some (k.segments t) := by
  obtain ⟨visits, hv, traces⟩ := exists_scan t
  have cut := h.foldlM_eq (a := []) (p := []) (by rwa [h.start]) []
  simp only [List.append_nil, List.nil_append, Text.bytes_nil, first_piecesFrom] at cut
  rw [cut?, hv]
  exact cut

end Applies

theorem Visit.Idle.beq {s : State} {v : Visit} (hv : v.Idle s) {d : Char} (hd : d.toNat < 128) :
    (v.byte == d.toUInt8) = false := Text.trail_beq hd hv.trail

@[simp] theorem splitTopLevel?_eq {d : Char} (hd : d.toNat < 128) (t : Text) :
    splitTopLevel? d.toUInt8 t = some (splitTopLevel d t) := by
  have applies : Applies
      (fun (_ : Unit) v => ((), if v.before.topLevel && v.byte == d.toUInt8 then .drop else .keep))
      (atTopLevel d) (fun s => s) (fun _ => ()) := by
    refine ⟨rfl, fun _ _ => rfl, fun s n c => ?_, fun _ _ v hv => ?_, fun s c hc => ?_⟩
    · simp only [topLevel_ofNesting, Text.lead_beq hd]
      rfl
    · simp [hv.beq hd]
    · simp only [atTopLevel] at hc
      split at hc
      · rename_i hcut
        rw [Bool.and_eq_true, beq_iff_eq] at hcut
        rwa [hcut.2]
      · exact absurd rfl hc
  exact applies.cut?_eq t

theorem splitStatements?_eq (t : Text) : splitStatements? t = some (splitStatements t) := by
  have semicolon : ';'.toNat < 128 := by decide
  have equals : '='.toNat < 128 := by decide
  have brace : '}'.toNat < 128 := by decide
  have applies : Applies atStatement atStatements Prod.fst Prod.snd := by
    refine ⟨rfl, fun s c => ?_, fun s n c => ?_, fun _ _ v hv => ?_, fun s c hc => ?_⟩
    · obtain ⟨s, assigned⟩ := s
      simp only [atStatements]
      repeat' split
      all_goals rfl
    · obtain ⟨s, assigned⟩ := s
      simp only [atStatement, atStatements, topLevel_ofNesting, Text.lead_beq semicolon,
        Text.lead_beq equals, Text.lead_beq brace]
      repeat' split
      all_goals rfl
    · simp [atStatement, hv.beq semicolon, hv.beq equals, hv.beq brace]
    · simp only [atStatements] at hc
      split at hc
      · rename_i hcut
        rw [Bool.and_eq_true, beq_iff_eq] at hcut
        exact hcut.2 ▸ semicolon
      · split at hc
        · exact absurd rfl hc
        · split at hc
          · rename_i hcut
            simp only [Bool.and_eq_true, beq_iff_eq] at hcut
            exact hcut.1.2 ▸ brace
          · exact absurd rfl hc
  exact applies.cut?_eq t

/-! ### What is found in a text -/

def findTopLevel? (target : UInt8) (t : Text) : Option (Option Nat) := do
  let visits ← scan? t
  return (visits.find? fun v => v.before.topLevel && v.byte == target).map Visit.offset

def beginsAt? (needle : Text) (first : UInt8) (t : Text) (v : Visit) : Option Bool :=
  if v.before.topLevel && v.byte == first then (from? t v.offset).map (Text.startsWith needle)
  else some false

def containsTopLevel? (needle t : Text) : Option Bool :=
  match (utf8 needle).head? with
  | none => some false
  | some first => do
    let visits ← scan? t
    visits.anyM (beginsAt? needle first t)

def matchingClose? (t : Text) (n : Nat) : Option (Option Nat) :=
  if (utf8 t)[n]?.any fun b => isOpener (.ofUInt8 b) then do
    let visits ← visits? (utf8 t) .outside n ((utf8 t).drop n)
    return (visits.find? fun v => v.before.depth == 1 && v.after.topLevel).map Visit.offset
  else some none

def depthAfter? (t : Text) : Option Nat := do
  let visits ← scan? t
  return (visits.getLast?.elim State.outside Visit.after).depth

section Traces

variable {s : Nesting} {n : Nat} {t : Text} {visits : List Visit}

/-- What is looked for at the lead of each character is found at the same characters. -/
theorem Traces.find?_eq (traces : Traces s n t visits) {p : Nesting → Char → Bool}
    {q : Visit → Bool}
    (char : ∀ s n c, q ⟨n, lead c, .ofNesting s, .ofNesting (s.step c)⟩ = p s c)
    (idle : ∀ {s v}, v.Idle s → q v = false) :
    (visits.find? q).map Visit.offset = Nesting.offset? p s n t := by
  induction traces with
  | nil => rfl
  | @cons s n c r skipped visits hskipped _ ih =>
    have none : skipped.find? q = none :=
      List.find?_eq_none.2 fun v hv => by simp [idle (hskipped v hv)]
    rw [List.find?_cons, char, Nesting.offset?, List.find?_append, none, Option.none_or, ← ih]
    cases p s c <;> rfl

theorem Traces.getLast?_eq (traces : Traces s n t visits) :
    visits.getLast?.elim (State.ofNesting s) Visit.after = .ofNesting (s.run t) := by
  induction traces with
  | nil => rfl
  | @cons s n c r skipped visits hskipped _ ih =>
    rw [← List.cons_append, List.getLast?_append, Nesting.run_cons, ← ih]
    cases visits.getLast? with
    | some v => rfl
    | none =>
      rw [Option.none_or, List.getLast?_cons]
      cases hv : skipped.getLast? with
      | none => rfl
      | some v => exact (hskipped v (List.mem_of_getLast? hv)).after

end Traces

theorem anyM_idle {α : Type} {f : α → Option Bool} {idle : List α}
    (h : ∀ a ∈ idle, f a = some false) (as : List α) : (idle ++ as).anyM f = as.anyM f := by
  induction idle with
  | nil => rfl
  | cons a idle ih =>
    obtain ⟨ha, hidle⟩ := List.forall_mem_cons.1 h
    rw [List.cons_append, List.anyM, ha]
    exact ih hidle

theorem beginsAt?_lead (needle : Text) (d : Char) (s : Nesting) (x : Text) (c : Char) (r : Text)
    (after : State) :
    beginsAt? (d :: needle) (lead d) (x ++ c :: r) ⟨bytes x, lead c, .ofNesting s, after⟩ =
      some (s.topLevel && Text.startsWith (d :: needle) (c :: r)) := by
  rw [beginsAt?, topLevel_ofNesting, from?_bytes]
  cases s.topLevel with
  | false => rfl
  | true =>
    by_cases hcd : c = d
    · simp [hcd]
    · have other : Text.startsWith (d :: needle) (c :: r) = false := by
        simp [Text.startsWith, Text.strip?, Ne.symm hcd]
      simp [other]

theorem Traces.anyM_eq {s : Nesting} {x t : Text} {visits : List Visit}
    (traces : Traces s (bytes x) t visits) (d : Char) (needle : Text) :
    visits.anyM (beginsAt? (d :: needle) (lead d) (x ++ t)) =
      some (Nesting.meets (d :: needle) s t) := by
  induction t generalizing s x visits with
  | nil =>
    cases traces
    rfl
  | cons c r ih =>
    cases traces with
    | @cons _ _ _ _ skipped visits hskipped traces =>
      have size : bytes x + c.utf8Size = bytes (x ++ [c]) := by simp
      rw [size] at traces
      have rest := ih traces
      rw [List.append_assoc, List.singleton_append] at rest
      have idle : ∀ v ∈ skipped, beginsAt? (d :: needle) (lead d) (x ++ c :: r) v = some false := by
        intro v hv
        have other : (v.byte == lead d) = false := by
          rw [beq_eq_false_iff_ne]
          intro h
          exact Text.not_isTrail_lead d (h ▸ (hskipped v hv).trail)
        simp [beginsAt?, other]
      rw [List.anyM, beginsAt?_lead, Nesting.meets, anyM_idle idle, rest]
      cases s.topLevel && Text.startsWith (d :: needle) (c :: r) <;> rfl

@[simp] theorem findTopLevel?_eq {d : Char} (hd : d.toNat < 128) (t : Text) :
    findTopLevel? d.toUInt8 t = some (findTopLevel d t) := by
  obtain ⟨visits, hv, traces⟩ := exists_scan t
  have found := traces.find?_eq (p := fun s c => s.topLevel && c == d)
    (q := fun v => v.before.topLevel && v.byte == d.toUInt8)
    (fun s n c => by rw [topLevel_ofNesting, Text.lead_beq hd]) (fun hv => by simp [hv.beq hd])
  simp only [findTopLevel?, hv, Option.bind_eq_bind, Option.bind_some, found,
    findTopLevel_eq_offset?]
  rfl

@[simp] theorem depthAfter?_eq (t : Text) : depthAfter? t = some (depthAfter t) := by
  obtain ⟨visits, hv, traces⟩ := exists_scan t
  have last : visits.getLast?.elim State.outside Visit.after = .ofNesting (Nesting.outside.run t) :=
    traces.getLast?_eq
  simp only [depthAfter?, hv, Option.bind_eq_bind, Option.bind_some, last, depth_ofNesting]
  rfl

@[simp] theorem containsTopLevel?_eq (needle t : Text) :
    containsTopLevel? needle t = some (containsTopLevel needle t) := by
  cases needle with
  | nil => rfl
  | cons d needle =>
    obtain ⟨visits, hv, traces⟩ := exists_scan t
    have any := Traces.anyM_eq (x := []) traces d needle
    simp only [containsTopLevel?, Text.utf8_cons, List.head?_cons, hv, Option.bind_eq_bind,
      Option.bind_some]
    exact any

theorem matchingClose_of_not_isOpener {t : Text} {n : Nat}
    (h : ((utf8 t)[n]?.any fun b => isOpener (.ofUInt8 b)) = false) :
    matchingClose t n = none := by
  rw [matchingClose, Option.map_eq_none_iff, Option.bind_eq_none_iff]
  rintro ⟨a, b⟩ hab
  obtain ⟨rfl, rfl⟩ := Text.splitAt?_eq_some_iff.1 hab
  cases b with
  | nil => rfl
  | cons c r =>
    rw [Text.getElem?_utf8, Option.any_some, onlyAscii_isOpener.lead] at h
    simp [group?, h]

theorem matchingClose?_of_isOpener {a r : Text} {c : Char} (hc : isOpener c) :
    matchingClose? (a ++ c :: r) (bytes a) = some (matchingClose (a ++ c :: r) (bytes a)) := by
  -- What stands before the bracket makes no difference to the state after it.
  let s : Nesting := ⟨0, .code ((utf8 a).getLast? == some '='.toUInt8)⟩
  obtain ⟨visits, hv, traces⟩ := exists_visits (s := s) (x := a) rfl (c :: r)
  have found := traces.find?_eq (p := fun s c => s.depth == 1 && (s.step c).topLevel)
    (q := fun v => v.before.depth == 1 && v.after.topLevel)
    (fun s n c => by rw [topLevel_ofNesting, depth_ofNesting]) (fun {s v} hv => by
      rw [hv.before, hv.after, State.topLevel]
      by_cases h : s.depth = 1 <;> simp [h])
  have first : (s.depth == 1 && (s.step c).topLevel) = false := rfl
  rw [Nesting.offset?_of_not first, Nesting.step_opener hc,
    Text.utf8Size_ascii (onlyAscii_isOpener c hc), ← matchingClose_eq_offset? hc] at found
  simp only [matchingClose?, Text.getElem?_utf8, Option.any_some, onlyAscii_isOpener.lead, hc,
    if_true, Text.drop_utf8]
  rw [← found]
  exact congrArg (Option.bind · _) hv

@[simp] theorem matchingClose?_eq (t : Text) (n : Nat) :
    matchingClose? t n = some (matchingClose t n) := by
  cases h : (utf8 t)[n]?.any fun b => isOpener (.ofUInt8 b) with
  | false =>
    rw [matchingClose?, h, matchingClose_of_not_isOpener h]
    rfl
  | true =>
    cases hb : (utf8 t)[n]? with
    | none =>
      rw [hb] at h
      cases h
    | some b =>
      rw [hb, Option.any_some] at h
      have ascii := onlyAscii_isOpener _ h
      rw [Text.toNat_ofUInt8] at ascii
      obtain ⟨a, c, r, rfl, rfl, rfl⟩ := Text.exists_lead hb fun ht => absurd ht.1 (by omega)
      rw [onlyAscii_isOpener.lead] at h
      exact matchingClose?_of_isOpener h

end WebSurface.Checked
