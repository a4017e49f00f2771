import Mathlib.Data.List.Basic
import Mathlib.Data.List.Induction
import Mathlib.Order.Bounds.Basic
import Mathlib.Order.MinMax
import WebSurface.Names
set_option autoImplicit false

/-!
The edit distance of two texts, and the candidate that it suggests.

`Edits n a b` says that `n` edits of one character each, wherever in the text they are, make `b` of
`a`. The least such `n` has a recursion on the first characters of both texts (`Edits.cost_le`,
`edits_cost`). The table of distances is filled row by row with that recursion on the texts read
backwards (`distance_eq_cost`), and a text read backwards takes as many edits (`Edits.reverse`). So
the suggested name is the first of the nearest (`nearest?_first_least`).
-/

namespace WebSurface.Suggestion

/-- The second text is the first with one character inserted, deleted or replaced. -/
inductive Edit : Text → Text → Prop
  | insert (x y : Text) (c : Char) : Edit (x ++ y) (x ++ c :: y)
  | delete (x y : Text) (c : Char) : Edit (x ++ c :: y) (x ++ y)
  | replace (x y : Text) (c d : Char) : Edit (x ++ c :: y) (x ++ d :: y)

/-- So many edits, one after another, make the second text of the first. -/
inductive Edits : Nat → Text → Text → Prop
  | refl (a : Text) : Edits 0 a a
  | snoc {n : Nat} {a b c : Text} : Edits n a b → Edit b c → Edits (n + 1) a c

theorem Edit.cons {a b : Text} (h : Edit a b) (c : Char) : Edit (c :: a) (c :: b) := by
  cases h with
  | insert x y d => exact .insert (c :: x) y d
  | delete x y d => exact .delete (c :: x) y d
  | replace x y d e => exact .replace (c :: x) y d e

theorem Edit.reverse {a b : Text} (h : Edit a b) : Edit a.reverse b.reverse := by
  cases h with
  | insert x y c => simpa using Edit.insert y.reverse x.reverse c
  | delete x y c => simpa using Edit.delete y.reverse x.reverse c
  | replace x y c d => simpa using Edit.replace y.reverse x.reverse c d

namespace Edits

theorem cons {n : Nat} {a b : Text} (h : Edits n a b) (c : Char) : Edits n (c :: a) (c :: b) := by
  induction h with
  | refl a => exact .refl (c :: a)
  | snoc _ edit ih => exact .snoc ih (edit.cons c)

theorem reverse {n : Nat} {a b : Text} (h : Edits n a b) : Edits n a.reverse b.reverse := by
  induction h with
  | refl a => exact .refl a.reverse
  | snoc _ edit ih => exact .snoc ih edit.reverse

theorem insertAll (b : Text) : Edits b.length [] b := by
  induction b with
  | nil => exact .refl []
  | cons d b ih => exact .snoc ih (.insert [] b d)

theorem deleteAll (a : Text) : Edits a.length a [] := by
  induction a with
  | nil => exact .refl []
  | cons c a ih => exact .snoc (ih.cons c) (.delete [] [] c)

end Edits

def cost : Text → Text → Nat
  | [], b => b.length
  | c :: a, [] => a.length + 1
  | c :: a, d :: b =>
    min (min (cost a (d :: b) + 1) (cost (c :: a) b + 1)) (cost a b + if c = d then 0 else 1)

@[simp] theorem cost_nil_left (b : Text) : cost [] b = b.length := by rw [cost]

@[simp] theorem cost_nil_right (a : Text) : cost a [] = a.length := by cases a <;> simp [cost]

theorem cost_cons_cons (c : Char) (a : Text) (d : Char) (b : Text) : cost (c :: a) (d :: b) =
    min (min (cost a (d :: b) + 1) (cost (c :: a) b + 1)) (cost a b + if c = d then 0 else 1) := by
  rw [cost]

theorem cost_self (a : Text) : cost a a = 0 := by
  induction a with
  | nil => simp
  | cons c a ih => simp [cost_cons_cons, ih]

theorem cost_insert_le (a : Text) (d : Char) (b : Text) : cost a (d :: b) ≤ cost a b + 1 := by
  cases a with
  | nil => simp
  | cons c a => rw [cost_cons_cons]; omega

theorem cost_cons_left_le (c : Char) (a b : Text) : cost (c :: a) b ≤ cost a b + 1 := by
  cases b with
  | nil => simp
  | cons d b => rw [cost_cons_cons]; omega

theorem cost_delete_le (a : Text) (d : Char) (b : Text) : cost a b ≤ cost a (d :: b) + 1 := by
  induction a with
  | nil => simp; omega
  | cons c a ih =>
    have := cost_cons_left_le c a b
    rw [cost_cons_cons]
    split <;> omega

theorem cost_replace_le (a : Text) (d e : Char) (b : Text) :
    cost a (e :: b) ≤ cost a (d :: b) + 1 := by
  induction a with
  | nil => simp
  | cons c a ih =>
    rw [cost_cons_cons, cost_cons_cons]
    split <;> split <;> omega

/-- What an edit can add to the distance it can also add behind another character. -/
theorem cost_cons_le {u v : Text} (h : ∀ a, cost a u ≤ cost a v + 1) (e : Char) (a : Text) :
    cost a (e :: u) ≤ cost a (e :: v) + 1 := by
  induction a with
  | nil => simpa using h []
  | cons c a ih =>
    have same := h a
    have more := h (c :: a)
    rw [cost_cons_cons, cost_cons_cons]
    omega

theorem cost_append_le {u v : Text} (h : ∀ a, cost a u ≤ cost a v + 1) (x a : Text) :
    cost a (x ++ u) ≤ cost a (x ++ v) + 1 := by
  induction x generalizing a with
  | nil => exact h a
  | cons e x ih => exact cost_cons_le ih e a

theorem Edit.cost_le {b c : Text} (h : Edit b c) (a : Text) : cost a c ≤ cost a b + 1 := by
  cases h with
  | insert x y d => exact cost_append_le (fun a => cost_insert_le a d y) x a
  | delete x y d => exact cost_append_le (fun a => cost_delete_le a d y) x a
  | replace x y d e => exact cost_append_le (fun a => cost_replace_le a d e y) x a

theorem Edits.cost_le {n : Nat} {a b : Text} (h : Edits n a b) : cost a b ≤ n := by
  induction h with
  | refl a => simp [cost_self]
  | @snoc n a b c _ edit ih =>
    have := edit.cost_le a
    omega

theorem edits_cost (a b : Text) : Edits (cost a b) a b := by
  fun_induction cost a b with
  | case1 b => exact .insertAll b
  | case2 c a => exact .deleteAll (c :: a)
  | case3 c a d b deleted inserted paired =>
    rcases min_choice (min (cost a (d :: b) + 1) (cost (c :: a) b + 1))
      (cost a b + if c = d then 0 else 1) with h | h
    · rw [h]
      rcases min_choice (cost a (d :: b) + 1) (cost (c :: a) b + 1) with h | h
      · rw [h]
        exact .snoc (deleted.cons c) (.delete [] (d :: b) c)
      · rw [h]
        exact .snoc inserted (.insert [] b d)
    · rw [h]
      split
      · rename_i same
        exact same ▸ paired.cons c
      · exact .snoc (paired.cons c) (.replace [] b c d)

/-- The distances of `x` to `y` and to what `y` becomes with each of the characters that follow; `x`
and `y` are read backwards. -/
def row (x y : Text) : Text → List Nat
  | [] => [cost x y]
  | d :: ds => cost x y :: row x (d :: y) ds

theorem head_row (x y ds : Text) : ∃ r, row x y ds = cost x y :: r := by
  cases ds with
  | nil => exact ⟨[], rfl⟩
  | cons d ds => exact ⟨row x (d :: y) ds, rfl⟩

theorem row_nil (y ds : Text) : row [] y ds = List.range' y.length (ds.length + 1) := by
  induction ds generalizing y with
  | nil => simp [row]
  | cons d ds ih => simp [row, ih, List.range'_succ]

theorem getLast_row (x y ds : Text) : (row x y ds).getLastD 0 = cost x (ds.reverse ++ y) := by
  induction ds generalizing y with
  | nil => simp [row]
  | cons d ds ih =>
    obtain ⟨r, hr⟩ := head_row x (d :: y) ds
    have rest := ih (d :: y)
    rw [hr] at rest
    simpa [row, hr] using rest

theorem rowFrom_row (c : Char) (x y ds : Text) :
    row (c :: x) y ds = cost (c :: x) y :: rowFrom c (cost (c :: x) y) ds (row x y ds) := by
  induction ds generalizing y with
  | nil => rfl
  | cons d ds ih =>
    obtain ⟨r, hr⟩ := head_row x (d :: y) ds
    rw [row, row, hr, rowFrom, ← cost_cons_cons, ih, hr]

theorem nextRow_row (b : Text) (c : Char) (x : Text) :
    nextRow b (row x [] b) c = row (c :: x) [] b := by
  obtain ⟨r, hr⟩ := head_row x [] b
  rw [rowFrom_row, nextRow]
  simp [hr]

theorem foldl_nextRow (b a x : Text) :
    a.foldl (nextRow b) (row x [] b) = row (a.reverse ++ x) [] b := by
  induction a generalizing x with
  | nil => rfl
  | cons c a ih => simp [nextRow_row, ih]

theorem distance_eq_cost (a b : Text) : distance a b = cost a.reverse b.reverse := by
  have first : List.range (b.length + 1) = row [] [] b := by
    rw [row_nil, List.range_eq_range']
    rfl
  rw [distance, first, foldl_nextRow, getLast_row]
  simp

/-- The distance is the least number of edits. -/
theorem isLeast_distance (a b : Text) : IsLeast {n | Edits n a b} (distance a b) := by
  rw [distance_eq_cost]
  constructor
  · simpa using (edits_cost a.reverse b.reverse).reverse
  · exact fun n h => h.reverse.cost_le

/-- The numbers of edits that make the candidate of the name, in whatever case their ASCII letters
are written. -/
def editCounts (name candidate : Text) : Set Nat :=
  {n | Edits n name.asciiLower candidate.asciiLower}

def apart (name candidate : Text) : Nat := distance name.asciiLower candidate.asciiLower

theorem isLeast_apart (name candidate : Text) :
    IsLeast (editCounts name candidate) (apart name candidate) :=
  isLeast_distance name.asciiLower candidate.asciiLower

/-- The candidate found among those read so far, with its distance: the first of the nearest, unless
all are too far away. -/
def IsNearest (name : Text) (candidates : List Text) : Option (Nat × Text) → Prop
  | none => ∀ c ∈ candidates, tolerance name < apart name c
  | some (n, c) => ∃ before after, candidates = before ++ c :: after ∧
      n = apart name c ∧ n ≤ tolerance name ∧ (∀ x ∈ before, n < apart name x) ∧
      ∀ x ∈ after, n ≤ apart name x

theorem IsNearest.far {name : Text} {candidates : List Text} {best : Option (Nat × Text)}
    (h : IsNearest name candidates best) {c : Text} (hc : tolerance name < apart name c) :
    IsNearest name (candidates ++ [c]) best := by
  cases best with
  | none => exact List.forall_mem_append.2 ⟨h, List.forall_mem_singleton.2 hc⟩
  | some p =>
    obtain ⟨before, after, rfl, hn, near, first, least⟩ := h
    refine ⟨before, after ++ [c], by simp, hn, near, first, ?_⟩
    exact List.forall_mem_append.2 ⟨least, List.forall_mem_singleton.2 (near.trans hc.le)⟩

theorem IsNearest.near {name : Text} {candidates : List Text} {best : Option (Nat × Text)}
    (h : IsNearest name candidates best) {c : Text} (hc : apart name c ≤ tolerance name) :
    IsNearest name (candidates ++ [c]) (nearer best (apart name c, c)) := by
  cases best with
  | none => exact ⟨candidates, [], rfl, rfl, hc, fun x hx => hc.trans_lt (h x hx), by simp⟩
  | some p =>
    obtain ⟨before, after, rfl, hn, near, first, least⟩ := h
    rw [nearer]
    split
    · rename_i kept
      refine ⟨before, after ++ [c], by simp, hn, near, first, ?_⟩
      exact List.forall_mem_append.2 ⟨least, List.forall_mem_singleton.2 kept⟩
    · rename_i closer
      have closer : apart name c < p.1 := Nat.lt_of_not_le closer
      refine ⟨before ++ p.2 :: after, [], rfl, rfl, hc, ?_, by simp⟩
      refine List.forall_mem_append.2 ⟨fun x hx => closer.trans (first x hx), ?_⟩
      exact List.forall_mem_cons.2 ⟨closer.trans_eq hn, fun x hx => closer.trans_le (least x hx)⟩

theorem isNearest_foldl (name : Text) (candidates : List Text) :
    IsNearest name candidates ((candidates.filterMap (near? name)).foldl nearer none) := by
  induction candidates using List.reverseRecOn with
  | nil => simp [IsNearest]
  | append_singleton candidates c ih =>
    rw [List.filterMap_append, List.foldl_append]
    by_cases hc : apart name c ≤ tolerance name
    · have kept : near? name c = some (apart name c, c) := if_pos hc
      simpa [kept] using ih.near hc
    · have dropped : near? name c = none := if_neg hc
      simpa [dropped] using ih.far (Nat.lt_of_not_le hc)

/-- A name is suggested unless all candidates are too many edits away, and it is the first of those
that are the fewest edits away. -/
theorem nearest?_first_least (name : Text) (candidates : List Text) :
    let k := max 1 (min 3 (name.length / 3))
    (nearest? name candidates = none ↔ ∀ c ∈ candidates, ∀ n ∈ editCounts name c, k < n) ∧
    ∀ c, nearest? name candidates = some c → ∃ before after n, candidates = before ++ c :: after ∧
      IsLeast (editCounts name c) n ∧ n ≤ k ∧
      (∀ x ∈ before, ∀ m ∈ editCounts name x, n < m) ∧
      ∀ x ∈ after, ∀ m ∈ editCounts name x, n ≤ m := by
  intro k
  have least := isLeast_apart name
  have found := isNearest_foldl name candidates
  rw [nearest?]
  cases h : (candidates.filterMap (near? name)).foldl nearer none with
  | none =>
    rw [h] at found
    refine ⟨iff_of_true rfl fun c hc n hn => ?_, fun c hc => by cases hc⟩
    exact (found c hc).trans_le ((least c).2 hn)
  | some p =>
    rw [h] at found
    obtain ⟨before, after, rfl, hn, near, first, later⟩ := found
    constructor
    · refine iff_of_false (by simp) fun far => ?_
      have := far p.2 (by simp) p.1 (hn ▸ (least p.2).1)
      exact absurd near (Nat.not_le_of_lt this)
    · rintro c ⟨⟩
      refine ⟨before, after, p.1, rfl, hn ▸ least p.2, near, fun x hx m hm => ?_,
        fun x hx m hm => ?_⟩
      · exact (first x hx).trans_le ((least x).2 hm)
      · exact (later x hx).trans ((least x).2 hm)

/-- Two candidates are one edit away, and the case of letters counts for nothing. -/
theorem nearest?_first_least_node :
    let name := "NODE".toList
    let far := "Notes".toList
    let node := "mode".toList
    let later := ["Nodes".toList, "x".toList]
    nearest? name (far :: node :: later) = some node ∧ IsLeast (editCounts name node) 1 ∧
      (∀ m ∈ editCounts name far, 1 < m) ∧ ∀ c ∈ later, ∀ m ∈ editCounts name c, 1 ≤ m := by
  intro name far node later
  obtain ⟨found, one, other, once⟩ : nearest? name (far :: node :: later) = some node ∧
      apart name node = 1 ∧ node ∉ [far] ∧ node ∉ later := by
    decide +kernel
  obtain ⟨before, after, n, whole, least, -, first, rest⟩ :=
    (nearest?_first_least name (far :: node :: later)).2 node found
  obtain ⟨rfl, -, rfl⟩ := (List.append_cons_inj_of_notMem other once).1 whole
  obtain rfl : n = 1 := (least.unique (isLeast_apart name node)).trans one
  exact ⟨found, least, first far (.head _), rest⟩

end WebSurface.Suggestion
