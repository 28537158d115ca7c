import Mathlib.Data.List.Pairwise
import Mathlib.Order.Lattice

/-! # Ordered maps

A finite map as the list of its entries in the strict order of their keys. -/

namespace CapTaint

variable {α κ : Type} [LinearOrder κ]

/-- Entries in strict order of their keys. -/
structure SortedList (key : α → κ) where
  entries : List α
  sorted : entries.Pairwise (key · < key ·)

namespace SortedList

variable {key : α → κ} {k : κ} {x y : α}

/-! ### Prefixes -/

/-- In an ordered list a property of small keys holds up to a point. -/
theorem takeWhile_eq_filter {l : List α} (hsorted : l.Pairwise (key · < key ·)) {p : α → Bool}
    (hp : ∀ x y, key x < key y → p y = true → p x = true) : l.takeWhile p = l.filter p := by
  induction l with
  | nil => rfl
  | cons x l ih =>
    obtain ⟨hx, hl⟩ := List.pairwise_cons.mp hsorted
    by_cases h : p x = true
    · rw [List.takeWhile_cons_of_pos h, List.filter_cons_of_pos h, ih hl]
    · rw [List.takeWhile_cons_of_neg h, List.filter_cons_of_neg h]
      exact (List.filter_eq_nil_iff.mpr fun y hy hpy => h (hp x y (hx y hy) hpy)).symm

theorem dropWhile_eq_filter {l : List α} (hsorted : l.Pairwise (key · < key ·)) {p : α → Bool}
    (hp : ∀ x y, key x < key y → p y = true → p x = true) : l.dropWhile p = l.filter fun x => !p x := by
  induction l with
  | nil => rfl
  | cons x l ih =>
    obtain ⟨hx, hl⟩ := List.pairwise_cons.mp hsorted
    by_cases h : p x = true
    · rw [List.dropWhile_cons_of_pos h, List.filter_cons_of_neg (by simp [h]), ih hl]
    · rw [List.dropWhile_cons_of_neg h, List.filter_cons_of_pos (by simp [h])]
      congr 1
      exact (List.filter_eq_self.mpr fun y hy => by simpa using mt (hp x y (hx y hy)) h).symm

/-- The entries up to a key. -/
def upTo (map : SortedList key) (k : κ) : List α := map.entries.takeWhile (key · ≤ k)

/-- The entries behind a key. -/
def behind (map : SortedList key) (k : κ) : List α := map.entries.dropWhile (key · ≤ k)

theorem upTo_append_behind (map : SortedList key) (k : κ) : map.upTo k ++ map.behind k = map.entries :=
  List.takeWhile_append_dropWhile

theorem le_of_lt_of_le (k : κ) (x y : α) (hlt : key x < key y) (hle : decide (key y ≤ k) = true) :
    decide (key x ≤ k) = true := decide_eq_true (hlt.le.trans (of_decide_eq_true hle))

theorem mem_upTo {map : SortedList key} : x ∈ map.upTo k ↔ x ∈ map.entries ∧ key x ≤ k := by
  rw [upTo, takeWhile_eq_filter map.sorted (le_of_lt_of_le k), List.mem_filter, decide_eq_true_eq]

theorem mem_behind {map : SortedList key} : x ∈ map.behind k ↔ x ∈ map.entries ∧ k < key x := by
  rw [behind, dropWhile_eq_filter map.sorted (le_of_lt_of_le k), List.mem_filter, Bool.not_eq_true',
    decide_eq_false_iff_not, not_le]

/-- The entry with the greatest key up to `k`. -/
def lookupPrevious (map : SortedList key) (k : κ) : Option α := (map.upTo k).getLast?

theorem lookupPrevious_eq_some {map : SortedList key} (h : map.lookupPrevious k = some y) :
    y ∈ map.entries ∧ key y ≤ k ∧ ∀ x ∈ map.entries, key x ≤ k → x = y ∨ key x < key y := by
  obtain ⟨l, hl⟩ := List.getLast?_eq_some_iff.mp h
  have hy : y ∈ map.upTo k := hl ▸ List.mem_append_right l (List.mem_singleton_self y)
  refine ⟨(mem_upTo.mp hy).1, (mem_upTo.mp hy).2, fun x hx hxk => ?_⟩
  have hxmem : x ∈ l ++ [y] := hl ▸ mem_upTo.mpr ⟨hx, hxk⟩
  rcases List.mem_append.mp hxmem with hxl | hxy
  · have hsorted : (l ++ [y]).Pairwise (key · < key ·) := hl ▸ map.sorted.sublist (List.takeWhile_sublist _)
    exact .inr ((List.pairwise_append.mp hsorted).2.2 x hxl y (List.mem_singleton_self y))
  · exact .inl (List.mem_singleton.mp hxy)

theorem lookupPrevious_eq_none {map : SortedList key} (h : map.lookupPrevious k = none) (hx : x ∈ map.entries) : k < key x := by
  by_contra hle
  have hmem : x ∈ map.upTo k := mem_upTo.mpr ⟨hx, not_lt.mp hle⟩
  rw [List.getLast?_eq_none_iff.mp h] at hmem
  cases hmem

theorem nodup (map : SortedList key) : map.entries.Nodup :=
  map.sorted.imp fun hlt heq => hlt.ne (congrArg key heq)

/-! ### Finite maps -/

def empty : SortedList key := ⟨[], .nil⟩

def lookup (map : SortedList key) (k : κ) : Option α := map.entries.find? (key · = k)

/-- The entry takes the place of the one that has its key. -/
def replace (map : SortedList key) (x : α) : SortedList key where
  entries := map.entries.filter (key · < key x) ++ x :: map.entries.filter (key x < key ·)
  sorted := by
    refine List.pairwise_append.mpr ⟨map.sorted.filter _, List.pairwise_cons.mpr ⟨?_, map.sorted.filter _⟩, ?_⟩
    · intro y hy
      exact of_decide_eq_true (List.mem_filter.mp hy).2
    · intro y hy z hz
      have hlt : key y < key x := of_decide_eq_true (List.mem_filter.mp hy).2
      rcases List.mem_cons.mp hz with rfl | hz
      · exact hlt
      · exact hlt.trans (of_decide_eq_true (List.mem_filter.mp hz).2)

def remove (map : SortedList key) (k : κ) : SortedList key where
  entries := map.entries.filter (key · ≠ k)
  sorted := map.sorted.filter _

/-- An entry that has the key stays. -/
def insert (map : SortedList key) (x : α) : SortedList key := if (map.lookup (key x)).isSome then map else map.replace x

def min (map : SortedList key) : Option α := map.entries.head?

def max (map : SortedList key) : Option α := map.entries.getLast?

def popMin (map : SortedList key) : SortedList key := ⟨map.entries.tail, map.sorted.sublist (List.tail_sublist _)⟩

def popMax (map : SortedList key) : SortedList key := ⟨map.entries.dropLast, map.sorted.sublist (List.dropLast_sublist _)⟩

theorem eq_of_key_eq {map : SortedList key} (hx : x ∈ map.entries) (hy : y ∈ map.entries) (h : key x = key y) : x = y := by
  by_contra hne
  have hdistinct : map.entries.Pairwise (key · ≠ key ·) := map.sorted.imp LT.lt.ne
  have : Std.Symm fun x y : α => key x ≠ key y := ⟨fun _ _ hxy => hxy.symm⟩
  exact hdistinct.forall hx hy hne h

theorem lookup_eq_some {map : SortedList key} : map.lookup k = some x ↔ x ∈ map.entries ∧ key x = k := by
  constructor
  · intro h
    have hkey := List.find?_some h
    exact ⟨List.mem_of_find?_eq_some h, of_decide_eq_true hkey⟩
  · rintro ⟨hx, rfl⟩
    obtain ⟨y, hy⟩ : ∃ y, map.lookup (key x) = some y :=
      Option.isSome_iff_exists.mp (List.find?_isSome.mpr ⟨x, hx, decide_eq_true rfl⟩)
    have hkey := List.find?_some hy
    rw [hy, eq_of_key_eq (List.mem_of_find?_eq_some hy) hx (of_decide_eq_true hkey)]

theorem mem_replace {map : SortedList key} : y ∈ (map.replace x).entries ↔ y = x ∨ y ∈ map.entries ∧ key y ≠ key x := by
  simp only [replace, List.mem_append, List.mem_cons, List.mem_filter, decide_eq_true_eq, ne_iff_lt_or_gt, and_or_left]
  exact or_left_comm

theorem mem_remove {map : SortedList key} : y ∈ (map.remove k).entries ↔ y ∈ map.entries ∧ key y ≠ k := by
  simp [remove]

/-! ### Places -/

/-- The entry goes between those that are before it and those that are after it. -/
theorem entries_replace {map : SortedList key} {A B C : List α} (h : map.entries = A ++ B ++ C) (hA : ∀ y ∈ A, key y < key x)
    (hB : ∀ y ∈ B, key y = key x) (hC : ∀ y ∈ C, key x < key y) : (map.replace x).entries = A ++ x :: C := by
  have hlt : map.entries.filter (key · < key x) = A := by
    rw [h, List.filter_append, List.filter_append, List.filter_eq_self.mpr fun y hy => decide_eq_true (hA y hy),
      List.filter_eq_nil_iff.mpr fun y hy => by simp [hB y hy], List.filter_eq_nil_iff.mpr fun y hy => by simp [(hC y hy).le],
      List.append_nil, List.append_nil]
  have hgt : map.entries.filter (key x < key ·) = C := by
    rw [h, List.filter_append, List.filter_append, List.filter_eq_self.mpr fun y hy => decide_eq_true (hC y hy),
      List.filter_eq_nil_iff.mpr fun y hy => by simp [(hA y hy).le], List.filter_eq_nil_iff.mpr fun y hy => by simp [hB y hy],
      List.nil_append, List.nil_append]
  exact congrArg₂ (· ++ x :: ·) hlt hgt

theorem entries_remove {map : SortedList key} {A B : List α} (h : map.entries = A ++ x :: B) :
    (map.remove (key x)).entries = A ++ B := by
  have hsorted := map.sorted
  rw [h] at hsorted
  obtain ⟨-, hxB, hAx⟩ := List.pairwise_append.mp hsorted
  have hA : ∀ y ∈ A, key y ≠ key x := fun y hy => (hAx y hy x List.mem_cons_self).ne
  have hB : ∀ y ∈ B, key y ≠ key x := fun y hy => ((List.pairwise_cons.mp hxB).1 y hy).ne'
  change map.entries.filter (key · ≠ key x) = A ++ B
  rw [h, List.filter_append, List.filter_cons_of_neg (by simp), List.filter_eq_self.mpr fun y hy => decide_eq_true (hA y hy),
    List.filter_eq_self.mpr fun y hy => decide_eq_true (hB y hy)]

end SortedList

end CapTaint
