import Mathlib

/-! Bubble sort on lists, as the loops over an array run it, and its stability: elements of one class that are
    in order before the sort keep their places relative to each other. -/

namespace CapTaint.BubbleSort

variable {α : Type} (key : α → Int)

/-- The inner loop: the first `n` neighbouring pairs are compared and, when out of order, swapped. -/
def pass : Nat → List α → List α
  | n + 1, x :: y :: rest => if key y < key x then y :: pass n (x :: rest) else x :: pass n (y :: rest)
  | _, l => l

/-- The outer loop from round `i` on, `rounds` times, over a list of length `size`. -/
def loop (size : Nat) : Nat → Nat → List α → List α
  | 0, _, l => l
  | rounds + 1, i, l => loop size rounds (i + 1) (pass key (size - i - 1) l)

def bubbleSort (l : List α) : List α := loop key l.length (l.length - 1) 0 l

attribute [local simp] pass loop

/-! ### One pass -/

section
variable {key}

theorem pass_perm {n : Nat} {l : List α} : (pass key n l).Perm l := by
  fun_induction pass key n l with
  | case1 n x y rest hlt ih => exact (ih.cons y).trans (.swap x y rest)
  | case2 n x y rest hlt ih => exact ih.cons x
  | case3 => exact .refl _

/-- A swap exchanges a larger element with a smaller one, so it never exchanges two of a class in order. -/
theorem pass_filter {p : α → Bool} {n : Nat} {l : List α}
    (hp : (l.filter p).Pairwise fun x y => key x ≤ key y) : (pass key n l).filter p = l.filter p := by
  fun_induction pass key n l with
  | case3 => rfl
  | case2 n x y rest hlt ih =>
    rw [List.filter_cons, List.filter_cons (x := x), ih]
    rw [List.filter_cons (x := x)] at hp
    split at hp
    · exact hp.of_cons
    · exact hp
  | case1 n x y rest hlt ih =>
    have hswap : ((y :: x :: rest).filter p) = (x :: y :: rest).filter p := by
      by_cases hx : p x = true <;> by_cases hy : p y = true <;> simp only [List.filter_cons, hx, hy, if_true]
      · -- both in the class: the pair was in order, yet it is swapped
        simp only [List.filter_cons, hx, hy, if_true] at hp
        have := List.rel_of_pairwise_cons hp List.mem_cons_self
        omega
      all_goals simp
    rw [← hswap] at hp ⊢
    rw [List.filter_cons, List.filter_cons (x := y), ih]
    rw [List.filter_cons (x := y)] at hp
    split at hp
    · exact hp.of_cons
    · exact hp

theorem pass_append {n : Nat} {a b : List α} (hn : n < a.length) : pass key n (a ++ b) = pass key n a ++ b := by
  induction n generalizing a with
  | zero =>
    obtain _ | ⟨x, _ | ⟨y, rest⟩⟩ := a <;> simp [pass]
  | succ n ih =>
    obtain _ | ⟨x, _ | ⟨y, rest⟩⟩ := a
    · simp at hn
    · simp at hn
    · have hlen : n < (rest.length + 1) := by simpa using hn
      simp only [List.cons_append, pass]
      split
      · rw [← List.cons_append, ih (by simpa using hlen), List.cons_append]
      · rw [← List.cons_append, ih (by simpa using hlen), List.cons_append]

/-- A pass over a whole list carries a largest element to its end. -/
theorem pass_max {l : List α} {x : α} :
    ∃ init last, pass key l.length (x :: l) = init ++ [last] ∧ ∀ z ∈ x :: l, key z ≤ key last := by
  induction l generalizing x with
  | nil => exact ⟨[], x, rfl, by simp⟩
  | cons y rest ih =>
    simp only [List.length_cons, pass]
    split
    · rename_i hlt
      obtain ⟨init, last, heq, hmax⟩ := ih (x := x)
      refine ⟨y :: init, last, by rw [heq, List.cons_append], ?_⟩
      intro z hz
      have hx := hmax x List.mem_cons_self
      rcases List.mem_cons.mp hz with rfl | hz
      · exact hx
      rcases List.mem_cons.mp hz with rfl | hz
      · omega
      · exact hmax z (List.mem_cons_of_mem _ hz)
    · rename_i hle
      obtain ⟨init, last, heq, hmax⟩ := ih (x := y)
      refine ⟨x :: init, last, by rw [heq, List.cons_append], ?_⟩
      intro z hz
      have hy := hmax y List.mem_cons_self
      rcases List.mem_cons.mp hz with rfl | hz
      · omega
      · exact hmax z hz

end

/-! ### The whole sort -/

section
variable {key}

theorem loop_perm {size rounds i : Nat} {l : List α} : (loop key size rounds i l).Perm l := by
  induction rounds generalizing i l with
  | zero => exact .refl _
  | succ rounds ih => exact ih.trans pass_perm

theorem loop_filter {p : α → Bool} {size rounds i : Nat} {l : List α}
    (hp : (l.filter p).Pairwise fun x y => key x ≤ key y) :
    (loop key size rounds i l).filter p = l.filter p := by
  induction rounds generalizing i l with
  | zero => rfl
  | succ rounds ih =>
    have hpass := pass_filter (n := size - i - 1) hp
    rw [loop, ih (by rwa [hpass]), hpass]

/-- The rounds behind the last pair do nothing. -/
theorem loop_done {size rounds i : Nat} {l : List α} (hi : size ≤ i + 1) : loop key size rounds i l = l := by
  induction rounds generalizing i with
  | zero => rfl
  | succ rounds ih =>
    have hpass : pass key (size - i - 1) l = l := by
      have hz : size - i - 1 = 0 := by omega
      rw [hz]
      unfold pass
      rfl
    rw [loop, hpass, ih (by omega)]

/-- After `i` rounds the last `i` elements are in place. -/
theorem loop_sorted {rounds : Nat} {a b : List α} (hlen : a.length ≤ rounds + 1)
    (hb : b.Pairwise fun x y => key x ≤ key y) (hab : ∀ x ∈ a, ∀ y ∈ b, key x ≤ key y) :
    (loop key (a.length + b.length) rounds b.length (a ++ b)).Pairwise fun x y => key x ≤ key y := by
  induction rounds generalizing a b with
  | zero =>
    refine List.pairwise_append.mpr ⟨?_, hb, hab⟩
    obtain _ | ⟨x, _ | ⟨y, rest⟩⟩ := a
    · exact .nil
    · exact List.pairwise_singleton _ _
    · simp at hlen
  | succ rounds ih =>
    obtain _ | ⟨x, rest⟩ := a
    · rw [List.nil_append, List.length_nil, loop_done (by omega)]
      exact hb
    · obtain ⟨init, last, heq, hmax⟩ := @pass_max α key rest x
      have hround : (x :: rest).length + b.length - b.length - 1 = rest.length := by simp
      have hperm : (init ++ [last]).Perm (x :: rest) := heq ▸ pass_perm
      have hinit : init.length = rest.length := by simpa using hperm.length_eq
      have hin : ∀ z ∈ init, z ∈ x :: rest := fun z hz =>
        hperm.mem_iff.mp (List.mem_append_left _ hz)
      have hlast : last ∈ x :: rest := hperm.mem_iff.mp (by simp)
      rw [loop, hround, pass_append (by simp), heq, List.append_assoc, List.singleton_append]
      have hsize : (x :: rest).length + b.length = init.length + (last :: b).length := by
        simp only [List.length_cons, hinit]; omega
      rw [hsize, ← List.length_cons (a := last)]
      refine ih ?_ ?_ ?_
      · simp only [List.length_cons] at hlen
        omega
      · exact List.pairwise_cons.mpr ⟨fun y hy => hab last hlast y hy, hb⟩
      · intro z hz y hy
        rcases List.mem_cons.mp hy with rfl | hy
        · exact hmax z (hin z hz)
        · exact hab z (hin z hz) y hy

theorem bubbleSort_perm {l : List α} : (bubbleSort key l).Perm l := loop_perm

theorem bubbleSort_sorted {l : List α} : (bubbleSort key l).Pairwise fun x y => key x ≤ key y := by
  have h := @loop_sorted α key (l.length - 1) l [] (by omega) .nil (by simp)
  simpa [bubbleSort] using h

/-- The sort is stable on every class that is in order before it. -/
theorem bubbleSort_filter {p : α → Bool} {l : List α} (hp : (l.filter p).Pairwise fun x y => key x ≤ key y) :
    (bubbleSort key l).filter p = l.filter p :=
  loop_filter hp

end

end CapTaint.BubbleSort
