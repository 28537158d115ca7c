import Mathlib

/-! # Orders on trees

Trees of labelled nodes are compared node by node, from the root and from the left. The key of a node may depend on
everything below it, such as a hash does. -/

namespace CapTaint

open Std

variable {σ κ : Type}

inductive RoseTree (σ : Type)
  | mk (label : σ) (kids : List (RoseTree σ))

namespace RoseTree

def label : RoseTree σ → σ
  | mk label _ => label

def kids : RoseTree σ → List (RoseTree σ)
  | mk _ kids => kids

/-- A value of each node from its label and the values below it. -/
def fold (f : σ → List κ → κ) : RoseTree σ → κ
  | mk label kids => f label (kids.map (fold f))

/-- The number of nodes. -/
def size : RoseTree σ → Nat := fold fun _ sizes => sizes.sum + 1

theorem size_mk (label : σ) (kids : List (RoseTree σ)) : (mk label kids).size = (kids.map size).sum + 1 := by
  rw [size, fold]

theorem size_pos (t : RoseTree σ) : 0 < t.size := by
  cases t with
  | mk label kids =>
    rw [size_mk]
    exact Nat.succ_pos _

theorem size_lt_of_mem {label : σ} {kids : List (RoseTree σ)} {t : RoseTree σ} (ht : t ∈ kids) : t.size < (mk label kids).size := by
  rw [size_mk]
  induction kids with
  | nil => cases ht
  | cons u kids ih =>
    rw [List.map_cons, List.sum_cons]
    rcases List.mem_cons.mp ht with rfl | ht
    · omega
    · have := ih ht
      omega

theorem length_lt_size (label : σ) (kids : List (RoseTree σ)) : kids.length < (mk label kids).size := by
  rw [size_mk]
  induction kids with
  | nil => exact Nat.zero_lt_one
  | cons t kids ih =>
    have := t.size_pos
    rw [List.map_cons, List.sum_cons, List.length_cons]
    omega

variable (key : RoseTree σ → κ) (cmp : κ → κ → Ordering)

mutual
def order : RoseTree σ → RoseTree σ → Ordering
  | mk a ts, mk b us => (cmp (key (mk a ts)) (key (mk b us))).then (orderKids ts us)

def orderKids : List (RoseTree σ) → List (RoseTree σ) → Ordering
  | t :: ts, u :: us => (order t u).then (orderKids ts us)
  | [], _ => .eq
  | _ :: _, [] => .eq
end

mutual
/-- The keys from the root, a node before the nodes below it. -/
def flat : RoseTree σ → List κ
  | mk a ts => key (mk a ts) :: flatKids ts

def flatKids : List (RoseTree σ) → List κ
  | [] => []
  | t :: ts => flat t ++ flatKids ts
end

/-- Equal keys have equal labels, and as many nodes below them. -/
structure Determines (key : RoseTree σ → κ) (cmp : κ → κ → Ordering) : Prop where
  label : ∀ t u, cmp (key t) (key u) = .eq → t.label = u.label
  kids : ∀ t u, cmp (key t) (key u) = .eq → t.kids.length = u.kids.length

variable {key cmp}

mutual
theorem compareLex_flat (hkey : Determines key cmp) (t u : RoseTree σ) (xs ys : List κ) :
    List.compareLex cmp (flat key t ++ xs) (flat key u ++ ys) = (order key cmp t u).then (List.compareLex cmp xs ys) := by
  cases t with
  | mk a ts =>
    cases u with
    | mk b us =>
      rw [flat, flat, order, List.cons_append, List.cons_append, List.compareLex_cons_cons]
      cases hcmp : cmp (key (mk a ts)) (key (mk b us)) with
      | lt => rfl
      | gt => rfl
      | eq => exact compareLex_flatKids hkey ts us (hkey.kids _ _ hcmp) xs ys

theorem compareLex_flatKids (hkey : Determines key cmp) (ts us : List (RoseTree σ)) (hlength : ts.length = us.length) (xs ys : List κ) :
    List.compareLex cmp (flatKids key ts ++ xs) (flatKids key us ++ ys) =
      (orderKids key cmp ts us).then (List.compareLex cmp xs ys) := by
  cases ts with
  | nil =>
    obtain rfl := List.length_eq_zero_iff.mp hlength.symm
    rfl
  | cons t ts =>
    cases us with
    | nil => cases hlength
    | cons u us =>
      rw [flatKids, flatKids, orderKids, List.append_assoc, List.append_assoc, compareLex_flat hkey t u,
        compareLex_flatKids hkey ts us (Nat.succ.inj hlength), Ordering.then_assoc]
end

theorem order_eq_compareLex (hkey : Determines key cmp) (t u : RoseTree σ) :
    order key cmp t u = List.compareLex cmp (flat key t) (flat key u) := by
  have h := compareLex_flat hkey t u [] []
  rw [List.append_nil, List.append_nil, List.compareLex_nil_nil, Ordering.then_eq] at h
  exact h.symm

mutual
theorem eq_of_order (hkey : Determines key cmp) (t u : RoseTree σ) (h : order key cmp t u = .eq) : t = u := by
  cases t with
  | mk a ts =>
    cases u with
    | mk b us =>
      rw [order, Ordering.then_eq_eq] at h
      have hlabel : a = b := hkey.label _ _ h.1
      have hkids := eq_of_orderKids hkey ts us (hkey.kids _ _ h.1) h.2
      rw [hlabel, hkids]

theorem eq_of_orderKids (hkey : Determines key cmp) (ts us : List (RoseTree σ)) (hlength : ts.length = us.length)
    (h : orderKids key cmp ts us = .eq) : ts = us := by
  cases ts with
  | nil => exact (List.length_eq_zero_iff.mp hlength.symm).symm
  | cons t ts =>
    cases us with
    | nil => cases hlength
    | cons u us =>
      rw [orderKids, Ordering.then_eq_eq] at h
      rw [eq_of_order hkey t u h.1, eq_of_orderKids hkey ts us (Nat.succ.inj hlength) h.2]
end

theorem orderKids_append {ts us ts' us' : List (RoseTree σ)} (hlength : ts.length = us.length) :
    orderKids key cmp (ts ++ ts') (us ++ us') = (orderKids key cmp ts us).then (orderKids key cmp ts' us') := by
  induction ts generalizing us with
  | nil =>
    obtain rfl := List.length_eq_zero_iff.mp hlength.symm
    rfl
  | cons t ts ih =>
    cases us with
    | nil => cases hlength
    | cons u us =>
      rw [List.cons_append, List.cons_append, orderKids, orderKids, ih (Nat.succ.inj hlength), Ordering.then_assoc]

theorem order_swap [OrientedCmp cmp] (hkey : Determines key cmp) (t u : RoseTree σ) :
    order key cmp u t = (order key cmp t u).swap := by
  rw [order_eq_compareLex hkey, order_eq_compareLex hkey, ← OrientedCmp.eq_swap]

theorem order_trans [TransCmp cmp] (hkey : Determines key cmp) {t u v : RoseTree σ} (h : (order key cmp t u).isLE)
    (h' : (order key cmp u v).isLE) : (order key cmp t v).isLE := by
  rw [order_eq_compareLex hkey] at h h' ⊢
  exact TransCmp.isLE_trans h h'

theorem order_eq_iff [OrientedCmp cmp] (hkey : Determines key cmp) (t u : RoseTree σ) : order key cmp t u = .eq ↔ t = u := by
  refine ⟨eq_of_order hkey t u, ?_⟩
  rintro rfl
  rw [order_eq_compareLex hkey]
  exact ReflCmp.compare_self

end RoseTree

end CapTaint
