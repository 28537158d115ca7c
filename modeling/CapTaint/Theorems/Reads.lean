import CapTaint.Theorems.Values
import CapTaint.Klee.Expr

/-! # The elements that an expression reads

The value of an expression depends only on the elements that it reads. -/

namespace CapTaint.Klee

variable {v v' : Valuation} {array : Array} {i : Nat} {objects : List Array}

mutual
/-- Under `v`, element `i` of the array is read at its initial version. -/
def Expr.Reads (v : Valuation) (array : Array) (i : Nat) : Expr → Prop
  | .constant _ _ => False
  | .notOptimized src => src.Reads v array i
  | .read updates index => index.Reads v array i ∨ updates.Reads v array i (index.value v)
  | .select cond trueExpr falseExpr => cond.Reads v array i ∨ trueExpr.Reads v array i ∨ falseExpr.Reads v array i
  | .concat left right => left.Reads v array i ∨ right.Reads v array i
  | .extract expr _ _ => expr.Reads v array i
  | .zext src _ => src.Reads v array i
  | .sext src _ => src.Reads v array i
  | .not expr => expr.Reads v array i
  | .arith _ left right => left.Reads v array i ∨ right.Reads v array i
  | .cmp _ left right => left.Reads v array i ∨ right.Reads v array i

/-- A read at `index` through the updates. -/
def UpdateList.Reads (v : Valuation) (array : Array) (i : Nat) : UpdateList → Nat → Prop
  | .root root, index => root = array ∧ index = i
  | .extend next updateIndex value, index =>
    updateIndex.Reads v array i ∨ value.Reads v array i ∨ next.Reads v array i index
end

mutual
theorem Expr.value_congr : (e : Expr) → (∀ array i, e.Reads v array i → array.initial v i = array.initial v' i) →
    e.value v = e.value v'
  | .constant _ _, _ => rfl
  | .notOptimized src, h => Expr.value_congr src h
  | .read ul index, h => by
    rw [Expr.value, Expr.value, ← Expr.value_congr index fun array i hr => h array i (.inl hr)]
    exact UpdateList.readAt_congr ul _ fun array i hr => h array i (.inr hr)
  | .select c t f, h => by
    rw [Expr.value, Expr.value, Expr.value_congr c fun array i hr => h array i (.inl hr),
      Expr.value_congr t fun array i hr => h array i (.inr (.inl hr)),
      Expr.value_congr f fun array i hr => h array i (.inr (.inr hr))]
  | .concat l r, h | .arith _ l r, h | .cmp _ l r, h => by
    rw [Expr.value, Expr.value, Expr.value_congr l fun array i hr => h array i (.inl hr),
      Expr.value_congr r fun array i hr => h array i (.inr hr)]
  | .extract e _ _, h | .zext e _, h | .sext e _, h | .not e, h => by
    rw [Expr.value, Expr.value, Expr.value_congr e h]

theorem UpdateList.readAt_congr : (ul : UpdateList) → (index : Nat) →
    (∀ array i, ul.Reads v array i index → array.initial v i = array.initial v' i) → ul.readAt v index = ul.readAt v' index
  | .root array, index, h => h array index ⟨rfl, rfl⟩
  | .extend next updateIndex value, index, h => by
    rw [UpdateList.readAt, UpdateList.readAt, Expr.value_congr updateIndex fun array i hr => h array i (.inl hr),
      Expr.value_congr value fun array i hr => h array i (.inr (.inl hr)),
      UpdateList.readAt_congr next index fun array i hr => h array i (.inr (.inr hr))]
end

/-! ### Symbolic objects -/

theorem mem_addRoot {root : Array} :
    array ∈ (if root.isSymbolicArray = true ∧ root ∉ objects then objects ++ [root] else objects) ↔
      array ∈ objects ∨ (root.isSymbolicArray = true ∧ array = root) := by
  by_cases hroot : root ∈ objects
  · rw [if_neg fun h => h.2 hroot]
    constructor
    · exact .inl
    · rintro (h | ⟨-, rfl⟩)
      exacts [h, hroot]
  · by_cases hsymbolic : root.isSymbolicArray = true
    · rw [if_pos ⟨hsymbolic, hroot⟩, List.mem_append, List.mem_singleton]
      simp [hsymbolic]
    · rw [if_neg fun h => hsymbolic h.1]
      simp [hsymbolic]

mutual
theorem Expr.symbolicObjects_subset : (e : Expr) → (objects : List Array) → objects ⊆ e.symbolicObjects objects
  | .constant _ _, _ => fun _ h => h
  | .notOptimized e, objects | .extract e _ _, objects | .zext e _, objects | .sext e _, objects | .not e, objects =>
    Expr.symbolicObjects_subset e objects
  | .read ul index, objects => fun _ h =>
    Expr.symbolicObjects_subset index _ (mem_addRoot.mpr (.inl (UpdateList.symbolicObjects_subset ul objects h)))
  | .select c t f, objects => fun _ h => Expr.symbolicObjects_subset f _
    (Expr.symbolicObjects_subset t _ (Expr.symbolicObjects_subset c objects h))
  | .concat l r, objects
  | .arith _ l r, objects
  | .cmp _ l r, objects => fun _ h => Expr.symbolicObjects_subset r _ (Expr.symbolicObjects_subset l objects h)

theorem UpdateList.symbolicObjects_subset : (ul : UpdateList) → (objects : List Array) → objects ⊆ ul.symbolicObjects objects
  | .root _, _ => fun _ h => h
  | .extend next index value, objects => fun _ h => UpdateList.symbolicObjects_subset next _
    (Expr.symbolicObjects_subset value _ (Expr.symbolicObjects_subset index objects h))
end

mutual
/-- Every symbolic array that is read is found. -/
theorem Expr.mem_symbolicObjects (hsymbolic : array.isSymbolicArray = true) : (e : Expr) → (objects : List Array) →
    e.Reads v array i → array ∈ e.symbolicObjects objects
  | .constant _ _, _, h => absurd h id
  | .notOptimized src, objects, h => Expr.mem_symbolicObjects hsymbolic src objects h
  | .read ul index, objects, h => by
    rcases h with hindex | hul
    · exact Expr.mem_symbolicObjects hsymbolic index _ hindex
    · apply Expr.symbolicObjects_subset index
      rw [mem_addRoot]
      exact UpdateList.mem_symbolicObjects hsymbolic ul objects hul
  | .select c t f, objects, h => by
    rcases h with hc | ht | hf
    · exact Expr.symbolicObjects_subset f _ (Expr.symbolicObjects_subset t _ (Expr.mem_symbolicObjects hsymbolic c _ hc))
    · exact Expr.symbolicObjects_subset f _ (Expr.mem_symbolicObjects hsymbolic t _ ht)
    · exact Expr.mem_symbolicObjects hsymbolic f _ hf
  | .concat l r, objects, h | .arith _ l r, objects, h | .cmp _ l r, objects, h => by
    rcases h with hl | hr
    · exact Expr.symbolicObjects_subset r _ (Expr.mem_symbolicObjects hsymbolic l _ hl)
    · exact Expr.mem_symbolicObjects hsymbolic r _ hr
  | .extract e _ _, objects, h | .zext e _, objects, h | .sext e _, objects, h | .not e, objects, h =>
    Expr.mem_symbolicObjects hsymbolic e objects h

theorem UpdateList.mem_symbolicObjects (hsymbolic : array.isSymbolicArray = true) : (ul : UpdateList) →
    (objects : List Array) → {index : Nat} → ul.Reads v array i index →
    array ∈ ul.symbolicObjects objects ∨ (ul.array.isSymbolicArray = true ∧ array = ul.array)
  | .root root, objects, _, h => by
    obtain ⟨rfl, -⟩ := h
    exact .inr ⟨hsymbolic, rfl⟩
  | .extend next updateIndex value, objects, _, h => by
    rcases h with hindex | hvalue | hnext
    · exact .inl (UpdateList.symbolicObjects_subset next _
        (Expr.symbolicObjects_subset value _ (Expr.mem_symbolicObjects hsymbolic updateIndex _ hindex)))
    · exact .inl (UpdateList.symbolicObjects_subset next _ (Expr.mem_symbolicObjects hsymbolic value _ hvalue))
    · exact UpdateList.mem_symbolicObjects hsymbolic next _ hnext
end

theorem mem_findSymbolicObjects (hsymbolic : array.isSymbolicArray = true) {es : List Expr} {e : Expr} (he : e ∈ es)
    (hreads : e.Reads v array i) : array ∈ findSymbolicObjects es := by
  have hfold : ∀ (es : List Expr) (objects : List Array), array ∈ objects ∨ e ∈ es →
      array ∈ es.foldl (fun objects e => e.symbolicObjects objects) objects := by
    intro es
    induction es with
    | nil => exact fun _ h => h.resolve_right nofun
    | cons e' es ih =>
      intro objects h
      refine ih _ ?_
      rcases h with hold | hmem
      · exact .inl (Expr.symbolicObjects_subset e' objects hold)
      · rcases List.mem_cons.mp hmem with rfl | hrest
        · exact .inl (Expr.mem_symbolicObjects hsymbolic e objects hreads)
        · exact .inr hrest
  exact hfold es [] (.inr he)

mutual
/-- Only symbolic arrays are found. -/
theorem Expr.symbolicObjects_symbolic : (e : Expr) → (objects : List Array) →
    (∀ array ∈ objects, array.isSymbolicArray = true) → ∀ array ∈ e.symbolicObjects objects, array.isSymbolicArray = true
  | .constant _ _, _, h => h
  | .notOptimized e, objects, h | .extract e _ _, objects, h | .zext e _, objects, h | .sext e _, objects, h
  | .not e, objects, h => Expr.symbolicObjects_symbolic e objects h
  | .read ul index, objects, h => by
    refine Expr.symbolicObjects_symbolic index _ fun array harray => ?_
    rcases mem_addRoot.mp harray with hold | ⟨hsymbolic, rfl⟩
    · exact UpdateList.symbolicObjects_symbolic ul objects h array hold
    · exact hsymbolic
  | .select c t f, objects, h => Expr.symbolicObjects_symbolic f _
    (Expr.symbolicObjects_symbolic t _ (Expr.symbolicObjects_symbolic c objects h))
  | .concat l r, objects, h
  | .arith _ l r, objects, h
  | .cmp _ l r, objects, h => Expr.symbolicObjects_symbolic r _ (Expr.symbolicObjects_symbolic l objects h)

theorem UpdateList.symbolicObjects_symbolic : (ul : UpdateList) → (objects : List Array) →
    (∀ array ∈ objects, array.isSymbolicArray = true) → ∀ array ∈ ul.symbolicObjects objects, array.isSymbolicArray = true
  | .root _, _, h => h
  | .extend next index value, objects, h => UpdateList.symbolicObjects_symbolic next _
    (Expr.symbolicObjects_symbolic value _ (Expr.symbolicObjects_symbolic index objects h))
end

theorem isSymbolicArray_of_mem {es : List Expr} (h : array ∈ findSymbolicObjects es) : array.isSymbolicArray = true := by
  have hfold : ∀ (es : List Expr) (objects : List Array), (∀ array ∈ objects, array.isSymbolicArray = true) →
      ∀ array ∈ es.foldl (fun objects e => e.symbolicObjects objects) objects, array.isSymbolicArray = true := by
    intro es
    induction es with
    | nil => exact fun _ h => h
    | cons e es ih => exact fun objects h => ih _ (Expr.symbolicObjects_symbolic e objects h)
  exact hfold es [] nofun array h

end CapTaint.Klee
