import CapTaint.Lib.RoseTree
import CapTaint.Klee.ExprCompare

/-! # Comparison of expressions is a total order

An expression stands for the tree of what it has, whatever its objects share. The comparison is the order of these trees
by kind, hash, contents and kids, and the hash is a value of the tree. -/

namespace CapTaint.Klee.ExprCompare

open Std

/-! ### Structure -/

/-- What an expression has, the expressions that it refers to left out. Of an update list it is the array, by its name and its
address, and the number of updates. -/
inductive Label
  | constant (width : Nat) (value : BitVec width)
  | notOptimized
  | read (name : List UInt8) (root size : Nat)
  | select
  | concat
  | extract (offset width : Nat)
  | cast (kind : CastKind) (width : Nat)
  | not
  | binary (kind : BinaryKind)

/-- The whole of an expression. Below a read are the index and the value of each update, the most recent one first, and its
index at last. -/
abbrev Structure := RoseTree Label

def Body.label (name : List UInt8) (size : Nat) : Body → Label
  | constant width value => .constant width value
  | notOptimized _ => .notOptimized
  | read updates _ => .read name updates.root size
  | select _ _ _ => .select
  | concat _ _ => .concat
  | extract _ offset width => .extract offset width
  | cast kind _ width => .cast kind width
  | not _ => .not
  | binary kind _ _ => .binary kind

def Label.kind : Label → Nat
  | constant _ _ => 0
  | notOptimized => 1
  | read _ _ _ => 3
  | select => 4
  | concat => 5
  | extract _ _ => 6
  | cast kind _ => kind.value
  | not => 16
  | binary kind => kind.value

theorem Body.kind_label (body : Body) (name : List UInt8) (size : Nat) : (body.label name size).kind = body.getKind := by
  cases body <;> rfl

/-- What is compared of two expressions of the same kind. -/
def Label.contents : Label → List UInt8 × Nat × Nat
  | constant width value => ([], width, value.toNat)
  | read name root size => (name, root, size)
  | extract offset width => ([], offset, width)
  | cast _ width => ([], width, 0)
  | _ => ([], 0, 0)

theorem CastKind.value_inj {k k' : CastKind} (h : k.value = k'.value) : k = k' := by
  cases k <;> cases k' <;> first | rfl | cases h

theorem BinaryKind.value_inj {k k' : BinaryKind} (h : k.value = k'.value) : k = k' := by
  cases k <;> cases k' <;> first | rfl | cases h

theorem CastKind.value_cases (k : CastKind) : k.value = 7 ∨ k.value = 8 := by cases k <;> decide

theorem BinaryKind.value_cases (k : BinaryKind) : 9 ≤ k.value ∧ k.value ≠ 16 := by cases k <;> decide

theorem constant_ext {width width' : Nat} {value : BitVec width} {value' : BitVec width'} (hwidth : width = width')
    (hvalue : value.toNat = value'.toNat) : Label.constant width value = .constant width' value' := by
  subst hwidth
  rw [BitVec.eq_of_toNat_eq hvalue]

theorem Label.ext {a b : Label} (hkind : a.kind = b.kind) (hcontents : a.contents = b.contents) : a = b := by
  cases a <;> cases b <;> simp only [kind, contents, Prod.mk.injEq] at hkind hcontents <;>
    grind [constant_ext, CastKind.value_inj, CastKind.value_cases, BinaryKind.value_inj, BinaryKind.value_cases]

/-! ### Order -/

section
variable (hashValue : (width : Nat) → BitVec width → UInt32)

def labelHash : Label → List UInt32 → UInt32
  | .constant width value, _ => hashValue width value ^^^ (.ofNat width * Heap.magic)
  | .cast _ width, hashes => (.ofNat width * Heap.magic) ^^^ (hashes.headD 0 * Heap.magic)
  | .extract offset width, hashes =>
    ((.ofNat offset * Heap.magic) ^^^ (.ofNat width * Heap.magic)) ^^^ (hashes.headD 0 * Heap.magic)
  | .read name _ _, hashes => (hashes.getLastD 0 * Heap.magic) ^^^ hashes.dropLast.foldl (· ^^^ ·) (Heap.nameHash name)
  | .not, hashes => hashes.headD 0 * Heap.magic * 16
  | label, hashes => hashes.foldl (fun res hash => (res <<< 1) ^^^ (hash * Heap.magic)) (.ofNat label.kind * Heap.magic)

/-- The hash is a value of the structure. -/
def hashOf : Structure → UInt32 := RoseTree.fold (labelHash hashValue)

/-- What is compared of a node. The number of the nodes below adds nothing to it in the structure of an expression. -/
structure Key where
  kind : Nat
  hash : UInt32
  name : List UInt8
  first : Nat
  second : Nat
  kids : Nat

def Key.compare : Key → Key → Ordering :=
  compareLex (compareOn Key.kind) (compareLex (compareOn Key.hash) (compareLex (compareOn Key.name)
    (compareLex (compareOn Key.first) (compareLex (compareOn Key.second) (compareOn Key.kids)))))

instance : TransCmp Key.compare := inferInstanceAs (TransCmp (compareLex _ _))

def key : Structure → Key
  | .mk label kids => ⟨label.kind, hashOf hashValue (.mk label kids), label.contents.1, label.contents.2.1, label.contents.2.2, kids.length⟩

theorem determines_key : RoseTree.Determines (key hashValue) Key.compare := by
  have hall : ∀ t u, Key.compare (key hashValue t) (key hashValue u) = .eq → t.label = u.label ∧ t.kids.length = u.kids.length := by
    rintro ⟨a, ts⟩ ⟨b, us⟩ h
    simp only [Key.compare, compareLex_eq_eq, compareOn, Std.compare_eq_iff_eq, key] at h
    obtain ⟨hkind, -, hname, hfirst, hsecond, hkids⟩ := h
    exact ⟨Label.ext hkind (Prod.ext hname (Prod.ext hfirst hsecond)), hkids⟩
  exact ⟨fun t u h => (hall t u h).1, fun t u h => (hall t u h).2⟩

def order : Structure → Structure → Ordering := RoseTree.order (key hashValue) Key.compare

/-! ### Objects -/

/-- The update nodes from a head, each with its index and value. -/
inductive Heap.Chain (h : Heap) : Option Nat → List (Nat × Nat) → Prop
  | nil : h.Chain none []
  | cons {n : Nat} {u : UpdateNode} {ups : List (Nat × Nat)} (node : h.updates n = some u) (size : u.size = ups.length + 1)
      (next : h.Chain u.next ups) : h.Chain (some n) ((u.index, u.value) :: ups)

/-- The array and the updates of a read. -/
def Body.Reads (h : Heap) (name : List UInt8) (ups : List (Nat × Nat)) : Body → Prop
  | read updates _ => h.arrays updates.root = some name ∧ h.Chain updates.head ups
  | _ => name = [] ∧ ups = []

/-- The indices and the values. -/
def refs (ups : List (Nat × Nat)) : List Nat := ups.flatMap fun up => [up.1, up.2]

mutual
/-- The object at the address has this structure. -/
def Rep (h : Heap) : Structure → Nat → Prop
  | .mk label kids, p => ∃ c name ups, h.exprs p = some c ∧ c.body.Reads h name ups ∧ c.body.label name ups.length = label ∧
      RepAll h kids (refs ups ++ c.body.kids)

def RepAll (h : Heap) : List Structure → List Nat → Prop
  | [], ps => ps = []
  | t :: ts, ps => ∃ p ps', ps = p :: ps' ∧ Rep h t p ∧ RepAll h ts ps'
end

variable {hashValue} {h : Heap} {t u : Structure} {ts us : List Structure} {p q : Nat} {ps qs : List Nat} {ups : List (Nat × Nat)}

theorem Heap.Chain.unique {head : Option Nat} {ups' : List (Nat × Nat)} (hc : h.Chain head ups) (hc' : h.Chain head ups') :
    ups = ups' := by
  induction hc generalizing ups' with
  | nil => cases hc'; rfl
  | cons node _ _ ih =>
    cases hc' with
    | cons node' _ next' =>
      obtain rfl := Option.some.inj (node.symm.trans node')
      rw [ih next']

theorem Body.Reads.unique {body : Body} {name name' : List UInt8} {ups' : List (Nat × Nat)} (hr : body.Reads h name ups)
    (hr' : body.Reads h name' ups') : name = name' ∧ ups = ups' := by
  cases body with
  | read updates index => exact ⟨Option.some.inj (hr.1.symm.trans hr'.1), hr.2.unique hr'.2⟩
  | _ => exact ⟨hr.1.trans hr'.1.symm, hr.2.trans hr'.2.symm⟩

mutual
theorem Rep.unique (t u : Structure) (p : Nat) (ht : Rep h t p) (hu : Rep h u p) : t = u := by
  cases t with
  | mk label kids =>
    cases u with
    | mk label' kids' =>
      obtain ⟨c, name, ups, hc, hr, hlabel, hkids⟩ := ht
      obtain ⟨c', name', ups', hc', hr', hlabel', hkids'⟩ := hu
      obtain rfl := Option.some.inj (hc.symm.trans hc')
      obtain ⟨rfl, rfl⟩ := hr.unique hr'
      rw [← hlabel, ← hlabel', RepAll.unique kids kids' _ hkids hkids']

theorem RepAll.unique (ts us : List Structure) (ps : List Nat) (hts : RepAll h ts ps) (hus : RepAll h us ps) :
    ts = us := by
  cases ts with
  | nil =>
    cases us with
    | nil => rfl
    | cons u us =>
      obtain ⟨p, ps', rfl, -, -⟩ := hus
      cases hts
  | cons t ts =>
    cases us with
    | nil =>
      obtain ⟨p, ps', rfl, -, -⟩ := hts
      cases hus
    | cons u us =>
      obtain ⟨p, ps', rfl, ht, hts⟩ := hts
      obtain ⟨p', ps'', heq, hu, hus⟩ := hus
      obtain ⟨rfl, rfl⟩ := List.cons.inj heq
      rw [Rep.unique t u _ ht hu, RepAll.unique ts us _ hts hus]
end

theorem RepAll.length (hts : RepAll h ts ps) : ts.length = ps.length := by
  induction ts generalizing ps with
  | nil =>
    obtain rfl : ps = [] := hts
    rfl
  | cons t ts ih =>
    obtain ⟨p, ps', rfl, -, hts⟩ := hts
    rw [List.length_cons, List.length_cons, ih hts]

theorem RepAll.cons (hts : RepAll h ts (p :: ps)) :
    ∃ t ts', ts = t :: ts' ∧ Rep h t p ∧ RepAll h ts' ps := by
  cases ts with
  | nil => cases hts
  | cons t ts =>
    obtain ⟨p', ps', heq, ht, hts⟩ := hts
    obtain ⟨rfl, rfl⟩ := List.cons.inj heq
    exact ⟨t, ts, rfl, ht, hts⟩

theorem RepAll.append (hts : RepAll h ts ps) (hus : RepAll h us qs) : RepAll h (ts ++ us) (ps ++ qs) := by
  induction ts generalizing ps with
  | nil =>
    obtain rfl : ps = [] := hts
    exact hus
  | cons t ts ih =>
    obtain ⟨p, ps', rfl, ht, hts⟩ := hts
    exact ⟨p, ps' ++ qs, rfl, ht, ih hts⟩

theorem RepAll.split (hts : RepAll h ts (ps ++ qs)) :
    ∃ as bs, ts = as ++ bs ∧ RepAll h as ps ∧ RepAll h bs qs := by
  induction ps generalizing ts with
  | nil => exact ⟨[], ts, rfl, rfl, hts⟩
  | cons p ps ih =>
    obtain ⟨t, ts, rfl, ht, hts⟩ := hts.cons
    obtain ⟨as, bs, rfl, has, hbs⟩ := ih hts
    exact ⟨t :: as, bs, rfl, ⟨p, ps, rfl, ht, has⟩, hbs⟩

/-! ### Comparison -/

/-- The pairs of the set have the same structure. -/
def Sound (h : Heap) (equivs : Heap.ExprEquivSet) : Prop :=
  ∀ pq ∈ equivs, ∃ t, Rep h t pq.1 ∧ Rep h t pq.2

theorem sound_nil : Sound h [] := fun _ hpq => absurd hpq List.not_mem_nil

/-- The comparison finds the order, and leaves a sound set. -/
def Finds (h : Heap) (res : Ordering)
    (result : Option (Ordering × Heap.ExprEquivSet)) : Prop :=
  ∃ equivs, result = some (res, equivs) ∧ Sound h equivs

/-- The comparison is right wherever the first expression has this structure. -/
def Compares (hashValue : (width : Nat) → BitVec width → UInt32) (h : Heap) (cmp : Heap.Comparer) (t : Structure) : Prop :=
  ∀ p q u equivs, Rep h t p → Rep h u q → Sound h equivs →
    Finds h (order hashValue t u) (cmp p q equivs)

variable {cmp : Heap.Comparer} {equivs : Heap.ExprEquivSet} {fuel : Nat}

theorem Compares.one (hcmp : Compares hashValue h cmp t) : Compares hashValue h (Heap.compareOne cmp) t := by
  intro p q u equivs ht hu hs
  obtain ⟨equivs', heq, -⟩ := hcmp p q u equivs ht hu hs
  exact ⟨[], by rw [Heap.compareOne, heq]; rfl, sound_nil⟩

/-- One comparison, and another one if it finds nothing. -/
theorem Finds.then {res res' : Ordering} {result : Option (Ordering × Heap.ExprEquivSet)}
    {next : Heap.ExprEquivSet → Option (Ordering × Heap.ExprEquivSet)} (h₁ : Finds h res result)
    (h₂ : ∀ equivs, Sound h equivs → Finds h res' (next equivs)) :
    Finds h (res.then res') (result.bind fun r => if r.1 = .eq then next r.2 else some (r.1, r.2)) := by
  obtain ⟨equivs, rfl, hs⟩ := h₁
  rw [Option.bind_some]
  cases res with
  | eq => exact h₂ equivs hs
  | lt => exact ⟨equivs, rfl, hs⟩
  | gt => exact ⟨equivs, rfl, hs⟩

/-- The order of the trees of two lists of expressions. -/
def orderAll (hashValue : (width : Nat) → BitVec width → UInt32) (ts us : List Structure) : Ordering :=
  RoseTree.orderKids (key hashValue) Key.compare ts us

theorem order_self : order hashValue t t = .eq := (RoseTree.order_eq_iff (determines_key hashValue) t t).mpr rfl

theorem orderAll_self (ts : List Structure) : orderAll hashValue ts ts = .eq := by
  induction ts with
  | nil => rfl
  | cons t ts ih =>
    rw [orderAll, RoseTree.orderKids, ← orderAll, ih, ← order, order_self]
    rfl

theorem compareNode_spec {a b : UpdateNode} {v w : Structure} (ht : Rep h t a.index) (hu : Rep h u b.index)
    (hv : Rep h v a.value) (hw : Rep h w b.value) (hindex : Compares hashValue h cmp t)
    (hvalue : Compares hashValue h cmp v) (hs : Sound h equivs) :
    Finds h ((order hashValue t u).then (order hashValue v w)) (Heap.compareNode cmp a b equivs) :=
  (hindex.one _ _ _ _ ht hu hs).then fun _ hs => hvalue.one _ _ _ _ hv hw hs

theorem compareNodes_spec {a b : Option Nat} {ups' : List (Nat × Nat)} (ha : h.Chain a ups) (hb : h.Chain b ups')
    (hlength : ups.length = ups'.length) (hts : RepAll h ts (refs ups)) (hus : RepAll h us (refs ups'))
    (hcmp : ∀ t ∈ ts, Compares hashValue h cmp t) (hs : Sound h equivs) (hfuel : ups.length ≤ fuel) :
    Finds h (orderAll hashValue ts us) (Heap.compareNodes cmp h fuel a b equivs) := by
  induction ha generalizing b ups' ts us fuel equivs with
  | nil =>
    obtain rfl := List.length_eq_zero_iff.mp hlength.symm
    cases hb
    obtain rfl : ts = [] := List.length_eq_zero_iff.mp hts.length
    exact ⟨equivs, by rw [Heap.compareNodes]; rfl, hs⟩
  | @cons an u ups node size next ih =>
    cases hb with
    | nil => cases hlength
    | @cons bn v ups' node' size' next' =>
      cases fuel with
      | zero => cases hfuel
      | succ fuel =>
        rw [Heap.compareNodes]
        split
        case isTrue heq =>
          subst heq
          have hsame := (Heap.Chain.cons node size next).unique (.cons node' size' next')
          rw [hsame] at hts
          rw [RepAll.unique _ _ _ hts hus, orderAll_self]
          exact ⟨equivs, rfl, hs⟩
        case isFalse =>
          have hts' : RepAll h ts (u.index :: u.value :: refs ups) := hts
          have hus' : RepAll h us (v.index :: v.value :: refs ups') := hus
          obtain ⟨t, _, rfl, ht, hrest⟩ := hts'.cons
          obtain ⟨w, ts, rfl, hw, hts⟩ := hrest.cons
          obtain ⟨t', _, rfl, ht', hrest'⟩ := hus'.cons
          obtain ⟨w', us, rfl, hw', hus⟩ := hrest'.cons
          rw [node, node', orderAll, RoseTree.orderKids, RoseTree.orderKids, ← Ordering.then_assoc]
          refine (compareNode_spec ht ht' hw hw' (hcmp _ List.mem_cons_self) (hcmp _ (List.mem_cons_of_mem _ List.mem_cons_self)) hs).then
            fun equivs hs => ?_
          exact ih next' (Nat.succ.inj hlength) hts hus
            (fun t ht => hcmp t (List.mem_cons_of_mem _ (List.mem_cons_of_mem _ ht))) hs (Nat.le_of_succ_le_succ hfuel)

theorem compareKids_spec (hlength : ps.length = qs.length) (hts : RepAll h ts ps) (hus : RepAll h us qs)
    (hcmp : ∀ t ∈ ts, Compares hashValue h cmp t) (hs : Sound h equivs) :
    Finds h (orderAll hashValue ts us) (Heap.compareKids cmp ps qs equivs) := by
  induction ps generalizing qs ts us equivs with
  | nil =>
    obtain rfl : ts = [] := List.length_eq_zero_iff.mp hts.length
    exact ⟨equivs, rfl, hs⟩
  | cons p ps ih =>
    cases qs with
    | nil => cases hlength
    | cons q qs =>
      obtain ⟨t, ts, rfl, ht, hts⟩ := hts.cons
      obtain ⟨u, us, rfl, hu, hus⟩ := hus.cons
      exact (hcmp t List.mem_cons_self p q u equivs ht hu hs).then fun equivs hs =>
        ih (Nat.succ.inj hlength) hts hus (fun t ht => hcmp t (List.mem_cons_of_mem _ ht)) hs

/-! ### Contents -/

def contentsOrder (a b : Label) : Ordering :=
  (Ord.compare a.contents.1 b.contents.1).then
    ((Ord.compare a.contents.2.1 b.contents.2.1).then (Ord.compare a.contents.2.2 b.contents.2.2))

/-- The contents of these classes are all alike. -/
def Body.Plain : Body → Prop
  | constant _ _ | read _ _ | extract _ _ _ | cast _ _ _ | not _ => False
  | _ => True

/-- Expressions of one kind are of one class. -/
theorem Body.class_cases {c d : Body} (hkind : c.getKind = d.getKind) :
    (∃ width value width' value', c = constant width value ∧ d = constant width' value') ∨
    (∃ updates index updates' index', c = read updates index ∧ d = read updates' index') ∨
    (∃ expr offset width expr' offset' width', c = extract expr offset width ∧ d = extract expr' offset' width') ∨
    (∃ kind src width src' width', c = cast kind src width ∧ d = cast kind src' width') ∨
    (∃ expr expr', c = not expr ∧ d = not expr') ∨ (c.Plain ∧ d.Plain ∧ c.kids.length = d.kids.length) := by
  cases c <;> cases d <;> simp only [getKind] at hkind <;>
    grind [CastKind.value_inj, CastKind.value_cases, BinaryKind.value_inj, BinaryKind.value_cases, Body.Plain, Body.kids]

theorem compareContents_plain {c d : Body} (hc : c.Plain) : Heap.compareContents cmp h fuel c d equivs = some (.eq, equivs) := by
  cases c <;> cases d <;> first | rfl | exact absurd hc id

theorem length_refs (ups : List (Nat × Nat)) : (refs ups).length = 2 * ups.length := by
  induction ups with
  | nil => rfl
  | cons up ups ih =>
    change (refs ups).length + 2 = _
    rw [ih, List.length_cons, Nat.mul_succ]

theorem getSize_of_chain {head : Option Nat} (hc : h.Chain head ups) : h.getSize head = some ups.length := by
  cases hc with
  | nil => rfl
  | cons node size next =>
    rw [Heap.getSize, node, Option.map_some, size]
    rfl

theorem compare_of_ne {α : Type} [Ord α] [LawfulEqOrd α] {x y : α} (hne : x ≠ y) (o : Ordering) :
    (Ord.compare x y).then o = Ord.compare x y := by
  cases hxy : Ord.compare x y with
  | eq => exact absurd (LawfulEqOrd.eq_of_compare hxy) hne
  | lt => rfl
  | gt => rfl

theorem compare_self' {α : Type} [Ord α] [ReflOrd α] (x : α) (o : Ordering) : (Ord.compare x x).then o = o := by
  rw [ReflOrd.compare_self]
  rfl

/-- The arrays and the updates of two reads. The indices `ks` and `ls` are compared later. -/
theorem compareUpdates_spec {a b : UpdateList} {name name' : List UInt8} {ups' : List (Nat × Nat)} {ks ls : List Structure}
    (ha : h.arrays a.root = some name) (hb : h.arrays b.root = some name') (hups : h.Chain a.head ups) (hups' : h.Chain b.head ups')
    (hts : RepAll h ts (refs ups)) (hus : RepAll h us (refs ups')) (hcmp : ∀ t ∈ ts, Compares hashValue h cmp t)
    (hs : Sound h equivs) (hfuel : ups.length ≤ fuel) :
    ∃ res, Finds h res (Heap.compareUpdates cmp h fuel a b equivs) ∧
      res.then (orderAll hashValue ks ls) =
        (contentsOrder (.read name a.root ups.length) (.read name' b.root ups'.length)).then
          (orderAll hashValue (ts ++ ks) (us ++ ls)) := by
  simp only [Heap.compareUpdates, ha, hb, getSize_of_chain hups, getSize_of_chain hups', Option.bind_eq_bind, Option.bind_some,
    contentsOrder, Label.contents]
  by_cases hname : name = name'
  · subst hname
    rw [if_neg (not_not_intro rfl), compare_self']
    by_cases hroot : a.root = b.root
    · rw [if_neg (not_not_intro hroot), hroot, compare_self']
      by_cases hsize : ups.length = ups'.length
      · rw [if_neg (not_not_intro hsize), hsize, compare_self']
        have hlength : ts.length = us.length := by
          rw [hts.length, hus.length, length_refs, length_refs, hsize]
        exact ⟨_, compareNodes_spec hups hups' hsize hts hus hcmp hs hfuel, (RoseTree.orderKids_append hlength).symm⟩
      · rw [if_pos hsize]
        exact ⟨_, ⟨equivs, rfl, hs⟩, by rw [compare_of_ne hsize, compare_of_ne hsize]⟩
    · rw [if_pos hroot]
      exact ⟨_, ⟨equivs, rfl, hs⟩, by rw [compare_of_ne hroot, compare_of_ne hroot, compare_of_ne hroot]⟩
  · rw [if_pos hname]
    exact ⟨_, ⟨equivs, rfl, hs⟩, by rw [compare_of_ne hname, compare_of_ne hname, compare_of_ne hname]⟩

theorem no_updates {ups' : List (Nat × Nat)} (hups : ups = []) (hups' : ups' = []) (hts : RepAll h ts (refs ups))
    (hus : RepAll h us (refs ups')) : ts = [] ∧ us = [] := by
  subst hups hups'
  exact ⟨List.length_eq_zero_iff.mp hts.length, List.length_eq_zero_iff.mp hus.length⟩

theorem Body.Plain.updates {c : Body} {name : List UInt8} (hc : c.Plain) (hr : c.Reads h name ups) : ups = [] := by
  cases c with
  | read => exact absurd hc id
  | _ => exact hr.2

theorem compareContents_spec {c d : Body} {name name' : List UInt8} {ups' : List (Nat × Nat)} {ks ls : List Structure}
    (hkind : c.getKind = d.getKind) (hc : c.Reads h name ups) (hd : d.Reads h name' ups') (hts : RepAll h ts (refs ups))
    (hus : RepAll h us (refs ups')) (hks : RepAll h ks c.kids) (hls : RepAll h ls d.kids)
    (hcmp : ∀ t ∈ ts ++ ks, Compares hashValue h cmp t) (hs : Sound h equivs) (hfuel : ups.length ≤ fuel) :
    ∃ res, Finds h res (Heap.compareContents cmp h fuel c d equivs) ∧
      res.then (orderAll hashValue ks ls) =
        (contentsOrder (c.label name ups.length) (d.label name' ups'.length)).then (orderAll hashValue (ts ++ ks) (us ++ ls)) := by
  rcases Body.class_cases hkind with ⟨width, value, width', value', rfl, rfl⟩ | ⟨updates, index, updates', index', rfl, rfl⟩ |
    ⟨expr, offset, width, expr', offset', width', rfl, rfl⟩ | ⟨kind, src, width, src', width', rfl, rfl⟩ | ⟨expr, expr', rfl, rfl⟩ |
    ⟨hplain, hplain', -⟩
  · obtain ⟨rfl, rfl⟩ : ts = [] ∧ us = [] := no_updates hc.2 hd.2 hts hus
    refine ⟨_, ⟨equivs, rfl, hs⟩, congrArg (Ordering.then · _) ?_⟩
    rw [contentsOrder, Body.label, Body.label, Label.contents, Label.contents, compare_self']
    by_cases hwidth : width = width'
    · subst hwidth
      rw [if_neg (not_not_intro rfl), compare_self']
    · rw [if_pos hwidth, compare_of_ne hwidth]
  · exact compareUpdates_spec hc.1 hd.1 hc.2 hd.2 hts hus (fun t ht => hcmp t (List.mem_append_left _ ht)) hs hfuel
  · obtain ⟨rfl, rfl⟩ : ts = [] ∧ us = [] := no_updates hc.2 hd.2 hts hus
    refine ⟨_, ⟨equivs, rfl, hs⟩, congrArg (Ordering.then · _) ?_⟩
    rw [contentsOrder, Body.label, Body.label, Label.contents, Label.contents, compare_self']
    by_cases hoffset : offset = offset'
    · rw [if_neg (not_not_intro hoffset), hoffset, compare_self']
    · rw [if_pos hoffset, compare_of_ne hoffset]
  · obtain ⟨rfl, rfl⟩ : ts = [] ∧ us = [] := no_updates hc.2 hd.2 hts hus
    refine ⟨_, ⟨equivs, rfl, hs⟩, congrArg (Ordering.then · _) ?_⟩
    rw [contentsOrder, Body.label, Body.label, Label.contents, Label.contents, compare_self', ReflOrd.compare_self, Ordering.then_eq]
  · obtain ⟨rfl, rfl⟩ : ts = [] ∧ us = [] := no_updates hc.2 hd.2 hts hus
    obtain ⟨t, _, rfl, ht, hnil⟩ := hks.cons
    obtain rfl : _ = [] := List.length_eq_zero_iff.mp hnil.length
    obtain ⟨u, _, rfl, hu, hnil'⟩ := hls.cons
    obtain rfl : _ = [] := List.length_eq_zero_iff.mp hnil'.length
    have hone := (hcmp t (List.mem_singleton_self t)).one
    obtain ⟨equivs₁, heq₁, hs₁⟩ := hone expr expr' u equivs ht hu hs
    obtain ⟨equivs₂, heq₂, hs₂⟩ := hone expr expr' u equivs₁ ht hu hs₁
    have hres : Finds h (order hashValue t u) (Heap.compareContents cmp h fuel (.not expr) (.not expr') equivs) := by
      simp only [Heap.compareContents, heq₁, Option.bind_eq_bind, Option.bind_some]
      cases hres : order hashValue t u with
      | eq => exact ⟨equivs₁, by rw [if_pos rfl]; rfl, hs₁⟩
      | lt => exact ⟨equivs₂, by rw [if_neg Ordering.noConfusion, heq₂, hres]; rfl, hs₂⟩
      | gt => exact ⟨equivs₂, by rw [if_neg Ordering.noConfusion, heq₂, hres]; rfl, hs₂⟩
    refine ⟨_, hres, ?_⟩
    -- the operand is compared again as a kid
    have hall : orderAll hashValue [t] [u] = order hashValue t u := Ordering.then_eq
    rw [List.nil_append, List.nil_append, hall]
    cases order hashValue t u <;> rfl
  · obtain ⟨rfl, rfl⟩ : ts = [] ∧ us = [] := no_updates (hplain.updates hc) (hplain'.updates hd) hts hus
    refine ⟨_, ⟨equivs, compareContents_plain hplain, hs⟩, congrArg (Ordering.then · _) ?_⟩
    cases c <;> cases d <;> first | rfl | exact absurd hplain id | exact absurd hplain' id

/-! ### Expressions -/

theorem order_mk (a b : Label) (ts us : List Structure) :
    order hashValue (.mk a ts) (.mk b us) = (Ord.compare a.kind b.kind).then
      ((Ord.compare (hashOf hashValue (.mk a ts)) (hashOf hashValue (.mk b us))).then
        ((contentsOrder a b).then ((Ord.compare ts.length us.length).then (orderAll hashValue ts us)))) := by
  simp only [order, RoseTree.order, Key.compare, compareLex, compareOn, key, contentsOrder, Ordering.then_assoc]
  rfl

theorem contentsOrder_eq {a b : Label} (hkind : a.kind = b.kind) (h : contentsOrder a b = .eq) : a = b := by
  rw [contentsOrder, Ordering.then_eq_eq, Ordering.then_eq_eq, Std.compare_eq_iff_eq, Std.compare_eq_iff_eq, Std.compare_eq_iff_eq] at h
  exact Label.ext hkind (Prod.ext h.1 (Prod.ext h.2.1 h.2.2))

/-- The label says how many expressions there are below. -/
theorem kids_length {c d : Body} {name name' : List UInt8} {ups' : List (Nat × Nat)} (hc : c.Reads h name ups) (hd : d.Reads h name' ups')
    (hlabel : c.label name ups.length = d.label name' ups'.length) :
    (refs ups ++ c.kids).length = (refs ups' ++ d.kids).length := by
  rw [List.length_append, List.length_append, length_refs, length_refs]
  cases c <;> cases d <;> simp only [Body.label, Label.read.injEq, reduceCtorEq] at hlabel <;>
    first
    | (rw [hlabel.2.2]; rfl)
    | (rw [hc.2, hd.2]; rfl)

/-- The hash of every expression is that of its structure. -/
def Hashed (hashValue : (width : Nat) → BitVec width → UInt32) (h : Heap) : Prop :=
  ∀ {p : Nat} {c : Object} {t : Structure}, h.exprs p = some c → Rep h t p → c.hashValue = hashOf hashValue t

theorem compare_spec (hhashed : Hashed hashValue h) (t : Structure) (ht : t.size ≤ fuel) : Compares hashValue h (h.compare fuel) t := by
  induction fuel generalizing t with
  | zero => exact absurd t.size_pos (Nat.not_lt.mpr ht)
  | succ fuel ih =>
    intro p q u equivs htp huq hs
    rw [Heap.compare]
    by_cases hpq : p = q
    · subst hpq
      rw [if_pos rfl, Rep.unique _ _ _ htp huq, order_self]
      exact ⟨equivs, rfl, hs⟩
    rw [if_neg hpq]
    by_cases hmem : (min p q, max p q) ∈ equivs
    · obtain ⟨v, hv, hv'⟩ := hs _ hmem
      have hsame : t = u := by
        rcases Nat.le_total p q with hle | hle
        · rw [Nat.min_eq_left hle] at hv
          rw [Nat.max_eq_right hle] at hv'
          rw [Rep.unique _ _ _ htp hv, Rep.unique _ _ _ huq hv']
        · rw [Nat.min_eq_right hle] at hv
          rw [Nat.max_eq_left hle] at hv'
          rw [Rep.unique _ _ _ htp hv', Rep.unique _ _ _ huq hv]
      rw [if_pos hmem, hsame, order_self]
      exact ⟨equivs, rfl, hs⟩
    rw [if_neg hmem]
    obtain ⟨label, kids⟩ := t
    obtain ⟨label', kids'⟩ := u
    obtain ⟨c, name, ups, hc, hr, rfl, hkids⟩ := id htp
    obtain ⟨d, name', ups', hd, hr', rfl, hkids'⟩ := id huq
    have hord : order hashValue (.mk (c.body.label name ups.length) kids) (.mk (d.body.label name' ups'.length) kids') = _ :=
      order_mk _ _ kids kids'
    rw [Body.kind_label, Body.kind_label, ← hhashed hc htp, ← hhashed hd huq] at hord
    simp only [hc, hd, Option.bind_eq_bind, Option.bind_some]
    by_cases hkind : c.body.getKind = d.body.getKind
    · by_cases hsame : c.hashValue = d.hashValue
      · rw [hkind, hsame, compare_self', compare_self'] at hord
        rw [if_neg (not_not_intro hkind), if_neg (not_not_intro hsame)]
        obtain ⟨ts, ks, rfl, hts, hks⟩ := hkids.split
        obtain ⟨us, ls, rfl, hus, hls⟩ := hkids'.split
        have hcmp : ∀ k ∈ ts ++ ks, Compares hashValue h (h.compare fuel) k := fun k hk =>
          ih k (Nat.le_of_lt_succ (Nat.lt_of_lt_of_le (RoseTree.size_lt_of_mem hk) ht))
        have hfuel : ups.length ≤ fuel := by
          have hlength := RoseTree.length_lt_size (c.body.label name ups.length) (ts ++ ks)
          rw [List.length_append, hts.length, length_refs] at hlength
          omega
        obtain ⟨res, ⟨equivs₁, heq₁, hs₁⟩, hres⟩ := compareContents_spec hkind hr hr' hts hus hks hls hcmp hs hfuel
        have hlabels : order hashValue (.mk (c.body.label name ups.length) (ts ++ ks)) (.mk (d.body.label name' ups'.length) (us ++ ls)) =
            res.then (orderAll hashValue ks ls) := by
          rw [hord, hres]
          cases hcontents : contentsOrder (c.body.label name ups.length) (d.body.label name' ups'.length) with
          | eq =>
            have hlabel := contentsOrder_eq (by rw [Body.kind_label, Body.kind_label, hkind]) hcontents
            rw [hkids.length, hkids'.length, kids_length hr hr' hlabel, compare_self']
          | lt => rfl
          | gt => rfl
        have hlength : c.body.kids.length = d.body.kids.length := by
          rcases Body.class_cases hkind with ⟨_, _, _, _, heq, heq'⟩ | ⟨_, _, _, _, heq, heq'⟩ | ⟨_, _, _, _, _, _, heq, heq'⟩ |
            ⟨_, _, _, _, _, heq, heq'⟩ | ⟨_, _, heq, heq'⟩ | ⟨-, -, heq⟩
          all_goals first | exact heq | (rw [heq, heq']; rfl)
        obtain ⟨equivs₂, heq₂, hs₂⟩ := compareKids_spec hlength hks hls (fun k hk => hcmp k (List.mem_append_right _ hk)) hs₁
        have heq₂ : Heap.compareKids (h.compare fuel) c.body.kids d.body.kids equivs₁ = some (orderAll hashValue ks ls, equivs₂) := heq₂
        rw [heq₁, Option.bind_some, hlabels]
        cases res with
        | lt => exact ⟨equivs₁, rfl, hs₁⟩
        | gt => exact ⟨equivs₁, rfl, hs₁⟩
        | eq =>
          rw [if_neg (not_not_intro rfl), heq₂, Option.bind_some]
          cases hall : orderAll hashValue ks ls with
          | lt => exact ⟨equivs₂, rfl, hs₂⟩
          | gt => exact ⟨equivs₂, rfl, hs₂⟩
          | eq =>
            refine ⟨(min p q, max p q) :: equivs₂, rfl, List.forall_mem_cons.mpr ⟨?_, hs₂⟩⟩
            rw [hall] at hlabels
            have heq := (RoseTree.order_eq_iff (determines_key hashValue) _ _).mp hlabels
            rw [← heq] at huq
            rcases Nat.le_total p q with hle | hle
            · exact ⟨_, by rw [Nat.min_eq_left hle]; exact htp, by rw [Nat.max_eq_right hle]; exact huq⟩
            · exact ⟨_, by rw [Nat.min_eq_right hle]; exact huq, by rw [Nat.max_eq_left hle]; exact htp⟩
      · rw [hkind, compare_self', compare_of_ne hsame] at hord
        rw [if_neg (not_not_intro hkind), if_pos hsame, hord]
        exact ⟨equivs, rfl, hs⟩
    · rw [compare_of_ne hkind] at hord
      rw [if_pos hkind, hord]
      exact ⟨equivs, rfl, hs⟩

/-! ### Allocation -/

/-- The new heap has the objects of the old one. -/
structure Grows (h h' : Heap) : Prop where
  exprs : ∀ {p c}, h.exprs p = some c → h'.exprs p = some c
  updates : ∀ {n u}, h.updates n = some u → h'.updates n = some u
  arrays : ∀ {a name}, h.arrays a = some name → h'.arrays a = some name

variable {h' : Heap}

theorem Heap.Chain.mono {head : Option Nat} (hc : h.Chain head ups) (hg : Grows h h') : h'.Chain head ups := by
  induction hc with
  | nil => exact .nil
  | cons node size _ ih => exact .cons (hg.updates node) size ih

theorem Body.Reads.mono {body : Body} {name : List UInt8} (hr : body.Reads h name ups) (hg : Grows h h') : body.Reads h' name ups := by
  cases body with
  | read updates index => exact ⟨hg.arrays hr.1, hr.2.mono hg⟩
  | _ => exact hr

mutual
theorem Rep.mono {t : Structure} {p : Nat} (ht : Rep h t p) (hg : Grows h h') : Rep h' t p := by
  cases t with
  | mk label kids =>
    obtain ⟨c, name, ups, hc, hr, hlabel, hkids⟩ := ht
    exact ⟨c, name, ups, hg.exprs hc, hr.mono hg, hlabel, RepAll.mono hkids hg⟩

theorem RepAll.mono {ts : List Structure} {ps : List Nat} (hts : RepAll h ts ps) (hg : Grows h h') : RepAll h' ts ps := by
  cases ts with
  | nil => exact hts
  | cons t ts =>
    obtain ⟨p, ps', rfl, ht, hts⟩ := hts
    exact ⟨p, ps', rfl, ht.mono hg, hts.mono hg⟩
end

/-- The hashes in front of an update list's own hash. -/
def xorAll (hashes : List UInt32) : UInt32 := hashes.foldl (· ^^^ ·) 0

theorem foldl_xor (hash : UInt32) (hashes : List UInt32) : hashes.foldl (· ^^^ ·) hash = hash ^^^ xorAll hashes := by
  induction hashes generalizing hash with
  | nil => exact UInt32.xor_zero.symm
  | cons x hashes ih => rw [xorAll, List.foldl_cons, List.foldl_cons, ih, ih, UInt32.zero_xor, UInt32.xor_assoc]

/-- Every object has a structure, and its hash is that of the structure. -/
structure Valid (hashValue : (width : Nat) → BitVec width → UInt32) (h : Heap) : Prop where
  expr : ∀ {p c}, h.exprs p = some c → ∃ t, Rep h t p ∧ c.hashValue = hashOf hashValue t
  node : ∀ {n u}, h.updates n = some u → ∃ ups ts, h.Chain (some n) ups ∧ RepAll h ts (refs ups) ∧
    u.hashValue = xorAll (ts.map (hashOf hashValue))

theorem Valid.hashed (hv : Valid hashValue h) : Hashed hashValue h := by
  intro p c t hc ht
  obtain ⟨t', ht', hhash⟩ := hv.expr hc
  rw [hhash, Rep.unique _ _ _ ht ht']

theorem Valid.hash (hv : Valid hashValue h) {hash : UInt32} (hp : h.hash p = some hash) : ∃ t, Rep h t p ∧ hash = hashOf hashValue t := by
  obtain ⟨c, hc, rfl⟩ := Option.map_eq_some_iff.mp hp
  exact hv.expr hc

/-- The head of an update list. -/
theorem Valid.list (hv : Valid hashValue h) {head : Option Nat} {nodes : UInt32}
    (hnodes : head.elim (some 0) (fun n => (h.updates n).map UpdateNode.hashValue) = some nodes) :
    ∃ ups ts, h.Chain head ups ∧ RepAll h ts (refs ups) ∧ nodes = xorAll (ts.map (hashOf hashValue)) := by
  cases head with
  | none =>
    obtain rfl := Option.some.inj hnodes
    exact ⟨[], [], .nil, rfl, rfl⟩
  | some n =>
    obtain ⟨u, hu, rfl⟩ := Option.map_eq_some_iff.mp hnodes
    exact hv.node hu

theorem Valid.kids (hv : Valid hashValue h) {res hash : UInt32}
    (hfold : ps.foldlM (fun (res : UInt32) kid => do return (res <<< 1) ^^^ ((← h.hash kid) * Heap.magic)) res = some hash) :
    ∃ ks, RepAll h ks ps ∧ hash = (ks.map (hashOf hashValue)).foldl (fun (res hash : UInt32) => (res <<< 1) ^^^ (hash * Heap.magic)) res := by
  induction ps generalizing res with
  | nil =>
    obtain rfl := Option.some.inj hfold
    exact ⟨[], rfl, rfl⟩
  | cons p ps ih =>
    rw [List.foldlM_cons] at hfold
    obtain ⟨res', hres', hrest⟩ := Option.bind_eq_some_iff.mp hfold
    obtain ⟨hash', hp, hres'⟩ := Option.bind_eq_some_iff.mp hres'
    obtain rfl := Option.some.inj hres'
    obtain ⟨t, ht, rfl⟩ := hv.hash hp
    obtain ⟨ks, hks, rfl⟩ := ih hrest
    exact ⟨t :: ks, ⟨p, ps, rfl, ht, hks⟩, rfl⟩

theorem Valid.one (hv : Valid hashValue h) {hash : UInt32} (hp : h.hash p = some hash) :
    ∃ t, RepAll h [t] [p] ∧ hash = hashOf hashValue t := by
  obtain ⟨t, ht, rfl⟩ := hv.hash hp
  exact ⟨t, ⟨p, [], rfl, ht, rfl⟩, rfl⟩

theorem Valid.computeHash (hv : Valid hashValue h) {body : Body} {hash : UInt32} (hcompute : h.computeHash hashValue body = some hash) :
    ∃ name ups ts ks, body.Reads h name ups ∧ RepAll h ts (refs ups) ∧ RepAll h ks body.kids ∧
      hash = labelHash hashValue (body.label name ups.length) ((ts ++ ks).map (hashOf hashValue)) := by
  cases body with
  | constant width value =>
    obtain rfl := Option.some.inj hcompute
    exact ⟨[], [], [], [], ⟨rfl, rfl⟩, rfl, rfl, rfl⟩
  | cast | extract | not =>
    obtain ⟨hash', hsrc, heq⟩ := Option.bind_eq_some_iff.mp hcompute
    obtain rfl := Option.some.inj heq
    obtain ⟨t, ht, rfl⟩ := hv.one hsrc
    exact ⟨[], [], [], [t], ⟨rfl, rfl⟩, rfl, ht, rfl⟩
  | read updates index =>
    obtain ⟨hash', hindex, hrest⟩ := Option.bind_eq_some_iff.mp hcompute
    obtain ⟨hash'', hupdates, heq⟩ := Option.bind_eq_some_iff.mp hrest
    obtain rfl := Option.some.inj heq
    obtain ⟨name, hname, hupdates⟩ := Option.bind_eq_some_iff.mp hupdates
    obtain ⟨nodes, hnodes, rfl⟩ : ∃ nodes, updates.head.elim (some 0) (fun n => (h.updates n).map UpdateNode.hashValue) = some nodes ∧
        hash'' = Heap.nameHash name ^^^ nodes := by
      cases hhead : updates.head with
      | none =>
        rw [hhead] at hupdates
        obtain rfl := Option.some.inj hupdates
        exact ⟨0, rfl, UInt32.xor_zero.symm⟩
      | some n =>
        rw [hhead] at hupdates
        obtain ⟨u, hu, heq⟩ := Option.bind_eq_some_iff.mp hupdates
        obtain rfl := Option.some.inj heq
        exact ⟨u.hashValue, by rw [Option.elim_some, hu]; rfl, rfl⟩
    obtain ⟨t, ht, rfl⟩ := hv.one hindex
    obtain ⟨ups, ts, hups, hts, rfl⟩ := hv.list hnodes
    refine ⟨name, ups, ts, [t], ⟨hname, hups⟩, hts, ht, ?_⟩
    rw [Body.label, labelHash, List.map_append, List.map_singleton, List.dropLast_concat, List.getLastD_concat, foldl_xor]
  | notOptimized src | select cond trueExpr falseExpr | concat left right | binary kind left right =>
    obtain ⟨ks, hks, rfl⟩ := hv.kids hcompute
    exact ⟨[], [], [], ks, ⟨rfl, rfl⟩, rfl, hks, rfl⟩

theorem Valid.array (hv : Valid hashValue h) (address : Nat) (name : List UInt8) :
    Valid hashValue (h.exec hashValue (.array address name)) := by
  rw [Heap.exec]
  split
  case isTrue => exact hv
  case isFalse hfree =>
    have hg : Grows h { h with arrays := Function.update h.arrays address (some name) } := by
      refine ⟨id, id, fun {a _} ha => ?_⟩
      have hne : a ≠ address := fun heq => hfree (by rw [← heq, ha]; rfl)
      exact (Function.update_of_ne hne ..).trans ha
    refine ⟨fun hc => ?_, fun hu => ?_⟩
    · obtain ⟨t, ht, hhash⟩ := hv.expr hc
      exact ⟨t, ht.mono hg, hhash⟩
    · obtain ⟨ups, ts, hc, hts, hhash⟩ := hv.node hu
      exact ⟨ups, ts, hc.mono hg, hts.mono hg, hhash⟩

theorem Valid.alloc (hv : Valid hashValue h) (address : Nat) (body : Body) :
    Valid hashValue (h.exec hashValue (.alloc address body)) := by
  rw [Heap.exec]
  split
  case isTrue => exact hv
  case isFalse hfree =>
    cases hcompute : h.computeHash hashValue body with
    | none => exact hv
    | some hash =>
      change Valid hashValue { h with exprs := Function.update h.exprs address (some ⟨body, hash⟩) }
      have hg : Grows h { h with exprs := Function.update h.exprs address (some ⟨body, hash⟩) } := by
        refine ⟨fun {a _} ha => ?_, id, id⟩
        have hne : a ≠ address := fun heq => hfree (by rw [← heq, ha]; rfl)
        exact (Function.update_of_ne hne ..).trans ha
      refine ⟨fun {p c} hc => ?_, fun hu => ?_⟩
      · by_cases hp : p = address
        · obtain rfl : c = ⟨body, hash⟩ := by
            subst hp
            exact Option.some.inj (hc.symm.trans (Function.update_self ..))
          obtain ⟨name, ups, ts, ks, hr, hts, hks, rfl⟩ := hv.computeHash hcompute
          refine ⟨.mk (body.label name ups.length) (ts ++ ks), ⟨_, name, ups, hc, hr.mono hg, rfl, ?_⟩, ?_⟩
          · exact (hts.mono hg).append (hks.mono hg)
          · rw [hashOf, RoseTree.fold]
        · obtain ⟨t, ht, hhash⟩ := hv.expr ((Function.update_of_ne hp ..).symm.trans hc)
          exact ⟨t, ht.mono hg, hhash⟩
      · obtain ⟨ups, ts, hc, hts, hhash⟩ := hv.node hu
        exact ⟨ups, ts, hc.mono hg, hts.mono hg, hhash⟩

theorem Valid.update (hv : Valid hashValue h) (address : Nat) (next : Option Nat) (index value : Nat) :
    Valid hashValue (h.exec hashValue (.update address next index value)) := by
  rw [Heap.exec]
  split
  case isTrue => exact hv
  case isFalse hfree =>
    cases hnode : h.nodeHash next index value with
    | none => exact hv
    | some hash =>
      obtain ⟨x, hx, hrest⟩ := Option.bind_eq_some_iff.mp hnode
      obtain ⟨y, hy, hrest⟩ := Option.bind_eq_some_iff.mp hrest
      obtain ⟨nodes, hnodes, rfl⟩ : ∃ nodes, next.elim (some 0) (fun n => (h.updates n).map UpdateNode.hashValue) = some nodes ∧
          hash = (x ^^^ y) ^^^ nodes := by
        cases next with
        | none => exact ⟨0, rfl, (Option.some.inj hrest).symm.trans UInt32.xor_zero.symm⟩
        | some n =>
          obtain ⟨u, hu, heq⟩ := Option.bind_eq_some_iff.mp hrest
          exact ⟨u.hashValue, by rw [Option.elim_some, hu]; rfl, (Option.some.inj heq).symm⟩
      obtain ⟨ups, ts, hups, hts, rfl⟩ := hv.list hnodes
      obtain ⟨t, ht, rfl⟩ := hv.hash hx
      obtain ⟨u, hu, rfl⟩ := hv.hash hy
      simp only [getSize_of_chain hups, Option.bind_eq_bind, Option.bind_some]
      have hg : Grows h { h with updates := Function.update h.updates address (some ⟨next, index, value, 1 + ups.length,
          (hashOf hashValue t ^^^ hashOf hashValue u) ^^^ xorAll (ts.map (hashOf hashValue))⟩) } := by
        refine ⟨id, fun {a _} ha => ?_, id⟩
        have hne : a ≠ address := fun heq => hfree (by rw [← heq, ha]; rfl)
        exact (Function.update_of_ne hne ..).trans ha
      change Valid hashValue { h with updates := Function.update h.updates address (some ⟨next, index, value, 1 + ups.length,
        (hashOf hashValue t ^^^ hashOf hashValue u) ^^^ xorAll (ts.map (hashOf hashValue))⟩) }
      refine ⟨fun hc => ?_, fun {n w} hn => ?_⟩
      · obtain ⟨t, ht, hhash⟩ := hv.expr hc
        exact ⟨t, ht.mono hg, hhash⟩
      · by_cases haddress : n = address
        · subst haddress
          obtain rfl := Option.some.inj (hn.symm.trans (Function.update_self ..))
          refine ⟨(index, value) :: ups, t :: u :: ts, .cons hn (Nat.add_comm ..) (hups.mono hg),
            ⟨index, _, rfl, ht.mono hg, value, _, rfl, hu.mono hg, hts.mono hg⟩, ?_⟩
          change _ = (ts.map (hashOf hashValue)).foldl (· ^^^ ·) (0 ^^^ hashOf hashValue t ^^^ hashOf hashValue u)
          rw [foldl_xor, UInt32.zero_xor]
        · obtain ⟨ups', ts', hc, hts', hhash⟩ := hv.node ((Function.update_of_ne haddress ..).symm.trans hn)
          exact ⟨ups', ts', hc.mono hg, hts'.mono hg, hhash⟩

theorem Valid.run (hashValue : (width : Nat) → BitVec width → UInt32) (commands : List Heap.Command) :
    Valid hashValue (Heap.run hashValue commands) := by
  have hstep : ∀ (commands : List Heap.Command) (h : Heap), Valid hashValue h → Valid hashValue (commands.foldl (Heap.exec hashValue) h) := by
    intro commands
    induction commands with
    | nil => exact fun h hv => hv
    | cons command commands ih =>
      intro h hv
      refine ih _ ?_
      cases command with
      | array address name => exact hv.array address name
      | update address next index value => exact hv.update address next index value
      | alloc address body => exact hv.alloc address body
  exact hstep commands _ ⟨fun hc => (Option.some_ne_none _ hc.symm).elim, fun hu => (Option.some_ne_none _ hu.symm).elim⟩

/-! ### The order -/

/-- The two expressions are structurally equal: they have the same kinds, widths, constants, arrays, updates and kids. -/
def Same (h : Heap) (p q : Nat) : Prop := ∃ t, Rep h t p ∧ Rep h t q

/-- `compare` finds a total order of the expressions of the heap that tells apart what is not structurally equal. It does not matter
what has been compared before. -/
structure TotalOrder (h : Heap) (order : Nat → Nat → Ordering) : Prop where
  compare : ∀ pairs : List (Nat × Nat), (∀ pq ∈ pairs, (h.exprs pq.1).isSome ∧ (h.exprs pq.2).isSome) →
    ∀ p q, (h.exprs p).isSome → (h.exprs q).isSome → ∃ n, ∀ fuel ≥ n, ∃ equivs equivs',
      h.compareAll fuel pairs [] = some equivs ∧ h.compare fuel p q equivs = some (order p q, equivs') ∧
        Heap.compareOne (h.compare fuel) p q equivs = some (order p q, [])
  swap : ∀ p q, (h.exprs p).isSome → (h.exprs q).isSome → order q p = (order p q).swap
  trans : ∀ p q r, (h.exprs p).isSome → (h.exprs q).isSome → (h.exprs r).isSome →
    (order p q).isLE → (order q r).isLE → (order p r).isLE
  eq_iff : ∀ p q, (h.exprs p).isSome → (h.exprs q).isSome → (order p q = .eq ↔ Same h p q)
  hash : ∀ p q, Same h p q → h.hash p = h.hash q

theorem compareAll_spec (hhashed : Hashed hashValue h) {pairs : List (Nat × Nat)} {str : Nat → Structure}
    (hpairs : ∀ pq ∈ pairs, Rep h (str pq.1) pq.1 ∧ Rep h (str pq.2) pq.2 ∧ (str pq.1).size ≤ fuel) (hs : Sound h equivs) :
    ∃ equivs', h.compareAll fuel pairs equivs = some equivs' ∧ Sound h equivs' := by
  induction pairs generalizing equivs with
  | nil => exact ⟨equivs, rfl, hs⟩
  | cons pq pairs ih =>
    obtain ⟨⟨hp, hq, hsize⟩, hrest⟩ := List.forall_mem_cons.mp hpairs
    obtain ⟨equivs₁, heq₁, hs₁⟩ := compare_spec hhashed _ hsize _ _ _ _ hp hq hs
    obtain ⟨equivs₂, heq₂, hs₂⟩ := ih hrest hs₁
    exact ⟨equivs₂, by rw [Heap.compareAll, heq₁]; exact heq₂, hs₂⟩

theorem exists_bound {α : Type} (f : α → Nat) (xs : List α) : ∃ n, ∀ x ∈ xs, f x ≤ n := by
  induction xs with
  | nil => exact ⟨0, fun x hx => absurd hx List.not_mem_nil⟩
  | cons x xs ih =>
    obtain ⟨n, hn⟩ := ih
    exact ⟨max (f x) n, List.forall_mem_cons.mpr ⟨Nat.le_max_left _ _, fun y hy => Nat.le_trans (hn y hy) (Nat.le_max_right _ _)⟩⟩

theorem Valid.totalOrder (hv : Valid hashValue h) : ∃ order, TotalOrder h order := by
  have hrep : ∀ p, ∃ t, (h.exprs p).isSome → Rep h t p := fun p => by
    cases hc : h.exprs p with
    | none => exact ⟨.mk .not [], fun hsome => absurd hsome Bool.false_ne_true⟩
    | some c =>
      obtain ⟨t, ht, -⟩ := hv.expr hc
      exact ⟨t, fun _ => ht⟩
  obtain ⟨str, hstr⟩ := Classical.skolem.mp hrep
  have hkey := determines_key hashValue
  refine ⟨fun p q => ExprCompare.order hashValue (str p) (str q), ?_, fun p q _ _ => RoseTree.order_swap hkey _ _,
    fun p q r _ _ _ => RoseTree.order_trans hkey, fun p q hp hq => ?_, fun p q hsame => ?_⟩
  · intro pairs hpairs p q hp hq
    obtain ⟨n, hn⟩ := exists_bound (fun pq : Nat × Nat => (str pq.1).size) pairs
    refine ⟨max n (str p).size, fun fuel hfuel => ?_⟩
    obtain ⟨equivs, heq, hs⟩ := compareAll_spec hv.hashed (fun pq hpq => ⟨hstr _ (hpairs pq hpq).1,
      hstr _ (hpairs pq hpq).2, Nat.le_trans (hn pq hpq) (Nat.le_trans (Nat.le_max_left _ _) hfuel)⟩) sound_nil
    obtain ⟨equivs', heq', -⟩ := compare_spec hv.hashed _ (Nat.le_trans (Nat.le_max_right _ _) hfuel) p q _ _ (hstr p hp) (hstr q hq) hs
    exact ⟨equivs, equivs', heq, heq', by rw [Heap.compareOne, heq']; rfl⟩
  · rw [ExprCompare.order, RoseTree.order_eq_iff hkey]
    constructor
    · intro heq
      exact ⟨str p, hstr p hp, heq ▸ hstr q hq⟩
    · rintro ⟨t, htp, htq⟩
      rw [Rep.unique _ _ _ (hstr p hp) htp, Rep.unique _ _ _ (hstr q hq) htq]
  · obtain ⟨⟨label, kids⟩, htp, htq⟩ := hsame
    obtain ⟨c, -, -, hc, -⟩ := id htp
    obtain ⟨d, -, -, hd, -⟩ := id htq
    rw [Heap.hash, Heap.hash, hc, hd, Option.map_some, Option.map_some, hv.hashed hc htp, hv.hashed hd htq]

/-- Comparison decides structural equality, on every heap that can be built. -/
theorem run_totalOrder (hashValue : (width : Nat) → BitVec width → UInt32) (commands : List Heap.Command) :
    ∃ order, TotalOrder (Heap.run hashValue commands) order :=
  (Valid.run hashValue commands).totalOrder

end

end CapTaint.Klee.ExprCompare
