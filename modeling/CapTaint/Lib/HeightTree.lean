import CapTaint.Lib.SortedList

/-! # Height-balanced search trees

Trees whose siblings differ by two in their heights, at most. Rotations restore this after one of them has grown or
shrunk by one. The elements are ordered by their keys. -/

namespace CapTaint.HeightTree

variable {α β κ : Type}

/-- Each node has its height with it. -/
inductive Tree (α : Type)
  | nil
  | node (left : Tree α) (value : α) (right : Tree α) (height : Nat)

namespace Tree

def height : Tree α → Nat
  | nil => 0
  | node _ _ _ height => height

def toList : Tree α → List α
  | nil => []
  | node left value right _ => left.toList ++ value :: right.toList

/-- The number of nodes on the longest path. -/
def depth : Tree α → Nat
  | nil => 0
  | node left _ right _ => max left.depth right.depth + 1

def size : Tree α → Nat
  | nil => 0
  | node left _ right _ => left.size + 1 + right.size

/-- The trees at the nodes. -/
def subtrees : Tree α → List (Tree α)
  | nil => []
  | node left value right height => node left value right height :: (left.subtrees ++ right.subtrees)

def map (f : α → β) : Tree α → Tree β
  | nil => nil
  | node left value right height => node (left.map f) (f value) (right.map f) height

/-- The elements from the one at place `i` up to the root, with those above it. -/
def path : Tree α → Nat → List α → List α
  | nil, _, above => above
  | node left value right _, i, above =>
    if i < left.size then left.path i (value :: above)
    else if i = left.size then value :: above
    else right.path (i - left.size - 1) (value :: above)

/-- A new node. -/
def join (left : Tree α) (value : α) (right : Tree α) : Tree α := node left value right (max left.height right.height + 1)

/-- The left subtree is too high. -/
def rotateRight (left : Tree α) (value : α) (right : Tree α) : Tree α :=
  match left with
  | nil => join nil value right
  | node ll lvalue lr _ =>
    if lr.height ≤ ll.height then join ll lvalue (join lr value right)
    else
      match lr with
      | nil => join ll lvalue (join nil value right)
      | node lrl lrvalue lrr _ => join (join ll lvalue lrl) lrvalue (join lrr value right)

/-- The right subtree is too high. -/
def rotateLeft (left : Tree α) (value : α) (right : Tree α) : Tree α :=
  match right with
  | nil => join left value nil
  | node rl rvalue rr _ =>
    if rl.height ≤ rr.height then join (join left value rl) rvalue rr
    else
      match rl with
      | nil => join (join left value nil) rvalue rr
      | node rll rlvalue rlr _ => join (join left value rll) rlvalue (join rlr rvalue rr)

def balance (left : Tree α) (value : α) (right : Tree α) : Tree α :=
  if right.height + 2 < left.height then rotateRight left value right
  else if left.height + 2 < right.height then rotateLeft left value right
  else join left value right

def popMin : Tree α → Option (α × Tree α)
  | nil => none
  | node nil value right _ => some (value, right)
  | node left value right _ => left.popMin.map fun popped => (popped.1, balance popped.2 value right)

def popMax : Tree α → Option (α × Tree α)
  | nil => none
  | node left value nil _ => some (value, left)
  | node left value right _ => right.popMax.map fun popped => (popped.1, balance left value popped.2)

section
variable [LinearOrder κ] (key : α → κ)

/-- An element with the key stays. -/
def insert (x : α) : Tree α → Tree α
  | nil => join nil x nil
  | node left value right height =>
    if key x < key value then balance (left.insert x) value right
    else if key value < key x then balance left value (right.insert x)
    else node left value right height

/-- An element with the key is replaced. -/
def replace (x : α) : Tree α → Tree α
  | nil => join nil x nil
  | node left value right _ =>
    if key x < key value then balance (left.replace x) value right
    else if key value < key x then balance left value (right.replace x)
    else join left x right

/-- The trees below a node without its element. -/
def merge (left right : Tree α) : Tree α :=
  match left with
  | nil => right
  | node .. => right.popMin.elim left fun popped => balance left popped.1 popped.2

def remove (k : κ) : Tree α → Tree α
  | nil => nil
  | node left value right _ =>
    if k < key value then balance (left.remove k) value right
    else if key value < k then balance left value (right.remove k)
    else merge left right

def lookup (k : κ) : Tree α → Option α
  | nil => none
  | node left value right _ => if k < key value then left.lookup k else if key value < k then right.lookup k else some value

/-- The element with the greatest key up to `k`, or else the one found before. -/
def lookupPrevious (k : κ) : Option α → Tree α → Option α
  | result, nil => result
  | result, node left value right _ =>
    if k < key value then left.lookupPrevious k result
    else if key value < k then right.lookupPrevious k (some value)
    else some value

end

/-! ### Elements -/

attribute [local simp] toList

variable {l r l' r' t t' : Tree α} {v x : α} {h : Nat}

@[simp] theorem height_nil : (nil : Tree α).height = 0 := rfl

@[simp] theorem height_node : (node l v r h).height = h := rfl

@[simp] theorem toList_join : (join l v r).toList = l.toList ++ v :: r.toList := rfl

@[simp] theorem height_join : (join l v r).height = max l.height r.height + 1 := rfl

theorem toList_rotateRight : (rotateRight l v r).toList = l.toList ++ v :: r.toList := by
  cases l with
  | nil => rfl
  | node ll lv lr h =>
    unfold rotateRight
    dsimp only
    split
    case isTrue => simp [toList]
    case isFalse => cases lr <;> simp [toList]

theorem toList_rotateLeft : (rotateLeft l v r).toList = l.toList ++ v :: r.toList := by
  cases r with
  | nil => rfl
  | node rl rv rr h =>
    unfold rotateLeft
    dsimp only
    split
    case isTrue => simp [toList]
    case isFalse => cases rl <;> simp [toList]

@[simp] theorem toList_balance : (balance l v r).toList = l.toList ++ v :: r.toList := by
  rw [balance]
  split
  case isTrue => exact toList_rotateRight
  case isFalse =>
    split
    case isTrue => exact toList_rotateLeft
    case isFalse => rfl

theorem size_eq : (t : Tree α) → t.size = t.toList.length
  | nil => rfl
  | node left value right _ => by
    rw [size, toList, List.length_append, List.length_cons, size_eq left, size_eq right]
    omega

theorem toList_map (f : α → β) : (t : Tree α) → (t.map f).toList = t.toList.map f
  | nil => rfl
  | node left value right _ => by rw [map, toList, toList, List.map_append, List.map_cons, toList_map f left, toList_map f right]

@[simp] theorem size_nil : (nil : Tree α).size = 0 := rfl

@[simp] theorem size_node : (node l v r h).size = l.size + 1 + r.size := rfl

theorem path_left {i : Nat} (hi : i < l.size) (above : List α) : (node l v r h).path i above = l.path i (v :: above) := by
  rw [path, if_pos hi]

theorem path_here (above : List α) : (node l v r h).path l.size above = v :: above := by
  rw [path, if_neg (Nat.lt_irrefl _), if_pos rfl]

theorem path_right (i : Nat) (above : List α) : (node l v r h).path (l.size + 1 + i) above = r.path i (v :: above) := by
  rw [path, if_neg (by omega), if_neg (by omega), show l.size + 1 + i - l.size - 1 = i by omega]

theorem path_first (above : List α) : (node l v r h).path 0 above = l.path 0 (v :: above) := by
  cases l with
  | nil => exact path_here above
  | node => exact path_left (by rw [size_node]; omega) above

theorem path_last (above : List α) : (node l v r h).path ((node l v r h).size - 1) above = r.path (r.size - 1) (v :: above) := by
  cases r with
  | nil => exact path_here above
  | node rl rv rr rh =>
    have hplace : (node l v (node rl rv rr rh) h).size - 1 = l.size + 1 + ((node rl rv rr rh).size - 1) := by
      simp only [size_node]
      omega
    rw [hplace, path_right]

theorem path_eq_cons : {t : Tree α} → {i : Nat} → (above : List α) → (hi : i < t.toList.length) →
    ∃ rest, t.path i above = t.toList[i] :: rest
  | node left value right _, i, above, hi => by
    have hsize := size_eq left
    rcases Nat.lt_trichotomy i left.size with hlt | rfl | hgt
    · obtain ⟨rest, heq⟩ := path_eq_cons (value :: above) (hsize ▸ hlt)
      refine ⟨rest, ?_⟩
      rw [path_left hlt, heq]
      simp only [toList, List.getElem_append_left (hsize ▸ hlt)]
    · refine ⟨above, ?_⟩
      rw [path_here]
      simp [toList, hsize]
    · obtain ⟨j, rfl⟩ : ∃ j, i = left.size + 1 + j := ⟨i - (left.size + 1), by omega⟩
      have hj : j < right.toList.length := by
        rw [toList, List.length_append, List.length_cons] at hi
        omega
      obtain ⟨rest, heq⟩ := path_eq_cons (value :: above) hj
      refine ⟨rest, ?_⟩
      rw [path_right, heq]
      simp [toList, hsize, List.getElem_append_right, Nat.add_right_comm, Nat.add_sub_cancel_left, Nat.add_assoc]

theorem length_path_le : (t : Tree α) → (i : Nat) → (above : List α) → (t.path i above).length ≤ above.length + t.depth
  | nil, _, _ => le_rfl
  | node left value right _, i, above => by
    have hleft := length_path_le left i (value :: above)
    have hright := length_path_le right (i - left.size - 1) (value :: above)
    rw [List.length_cons] at hleft hright
    rw [path, depth]
    split
    case isTrue => omega
    case isFalse =>
      split
      case isTrue =>
        rw [List.length_cons]
        omega
      case isFalse => omega

theorem height_map (f : α → β) (t : Tree α) : (t.map f).height = t.height := by
  cases t with
  | nil => rfl
  | node => rfl

theorem popMin_toList : (t : Tree α) → t.popMin.map (fun popped => popped.1 :: popped.2.toList) =
    if t.toList = [] then none else some t.toList
  | nil => rfl
  | node nil value right _ => rfl
  | node (node ll lv lr lh) value right _ => by
    have ih := popMin_toList (node ll lv lr lh)
    rw [if_neg (by simp [toList])] at ih
    obtain ⟨⟨least, rest⟩, hpop, heq⟩ := Option.map_eq_some_iff.mp ih
    rw [if_neg (by simp [toList]), popMin, hpop, toList, ← heq]
    · simp
    · intro hnil
      cases hnil

theorem popMax_toList : (t : Tree α) → t.popMax.map (fun popped => popped.2.toList ++ [popped.1]) =
    if t.toList = [] then none else some t.toList
  | nil => rfl
  | node left value nil _ => by
    rw [if_neg (by simp [toList])]
    rfl
  | node left value (node rl rv rr rh) _ => by
    have ih := popMax_toList (node rl rv rr rh)
    rw [if_neg (by simp [toList])] at ih
    obtain ⟨⟨greatest, rest⟩, hpop, heq⟩ := Option.map_eq_some_iff.mp ih
    rw [if_neg (by simp [toList]), popMax, hpop, toList, ← heq]
    · simp
    · intro hnil
      cases hnil

/-! ### Balance -/

/-- The heights are those of the subtrees, and siblings differ by two at most. -/
def Balanced : Tree α → Prop
  | nil => True
  | node left _ right height => height = max left.height right.height + 1 ∧ left.height ≤ right.height + 2 ∧
      right.height ≤ left.height + 2 ∧ left.Balanced ∧ right.Balanced

theorem Balanced.depth : {t : Tree α} → t.Balanced → t.depth = t.height
  | nil, _ => rfl
  | node left _ right _, ⟨hheight, _, _, hleft, hright⟩ => by
    rw [Tree.depth, Balanced.depth hleft, Balanced.depth hright, ← hheight, height]

theorem Balanced.map (f : α → β) : {t : Tree α} → (t.map f).Balanced → t.Balanced
  | nil, _ => trivial
  | node left _ right _, ⟨hheight, hlr, hrl, hleft, hright⟩ => by
    simp only [height_map] at hheight hlr hrl
    exact ⟨hheight, hlr, hrl, hleft.map f, hright.map f⟩

theorem Balanced.subtrees : {t s : Tree α} → t.Balanced → s ∈ t.subtrees → s.Balanced
  | node left value right h, s, ht, hs => by
    rcases List.mem_cons.mp hs with rfl | hs
    · exact ht
    · rcases List.mem_append.mp hs with hs | hs
      · exact Balanced.subtrees ht.2.2.2.1 hs
      · exact Balanced.subtrees ht.2.2.2.2 hs

theorem Balanced.join (hl : l.Balanced) (hr : r.Balanced) (hlr : l.height ≤ r.height + 2) (hrl : r.height ≤ l.height + 2) :
    (join l v r).Balanced := ⟨rfl, hlr, hrl, hl, hr⟩

/-- What comes of subtrees whose heights differ by `d` at most. -/
structure Restored (l r t : Tree α) : Prop where
  balanced : t.Balanced
  ge : max l.height r.height ≤ t.height
  le : t.height ≤ max l.height r.height + 1

theorem rotateRight_restored (hl : l.Balanced) (hr : r.Balanced) (heq : l.height = r.height + 3) :
    Restored l r (rotateRight l v r) := by
  obtain _ | ⟨ll, lv, lr, lh⟩ := l
  · simp only [height_nil] at heq
    omega
  · obtain ⟨hlh, hlr, hrl, hll, hlr'⟩ := hl
    simp only [height_node] at heq
    unfold rotateRight
    dsimp only
    split
    case isTrue hle =>
      have hinner : (Tree.join lr v r).Balanced := hlr'.join hr (by omega) (by omega)
      refine ⟨hll.join hinner ?_ ?_, ?_, ?_⟩ <;> simp only [height_join, height_node] <;> omega
    case isFalse hgt =>
      obtain _ | ⟨lrl, lrv, lrr, lrh⟩ := lr
      · exact absurd (Nat.zero_le _) hgt
      · obtain ⟨hlrh, h₁, h₂, hlrl, hlrr⟩ := hlr'
        simp only [height_node] at hlh hlr hrl hgt
        have houter : (Tree.join ll lv lrl).Balanced := hll.join hlrl (by omega) (by omega)
        have hinner : (Tree.join lrr v r).Balanced := hlrr.join hr (by omega) (by omega)
        refine ⟨houter.join hinner ?_ ?_, ?_, ?_⟩ <;> simp only [height_join, height_node] <;> omega

theorem rotateLeft_restored (hl : l.Balanced) (hr : r.Balanced) (heq : r.height = l.height + 3) :
    Restored l r (rotateLeft l v r) := by
  obtain _ | ⟨rl, rv, rr, rh⟩ := r
  · simp only [height_nil] at heq
    omega
  · obtain ⟨hrh, hlr, hrl, hrl', hrr⟩ := hr
    simp only [height_node] at heq
    unfold rotateLeft
    dsimp only
    split
    case isTrue hle =>
      have hinner : (Tree.join l v rl).Balanced := hl.join hrl' (by omega) (by omega)
      refine ⟨hinner.join hrr ?_ ?_, ?_, ?_⟩ <;> simp only [height_join, height_node] <;> omega
    case isFalse hgt =>
      obtain _ | ⟨rll, rlv, rlr, rlh⟩ := rl
      · exact absurd (Nat.zero_le _) hgt
      · obtain ⟨hrlh, h₁, h₂, hrll, hrlr⟩ := hrl'
        simp only [height_node] at hrh hlr hrl hgt
        have houter : (Tree.join l v rll).Balanced := hl.join hrll (by omega) (by omega)
        have hinner : (Tree.join rlr rv rr).Balanced := hrlr.join hrr (by omega) (by omega)
        refine ⟨houter.join hinner ?_ ?_, ?_, ?_⟩ <;> simp only [height_join, height_node] <;> omega

theorem balance_restored (hl : l.Balanced) (hr : r.Balanced) (hlr : l.height ≤ r.height + 3) (hrl : r.height ≤ l.height + 3) :
    Restored l r (balance l v r) := by
  rw [balance]
  split
  case isTrue hgt => exact rotateRight_restored hl hr (by omega)
  case isFalse =>
    split
    case isTrue hgt => exact rotateLeft_restored hl hr (by omega)
    case isFalse => exact ⟨hl.join hr (by omega) (by omega), Nat.le_succ _, le_rfl⟩

/-- Subtrees that are in balance are only joined. -/
theorem height_balance (hlr : l.height ≤ r.height + 2) (hrl : r.height ≤ l.height + 2) :
    (balance l v r).height = max l.height r.height + 1 := by
  rw [balance, if_neg (Nat.not_lt.mpr hlr), if_neg (Nat.not_lt.mpr hrl), height_join]

structure Grows (t t' : Tree α) : Prop where
  balanced : t'.Balanced
  ge : t.height ≤ t'.height
  le : t'.height ≤ t.height + 1

structure Shrinks (t t' : Tree α) : Prop where
  balanced : t'.Balanced
  ge : t.height ≤ t'.height + 1
  le : t'.height ≤ t.height

theorem Grows.left (ht : (node l v r h).Balanced) (hl : Grows l l') : Grows (node l v r h) (balance l' v r) := by
  obtain ⟨hh, hlr, hrl, -, hr⟩ := ht
  have ⟨hb, hge, hle⟩ := hl
  obtain ⟨hbal, hge', hle'⟩ := balance_restored (v := v) hb hr (by omega) (by omega)
  refine ⟨hbal, ?_, ?_⟩ <;> rw [height_node]
  · by_cases hnear : l'.height ≤ r.height + 2
    · rw [height_balance hnear (by omega)]
      omega
    · omega
  · omega

theorem Grows.right (ht : (node l v r h).Balanced) (hr : Grows r r') : Grows (node l v r h) (balance l v r') := by
  obtain ⟨hh, hlr, hrl, hl, -⟩ := ht
  have ⟨hb, hge, hle⟩ := hr
  obtain ⟨hbal, hge', hle'⟩ := balance_restored (v := v) hl hb (by omega) (by omega)
  refine ⟨hbal, ?_, ?_⟩ <;> rw [height_node]
  · by_cases hnear : r'.height ≤ l.height + 2
    · rw [height_balance (by omega) hnear]
      omega
    · omega
  · omega

theorem Shrinks.left (ht : (node l v r h).Balanced) (hl : Shrinks l l') : Shrinks (node l v r h) (balance l' x r) := by
  obtain ⟨hh, hlr, hrl, -, hr⟩ := ht
  have ⟨hb, hge, hle⟩ := hl
  obtain ⟨hbal, hge', hle'⟩ := balance_restored (v := x) hb hr (by omega) (by omega)
  refine ⟨hbal, ?_, ?_⟩ <;> rw [height_node]
  · by_cases hnear : r.height ≤ l'.height + 2
    · rw [height_balance (by omega) hnear]
      omega
    · omega
  · omega

theorem Shrinks.right (ht : (node l v r h).Balanced) (hr : Shrinks r r') : Shrinks (node l v r h) (balance l x r') := by
  obtain ⟨hh, hlr, hrl, hl, -⟩ := ht
  have ⟨hb, hge, hle⟩ := hr
  obtain ⟨hbal, hge', hle'⟩ := balance_restored (v := x) hl hb (by omega) (by omega)
  refine ⟨hbal, ?_, ?_⟩ <;> rw [height_node]
  · by_cases hnear : l.height ≤ r'.height + 2
    · rw [height_balance hnear (by omega)]
      omega
    · omega
  · omega

theorem Grows.single (x : α) : Grows nil (join nil x nil) :=
  ⟨Balanced.join trivial trivial (Nat.le_add_right _ _) (Nat.le_add_right _ _), Nat.zero_le _, le_rfl⟩

theorem Balanced.popMin : {t t' : Tree α} → {least : α} → t.Balanced → t.popMin = some (least, t') → Shrinks t t'
  | node nil value right _, _, _, ⟨hh, hlr, hrl, _, hr⟩, heq => by
    obtain ⟨rfl, rfl⟩ := Prod.mk.inj (Option.some.inj heq)
    refine ⟨hr, ?_, ?_⟩ <;> simp only [height_node, height_nil] at hh ⊢ <;> omega
  | node (node ll lv lr lh) value right _, _, _, ht, heq => by
    obtain ⟨⟨least, rest⟩, hpop, heq⟩ := Option.map_eq_some_iff.mp heq
    obtain ⟨rfl, rfl⟩ := Prod.mk.inj heq
    exact Shrinks.left ht (Balanced.popMin ht.2.2.2.1 hpop)

theorem Balanced.popMax : {t t' : Tree α} → {greatest : α} → t.Balanced → t.popMax = some (greatest, t') → Shrinks t t'
  | node left value nil _, _, _, ⟨hh, hlr, hrl, hl, _⟩, heq => by
    obtain ⟨rfl, rfl⟩ := Prod.mk.inj (Option.some.inj heq)
    refine ⟨hl, ?_, ?_⟩ <;> simp only [height_node, height_nil] at hh ⊢ <;> omega
  | node left value (node rl rv rr rh) _, _, _, ht, heq => by
    obtain ⟨⟨greatest, rest⟩, hpop, heq⟩ := Option.map_eq_some_iff.mp heq
    obtain ⟨rfl, rfl⟩ := Prod.mk.inj heq
    exact Shrinks.right ht (Balanced.popMax ht.2.2.2.2 hpop)

section
variable [LinearOrder κ] {key : α → κ} {k : κ}

theorem Balanced.insert : {t : Tree α} → t.Balanced → Grows t (t.insert key x)
  | nil, _ => .single x
  | node left value right height, ht => by
    rw [Tree.insert]
    split
    case isTrue => exact .left ht (Balanced.insert ht.2.2.2.1)
    case isFalse =>
      split
      case isTrue => exact .right ht (Balanced.insert ht.2.2.2.2)
      case isFalse => exact ⟨ht, le_rfl, Nat.le_succ _⟩

theorem Balanced.replace : {t : Tree α} → t.Balanced → Grows t (t.replace key x)
  | nil, _ => .single x
  | node left value right height, ht => by
    rw [Tree.replace]
    split
    case isTrue => exact .left ht (Balanced.replace ht.2.2.2.1)
    case isFalse =>
      split
      case isTrue => exact .right ht (Balanced.replace ht.2.2.2.2)
      case isFalse =>
        obtain ⟨hh, hlr, hrl, hl, hr⟩ := ht
        refine ⟨hl.join hr hlr hrl, ?_, ?_⟩ <;> simp only [height_join, height_node] <;> omega

theorem Balanced.merge (ht : (node l v r h).Balanced) : Shrinks (node l v r h) (merge l r) := by
  have ⟨hh, hlr, hrl, hl, hr⟩ := ht
  obtain _ | ⟨ll, lv, lr, lh⟩ := l
  · refine ⟨hr, ?_, ?_⟩ <;> simp only [height_node, height_nil, Tree.merge] at hh ⊢ <;> omega
  · unfold Tree.merge
    dsimp only
    cases hpop : r.popMin with
    | none =>
      have hnil := popMin_toList r
      rw [hpop] at hnil
      obtain _ | ⟨rl, rv, rr, rh⟩ := r
      · refine ⟨hl, ?_, ?_⟩ <;> simp only [height_node, height_nil, Option.elim_none] at hh ⊢ <;> omega
      · simp [toList] at hnil
    | some popped => exact Shrinks.right ht (hr.popMin hpop)

theorem Balanced.remove : {t : Tree α} → t.Balanced → Shrinks t (t.remove key k)
  | nil, _ => ⟨trivial, Nat.le_add_right _ _, le_rfl⟩
  | node left value right height, ht => by
    rw [Tree.remove]
    split
    case isTrue => exact .left ht (Balanced.remove ht.2.2.2.1)
    case isFalse =>
      split
      case isTrue => exact .right ht (Balanced.remove ht.2.2.2.2)
      case isFalse => exact ht.merge

/-! ### Order -/

/-- The keys ascend. -/
def Sorted (key : α → κ) (t : Tree α) : Prop := t.toList.Pairwise (key · < key ·)

theorem Sorted.split (ht : (node l v r h).Sorted key) :
    l.Sorted key ∧ r.Sorted key ∧ (∀ y ∈ l.toList, key y < key v) ∧ ∀ y ∈ r.toList, key v < key y := by
  obtain ⟨hl, hcons, hlt⟩ := List.pairwise_append.mp ht
  obtain ⟨hv, hr⟩ := List.pairwise_cons.mp hcons
  exact ⟨hl, hr, fun y hy => hlt y hy v List.mem_cons_self, hv⟩

theorem Sorted.left (ht : (node l v r h).Sorted key) : l.Sorted key := ht.split.1

theorem Sorted.right (ht : (node l v r h).Sorted key) : r.Sorted key := ht.split.2.1

theorem Sorted.subtrees : {t s : Tree α} → t.Sorted key → s ∈ t.subtrees → s.Sorted key
  | node left value right h, s, ht, hs => by
    rcases List.mem_cons.mp hs with rfl | hs
    · exact ht
    · rcases List.mem_append.mp hs with hs | hs
      · exact Sorted.subtrees ht.left hs
      · exact Sorted.subtrees ht.right hs

theorem filter_all {p : α → Bool} {list : List α} (hp : ∀ y ∈ list, p y = true) : list.filter p = list := List.filter_eq_self.mpr hp

theorem filter_none {p : α → Bool} {list : List α} (hp : ∀ y ∈ list, p y = false) : list.filter p = [] :=
  List.filter_eq_nil_iff.mpr fun y hy => by rw [hp y hy]; exact Bool.false_ne_true

/-- The elements of the tree with a new one in the place of those with its key. -/
def replaced (key : α → κ) (x : α) (list : List α) : List α := list.filter (key · < key x) ++ x :: list.filter (key x < key ·)

theorem replaced_left (hv : key x < key v) (hr : ∀ y ∈ r.toList, key v < key y) :
    replaced key x (node l v r h).toList = replaced key x l.toList ++ v :: r.toList := by
  have hbelow : r.toList.filter (key · < key x) = [] := filter_none fun y hy => decide_eq_false (hv.trans (hr y hy)).not_gt
  have habove : r.toList.filter (key x < key ·) = r.toList := filter_all fun y hy => decide_eq_true (hv.trans (hr y hy))
  simp [replaced, toList, hv, hv.not_gt, hbelow, habove]

theorem replaced_right (hv : key v < key x) (hl : ∀ y ∈ l.toList, key y < key v) :
    replaced key x (node l v r h).toList = l.toList ++ v :: replaced key x r.toList := by
  have hbelow : l.toList.filter (key · < key x) = l.toList := filter_all fun y hy => decide_eq_true ((hl y hy).trans hv)
  have habove : l.toList.filter (key x < key ·) = [] := filter_none fun y hy => decide_eq_false ((hl y hy).trans hv).not_gt
  simp [replaced, toList, hv, hv.not_gt, hbelow, habove]

theorem replaced_here (hv : key x = key v) (hl : ∀ y ∈ l.toList, key y < key v) (hr : ∀ y ∈ r.toList, key v < key y) :
    replaced key x (node l v r h).toList = l.toList ++ x :: r.toList := by
  have hlbelow : l.toList.filter (key · < key v) = l.toList := filter_all fun y hy => decide_eq_true (hl y hy)
  have hlabove : l.toList.filter (key v < key ·) = [] := filter_none fun y hy => decide_eq_false (hl y hy).not_gt
  have hrbelow : r.toList.filter (key · < key v) = [] := filter_none fun y hy => decide_eq_false (hr y hy).not_gt
  have hrabove : r.toList.filter (key v < key ·) = r.toList := filter_all fun y hy => decide_eq_true (hr y hy)
  simp [replaced, toList, hv, hlbelow, hlabove, hrbelow, hrabove]

theorem toList_replace : {t : Tree α} → t.Sorted key → (t.replace key x).toList = replaced key x t.toList
  | nil, _ => rfl
  | .node l v r h, ht => by
    obtain ⟨-, -, hl, hr⟩ := ht.split
    rw [replace]
    split
    case isTrue hlt => rw [toList_balance, toList_replace ht.left, replaced_left hlt hr]
    case isFalse hge =>
      split
      case isTrue hgt => rw [toList_balance, toList_replace ht.right, replaced_right hgt hl]
      case isFalse hle => rw [toList_join, replaced_here (le_antisymm (not_lt.mp hle) (not_lt.mp hge)) hl hr]

theorem lookup_eq : {t : Tree α} → t.Sorted key → t.lookup key k = t.toList.find? (key · = k)
  | nil, _ => rfl
  | .node l v r h, ht => by
    obtain ⟨-, -, hl, hr⟩ := ht.split
    have hnone : key v < k → l.toList.find? (key · = k) = none := fun hlt =>
      List.find?_eq_none.mpr fun y hy heq => ((hl y hy).trans hlt).ne (of_decide_eq_true heq)
    rw [lookup, toList, List.find?_append]
    split
    case isTrue hlt =>
      have hright : (v :: r.toList).find? (key · = k) = none := by
        refine List.find?_eq_none.mpr (List.forall_mem_cons.mpr ⟨fun heq => hlt.ne' (of_decide_eq_true heq), fun y hy heq => ?_⟩)
        exact (hlt.trans (hr y hy)).ne' (of_decide_eq_true heq)
      rw [hright, Option.or_none, lookup_eq ht.left]
    case isFalse hge =>
      split
      case isTrue hgt => rw [hnone hgt, Option.none_or, List.find?_cons_of_neg (by simpa using hgt.ne), lookup_eq ht.right]
      case isFalse hle =>
        have heq : key v = k := le_antisymm (not_lt.mp hge) (not_lt.mp hle)
        have hleft : l.toList.find? (key · = k) = none :=
          List.find?_eq_none.mpr fun y hy hyk => (hl y hy).ne ((of_decide_eq_true hyk).trans heq.symm)
        have hhere : (v :: r.toList).find? (key · = k) = some v := List.find?_cons_of_pos (decide_eq_true heq)
        rw [hleft, Option.none_or, hhere]

/-- An insertion changes nothing if there is an element with the key. -/
theorem toList_insert : {t : Tree α} → t.Sorted key →
    (t.insert key x).toList = if (t.lookup key (key x)).isSome then t.toList else replaced key x t.toList
  | nil, _ => rfl
  | .node l v r h, ht => by
    obtain ⟨-, -, hl, hr⟩ := ht.split
    rw [insert, lookup]
    split
    case isTrue hlt =>
      rw [toList_balance, toList_insert ht.left, replaced_left hlt hr]
      split <;> rfl
    case isFalse hge =>
      split
      case isTrue hgt =>
        rw [toList_balance, toList_insert ht.right, replaced_right hgt hl]
        split <;> rfl
      case isFalse => rfl

theorem toList_merge (l r : Tree α) : (merge l r).toList = l.toList ++ r.toList := by
  unfold merge
  cases l with
  | nil => rfl
  | node ll lv lr lh =>
    have hpop := popMin_toList r
    cases hmin : r.popMin with
    | none =>
      cases r with
      | nil => simp [toList]
      | node => simp [hmin, toList] at hpop
    | some popped =>
      cases r with
      | nil => cases hmin
      | node rl rv rr rh =>
        rw [hmin, if_neg (by simp [toList])] at hpop
        rw [← Option.some.inj hpop]
        simp

theorem toList_remove : {t : Tree α} → t.Sorted key → (t.remove key k).toList = t.toList.filter (key · ≠ k)
  | nil, _ => rfl
  | .node l v r h, ht => by
    obtain ⟨-, -, hl, hr⟩ := ht.split
    rw [remove, toList, List.filter_append]
    split
    case isTrue hlt =>
      have hright : (v :: r.toList).filter (key · ≠ k) = v :: r.toList := by
        refine filter_all (List.forall_mem_cons.mpr ⟨decide_eq_true hlt.ne', fun y hy => ?_⟩)
        exact decide_eq_true (hlt.trans (hr y hy)).ne'
      rw [toList_balance, toList_remove ht.left, hright]
    case isFalse hge =>
      split
      case isTrue hgt =>
        have hleft : l.toList.filter (key · ≠ k) = l.toList := filter_all fun y hy => decide_eq_true ((hl y hy).trans hgt).ne
        have hright : (v :: r.toList).filter (key · ≠ k) = v :: r.toList.filter (key · ≠ k) :=
          List.filter_cons_of_pos (decide_eq_true hgt.ne)
        rw [toList_balance, toList_remove ht.right, hleft, hright]
      case isFalse hle =>
        have heq : key v = k := le_antisymm (not_lt.mp hge) (not_lt.mp hle)
        have hleft : l.toList.filter (key · ≠ k) = l.toList := filter_all fun y hy => decide_eq_true (heq ▸ (hl y hy).ne)
        have hright : r.toList.filter (key · ≠ k) = r.toList := filter_all fun y hy => decide_eq_true (heq ▸ (hr y hy).ne')
        rw [toList_merge, hleft, List.filter_cons_of_neg (by simpa using heq), hright]

theorem lookupPrevious_eq : {t : Tree α} → t.Sorted key → (result : Option α) →
    t.lookupPrevious key k result = (t.toList.filter (key · ≤ k)).getLast?.or result
  | nil, _, _ => rfl
  | .node l v r h, ht, result => by
    obtain ⟨-, -, hl, hr⟩ := ht.split
    rw [lookupPrevious, toList, List.filter_append]
    split
    case isTrue hlt =>
      have hright : (v :: r.toList).filter (key · ≤ k) = [] := by
        refine filter_none (List.forall_mem_cons.mpr ⟨decide_eq_false hlt.not_ge, fun y hy => ?_⟩)
        exact decide_eq_false (hlt.trans (hr y hy)).not_ge
      rw [hright, List.append_nil, lookupPrevious_eq ht.left]
    case isFalse hge =>
      have hright : (v :: r.toList).filter (key · ≤ k) = v :: r.toList.filter (key · ≤ k) :=
        List.filter_cons_of_pos (decide_eq_true (not_lt.mp hge))
      rw [hright, List.getLast?_append, List.getLast?_cons, Option.some_or]
      split
      case isTrue hgt =>
        rw [lookupPrevious_eq ht.right]
        cases (r.toList.filter (key · ≤ k)).getLast? <;> rfl
      case isFalse hle =>
        have heq : key v = k := le_antisymm (not_lt.mp hge) (not_lt.mp hle)
        have hright : r.toList.filter (key · ≤ k) = [] := filter_none fun y hy => decide_eq_false (heq ▸ (hr y hy).not_ge)
        rw [hright]
        rfl

end

end Tree

end CapTaint.HeightTree
