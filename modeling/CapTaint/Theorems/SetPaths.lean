import CapTaint.Klee.MapOfSets

/-! # MapOfSets: the paths of the tree

The paths of the tree ascend, so a set has one path. -/

namespace CapTaint.MapOfSets.Root

variable {K V ε : Type} [LinearOrder K]

mutual
/-- The keys are above a bound and ascend, along the paths and among siblings, and each child has an entry. -/
def Ordered : WithBot K → Node K V → Prop
  | bound, .mk _ children => OrderedBelow bound children

def OrderedBelow : WithBot K → Children K V → Prop
  | _, .nil => True
  | bound, .cons key node rest => bound < key ∧ Ordered key node ∧ entries node ≠ [] ∧ OrderedBelow key rest
end

/-! ### Paths -/

section
variable {bound : WithBot K} {node : Node K V} {children rest : Children K V} {key elt : K} {path set : List K} {value : V}

omit [LinearOrder K] in
theorem ne_nil_of_mem_below : (children : Children K V) → (path, value) ∈ children.entries → path ≠ []
  | .cons key node rest, h => by
    rcases mem_entries_cons.mp h with ⟨tail, rfl, -⟩ | hrest
    · exact List.cons_ne_nil _ _
    · exact ne_nil_of_mem_below rest hrest

mutual
theorem Ordered.path : (node : Node K V) → {bound : WithBot K} → Ordered bound node → ∀ entry ∈ entries node,
    entry.1.Pairwise (· < ·) ∧ ∀ k ∈ entry.1, bound < k
  | .mk value children, _, h, (path, v), hmem => by
    rcases mem_entries_mk.mp hmem with ⟨rfl, -⟩ | hbelow
    · exact ⟨.nil, fun k hk => absurd hk List.not_mem_nil⟩
    · exact OrderedBelow.path children h _ hbelow

theorem OrderedBelow.path : (children : Children K V) → {bound : WithBot K} → OrderedBelow bound children →
    ∀ entry ∈ children.entries, entry.1.Pairwise (· < ·) ∧ ∀ k ∈ entry.1, bound < k
  | .nil, _, _, _, hmem => absurd hmem List.not_mem_nil
  | .cons key node rest, _, ⟨hkey, hnode, _, hrest⟩, (path, v), hmem => by
    rcases mem_entries_cons.mp hmem with ⟨tail, rfl, htail⟩ | hmem
    · obtain ⟨hsorted, habove⟩ := Ordered.path node hnode _ htail
      refine ⟨List.pairwise_cons.mpr ⟨fun k hk => WithBot.coe_lt_coe.mp (habove k hk), hsorted⟩, fun k hk => ?_⟩
      rcases List.mem_cons.mp hk with rfl | hk
      · exact hkey
      · exact hkey.trans (habove k hk)
    · obtain ⟨hsorted, habove⟩ := OrderedBelow.path rest hrest _ hmem
      exact ⟨hsorted, fun k hk => hkey.trans (habove k hk)⟩
end

/-- The paths behind a child do not come to its key. -/
theorem OrderedBelow.not_mem (h : OrderedBelow key children) (hmem : (path, value) ∈ children.entries) (hle : elt ≤ key) :
    elt ∉ path := fun helt =>
  hle.not_gt (WithBot.coe_lt_coe.mp ((OrderedBelow.path children h _ hmem).2 elt helt))

theorem Ordered.not_mem (h : Ordered key node) (hmem : (path, value) ∈ entries node) (hle : elt ≤ key) : elt ∉ path :=
  fun helt => hle.not_gt (WithBot.coe_lt_coe.mp ((Ordered.path node h _ hmem).2 elt helt))

mutual
/-- A set has one path. -/
theorem Ordered.nodup : (node : Node K V) → {bound : WithBot K} → Ordered bound node → ((entries node).map Prod.fst).Nodup
  | .mk value children, _, h => by
    have hbelow := OrderedBelow.nodup children h
    cases value with
    | none => exact hbelow
    | some value =>
      refine List.nodup_cons.mpr ⟨fun hnil => ?_, hbelow⟩
      obtain ⟨⟨path, v⟩, hmem, rfl⟩ := List.mem_map.mp hnil
      exact ne_nil_of_mem_below children hmem rfl

theorem OrderedBelow.nodup : (children : Children K V) → {bound : WithBot K} → OrderedBelow bound children →
    (children.entries.map Prod.fst).Nodup
  | .nil, _, _ => List.nodup_nil
  | .cons key node rest, _, ⟨_, hnode, _, hrest⟩ => by
    rw [Children.entries, List.map_append, List.map_map]
    refine List.nodup_append.mpr ⟨?_, OrderedBelow.nodup rest hrest, ?_⟩
    · have hcons := (Ordered.nodup node hnode).map (f := (key :: ·)) fun _ _ => List.tail_eq_of_cons_eq
      rwa [List.map_map] at hcons
    · intro path hpath path' hpath' heq
      obtain ⟨entry, _, rfl⟩ := List.mem_map.mp hpath
      obtain ⟨⟨tail, v⟩, hmem, rfl⟩ := List.mem_map.mp hpath'
      have heq : key :: entry.1 = tail := heq
      exact hrest.not_mem hmem le_rfl (heq ▸ List.mem_cons_self)
end

/-! ### Lookup -/

theorem OrderedBelow.find : (children : Children K V) → {bound : WithBot K} → OrderedBelow bound children →
    (key :: path, value) ∈ children.entries → ∃ node, children.find key = some node ∧ (path, value) ∈ entries node
  | .cons key' node rest, _, ⟨_, _, _, hrest⟩, hmem => by
    rw [Children.find]
    rcases mem_entries_cons.mp hmem with ⟨tail, heq, htail⟩ | hmem
    · obtain ⟨rfl, rfl⟩ := List.cons.inj heq
      exact ⟨node, if_pos rfl, htail⟩
    · have hne : key ≠ key' := fun heq => hrest.not_mem hmem heq.le List.mem_cons_self
      rw [if_neg hne]
      exact OrderedBelow.find rest hrest hmem

theorem OrderedBelow.of_find : (children : Children K V) → {bound : WithBot K} → OrderedBelow bound children →
    children.find key = some node → Ordered key node
  | .cons key' node' rest, _, ⟨_, hnode, _, hrest⟩, hfind => by
    rw [Children.find] at hfind
    split at hfind
    case isTrue heq =>
      obtain rfl := Option.some.inj hfind
      exact heq ▸ hnode
    case isFalse => exact OrderedBelow.of_find rest hrest hfind

theorem OrderedBelow.lt_of_find : (children : Children K V) → {b : K} → OrderedBelow b children →
    children.find key = some node → b < key
  | .cons key' node' rest, _, ⟨hkey', _, _, hrest⟩, hfind => by
    rw [Children.find] at hfind
    split at hfind
    case isTrue heq => exact heq ▸ WithBot.coe_lt_coe.mp hkey'
    case isFalse => exact (WithBot.coe_lt_coe.mp hkey').trans (OrderedBelow.lt_of_find rest hrest hfind)

theorem lookup_iff {bound : WithBot K} {node : Node K V} (h : Ordered bound node) :
    CapTaint.MapOfSets.lookup path node = some value ↔ (path, value) ∈ entries node := by
  refine ⟨CapTaint.MapOfSets.lookup_entries, fun hmem => ?_⟩
  induction path generalizing node bound with
  | nil =>
    obtain ⟨value', children⟩ := node
    rcases mem_entries_mk.mp hmem with ⟨-, rfl⟩ | hbelow
    · rfl
    · exact absurd rfl (ne_nil_of_mem_below children hbelow)
  | cons key path ih =>
    obtain ⟨value', children⟩ := node
    rcases mem_entries_mk.mp hmem with ⟨hnil, -⟩ | hbelow
    · cases hnil
    · obtain ⟨child, hfind, hchild⟩ := OrderedBelow.find children h hbelow
      rw [CapTaint.MapOfSets.lookup, hfind]
      exact ih (OrderedBelow.of_find children h hfind) hchild

/-! ### Insertion -/

theorem Ordered.empty {bound : WithBot K} : Ordered bound (CapTaint.MapOfSets.empty : Node K V) := trivial

theorem OrderedBelow.modify {f : Node K V → Node K V}
    (hf : ∀ node, Ordered key node → Ordered key (f node) ∧ entries (f node) ≠ []) : (children : Children K V) →
      {bound : WithBot K} → bound < key →
    OrderedBelow bound children → OrderedBelow bound (children.modify less key f)
  | .nil, _, hkey, _ => ⟨hkey, (hf _ .empty).1, (hf _ .empty).2, trivial⟩
  | .cons key' node rest, _, hkey, ⟨hkey', hnode, hnode', hrest⟩ => by
    rw [Children.modify]
    split
    case isTrue heq =>
      subst heq
      exact ⟨hkey', (hf _ hnode).1, (hf _ hnode).2, hrest⟩
    case isFalse hneq =>
      split
      case isTrue hless =>
        refine ⟨hkey, (hf _ .empty).1, (hf _ .empty).2, ?_, hnode, hnode', hrest⟩
        exact WithBot.coe_lt_coe.mpr (of_decide_eq_true hless)
      case isFalse hless =>
        have hlt : key' < key := lt_of_le_of_ne (not_lt.mp fun h => hless (decide_eq_true h)) (Ne.symm hneq)
        exact ⟨hkey', hnode, hnode', OrderedBelow.modify hf rest (WithBot.coe_lt_coe.mpr hlt) hrest⟩

theorem OrderedBelow.mem_modify {f : Node K V → Node K V} : (children : Children K V) → {bound : WithBot K} →
    OrderedBelow bound children →
    ((path, value) ∈ (children.modify less key f).entries ↔
      (∃ tail, path = key :: tail ∧ (tail, value) ∈ entries (f ((children.find key).getD CapTaint.MapOfSets.empty))) ∨
        path.head? ≠ some key ∧ (path, value) ∈ children.entries)
  | .nil, _, _ => by
    rw [Children.modify, mem_entries_cons]
    simp [Children.find, Children.entries]
  | .cons key' node rest, _, ⟨_, _, _, hrest⟩ => by
    have hhead : ∀ {k}, k ≤ key' → (path, value) ∈ rest.entries → path.head? ≠ some k := by
      intro k hk hmem hpath
      exact hrest.not_mem hmem hk (List.mem_of_head? hpath)
    rw [Children.modify, Children.find]
    split
    case isTrue heq =>
      subst heq
      rw [mem_entries_cons, mem_entries_cons, Option.getD_some]
      constructor
      · rintro (hnew | hmem)
        · exact .inl hnew
        · exact .inr ⟨hhead le_rfl hmem, .inr hmem⟩
      · rintro (hnew | ⟨hne, ⟨tail, rfl, -⟩ | hmem⟩)
        · exact .inl hnew
        · exact absurd rfl hne
        · exact .inr hmem
    case isFalse hneq =>
      split
      case isTrue hless =>
        have hlt : key < key' := of_decide_eq_true hless
        have hnone : rest.find key = none := by
          cases hfind : rest.find key with
          | none => rfl
          | some child => exact absurd hlt (OrderedBelow.lt_of_find rest hrest hfind).not_gt
        rw [mem_entries_cons, hnone, Option.getD_none]
        refine or_congr_right ⟨fun hmem => ⟨?_, hmem⟩, And.right⟩
        rcases mem_entries_cons.mp hmem with ⟨tail, rfl, -⟩ | hmem
        · exact fun h => hneq (Option.some.inj h).symm
        · exact hhead hlt.le hmem
      case isFalse hless =>
        rw [mem_entries_cons, mem_entries_cons, OrderedBelow.mem_modify rest hrest]
        constructor
        · rintro (⟨tail, rfl, hmem⟩ | hnew | ⟨hne, hmem⟩)
          · exact .inr ⟨fun h => hneq (Option.some.inj h).symm, .inl ⟨tail, rfl, hmem⟩⟩
          · exact .inl hnew
          · exact .inr ⟨hne, .inr hmem⟩
        · rintro (hnew | ⟨hne, hmem | hmem⟩)
          · exact .inr (.inl hnew)
          · exact .inl hmem
          · exact .inr (.inr ⟨hne, hmem⟩)

theorem mem_insert {bound : WithBot K} {node : Node K V} {value' : V} (h : Ordered bound node) :
    (path, value) ∈ entries (CapTaint.MapOfSets.insert less set value' node) ↔
      path = set ∧ value = value' ∨ path ≠ set ∧ (path, value) ∈ entries node := by
  induction set generalizing node bound path with
  | nil =>
    obtain ⟨value'', children⟩ := node
    rw [CapTaint.MapOfSets.insert, mem_entries_mk, mem_entries_mk]
    constructor
    · rintro (⟨rfl, hvalue⟩ | hmem)
      · exact .inl ⟨rfl, (Option.some.inj hvalue).symm⟩
      · exact .inr ⟨ne_nil_of_mem_below children hmem, .inr hmem⟩
    · rintro (⟨rfl, rfl⟩ | ⟨hne, ⟨rfl, -⟩ | hmem⟩)
      · exact .inl ⟨rfl, rfl⟩
      · exact absurd rfl hne
      · exact .inr hmem
  | cons key keys ih =>
    obtain ⟨value'', children⟩ := node
    rw [CapTaint.MapOfSets.insert, mem_entries_mk, mem_entries_mk, OrderedBelow.mem_modify children h]
    have hchild : Ordered key ((children.find key).getD CapTaint.MapOfSets.empty) := by
      cases hfind : children.find key with
      | none => exact .empty
      | some child => exact OrderedBelow.of_find children h hfind
    have hfound : ∀ tail, (tail, value) ∈ entries ((children.find key).getD CapTaint.MapOfSets.empty) ↔
        (key :: tail, value) ∈ children.entries := by
      intro tail
      constructor
      · intro hmem
        cases hfind : children.find key with
        | none =>
          rw [hfind] at hmem
          exact absurd hmem List.not_mem_nil
        | some child => exact Children.find_entries (by rwa [hfind] at hmem) children hfind
      · intro hmem
        obtain ⟨child, hfind, hmem⟩ := OrderedBelow.find children h hmem
        rwa [hfind]
    constructor
    · rintro (⟨rfl, hvalue⟩ | ⟨tail, rfl, hmem⟩ | ⟨hne, hmem⟩)
      · exact .inr ⟨(List.cons_ne_nil _ _).symm, .inl ⟨rfl, hvalue⟩⟩
      · rcases (ih hchild).mp hmem with ⟨rfl, rfl⟩ | ⟨hne, hmem⟩
        · exact .inl ⟨rfl, rfl⟩
        · exact .inr ⟨fun heq => hne (List.cons.inj heq).2, .inr ((hfound tail).mp hmem)⟩
      · refine .inr ⟨?_, .inr hmem⟩
        rintro rfl
        exact hne rfl
    · rintro (⟨rfl, rfl⟩ | ⟨hne, ⟨rfl, hvalue⟩ | hmem⟩)
      · exact .inr (.inl ⟨keys, rfl, (ih hchild).mpr (.inl ⟨rfl, rfl⟩)⟩)
      · exact .inl ⟨rfl, hvalue⟩
      · by_cases hhead : path.head? = some key
        · obtain ⟨tail, rfl⟩ := List.head?_eq_some_iff.mp hhead
          refine .inr (.inl ⟨tail, rfl, (ih hchild).mpr (.inr ⟨?_, (hfound tail).mpr hmem⟩)⟩)
          exact fun heq => hne (congrArg (key :: ·) heq)
        · exact .inr (.inr ⟨hhead, hmem⟩)

theorem Ordered.insert {bound : WithBot K} {node : Node K V} (h : Ordered bound node) (hsorted : set.Pairwise (· < ·))
    (habove : ∀ k ∈ set, bound < k) : Ordered bound (CapTaint.MapOfSets.insert less set value node) := by
  induction set generalizing node bound with
  | nil =>
    obtain ⟨value', children⟩ := node
    exact h
  | cons key keys ih =>
    obtain ⟨value', children⟩ := node
    obtain ⟨hkeys, hsorted⟩ := List.pairwise_cons.mp hsorted
    rw [CapTaint.MapOfSets.insert]
    refine OrderedBelow.modify (fun node hnode => ⟨?_, ?_⟩) children (habove key List.mem_cons_self) h
    · exact ih hnode hsorted fun k hk => WithBot.coe_lt_coe.mpr (hkeys k hk)
    · exact List.ne_nil_of_mem ((mem_insert hnode).mpr (.inl ⟨rfl, rfl⟩))

end

end CapTaint.MapOfSets.Root
