import Mathlib.Tactic.Common

/-! # Maps of sets

A map from sets to values, as a tree whose paths are the sets in ascending order. It can be searched for a subset or a
superset of a given set with a value that passes a test. The test may fail. -/

namespace CapTaint.MapOfSets

variable {K V ε : Type}

mutual
/-- The value of the set that ends here, if one does. -/
inductive Node (K V : Type)
  | mk (value : Option V) (children : Children K V)

inductive Children (K V : Type)
  | nil
  | cons (key : K) (node : Node K V) (rest : Children K V)
end

def empty : Node K V := .mk none .nil

/-! ### Entries -/

mutual
/-- The sets of the map with their values. -/
def entries : Node K V → List (List K × V)
  | .mk value children => (value.map fun value => ([], value)).toList ++ children.entries

def Children.entries : Children K V → List (List K × V)
  | .nil => []
  | .cons key node rest => (MapOfSets.entries node).map (fun entry => (key :: entry.1, entry.2)) ++ rest.entries
end

section
variable {key : K} {set : List K} {value : V} {node : Node K V} {children rest : Children K V}

@[simp] theorem entries_empty : entries (empty : Node K V) = [] := rfl

theorem mem_entries_mk {value' : Option V} :
    (set, value) ∈ entries (.mk value' children) ↔ (set = [] ∧ value' = some value) ∨ (set, value) ∈ children.entries := by
  cases value' with
  | none => simp [entries]
  | some _ => simp [entries, eq_comm]

theorem mem_entries_cons :
    (set, value) ∈ (Children.cons key node rest).entries ↔
      (∃ tail, set = key :: tail ∧ (tail, value) ∈ entries node) ∨ (set, value) ∈ rest.entries := by
  rw [Children.entries, List.mem_append, List.mem_map]
  constructor
  · rintro (⟨⟨tail, _⟩, hmem, heq⟩ | hrest)
    · obtain ⟨rfl, rfl⟩ := Prod.mk.inj heq
      exact .inl ⟨tail, rfl, hmem⟩
    · exact .inr hrest
  · rintro (⟨tail, rfl, hmem⟩ | hrest)
    · exact .inl ⟨(tail, value), hmem, rfl⟩
    · exact .inr hrest

end

/-! ### Tests -/

section
variable {p : V → Except ε Bool} {Q Q' : List K → Prop} {entries₁ entries₂ : List (List K × V)}
  {result : Except ε (Option V)} {key : K} {node : Node K V} {children rest : Children K V} {value' : Option V}

/-- The value if there is one and it passes the test. -/
def tryValue (p : V → Except ε Bool) : Option V → Except ε (Option V)
  | some value => do if ← p value then return some value else return none
  | none => .ok none

/-- A search ends, and what it finds is the value of a set with `Q` and passes the test. -/
def Finds (p : V → Except ε Bool) (Q : List K → Prop) (entries : List (List K × V)) (result : Except ε (Option V)) : Prop :=
  ∃ found, result = .ok found ∧ ∀ value, found = some value → ∃ set, (set, value) ∈ entries ∧ Q set ∧ p value = .ok true

/-- The test does not fail on the values of the entries. -/
def Tests (p : V → Except ε Bool) (entries : List (List K × V)) : Prop := ∀ entry ∈ entries, ∃ b, p entry.2 = .ok b

theorem Finds.nothing : Finds p Q entries₁ (.ok none) := ⟨_, rfl, nofun⟩

theorem Finds.mono (h : Finds p Q entries₁ result)
    (hsub : ∀ set value, (set, value) ∈ entries₁ → Q set → ∃ set', (set', value) ∈ entries₂ ∧ Q' set') :
    Finds p Q' entries₂ result := by
  obtain ⟨found, rfl, hfound⟩ := h
  refine ⟨found, rfl, fun value hvalue => ?_⟩
  obtain ⟨set, hmem, hset, hp⟩ := hfound value hvalue
  obtain ⟨set', hmem', hset'⟩ := hsub set value hmem hset
  exact ⟨set', hmem', hset', hp⟩

/-- The second search takes place if the first one finds nothing. -/
theorem Finds.orElse {next : Except ε (Option V)} (h : Finds p Q entries₁ result) (hnext : Finds p Q entries₁ next) :
    Finds p Q entries₁ (do
      match ← result with
      | some value => return some value
      | none => next) := by
  obtain ⟨found, rfl, hfound⟩ := h
  cases found with
  | none => exact hnext
  | some value => exact ⟨some value, rfl, hfound⟩

theorem tryValue_finds (hQ : Q [])
    (hp : Tests p (entries (.mk value' children))) : Finds p Q (entries (.mk value' children)) (tryValue p value') := by
  cases value' with
  | none => exact .nothing
  | some value =>
    have hmem : ([], value) ∈ entries (.mk (some value) children) := mem_entries_mk.mpr (.inl ⟨rfl, rfl⟩)
    obtain ⟨b, hb⟩ : ∃ b, p value = .ok b := hp ([], value) hmem
    unfold tryValue
    simp only [hb, bind, Except.bind]
    cases b with
    | false => exact .nothing
    | true =>
      refine ⟨some value, rfl, fun value' h => ⟨[], ?_, hQ, ?_⟩⟩
      · exact Option.some.inj h ▸ hmem
      · exact Option.some.inj h ▸ hb

theorem Tests.ofChildren (hp : Tests p (entries (.mk value' children))) :
    Tests p children.entries := fun entry hentry => hp entry (mem_entries_mk.mpr (.inr hentry))

theorem Tests.ofRest (hp : Tests p (Children.cons key node rest).entries) : Tests p rest.entries :=
  fun entry hentry => hp entry (mem_entries_cons.mpr (.inr hentry))

theorem Tests.ofChild (hp : Tests p (Children.cons key node rest).entries) : Tests p (entries node) :=
  fun entry hentry => hp (key :: entry.1, entry.2) (mem_entries_cons.mpr (.inl ⟨entry.1, rfl, hentry⟩))

end

/-! ### Insertion and lookup -/

variable [DecidableEq K] (less : K → K → Bool)

/-- The child at a key, which is new if there is none, is changed by `f`. -/
def Children.modify (key : K) (f : Node K V → Node K V) : Children K V → Children K V
  | .nil => .cons key (f empty) .nil
  | .cons key' node rest =>
    if key = key' then .cons key' (f node) rest
    else if less key key' then .cons key (f empty) (.cons key' node rest)
    else .cons key' node (modify key f rest)

def insert : List K → V → Node K V → Node K V
  | [], value, .mk _ children => .mk (some value) children
  | key :: keys, value, .mk value' children => .mk value' (children.modify less key (insert keys value))

def Children.find (key : K) : Children K V → Option (Node K V)
  | .nil => none
  | .cons key' node rest => if key = key' then some node else rest.find key

def lookup : List K → Node K V → Option V
  | [], .mk value _ => value
  | key :: keys, .mk _ children =>
    match children.find key with
    | some node => lookup keys node
    | none => none

/-! ### Searches -/

variable (p : V → Except ε Bool)

mutual
def findSubset : Node K V → List K → Except ε (Option V)
  | .mk value children, keys => do
    match ← tryValue p value with
    | some value => return some value
    | none => if keys = [] then return none else children.findSubset keys

/-- The keys and the children are walked through side by side. -/
def Children.findSubset : Children K V → List K → Except ε (Option V)
  | .nil, _ => .ok none
  | .cons key node rest, keys =>
    match keys.dropWhile (less · key) with
    | [] => .ok none
    | k :: ks =>
      if k = key then do
        match ← MapOfSets.findSubset node ks with
        | some value => return some value
        | none => if ks = [] then return none else rest.findSubset ks
      else rest.findSubset (k :: ks)
end

mutual
def findSuperset : Node K V → List K → Except ε (Option V)
  | .mk value children, [] => do
    match ← tryValue p value with
    | some value => return some value
    | none => children.findSuperset []
  | .mk _ children, key :: keys => do
    match ← children.findSuperset (key :: keys) with
    | some value => return some value
    | none => children.findSupersetAt key keys

/-- In all of the children. -/
def Children.findSuperset : Children K V → List K → Except ε (Option V)
  | .nil, _ => .ok none
  | .cons _ node rest, keys => do
    match ← MapOfSets.findSuperset node keys with
    | some value => return some value
    | none => rest.findSuperset keys

/-- In the child at a key. -/
def Children.findSupersetAt (key : K) : Children K V → List K → Except ε (Option V)
  | .nil, _ => .ok none
  | .cons key' node rest, keys => if key = key' then MapOfSets.findSuperset node keys else rest.findSupersetAt key keys
end

/-! ### What is found -/

section
variable {less p} {key : K} {set keys : List K} {value : V} {node : Node K V}

theorem Children.find_entries (hentry : (set, value) ∈ MapOfSets.entries node) : (children : Children K V) →
    children.find key = some node → (key :: set, value) ∈ children.entries
  | .cons key' node' rest, h => by
    rw [mem_entries_cons]
    unfold Children.find at h
    split at h
    case isTrue hkey =>
      obtain rfl := Option.some.inj h
      exact .inl ⟨set, by rw [hkey], hentry⟩
    case isFalse => exact .inr (Children.find_entries hentry rest h)

theorem lookup_entries (h : lookup set node = some value) : (set, value) ∈ entries node := by
  induction set generalizing node with
  | nil =>
    obtain ⟨value', children⟩ := node
    exact mem_entries_mk.mpr (.inl ⟨rfl, h⟩)
  | cons key keys ih =>
    obtain ⟨value', children⟩ := node
    unfold lookup at h
    split at h
    case h_1 node hnode => exact mem_entries_mk.mpr (.inr (Children.find_entries (ih h) children hnode))
    case h_2 => cases h

theorem Children.modify_entries {f : Node K V → Node K V} {Q : List K → V → Prop}
    (hf : ∀ node set value, (set, value) ∈ MapOfSets.entries (f node) → Q set value ∨ (set, value) ∈ MapOfSets.entries node) :
    (children : Children K V) → (set, value) ∈ (children.modify less key f).entries →
      (∃ tail, set = key :: tail ∧ Q tail value) ∨ (set, value) ∈ children.entries
  | .nil, h => by
    obtain ⟨tail, rfl, hmem⟩ := (mem_entries_cons.mp h).resolve_right nofun
    exact .inl ⟨tail, rfl, (hf _ _ _ hmem).resolve_right nofun⟩
  | .cons key' node rest, h => by
    unfold Children.modify at h
    split at h
    case isTrue hkey =>
      subst hkey
      rcases mem_entries_cons.mp h with ⟨tail, rfl, hmem⟩ | hrest
      · rcases hf _ _ _ hmem with hnew | hold
        · exact .inl ⟨tail, rfl, hnew⟩
        · exact .inr (mem_entries_cons.mpr (.inl ⟨tail, rfl, hold⟩))
      · exact .inr (mem_entries_cons.mpr (.inr hrest))
    case isFalse =>
      split at h
      case isTrue =>
        rcases mem_entries_cons.mp h with ⟨tail, rfl, hmem⟩ | hrest
        · exact .inl ⟨tail, rfl, (hf _ _ _ hmem).resolve_right nofun⟩
        · exact .inr hrest
      case isFalse =>
        rcases mem_entries_cons.mp h with hnode | hrest
        · exact .inr (mem_entries_cons.mpr (.inl hnode))
        · rcases Children.modify_entries hf rest hrest with hnew | hold
          · exact .inl hnew
          · exact .inr (mem_entries_cons.mpr (.inr hold))

/-- An insertion adds one entry at most. -/
theorem insert_entries {value' : V} (h : (set, value) ∈ entries (insert less keys value' node)) :
    (set = keys ∧ value = value') ∨ (set, value) ∈ entries node := by
  induction keys generalizing node set value with
  | nil =>
    obtain ⟨_, children⟩ := node
    rcases mem_entries_mk.mp h with ⟨rfl, hvalue⟩ | hmem
    · exact .inl ⟨rfl, (Option.some.inj hvalue).symm⟩
    · exact .inr (mem_entries_mk.mpr (.inr hmem))
  | cons key keys ih =>
    obtain ⟨value'', children⟩ := node
    rcases mem_entries_mk.mp h with hhere | hmem
    · exact .inr (mem_entries_mk.mpr (.inl hhere))
    · rcases Children.modify_entries (Q := fun set value => set = keys ∧ value = value')
        (fun _ _ _ h => ih h) children hmem with ⟨tail, rfl, rfl, rfl⟩ | hold
      · exact .inl ⟨rfl, rfl⟩
      · exact .inr (mem_entries_mk.mpr (.inr hold))

mutual
/-- What `findSubset` finds is the value of a subset. -/
theorem findSubset_finds : (node : Node K V) → Tests p (entries node) → (keys : List K) →
    Finds p (· ⊆ keys) (entries node) (findSubset less p node keys)
  | .mk value children, hp, keys => by
    unfold findSubset
    refine (tryValue_finds (Q := (· ⊆ keys)) (List.nil_subset _) hp).orElse ?_
    split
    case isTrue => exact .nothing
    case isFalse =>
      exact (Children.findSubset_finds children hp.ofChildren keys).mono fun set value hmem hset =>
        ⟨set, mem_entries_mk.mpr (.inr hmem), hset⟩

theorem Children.findSubset_finds : (children : Children K V) → Tests p children.entries → (keys : List K) →
    Finds p (· ⊆ keys) children.entries (children.findSubset less p keys)
  | .nil, _, _ => .nothing
  | .cons key node rest, hp, keys => by
    unfold Children.findSubset
    have hdrop : ∀ x ∈ keys.dropWhile (less · key), x ∈ keys := fun x hx => (List.dropWhile_suffix _).subset hx
    generalize keys.dropWhile (less · key) = dropped at hdrop ⊢
    have hrest : ∀ ks, ks ⊆ keys → Finds p (· ⊆ keys) (Children.cons key node rest).entries (rest.findSubset less p ks) :=
      fun ks hks => (Children.findSubset_finds rest hp.ofRest ks).mono fun set value hmem hset =>
        ⟨set, mem_entries_cons.mpr (.inr hmem), List.Subset.trans hset hks⟩
    match dropped, hdrop with
    | [], _ => exact .nothing
    | k :: ks, hdrop =>
      dsimp only
      split
      case isTrue hkey =>
        have hks : ks ⊆ keys := fun x hx => hdrop x (List.mem_cons_of_mem _ hx)
        refine Finds.orElse ?_ ?_
        · refine (MapOfSets.findSubset_finds node hp.ofChild ks).mono fun set value hmem hset => ?_
          refine ⟨key :: set, mem_entries_cons.mpr (.inl ⟨set, rfl, hmem⟩), ?_⟩
          exact List.cons_subset.mpr ⟨hkey ▸ hdrop k List.mem_cons_self, List.Subset.trans hset hks⟩
        · split
          case isTrue => exact .nothing
          case isFalse => exact hrest ks hks
      case isFalse => exact hrest (k :: ks) hdrop
end

mutual
/-- What `findSuperset` finds is the value of a superset. -/
theorem findSuperset_finds : (node : Node K V) → Tests p (entries node) → (keys : List K) →
    Finds p (keys ⊆ ·) (entries node) (findSuperset p node keys)
  | .mk value children, hp, [] => by
    unfold findSuperset
    refine (tryValue_finds (List.nil_subset _) hp).orElse ?_
    exact (Children.findSuperset_finds children hp.ofChildren []).mono fun set value hmem hset =>
      ⟨set, mem_entries_mk.mpr (.inr hmem), hset⟩
  | .mk value children, hp, key :: keys => by
    unfold findSuperset
    refine Finds.orElse ?_ ?_
    · exact (Children.findSuperset_finds children hp.ofChildren (key :: keys)).mono fun set value hmem hset =>
        ⟨set, mem_entries_mk.mpr (.inr hmem), hset⟩
    · exact (Children.findSupersetAt_finds children hp.ofChildren key keys).mono fun set value hmem hset =>
        ⟨set, mem_entries_mk.mpr (.inr hmem), hset⟩

theorem Children.findSuperset_finds : (children : Children K V) → Tests p children.entries → (keys : List K) →
    Finds p (keys ⊆ ·) children.entries (children.findSuperset p keys)
  | .nil, _, _ => .nothing
  | .cons key node rest, hp, keys => by
    unfold Children.findSuperset
    refine Finds.orElse ?_ ?_
    · exact (MapOfSets.findSuperset_finds node hp.ofChild keys).mono fun set value hmem hset =>
        ⟨key :: set, mem_entries_cons.mpr (.inl ⟨set, rfl, hmem⟩), List.Subset.trans hset (List.subset_cons_self key set)⟩
    · exact (Children.findSuperset_finds rest hp.ofRest keys).mono fun set value hmem hset =>
        ⟨set, mem_entries_cons.mpr (.inr hmem), hset⟩

theorem Children.findSupersetAt_finds : (children : Children K V) → Tests p children.entries → (key : K) →
    (keys : List K) → Finds p (key :: keys ⊆ ·) children.entries (children.findSupersetAt p key keys)
  | .nil, _, _, _ => .nothing
  | .cons key' node rest, hp, key, keys => by
    unfold Children.findSupersetAt
    split
    case isTrue hkey =>
      refine (MapOfSets.findSuperset_finds node hp.ofChild keys).mono fun set value hmem hset => ?_
      exact ⟨key' :: set, mem_entries_cons.mpr (.inl ⟨set, rfl, hmem⟩), hkey ▸ List.cons_subset_cons key hset⟩
    case isFalse =>
      exact (Children.findSupersetAt_finds rest hp.ofRest key keys).mono fun set value hmem hset =>
        ⟨set, mem_entries_cons.mpr (.inr hmem), hset⟩
end

end

end CapTaint.MapOfSets
