import CapTaint.Theorems.Resolution

/-! # Resolutions with a limit

A limit cuts the resolution list of the search without a limit. The first object is never counted against the limit, and
the search stops when the limit is met, also when nothing is left. -/

namespace CapTaint.Klee.AddressSpace

variable {opt : Bool} {V : Valuation → Prop} {pointerWidth maxResolutions : Nat} {p inBounds : Expr} {solver : TimingSolver}
  {space : AddressSpace} {expired : MemoryObject → Bool} {entries rl rl' : List Entry} {x : Entry} {o : Search Bool}

/-! ### The limit 1 -/

/-- A limit of one is no limit. -/
theorem resolveAdded_one (rl : List Entry) (x : Entry) :
    resolveAdded solver 1 inBounds (rl ++ [x]) = resolveAdded solver 0 inBounds (rl ++ [x]) := by
  unfold resolveAdded
  by_cases hone : (rl ++ [x]).length = 1
  · rw [if_pos hone, if_pos hone]
  · rw [if_neg hone, if_neg hone, if_neg hone, if_neg (by simp)]

theorem added_one (b : Bool) (rl : List Entry) (x : Entry) :
    (if b then resolveAdded solver 1 inBounds (if b then rl ++ [x] else rl) else .goOn) =
      if b then resolveAdded solver 0 inBounds (if b then rl ++ [x] else rl) else .goOn := by
  cases b with
  | false => rfl
  | true => exact resolveAdded_one rl x

theorem resolveBackwards_one (entries rl : List Entry) : resolveBackwards opt pointerWidth solver 1 expired p entries rl =
    resolveBackwards opt pointerWidth solver 0 expired p entries rl := by
  induction entries generalizing rl with
  | nil => rfl
  | cons x entries ih =>
    unfold resolveBackwards
    simp only [added_one, ih]

theorem resolveForwards_one (entries rl : List Entry) : resolveForwards opt pointerWidth solver 1 expired p entries rl =
    resolveForwards opt pointerWidth solver 0 expired p entries rl := by
  induction entries generalizing rl with
  | nil => rfl
  | cons x entries ih =>
    unfold resolveForwards
    simp only [added_one, ih]

theorem resolve_one : space.resolve opt pointerWidth solver 1 expired p = space.resolve opt pointerWidth solver 0 expired p := by
  unfold resolve resolveFrom
  simp only [resolveBackwards_one, resolveForwards_one]

/-! ### The rounds of the loops -/

/-- A round of the backward loop: how the loop ends, if it does, and the resolution list. -/
def roundBackwards (opt : Bool) (pointerWidth : Nat) (solver : TimingSolver) (maxResolutions : Nat)
    (expired : MemoryObject → Bool) (p : Expr) (x : Entry) (rl : List Entry) : Except Abort (Option (Search Bool) × List Entry) := do
  if expired x.1 then return (some (.done true), rl)
  let inBounds ← x.1.getBoundsCheckPointer opt pointerWidth p
  match ← solver.mayBeTrue opt inBounds with
  | none => return (some (.done true), rl)
  | some mayBeTrue =>
    let rl := if mayBeTrue then rl ++ [x] else rl
    match if mayBeTrue then resolveAdded solver maxResolutions inBounds rl else .goOn with
    | .done result => return (some (.done result), rl)
    | .goOn =>
      match solver.mustBeTrue (← createComparison opt p (← x.1.getBaseExpr pointerWidth) .uge) with
      | none => return (some (.done true), rl)
      | some true => return (some .goOn, rl)
      | some false => return (none, rl)

/-- A round of the forward loop. -/
def roundForwards (opt : Bool) (pointerWidth : Nat) (solver : TimingSolver) (maxResolutions : Nat)
    (expired : MemoryObject → Bool) (p : Expr) (x : Entry) (rl : List Entry) : Except Abort (Option (Search Bool) × List Entry) := do
  if expired x.1 then return (some (.done true), rl)
  match solver.mustBeTrue (← createComparison opt p (← x.1.getBaseExpr pointerWidth) .ult) with
  | none => return (some (.done true), rl)
  | some true => return (some .goOn, rl)
  | some false =>
    let inBounds ← x.1.getBoundsCheckPointer opt pointerWidth p
    match ← solver.mayBeTrue opt inBounds with
    | none => return (some (.done true), rl)
    | some mayBeTrue =>
      let rl := if mayBeTrue then rl ++ [x] else rl
      match if mayBeTrue then resolveAdded solver maxResolutions inBounds rl else .goOn with
      | .done result => return (some (.done result), rl)
      | .goOn => return (none, rl)

/-- The rounds for the entries, until one ends the loop. -/
def rounds (round : Entry → List Entry → Except Abort (Option (Search Bool) × List Entry)) :
    List Entry → List Entry → Except Abort (Search Bool × List Entry)
  | [], rl => .ok (.goOn, rl)
  | x :: entries, rl => round x rl >>= fun r => r.1.elim (rounds round entries r.2) fun o => .ok (o, r.2)

theorem resolveBackwards_eq_rounds (entries rl : List Entry) :
    resolveBackwards opt pointerWidth solver maxResolutions expired p entries rl =
      rounds (roundBackwards opt pointerWidth solver maxResolutions expired p) entries rl := by
  induction entries generalizing rl with
  | nil => rfl
  | cons x entries ih =>
    unfold resolveBackwards rounds roundBackwards
    simp only [ih]
    split
    case isTrue => rfl
    case isFalse =>
      rcases x.1.getBoundsCheckPointer opt pointerWidth p with _ | inBounds
      · rfl
      dsimp only [bind, Except.bind]
      rcases solver.mayBeTrue opt inBounds with _ | _ | mayBeTrue
      · rfl
      · rfl
      dsimp only
      rcases if mayBeTrue then resolveAdded solver maxResolutions inBounds (if mayBeTrue then rl ++ [x] else rl) else .goOn with _ | _
      · rfl
      dsimp only
      rcases x.1.getBaseExpr pointerWidth with _ | base
      · rfl
      dsimp only
      rcases createComparison opt p base .uge with _ | uge
      · rfl
      dsimp only
      rcases solver.mustBeTrue uge with _ | _ | _ <;> rfl

theorem resolveForwards_eq_rounds (entries rl : List Entry) :
    resolveForwards opt pointerWidth solver maxResolutions expired p entries rl =
      rounds (roundForwards opt pointerWidth solver maxResolutions expired p) entries rl := by
  induction entries generalizing rl with
  | nil => rfl
  | cons x entries ih =>
    unfold resolveForwards rounds roundForwards
    simp only [ih]
    split
    case isTrue => rfl
    case isFalse =>
      rcases x.1.getBaseExpr pointerWidth with _ | base
      · rfl
      dsimp only [bind, Except.bind]
      rcases createComparison opt p base .ult with _ | ult
      · rfl
      dsimp only
      rcases solver.mustBeTrue ult with _ | _ | _
      · rfl
      · dsimp only
        rcases x.1.getBoundsCheckPointer opt pointerWidth p with _ | inBounds
        · rfl
        dsimp only
        rcases solver.mayBeTrue opt inBounds with _ | _ | mayBeTrue
        · rfl
        · rfl
        dsimp only
        rcases if mayBeTrue then resolveAdded solver maxResolutions inBounds (if mayBeTrue then rl ++ [x] else rl) else .goOn with _ | _ <;> rfl
      · rfl

/-! ### The limit cuts the list -/

/-- A result of the search without a limit, as the limit leaves it. -/
def cut (maxResolutions : Nat) (result : Search Bool × List Entry) : Search Bool × List Entry :=
  if result.2.length < maxResolutions then result else (.done true, result.2.take maxResolutions)

/-- A round without the limit and with it: the list grows, and the limit ends the loop when it is met. -/
def LimitsRound (maxResolutions : Nat) (rl : List Entry) (r : Option (Search Bool) × List Entry)
    (limited : Except Abort (Option (Search Bool) × List Entry)) : Prop :=
  rl <+: r.2 ∧ (rl.length < maxResolutions → r.2.length < maxResolutions ∧ limited = .ok r ∨
    r.2.length = maxResolutions ∧ limited = .ok (some (.done true), r.2))

variable {r : Option (Search Bool) × List Entry} {limited : Except Abort (Option (Search Bool) × List Entry)}

/-- The round ended before an object was added. -/
theorem LimitsRound.same (hr : r.2 = rl) (hlimited : limited = .ok r) : LimitsRound maxResolutions rl r limited := by
  obtain ⟨o, rl'⟩ := r
  obtain rfl : rl' = rl := hr
  exact ⟨List.prefix_rfl, fun hlt => .inl ⟨hlt, hlimited⟩⟩

/-- The check after an object, with the limit and without it. -/
theorem added_limit (hmax : 2 ≤ maxResolutions) (b : Bool) (x : Entry) (hrl : rl.length < maxResolutions) :
    ((if b then rl ++ [x] else rl).length < maxResolutions ∧
        (if b then resolveAdded solver maxResolutions inBounds (if b then rl ++ [x] else rl) else .goOn) =
          if b then resolveAdded solver 0 inBounds (if b then rl ++ [x] else rl) else .goOn) ∨
      ((if b then rl ++ [x] else rl).length = maxResolutions ∧
        (if b then resolveAdded solver maxResolutions inBounds (if b then rl ++ [x] else rl) else .goOn) = .done true ∧
        (if b then resolveAdded solver 0 inBounds (if b then rl ++ [x] else rl) else .goOn) = .goOn) := by
  cases b with
  | false => exact .inl ⟨hrl, rfl⟩
  | true =>
    simp only [if_true]
    have hlength : (rl ++ [x]).length = rl.length + 1 := List.length_append
    unfold resolveAdded
    rw [hlength]
    by_cases hone : rl.length + 1 = 1
    · rw [if_pos hone, if_pos hone]
      exact .inl ⟨by omega, rfl⟩
    · rw [if_neg hone, if_neg hone, if_neg (Nat.succ_ne_zero _)]
      by_cases hmet : rl.length + 1 = maxResolutions
      · exact .inr ⟨hmet, if_pos hmet, rfl⟩
      · exact .inl ⟨by omega, if_neg hmet⟩

theorem prefix_added (b : Bool) (rl : List Entry) (x : Entry) : rl <+: if b then rl ++ [x] else rl := by
  cases b with
  | false => exact List.prefix_rfl
  | true => exact List.prefix_append rl [x]

/-- What follows the check that is made after an object was added. -/
def afterCheck (rl : List Entry) (next : Except Abort (Option (Search Bool) × List Entry)) :
    Search Bool → Except Abort (Option (Search Bool) × List Entry)
  | .done result => .ok (some (.done result), rl)
  | .goOn => next

/-- What follows the check does not depend on the limit. -/
theorem LimitsRound.added (hmax : 2 ≤ maxResolutions) (b : Bool) {next : Except Abort (Option (Search Bool) × List Entry)}
    (hnext : ∀ r, next = .ok r → r.2 = if b then rl ++ [x] else rl)
    (h : afterCheck (if b then rl ++ [x] else rl) next
      (if b then resolveAdded solver 0 inBounds (if b then rl ++ [x] else rl) else .goOn) = .ok r) :
    LimitsRound maxResolutions rl r (afterCheck (if b then rl ++ [x] else rl) next
      (if b then resolveAdded solver maxResolutions inBounds (if b then rl ++ [x] else rl) else .goOn)) := by
  have hr : r.2 = if b then rl ++ [x] else rl := by
    revert h
    rcases if b then resolveAdded solver 0 inBounds (if b then rl ++ [x] else rl) else .goOn with result | _
    · intro h
      cases h
      rfl
    · exact hnext r
  refine ⟨hr ▸ prefix_added b rl x, fun hrl => ?_⟩
  rcases @added_limit maxResolutions inBounds solver rl hmax b x hrl with ⟨hlt, hsame⟩ | ⟨hmet, hstop, -⟩
  · exact .inl ⟨hr ▸ hlt, by rw [hsame, h]⟩
  · exact .inr ⟨hr ▸ hmet, by rw [hstop, hr]; rfl⟩

theorem roundBackwards_limit (hmax : 2 ≤ maxResolutions) : roundBackwards opt pointerWidth solver 0 expired p x rl = .ok r →
    LimitsRound maxResolutions rl r (roundBackwards opt pointerWidth solver maxResolutions expired p x rl) := by
  unfold roundBackwards
  split
  case isTrue =>
    intro h
    cases h
    exact .same rfl rfl
  case isFalse =>
    rcases x.1.getBoundsCheckPointer opt pointerWidth p with _ | inBounds
    · exact nofun
    dsimp only [bind, Except.bind]
    rcases solver.mayBeTrue opt inBounds with _ | _ | mayBeTrue
    · exact nofun
    · intro h
      cases h
      exact .same rfl rfl
    dsimp only
    rcases x.1.getBaseExpr pointerWidth with _ | base
    · exact LimitsRound.added hmax mayBeTrue nofun
    dsimp only
    rcases createComparison opt p base .uge with _ | uge
    · exact LimitsRound.added hmax mayBeTrue nofun
    dsimp only
    rcases solver.mustBeTrue uge with _ | _ | _
    all_goals
      refine LimitsRound.added hmax mayBeTrue fun r hr => ?_
      cases hr
      rfl

theorem roundForwards_limit (hmax : 2 ≤ maxResolutions) : roundForwards opt pointerWidth solver 0 expired p x rl = .ok r →
    LimitsRound maxResolutions rl r (roundForwards opt pointerWidth solver maxResolutions expired p x rl) := by
  unfold roundForwards
  split
  case isTrue =>
    intro h
    cases h
    exact .same rfl rfl
  case isFalse =>
    rcases x.1.getBaseExpr pointerWidth with _ | base
    · exact nofun
    dsimp only [bind, Except.bind]
    rcases createComparison opt p base .ult with _ | ult
    · exact nofun
    dsimp only
    rcases solver.mustBeTrue ult with _ | _ | _
    · intro h
      cases h
      exact .same rfl rfl
    · dsimp only
      rcases x.1.getBoundsCheckPointer opt pointerWidth p with _ | inBounds
      · exact nofun
      dsimp only
      rcases solver.mayBeTrue opt inBounds with _ | _ | mayBeTrue
      · exact nofun
      · intro h
        cases h
        exact .same rfl rfl
      dsimp only
      refine LimitsRound.added hmax mayBeTrue fun r hr => ?_
      cases hr
      rfl
    · intro h
      cases h
      exact .same rfl rfl

/-- The limit cuts the result of a loop. -/
theorem rounds_limit {round limitedRound : Entry → List Entry → Except Abort (Option (Search Bool) × List Entry)}
    (hround : ∀ x rl r, round x rl = .ok r → LimitsRound maxResolutions rl r (limitedRound x rl))
    {result : Search Bool × List Entry} (h : rounds round entries rl = .ok result) :
    rl <+: result.2 ∧ (rl.length < maxResolutions → rounds limitedRound entries rl = .ok (cut maxResolutions result)) := by
  induction entries generalizing rl with
  | nil =>
    cases h
    exact ⟨List.prefix_rfl, fun hlt => by rw [cut, if_pos hlt]; rfl⟩
  | cons x entries ih =>
    rw [rounds] at h ⊢
    rcases hok : round x rl with _ | r
    · rw [hok] at h
      cases h
    · rw [hok] at h
      obtain ⟨hinitial, hlimited⟩ := hround x rl r hok
      change r.1.elim (rounds round entries r.2) (fun o => .ok (o, r.2)) = .ok result at h
      have hgrows : r.2 <+: result.2 := by
        rcases hr : r.1 with _ | o
        · rw [hr] at h
          exact (ih h).1
        · rw [hr] at h
          cases h
          exact List.prefix_rfl
      refine ⟨hinitial.trans hgrows, fun hlt => ?_⟩
      rcases hlimited hlt with ⟨hlt', hsame⟩ | ⟨hmet, hstop⟩
      · rw [hsame]
        change r.1.elim (rounds limitedRound entries r.2) (fun o => .ok (o, r.2)) = _
        rcases hr : r.1 with _ | o
        · rw [hr] at h
          exact (ih h).2 hlt'
        · rw [hr] at h
          cases h
          rw [cut, if_pos hlt']
          rfl
      · -- what the search without a limit adds from here on is cut off
        have htake : result.2.take r.2.length = r.2 := (List.prefix_iff_eq_take.mp hgrows).symm
        have hmany : ¬result.2.length < maxResolutions := by
          have := hgrows.length_le
          omega
        rw [hstop, cut, if_neg hmany, ← hmet, htake]
        rfl

/-- The limit cuts the result of the search. -/
theorem resolveFrom_limit (hmax : 2 ≤ maxResolutions) {c : Nat} :
    space.resolveFrom opt pointerWidth solver 0 expired c p = .ok (false, rl) →
    space.resolveFrom opt pointerWidth solver maxResolutions expired c p =
      .ok (if rl.length < maxResolutions then (false, rl) else (true, rl.take maxResolutions)) := by
  have hback : ∀ result, _ → _ ∧ _ := fun result => @rounds_limit maxResolutions (space.objects.upTo c).reverse [] _ _
    (fun x rl r => @roundBackwards_limit opt pointerWidth maxResolutions p solver expired rl x r hmax) result
  have hforw : ∀ rl result, _ → _ ∧ _ := fun rl result => @rounds_limit maxResolutions (space.objects.behind c) rl _ _
    (fun x rl r => @roundForwards_limit opt pointerWidth maxResolutions p solver expired rl x r hmax) result
  unfold resolveFrom
  simp only [resolveBackwards_eq_rounds, resolveForwards_eq_rounds]
  rcases hrounds : rounds (roundBackwards opt pointerWidth solver 0 expired p) (space.objects.upTo c).reverse [] with _ | ⟨o, rl₁⟩
  · exact nofun
  obtain ⟨-, hcut⟩ := hback (o, rl₁) hrounds
  rw [hcut (by rw [List.length_nil]; omega)]
  rcases o with result | _
  · intro h
    cases h
    rw [cut]
    split <;> rfl
  dsimp only [bind, Except.bind]
  rcases hrounds : rounds (roundForwards opt pointerWidth solver 0 expired p) (space.objects.behind c) rl₁ with _ | ⟨o, rl₂⟩
  · exact nofun
  obtain ⟨hinitial, hcut⟩ := hforw rl₁ (o, rl₂) hrounds
  intro h
  have hrl : rl₂ = rl := by
    rcases o with result | _ <;> cases h <;> rfl
  subst hrl
  by_cases hlt : rl₁.length < maxResolutions
  · have hsame : cut maxResolutions (Search.goOn, rl₁) = (.goOn, rl₁) := if_pos hlt
    rw [hsame]
    dsimp only
    rw [hcut hlt, cut]
    dsimp only
    by_cases hfew : rl₂.length < maxResolutions
    · rw [if_pos hfew, if_pos hfew]
      exact h
    · rw [if_neg hfew, if_neg hfew]
      rfl
  · have hstop : cut maxResolutions (Search.goOn, rl₁) = (.done true, rl₁.take maxResolutions) := if_neg hlt
    have htake : rl₁.take maxResolutions = rl₂.take maxResolutions := by
      obtain ⟨more, rfl⟩ := hinitial
      exact (List.take_append_of_le_length (not_lt.mp hlt)).symm
    have hmany : ¬rl₂.length < maxResolutions := by
      have := hinitial.length_le
      dsimp only at this
      omega
    rw [hstop, if_neg hmany, htake]
    rfl

/-! ### The contract of the limit -/

/-- At most so many objects are found, to each of which the pointer may point, and the result tells whether one is
missing. -/
structure RespectsLimit (opt : Bool) (pointerWidth : Nat) (V : Valuation → Prop) (p : Expr) (space : AddressSpace)
    (maxResolutions : Nat) (incomplete : Bool) (rl : List Entry) : Prop where
  length_le : rl.length ≤ maxResolutions
  found : ∀ x ∈ rl, x ∈ space.objects.entries ∧ MayPointTo opt pointerWidth V p x
  incomplete_iff : incomplete = true ↔ ∃ x ∈ space.objects.entries, MayPointTo opt pointerWidth V p x ∧ x ∉ rl

/-- The objects that the pointer may point to. -/
def candidates (opt : Bool) (pointerWidth : Nat) (V : Valuation → Prop) (p : Expr) (space : AddressSpace) : Set Entry :=
  {x | x ∈ space.objects.entries ∧ MayPointTo opt pointerWidth V p x}

theorem ncard_candidates (hnodup : rl.Nodup)
    (hall : ∀ x, x ∈ rl ↔ x ∈ space.objects.entries ∧ MayPointTo opt pointerWidth V p x) :
    (candidates opt pointerWidth V p space).ncard = rl.length := by
  classical
  have hset : candidates opt pointerWidth V p space = rl.toFinset := by
    ext x
    rw [candidates, Set.mem_ofPred_eq, ← hall, Finset.mem_coe, List.mem_toFinset]
  rw [hset, Set.ncard_coe_finset, List.toFinset_card_of_nodup hnodup]

/-- The limit of a complete list. -/
theorem respectsLimit_cut (hnodup : rl.Nodup)
    (hall : ∀ x, x ∈ rl ↔ x ∈ space.objects.entries ∧ MayPointTo opt pointerWidth V p x) :
    RespectsLimit opt pointerWidth V p space maxResolutions
        (if rl.length < maxResolutions then (false, rl) else (true, rl.take maxResolutions)).1
        (if rl.length < maxResolutions then (false, rl) else (true, rl.take maxResolutions)).2 ↔
      rl.length ≠ maxResolutions := by
  by_cases hlt : rl.length < maxResolutions
  · rw [if_pos hlt]
    refine iff_of_true ⟨hlt.le, fun x hx => (hall x).mp hx, ?_⟩ hlt.ne
    exact iff_of_false Bool.false_ne_true fun ⟨x, hx, hpoints, hmissing⟩ => hmissing ((hall x).mpr ⟨hx, hpoints⟩)
  · rw [if_neg hlt]
    by_cases heq : rl.length = maxResolutions
    · -- nothing is missing, but the search says so
      refine iff_of_false (fun h => ?_) (not_not.mpr heq)
      obtain ⟨x, hx, hpoints, hmissing⟩ := h.incomplete_iff.mp rfl
      rw [← heq, List.take_length] at hmissing
      exact hmissing ((hall x).mpr ⟨hx, hpoints⟩)
    · have hmany : maxResolutions < rl.length := by omega
      refine iff_of_true ⟨List.length_take_le _ _, fun x hx => (hall x).mp (List.mem_of_mem_take hx), ?_⟩ heq
      refine iff_of_true rfl ⟨rl[maxResolutions], ?_⟩
      obtain ⟨hx, hpoints⟩ := (hall rl[maxResolutions]).mp (List.getElem_mem hmany)
      refine ⟨hx, hpoints, fun htake => ?_⟩
      obtain ⟨i, hi, hget⟩ := List.getElem_of_mem htake
      rw [List.length_take] at hi
      rw [List.getElem_take] at hget
      have := (List.Nodup.getElem_inj_iff hnodup).mp hget
      omega

theorem resolve_limit (hmax : 2 ≤ maxResolutions) (h : space.resolve opt pointerWidth solver 0 expired p = .ok (false, rl)) :
    space.resolve opt pointerWidth solver maxResolutions expired p =
      .ok (if rl.length < maxResolutions then (false, rl) else (true, rl.take maxResolutions)) := by
  have helim : ∀ {limit : Nat}, p.isConstant = false → space.resolve opt pointerWidth solver limit expired p =
      (solver.getValue p).elim (Except.ok (true, [])) fun cex =>
        space.resolveFrom opt pointerWidth solver limit expired cex p := by
    intro limit hp
    unfold resolve
    cases p with
    | constant => cases hp
    | _ =>
      dsimp only
      rcases solver.getValue _ with _ | cex <;> rfl
  cases hp : p.isConstant with
  | false =>
    rw [helim hp] at h ⊢
    revert h
    rcases solver.getValue p with _ | cex
    · exact nofun
    · exact resolveFrom_limit hmax
  | true =>
    cases p with
    | constant w c =>
      obtain rfl : (space.resolveOneConstant c.toNat).toList = rl := congrArg Prod.snd (Except.ok.inj h)
      have hlt : (space.resolveOneConstant c.toNat).toList.length < maxResolutions := by
        rcases space.resolveOneConstant c.toNat with _ | x
        · exact Nat.zero_lt_of_lt hmax
        · exact hmax
      rw [if_pos hlt]
      exact h
    | _ => cases hp

/-- With a correct solver and without timeouts the limit is respected exactly when there is one object at most, or when the
limit is at least two and not the number of objects that the pointer may point to. -/
theorem resolve_respectsLimit_iff (h : space.Disjoint pointerWidth) (hsolver : solver.Correct opt V) (hp : p.Typed pointerWidth)
    (hsound : ∀ v, V v → p.Sound opt false v) (hmax : 0 < maxResolutions) :
    ∃ incomplete rl, space.resolve opt pointerWidth solver maxResolutions (fun _ => false) p = .ok (incomplete, rl) ∧
      (RespectsLimit opt pointerWidth V p space maxResolutions incomplete rl ↔
        (candidates opt pointerWidth V p space).ncard ≤ 1 ∨
          2 ≤ maxResolutions ∧ (candidates opt pointerWidth V p space).ncard ≠ maxResolutions) := by
  obtain ⟨rl, hrl, hnodup, hall⟩ := h.resolve_all hsolver hp hsound
  rw [ncard_candidates hnodup hall]
  rcases Nat.lt_or_ge 1 maxResolutions with hmany | hone
  · refine ⟨_, _, resolve_limit hmany hrl, (respectsLimit_cut hnodup hall).trans ?_⟩
    omega
  · obtain rfl : maxResolutions = 1 := by omega
    refine ⟨false, rl, resolve_one.trans hrl, ?_⟩
    constructor
    · exact fun hlimit => .inl hlimit.length_le
    · rintro (hle | ⟨htwo, -⟩)
      · refine ⟨hle, fun x hx => (hall x).mp hx, ?_⟩
        exact iff_of_false Bool.false_ne_true fun ⟨x, hx, hpoints, hmissing⟩ => hmissing ((hall x).mpr ⟨hx, hpoints⟩)
      · omega

/-- All bytes are `n`. -/
def allBytes (n : Nat) : Valuation := fun _ _ => n

/-- All bytes are 0, or all are 1. -/
def ZeroOrOne (v : Valuation) : Prop := v = allBytes 0 ∨ v = allBytes 1

/-- The solver of a state whose constraints say so. -/
def solverTwo : TimingSolver where
  mustBeTrue e := some (e.value (allBytes 0) = 1 ∧ e.value (allBytes 1) = 1)
  getValue e := some (e.value (allBytes 0))

theorem solverTwo_correct : solverTwo.Correct true ZeroOrOne where
  mustBeTrue e _ _ := by
    refine ⟨_, rfl, decide_eq_true_iff.trans ?_⟩
    constructor
    · rintro ⟨hzero, hone⟩ v (rfl | rfl)
      · exact hzero
      · exact hone
    · exact fun h => ⟨h _ (.inl rfl), h _ (.inr rfl)⟩
  getValue e _ _ _ := ⟨e.value (allBytes 0), rfl, allBytes 0, .inl rfl, rfl⟩

/-- Two objects of one byte. -/
def twoBytes : AddressSpace where
  objects := ⟨[(⟨4096, 1⟩, 0), (⟨4097, 1⟩, 1)], by decide⟩

theorem twoBytes_disjoint : twoBytes.Disjoint 64 where
  fits := by
    intro x hx
    simp only [twoBytes, List.mem_cons, List.not_mem_nil, or_false] at hx
    rcases hx with rfl | rfl <;> exact ⟨by decide, by decide, by decide⟩
  disjoint := by
    intro x hx y hy b hxb hyb
    simp only [twoBytes, List.mem_cons, List.not_mem_nil, or_false] at hx hy
    rcases hx with rfl | rfl <;> rcases hy with rfl | rfl <;> simp [MemoryObject.InBounds] at hxb hyb ⊢ <;> omega

/-- A symbolic byte behind the first of them. -/
def oneOfTwo : Expr :=
  .arith .add (.constant 64 4096) (.zext (.read (.root { id := 1, size := 1 }) (.constant 32 0)) 64)

theorem oneOfTwo_typed : oneOfTwo.Typed 64 :=
  ⟨⟨(by decide : 0 < 64), ⟨⟨⟨by decide, by decide, by decide⟩, (by decide : 0 < 32), rfl⟩, by decide⟩, rfl⟩, rfl⟩

theorem oneOfTwo_sound (v : Valuation) : oneOfTwo.Sound true false v := by
  simp [oneOfTwo, Expr.Sound, UpdateList.Sound, UpdateList.array, Array.isConstantArray, Array.isSymbolicArray]

theorem resolve_respectsLimit_iff_two :
    ∃ incomplete rl, twoBytes.resolve true 64 solverTwo 2 (fun _ => false) oneOfTwo = .ok (incomplete, rl) ∧
      (RespectsLimit true 64 ZeroOrOne oneOfTwo twoBytes 2 incomplete rl ↔
        (candidates true 64 ZeroOrOne oneOfTwo twoBytes).ncard ≤ 1 ∨
          2 ≤ 2 ∧ (candidates true 64 ZeroOrOne oneOfTwo twoBytes).ncard ≠ 2) :=
  resolve_respectsLimit_iff twoBytes_disjoint solverTwo_correct oneOfTwo_typed (fun v _ => oneOfTwo_sound v) (by decide)

/-- Both objects are found with a limit of one. -/
theorem not_respectsLimit_one : ¬∀ (opt : Bool) (pointerWidth : Nat) (V : Valuation → Prop) (p : Expr) (space : AddressSpace)
    (solver : TimingSolver) (maxResolutions : Nat), space.Disjoint pointerWidth → solver.Correct opt V →
      p.Typed pointerWidth → (∀ v, V v → p.Sound opt false v) → 0 < maxResolutions →
      ∃ incomplete rl, space.resolve opt pointerWidth solver maxResolutions (fun _ => false) p = .ok (incomplete, rl) ∧
        RespectsLimit opt pointerWidth V p space maxResolutions incomplete rl := by
  intro hall
  obtain ⟨incomplete, rl, hresolve, hlimit⟩ := hall true 64 ZeroOrOne oneOfTwo twoBytes solverTwo 1 twoBytes_disjoint
    solverTwo_correct oneOfTwo_typed (fun v _ => oneOfTwo_sound v) (by decide)
  have hboth : twoBytes.resolve true 64 solverTwo 1 (fun _ => false) oneOfTwo =
      .ok (false, [(⟨4096, 1⟩, 0), (⟨4097, 1⟩, 1)]) := by decide +kernel
  cases hresolve.symm.trans hboth
  exact absurd hlimit.length_le (by decide)

end CapTaint.Klee.AddressSpace
