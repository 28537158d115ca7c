import CapTaint.Theorems.Filter
import CapTaint.Theorems.Accesses

/-! # Pruned branches

`filterUselessWithSet` closes the variables of a branch with the same loop as the filter and keeps the branch when
it meets a variable whose thread is 0. -/

namespace CapTaint
open Std LiveSet

namespace DealWithSymbolicExpr

/-! ### The thread of a variable -/

/-- What an entry of an access table makes of the thread of its variable. -/
def markId (old : Option Int) (events : List Event) : Option Int :=
  match events with
  | [] => old
  | first :: _ =>
    let id := old.getD first.threadId
    some (if id ≠ 0 ∧ ∃ event ∈ events, id ≠ event.threadId then 0 else id)

theorem getElem?_markThread {table : TreeMap String Int} {varName v : String} {events : List Event} :
    (markThread table varName events)[v]? = if v = varName then markId table[varName]? events else table[v]? := by
  cases events with
  | nil =>
    by_cases hv : v = varName
    · simp [markThread, markId, hv]
    · simp [markThread, hv]
  | cons first rest =>
    have hinsert : ∀ (t : TreeMap String Int) (x : Int), (t.insert varName x)[v]? = if v = varName then some x else t[v]? := by
      intro t x
      rw [TreeMap.getElem?_insert]
      by_cases hv : v = varName
      · simp [hv]
      · have hv' : ¬varName = v := fun h => hv h.symm
        simp [hv, hv']
    cases hget : table[varName]? with
    | none =>
      have hmem : varName ∉ table := by
        rw [TreeMap.mem_iff_isSome_getElem?, hget]
        simp
      simp only [markThread, if_neg hmem, TreeMap.getD_insert_self, markId, Option.getD_none]
      split
      · rw [hinsert, hinsert]
        by_cases hv : v = varName <;> simp [hv]
      · rw [hinsert]
    | some id =>
      have hmem : varName ∈ table := by
        rw [TreeMap.mem_iff_isSome_getElem?, hget]
        rfl
      have hgetD : table.getD varName 0 = id := by rw [TreeMap.getD_eq_getD_getElem?, hget]; rfl
      simp only [markThread, if_pos hmem, hgetD, markId, Option.getD_some]
      split
      · rw [hinsert]
      · by_cases hv : v = varName
        · simp [hv, hget]
        · simp [hv]

/-- A loop over an access table touches the thread of a variable once, at its own entry. -/
theorem getElem?_foldl_markThread {entries : List (String × List Event)} {table : TreeMap String Int} {v : String}
    (hdist : entries.Pairwise fun p q => p.1 ≠ q.1) :
    (entries.foldl (fun table entry => markThread table entry.1 entry.2) table)[v]? =
      match entries.lookup v with
      | none => table[v]?
      | some events => markId table[v]? events := by
  induction entries generalizing table with
  | nil => rfl
  | cons entry entries ih =>
    obtain ⟨hentry, hrest⟩ := List.pairwise_cons.mp hdist
    rw [List.foldl_cons, ih hrest, getElem?_markThread]
    obtain ⟨name, events⟩ := entry
    by_cases hv : v = name
    · subst hv
      have hnone : entries.lookup v = none := by
        rw [List.lookup_eq_none_iff]
        intro p hp
        simpa using hentry p hp
      simp [hnone]
    · have hv' : (v == name) = false := by simpa using hv
      simp [List.lookup_cons, hv', hv]

theorem lookup_toList {table : TreeMap String (List Event)} {v : String} : table.toList.lookup v = table[v]? := by
  cases hget : table[v]? with
  | none =>
    rw [List.lookup_eq_none_iff]
    intro p hp
    rw [bne_iff_ne]
    rintro rfl
    rw [TreeMap.mem_toList_iff_getElem?_eq_some, hget] at hp
    cases hp
  | some events =>
    obtain ⟨l₁, l₂, hlist⟩ := List.append_of_mem (TreeMap.mem_toList_iff_getElem?_eq_some.mpr hget)
    have hdist := TreeMap.distinct_keys_toList (t := table)
    rw [hlist] at hdist ⊢
    refine List.lookup_eq_some_iff.mpr ⟨l₁, l₂, rfl, fun p hp => ?_⟩
    rw [bne_iff_ne]
    rintro rfl
    exact (List.pairwise_append.mp hdist).2.2 p hp _ List.mem_cons_self (by simp)

/-- An entry of a table, when there is one. -/
def markEntry (old : Option Int) : Option (List Event) → Option Int
  | none => old
  | some events => markId old events

theorem getElem?_varThreadOf {readSet writeSet : TreeMap String (List Event)} {v : String} :
    (varThreadOf readSet writeSet)[v]? =
      (markEntry (markEntry none readSet[v]?) writeSet[v]?).map fun id => if writeSet[v]?.isSome then id else -1 := by
  have hdist : ∀ table : TreeMap String (List Event), table.toList.Pairwise fun p q => p.1 ≠ q.1 := fun table =>
    (TreeMap.distinct_keys_toList (t := table)).imp fun hne heq => hne (by simp [heq])
  unfold varThreadOf
  rw [TreeMap.getElem?_map, getElem?_foldl_markThread (hdist _), getElem?_foldl_markThread (hdist _), lookup_toList,
    lookup_toList]
  cases readSet[v]? <;> cases hw : writeSet[v]? <;> simp [markEntry, TreeMap.mem_iff_isSome_getElem?, hw]

section Zero
variable {events : List Event}

/-- Two threads show up among the accesses, or the thread with number 0, which no run has. -/
def SeveralThreads (accesses : List Event) : Prop :=
  (∃ a ∈ accesses, ∃ b ∈ accesses, a.threadId ≠ b.threadId) ∨ ∃ a ∈ accesses, a.threadId = 0

theorem severalThreads_cons {first : Event} {rest : List Event} : SeveralThreads (first :: rest) ↔
    first.threadId = 0 ∨ ∃ event ∈ rest, event.threadId ≠ first.threadId := by
  constructor
  · have hother : ∀ a ∈ first :: rest, a.threadId ≠ first.threadId → ∃ event ∈ rest, event.threadId ≠ first.threadId := by
      intro a ha hne
      rcases List.mem_cons.mp ha with rfl | ha
      · exact absurd rfl hne
      · exact ⟨a, ha, hne⟩
    rintro (⟨a, ha, b, hb, hne⟩ | ⟨a, ha, hzero⟩)
    · by_cases hfirst : a.threadId = first.threadId
      · exact .inr (hother b hb fun h => hne (hfirst.trans h.symm))
      · exact .inr (hother a ha hfirst)
    · by_cases hfirst : first.threadId = 0
      · exact .inl hfirst
      · exact .inr (hother a ha fun h => hfirst (h ▸ hzero))
  · rintro (hzero | ⟨event, hevent, hne⟩)
    · exact .inr ⟨first, List.mem_cons_self, hzero⟩
    · exact .inl ⟨event, List.mem_cons_of_mem _ hevent, first, List.mem_cons_self, hne⟩

/-- The thread of a variable from its reads alone. -/
theorem markId_none {first : Event} {rest : List Event} : markId none (first :: rest) =
    some (if first.threadId = 0 ∨ ∃ event ∈ rest, event.threadId ≠ first.threadId then (0 : Int) else first.threadId) := by
  unfold markId
  dsimp only
  rw [Option.getD_none, Option.some.injEq]
  have hcond : ((first.threadId : Int) ≠ 0 ∧ ∃ event ∈ first :: rest, (first.threadId : Int) ≠ event.threadId) ↔
      first.threadId ≠ 0 ∧ ∃ event ∈ rest, event.threadId ≠ first.threadId := by
    refine and_congr (by exact_mod_cast Iff.rfl) ⟨?_, ?_⟩
    · rintro ⟨event, hevent, hne⟩
      rcases List.mem_cons.mp hevent with rfl | hevent
      · exact absurd rfl hne
      · exact ⟨event, hevent, fun h => hne (by rw [h])⟩
    · rintro ⟨event, hevent, hne⟩
      exact ⟨event, List.mem_cons_of_mem _ hevent, fun h => hne (Int.ofNat_inj.mp h).symm⟩
  by_cases hzero : first.threadId = 0
  · simp [hzero]
  · simp only [hcond, hzero, ne_eq, not_false_eq_true, true_and, false_or]

theorem markId_some_eq_zero {id : Int} (hne : events ≠ []) : markId (some id) events = some 0 ↔
    id = 0 ∨ ∃ event ∈ events, id ≠ event.threadId := by
  cases events with
  | nil => exact absurd rfl hne
  | cons first rest =>
    unfold markId
    dsimp only
    rw [Option.getD_some, Option.some.injEq]
    by_cases hzero : id = 0
    · simp [hzero]
    · by_cases hother : ∃ event ∈ first :: rest, id ≠ event.threadId
      · rw [if_pos ⟨hzero, hother⟩]
        exact iff_of_true rfl (.inr hother)
      · rw [if_neg fun h => hother h.2]
        exact iff_of_false hzero (by rintro (h | h) <;> contradiction)

end Zero

/-- A variable has the thread 0, or none, when it was never accessed or when it is written and several threads
    access it. -/
theorem varThread_eq_zero {readSet writeSet : TreeMap String (List Event)} {v : String}
    (hreads : ∀ {events : List Event}, readSet[v]? = some events → events ≠ [])
    (hwrites : ∀ {events : List Event}, writeSet[v]? = some events → events ≠ []) :
    (varThreadOf readSet writeSet).getD v 0 = 0 ↔
      readSet.getD v [] ++ writeSet.getD v [] = [] ∨
      writeSet.getD v [] ≠ [] ∧ SeveralThreads (readSet.getD v [] ++ writeSet.getD v []) := by
  rw [TreeMap.getD_eq_getD_getElem?, getElem?_varThreadOf, TreeMap.getD_eq_getD_getElem?, TreeMap.getD_eq_getD_getElem?]
  cases hw : writeSet[v]? with
  | none =>
    cases hr : readSet[v]? with
    | none => simp [markEntry]
    | some reads =>
      obtain ⟨first, rest, rfl⟩ := List.exists_cons_of_ne_nil (hreads hr)
      simp [markEntry, markId]
  | some writes =>
    obtain ⟨w, ws, rfl⟩ := List.exists_cons_of_ne_nil (hwrites hw)
    cases hr : readSet[v]? with
    | none =>
      simp only [markEntry, markId_none, Option.map_some, Option.isSome_some, if_true, Option.getD_some, Option.getD_none,
        List.nil_append, ne_eq, reduceCtorEq, not_false_eq_true, true_and, false_or, severalThreads_cons]
      split
      · rename_i h
        simp [h]
      · rename_i h
        simp only [h, iff_false]
        exact fun hzero => h (.inl (by exact_mod_cast hzero))
    | some reads =>
      obtain ⟨r, rs, rfl⟩ := List.exists_cons_of_ne_nil (hreads hr)
      have hget : (markEntry (markEntry none (some (r :: rs))) (some (w :: ws))).isSome := rfl
      obtain ⟨id, hid⟩ := Option.isSome_iff_exists.mp hget
      have hzero : id = 0 ↔ SeveralThreads (r :: (rs ++ w :: ws)) := by
        have hsome : id = 0 ↔ markEntry (markEntry none (some (r :: rs))) (some (w :: ws)) = some 0 := by
          rw [hid, Option.some.injEq]
        rw [hsome, markEntry, markEntry, markId_none, markId_some_eq_zero (List.cons_ne_nil _ _), severalThreads_cons]
        split
        · rename_i h
          refine iff_of_true (.inl rfl) (h.imp_right ?_)
          rintro ⟨event, hevent, hne⟩
          exact ⟨event, List.mem_append_left _ hevent, hne⟩
        · rename_i h
          constructor
          · rintro (hz | ⟨event, hevent, hne⟩)
            · exact absurd (.inl (by exact_mod_cast hz)) h
            · exact .inr ⟨event, List.mem_append_right _ hevent, fun heq => hne (by rw [heq])⟩
          · rintro (hz | ⟨event, hevent, hne⟩)
            · exact absurd (.inl hz) h
            rcases List.mem_append.mp hevent with hevent | hevent
            · exact absurd (.inr ⟨event, hevent, hne⟩) h
            · exact .inr ⟨event, hevent, fun heq => hne (Int.ofNat_inj.mp heq).symm⟩
      rw [hid]
      simp [hzero]

/-! ### The variables of a branch -/

/-- The loop of `filterUselessWithSet` over any dependency table. -/
theorem mem_relatedClosure {varRelated : TreeMap String (TreeSet String)} {related : TreeSet String} {u : String} :
    u ∈ relatedClosure varRelated related ↔ u ∈ related ∨
      ∃ v, AscendingReach {x | x ∈ related} (fun v => {x | x ∈ varRelated.getD v ∅}) v ∧ u ∈ varRelated.getD v ∅ := by
  have hstart : Visited id {x | x ∈ related} (fun v => {x | x ∈ varRelated.getD v ∅}) (fun _ _ => True) []
      (addExprToSet related ∅) := by
    refine ⟨trivial, fun v => ?_, .nil, by simp, fun x _ hnot => ?_⟩
    · rw [id_eq, mem_addExprToSet]
      simp
    · exact absurd (fun c hc => by cases hc) hnot
  have hnames : ∀ {x : String}, AscendingReach {x | x ∈ related} (fun v => {x | x ∈ varRelated.getD v ∅}) x →
      x ∈ (related.toList ++ varRelated.toList.flatMap fun entry => entry.2.toList).toFinset := by
    intro x hx
    rw [List.mem_toFinset, List.mem_append]
    cases hx with
    | root hD => exact .inl (TreeSet.mem_toList.mpr hD)
    | @step v _ _ hE _ =>
      have hE : x ∈ varRelated.getD v ∅ := hE
      rw [TreeMap.getD_eq_getD_getElem?] at hE
      cases hget : varRelated[v]? with
      | none => rw [hget] at hE; simp at hE
      | some set =>
        rw [hget] at hE
        exact .inr (List.mem_flatMap.mpr ⟨(v, set), TreeMap.mem_toList_iff_getElem?_eq_some.mpr hget,
          TreeSet.mem_toList.mpr hE⟩)
  obtain ⟨visited, hvisited, hreach⟩ : ∃ visited, Visited id {x | x ∈ related} (fun v => {x | x ∈ varRelated.getD v ∅})
      (fun _ _ => True) visited (relatedClosure varRelated related) ∧ ∀ v, v ∈ visited ↔
        AscendingReach {x | x ∈ related} (fun v => {x | x ∈ varRelated.getD v ∅}) v := by
    refine liveLoop_visited hstart (fun {visited s x} _ _ => ⟨trivial, fun y => ?_⟩) hnames ?_
    · have hset : y ∈ varRelated.getD x ∅ ↔ y ∈ varRelated[x]?.getD ∅ := by rw [TreeMap.getD_eq_getD_getElem?]
      refine Iff.trans ?_ (or_congr_right hset.symm)
      cases varRelated[x]? with
      | none => simp
      | some expr => exact mem_addExprToSet.trans or_comm
    · exact Nat.lt_succ_of_le (List.toFinset_card_le _)
  refine (hvisited.mem_set u).trans (or_congr_right ⟨?_, ?_⟩)
  · rintro ⟨v, hv, hu⟩
    exact ⟨v, (hreach v).mp hv, hu⟩
  · rintro ⟨v, hv, hu⟩
    exact ⟨v, (hreach v).mpr hv, hu⟩

/-- What the loops find from the variables `D` of a branch: `D` and the variables of the stores to what `D` reaches
    along ascending names. -/
def Found (symbolic : SymbolicExprs) (D : Set String) (u : String) : Prop :=
  u ∈ D ∨ ∃ v, AscendingReach D (fun v => {x | Depends symbolic.storeSymbolicExpr v x}) v ∧
    Depends symbolic.storeSymbolicExpr v u

theorem mem_relatedClosure_filterUseless {trace : Trace} {symbolic : SymbolicExprs} {related : TreeSet String} {u : String}
    (hroots : ∀ v ∈ related, v ∈ roots symbolic) :
    u ∈ relatedClosure (filterUseless trace symbolic).varRelatedSymbolicExpr related ↔
      Found symbolic {x | x ∈ related} u := by
  obtain ⟨visited, hvisited, hprocessed, -⟩ := closure_visited symbolic
  have hvar : ∀ v x, x ∈ (filterUseless trace symbolic).varRelatedSymbolicExpr.getD v ∅ ↔
      v ∈ visited ∧ Depends symbolic.storeSymbolicExpr v x := hprocessed.varRelated
  -- what the branch reaches upwards was visited by the filter, so the table knows its dependencies
  have hasc : ∀ {v : String}, AscendingReach {x | x ∈ related} (fun v => {x | Depends symbolic.storeSymbolicExpr v x}) v →
      v ∈ visited := fun hv => (hvisited _).mpr (hv.mono hroots)
  have hsame : ∀ v, AscendingReach {x | x ∈ related} (fun v => {x | x ∈ (filterUseless trace
      symbolic).varRelatedSymbolicExpr.getD v ∅}) v ↔
      AscendingReach {x | x ∈ related} (fun v => {x | Depends symbolic.storeSymbolicExpr v x}) v := by
    intro v
    constructor
    · intro hv
      induction hv with
      | root hD => exact .root hD
      | step _ hE hlt ih => exact .step ih ((hvar _ _).mp hE).2 hlt
    · intro hv
      induction hv with
      | root hD => exact .root hD
      | step hu hE hlt ih => exact .step ih ((hvar _ _).mpr ⟨hasc hu, hE⟩) hlt
  rw [mem_relatedClosure]
  refine or_congr_right (exists_congr fun v => ?_)
  rw [hsame v, hvar v u]
  exact ⟨fun ⟨hv, _, hdep⟩ => ⟨hv, hdep⟩, fun ⟨hv, hdep⟩ => ⟨hv, hasc hv, hdep⟩⟩

/-! ### Soundness of the pruning -/

/-- The accesses of a variable in a trace. -/
def accesses (trace : Trace) (v : String) : List Event := trace.readSet.getD v [] ++ trace.writeSet.getD v []

/-- The variable is written, and at least two threads access it. -/
def Shared (trace : Trace) (v : String) : Prop :=
  trace.writeSet.getD v [] ≠ [] ∧ ∃ a ∈ accesses trace v, ∃ b ∈ accesses trace v, a.threadId ≠ b.threadId

/-- The variable makes the filter keep a branch: nothing accessed it, or it is written and several threads did. -/
def Flagged (trace : Trace) (v : String) : Prop :=
  accesses trace v = [] ∨ trace.writeSet.getD v [] ≠ [] ∧ SeveralThreads (accesses trace v)

theorem found_mem_all {trace : Trace} {symbolic : SymbolicExprs} {D : Set String} {u : String}
    (hroots : ∀ v ∈ D, v ∈ roots symbolic) (h : Found symbolic D u) :
    u ∈ (filterUseless trace symbolic).allRelatedSymbolicExpr := by
  obtain ⟨visited, hvisited, -, hall⟩ := closure_visited symbolic
  refine (hall u).mpr ?_
  rcases h with hD | ⟨v, hv, hdep⟩
  · exact .inl (hroots u hD)
  · exact .inr ⟨v, (hvisited v).mpr (hv.mono hroots), hdep⟩

theorem getD_filter_mem {table : TreeMap String (List Event)} {set : TreeSet String} {v : String} (hv : v ∈ set) :
    (table.filter fun varName _ => varName ∈ set).getD v [] = table.getD v [] := by
  rw [TreeMap.getD_eq_getD_getElem?, TreeMap.getD_eq_getD_getElem?, TreeMap.getElem?_filter']
  cases table[v]? <;> simp [hv, Option.filter_some]

/-- The thread that the filter gives to a related variable is 0, or missing, when the variable is flagged. -/
theorem varThread_filterUseless {l : PSOListener} (h : Recorded l) {symbolic : SymbolicExprs} {v : String}
    (hv : v ∈ (filterUseless l.trace symbolic).allRelatedSymbolicExpr) :
    (filterUseless l.trace symbolic).varThread.getD v 0 = 0 ↔ Flagged l.trace v := by
  obtain ⟨hreads, hwrites⟩ := recorded_accessTables h
  have hnonempty : ∀ {table : TreeMap String (List Event)},
      (∀ {key : String} {events : List Event}, table[key]? = some events → events ≠ []) → ∀ {events : List Event},
      (table.filter fun varName _ => varName ∈ (closure symbolic).allRelatedSymbolicExpr)[v]? = some events →
      events ≠ [] := by
    intro table htable events hget
    rw [TreeMap.getElem?_filter'] at hget
    exact htable (Option.filter_eq_some_iff.mp hget).1
  refine (varThread_eq_zero (hnonempty hreads.nonempty) (hnonempty hwrites.nonempty)).trans ?_
  have hall : v ∈ (closure symbolic).allRelatedSymbolicExpr := hv
  rw [getD_filter_mem hall, getD_filter_mem hall]
  rfl

/-- A branch is pruned soundly exactly when, if its dependency closure holds a shared variable, the part that the
    loops find holds a flagged one. -/
theorem filterUselessWithSet_sound_iff {l : PSOListener} (h : Recorded l) {symbolic : SymbolicExprs} {i : Nat}
    {related : TreeSet String} (hi : (filterUseless l.trace symbolic).brRelatedSymbolicExpr[i]? = some related) :
    (filterUselessWithSet (filterUseless l.trace symbolic) related = false →
      ∀ v, Reaches symbolic {x | x ∈ related} v → ¬Shared l.trace v) ↔
    ((∃ v, Reaches symbolic {x | x ∈ related} v ∧ Shared l.trace v) →
      ∃ u, Found symbolic {x | x ∈ related} u ∧ Flagged l.trace u) := by
  have hroots : ∀ v ∈ related, v ∈ roots symbolic := by
    intro v hv
    obtain ⟨e, he, rfl⟩ := List.mem_map.mp (List.mem_of_getElem? hi)
    exact ⟨e, List.mem_append_left _ he, mem_resolveSymbolicExpr_empty.mp hv⟩
  have hkept : filterUselessWithSet (filterUseless l.trace symbolic) related = true ↔
      ∃ u, Found symbolic {x | x ∈ related} u ∧ Flagged l.trace u := by
    unfold filterUselessWithSet
    rw [List.any_eq_true]
    refine exists_congr fun u => ?_
    rw [TreeSet.mem_toList, mem_relatedClosure_filterUseless hroots, beq_iff_eq]
    exact and_congr_right fun hfound => varThread_filterUseless h (found_mem_all hroots hfound)
  rw [← hkept]
  constructor
  · rintro hsound ⟨v, hv, hshared⟩
    by_contra hpruned
    exact hsound (by simpa using hpruned) v hv hshared
  · intro hcond hpruned v hv hshared
    rw [hcond ⟨v, hv, hshared⟩] at hpruned
    cases hpruned

/-- Two threads write `G1_1`. -/
def sharedRun : PSOListener :=
  PSOListener.record []
    [(1, { inst := .store ⟨1, 1, true⟩ false }, none), (2, { inst := .store ⟨1, 1, true⟩ false }, none),
      (1, { inst := .load ⟨2, 1, true⟩ false }, none), (1, { inst := .store ⟨2, 1, true⟩ false }, none),
      (1, { inst := .load ⟨3, 1, true⟩ false }, none), (1, { inst := .store ⟨3, 1, true⟩ false }, none)]

/-- A branch on `G2_1`, which is stored from `G1_1`. -/
def sharedExprs : SymbolicExprs where
  storeSymbolicExpr := [{ left := .read ⟨"G1_1L1", rfl⟩, right := .read ⟨"G2_1S1", rfl⟩ }]
  brSymbolicExpr := [.read ⟨"G2_1L1", rfl⟩]

theorem filterUselessWithSet_sharedRun :
    (filterUseless sharedRun.trace sharedExprs).brRelatedSymbolicExpr[0]? =
        some (resolveSymbolicExpr (.read ⟨"G2_1L1", by decide⟩) ∅) ∧
      (filterUselessWithSet (filterUseless sharedRun.trace sharedExprs)
        (resolveSymbolicExpr (.read ⟨"G2_1L1", by decide⟩) ∅) = false →
        ∀ v, Reaches sharedExprs {x | x ∈ resolveSymbolicExpr (.read ⟨"G2_1L1", by decide⟩) ∅} v →
          ¬Shared sharedRun.trace v) :=
  ⟨rfl, (filterUselessWithSet_sound_iff (i := 0) (record_recorded _ _) rfl).mpr fun _ =>
    ⟨"G1_1", .inr ⟨"G2_1", .root (by decide +kernel), _, List.mem_cons_self, by decide +kernel,
        mem_resolveSymbolicExpr_empty.mp (by decide +kernel)⟩,
      .inr ⟨by decide +kernel, .inl (by decide +kernel)⟩⟩⟩

/-- Two threads write `G3_1`; thread 1 alone accesses `G1_1` and `G2_1`. -/
def hiddenRun : PSOListener :=
  PSOListener.record []
    [(1, { inst := .store ⟨3, 1, true⟩ false }, none), (2, { inst := .store ⟨3, 1, true⟩ false }, none),
      (1, { inst := .load ⟨3, 1, true⟩ false }, none), (1, { inst := .store ⟨1, 1, true⟩ false }, none),
      (1, { inst := .load ⟨1, 1, true⟩ false }, none), (1, { inst := .store ⟨2, 1, true⟩ false }, none),
      (1, { inst := .load ⟨2, 1, true⟩ false }, none)]

/-- The branch on `G2_1` depends on `G3_1` through `G1_1`, and is pruned. -/
theorem filterUselessWithSet_hiddenRun :
    (filterUseless hiddenRun.trace descendingExprs).brRelatedSymbolicExpr[0]? =
      some (resolveSymbolicExpr (.read ⟨"G2_1L1", by decide⟩) ∅) ∧
    ¬(filterUselessWithSet (filterUseless hiddenRun.trace descendingExprs)
        (resolveSymbolicExpr (.read ⟨"G2_1L1", by decide⟩) ∅) = false →
      ∀ v, Reaches descendingExprs {x | x ∈ resolveSymbolicExpr (.read ⟨"G2_1L1", by decide⟩) ∅} v →
        ¬Shared hiddenRun.trace v) := by
  refine ⟨rfl, fun hsound => ?_⟩
  have hG1 : Depends descendingExprs.storeSymbolicExpr "G2_1" "G1_1" :=
    ⟨_, List.mem_cons_self, by decide +kernel, mem_resolveSymbolicExpr_empty.mp (by decide +kernel)⟩
  have hG3 : Depends descendingExprs.storeSymbolicExpr "G1_1" "G3_1" :=
    ⟨_, List.mem_cons_of_mem _ List.mem_cons_self, by decide +kernel, mem_resolveSymbolicExpr_empty.mp (by decide +kernel)⟩
  refine hsound (by decide +kernel) "G3_1" ⟨"G2_1", by decide +kernel, (Relation.ReflTransGen.single hG1).tail hG3⟩ ?_
  exact ⟨by decide +kernel, by decide +kernel⟩

end DealWithSymbolicExpr
end CapTaint
