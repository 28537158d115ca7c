import CapTaint.Theorems.Threads

/-! # Thread ids

The ids that `createThread` hands out: those that a prefix dictates and those of the counter. They stay below the
counter, which the assertions bound by 6, one more than the vector clocks have room for. -/

namespace CapTaint
open Std

namespace ExecutionState

/-- One `createThread` for each request, with the id that a prefix dictates or with the next one: the ids that are handed
    out and the state after them. -/
def createThreads : List (Option Nat) → ExecutionState → Option (List Nat × ExecutionState)
  | [], s => some ([], s)
  | replayed :: requests, s => do
    let (threadId, s) ← s.createThread replayed
    let (ids, s) ← createThreads requests s
    some (threadId :: ids, s)

variable {s s' : ExecutionState} {id : Nat} {replayed : Option Nat}

theorem nextId_eq (h : s.nextId replayed = some (id, s')) :
    id = replayed.getD s.nextThreadId ∧ s' = { s with nextThreadId := max s.nextThreadId (id + 1) } ∧
      s'.nextThreadId ≤ 6 := by
  simp only [nextId, Option.ite_none_right_eq_some] at h
  obtain ⟨hle, heq⟩ := h
  obtain ⟨rfl, rfl⟩ := Prod.mk.inj (Option.some.inj heq)
  refine ⟨rfl, ?_, hle⟩
  congr 1
  split <;> omega

/-- What one create does to the threads and to the counter. -/
theorem createThread_ids (h : s.createThread replayed = some (id, s')) :
    id = replayed.getD s.nextThreadId ∧ id ∉ s.threadList ∧ (∀ q, q ∈ s'.threadList ↔ q = id ∨ q ∈ s.threadList) ∧
      s'.nextThreadId = max s.nextThreadId (id + 1) ∧ s'.nextThreadId ≤ 6 := by
  obtain ⟨hfree, hlist, -⟩ := createThread_eq h
  obtain ⟨⟨id', s₁⟩, hid, hrest⟩ := Option.bind_eq_some_iff.mp h
  obtain ⟨hid', hs₁, hle⟩ := nextId_eq hid
  simp only [Option.ite_none_left_eq_some] at hrest
  obtain ⟨rfl, rfl⟩ := Prod.mk.inj (Option.some.inj hrest.2)
  refine ⟨hid', hfree, fun q => ?_, by rw [hs₁], hle⟩
  rw [hlist, TreeMap.mem_insert, Std.compare_eq_iff_eq]
  exact or_congr eq_comm Iff.rfl

theorem createThreads_cons {requests : List (Option Nat)} {ids : List Nat}
    (h : createThreads (replayed :: requests) s = some (ids, s')) :
    ∃ id rest s₁, s.createThread replayed = some (id, s₁) ∧ createThreads requests s₁ = some (rest, s') ∧
      ids = id :: rest := by
  obtain ⟨⟨id, s₁⟩, hone, h⟩ := Option.bind_eq_some_iff.mp h
  obtain ⟨⟨rest, s₂⟩, hrest, h⟩ := Option.bind_eq_some_iff.mp h
  obtain ⟨rfl, rfl⟩ := Prod.mk.inj (Option.some.inj h)
  exact ⟨id, rest, s₁, hone, hrest, rfl⟩

/-- The threads have ids below the counter, and the counter is within the assertions. -/
structure IdsBelow (s : ExecutionState) : Prop where
  below : ∀ q ∈ s.threadList, q < s.nextThreadId
  bound : s.nextThreadId ≤ 6

theorem mem_start {q : Nat} : q ∈ Executor.start.state.threadList ↔ q = 1 := by
  simp only [Executor.start, TreeMap.mem_insert, Std.compare_eq_iff_eq, TreeMap.not_mem_emptyc, or_false]
  exact eq_comm

theorem start_idsBelow : IdsBelow Executor.start.state where
  below q hq := by
    rw [mem_start.mp hq]
    decide
  bound := by decide

theorem IdsBelow.createThread (h : IdsBelow s) (hs : s.createThread replayed = some (id, s')) : IdsBelow s' := by
  obtain ⟨-, -, hmem, hnext, hle⟩ := createThread_ids hs
  refine ⟨fun q hq => ?_, hle⟩
  rw [hnext]
  rcases (hmem q).mp hq with rfl | hq
  · omega
  · have := h.below q hq
    omega

theorem IdsBelow.createThreads (h : IdsBelow s) {requests : List (Option Nat)} {ids : List Nat}
    (hs : ExecutionState.createThreads requests s = some (ids, s')) : IdsBelow s' := by
  induction requests generalizing s ids with
  | nil =>
    obtain ⟨-, rfl⟩ := Prod.mk.inj (Option.some.inj hs)
    exact h
  | cons request requests ih =>
    obtain ⟨id, rest, s₂, hone, hrest, -⟩ := createThreads_cons hs
    exact ih (h.createThread hone) hrest

theorem mem_createThreads {requests : List (Option Nat)} {ids : List Nat} {q : Nat}
    (hs : createThreads requests s = some (ids, s')) (hq : q ∈ s.threadList) : q ∈ s'.threadList := by
  induction requests generalizing s ids with
  | nil =>
    obtain ⟨-, rfl⟩ := Prod.mk.inj (Option.some.inj hs)
    exact hq
  | cons request requests ih =>
    obtain ⟨id, rest, s₂, hone, hrest, -⟩ := createThreads_cons hs
    obtain ⟨-, -, hmem, -, -⟩ := createThread_ids hone
    exact ih hrest ((hmem q).mpr (.inr hq))

/-! ### The size of the clocks -/

/-- Each thread can count itself: `vectorClock[threadId]` is within the vector. -/
def ClocksInBounds (s : ExecutionState) : Prop := ∀ q ∈ s.threadList, (s.tick q).isSome

/-- No create along `requests` hands out the id 5: a prefix does not dictate it, and no thread is created freely while the
    counter is 5. -/
def FiveUnused : List (Option Nat) → ExecutionState → Prop
  | [], _ => True
  | replayed :: requests, s =>
    replayed.getD s.nextThreadId ≠ 5 ∧ ∀ id s', s.createThread replayed = some (id, s') → FiveUnused requests s'

theorem tick_isSome {q : Nat} (hq : q ∈ s.threadList) : (s.tick q).isSome ↔ q < 5 := by
  unfold tick
  split
  next hlt => simp [hlt.1]
  next hge =>
    have hlt : ¬q < 5 := fun hlt => hge ⟨hlt, hq⟩
    simp [hlt]

/-- Ids are at most 5, so the id 5 is the only one that is out of bounds. -/
theorem IdsBelow.inBounds_iff (h : IdsBelow s) : ClocksInBounds s ↔ 5 ∉ s.threadList := by
  constructor
  · intro hbounds hfive
    exact absurd ((tick_isSome hfive).mp (hbounds 5 hfive)) (by decide)
  · intro hfive q hq
    have hlt := h.below q hq
    have hbound := h.bound
    have hne : q ≠ 5 := fun heq => hfive (heq ▸ hq)
    exact (tick_isSome hq).mpr (by omega)

theorem notMem_five_iff {requests : List (Option Nat)} {ids : List Nat} (h : IdsBelow s) (hfive : 5 ∉ s.threadList)
    (hs : createThreads requests s = some (ids, s')) : 5 ∉ s'.threadList ↔ FiveUnused requests s := by
  induction requests generalizing s ids with
  | nil =>
    obtain ⟨-, rfl⟩ := Prod.mk.inj (Option.some.inj hs)
    exact iff_of_true hfive trivial
  | cons request requests ih =>
    obtain ⟨id, rest, s₂, hone, hrest, -⟩ := createThreads_cons hs
    obtain ⟨hid, -, hmem, -, -⟩ := createThread_ids hone
    have hnext : FiveUnused (request :: requests) s ↔ id ≠ 5 ∧ FiveUnused requests s₂ := by
      rw [FiveUnused, ← hid]
      refine and_congr_right fun _ => ⟨fun hall => hall id s₂ hone, fun hrest id' s' hone' => ?_⟩
      rw [hone] at hone'
      obtain ⟨-, rfl⟩ := Prod.mk.inj (Option.some.inj hone')
      exact hrest
    rw [hnext]
    by_cases hidfive : id = 5
    · -- a thread stays in the list
      refine iff_of_false (fun hnot => hnot ?_) fun hboth => hboth.1 hidfive
      exact mem_createThreads hrest ((hmem 5).mpr (.inl hidfive.symm))
    · have hfive₂ : 5 ∉ s₂.threadList := by
        rw [hmem]
        rintro (heq | hold)
        · exact hidfive heq.symm
        · exact hfive hold
      rw [ih (h.createThread hone) hfive₂ hrest]
      simp [hidfive]

/-- After any creates that pass the assertions, the clocks are accessed within bounds exactly when the id 5 was not handed
    out. -/
theorem clocksInBounds_iff (requests : List (Option Nat)) (ids : List Nat) (s : ExecutionState)
    (h : createThreads requests Executor.start.state = some (ids, s)) :
    ClocksInBounds s ↔ FiveUnused requests Executor.start.state := by
  have hfive : 5 ∉ Executor.start.state.threadList := by simp [mem_start]
  rw [(start_idsBelow.createThreads h).inBounds_iff]
  exact notMem_five_iff start_idsBelow hfive h

theorem clocksInBounds_threeThreads : ∃ ids s, createThreads [none, some 4] Executor.start.state = some (ids, s) ∧
    ids = [2, 4] ∧ (ClocksInBounds s ↔ FiveUnused [none, some 4] Executor.start.state) := by
  have hrun : (createThreads [none, some 4] Executor.start.state).isSome := by decide +kernel
  obtain ⟨⟨ids, s⟩, h⟩ := Option.isSome_iff_exists.mp hrun
  have hids : (createThreads [none, some 4] Executor.start.state).map (·.1) = some [2, 4] := by decide +kernel
  rw [h] at hids
  exact ⟨ids, s, h, Option.some.inj hids, clocksInBounds_iff _ ids s h⟩

/-- The fourth thread that is created freely has the id 5. -/
theorem not_clocksInBounds_fourCreates :
    ∃ ids s, createThreads [none, none, none, none] Executor.start.state = some (ids, s) ∧ ¬ClocksInBounds s := by
  have hrun : (createThreads [none, none, none, none] Executor.start.state).isSome := by decide +kernel
  obtain ⟨⟨ids, s⟩, h⟩ := Option.isSome_iff_exists.mp hrun
  have hmem : (createThreads [none, none, none, none] Executor.start.state).all fun r => decide (5 ∈ r.2.threadList) := by
    decide +kernel
  rw [h] at hmem
  have hfive : 5 ∈ s.threadList := by simpa using hmem
  refine ⟨ids, s, h, fun hbounds => ?_⟩
  exact absurd ((tick_isSome hfive).mp (hbounds 5 hfive)) (by decide)

/-! ### Replay -/

/-- The ids of a prefix: pairwise distinct ids that the create events of an earlier run carry. -/
structure RecordedIds (ids : List Nat) : Prop where
  nodup : ids.Nodup
  recorded : ∃ requests created s, createThreads requests Executor.start.state = some (created, s) ∧ ids ⊆ created

/-- The requests of a run that replays the create events of a prefix with the ids `ids` and then creates `count` threads
    freely; it may end at any point. -/
def ReplayRequests (ids : List Nat) (count : Nat) (requests : List (Option Nat)) : Prop :=
  requests <+: ids.map some ++ List.replicate count none

/-- The ids of the main thread and of the created ones are pairwise distinct and below the counter. -/
structure UniqueIds (created : List Nat) (s : ExecutionState) : Prop where
  nodup : (1 :: created).Nodup
  below : ∀ id ∈ 1 :: created, id < s.nextThreadId

/-- `addThread` finds no thread with the new id. -/
def NotDuplicate (s : ExecutionState) (replayed : Option Nat) : Prop :=
  ∀ id s', s.nextId replayed = some (id, s') → id ∉ s'.threadList

/-- What the creates before have left: exactly the threads with the ids so far. -/
structure Handed (created : List Nat) (s : ExecutionState) : Prop extends UniqueIds created s where
  mem : ∀ q, q ∈ s.threadList ↔ q ∈ 1 :: created

theorem start_handed : Handed [] Executor.start.state where
  nodup := by simp
  below id hid := by
    rw [List.mem_singleton.mp hid]
    decide
  mem q := by rw [mem_start, List.mem_singleton]

theorem Handed.createThread {created : List Nat} (h : Handed created s) (hs : s.createThread replayed = some (id, s')) :
    Handed (created ++ [id]) s' := by
  obtain ⟨-, hfree, hmem, hnext, -⟩ := createThread_ids hs
  have hnew : id ∉ 1 :: created := fun hid => hfree ((h.mem id).mpr hid)
  refine ⟨⟨?_, fun q hq => ?_⟩, fun q => ?_⟩
  · rw [← List.cons_append, List.nodup_append_comm]
    exact List.nodup_cons.mpr ⟨hnew, h.nodup⟩
  · rw [← List.cons_append, List.mem_append, List.mem_singleton] at hq
    rw [hnext]
    rcases hq with hq | rfl
    · have := h.below q hq
      omega
    · omega
  · rw [hmem, h.mem, ← List.cons_append, List.mem_append, List.mem_singleton]
    exact or_comm

theorem Handed.createThreads {created ids : List Nat} {requests : List (Option Nat)} (h : Handed created s)
    (hs : ExecutionState.createThreads requests s = some (ids, s')) : Handed (created ++ ids) s' := by
  induction requests generalizing s created ids with
  | nil =>
    obtain ⟨rfl, rfl⟩ := Prod.mk.inj (Option.some.inj hs)
    rwa [List.append_nil]
  | cons request requests ih =>
    obtain ⟨id, rest, s₂, hone, hrest, rfl⟩ := createThreads_cons hs
    have hrest' := ih (h.createThread hone) hrest
    rwa [List.append_assoc] at hrest'

/-- The ids along a prefix are the dictated ones. -/
theorem createThreads_replayed {ids created : List Nat} (hs : createThreads (ids.map some) s = some (created, s')) :
    created = ids := by
  induction ids generalizing s created with
  | nil => exact (Prod.mk.inj (Option.some.inj hs)).1.symm
  | cons first ids ih =>
    obtain ⟨id, rest, s₂, hone, hrest, rfl⟩ := createThreads_cons hs
    rw [ih hrest, (createThread_ids hone).1]
    rfl

theorem RecordedIds.notMem_one {ids : List Nat} (h : RecordedIds ids) : 1 ∉ ids := by
  obtain ⟨requests, created, s, hs, hsub⟩ := h.recorded
  intro hone
  have hnodup := (start_handed.createThreads hs).nodup
  exact (List.nodup_cons.mp hnodup).1 (hsub hone)

/-- The next request of a replay is the next id of the prefix, or a free one when all of them are used. -/
theorem ReplayRequests.next {ids : List Nat} {count : Nat} {before : List (Option Nat)}
    (h : ReplayRequests ids count (before ++ [replayed])) :
    (∃ id rest, replayed = some id ∧ ids.map some = before ++ some id :: rest) ∨ replayed = none := by
  obtain ⟨rest, hrest⟩ := h
  rw [List.append_assoc, List.singleton_append] at hrest
  rcases List.append_eq_append_iff.mp hrest with ⟨used, hids, hfree⟩ | ⟨used, hbefore, hlist⟩
  · cases used with
    | nil =>
      right
      rw [List.nil_append] at hfree
      have hmem : replayed ∈ List.replicate count none := hfree ▸ List.mem_cons_self
      exact List.eq_of_mem_replicate hmem
    | cons first used =>
      rw [List.cons_append] at hfree
      obtain ⟨rfl, -⟩ := List.cons.inj hfree
      have hmem : replayed ∈ ids.map some := hids ▸ List.mem_append_right _ List.mem_cons_self
      obtain ⟨id, -, rfl⟩ := List.mem_map.mp hmem
      exact .inl ⟨id, used, rfl, hids⟩
  · right
    have hmem : replayed ∈ List.replicate count none := by
      rw [hlist]
      exact List.mem_append_right _ List.mem_cons_self
    exact List.eq_of_mem_replicate hmem

/-- Replayed ids and free ones never meet: the created threads have different ids below the counter, and no create finds
    its id in use. -/
theorem uniqueIds_of_replay (ids : List Nat) (count : Nat) (requests : List (Option Nat)) (h : RecordedIds ids)
    (hreplay : ReplayRequests ids count requests) :
    (∀ created s, createThreads requests Executor.start.state = some (created, s) → UniqueIds created s) ∧
    ∀ before replayed, before ++ [replayed] <+: requests → ∀ created s,
      createThreads before Executor.start.state = some (created, s) → NotDuplicate s replayed := by
  refine ⟨fun created s hs => (start_handed.createThreads hs).toUniqueIds, ?_⟩
  intro before replayed hbefore created s hs id s' hnext
  have hhanded := start_handed.createThreads hs
  obtain ⟨hid, rfl, -⟩ := nextId_eq hnext
  rw [hhanded.mem]
  rcases ReplayRequests.next (hbefore.trans hreplay) with ⟨next, rest, rfl, hids⟩ | rfl
  · -- the ids so far are the earlier ones of the prefix
    obtain rfl : id = next := hid
    have hmap : before = (ids.take before.length).map some := by
      rw [List.map_take, hids, List.take_left]
    rw [hmap] at hs
    obtain rfl := createThreads_replayed hs
    have hlen : before.length < ids.length := by
      have := congrArg List.length hids
      simp only [List.length_map, List.length_append, List.length_cons] at this
      omega
    have hget : ids[before.length] = id := by
      have := congrArg (·[before.length]?) hids
      simpa [List.getElem?_eq_getElem hlen] using this
    have hfresh : id ∉ ids.take before.length := by
      rw [← hget]
      exact fun hmem => by
        obtain ⟨k, hk, heq⟩ := List.mem_take_iff_getElem.mp hmem
        have := (List.Nodup.getElem_inj_iff h.nodup).mp heq
        omega
    have hone : id ≠ 1 := by
      rintro rfl
      exact h.notMem_one (hget ▸ List.getElem_mem hlen)
    simp [hfresh, hone]
  · obtain rfl : id = s.nextThreadId := hid
    intro hmem
    exact absurd (hhanded.below _ hmem) (lt_irrefl _)

theorem uniqueIds_of_replay_twoIds :
    ∃ created s, createThreads [some 3, some 2, none] Executor.start.state = some (created, s) ∧ UniqueIds created s := by
  have hrecorded : RecordedIds [3, 2] := by
    refine ⟨by decide, [none, none], ?_⟩
    have hrun : (createThreads [none, none] Executor.start.state).map (·.1) = some [2, 3] := by decide +kernel
    obtain ⟨⟨created, s⟩, hs, rfl⟩ := Option.map_eq_some_iff.mp hrun
    exact ⟨_, s, hs, by decide⟩
  have hrun : (createThreads [some 3, some 2, none] Executor.start.state).isSome := by decide +kernel
  obtain ⟨⟨created, s⟩, hs⟩ := Option.isSome_iff_exists.mp hrun
  exact ⟨created, s, hs, (uniqueIds_of_replay [3, 2] 1 _ hrecorded (List.prefix_refl _)).1 created s hs⟩

end ExecutionState
end CapTaint
