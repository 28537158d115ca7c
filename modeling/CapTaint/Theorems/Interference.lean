import CapTaint.ThreadScheduler
import CapTaint.Theorems.Threads

/-! # Forked states and what they share

A step depends on the threads of its own state and on a few entries of the managers. Two forked states do not disturb each
other as long as no step comes to an entry that a step of the other state has changed. -/

namespace CapTaint
open Std ExecutionState

/-! ### The shared entries -/

/-- An entry that the forked states share. -/
inductive Resource
  | mutex (address : Nat)
  | blocked (threadId : Nat)
  | cond (address : Nat)
  | barrier (address : Nat)
  | joins (threadId : Nat)
  | nextThreadId
  deriving DecidableEq

namespace Executor

/-- The two executors have the same entry. -/
def SameAt (e₁ e₂ : Executor) : Resource → Prop
  | .mutex address => e₂.mutexManager.mutexPool[address]? = e₁.mutexManager.mutexPool[address]?
  | .blocked threadId => e₂.mutexManager.blockedThreadPool[threadId]? = e₁.mutexManager.blockedThreadPool[threadId]?
  | .cond address => e₂.condManager.condPool[address]? = e₁.condManager.condPool[address]?
  | .barrier address => e₂.barrierManager.barrierPool[address]? = e₁.barrierManager.barrierPool[address]?
  | .joins threadId => e₂.joinRecord.getD threadId [] = e₁.joinRecord.getD threadId []
  | .nextThreadId => e₂.state.nextThreadId = e₁.state.nextThreadId

/-- The two executors have the same threads and the same queue. -/
structure Beside (e₁ e₂ : Executor) : Prop where
  threads : e₂.state.threadList = e₁.state.threadList
  queue : e₂.state.queue = e₁.state.queue

/-- Both steps fail, or both succeed alike and keep every entry the same that was. -/
def Matches (e₁ e₂ : Executor) (x y : Option (Outcome × Executor)) : Prop :=
  (x = none ∧ y = none) ∨ ∃ o e₁' e₂', x = some (o, e₁') ∧ y = some (o, e₂') ∧ Beside e₁' e₂' ∧
    ∀ r, SameAt e₁ e₂ r → SameAt e₁' e₂' r

variable {e₁ e₂ : Executor}

theorem SameAt.refl (e : Executor) (r : Resource) : SameAt e e r := by cases r <;> rfl

theorem Beside.state_eq (h : Beside e₁ e₂) : e₂.state = { e₁.state with nextThreadId := e₂.state.nextThreadId } := by
  obtain ⟨⟨threadList, queue, nextThreadId⟩, _, _, _, _⟩ := e₂
  obtain ⟨rfl, rfl⟩ := h
  rfl

theorem Beside.stateOf (h : Beside e₁ e₂) (q : Nat) : e₂.state.stateOf q = e₁.state.stateOf q := by
  rw [h.state_eq]
  rfl

end Executor

/-! ### What a step comes to -/

/-- The waiters that a signal, or a broadcast, releases. -/
def Executor.releasedBy (e : Executor) (inst : Inst) (choice : Choice) : List WaitParam :=
  match inst with
  | .call (.pthreadCondSignal cond) => ((e.condManager.condPool.getD cond.address [])[choice.waiter]?).toList
  | .call (.pthreadCondBroadcast cond) => e.condManager.condPool.getD cond.address []
  | _ => []

/-- The entries that decide what an instruction does. -/
def Executor.instAccessed (e : Executor) (threadId : Nat) (inst : Inst) (choice : Choice) : List Resource :=
  match inst with
  | .call (.pthreadCreate _) => [.nextThreadId]
  | .call (.pthreadCondWait cond mutex) => [.cond cond.address, .mutex mutex.address]
  | .call (.pthreadCondSignal cond) | .call (.pthreadCondBroadcast cond) =>
    .cond cond.address :: (e.releasedBy inst choice).map fun wp => .mutex wp.mutex
  | .call (.pthreadMutexLock mutex) | .call (.pthreadMutexUnlock mutex) => [.mutex mutex.address]
  | .call (.pthreadBarrierInit barrier _) | .call (.pthreadBarrierWait barrier) => [.barrier barrier]
  | .ret true => [.joins threadId]
  | _ => []

/-- The entries that decide, and change with, the turn of a thread: those of the mutex that it is blocked on. -/
def Executor.turnAccessed (e : Executor) (threadId : Nat) : List Resource :=
  if e.state.stateOf threadId = some .mutexBlocked then
    .blocked threadId :: (e.mutexManager.blockedThreadPool[threadId]?.toList.map .mutex)
  else []

def Executor.accessed (e : Executor) : Action → List Resource
  | .instruction threadId inst choice => e.turnAccessed threadId ++ e.instAccessed threadId inst choice
  | .createSpecialElement (.mutex address) => [.mutex address]
  | .createSpecialElement (.cond address) => [.cond address]
  | .createSpecialElement (.barrier address) => [.barrier address]
  | .reSchedule _ => []

/-- The mutex is locked. -/
def MutexManager.isLocked (m : MutexManager) (mutex : Nat) : Bool := (m.mutexPool.getD mutex {}).isLocked

/-- The entries that an instruction changes. -/
def Executor.instUpdated (e : Executor) (threadId : Nat) (inst : Inst) (choice : Choice) : List Resource :=
  match inst with
  | .call (.pthreadCreate _) => [.nextThreadId]
  | .call (.pthreadJoin joined) => if e.state.stateOf joined = some .terminated then [] else [.joins joined]
  | .call (.pthreadCondWait cond mutex) => [.cond cond.address, .mutex mutex.address]
  | .call (.pthreadCondSignal cond) | .call (.pthreadCondBroadcast cond) =>
    match e.releasedBy inst choice with
    | [] => []
    | released => .cond cond.address :: released.map fun wp => .blocked wp.threadId
  | .call (.pthreadMutexLock mutex) =>
    if e.mutexManager.isLocked mutex.address then [.blocked threadId]
    else .mutex mutex.address :: if threadId ∈ e.mutexManager.blockedThreadPool then [.blocked threadId] else []
  | .call (.pthreadMutexUnlock mutex) => if e.mutexManager.isLocked mutex.address then [.mutex mutex.address] else []
  | .call (.pthreadBarrierInit barrier _) | .call (.pthreadBarrierWait barrier) => [.barrier barrier]
  | _ => []

def Executor.updated (e : Executor) : Action → List Resource
  | .instruction threadId inst choice => e.turnAccessed threadId ++ e.instUpdated threadId inst choice
  | action => e.accessed action

/-! ### Entries of maps -/

section Maps
variable {α : Type} {t₁ t₂ : TreeMap Nat α} {k : Nat}

theorem insert_same (h : t₂[k]? = t₁[k]?) (key : Nat) (value : α) : (t₂.insert key value)[k]? = (t₁.insert key value)[k]? := by
  rw [TreeMap.getElem?_insert, TreeMap.getElem?_insert, h]

theorem erase_same (h : t₂[k]? = t₁[k]?) (key : Nat) : (t₂.erase key)[k]? = (t₁.erase key)[k]? := by
  rw [TreeMap.getElem?_erase, TreeMap.getElem?_erase, h]

theorem insertIfNew_same (h : t₂[k]? = t₁[k]?) (key : Nat) (value : α) :
    (t₂.insertIfNew key value)[k]? = (t₁.insertIfNew key value)[k]? := by
  have hmem : k ∈ t₂ ↔ k ∈ t₁ := by rw [TreeMap.mem_iff_isSome_getElem?, TreeMap.mem_iff_isSome_getElem?, h]
  rw [TreeMap.getElem?_insertIfNew, TreeMap.getElem?_insertIfNew]
  by_cases hk : key = k
  · subst hk
    simp [hmem, h]
  · simp [hk, h]

theorem insert_other {key : Nat} {value : α} (h : k ≠ key) : (t₁.insert key value)[k]? = t₁[k]? := by
  rw [TreeMap.getElem?_insert]
  simp [Ne.symm h]

theorem erase_other {key : Nat} (h : k ≠ key) : (t₁.erase key)[k]? = t₁[k]? := by
  rw [TreeMap.getElem?_erase]
  simp [Ne.symm h]

theorem insertIfNew_other {key : Nat} {value : α} (h : k ≠ key) : (t₁.insertIfNew key value)[k]? = t₁[k]? := by
  rw [TreeMap.getElem?_insertIfNew]
  simp [Ne.symm h]

end Maps

/-! ### Steps of the threads -/

namespace ExecutionState

/-- The same threads under another counter. -/
def withNext (s : ExecutionState) (n : Nat) : ExecutionState := { s with nextThreadId := n }

theorem wake_withNext (s : ExecutionState) (n p q : Nat) (threadState : ThreadState) :
    (s.withNext n).wake p q threadState = (s.wake p q threadState).map (·.withNext n) := by
  have hp : (s.withNext n).findThreadById p = s.findThreadById p := rfl
  have hq : (s.withNext n).findThreadById q = s.findThreadById q := rfl
  unfold wake
  rw [hp, hq]
  cases s.findThreadById p with
  | none => rfl
  | some thread =>
    cases s.findThreadById q with
    | none => rfl
    | some other => rfl

theorem tick_withNext (s : ExecutionState) (n p : Nat) : (s.withNext n).tick p = (s.tick p).map (·.withNext n) := by
  unfold tick
  by_cases h : p < 5 ∧ p ∈ s.threadList
  · rw [dif_pos h, dif_pos (show p < 5 ∧ p ∈ (s.withNext n).threadList from h)]
    rfl
  · rw [dif_neg h, dif_neg (show ¬(p < 5 ∧ p ∈ (s.withNext n).threadList) from h)]
    rfl

theorem wakeWaiter_withNext (s : ExecutionState) (n p q : Nat) :
    wakeWaiter p (s.withNext n) q = (wakeWaiter p s q).map (·.withNext n) := by
  unfold wakeWaiter
  rw [wake_withNext]
  cases s.wake p q .mutexBlocked with
  | none => rfl
  | some s' => exact tick_withNext s' n p

theorem foldlM_withNext {f : ExecutionState → Nat → Option ExecutionState} {n : Nat}
    (hf : ∀ s q, f (s.withNext n) q = (f s q).map (·.withNext n)) (ids : List Nat) (s : ExecutionState) :
    ids.foldlM f (s.withNext n) = (ids.foldlM f s).map (·.withNext n) := by
  induction ids generalizing s with
  | nil => rfl
  | cons id ids ih =>
    rw [List.foldlM_cons, List.foldlM_cons, hf]
    cases f s id with
    | none => rfl
    | some s' => exact ih s'

/-- What goes with any counter does not change it. -/
theorem foldlM_nextThreadId {p : Nat} {f : Nat → ExecutionState → Nat → Option ExecutionState}
    (hf : ∀ s n p q, f p (s.withNext n) q = (f p s q).map (·.withNext n)) {ids : List Nat} {s s' : ExecutionState}
    (h : ids.foldlM (f p) s = some s') : s'.nextThreadId = s.nextThreadId := by
  have hself := foldlM_withNext (fun s' q => hf s' s.nextThreadId p q) ids s
  rw [show s.withNext s.nextThreadId = s from rfl, h, Option.map_some, Option.some.injEq] at hself
  rw [hself]
  rfl

theorem foldl_swapIn_withNext (ids : List Nat) (s : ExecutionState) (n : Nat) (threadState : ThreadState) :
    ids.foldl (fun s id => s.swapInThread id threadState) (s.withNext n) =
      (ids.foldl (fun s id => s.swapInThread id threadState) s).withNext n := by
  induction ids generalizing s with
  | nil => rfl
  | cons id ids ih => exact ih (s.swapInThread id threadState)

end ExecutionState

/-! ### An instruction depends on the entries that it looks up -/

namespace MutexManager

/-- The managers have the same entries wherever the earlier ones had. -/
structure Keeps (m₁ m₂ m₁' m₂' : MutexManager) : Prop where
  mutex : ∀ k : Nat, m₂.mutexPool[k]? = m₁.mutexPool[k]? → m₂'.mutexPool[k]? = m₁'.mutexPool[k]?
  blocked : ∀ k : Nat, m₂.blockedThreadPool[k]? = m₁.blockedThreadPool[k]? →
    m₂'.blockedThreadPool[k]? = m₁'.blockedThreadPool[k]?

variable {m₁ m₂ : MutexManager} {mutex : Nat}

theorem lock_local (h : m₂.mutexPool[mutex]? = m₁.mutexPool[mutex]?) (t : Nat) :
    (m₁.lock mutex t = none ∧ m₂.lock mutex t = none) ∨ ∃ isBlocked m₁' m₂', m₁.lock mutex t = some (isBlocked, m₁') ∧
      m₂.lock mutex t = some (isBlocked, m₂') ∧ Keeps m₁ m₂ m₁' m₂' := by
  unfold lock
  rw [h]
  cases m₁.mutexPool[mutex]? with
  | none => exact .inl ⟨rfl, rfl⟩
  | some state =>
    refine .inr ?_
    cases hlocked : state.isLocked with
    | true =>
      simp only [hlocked, if_true]
      exact ⟨true, _, _, rfl, rfl, fun _ hk => hk, fun _ hk => insertIfNew_same hk _ _⟩
    | false =>
      simp only [hlocked, Bool.false_eq_true, if_false]
      exact ⟨false, _, _, rfl, rfl, fun _ hk => insert_same hk _ _, fun _ hk => erase_same hk _⟩

theorem unlock_local (h : m₂.mutexPool[mutex]? = m₁.mutexPool[mutex]?) :
    (m₁.unlock mutex = none ∧ m₂.unlock mutex = none) ∨ ∃ m₁' m₂', m₁.unlock mutex = some m₁' ∧
      m₂.unlock mutex = some m₂' ∧ Keeps m₁ m₂ m₁' m₂' := by
  unfold unlock
  rw [h]
  cases m₁.mutexPool[mutex]? with
  | none => exact .inl ⟨rfl, rfl⟩
  | some state =>
    refine .inr ?_
    cases hlocked : state.isLocked with
    | true =>
      simp only [hlocked, if_true]
      exact ⟨_, _, rfl, rfl, fun _ hk => insert_same hk _ _, fun _ hk => hk⟩
    | false =>
      simp only [hlocked, Bool.false_eq_true, if_false]
      exact ⟨_, _, rfl, rfl, fun _ hk => hk, fun _ hk => hk⟩

theorem addBlockedThread_local (h : m₂.mutexPool[mutex]? = m₁.mutexPool[mutex]?) (t : Nat) :
    (m₁.addBlockedThread t mutex = none ∧ m₂.addBlockedThread t mutex = none) ∨
      ∃ m₁' m₂', m₁.addBlockedThread t mutex = some m₁' ∧ m₂.addBlockedThread t mutex = some m₂' ∧
        Keeps m₁ m₂ m₁' m₂' := by
  have hmem : mutex ∈ m₂.mutexPool ↔ mutex ∈ m₁.mutexPool := by
    rw [TreeMap.mem_iff_isSome_getElem?, TreeMap.mem_iff_isSome_getElem?, h]
  unfold addBlockedThread
  by_cases hin : mutex ∈ m₁.mutexPool
  · rw [if_pos hin, if_pos (hmem.mpr hin)]
    exact .inr ⟨_, _, rfl, rfl, fun _ hk => hk, fun _ hk => insertIfNew_same hk _ _⟩
  · rw [if_neg hin, if_neg fun hout => hin (hmem.mp hout)]
    exact .inl ⟨rfl, rfl⟩

theorem addBlockedThreads_local {released : List WaitParam}
    (h : ∀ wp ∈ released, m₂.mutexPool[wp.mutex]? = m₁.mutexPool[wp.mutex]?) :
    (released.foldlM (fun m wp => m.addBlockedThread wp.threadId wp.mutex) m₁ = none ∧
        released.foldlM (fun m wp => m.addBlockedThread wp.threadId wp.mutex) m₂ = none) ∨
      ∃ m₁' m₂', released.foldlM (fun m wp => m.addBlockedThread wp.threadId wp.mutex) m₁ = some m₁' ∧
        released.foldlM (fun m wp => m.addBlockedThread wp.threadId wp.mutex) m₂ = some m₂' ∧ Keeps m₁ m₂ m₁' m₂' := by
  induction released generalizing m₁ m₂ with
  | nil => exact .inr ⟨m₁, m₂, rfl, rfl, fun _ hk => hk, fun _ hk => hk⟩
  | cons wp released ih =>
    rw [List.foldlM_cons, List.foldlM_cons]
    rcases addBlockedThread_local (h wp List.mem_cons_self) wp.threadId with ⟨hone, htwo⟩ | ⟨m₁', m₂', hone, htwo, hkeeps⟩
    · rw [hone, htwo]
      exact .inl ⟨rfl, rfl⟩
    · rw [hone, htwo]
      rcases ih fun other hother => hkeeps.mutex _ (h other (List.mem_cons_of_mem _ hother)) with hnone |
        ⟨m₁'', m₂'', hone', htwo', hkeeps'⟩
      · exact .inl hnone
      · exact .inr ⟨m₁'', m₂'', hone', htwo', fun k hk => hkeeps'.mutex k (hkeeps.mutex k hk),
          fun k hk => hkeeps'.blocked k (hkeeps.blocked k hk)⟩

end MutexManager

namespace Executor
variable {e₁ e₂ : Executor} {t : Nat}

theorem Matches.fail (e₁ e₂ : Executor) : Matches e₁ e₂ none none := .inl ⟨rfl, rfl⟩

theorem Matches.bind {x y : Option (Outcome × Executor)} (h : Matches e₁ e₂ x y)
    {f : Outcome × Executor → Option (Outcome × Executor)}
    (hf : ∀ o e₁' e₂', x = some (o, e₁') → Beside e₁' e₂' → (∀ r, SameAt e₁ e₂ r → SameAt e₁' e₂' r) →
      Matches e₁' e₂' (f (o, e₁')) (f (o, e₂'))) : Matches e₁ e₂ (x.bind f) (y.bind f) := by
  rcases h with ⟨rfl, rfl⟩ | ⟨o, e₁', e₂', rfl, rfl, hbeside, hkeeps⟩
  · exact .inl ⟨rfl, rfl⟩
  · rcases hf o e₁' e₂' rfl hbeside hkeeps with ⟨hone, htwo⟩ | ⟨o', e₁'', e₂'', hone, htwo, hbeside', hkeeps'⟩
    · exact .inl ⟨hone, htwo⟩
    · exact .inr ⟨o', e₁'', e₂'', hone, htwo, hbeside', fun r hr => hkeeps' r (hkeeps r hr)⟩

theorem Beside.withNext (h : Beside e₁ e₂) : e₂.state = e₁.state.withNext e₂.state.nextThreadId := h.state_eq

/-- The running thread leaves the queue of both. -/
theorem Beside.swapOut (h : Beside e₁ e₂) (t : Nat) (threadState : ThreadState) :
    (e₂.state.swapOutThread t threadState).threadList = (e₁.state.swapOutThread t threadState).threadList ∧
      (e₂.state.swapOutThread t threadState).queue = (e₁.state.swapOutThread t threadState).queue := by
  rw [h.withNext]
  exact ⟨rfl, rfl⟩

theorem create_local (h : Beside e₁ e₂) (hsame : SameAt e₁ e₂ .nextThreadId) (replayed : Option Nat) :
    Matches e₁ e₂ (e₁.executePThreadCreate t replayed) (e₂.executePThreadCreate t replayed) := by
  have hstate : e₂.state = e₁.state := by
    rw [h.state_eq, show e₂.state.nextThreadId = e₁.state.nextThreadId from hsame]
  unfold executePThreadCreate
  rw [hstate]
  cases e₁.state.findThreadById t with
  | none => exact .fail _ _
  | some thread =>
    cases e₁.state.createThread replayed with
    | none => exact .fail _ _
    | some created =>
      cases htick : (created.2.modify created.1 fun new => { new with vectorClock := thread.vectorClock }).tick created.1 with
      | none =>
        simp only [Option.bind_eq_bind, Option.bind_some, htick, Option.bind_none]
        exact .fail _ _
      | some s =>
        simp only [Option.bind_eq_bind, Option.bind_some, htick]
        refine .inr ⟨_, _, _, rfl, rfl, ⟨rfl, rfl⟩, fun r hr => ?_⟩
        cases r with
        | nextThreadId => rfl
        | _ => exact hr

theorem join_local (h : Beside e₁ e₂) (joined : Nat) :
    Matches e₁ e₂ (e₁.executePThreadJoin t joined) (e₂.executePThreadJoin t joined) := by
  have hfind : e₂.state.findThreadById joined = e₁.state.findThreadById joined := by
    rw [h.withNext]
    rfl
  unfold executePThreadJoin
  rw [hfind]
  cases e₁.state.findThreadById joined with
  | none => exact .fail _ _
  | some thread =>
    simp only [Option.bind_eq_bind, Option.bind_some]
    split
    · exact .inr ⟨_, _, _, rfl, rfl, h, fun r hr => hr⟩
    · obtain ⟨hthreads, hqueue⟩ := h.swapOut t .joinBlocked
      refine .inr ⟨_, _, _, rfl, rfl, ⟨hthreads, hqueue⟩, fun r hr => ?_⟩
      · cases r with
        | joins u =>
          show (e₂.joinRecord.insert joined (e₂.joinRecord.getD joined [] ++ [t])).getD u [] =
            (e₁.joinRecord.insert joined (e₁.joinRecord.getD joined [] ++ [t])).getD u []
          rw [TreeMap.getD_insert, TreeMap.getD_insert]
          by_cases hu : joined = u
          · subst hu
            rw [show e₂.joinRecord.getD joined [] = e₁.joinRecord.getD joined [] from hr]
          · simp only [Std.compare_eq_iff_eq, hu, if_false]
            exact hr
        | _ => exact hr

theorem condWait_local (h : Beside e₁ e₂) {cond mutex : Nat} (hcond : SameAt e₁ e₂ (.cond cond))
    (hmutex : SameAt e₁ e₂ (.mutex mutex)) :
    Matches e₁ e₂ (e₁.executePThreadCondWait t cond mutex) (e₂.executePThreadCondWait t cond mutex) := by
  unfold executePThreadCondWait CondManager.wait
  rw [show e₂.mutexManager.mutexPool[mutex]? = e₁.mutexManager.mutexPool[mutex]? from hmutex,
    show e₂.condManager.condPool[cond]? = e₁.condManager.condPool[cond]? from hcond]
  cases e₁.mutexManager.mutexPool[mutex]? with
  | none => exact .fail _ _
  | some state =>
    cases e₁.condManager.condPool[cond]? with
    | none => exact .fail _ _
    | some waitingList =>
      simp only [Option.bind_eq_bind, Option.bind_some]
      split
      swap
      · exact .fail _ _
      rcases MutexManager.unlock_local hmutex with ⟨hone, htwo⟩ | ⟨m₁', m₂', hone, htwo, hkeeps⟩
      · rw [hone, htwo]
        exact .fail _ _
      rw [hone, htwo]
      obtain ⟨hthreads, hqueue⟩ := h.swapOut t .condBlocked
      refine .inr ⟨_, _, _, rfl, rfl, ⟨hthreads, hqueue⟩, fun r hr => ?_⟩
      · cases r with
        | mutex k => exact hkeeps.mutex k hr
        | blocked k => exact hkeeps.blocked k hr
        | cond k => exact insert_same hr _ _
        | _ => exact hr

/-- The waiters `released` leave a condition, and `rest` stay: what a signal and a broadcast have in common. -/
def wakeAll (e : Executor) (t cond : Nat) (released rest : List WaitParam) : Option (Outcome × Executor) := do
  let m ← released.foldlM (fun m wp => MutexManager.addBlockedThread m wp.threadId wp.mutex) e.mutexManager
  let state ← (released.map (·.threadId)).foldlM (wakeWaiter t) e.state
  some ({ released := released.map (·.threadId) },
    { e with condManager := ⟨e.condManager.condPool.insert cond rest⟩, mutexManager := m, state := state })

theorem signal_eq (e : Executor) (t cond waiter : Nat) : e.executePThreadCondSignal t cond waiter =
    match e.condManager.condPool[cond]? with
    | none => none
    | some [] => some ({}, e)
    | some (first :: others) =>
      ((first :: others)[waiter]?).bind fun wp => e.wakeAll t cond [wp] ((first :: others).eraseIdx waiter) := by
  unfold executePThreadCondSignal CondManager.signal
  cases hcond : e.condManager.condPool[cond]? with
  | none => rfl
  | some waitingList =>
    cases waitingList with
    | nil => simp
    | cons first others =>
      simp only [Option.bind_eq_bind, Option.bind_some, List.cons_ne_nil, if_false]
      cases (first :: others)[waiter]? with
      | none => rfl
      | some wp =>
        unfold wakeAll
        simp only [Option.bind_some, List.foldlM_cons, List.foldlM_nil]
        cases e.mutexManager.addBlockedThread wp.threadId wp.mutex with
        | none => rfl
        | some m => rfl

theorem broadcast_eq (e : Executor) (t cond : Nat) : e.executePThreadCondBroadcast t cond =
    e.condManager.condPool[cond]?.bind fun released => e.wakeAll t cond released [] := by
  unfold executePThreadCondBroadcast CondManager.broadcast wakeAll
  cases e.condManager.condPool[cond]? with
  | none => rfl
  | some released =>
    simp only [Option.bind_eq_bind, Option.bind_some]
    cases released.foldlM (fun m wp => MutexManager.addBlockedThread m wp.threadId wp.mutex) e.mutexManager with
    | none => rfl
    | some m => rfl

/-- The same waiters are released, and their mutexes are known to both. -/
theorem wakeAll_local (h : Beside e₁ e₂) (t cond : Nat) {released : List WaitParam} (rest : List WaitParam)
    (hmutex : ∀ wp ∈ released, SameAt e₁ e₂ (.mutex wp.mutex)) :
    Matches e₁ e₂ (e₁.wakeAll t cond released rest) (e₂.wakeAll t cond released rest) := by
  unfold wakeAll
  rcases MutexManager.addBlockedThreads_local hmutex with ⟨hone, htwo⟩ | ⟨m₁', m₂', hone, htwo, hkeeps⟩
  · rw [hone, htwo]
    exact .fail _ _
  have hwake := foldlM_withNext (fun s q => wakeWaiter_withNext s e₂.state.nextThreadId t q) (released.map (·.threadId)) e₁.state
  rw [← h.withNext] at hwake
  simp only [hone, htwo, Option.bind_eq_bind, Option.bind_some, hwake]
  cases hwoken : (released.map (·.threadId)).foldlM (wakeWaiter t) e₁.state with
  | none => exact .fail _ _
  | some s =>
    refine .inr ⟨_, _, _, rfl, rfl, ⟨rfl, rfl⟩, fun r hr => ?_⟩
    cases r with
    | mutex k => exact hkeeps.mutex k hr
    | blocked k => exact hkeeps.blocked k hr
    | cond k => exact insert_same hr _ _
    | nextThreadId => exact hr.trans (foldlM_nextThreadId wakeWaiter_withNext hwoken).symm
    | _ => exact hr

theorem signal_local (h : Beside e₁ e₂) {cond waiter : Nat} (hcond : SameAt e₁ e₂ (.cond cond))
    (hmutex : ∀ wp ∈ ((e₁.condManager.condPool.getD cond [])[waiter]?).toList, SameAt e₁ e₂ (.mutex wp.mutex)) :
    Matches e₁ e₂ (e₁.executePThreadCondSignal t cond waiter) (e₂.executePThreadCondSignal t cond waiter) := by
  rw [signal_eq, signal_eq, show e₂.condManager.condPool[cond]? = e₁.condManager.condPool[cond]? from hcond]
  cases hwaiting : e₁.condManager.condPool[cond]? with
  | none => exact .fail _ _
  | some waitingList =>
    rw [TreeMap.getD_eq_getD_getElem?, hwaiting, Option.getD_some] at hmutex
    cases waitingList with
    | nil => exact .inr ⟨_, _, _, rfl, rfl, h, fun r hr => hr⟩
    | cons first others =>
      dsimp only
      cases hwp : (first :: others)[waiter]? with
      | none => exact .fail _ _
      | some wp =>
        rw [hwp] at hmutex
        refine wakeAll_local h t cond _ fun other hother => hmutex other ?_
        rw [List.mem_singleton.mp hother]
        exact List.mem_singleton_self _

theorem broadcast_local (h : Beside e₁ e₂) {cond : Nat} (hcond : SameAt e₁ e₂ (.cond cond))
    (hmutex : ∀ wp ∈ e₁.condManager.condPool.getD cond [], SameAt e₁ e₂ (.mutex wp.mutex)) :
    Matches e₁ e₂ (e₁.executePThreadCondBroadcast t cond) (e₂.executePThreadCondBroadcast t cond) := by
  rw [broadcast_eq, broadcast_eq, show e₂.condManager.condPool[cond]? = e₁.condManager.condPool[cond]? from hcond]
  cases hwaiting : e₁.condManager.condPool[cond]? with
  | none => exact .fail _ _
  | some released =>
    rw [TreeMap.getD_eq_getD_getElem?, hwaiting, Option.getD_some] at hmutex
    exact wakeAll_local h t cond [] hmutex

theorem mutexLock_local (h : Beside e₁ e₂) {mutex : Nat} (hmutex : SameAt e₁ e₂ (.mutex mutex)) :
    Matches e₁ e₂ (e₁.executePThreadMutexLock t mutex) (e₂.executePThreadMutexLock t mutex) := by
  unfold executePThreadMutexLock
  rcases MutexManager.lock_local hmutex t with ⟨hone, htwo⟩ | ⟨isBlocked, m₁', m₂', hone, htwo, hkeeps⟩
  · rw [hone, htwo]
    exact .fail _ _
  rw [hone, htwo, h.withNext]
  refine .inr ⟨_, _, _, rfl, rfl, ?_, fun r hr => ?_⟩
  · cases isBlocked with
    | true => exact ⟨rfl, rfl⟩
    | false => exact ⟨rfl, rfl⟩
  · cases r with
    | mutex k => exact hkeeps.mutex k hr
    | blocked k => exact hkeeps.blocked k hr
    | nextThreadId =>
      cases isBlocked with
      | true => exact hr
      | false => exact hr
    | _ => exact hr

theorem mutexUnlock_local (h : Beside e₁ e₂) {mutex : Nat} (hmutex : SameAt e₁ e₂ (.mutex mutex)) :
    Matches e₁ e₂ (e₁.executePThreadMutexUnlock mutex) (e₂.executePThreadMutexUnlock mutex) := by
  unfold executePThreadMutexUnlock
  rcases MutexManager.unlock_local hmutex with ⟨hone, htwo⟩ | ⟨m₁', m₂', hone, htwo, hkeeps⟩
  · rw [hone, htwo]
    exact .fail _ _
  rw [hone, htwo]
  refine .inr ⟨_, _, _, rfl, rfl, ⟨h.threads, h.queue⟩, fun r hr => ?_⟩
  cases r with
  | mutex k => exact hkeeps.mutex k hr
  | blocked k => exact hkeeps.blocked k hr
  | _ => exact hr

theorem barrierInit_local (h : Beside e₁ e₂) {barrier count : Nat} (hbarrier : SameAt e₁ e₂ (.barrier barrier)) :
    Matches e₁ e₂ (e₁.executePThreadBarrierInit barrier count) (e₂.executePThreadBarrierInit barrier count) := by
  unfold executePThreadBarrierInit BarrierManager.init
  rw [show e₂.barrierManager.barrierPool[barrier]? = e₁.barrierManager.barrierPool[barrier]? from hbarrier]
  cases e₁.barrierManager.barrierPool[barrier]? with
  | none => exact .fail _ _
  | some state =>
    refine .inr ⟨_, _, _, rfl, rfl, ⟨h.threads, h.queue⟩, fun r hr => ?_⟩
    cases r with
    | barrier k => exact insert_same hr _ _
    | _ => exact hr

theorem barrierWait_local (h : Beside e₁ e₂) {barrier : Nat} (hbarrier : SameAt e₁ e₂ (.barrier barrier)) :
    Matches e₁ e₂ (some (e₁.executePThreadBarrierWait t barrier)) (some (e₂.executePThreadBarrierWait t barrier)) := by
  unfold executePThreadBarrierWait BarrierManager.wait
  rw [show e₂.barrierManager.barrierPool[barrier]? = e₁.barrierManager.barrierPool[barrier]? from hbarrier]
  cases e₁.barrierManager.barrierPool[barrier]? with
  | none => exact .inr ⟨_, _, _, rfl, rfl, h, fun r hr => hr⟩
  | some state =>
    by_cases hfull : state.current + 1 = state.count
    · simp only [hfull, if_true]
      have hnext := foldl_swapIn_withNext ((state.blockedList ++ [t]).filter (· ≠ t)) e₁.state e₁.state.nextThreadId .runnable
      rw [show e₁.state.withNext e₁.state.nextThreadId = e₁.state from rfl] at hnext
      have hwoken := foldl_swapIn_withNext ((state.blockedList ++ [t]).filter (· ≠ t)) e₁.state e₂.state.nextThreadId .runnable
      rw [← h.withNext] at hwoken
      have hthreads := congrArg ExecutionState.threadList hwoken
      have hqueue := congrArg ExecutionState.queue hwoken
      refine .inr ⟨_, _, _, rfl, rfl, ⟨hthreads, hqueue⟩, fun r hr => ?_⟩
      cases r with
      | barrier k => exact insert_same hr _ _
      | nextThreadId =>
        have hcounter := congrArg ExecutionState.nextThreadId hwoken
        have hcounter' := congrArg ExecutionState.nextThreadId hnext
        exact hcounter.trans (Eq.trans hr hcounter'.symm)
      | _ => exact hr
    · simp only [hfull, if_false]
      obtain ⟨hthreads, hqueue⟩ := h.swapOut t .barrierBlocked
      refine .inr ⟨_, _, _, rfl, rfl, ⟨hthreads, hqueue⟩, fun r hr => ?_⟩
      cases r with
      | barrier k => exact insert_same hr _ _
      | _ => exact hr

theorem exit_local (h : Beside e₁ e₂) (hjoins : SameAt e₁ e₂ (.joins t)) :
    Matches e₁ e₂ (e₁.executeExit t) (e₂.executeExit t) := by
  unfold executeExit
  have hwake := foldlM_withNext (f := fun s q => s.wake t q .runnable)
    (fun s q => wake_withNext s e₂.state.nextThreadId t q .runnable) (e₁.joinRecord.getD t []) e₁.state
  rw [← h.withNext] at hwake
  simp only [show e₂.joinRecord.getD t [] = e₁.joinRecord.getD t [] from hjoins, hwake]
  cases hwoken : (e₁.joinRecord.getD t []).foldlM (fun state id => state.wake t id .runnable) e₁.state with
  | none => exact .fail _ _
  | some s =>
    refine .inr ⟨_, _, _, rfl, rfl, ⟨rfl, rfl⟩, fun r hr => ?_⟩
    cases r with
    | nextThreadId =>
      have hsame := foldlM_nextThreadId (f := fun p s q => s.wake p q .runnable)
        (fun s n p q => wake_withNext s n p q .runnable) hwoken
      exact hr.trans hsame.symm
    | _ => exact hr

theorem executeInstruction_local (h : Beside e₁ e₂) {inst : Inst} {choice : Choice}
    (hsame : ∀ r ∈ e₁.instAccessed t inst choice, SameAt e₁ e₂ r) :
    Matches e₁ e₂ (e₁.executeInstruction t inst choice) (e₂.executeInstruction t inst choice) := by
  unfold executeInstruction
  unfold instAccessed at hsame
  split
  next => exact create_local h (hsame _ List.mem_cons_self) _
  next => exact join_local h _
  next => exact condWait_local h (hsame _ List.mem_cons_self) (hsame _ (List.mem_cons_of_mem _ List.mem_cons_self))
  next =>
    refine signal_local h (hsame _ List.mem_cons_self) fun wp hwp => hsame _ (List.mem_cons_of_mem _ ?_)
    exact List.mem_map.mpr ⟨wp, hwp, rfl⟩
  next =>
    refine broadcast_local h (hsame _ List.mem_cons_self) fun wp hwp => hsame _ (List.mem_cons_of_mem _ ?_)
    exact List.mem_map.mpr ⟨wp, hwp, rfl⟩
  next => exact mutexLock_local h (hsame _ List.mem_cons_self)
  next => exact mutexUnlock_local h (hsame _ List.mem_cons_self)
  next => exact barrierInit_local h (hsame _ List.mem_cons_self)
  next => exact barrierWait_local h (hsame _ List.mem_cons_self)
  next => exact exit_local h (hsame _ List.mem_cons_self)
  next => exact .inr ⟨_, _, _, rfl, rfl, h, fun r hr => hr⟩

theorem schedule_local (h : Beside e₁ e₂) (hsame : ∀ r ∈ e₁.turnAccessed t, SameAt e₁ e₂ r) :
    Matches e₁ e₂ ((e₁.schedule t).map fun e => ({}, e)) ((e₂.schedule t).map fun e => ({}, e)) := by
  unfold schedule
  unfold turnAccessed at hsame
  rw [h.stateOf]
  cases hstate : e₁.state.stateOf t with
  | none => exact .fail _ _
  | some st =>
    cases st with
    | runnable => exact .inr ⟨_, _, _, rfl, rfl, h, fun r hr => hr⟩
    | mutexBlocked =>
      rw [hstate, if_pos rfl] at hsame
      have hblocked : e₂.mutexManager.blockedThreadPool[t]? = e₁.mutexManager.blockedThreadPool[t]? :=
        hsame _ List.mem_cons_self
      dsimp only
      unfold MutexManager.tryToLockForBlockedThread
      rw [hblocked]
      cases hpool : e₁.mutexManager.blockedThreadPool[t]? with
      | none => exact .fail _ _
      | some mutex =>
        have hmutex : SameAt e₁ e₂ (.mutex mutex) := by
          refine hsame _ (List.mem_cons_of_mem _ ?_)
          rw [hpool]
          exact List.mem_singleton_self _
        dsimp only
        rcases MutexManager.lock_local hmutex t with ⟨hone, htwo⟩ | ⟨isBlocked, m₁', m₂', hone, htwo, hkeeps⟩
        · rw [hone, htwo]
          exact .fail _ _
        rw [hone, htwo]
        cases isBlocked with
        | true => exact .fail _ _
        | false =>
          dsimp only
          rw [h.withNext]
          refine .inr ⟨_, _, _, rfl, rfl, ⟨rfl, rfl⟩, fun r hr => ?_⟩
          cases r with
          | mutex k => exact hkeeps.mutex k hr
          | blocked k => exact hkeeps.blocked k hr
          | _ => exact hr
    | _ => exact .fail _ _

theorem terminated_of_turn {s : ExecutionState} (h : s.stateOf t = some .mutexBlocked) (q : Nat) :
    (s.modify t fun thread => { thread with threadState := .runnable }).stateOf q = some .terminated ↔
      s.stateOf q = some .terminated := by
  rw [stateOf_modify (g := fun _ => .runnable) fun _ => rfl]
  by_cases hq : q = t
  · simp [hq, h]
  · simp [hq]

/-- The turn of a thread changes nothing that decides what its instruction looks up. -/
theorem schedule_instAccessed {e e' : Executor} (h : e.schedule t = some e') (inst : Inst) (choice : Choice) :
    e'.instAccessed t inst choice = e.instAccessed t inst choice := by
  rcases schedule_eq h with ⟨-, rfl⟩ | ⟨-, m, -, rfl⟩
  · rfl
  · rfl

theorem act_local (h : Beside e₁ e₂) {action : Action} (hsame : ∀ r ∈ e₁.accessed action, SameAt e₁ e₂ r) :
    Matches e₁ e₂ (e₁.act action) (e₂.act action) := by
  cases action with
  | instruction t inst choice =>
    have hstep : ∀ e : Executor, e.act (.instruction t inst choice) =
        ((e.schedule t).map fun e => (({} : Outcome), e)).bind fun p => p.2.executeInstruction t inst choice := by
      intro e
      rw [Option.bind_map]
      rfl
    rw [hstep, hstep]
    refine (schedule_local h fun r hr => hsame r (List.mem_append_left _ hr)).bind fun o e₁' e₂' hone hbeside hkeeps => ?_
    obtain ⟨e, hschedule, heq⟩ := Option.map_eq_some_iff.mp hone
    obtain ⟨-, rfl⟩ := Prod.mk.inj heq
    refine executeInstruction_local hbeside fun r hr => hkeeps r (hsame r (List.mem_append_right _ ?_))
    rwa [schedule_instAccessed hschedule] at hr
  | createSpecialElement element =>
    refine .inr ⟨_, _, _, rfl, rfl, ?_, fun r hr => ?_⟩
    · cases element with
      | _ => exact ⟨h.threads, h.queue⟩
    · cases element with
      | mutex address =>
        cases r with
        | mutex k => exact insertIfNew_same hr _ _
        | _ => exact hr
      | cond address =>
        cases r with
        | cond k => exact insertIfNew_same hr _ _
        | _ => exact hr
      | barrier address =>
        cases r with
        | barrier k => exact insertIfNew_same hr _ _
        | _ => exact hr
  | reSchedule scheduler =>
    simp only [act, h.queue]
    cases scheduler.reSchedule e₁.state.queue with
    | none => exact .fail _ _
    | some queue =>
      refine .inr ⟨_, _, _, rfl, rfl, ⟨h.threads, rfl⟩, fun r hr => ?_⟩
      cases r with
      | _ => exact hr

/-! ### What a step does not change -/

theorem isLocked_eq {m : MutexManager} {mutex : Nat} {state : Mutex} (h : m.mutexPool[mutex]? = some state) :
    m.isLocked mutex = state.isLocked := by
  rw [MutexManager.isLocked, TreeMap.getD_eq_getD_getElem?, h]
  rfl

theorem lock_frame {m m' : MutexManager} {mutex : Nat} {isBlocked : Bool} (h : m.lock mutex t = some (isBlocked, m')) :
    isBlocked = m.isLocked mutex ∧
      (∀ k, (k = t → m.isLocked mutex = false ∧ t ∉ m.blockedThreadPool) →
        m'.blockedThreadPool[k]? = m.blockedThreadPool[k]?) ∧
      ∀ k, (k = mutex → m.isLocked mutex = true) → m'.mutexPool[k]? = m.mutexPool[k]? := by
  unfold MutexManager.lock at h
  split at h
  next => cases h
  next state hstate =>
    rw [isLocked_eq hstate]
    split at h
    next hlocked =>
      obtain ⟨rfl, rfl⟩ := Prod.mk.inj (Option.some.inj h)
      refine ⟨hlocked.symm, fun k hk => insertIfNew_other fun heq => ?_, fun k _ => rfl⟩
      rw [(hk heq).1] at hlocked
      cases hlocked
    next hlocked =>
      obtain ⟨rfl, rfl⟩ := Prod.mk.inj (Option.some.inj h)
      refine ⟨by simpa using hlocked, fun k hk => ?_, fun k hk => insert_other fun heq => hlocked (hk heq)⟩
      by_cases hkt : k = t
      · -- nothing is erased where nothing stands
        show (m.blockedThreadPool.erase t)[k]? = m.blockedThreadPool[k]?
        rw [hkt, TreeMap.getElem?_erase_self, TreeMap.getElem?_eq_none (hk hkt).2]
      · exact erase_other hkt

theorem unlock_frame {m m' : MutexManager} {mutex : Nat} (h : m.unlock mutex = some m') :
    m'.blockedThreadPool = m.blockedThreadPool ∧
      ∀ k, (k = mutex → m.isLocked mutex = false) → m'.mutexPool[k]? = m.mutexPool[k]? := by
  unfold MutexManager.unlock at h
  split at h
  next => cases h
  next state hstate =>
    rw [isLocked_eq hstate]
    obtain rfl := Option.some.inj h
    split
    next hlocked =>
      refine ⟨rfl, fun k hk => insert_other fun heq => ?_⟩
      rw [hk heq] at hlocked
      cases hlocked
    next => exact ⟨rfl, fun k _ => rfl⟩

theorem addBlockedThreads_frame {released : List WaitParam} {m m' : MutexManager}
    (h : released.foldlM (fun m wp => MutexManager.addBlockedThread m wp.threadId wp.mutex) m = some m') :
    m'.mutexPool = m.mutexPool ∧
      ∀ k, k ∉ released.map (·.threadId) → m'.blockedThreadPool[k]? = m.blockedThreadPool[k]? := by
  induction released generalizing m with
  | nil =>
    obtain rfl := Option.some.inj h
    exact ⟨rfl, fun k _ => rfl⟩
  | cons wp released ih =>
    rw [List.foldlM_cons] at h
    obtain ⟨m₁, hone, hrest⟩ := Option.bind_eq_some_iff.mp h
    obtain ⟨hpool, hblocked⟩ := ih hrest
    rw [MutexManager.addBlockedThread, Option.ite_none_right_eq_some] at hone
    obtain rfl := Option.some.inj hone.2
    refine ⟨hpool, fun k hk => ?_⟩
    rw [List.map_cons, List.mem_cons, not_or] at hk
    rw [hblocked k hk.2]
    exact insertIfNew_other hk.1

theorem wakeAll_frame {e e' : Executor} {cond : Nat} {released rest : List WaitParam} {o : Outcome}
    (h : e.wakeAll t cond released rest = some (o, e')) {r : Resource} (hcond : r ≠ .cond cond)
    (hblocked : ∀ wp ∈ released, r ≠ .blocked wp.threadId) : SameAt e e' r := by
  obtain ⟨m, hm, h⟩ := Option.bind_eq_some_iff.mp h
  obtain ⟨s, hs, h⟩ := Option.bind_eq_some_iff.mp h
  obtain ⟨-, rfl⟩ := Prod.mk.inj (Option.some.inj h)
  obtain ⟨hpool, hother⟩ := addBlockedThreads_frame hm
  cases r with
  | mutex k => exact congrArg (·[k]?) hpool
  | blocked k =>
    refine hother k fun hk => ?_
    obtain ⟨wp, hwp, rfl⟩ := List.mem_map.mp hk
    exact hblocked wp hwp rfl
  | cond k =>
    refine insert_other fun hk => ?_
    rw [hk] at hcond
    exact hcond rfl
  | nextThreadId => exact foldlM_nextThreadId wakeWaiter_withNext hs
  | _ => rfl

theorem executeInstruction_frame {e e' : Executor} {inst : Inst} {choice : Choice} {o : Outcome}
    (h : e.executeInstruction t inst choice = some (o, e')) {r : Resource} (hr : r ∉ e.instUpdated t inst choice) :
    SameAt e e' r := by
  unfold executeInstruction at h
  unfold instUpdated at hr
  split at h
  next =>
    obtain ⟨_, s, _, rfl, _⟩ := executePThreadCreate_eq h
    cases r with
    | nextThreadId => exact absurd (List.mem_singleton_self _) hr
    | _ => rfl
  next joined =>
    rcases executePThreadJoin_eq h with ⟨-, -, rfl⟩ | ⟨hrunning, -, -, rfl⟩
    · exact .refl _ _
    · dsimp only at hr
      rw [if_neg hrunning, List.mem_singleton] at hr
      cases r with
      | joins u =>
        show (e.joinRecord.insert joined (e.joinRecord.getD joined [] ++ [t])).getD u [] = e.joinRecord.getD u []
        rw [TreeMap.getD_insert]
        have hne : joined ≠ u := fun heq => hr (by rw [heq])
        simp [hne]
      | _ => rfl
  next cond mutex =>
    obtain ⟨wps, m, state, -, -, -, hunlock, -, rfl⟩ := executePThreadCondWait_eq h
    simp only [List.mem_cons, List.not_mem_nil, or_false, not_or] at hr
    obtain ⟨hblocked, hpool⟩ := unlock_frame hunlock
    cases r with
    | mutex k => exact hpool k fun heq => absurd (by rw [heq]) hr.2
    | blocked k => exact congrArg (·[k]?) hblocked
    | cond k => exact insert_other fun heq => hr.1 (by rw [heq])
    | _ => rfl
  next cond =>
    rw [signal_eq] at h
    dsimp only [releasedBy] at hr
    rw [TreeMap.getD_eq_getD_getElem?] at hr
    split at h
    next => cases h
    next =>
      obtain ⟨-, rfl⟩ := Prod.mk.inj (Option.some.inj h)
      exact .refl _ _
    next first others hwaiting =>
      obtain ⟨wp, hwp, h⟩ := Option.bind_eq_some_iff.mp h
      rw [hwaiting, Option.getD_some, hwp] at hr
      simp only [Option.toList_some, List.map_cons, List.map_nil, List.mem_cons, List.not_mem_nil, or_false, not_or] at hr
      refine wakeAll_frame h hr.1 fun other hother => ?_
      rw [List.mem_singleton.mp hother]
      exact hr.2
  next cond =>
    rw [broadcast_eq] at h
    dsimp only [releasedBy] at hr
    obtain ⟨released, hwaiting, h⟩ := Option.bind_eq_some_iff.mp h
    rw [TreeMap.getD_eq_getD_getElem?, hwaiting, Option.getD_some] at hr
    cases released with
    | nil =>
      -- an empty list is stored where it stood
      obtain ⟨-, rfl⟩ := Prod.mk.inj (Option.some.inj h)
      cases r with
      | cond k =>
        show (e.condManager.condPool.insert cond.address [])[k]? = e.condManager.condPool[k]?
        by_cases hk : k = cond.address
        · rw [hk, hwaiting, TreeMap.getElem?_insert_self]
        · exact insert_other hk
      | _ => rfl
    | cons first others =>
      simp only [List.mem_cons, not_or] at hr
      refine wakeAll_frame h hr.1 fun wp hwp heq => hr.2 ?_
      rw [heq]
      exact List.mem_map.mpr ⟨wp, hwp, rfl⟩
  next mutex =>
    obtain ⟨isBlocked, m, hlock, -, rfl⟩ := executePThreadMutexLock_eq h
    obtain ⟨-, hblocked, hpool⟩ := lock_frame hlock
    dsimp only at hr
    cases r with
    | mutex k =>
      refine hpool k fun heq => ?_
      by_contra hlocked
      rw [if_neg hlocked, heq] at hr
      exact hr List.mem_cons_self
    | blocked k =>
      refine hblocked k fun heq => ?_
      rw [heq] at hr
      split at hr
      next => exact absurd List.mem_cons_self hr
      next hlocked =>
        refine ⟨by simpa using hlocked, fun hmem => hr ?_⟩
        rw [if_pos hmem]
        exact List.mem_cons_of_mem _ List.mem_cons_self
    | nextThreadId =>
      cases isBlocked with
      | true => rfl
      | false => rfl
    | _ => rfl
  next mutex =>
    obtain ⟨m, hunlock, -, rfl⟩ := executePThreadMutexUnlock_eq h
    obtain ⟨hblocked, hpool⟩ := unlock_frame hunlock
    dsimp only at hr
    cases r with
    | mutex k =>
      refine hpool k fun heq => ?_
      by_contra hlocked
      rw [if_pos (by simpa using hlocked), heq] at hr
      exact hr List.mem_cons_self
    | blocked k => exact congrArg (·[k]?) hblocked
    | _ => rfl
  next barrier count =>
    obtain ⟨state, -, -, rfl⟩ := executePThreadBarrierInit_eq h
    cases r with
    | barrier k => exact insert_other fun heq => hr (by rw [heq]; exact List.mem_singleton_self _)
    | _ => rfl
  next barrier =>
    have hwait : e.executePThreadBarrierWait t barrier = (o, e') := Option.some.inj h
    unfold executePThreadBarrierWait BarrierManager.wait at hwait
    have hother : ∀ k value, r = .barrier k →
        (e.barrierManager.barrierPool.insert barrier value)[k]? = e.barrierManager.barrierPool[k]? := by
      rintro k value rfl
      exact insert_other fun heq => hr (by rw [heq]; exact List.mem_singleton_self _)
    cases hstate : e.barrierManager.barrierPool[barrier]? with
    | none =>
      rw [hstate] at hwait
      obtain ⟨-, rfl⟩ := Prod.mk.inj hwait
      exact .refl _ _
    | some state =>
      rw [hstate] at hwait
      by_cases hfull : state.current + 1 = state.count
      · simp only [hfull, if_true] at hwait
        obtain ⟨-, rfl⟩ := Prod.mk.inj hwait
        cases r with
        | barrier k => exact hother k _ rfl
        | nextThreadId =>
          have hnext := foldl_swapIn_withNext ((state.blockedList ++ [t]).filter (· ≠ t)) e.state e.state.nextThreadId .runnable
          rw [show e.state.withNext e.state.nextThreadId = e.state from rfl] at hnext
          have hcounter := congrArg ExecutionState.nextThreadId hnext
          exact hcounter
        | _ => rfl
      · simp only [hfull, if_false] at hwait
        obtain ⟨-, rfl⟩ := Prod.mk.inj hwait
        cases r with
        | barrier k => exact hother k _ rfl
        | _ => rfl
  next =>
    obtain ⟨s, hwake, h⟩ := Option.bind_eq_some_iff.mp h
    obtain ⟨-, rfl⟩ := Prod.mk.inj (Option.some.inj h)
    cases r with
    | nextThreadId =>
      have hsame := foldlM_nextThreadId (f := fun p s q => s.wake p q .runnable)
        (fun s n p q => wake_withNext s n p q .runnable) hwake
      exact hsame
    | _ => rfl
  next =>
    obtain ⟨-, rfl⟩ := Prod.mk.inj (Option.some.inj h)
    exact .refl _ _

/-- The turn of a thread: nothing happens, or the thread gets the mutex that it is blocked on. -/
theorem schedule_turn {e e' : Executor} (h : e.schedule t = some e') :
    e' = e ∨ ∃ acquired m, e.turnAccessed t = [.blocked t, .mutex acquired] ∧
      e.state.stateOf t = some .mutexBlocked ∧ e.mutexManager.lock acquired t = some (false, m) ∧
      e' = { e with
        mutexManager := m
        state := e.state.modify t fun thread => { thread with threadState := .runnable } } := by
  rcases schedule_eq h with ⟨-, rfl⟩ | ⟨hblocked, m, htry, rfl⟩
  · exact .inl rfl
  · unfold MutexManager.tryToLockForBlockedThread at htry
    split at htry
    next => cases htry
    next acquired hpool =>
      refine .inr ⟨acquired, m, ?_, hblocked, htry, rfl⟩
      rw [turnAccessed, if_pos hblocked, hpool]
      rfl

theorem schedule_frame {e e' : Executor} (h : e.schedule t = some e') {r : Resource} (hr : r ∉ e.turnAccessed t) :
    SameAt e e' r := by
  rcases schedule_turn h with rfl | ⟨acquired, m, hturn, -, hlock, rfl⟩
  · exact .refl _ _
  · rw [hturn] at hr
    simp only [List.mem_cons, List.not_mem_nil, or_false, not_or] at hr
    obtain ⟨-, hblocked, hpool⟩ := lock_frame hlock
    cases r with
    | mutex k => exact hpool k fun heq => absurd (by rw [heq]) hr.2
    | blocked k => exact hblocked k fun heq => absurd (by rw [heq]) hr.1
    | _ => rfl

/-- What an instruction changes after the turn, it changes before it, or the turn has changed it. -/
theorem schedule_instUpdated {e e' : Executor} (h : e.schedule t = some e') {inst : Inst} {choice : Choice} {r : Resource}
    (hr : r ∈ e'.instUpdated t inst choice) : r ∈ e.turnAccessed t ∨ r ∈ e.instUpdated t inst choice := by
  rcases schedule_turn h with rfl | ⟨acquired, m, hturn, hblocked, hlock, rfl⟩
  · exact .inr hr
  have hterminated := terminated_of_turn hblocked
  have hlocked : ∀ k, k ≠ acquired → m.isLocked k = e.mutexManager.isLocked k := by
    intro k hk
    rw [MutexManager.isLocked, MutexManager.isLocked, TreeMap.getD_eq_getD_getElem?, TreeMap.getD_eq_getD_getElem?,
      (lock_frame hlock).2.2 k fun heq => absurd heq hk]
  rw [hturn]
  unfold instUpdated at hr ⊢
  split at hr
  next => exact .inr hr
  next => exact .inr (by simpa only [hterminated] using hr)
  next => exact .inr hr
  next => exact .inr hr
  next => exact .inr hr
  next mutex =>
    -- the thread itself stands in the pool before the turn, so only the mutex is at stake
    have hself : r = .blocked t ∨ r = .mutex mutex.address ∧ m.isLocked mutex.address = false := by
      dsimp only at hr
      split at hr
      next => exact .inl (List.mem_singleton.mp hr)
      next hfree =>
        rcases List.mem_cons.mp hr with hr | hr
        · exact .inr ⟨hr, by simpa using hfree⟩
        · split at hr
          next => exact .inl (List.mem_singleton.mp hr)
          next => cases hr
    rcases hself with rfl | ⟨rfl, hfree⟩
    · exact .inl List.mem_cons_self
    · by_cases hk : mutex.address = acquired
      · rw [hk]
        exact .inl (List.mem_cons_of_mem _ List.mem_cons_self)
      · refine .inr ?_
        rw [if_neg (by rw [← hlocked _ hk, hfree]; exact Bool.false_ne_true)]
        exact List.mem_cons_self
  next mutex =>
    by_cases hk : mutex.address = acquired
    · dsimp only at hr
      split at hr
      · refine .inl ?_
        rw [hk] at hr
        simpa using .inr (List.mem_singleton.mp hr)
      · cases hr
    · exact .inr (by simpa only [hlocked _ hk] using hr)
  next => exact .inr hr
  next => exact .inr hr
  next => exact .inr hr

theorem act_frame {e e' : Executor} {action : Action} {o : Outcome} (h : e.act action = some (o, e')) {r : Resource}
    (hr : r ∉ e.updated action) : SameAt e e' r := by
  cases action with
  | instruction t inst choice =>
    obtain ⟨e₁, hschedule, hinst⟩ := Option.bind_eq_some_iff.mp h
    simp only [updated, List.mem_append, not_or] at hr
    have hturn := schedule_frame hschedule hr.1
    have hafter := executeInstruction_frame hinst fun hmem => (schedule_instUpdated hschedule hmem).elim hr.1 hr.2
    cases r with
    | _ => exact Eq.trans hafter hturn
  | createSpecialElement element =>
    obtain ⟨-, rfl⟩ := Prod.mk.inj (Option.some.inj h)
    cases element with
    | mutex address =>
      cases r with
      | mutex k => exact insertIfNew_other fun heq => hr (by rw [heq]; exact List.mem_singleton_self _)
      | _ => rfl
    | cond address =>
      cases r with
      | cond k => exact insertIfNew_other fun heq => hr (by rw [heq]; exact List.mem_singleton_self _)
      | _ => rfl
    | barrier address =>
      cases r with
      | barrier k => exact insertIfNew_other fun heq => hr (by rw [heq]; exact List.mem_singleton_self _)
      | _ => rfl
  | reSchedule scheduler =>
    obtain ⟨queue, -, heq⟩ := Option.map_eq_some_iff.mp h
    obtain ⟨-, rfl⟩ := Prod.mk.inj heq
    cases r with
    | _ => rfl

end Executor
/-! ### Runs of two states -/

/-- A step of one of the states: what it did, and the shared entries that it changes. -/
structure ForkEvent where
  side : Bool
  action : Action
  outcome : Outcome
  updated : List Resource

/-- The interleavings of the steps of two states, as the searcher may choose them, whose steps meet `C`. -/
inductive ForkedRun (C : List ForkEvent → ForkedStates → Bool → Action → Prop) (f₀ : ForkedStates) :
    List ForkEvent → ForkedStates → Prop
  | start : ForkedRun C f₀ [] f₀
  | step {events : List ForkEvent} {f : ForkedStates} {side : Bool} {action : Action} {o : Outcome} {e : Executor} :
      ForkedRun C f₀ events f → C events f side action → (f.view side).act action = some (o, e) →
      ForkedRun C f₀ (events ++ [⟨side, action, o, (f.view side).updated action⟩]) (f.update side e)

/-- The steps of one state without those of the other: their outcomes, and the executor after them. -/
def Executor.runAlone (e : Executor) (actions : List Action) : Option (List Outcome × Executor) :=
  actions.foldlM (fun current action => (current.2.act action).map fun result => (current.1 ++ [result.1], result.2)) ([], e)

/-- The steps of one state. -/
def ofSide (side : Bool) (events : List ForkEvent) : List ForkEvent := events.filter fun event => event.side = side

/-- Each state does what it does alone, and so does the next step that meets `C`. -/
def Isolated (C : List ForkEvent → ForkedStates → Bool → Action → Prop) (f₀ : ForkedStates) (events : List ForkEvent)
    (f : ForkedStates) : Prop :=
  ∀ side, ∃ e, (f₀.view side).runAlone ((ofSide side events).map (·.action)) =
      some ((ofSide side events).map (·.outcome), e) ∧
    ∀ action, C events f side action → ((f.view side).act action).map (·.1) = (e.act action).map (·.1)

/-- The step comes to no entry that the other state has changed. -/
def Separate (events : List ForkEvent) (f : ForkedStates) (side : Bool) (action : Action) : Prop :=
  ∀ event ∈ events, event.side ≠ side → ∀ r ∈ event.updated, r ∉ (f.view side).accessed action

section
variable {f₀ f : ForkedStates} {events : List ForkEvent} {side other : Bool} {e : Executor}

theorem runAlone_snoc {actions : List Action} {outcomes : List Outcome} {e₀ : Executor}
    (h : e₀.runAlone actions = some (outcomes, e)) {action : Action} {o : Outcome} {e' : Executor}
    (hact : e.act action = some (o, e')) : e₀.runAlone (actions ++ [action]) = some (outcomes ++ [o], e') := by
  rw [Executor.runAlone] at h ⊢
  rw [List.foldlM_append, h]
  simp [hact]

theorem view_update_self : (f.update side e).view side = e := by
  obtain ⟨⟨threadList, queue, nextThreadId⟩, _, _, _, _⟩ := e
  simp [ForkedStates.view, ForkedStates.update]

theorem view_update_other {r : Resource} :
    Executor.SameAt (f.view other) ((f.update side e).view other) r ↔ Executor.SameAt (f.view side) e r := by
  cases r with
  | _ => exact Iff.rfl

/-- One state beside its run alone: the same threads, and the same entries but for those that the other state has
    changed. -/
structure Follows (f₀ : ForkedStates) (events : List ForkEvent) (f : ForkedStates) (side : Bool) (e : Executor) : Prop where
  run : (f₀.view side).runAlone ((ofSide side events).map (·.action)) = some ((ofSide side events).map (·.outcome), e)
  beside : Executor.Beside (f.view side) e
  same : ∀ r, (∀ event ∈ events, event.side ≠ side → r ∉ event.updated) → Executor.SameAt (f.view side) e r

theorem Follows.same_of_separate (h : Follows f₀ events f side e) {action : Action}
    (hC : Separate events f side action) : ∀ r ∈ (f.view side).accessed action, Executor.SameAt (f.view side) e r :=
  fun r hr => h.same r fun event hevent hside hmem => hC event hevent hside r hmem hr

theorem Follows.own (h : Follows f₀ events f side e) {action : Action} (hC : Separate events f side action) {o : Outcome}
    {e₁ : Executor} (hact : (f.view side).act action = some (o, e₁)) :
    ∃ e', Follows f₀ (events ++ [⟨side, action, o, (f.view side).updated action⟩]) (f.update side e₁) side e' := by
  rcases Executor.act_local h.beside (h.same_of_separate hC) with ⟨hnone, -⟩ | ⟨o', e₁', e', hone, htwo, hbeside, hkeeps⟩
  · rw [hact] at hnone
    cases hnone
  rw [hact] at hone
  obtain ⟨rfl, rfl⟩ := Prod.mk.inj (Option.some.inj hone)
  refine ⟨e', ?_, by rwa [view_update_self], fun r hr => ?_⟩
  · have hside : ofSide side (events ++ [⟨side, action, o, (f.view side).updated action⟩]) =
        ofSide side events ++ [⟨side, action, o, (f.view side).updated action⟩] := by
      simp [ofSide]
    rw [hside, List.map_append, List.map_append]
    exact runAlone_snoc h.run htwo
  · rw [view_update_self]
    exact hkeeps r (h.same r fun event hevent => hr event (List.mem_append_left _ hevent))

theorem Follows.foreign (h : Follows f₀ events f other e) (hne : other ≠ side) {action : Action} {o : Outcome} {e₁ : Executor}
    (hact : (f.view side).act action = some (o, e₁)) :
    Follows f₀ (events ++ [⟨side, action, o, (f.view side).updated action⟩]) (f.update side e₁) other e := by
  have hside : ofSide other (events ++ [⟨side, action, o, (f.view side).updated action⟩]) = ofSide other events := by
    simp [ofSide, Ne.symm hne]
  refine ⟨by rw [hside]; exact h.run, ?_, fun r hr => ?_⟩
  · refine ⟨h.beside.threads.trans ?_, h.beside.queue.trans ?_⟩
    · simp [ForkedStates.view, ForkedStates.update, hne]
    · simp [ForkedStates.view, ForkedStates.update, hne]
  · have hkept := h.same r fun event hevent => hr event (List.mem_append_left _ hevent)
    have hnew := hr _ (List.mem_append_right _ (List.mem_singleton_self _)) (Ne.symm hne)
    have hframe : Executor.SameAt (f.view other) ((f.update side e₁).view other) r :=
      view_update_other.mpr (Executor.act_frame hact hnew)
    cases r with
    | _ => exact Eq.trans hkept (Eq.symm hframe)

theorem forkedRun_follows (h : ForkedRun Separate f₀ events f) (side : Bool) : ∃ e, Follows f₀ events f side e := by
  induction h with
  | start => exact ⟨f₀.view side, rfl, ⟨rfl, rfl⟩, fun r _ => .refl _ r⟩
  | @step events f stepped action o e₁ hrun hC hact ih =>
    obtain ⟨e, hfollows⟩ := ih
    by_cases hside : side = stepped
    · subst hside
      exact hfollows.own hC hact
    · exact ⟨e, hfollows.foreign hside hact⟩

theorem isolated_of_separate (h : ForkedRun Separate f₀ events f) : Isolated Separate f₀ events f := by
  intro side
  obtain ⟨e, hfollows⟩ := forkedRun_follows h side
  refine ⟨e, hfollows.run, fun action hC => ?_⟩
  rcases Executor.act_local hfollows.beside (hfollows.same_of_separate hC) with ⟨hone, htwo⟩ | ⟨o, e₁, e₂, hone, htwo, -, -⟩
  · rw [hone, htwo]
  · rw [hone, htwo]
    rfl

end

/-! ### Two locks -/

instance (events : List ForkEvent) (f : ForkedStates) (side : Bool) (action : Action) :
    Decidable (Separate events f side action) := by
  unfold Separate
  infer_instance

section
variable (C : List ForkEvent → ForkedStates → Bool → Action → Prop)
  [∀ events f side action, Decidable (C events f side action)]

/-- One step of a run whose steps meet `C`. -/
def ForkedStates.runStep (current : List ForkEvent × ForkedStates) (entry : Bool × Action) :
    Option (List ForkEvent × ForkedStates) :=
  if C current.1 current.2 entry.1 entry.2 then
    ((current.2.view entry.1).act entry.2).map fun result =>
      (current.1 ++ [⟨entry.1, entry.2, result.1, (current.2.view entry.1).updated entry.2⟩],
        current.2.update entry.1 result.2)
  else none

/-- The run of `script`, as far as its steps meet `C`. -/
def ForkedStates.run (f₀ : ForkedStates) (script : List (Bool × Action)) : Option (List ForkEvent × ForkedStates) :=
  script.foldlM (ForkedStates.runStep C) ([], f₀)

variable {C} {f₀ f f₁ : ForkedStates} {script : List (Bool × Action)} {events before : List ForkEvent}

theorem ForkedRun.runSteps (h₁ : ForkedRun C f₀ before f₁)
    (h : script.foldlM (ForkedStates.runStep C) (before, f₁) = some (events, f)) : ForkedRun C f₀ events f := by
  induction script generalizing before f₁ with
  | nil =>
    obtain ⟨rfl, rfl⟩ := Prod.mk.inj (Option.some.inj h)
    exact h₁
  | cons entry script ih =>
    rw [List.foldlM_cons] at h
    obtain ⟨current, hone, hrest⟩ := Option.bind_eq_some_iff.mp h
    rw [ForkedStates.runStep, Option.ite_none_right_eq_some] at hone
    obtain ⟨result, hact, rfl⟩ := Option.map_eq_some_iff.mp hone.2
    exact ih (.step h₁ hone.1 hact) hrest

theorem ForkedStates.run_forkedRun (h : ForkedStates.run C f₀ script = some (events, f)) : ForkedRun C f₀ events f :=
  ForkedRun.start.runSteps h

end

/-- The main thread with the mutexes 8 and 9, forked before it locks one. -/
def forkedMain : ForkedStates :=
  ((Executor.start.createSpecialElement (.mutex 8)).createSpecialElement (.mutex 9)).fork Executor.start.state

/-- The main thread locks a mutex. -/
def lockOf (address : Nat) : Action := .instruction 1 (.call (.pthreadMutexLock ⟨1, address, true⟩)) {}

/-- The forked states lock different mutexes. -/
theorem isolated_differentMutexes : ∃ events f,
    ForkedStates.run Separate forkedMain [(false, lockOf 8), (true, lockOf 9)] = some (events, f) ∧
      events.map (·.outcome.blocked) = [false, false] ∧ Isolated Separate forkedMain events f := by
  have hrun : (ForkedStates.run Separate forkedMain [(false, lockOf 8), (true, lockOf 9)]).map
      (fun result => result.1.map (·.outcome.blocked)) = some [false, false] := by decide +kernel
  obtain ⟨⟨events, f⟩, hsteps, hblocked⟩ := Option.map_eq_some_iff.mp hrun
  exact ⟨events, f, hsteps, hblocked, isolated_of_separate (ForkedStates.run_forkedRun hsteps)⟩

/-- When both lock one mutex, the second state is blocked by the first. -/
theorem not_isolated_oneMutex : ∃ events f,
    ForkedStates.run (fun _ _ _ _ => True) forkedMain [(false, lockOf 8), (true, lockOf 8)] = some (events, f) ∧
      ¬Isolated (fun _ _ _ _ => True) forkedMain events f := by
  have hrun : (ForkedStates.run (fun _ _ _ _ => True) forkedMain [(false, lockOf 8), (true, lockOf 8)]).map
      (fun result => ((ofSide true result.1).map (·.action), (ofSide true result.1).map (·.outcome))) =
      some ([lockOf 8], [{ blocked := true }]) := rfl
  obtain ⟨⟨events, f⟩, hsteps, hevents⟩ := Option.map_eq_some_iff.mp hrun
  obtain ⟨hactions, houtcomes⟩ := Prod.mk.inj hevents
  refine ⟨events, f, hsteps, fun hisolated => ?_⟩
  obtain ⟨e, halone, -⟩ := hisolated true
  have hfree : ((forkedMain.view true).runAlone [lockOf 8]).map (·.1) = some [{}] := by decide +kernel
  rw [hactions, houtcomes] at halone
  rw [halone] at hfree
  cases hfree

end CapTaint
