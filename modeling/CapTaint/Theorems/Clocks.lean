import CapTaint.TaintListener
import CapTaint.DTAM
import CapTaint.Theorems.Effects
import CapTaint.Lib.VectorClock

/-! The vector clocks of the taint analysis against the order of its steps. A clock that is after another one and not
    before it in any component belongs to a step that depends on the other one; a join brings all that the joined
    thread knew, unless that thread had ended before. -/

namespace CapTaint
open Std ExecutionState VectorClock

/-! ### One step of the taint analysis -/

/-- The calls after which the listener counts. -/
def Inst.counts : Inst → Bool
  | .call (.pthreadCreate _) | .call (.pthreadJoin _) | .call (.pthreadCondWait _ _) | .call (.pthreadCondSignal _)
  | .call (.pthreadCondBroadcast _) => true
  | _ => false

namespace Executor
variable {e e' : Executor} {t : Nat} {inst : Inst} {choice : Choice} {s : TaintStep}

/-- For what an instruction does it makes no difference that its thread was scheduled before. -/
theorem Effect.of_schedule {o : Outcome} {e₁ : Executor} (hs : e.schedule t = some e₁) (h : Effect t inst o e₁ e') :
    Effect t inst o e e' := by
  rcases schedule_eq hs with ⟨-, rfl⟩ | ⟨hblocked, m, -, rfl⟩
  · exact h
  have hturned : Turned .mutexBlocked .runnable [t] e.state
      (e.state.modify t fun thread => { thread with threadState := .runnable }) :=
    turned_of_modify hblocked fun q => stateOf_modify (g := fun _ => .runnable) fun _ => rfl
  have hclock : ∀ q k, (e.state.modify t fun thread => { thread with threadState := .runnable }).clock q k =
      e.state.clock q k := fun q k => clock_modify_same fun _ => rfl
  have hterminated : ∀ q, (e.state.modify t fun thread => { thread with threadState := .runnable }).stateOf q =
      some .terminated ↔ e.state.stateOf q = some .terminated := fun q => hturned.same (by decide) (by decide)
  have hmem : ∀ q, q ∈ (e.state.modify t fun thread => { thread with threadState := .runnable }).threadList ↔
      q ∈ e.state.threadList := fun q => mem_modify
  refine ⟨?_, fun q => (h.mem q).trans (or_congr (hmem q) Iff.rfl), fun q hq => ?_, fun q hq => ?_, h.released_by,
    fun q => (h.terminated q).trans (or_congr (hterminated q) Iff.rfl), fun u q => ?_, fun hret => ?_⟩
  · simpa using (Passes.of_clock_eq hclock t []).trans h.passes
  · obtain ⟨hfree, hcount, hcreate⟩ := h.created q hq
    exact ⟨fun hq' => hfree ((hmem q).mpr hq'), hcount, hcreate⟩
  · obtain ⟨hsome, hrunning⟩ := h.released q hq
    exact ⟨stateOf_isSome.mpr ((hmem q).mp (stateOf_isSome.mp hsome)), fun hterm => hrunning ((hterminated q).mpr hterm)⟩
  · refine (h.joinRecord u q).trans (or_congr Iff.rfl (and_congr Iff.rfl (and_congr Iff.rfl ?_)))
    exact not_congr (hterminated u)
  · obtain ⟨hown, hge⟩ := h.exit hret
    exact ⟨fun k => (hown k).trans (hclock t k), fun q hq k => (hclock t k).symm.trans_le (hge q hq k)⟩

/-- The count after the instruction is part of what it does. -/
theorem Effect.tick {o : Outcome} {state : ExecutionState} (h : Effect t inst o e e') (ht : e'.state.tick t = some state)
    (hret : inst ≠ .ret true) : Effect t inst o e { e' with state := state } := by
  obtain ⟨-, -, -, hmem, hstate, -⟩ := tick_eq ht
  have hpasses := tick_passes ht
  refine ⟨by simpa using h.passes.trans hpasses, fun q => (hmem q).trans (h.mem q), fun q hq => ?_, h.released, h.released_by,
    fun q => ?_, h.joinRecord, fun heq => absurd heq hret⟩
  · obtain ⟨hfree, hcount, hcreate⟩ := h.created q hq
    exact ⟨hfree, hcount.trans_le (hpasses.mono q q), hcreate⟩
  · rw [hstate]
    exact h.terminated q

theorem placed_tick (h : Placed e) {state : ExecutionState} (ht : e.state.tick t = some state) :
    Placed { e with state := state } := by
  obtain ⟨-, -, hqueue, -, hstate, -⟩ := tick_eq ht
  refine ⟨?_, h.waiters.congr (fun _ => rfl) fun q => by rw [hstate],
    h.joiners.congr (joiners_congr (fun q => by rw [hstate]) rfl) fun q => by rw [hstate],
    h.arrivals.congr (fun _ => rfl) fun q => by rw [hstate]⟩
  show Listed state.queue _
  rw [hqueue]
  exact h.queue.congr fun q => by rw [Schedulable, Schedulable, hstate]

/-- One step of the taint analysis. -/
structure TaintEffect (s : TaintStep) (e e' : Executor) : Prop where
  schedulable : e.Schedulable s.threadId
  effect : Effect s.threadId s.inst s.outcome e e'
  placed : Placed e'
  no_barrier : ∀ barrier, s.inst ≠ .call (.pthreadBarrierWait barrier)
  counted : s.inst.counts = true → ∃ m < e'.state.clock s.threadId s.threadId,
    ∀ q ∈ s.outcome.targets, q ≠ s.threadId → e'.state.clock q s.threadId ≤ max (e.state.clock q s.threadId) m
  vectorClock : ∀ V, s.vectorClock = some V → s.inst ≠ .ret true ∧ ∀ k, V[k]?.getD 0 = e'.state.clock s.threadId k

theorem taintStep_effect (h : Placed e) (hs : e.taintStep t inst choice = some (s, e')) :
    s.threadId = t ∧ s.inst = inst ∧ TaintEffect s e e' := by
  obtain ⟨⟨o, e₂⟩, hstep, hs⟩ := Option.bind_eq_some_iff.mp hs
  obtain ⟨⟨v, e₃⟩, hlistener, hs⟩ := Option.bind_eq_some_iff.mp hs
  obtain ⟨rfl, rfl⟩ := Prod.mk.inj (Option.some.inj hs)
  obtain ⟨e₁, hschedule, hexecute⟩ := Option.bind_eq_some_iff.mp hstep
  obtain ⟨h₁, ht⟩ := schedule_placed h hschedule
  have heffect : Effect t inst o e e₂ := (executeInstruction_effect h₁ ht hexecute).of_schedule hschedule
  have hplaced : Placed e₂ := executeInstruction_placed h₁ ht hexecute
  have hschedulable : e.Schedulable t := by
    rcases schedule_eq hschedule with ⟨hrun, -⟩ | ⟨hblocked, -⟩
    · exact .inl hrun
    · exact .inr hblocked
  refine ⟨rfl, rfl, ?_⟩
  -- the listener records, counts, asserts, or does nothing
  unfold TaintListener.instructionExecuted at hlistener
  have hrecord : ∀ {loc : Location}, (do
        let thread ← e₂.state.findThreadById t
        some (if loc.isGlobal then some thread.vectorClock else none, e₂)) = some (v, e₃) →
      inst.counts = false → inst ≠ .ret true → (∀ barrier, inst ≠ .call (.pthreadBarrierWait barrier)) →
      TaintEffect { threadId := t, inst := inst, outcome := o, vectorClock := v } e e₃ := by
    intro loc hrec hcounts hret hbarrier
    obtain ⟨thread, hthread, hrec⟩ := Option.bind_eq_some_iff.mp hrec
    obtain ⟨rfl, rfl⟩ := Prod.mk.inj (Option.some.inj hrec)
    refine ⟨hschedulable, heffect, hplaced, hbarrier, by simp [hcounts], fun V hV => ⟨hret, fun k => ?_⟩⟩
    simp only [Option.ite_none_right_eq_some, Option.some.injEq] at hV
    simp [clock, hthread, hV.2]
  have hcount : (do
        let state ← e₂.state.tick t
        some (none, { e₂ with state := state })) = some (v, e₃) →
      (∀ barrier, inst ≠ .call (.pthreadBarrierWait barrier)) → inst ≠ .ret true →
      TaintEffect { threadId := t, inst := inst, outcome := o, vectorClock := v } e e₃ := by
    intro hrec hbarrier hret
    obtain ⟨state, htick, hrec⟩ := Option.bind_eq_some_iff.mp hrec
    obtain ⟨rfl, rfl⟩ := Prod.mk.inj (Option.some.inj hrec)
    obtain ⟨-, -, -, -, -, hclock⟩ := tick_eq htick
    refine ⟨hschedulable, heffect.tick htick hret, placed_tick hplaced htick, hbarrier, fun _ => ?_, by simp⟩
    refine ⟨e₂.state.clock t t, ?_, fun q hq hqt => ?_⟩
    · rw [hclock, if_pos ⟨rfl, rfl⟩]
      exact Nat.lt_succ_self _
    · rw [hclock, if_neg fun heq => hqt heq.1]
      exact heffect.passes.target q hq hqt t (Ne.symm hqt)
  split at hlistener
  next => exact hrecord hlistener rfl (by simp) (by simp)
  next => exact hrecord hlistener rfl (by simp) (by simp)
  next => exact hcount hlistener (by simp) (by simp)
  next => exact hcount hlistener (by simp) (by simp)
  next => exact hcount hlistener (by simp) (by simp)
  next => exact hcount hlistener (by simp) (by simp)
  next => exact hcount hlistener (by simp) (by simp)
  next => cases hlistener
  next hcreate hjoin hwait hsignal hbroadcast hbarrier =>
    obtain ⟨rfl, rfl⟩ := Prod.mk.inj (Option.some.inj hlistener)
    have hcounts : inst.counts = false := by
      unfold Inst.counts
      split <;> simp_all
    exact ⟨hschedulable, heffect, hplaced, hbarrier, by simp [hcounts], by simp⟩

/-! ### Clocks along a run -/

def present (e : Executor) : Set Nat := { q | q ∈ e.state.threadList }

/-- The threads that have not ended. -/
def live (e : Executor) : Set Nat := { q | (e.state.stateOf q).isSome ∧ e.state.stateOf q ≠ some .terminated }

theorem Schedulable.live (h : e.Schedulable t) : t ∈ e.live := by
  rcases h with h | h
  · exact ⟨by rw [h]; rfl, by rw [h]; decide⟩
  · exact ⟨by rw [h]; rfl, by rw [h]; decide⟩

end Executor

/-- The step as the library sees it: those that take over the clock are the created and the released threads. -/
def TaintStep.toStep (s : TaintStep) : VectorClock.Step Nat where
  actor := s.threadId
  targets := s.outcome.targets
  stamp := s.vectorClock.map fun V k => V[k]?.getD 0

namespace Executor
variable {e e' : Executor} {t : Nat} {inst : Inst} {choice : Choice} {s : TaintStep}

/-- Only the instructions that count or end a thread pass a clock on. -/
theorem TaintEffect.counts_of_targets (h : TaintEffect s e e') (htargets : s.outcome.targets ≠ []) :
    s.inst.counts = true ∨ s.inst = .ret true := by
  obtain ⟨q, hq⟩ := List.exists_mem_of_ne_nil _ htargets
  rcases List.mem_append.mp hq with hq | hq
  · obtain ⟨-, -, loc, hinst⟩ := h.effect.created q (by simpa using hq)
    exact .inl (by rw [hinst]; rfl)
  · rcases h.effect.released_by q hq with hsignals | ⟨hret, -⟩ | ⟨barrier, hbarrier⟩
    · refine .inl ?_
      unfold Inst.signals at hsignals
      unfold Inst.counts
      split at hsignals
      all_goals simp_all
    · exact .inr hret
    · exact absurd hbarrier (h.no_barrier barrier)

theorem TaintEffect.moves (h : TaintEffect s e e') :
    Moves e.present e.live e'.live e.state.clock e'.state.clock s.toStep where
  actor_live := h.schedulable.live
  actor_present := stateOf_isSome.mp h.schedulable.live.1
  absent q hq k := clock_eq hq
  mono := h.effect.passes.mono
  actor_others := h.effect.passes.actor_others
  frame q hq hout := funext (h.effect.passes.frame q hq hout)
  target := h.effect.passes.target
  counted hlive htargets := by
    rcases h.counts_of_targets htargets with hcounts | hret
    · exact h.counted hcounts
    · exact absurd ((h.effect.terminated _).mpr (.inr ⟨rfl, hret⟩)) hlive.2
  born q hq := by
    rcases (h.effect.mem q).mp (stateOf_isSome.mp hq.1) with hold | hnew
    · exact .inl ⟨stateOf_isSome.mpr hold, fun hterm => hq.2 ((h.effect.terminated q).mpr (.inl hterm))⟩
    · obtain ⟨hfree, hcount, -⟩ := h.effect.created q hnew
      exact .inr (by rwa [clock_eq hfree])
  stamp V hV := by
    obtain ⟨W, hW, rfl⟩ := Option.map_eq_some_iff.mp hV
    obtain ⟨hret, hclock⟩ := h.vectorClock W hW
    refine ⟨funext hclock, ?_⟩
    have hlive := h.schedulable.live
    refine ⟨stateOf_isSome.mpr ((h.effect.mem _).mpr (.inl (stateOf_isSome.mp hlive.1))), fun hterm => ?_⟩
    rcases (h.effect.terminated _).mp hterm with hterm | ⟨-, hexit⟩
    · exact hlive.2 hterm
    · exact hret hexit

end Executor

/-! ### The order of steps -/

/-- The order that program order, thread creation, waking up from a wait, and joins generate. -/
inductive Edge (steps : List TaintStep) (i j : Nat) : Prop
  | program {a b : TaintStep} : i < j → steps[i]? = some a → steps[j]? = some b → a.threadId = b.threadId → Edge steps i j
  | create {a b : TaintStep} : i < j → steps[i]? = some a → steps[j]? = some b → a.outcome.created = some b.threadId →
      Edge steps i j
  | wakeup {a b : TaintStep} : i < j → steps[i]? = some a → steps[j]? = some b → a.inst.signals = true →
      b.threadId ∈ a.outcome.released → Edge steps i j
  /-- The end of a thread, a join of it, and a later step of the thread that joined. -/
  | join {a b c : TaintStep} {k : Nat} : i < j → k < j → steps[i]? = some a → steps[j]? = some b → steps[k]? = some c →
      a.inst = .ret true → c.inst = .call (.pthreadJoin a.threadId) → c.threadId = b.threadId → Edge steps i j

def HappensBefore (steps : List TaintStep) : Nat → Nat → Prop := Relation.TransGen (Edge steps)

/-- What holds along every run of the taint analysis. -/
structure Clocks (steps : List TaintStep) (e : Executor) : Prop where
  placed : e.Placed
  clocked : Clocked (steps.map TaintStep.toStep) e.present e.live e.state.clock
  actors : ∀ s ∈ steps, s.threadId ∈ e.present
  /-- A thread in the record of a thread has called `pthread_join` on it. -/
  joins : ∀ u q, q ∈ e.joinRecord.getD u [] →
    ∃ (k : Nat) (c : TaintStep), steps[k]? = some c ∧ c.threadId = q ∧ c.inst = .call (.pthreadJoin u)
  released_by : ∀ {i : Nat} {a : TaintStep}, steps[i]? = some a → ∀ q ∈ a.outcome.released, a.inst.signals = true ∨
    a.inst = .ret true ∧ ∃ (k : Nat) (c : TaintStep), k < i ∧ steps[k]? = some c ∧ c.threadId = q ∧
      c.inst = .call (.pthreadJoin a.threadId)

open Executor Snoc

theorem start_clock (q k : Nat) : start.state.clock q k = 0 := by
  by_cases hq : q = 1
  · subst hq
    have hfind : start.state.findThreadById 1 = some {} := rfl
    rw [clock, hfind]
    rcases Nat.lt_or_ge k 5 with hk | hk
    · simp [hk]
    · simp [Nat.not_lt.mpr hk]
  · exact clock_eq (by simp [start, TreeMap.mem_insert, Ne.symm hq])

theorem start_clocks : Clocks [] start := by
  have hmain : ∀ q, q ∈ start.state.threadList → q = 1 := fun q hq => by
    have heq : 1 = q := by simpa [start, TreeMap.mem_insert] using hq
    exact heq.symm
  refine ⟨start_placed, ⟨fun p q => ?_, fun p hp q hq hqp => ?_, by simp, by simp, by simp⟩, by simp, ?_, by simp⟩
  · rw [start_clock, start_clock]
  · -- only the main thread has begun
    exact absurd ((hmain q hq).trans (hmain p (stateOf_isSome.mp hp.1)).symm) hqp
  · intro u q hq
    simp [start] at hq

theorem Clocks.step {steps : List TaintStep} {e e' : Executor} {s : TaintStep} (h : Clocks steps e)
    (hs : TaintEffect s e e') : Clocks (steps ++ [s]) e' := by
  have hpresent : ∀ q ∈ e'.present, q ∈ e.present ∨ q ∈ s.toStep.targets := by
    intro q hq
    refine ((hs.effect.mem q).mp hq).imp id fun hnew => ?_
    exact List.mem_append_left _ (by simp [hnew])
  have hmono : ∀ q ∈ e.present, q ∈ e'.present := fun q hq => (hs.effect.mem q).mpr (.inl hq)
  refine ⟨hs.placed, ?_, fun a ha => ?_, fun u q hq => ?_, fun {i a} ha q hq => ?_⟩
  · rw [List.map_append]
    refine h.clocked.step hs.moves hpresent hmono fun a ha => ?_
    obtain ⟨b, hb, rfl⟩ := List.mem_map.mp ha
    exact h.actors b hb
  · rcases List.mem_append.mp ha with ha | ha
    · exact hmono _ (h.actors a ha)
    · rw [List.mem_singleton.mp ha]
      exact hmono _ (stateOf_isSome.mp hs.schedulable.live.1)
  · rcases (hs.effect.joinRecord u q).mp hq with hq | ⟨rfl, hinst, -⟩
    · obtain ⟨k, c, hc, hq⟩ := h.joins u q hq
      exact ⟨k, c, getElem?_snoc_of_some hc, hq⟩
    · exact ⟨steps.length, s, by simp, rfl, hinst⟩
  · rcases getElem?_snoc_cases ha with ha | ⟨rfl, rfl⟩
    · refine (h.released_by ha q hq).imp id ?_
      rintro ⟨hret, k, c, hk, hc, hcq⟩
      exact ⟨hret, k, c, hk, getElem?_snoc_of_some hc, hcq⟩
    · rcases hs.effect.released_by q hq with hsignals | ⟨hret, hjoined⟩ | ⟨barrier, hbarrier⟩
      · exact .inl hsignals
      · obtain ⟨k, c, hc, hcq⟩ := h.joins _ q hjoined
        exact .inr ⟨hret, k, c, (List.getElem?_eq_some_iff.mp hc).1, getElem?_snoc_of_some hc, hcq⟩
      · exact absurd hbarrier (hs.no_barrier barrier)

variable {C : Executor → Nat → Inst → Prop} {steps : List TaintStep} {e : Executor}

theorem taintRun_clocks (h : TaintRun C steps e) : Clocks steps e := by
  induction h with
  | start => exact start_clocks
  | createSpecialElement element _ ih =>
    have hsame : ∀ e : Executor, (e.createSpecialElement element).state = e.state ∧
        (e.createSpecialElement element).joinRecord = e.joinRecord := fun e => by cases element <;> exact ⟨rfl, rfl⟩
    obtain ⟨hplaced, hclocked, hactors, hjoins, hreleased⟩ := ih
    refine ⟨createSpecialElement_placed hplaced element, ?_, ?_, ?_, hreleased⟩
    · rw [Executor.present, Executor.live, (hsame _).1]
      exact hclocked
    · rw [Executor.present, (hsame _).1]
      exact hactors
    · rw [(hsame _).2]
      exact hjoins
  | step _ _ hs ih => exact ih.step (taintStep_effect ih.placed hs).2.2

theorem edge_of_precedes (h : Clocks steps e) {i j : Nat} (hij : Precedes (steps.map TaintStep.toStep) i j) :
    Edge steps i j := by
  obtain ⟨hlt, a', b', ha, hb, hab⟩ := hij
  rw [List.getElem?_map] at ha hb
  obtain ⟨a, hi, rfl⟩ := Option.map_eq_some_iff.mp ha
  obtain ⟨b, hj, rfl⟩ := Option.map_eq_some_iff.mp hb
  rcases hab with hown | htarget
  · exact .program hlt hi hj hown.symm
  rcases List.mem_append.mp htarget with hcreated | hreleased
  · exact .create hlt hi hj (Option.mem_toList.mp hcreated)
  rcases h.released_by hi _ hreleased with hsignals | ⟨hret, k, c, hk, hc, hthread, hjoin⟩
  · exact .wakeup hlt hi hj hsignals hreleased
  · exact .join hlt (hk.trans hlt) hi hj hc hret hjoin hthread

/-- `isBefore` is false only for a clock that is nowhere below the other one, and above it somewhere. -/
theorem le_of_not_isBefore {V W : Vector Nat 5} (h : isBefore W.toList V.toList = false) :
    (∀ k : Nat, V[k]?.getD 0 ≤ W[k]?.getD 0) ∧ (fun k : Nat => V[k]?.getD 0) ≠ fun k => W[k]?.getD 0 := by
  simp only [isBefore, Bool.not_eq_false', Bool.and_eq_true, beq_iff_eq, decide_eq_true_eq] at h
  obtain ⟨hbefore, hafter⟩ := h
  have hpair : ∀ (k : Nat) (hk : k < 5), (W[k], V[k]) ∈ W.toList.zip V.toList := by
    intro k hk
    have hlen : k < (W.toList.zip V.toList).length := by simp [hk]
    have heq : (W.toList.zip V.toList)[k] = (W[k], V[k]) := by simp
    rw [← heq]
    exact List.getElem_mem hlen
  refine ⟨fun k => ?_, fun heq => ?_⟩
  · rcases Nat.lt_or_ge k 5 with hk | hk
    · have hle := List.countP_eq_zero.mp hbefore _ (hpair k hk)
      simp only [decide_eq_true_eq, Nat.not_lt] at hle
      simpa [hk] using hle
    · simp [Nat.not_lt.mpr hk]
  · obtain ⟨⟨x, y⟩, hmem, hgt⟩ := List.countP_pos_iff.mp hafter
    obtain ⟨k, hk, hxy⟩ := List.getElem_of_mem hmem
    have hk5 : k < 5 := by simpa using hk
    have hsame := congrFun heq k
    simp [hk5] at hsame
    simp [hsame] at hxy
    simp [← hxy.1, ← hxy.2] at hgt

/-- An edge from a write to a read is dropped only if the read happens before the write. -/
theorem happensBefore_of_not_isBefore (h : TaintRun C steps e) {i j : Nat} {r w : TaintStep} {V W : Vector Nat 5}
    (hr : steps[i]? = some r) (hw : steps[j]? = some w) (hV : r.vectorClock = some V) (hW : w.vectorClock = some W)
    (hafter : isBefore W.toList V.toList = false) : HappensBefore steps i j := by
  have hclocks := taintRun_clocks h
  obtain ⟨hle, hne⟩ := le_of_not_isBefore hafter
  have hbefore : Before (steps.map TaintStep.toStep) i j :=
    hclocks.clocked.ordered (a := r.toStep) (b := w.toStep) (by rw [List.getElem?_map, hr]; rfl)
      (by rw [List.getElem?_map, hw]; rfl) (by rw [TaintStep.toStep, hV]; rfl) (by rw [TaintStep.toStep, hW]; rfl) hle hne
  exact Relation.TransGen.mono (fun _ _ hij => edge_of_precedes hclocks hij) i j hbefore

/-- The main thread reads a variable and creates a thread that writes it. -/
def createThenWrite : List (Nat × Inst) :=
  [(1, .load ⟨1, 8, true⟩ false), (1, .call (.pthreadCreate ⟨2, 16, false⟩)), (2, .store ⟨1, 8, true⟩ false)]

theorem happensBefore_createThenWrite :
    ∃ steps e, replay (fun _ _ _ => True) [] createThenWrite = some (steps, e) ∧ HappensBefore steps 0 2 := by
  have hrun : (replay (fun _ _ _ => True) [] createThenWrite).isSome := by decide +kernel
  obtain ⟨⟨steps, e⟩, hsteps⟩ := Option.isSome_iff_exists.mp hrun
  have hclocks : (replay (fun _ _ _ => True) [] createThenWrite).map (fun result => result.1.map (·.vectorClock)) =
      some [some #v[0, 0, 0, 0, 0], none, some #v[0, 0, 1, 0, 0]] := by decide +kernel
  rw [hsteps, Option.map_some, Option.some.injEq] at hclocks
  obtain ⟨r, rest, rfl, hr, hrest⟩ := List.map_eq_cons_iff.mp hclocks
  obtain ⟨a, rest, rfl, -, hrest⟩ := List.map_eq_cons_iff.mp hrest
  obtain ⟨w, rest, rfl, hw, -⟩ := List.map_eq_cons_iff.mp hrest
  exact ⟨_, e, hsteps, happensBefore_of_not_isBefore (i := 0) (j := 2) (replay_taintRun hsteps) rfl rfl hr hw (by decide)⟩

end CapTaint
