import CapTaint.Executor

/-! # The replay for the taint analysis

`TaintListener` runs beside the executor. Of its work this module has the vector clocks, which are counted after the
calls that synchronise and recorded with each shared load and store, and the addresses of an object that are tainted. -/

namespace CapTaint

/-- `TaintListener::instructionExecuted` on the clocks: the recorded clock, if there is one. It asserts on a
    `pthread_barrier_wait`. -/
def TaintListener.instructionExecuted (e : Executor) (threadId : Nat) (inst : Inst) :
    Option (Option (Vector Nat 5) × Executor) :=
  match inst with
  | .load loc _ | .store loc _ => do
    let thread ← e.state.findThreadById threadId
    some (if loc.isGlobal then some thread.vectorClock else none, e)
  | .call (.pthreadCreate _) | .call (.pthreadJoin _) | .call (.pthreadCondWait _ _) | .call (.pthreadCondSignal _)
  | .call (.pthreadCondBroadcast _) => do
    let state ← e.state.tick threadId
    some (none, { e with state := state })
  | .call (.pthreadBarrierWait _) => none
  | _ => some (none, e)

/-- One executed instruction: its thread, what it did and the clock of its event. -/
structure TaintStep where
  threadId : Nat
  inst : Inst
  outcome : Outcome
  vectorClock : Option (Vector Nat 5)

/-- One round of `Executor::run` with the listener. -/
def Executor.taintStep (e : Executor) (threadId : Nat) (inst : Inst) (choice : Choice) : Option (TaintStep × Executor) := do
  let (outcome, e) ← e.step threadId inst choice
  let (vectorClock, e) ← TaintListener.instructionExecuted e threadId inst
  some ({ threadId := threadId, inst := inst, outcome := outcome, vectorClock := vectorClock }, e)

/-- The runs of the taint analysis whose steps meet `C`: the steps so far and the executor after them. Any thread that
    can run may be scheduled, so these are the runs of every scheduler, with and without a prefix. -/
inductive TaintRun (C : Executor → Nat → Inst → Prop) : List TaintStep → Executor → Prop
  | start : TaintRun C [] Executor.start
  | createSpecialElement {steps : List TaintStep} {e : Executor} (element : Executor.SpecialElement) :
      TaintRun C steps e → TaintRun C steps (e.createSpecialElement element)
  | step {steps : List TaintStep} {e e' : Executor} {threadId : Nat} {inst : Inst} {choice : Choice} {s : TaintStep} :
      TaintRun C steps e → C e threadId inst → e.taintStep threadId inst choice = some (s, e') →
      TaintRun C (steps ++ [s]) e'

/-- The run of the instructions `script`, each with its thread, after the objects `elements` were found; `none` if one of
    them is not possible or does not meet `C`. -/
def Executor.replay (C : Executor → Nat → Inst → Prop) [∀ e threadId inst, Decidable (C e threadId inst)]
    (elements : List Executor.SpecialElement) (script : List (Nat × Inst)) : Option (List TaintStep × Executor) :=
  script.foldlM
    (fun (steps, e) (threadId, inst) => do
      if C e threadId inst then
        let (s, e) ← e.taintStep threadId inst {}
        some (steps ++ [s], e)
      else none)
    ([], elements.foldl Executor.createSpecialElement Executor.start)

theorem Executor.replay_taintRun {C : Executor → Nat → Inst → Prop} [∀ e threadId inst, Decidable (C e threadId inst)]
    {elements : List Executor.SpecialElement} {script : List (Nat × Inst)} {steps : List TaintStep} {e : Executor}
    (h : Executor.replay C elements script = some (steps, e)) : TaintRun C steps e := by
  have hstart : ∀ (elements : List Executor.SpecialElement) (e : Executor), TaintRun C [] e →
      TaintRun C [] (elements.foldl Executor.createSpecialElement e) := by
    intro elements
    induction elements with
    | nil => exact fun e he => he
    | cons element elements ih => exact fun e he => ih _ (.createSpecialElement element he)
  have hrun : ∀ (script : List (Nat × Inst)) (before : List TaintStep) (e₀ : Executor), TaintRun C before e₀ →
      script.foldlM
        (fun (steps, e) (threadId, inst) => do
          if C e threadId inst then
            let (s, e) ← e.taintStep threadId inst {}
            some (steps ++ [s], e)
          else none)
        (before, e₀) = some (steps, e) → TaintRun C steps e := by
    intro script
    induction script with
    | nil =>
      intro before e₀ h₀ hfold
      obtain ⟨rfl, rfl⟩ := Prod.mk.inj (Option.some.inj hfold)
      exact h₀
    | cons entry script ih =>
      intro before e₀ h₀ hfold
      obtain ⟨threadId, inst⟩ := entry
      rw [List.foldlM_cons] at hfold
      obtain ⟨⟨steps', e₁⟩, hone, hrest⟩ := Option.bind_eq_some_iff.mp hfold
      simp only at hone
      split at hone
      swap
      · cases hone
      next hC =>
      obtain ⟨⟨s, e₂⟩, hstep, hone⟩ := Option.bind_eq_some_iff.mp hone
      obtain ⟨rfl, rfl⟩ := Prod.mk.inj (Option.some.inj hone)
      exact ih _ _ (.step h₀ hC hstep) hrest
  exact hrun script [] _ (hstart elements _ .start) h

/-! ## The taint of an object -/

/-- The addresses that the taint analysis keeps with an object. -/
structure ObjectState where
  isTaint : Std.TreeSet Nat := ∅

namespace ObjectState

def insertTaint (os : ObjectState) (address : Nat) : ObjectState := { os with isTaint := os.isTaint.insert address }

def eraseTaint (os : ObjectState) (address : Nat) : ObjectState := { os with isTaint := os.isTaint.erase address }

end ObjectState

/-- The bytes of an access. -/
structure Extent where
  address : Nat
  width : Nat
  pos : 0 < width
  deriving Repr, DecidableEq

/-- An operation on the object; `isTaint` says whether the stored value is tainted. -/
inductive MemoryOp
  | store (extent : Extent) (isTaint : Bool)
  | load (extent : Extent)
  | makeTaint (extent : Extent)
  deriving Repr, DecidableEq

/-- What `TaintListener` does with the object; a load only looks at it. -/
def TaintListener.access (os : ObjectState) : MemoryOp → ObjectState
  | .store extent true => os.insertTaint extent.address
  | .store extent false => os.eraseTaint extent.address
  | .load _ => os
  | .makeTaint extent => os.insertTaint extent.address

/-- The object after the operations, which are in the order of the run. -/
def ObjectState.after (ops : List MemoryOp) : ObjectState := ops.foldl TaintListener.access {}

/-- Whether a load after `ops` is marked as tainted. -/
def TaintListener.loadIsTaint (ops : List MemoryOp) (extent : Extent) : Bool :=
  extent.address ∈ (ObjectState.after ops).isTaint

end CapTaint
