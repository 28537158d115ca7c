import CapTaint.Klee.Constraints
import CapTaint.Klee.Range

/-! # The interpreter

`Executor::executeInstruction` for registers, branches and calls, and the runs of the states that come of it. What an
instruction does with values is a parameter: the values of the executor are expressions. Memory, switches, indirect and
external calls are left out. -/

namespace CapTaint.Klee.Interpreter

/-! ### Functions -/

/-- `vnumber`: an entry of the table of constants or a register of the frame. -/
inductive VNumber
  | constant (width : Nat) (pos : 0 < width) (value : BitVec width)
  | register (index : Nat)

inductive Inst
  | ret (value : Option VNumber)
  | br (successor : Nat)
  | condBr (cond : VNumber) (successor₀ successor₁ : Nat)
  /-- A direct call with the width of its type, unless that is void, the attribute of its result, and whether it has users. -/
  | call (f : Nat) (arguments : List VNumber) (type : Option Nat) (isSExt used : Bool)
  /-- The incoming blocks with their values. -/
  | phi (incoming : List (Nat × VNumber))
  | select (cond trueValue falseValue : VNumber)
  | arith (kind : ArithKind) (left right : VNumber)
  | icmp (predicate : Comparison) (left right : VNumber)
  | trunc (src : VNumber) (width : Nat)
  | zext (src : VNumber) (width : Nat)
  | sext (src : VNumber) (width : Nat)
  | intToPtr (src : VNumber) (width : Nat)
  | ptrToInt (src : VNumber) (width : Nat)
  | bitCast (src : VNumber)

structure KInstruction where
  dest : Nat
  /-- The block of the instruction. -/
  parent : Nat
  inst : Inst

/-- The arguments are in the first registers. -/
structure KFunction where
  numArgs : Nat
  instructions : List KInstruction
  basicBlockEntry : Nat → Option Nat

abbrev Module := List KFunction

/-! ### Threads -/

structure StackFrame (α : Type) where
  /-- The call in the frame below. -/
  caller : Option Nat
  kf : Nat
  locals : Nat → Option α

/-- The stack has the frame in use first. -/
structure Thread (α : Type) where
  stack : List (StackFrame α)
  prevPC : Nat
  pc : Nat
  incomingBBIndex : Nat

namespace Thread

variable {α : Type} (m : Module) (thread : Thread α)

def function? : Option KFunction := do m[(← thread.stack.head?).kf]?

/-- The instruction at the program counter. -/
def instruction? : Option KInstruction := do (← thread.function? m).instructions[thread.pc]?

def stepInstruction : Thread α := { thread with prevPC := thread.pc, pc := thread.pc + 1 }

def bindLocal (dest : Nat) (value : α) : Thread α :=
  match thread.stack with
  | [] => thread
  | sf :: stack => { thread with stack := { sf with locals := fun i => if i = dest then some value else sf.locals i } :: stack }

def transferToBasicBlock (dst src : Nat) : Option (Thread α) := do
  let kf ← thread.function? m
  let entry ← kf.basicBlockEntry dst
  let first ← kf.instructions[entry]?
  match first.inst with
  | .phi incoming => return { thread with pc := entry, incomingBBIndex := incoming.findIdx fun block => block.1 = src }
  | _ => return { thread with pc := entry }

def pushFrame (f numArgs : Nat) (arguments : List α) : Thread α :=
  { thread with
    stack := ⟨some thread.prevPC, f, fun i => if i < numArgs then arguments[i]? else none⟩ :: thread.stack
    pc := 0 }

/-- `popFrame`, with the call behind which the frame below goes on. -/
def popFrame : Option (KInstruction × Thread α) :=
  match thread.stack with
  | sf :: below :: stack => do
    let kcaller ← sf.caller
    let ki ← (← m[below.kf]?).instructions[kcaller]?
    return (ki, { thread with stack := below :: stack, pc := kcaller + 1 })
  | _ => none

end Thread

/-! ### Instructions over a domain of values -/

/-- What instructions do with values, and how an assertion fails. -/
structure Domain (M : Type → Type) (α : Type) where
  constant : (width : Nat) → BitVec width → α
  getWidth : α → Nat
  arith : ArithKind → α → α → M α
  icmp : Comparison → α → α → M α
  select : α → α → α → M α
  trunc : α → Nat → M α
  zext : α → Nat → M α
  sext : α → Nat → M α
  assertion : {β : Type} → M β

/-- What becomes of a thread: it goes on, its first function returns, or its state is terminated on an error. -/
inductive Next (α : Type)
  | goesOn (thread : Thread α)
  | exits
  | terminated

section
variable {M : Type → Type} [Monad M] {α : Type} (D : Domain M α) (m : Module) (thread : Thread α)

def orAssert {β : Type} : Option β → M β
  | some x => pure x
  | none => D.assertion

def eval : VNumber → M α
  | .constant width _ value => pure (D.constant width value)
  | .register index => orAssert D (thread.stack.head?.bind fun sf => sf.locals index)

def bind (ki : KInstruction) (result : α) : Next α := .goesOn (thread.bindLocal ki.dest result)

/-- A result of another width than the type of the call. -/
def coerce (isSExt : Bool) (width : Nat) (result : α) : M α :=
  if D.getWidth result = width then pure result
  else if isSExt then D.sext result width
  else D.zext result width

/-- `Ret` below a frame of the caller. -/
def returnTo (caller : KInstruction) (result : Option α) : M (Next α) :=
  match caller.inst, result with
  | .call _ _ (some width) isSExt _, some result => do return bind thread caller (← coerce D isSExt width result)
  | .call _ _ none _ _, some _ => return .goesOn thread
  | .call _ _ _ _ used, none => return if used then .terminated else .goesOn thread
  | _, _ => D.assertion

def executeRet (value : Option VNumber) : M (Next α) := do
  let result ← value.mapM (eval D thread)
  if thread.stack.length ≤ 1 then return .exits
  else
    let popped ← orAssert D (thread.popFrame m)
    returnTo D popped.2 popped.1 result

/-- `executeCall` of a function with a body. -/
def executeCall (f : Nat) (arguments : List VNumber) : M (Next α) := do
  let arguments ← arguments.mapM (eval D thread)
  let kf ← orAssert D m[f]?
  return if arguments.length < kf.numArgs then .terminated else .goesOn (thread.pushFrame f kf.numArgs arguments)

def executeBinary (ki : KInstruction) (create : α → α → M α) (left right : VNumber) : M (Next α) := do
  let left ← eval D thread left
  let right ← eval D thread right
  return bind thread ki (← create left right)

def executeCast (ki : KInstruction) (create : α → M α) (src : VNumber) : M (Next α) := do
  return bind thread ki (← create (← eval D thread src))

/-- The instructions that do not fork. -/
def execute (ki : KInstruction) : M (Next α) :=
  match ki.inst with
  | .ret value => executeRet D m thread value
  | .br successor => do return .goesOn (← orAssert D (thread.transferToBasicBlock m successor ki.parent))
  | .condBr _ _ _ => D.assertion
  | .call f arguments _ _ _ => executeCall D m thread f arguments
  | .phi incoming => do
    let entry ← orAssert D incoming[thread.incomingBBIndex]?
    executeCast D thread ki pure entry.2
  | .select cond trueValue falseValue => do
    let cond ← eval D thread cond
    executeBinary D thread ki (D.select cond) trueValue falseValue
  | .arith kind left right => executeBinary D thread ki (D.arith kind) left right
  | .icmp predicate left right => executeBinary D thread ki (D.icmp predicate) left right
  | .trunc src width => executeCast D thread ki (D.trunc · width) src
  | .zext src width | .intToPtr src width | .ptrToInt src width => executeCast D thread ki (D.zext · width) src
  | .sext src width => executeCast D thread ki (D.sext · width) src
  | .bitCast src => executeCast D thread ki pure src

end

/-! ### The executor -/

section
variable (opt useVisitorHash : Bool)

def expressions : Domain (Except Abort) Expr where
  constant width value := .constant width value
  getWidth := Expr.getWidth
  arith := createArith opt
  icmp predicate left right := createComparison opt left right predicate
  select := SelectExpr.create opt
  trunc e width := ExtractExpr.create e 0 width
  zext := ZExtExpr.create
  sext := SExtExpr.create
  assertion := .error .assertion

structure State where
  constraints : List Expr
  thread : Thread Expr
  /-- The first function has returned. -/
  exited : Bool

def addConstraint (st : State) (condition : Expr) : Except Abort State :=
  match condition with
  | .constant width value => if width = 1 ∧ value = 1 then .ok st else .error .assertion
  | _ => do
    return { st with constraints := ← ConstraintManager.addConstraint opt useVisitorHash st.constraints condition }

variable {σ : Type} (impl : SolverImpl σ) (m : Module)

/-- `TimingSolver::evaluate`. -/
def evaluate (st : State) (expr : Expr) (s : σ) : Except Abort (Option Validity × σ) :=
  match expr with
  | .constant width value => .ok (some (if width = 1 ∧ value = 1 then .True else .False), s)
  | _ => do
    let expr ← ConstraintManager.simplifyExpr opt useVisitorHash st.constraints expr
    Solver.evaluate impl ⟨st.constraints, expr⟩ s

/-- `Executor::fork`, without seeds, replay and limits. The copy is like the state, so it does not matter which is which. A
state about which the solver fails is terminated. -/
def fork (current : State) (condition : Expr) (s : σ) : Except Abort ((Option State × Option State) × σ) := do
  let (res, s) ← evaluate opt useVisitorHash impl current condition s
  match res with
  | none => return ((none, none), s)
  | some .True => return ((some current, none), s)
  | some .False => return ((none, some current), s)
  | some .Unknown =>
    let trueState ← addConstraint opt useVisitorHash current condition
    let falseState ← addConstraint opt useVisitorHash current (← condition.createIsZero opt)
    return ((some trueState, some falseState), s)

def State.transferToBasicBlock (dst src : Nat) (st : State) : Except Abort State := do
  return { st with thread := ← orAssert (expressions opt) (st.thread.transferToBasicBlock m dst src) }

def State.advance (st : State) : Next Expr → List State
  | .goesOn thread => [{ st with thread := thread }]
  | .exits => [{ st with exited := true }]
  | .terminated => []

def executeInstruction (ki : KInstruction) (st : State) (s : σ) : Except Abort (List State × σ) :=
  match ki.inst with
  | .condBr cond successor₀ successor₁ => do
    let cond ← eval (expressions opt) st.thread cond
    let (branches, s) ← fork opt useVisitorHash impl st cond s
    let first ← branches.1.mapM (State.transferToBasicBlock opt m successor₀ ki.parent)
    let second ← branches.2.mapM (State.transferToBasicBlock opt m successor₁ ki.parent)
    return (first.toList ++ second.toList, s)
  | _ => do return (st.advance (← execute (expressions opt) m st.thread ki), s)

/-- One round of the loop of `Executor::run` for a state that has been selected. -/
def step (st : State) (s : σ) : Except Abort (List State × σ) := do
  if st.exited then return ([st], s)
  else
    let ki ← orAssert (expressions opt) (st.thread.instruction? m)
    executeInstruction opt useVisitorHash impl m ki { st with thread := st.thread.stepInstruction } s

/-- The states after a searcher has selected those at the given positions. -/
def run : List Nat → List State → σ → Except Abort (List State × σ)
  | [], states, s => .ok (states, s)
  | i :: selections, states, s =>
    match states[i]? with
    | none => run selections states s
    | some st => do
      let (results, s) ← step opt useVisitorHash impl m st s
      run selections (states.take i ++ results ++ states.drop (i + 1)) s

end

end CapTaint.Klee.Interpreter
