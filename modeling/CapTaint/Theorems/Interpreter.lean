import CapTaint.Lib.Forking
import CapTaint.Klee.Interpreter
import CapTaint.Theorems.CachingSolver
import CapTaint.Theorems.Constraints
import CapTaint.Theorems.Constructors

/-! # Symbolic execution

The machine runs a program on integers. Each of its runs is followed by exactly one of the states that the executor forks
into: the one whose constraints the inputs of the run satisfy. -/

namespace CapTaint.Klee.Interpreter

open Forking

/-! ### The machine -/

/-- An integer of a width. -/
structure Value where
  width : Nat
  bits : BitVec width

/-- What the instructions of the language mean. A division by zero and operands of other widths are undefined. -/
def integers : Domain Option Value where
  constant width value := ⟨width, value⟩
  getWidth := Value.width
  arith kind x y :=
    if x.width = y.width ∧ ¬(divides kind = true ∧ y.bits.toNat = 0) then some ⟨x.width, kind.eval x.bits (y.bits.setWidth x.width)⟩
    else none
  icmp predicate x y :=
    if x.width = y.width then some ⟨1, BitVec.ofBool (predicate.eval x.bits (y.bits.setWidth x.width))⟩ else none
  select c x y := if c.width = 1 ∧ x.width = y.width then some (if c.bits.toNat = 1 then x else y) else none
  trunc x width := if 0 < width ∧ width ≤ x.width then some ⟨width, x.bits.setWidth width⟩ else none
  zext x width := if 0 < width then some ⟨width, x.bits.setWidth width⟩ else none
  sext x width := if 0 < width then some ⟨width, x.bits.signExtend width⟩ else none
  assertion := none

namespace Machine

structure State where
  thread : Thread Value
  exited : Bool

def State.advance (c : State) : Next Value → Option State
  | .goesOn thread => some { c with thread := thread }
  | .exits => some { c with exited := true }
  | .terminated => none

variable (m : Module)

def executeInstruction (ki : KInstruction) (c : State) : Option State :=
  match ki.inst with
  | .condBr cond successor₀ successor₁ => do
    let cond ← eval integers c.thread cond
    if cond.width = 1 then
      return { c with thread := ← c.thread.transferToBasicBlock m (if cond.bits.toNat = 1 then successor₀ else successor₁) ki.parent }
    else none
  | _ => do c.advance (← execute integers m c.thread ki)

def step (c : State) : Option State :=
  if c.exited then some c
  else do
    let ki ← c.thread.instruction? m
    executeInstruction m ki { c with thread := c.thread.stepInstruction }

/-- The state after a number of steps, if they are defined. -/
def run : Nat → State → Option State
  | 0, c => some c
  | n + 1, c => do run n (← step m c)

end Machine

/-! ### Related threads -/

section
variable {α β : Type}

structure StackFrame.Related (R : α → β → Prop) (sf : StackFrame α) (sf' : StackFrame β) : Prop where
  caller : sf.caller = sf'.caller
  kf : sf.kf = sf'.kf
  locals : ∀ i, Option.Rel R (sf.locals i) (sf'.locals i)

structure Thread.Related (R : α → β → Prop) (thread : Thread α) (thread' : Thread β) : Prop where
  stack : List.Forall₂ (StackFrame.Related R) thread.stack thread'.stack
  prevPC : thread.prevPC = thread'.prevPC
  pc : thread.pc = thread'.pc
  incomingBBIndex : thread.incomingBBIndex = thread'.incomingBBIndex

inductive Next.Related (R : α → β → Prop) : Next α → Next β → Prop
  | goesOn {thread : Thread α} {thread' : Thread β} (h : thread.Related R thread') : Next.Related R (.goesOn thread) (.goesOn thread')
  | exits : Next.Related R .exits .exits
  | terminated : Next.Related R .terminated .terminated

variable {R : α → β → Prop} {thread : Thread α} {thread' : Thread β}

namespace Thread.Related

theorem head? (h : thread.Related R thread') : Option.Rel (StackFrame.Related R) thread.stack.head? thread'.stack.head? := by
  have hstack := h.stack
  generalize thread.stack = stack at hstack
  generalize thread'.stack = stack' at hstack
  cases hstack with
  | nil => exact .none
  | cons hsf _ => exact .some hsf

theorem function?_eq (h : thread.Related R thread') (m : Module) : thread.function? m = thread'.function? m := by
  unfold function?
  have hhead := h.head?
  generalize thread.stack.head? = top at hhead ⊢
  generalize thread'.stack.head? = top' at hhead ⊢
  cases hhead with
  | none => rfl
  | some hsf => rw [Option.bind_eq_bind, Option.bind_some, Option.bind_eq_bind, Option.bind_some, hsf.kf]

theorem instruction?_eq (h : thread.Related R thread') (m : Module) : thread.instruction? m = thread'.instruction? m := by
  rw [instruction?, instruction?, h.function?_eq m, h.pc]

theorem stepInstruction (h : thread.Related R thread') : thread.stepInstruction.Related R thread'.stepInstruction :=
  ⟨h.stack, h.pc, congrArg (· + 1) h.pc, h.incomingBBIndex⟩

theorem bindLocal (h : thread.Related R thread') (dest : Nat) {x : α} {y : β} (hxy : R x y) :
    (thread.bindLocal dest x).Related R (thread'.bindLocal dest y) := by
  obtain ⟨stack, prevPC, pc, incoming⟩ := thread
  obtain ⟨stack', prevPC', pc', incoming'⟩ := thread'
  obtain ⟨hstack, hprev, hpc, hincoming⟩ := h
  cases hstack with
  | nil => exact ⟨.nil, hprev, hpc, hincoming⟩
  | cons hsf hrest =>
    refine ⟨.cons ⟨hsf.caller, hsf.kf, fun i => ?_⟩ hrest, hprev, hpc, hincoming⟩
    show Option.Rel R (if i = dest then some x else _) (if i = dest then some y else _)
    split
    exacts [.some hxy, hsf.locals i]

theorem transferToBasicBlock (h : thread.Related R thread') (m : Module) (dst src : Nat) :
    Option.Rel (Thread.Related R) (thread.transferToBasicBlock m dst src) (thread'.transferToBasicBlock m dst src) := by
  unfold Thread.transferToBasicBlock
  rw [h.function?_eq m]
  cases thread'.function? m with
  | none => exact .none
  | some kf =>
    simp only [Option.bind_eq_bind, Option.bind_some]
    cases kf.basicBlockEntry dst with
    | none => exact .none
    | some entry =>
      simp only [Option.bind_some]
      cases kf.instructions[entry]? with
      | none => exact .none
      | some first =>
        simp only [Option.bind_some]
        split
        · exact .some ⟨h.stack, h.prevPC, rfl, rfl⟩
        · exact .some ⟨h.stack, h.prevPC, rfl, h.incomingBBIndex⟩

theorem pushFrame (h : thread.Related R thread') (f numArgs : Nat) {xs : List α} {ys : List β} (hxs : List.Forall₂ R xs ys) :
    (thread.pushFrame f numArgs xs).Related R (thread'.pushFrame f numArgs ys) := by
  refine ⟨.cons ⟨congrArg some h.prevPC, rfl, fun i => ?_⟩ h.stack, h.prevPC, rfl, h.incomingBBIndex⟩
  show Option.Rel R (if i < numArgs then _ else none) (if i < numArgs then _ else none)
  split
  case isFalse => exact .none
  case isTrue =>
    rcases Nat.lt_or_ge i xs.length with hi | hi
    · have hi' : i < ys.length := hxs.length_eq ▸ hi
      rw [List.getElem?_eq_getElem hi, List.getElem?_eq_getElem hi']
      exact .some (hxs.get hi hi')
    · rw [List.getElem?_eq_none hi, List.getElem?_eq_none (hxs.length_eq ▸ hi)]
      exact .none

theorem popFrame (h : thread.Related R thread') (m : Module) :
    Option.Rel (fun x y => x.1 = y.1 ∧ x.2.Related R y.2) (thread.popFrame m) (thread'.popFrame m) := by
  obtain ⟨stack, prevPC, pc, incoming⟩ := thread
  obtain ⟨stack', prevPC', pc', incoming'⟩ := thread'
  obtain ⟨hstack, hprev, hpc, hincoming⟩ := h
  cases hstack with
  | nil => exact .none
  | cons hsf hrest =>
    cases hrest with
    | nil => exact .none
    | @cons below below' _ _ hbelow hrest =>
      simp only [Thread.popFrame, hsf.caller, hbelow.kf]
      cases StackFrame.caller _ with
      | none => exact .none
      | some kcaller =>
        simp only [Option.bind_eq_bind, Option.bind_some]
        cases m[below'.kf]? with
        | none => exact .none
        | some kf =>
          simp only [Option.bind_some]
          cases kf.instructions[kcaller]? with
          | none => exact .none
          | some ki => exact .some ⟨rfl, .cons hbelow hrest, hprev, rfl, hincoming⟩

end Thread.Related

/-! ### Related domains -/

/-- Whenever the operation of the second domain has a result, that of the first one has a related one. -/
structure Domain.Refines (D : Domain (Except Abort) α) (D' : Domain Option β) (R : α → β → Prop) : Prop where
  constant : ∀ width value, 0 < width → R (D.constant width value) (D'.constant width value)
  getWidth : ∀ {x y}, R x y → D.getWidth x = D'.getWidth y
  arith : ∀ kind {l l' r r'}, R l l' → R r r' → Computes R (D.arith kind l r) (D'.arith kind l' r')
  icmp : ∀ predicate {l l' r r'}, R l l' → R r r' → Computes R (D.icmp predicate l r) (D'.icmp predicate l' r')
  select : ∀ {c c' t t' e e'}, R c c' → R t t' → R e e' → Computes R (D.select c t e) (D'.select c' t' e')
  trunc : ∀ {x y} width, R x y → Computes R (D.trunc x width) (D'.trunc y width)
  zext : ∀ {x y} width, R x y → Computes R (D.zext x width) (D'.zext y width)
  sext : ∀ {x y} width, R x y → Computes R (D.sext x width) (D'.sext y width)
  assertion : ∀ {γ : Type}, (D'.assertion : Option γ) = none

namespace Domain.Refines

variable {D : Domain (Except Abort) α} {D' : Domain Option β}

theorem orAssert (hD : D.Refines D' R) {γ δ : Type} {S : γ → δ → Prop} {x : Option γ} {y : Option δ} (h : Option.Rel S x y) :
    Computes S (Interpreter.orAssert D x) (Interpreter.orAssert D' y) := by
  cases h with
  | none =>
    rw [Interpreter.orAssert, Interpreter.orAssert, hD.assertion]
    exact .none
  | some h => exact .pure h

theorem orAssert_eq (hD : D.Refines D' R) {γ : Type} (x : Option γ) :
    Computes Eq (Interpreter.orAssert D x) (Interpreter.orAssert D' x) := by
  refine hD.orAssert ?_
  cases x with
  | none => exact .none
  | some x => exact .some rfl

theorem eval (hD : D.Refines D' R) (h : thread.Related R thread') (x : VNumber) :
    Computes R (Interpreter.eval D thread x) (Interpreter.eval D' thread' x) := by
  cases x with
  | constant width pos value => exact .pure (hD.constant width value pos)
  | register index =>
    refine hD.orAssert ?_
    have hhead := h.head?
    generalize thread.stack.head? = top at hhead ⊢
    generalize thread'.stack.head? = top' at hhead ⊢
    cases hhead with
    | none => exact .none
    | some hsf => exact hsf.locals index

theorem coerce (hD : D.Refines D' R) (isSExt : Bool) (width : Nat) {x : α} {y : β} (h : R x y) :
    Computes R (Interpreter.coerce D isSExt width x) (Interpreter.coerce D' isSExt width y) := by
  unfold Interpreter.coerce
  rw [hD.getWidth h]
  split
  case isTrue => exact .pure h
  case isFalse =>
    split
    exacts [hD.sext width h, hD.zext width h]

theorem bind (h : thread.Related R thread') (ki : KInstruction) {x : α} {y : β} (hxy : R x y) :
    Next.Related R (Interpreter.bind thread ki x) (Interpreter.bind thread' ki y) := .goesOn (h.bindLocal ki.dest hxy)

theorem returnTo (hD : D.Refines D' R) (h : thread.Related R thread') (caller : KInstruction) {x : Option α} {y : Option β}
    (hxy : Option.Rel R x y) :
    Computes (Next.Related R) (Interpreter.returnTo D thread caller x) (Interpreter.returnTo D' thread' caller y) := by
  have hfails : Computes (Next.Related R) (D.assertion : Except Abort (Next α)) (D'.assertion : Option (Next β)) := by
    rw [hD.assertion]
    exact .none
  unfold Interpreter.returnTo
  cases hinst : caller.inst with
  | call f arguments type isSExt used =>
    cases hxy with
    | none =>
      cases type <;> cases used
      exacts [.pure (.goesOn h), .pure .terminated, .pure (.goesOn h), .pure .terminated]
    | some hxy =>
      cases type with
      | none => exact .pure (.goesOn h)
      | some width => exact (hD.coerce isSExt width hxy).bind fun a b hab => .pure (bind h caller hab)
  | _ => cases hxy <;> exact hfails

theorem executeRet (hD : D.Refines D' R) (m : Module) (h : thread.Related R thread') (value : Option VNumber) :
    Computes (Next.Related R) (Interpreter.executeRet D m thread value) (Interpreter.executeRet D' m thread' value) := by
  unfold Interpreter.executeRet
  refine (Computes.mapM_option value fun x => hD.eval h x).bind fun x y hxy => ?_
  rw [h.stack.length_eq]
  split
  case isTrue => exact .pure .exits
  case isFalse =>
    refine (hD.orAssert (h.popFrame m)).bind fun popped popped' hpopped => ?_
    rw [hpopped.1]
    exact hD.returnTo hpopped.2 popped'.1 hxy

theorem executeCall (hD : D.Refines D' R) (m : Module) (h : thread.Related R thread') (f : Nat) (arguments : List VNumber) :
    Computes (Next.Related R) (Interpreter.executeCall D m thread f arguments) (Interpreter.executeCall D' m thread' f arguments) := by
  unfold Interpreter.executeCall
  refine (Computes.mapM arguments fun x _ => hD.eval h x).bind fun xs ys hxs => ?_
  refine (hD.orAssert_eq m[f]?).bind fun kf kf' hkf => ?_
  subst hkf
  rw [hxs.length_eq]
  split
  exacts [.pure .terminated, .pure (.goesOn (h.pushFrame f kf.numArgs hxs))]

theorem executeBinary (hD : D.Refines D' R) (h : thread.Related R thread') (ki : KInstruction) {create : α → α → Except Abort α}
    {create' : β → β → Option β} (hcreate : ∀ {l l' r r'}, R l l' → R r r' → Computes R (create l r) (create' l' r'))
    (left right : VNumber) :
    Computes (Next.Related R) (Interpreter.executeBinary D thread ki create left right)
      (Interpreter.executeBinary D' thread' ki create' left right) := by
  unfold Interpreter.executeBinary
  refine (hD.eval h left).bind fun l l' hl => (hD.eval h right).bind fun r r' hr => ?_
  exact (hcreate hl hr).bind fun x y hxy => .pure (bind h ki hxy)

theorem executeCast (hD : D.Refines D' R) (h : thread.Related R thread') (ki : KInstruction) {create : α → Except Abort α}
    {create' : β → Option β} (hcreate : ∀ {x y}, R x y → Computes R (create x) (create' y)) (src : VNumber) :
    Computes (Next.Related R) (Interpreter.executeCast D thread ki create src) (Interpreter.executeCast D' thread' ki create' src) := by
  unfold Interpreter.executeCast
  exact (hD.eval h src).bind fun x y hxy => (hcreate hxy).bind fun x y hxy => .pure (bind h ki hxy)

theorem execute (hD : D.Refines D' R) (m : Module) (h : thread.Related R thread') (ki : KInstruction) :
    Computes (Next.Related R) (Interpreter.execute D m thread ki) (Interpreter.execute D' m thread' ki) := by
  unfold Interpreter.execute
  cases ki.inst with
  | ret value => exact hD.executeRet m h value
  | br successor =>
    exact (hD.orAssert (h.transferToBasicBlock m successor ki.parent)).bind fun x y hxy => .pure (.goesOn hxy)
  | condBr cond successor₀ successor₁ =>
    show Computes _ _ (D'.assertion : Option (Next β))
    rw [hD.assertion]
    exact .none
  | call f arguments type isSExt used => exact hD.executeCall m h f arguments
  | phi incoming =>
    show Computes _ (Interpreter.orAssert D _ >>= _) (Interpreter.orAssert D' _ >>= _)
    rw [h.incomingBBIndex]
    refine (hD.orAssert_eq _).bind fun entry entry' hentry => ?_
    subst hentry
    exact hD.executeCast h ki (fun hxy => .pure hxy) entry.2
  | select cond trueValue falseValue =>
    exact (hD.eval h cond).bind fun c c' hc => hD.executeBinary h ki (hD.select hc) trueValue falseValue
  | arith kind left right => exact hD.executeBinary h ki (hD.arith kind) left right
  | icmp predicate left right => exact hD.executeBinary h ki (hD.icmp predicate) left right
  | trunc src width => exact hD.executeCast h ki (hD.trunc width) src
  | zext src width | intToPtr src width | ptrToInt src width => exact hD.executeCast h ki (hD.zext width) src
  | sext src width => exact hD.executeCast h ki (hD.sext width) src
  | bitCast src => exact hD.executeCast h ki (fun hxy => .pure hxy) src

end Domain.Refines

end

/-! ### Expressions and integers -/

section
variable {opt : Bool} {v : Valuation} {e l r : Expr} {x y : Value}

/-- The expression has the integer as its value under the valuation. -/
structure Represents (opt : Bool) (v : Valuation) (e : Expr) (x : Value) : Prop extends Operand opt v x.width e where
  bits : e.bits v x.width = x.bits

theorem Evaluates.follows {w : Nat} {z : BitVec w} {result : Created} (h : Evaluates opt v w z.toNat result) :
    Computes (Represents opt v) result (some ⟨w, z⟩) := by
  intro b hb
  obtain rfl := Option.some.inj hb
  obtain ⟨e, rfl, hoperand, hvalue⟩ := h
  exact ⟨e, rfl, hoperand, BitVec.eq_of_toNat_eq (hoperand.toNat_bits.trans hvalue)⟩

theorem Represents.value_eq (h : Represents opt v e x) : e.value v = x.bits.toNat := by
  rw [← h.toOperand.toNat_bits, h.bits]

/-- The functions of `Expr.cpp` compute with expressions what the instructions compute with integers. -/
theorem expressions_refines (opt : Bool) (v : Valuation) : (expressions opt).Refines integers (Represents opt v) where
  constant width value hpos := ⟨⟨.constant hpos value, trivial⟩, Expr.bits_constant value⟩
  getWidth h := h.width
  arith kind l l' r r' hl hr := by
    obtain ⟨w, x⟩ := l'
    obtain ⟨w', y⟩ := r'
    show Computes _ _ (if w = w' ∧ ¬(divides kind = true ∧ y.toNat = 0) then _ else none)
    split
    case isFalse => exact .none
    case isTrue hdefined =>
      obtain ⟨rfl, hdivisor⟩ := hdefined
      refine Evaluates.follows ?_
      rw [BitVec.setWidth_eq]
      have h := arith_evaluates kind hl.toOperand hr.toOperand fun hdiv hzero =>
        hdivisor ⟨hdiv, hr.value_eq.symm.trans hzero⟩
      rwa [hl.bits, hr.bits] at h
  icmp predicate l l' r r' hl hr := by
    obtain ⟨w, x⟩ := l'
    obtain ⟨w', y⟩ := r'
    show Computes _ _ (if w = w' then _ else none)
    split
    case isFalse => exact .none
    case isTrue heq =>
      subst heq
      refine Evaluates.follows ?_
      rw [BitVec.setWidth_eq, BitVec.toNat_ofBool]
      have h := compare_evaluates predicate hl.toOperand hr.toOperand
      rwa [hl.bits, hr.bits] at h
  select {c c' t t' f f'} hc ht hf := by
    obtain ⟨wc, b⟩ := c'
    obtain ⟨w, x⟩ := t'
    obtain ⟨w', y⟩ := f'
    show Computes _ _ (if wc = 1 ∧ w = w' then some (if b.toNat = 1 then _ else _) else none)
    split
    case isFalse => exact .none
    case isTrue heq =>
      obtain ⟨rfl, rfl⟩ := heq
      have h := select_evaluates hc.toOperand ht.toOperand hf.toOperand
      rw [hc.value_eq, ht.value_eq, hf.value_eq] at h
      split
      case isTrue hone => exact Evaluates.follows (by rwa [if_pos hone] at h)
      case isFalse hzero => exact Evaluates.follows (by rwa [if_neg hzero] at h)
  trunc {e x} width h := by
    obtain ⟨k, x⟩ := x
    show Computes _ _ (if 0 < width ∧ width ≤ k then _ else none)
    split
    case isFalse => exact .none
    case isTrue hwidth =>
      refine Evaluates.follows ?_
      rw [BitVec.setWidth_eq_extractLsb' hwidth.2, ← h.bits]
      exact extract_evaluates h.toOperand hwidth.1 (by omega)
  zext {e x} width h := by
    obtain ⟨k, x⟩ := x
    show Computes _ _ (if 0 < width then _ else none)
    split
    case isFalse => exact .none
    case isTrue hwidth =>
      refine Evaluates.follows ?_
      have hcreate := zext_evaluates h.toOperand hwidth
      rwa [h.bits] at hcreate
  sext {e x} width h := by
    obtain ⟨k, x⟩ := x
    show Computes _ _ (if 0 < width then _ else none)
    split
    case isFalse => exact .none
    case isTrue hwidth =>
      refine Evaluates.follows ?_
      have hcreate := sext_evaluates h.toOperand hwidth
      rwa [h.bits] at hcreate
  assertion := rfl

end

/-! ### Types -/

/-- The widths of the registers of each function. -/
abbrev Types := Nat → Nat → Nat

def VNumber.HasWidth (types : Nat → Nat) (w : Nat) : VNumber → Prop
  | .constant width _ _ => width = w
  | .register index => types index = w

/-- The operands and the result of an instruction of the function `f` have the types that the verifier asks for. -/
def Inst.WellTyped (types : Types) (f dest : Nat) : Inst → Prop
  | .ret _ | .br _ => True
  | .condBr cond _ _ => cond.HasWidth (types f) 1
  | .call g arguments type _ _ =>
    (∀ (i : Nat) (argument : VNumber), arguments[i]? = some argument → argument.HasWidth (types f) (types g i)) ∧
      ∀ width, type = some width → 0 < width ∧ types f dest = width
  | .phi incoming => ∀ entry ∈ incoming, entry.2.HasWidth (types f) (types f dest)
  | .select cond trueValue falseValue => cond.HasWidth (types f) 1 ∧ trueValue.HasWidth (types f) (types f dest) ∧
    falseValue.HasWidth (types f) (types f dest)
  | .arith _ left right => left.HasWidth (types f) (types f dest) ∧ right.HasWidth (types f) (types f dest)
  | .icmp _ left right => types f dest = 1 ∧ ∃ w, left.HasWidth (types f) w ∧ right.HasWidth (types f) w
  | .trunc src width => 0 < width ∧ types f dest = width ∧ ∃ k, src.HasWidth (types f) k ∧ width ≤ k
  | .zext _ width | .sext _ width | .intToPtr _ width | .ptrToInt _ width => 0 < width ∧ types f dest = width
  | .bitCast src => src.HasWidth (types f) (types f dest)

def Module.WellTyped (types : Types) (m : Module) : Prop :=
  ∀ (f : Nat) (kf : KFunction), m[f]? = some kf → ∀ ki ∈ kf.instructions, ki.inst.WellTyped types f ki.dest

/-- The registers hold expressions of their widths. -/
def Thread.Typed (types : Types) (thread : Thread Expr) : Prop :=
  ∀ sf ∈ thread.stack, ∀ i e, sf.locals i = some e → e.Typed (types sf.kf i)

def Next.Typed (types : Types) : Next Expr → Prop
  | .goesOn thread => thread.Typed types
  | _ => True

section
variable {opt : Bool} {types : Types} {w k : Nat} {e l r c : Expr}

theorem ensures_of_produces {n : Expr} {result : Created} (h : Produces opt (fun _ => True) w n result) :
    Ensures (Expr.Typed w) result := by
  intro e he
  obtain ⟨e', rfl, hrewrites⟩ := h
  obtain rfl := Except.ok.inj he
  exact hrewrites.typed

theorem ensures_of_evaluates {v : Valuation} {x : Nat} {result : Created} (h : Evaluates opt v w x result) :
    Ensures (Expr.Typed w) result := by
  intro e he
  obtain ⟨e', rfl, hoperand, -⟩ := h
  obtain rfl := Except.ok.inj he
  exact hoperand.toTyped

/-- Without the option there is no condition on the reads. -/
theorem operand_of_typed (h : e.Typed w) (v : Valuation) : Operand false v w e := ⟨h, Expr.sound_any e⟩

theorem ensures_arith (kind : ArithKind) (hl : l.Typed w) (hr : r.Typed w) : Ensures (Expr.Typed w) (createArith opt kind l r) := by
  by_cases hdivisor : Divisor kind w l r
  · exact ensures_of_produces (createArith_spec kind hl hr hdivisor)
  · -- a constant is divided by the constant zero
    simp only [Divisor, Classical.not_imp, not_not] at hdivisor
    obtain ⟨hdiv, hconstant, rfl⟩ := hdivisor
    obtain ⟨value, rfl⟩ := hl.constant_or.resolve_right (by rw [hconstant]; exact Bool.noConfusion)
    have hfold : createArith opt kind (.constant w value) (.constant w 0) = foldArith kind value (0 : BitVec w) := by
      cases kind with
      | udiv | sdiv | urem | srem => exact if_neg (not_not.mpr rfl)
      | _ => cases hdiv
    rw [hfold, foldArith, if_pos ⟨hdiv, rfl⟩]
    exact .error _

theorem ensures_zext (h : e.Typed k) (hw : 0 < w) : Ensures (Expr.Typed w) (ZExtExpr.create e w) :=
  ensures_of_evaluates (zext_evaluates (operand_of_typed h fun _ _ => 0) hw)

theorem ensures_sext (h : e.Typed k) (hw : 0 < w) : Ensures (Expr.Typed w) (SExtExpr.create e w) :=
  ensures_of_evaluates (sext_evaluates (operand_of_typed h fun _ _ => 0) hw)

theorem Thread.Typed.bindLocal {thread : Thread Expr} (h : thread.Typed types) {dest : Nat}
    (he : ∀ sf ∈ thread.stack.head?, e.Typed (types sf.kf dest)) : (thread.bindLocal dest e).Typed types := by
  obtain ⟨stack, prevPC, pc, incoming⟩ := thread
  cases stack with
  | nil => exact h
  | cons sf stack =>
    obtain ⟨hsf, hstack⟩ := List.forall_mem_cons.mp h
    refine List.forall_mem_cons.mpr ⟨fun i e' hi => ?_, hstack⟩
    have hlocal : (if i = dest then some e else sf.locals i) = some e' := hi
    by_cases heq : i = dest
    · subst heq
      rw [if_pos rfl] at hlocal
      obtain rfl := Option.some.inj hlocal
      exact he sf rfl
    · rw [if_neg heq] at hlocal
      exact hsf i e' hlocal

theorem Thread.Typed.transferToBasicBlock {m : Module} {thread thread' : Thread Expr} {dst src : Nat} (h : thread.Typed types)
    (htransfer : thread.transferToBasicBlock m dst src = some thread') : thread'.Typed types := by
  obtain ⟨kf, -, htransfer⟩ := Option.bind_eq_some_iff.mp htransfer
  obtain ⟨entry, -, htransfer⟩ := Option.bind_eq_some_iff.mp htransfer
  obtain ⟨first, -, htransfer⟩ := Option.bind_eq_some_iff.mp htransfer
  split at htransfer <;>
  · obtain rfl := Option.some.inj htransfer
    exact h

theorem ensures_orAssert {α : Type} {P : α → Prop} {x : Option α} (h : ∀ a, x = some a → P a) :
    Ensures P (orAssert (expressions opt) x) := by
  cases x with
  | none => exact .error _
  | some a => exact .pure (h a rfl)

/-- The frame in use executes the instruction. -/
structure Executes (types : Types) (m : Module) (thread : Thread Expr) (ki : KInstruction) (sf : StackFrame Expr) : Prop where
  module : m.WellTyped types
  typed : thread.Typed types
  frame : thread.stack.head? = some sf
  inst : ki.inst.WellTyped types sf.kf ki.dest

section
variable {m : Module} {thread : Thread Expr} {ki : KInstruction} {sf : StackFrame Expr}

namespace Executes

theorem ensures_eval (h : Executes types m thread ki sf) {x : VNumber} (hx : x.HasWidth (types sf.kf) w) :
    Ensures (Expr.Typed w) (eval (expressions opt) thread x) := by
  cases x with
  | constant width pos value =>
    obtain rfl : width = w := hx
    exact .pure (.constant pos value)
  | register index =>
    obtain rfl : types sf.kf index = w := hx
    rw [eval, h.frame]
    exact ensures_orAssert fun e he => h.typed sf (List.mem_of_mem_head? h.frame) index e he

theorem typed_bind (h : Executes types m thread ki sf) (he : e.Typed (types sf.kf ki.dest)) : (bind thread ki e).Typed types :=
  h.typed.bindLocal fun sf' hsf' => by
    obtain rfl := Option.some.inj (h.frame.symm.trans hsf')
    exact he

theorem ensures_binary (h : Executes types m thread ki sf) {create : Expr → Expr → Created} {left right : VNumber} {wl wr : Nat}
    (hleft : left.HasWidth (types sf.kf) wl) (hright : right.HasWidth (types sf.kf) wr)
    (hcreate : ∀ {l r : Expr}, l.Typed wl → r.Typed wr → Ensures (Expr.Typed (types sf.kf ki.dest)) (create l r)) :
    Ensures (Next.Typed types) (executeBinary (expressions opt) thread ki create left right) :=
  (h.ensures_eval hleft).bind fun _ hl => (h.ensures_eval hright).bind fun _ hr => (hcreate hl hr).bind fun _ he =>
    .pure (h.typed_bind he)

theorem ensures_cast (h : Executes types m thread ki sf) {create : Expr → Created} {src : VNumber}
    (hsrc : src.HasWidth (types sf.kf) k)
    (hcreate : ∀ {e : Expr}, e.Typed k → Ensures (Expr.Typed (types sf.kf ki.dest)) (create e)) :
    Ensures (Next.Typed types) (executeCast (expressions opt) thread ki create src) :=
  (h.ensures_eval hsrc).bind fun _ he => (hcreate he).bind fun _ he => .pure (h.typed_bind he)

theorem exists_width (types : Nat → Nat) (x : VNumber) : ∃ k, x.HasWidth types k := by
  cases x with
  | constant width => exact ⟨width, rfl⟩
  | register index => exact ⟨types index, rfl⟩

theorem ensures_ret (h : Executes types m thread ki sf) (value : Option VNumber) :
    Ensures (Next.Typed types) (executeRet (expressions opt) m thread value) := by
  have hresult : Ensures (fun result : Option Expr => ∀ e ∈ result, ∃ k, e.Typed k) (value.mapM (eval (expressions opt) thread)) := by
    cases value with
    | none => exact .pure (by simp)
    | some x =>
      obtain ⟨k, hk⟩ := exists_width (types sf.kf) x
      intro result hresult
      cases heval : eval (expressions opt) thread x with
      | error a =>
        rw [Option.mapM, heval] at hresult
        cases hresult
      | ok e =>
        rw [Option.mapM, heval] at hresult
        obtain rfl := Except.ok.inj hresult
        intro e' he'
        obtain rfl := Option.some.inj he'
        exact ⟨k, h.ensures_eval hk e heval⟩
  refine hresult.bind fun result hresult => ?_
  split
  case isTrue => exact .pure trivial
  case isFalse =>
    refine (ensures_orAssert (P := fun popped => ∃ below kf stack, thread.stack.tail = below :: stack ∧ m[below.kf]? = some kf ∧
      popped.1 ∈ kf.instructions ∧ popped.2.stack = below :: stack) fun popped hpopped => ?_).bind fun popped hpopped => ?_
    · unfold Thread.popFrame at hpopped
      split at hpopped
      case h_1 sf' below stack hstack =>
        obtain ⟨kcaller, -, hpopped⟩ := Option.bind_eq_some_iff.mp hpopped
        obtain ⟨kf, hkf, hpopped⟩ := Option.bind_eq_some_iff.mp hpopped
        obtain ⟨caller, hcaller, hpopped⟩ := Option.bind_eq_some_iff.mp hpopped
        obtain rfl := Option.some.inj hpopped
        exact ⟨below, kf, stack, by rw [hstack]; rfl, hkf, List.mem_of_getElem? hcaller, rfl⟩
      case h_2 => cases hpopped
    · obtain ⟨below, kf, stack, htail, hkf, hcaller, hstack⟩ := hpopped
      have hbelow : popped.2.Typed types := by
        intro sf' hsf'
        rw [hstack, ← htail] at hsf'
        exact h.typed sf' (List.mem_of_mem_tail hsf')
      have hinst := h.module below.kf kf hkf popped.1 hcaller
      unfold returnTo
      split
      case h_1 f arguments width isSExt used result heq =>
        rw [heq] at hinst
        obtain ⟨hpos, hdest⟩ := hinst.2 width rfl
        obtain ⟨k, hk⟩ := hresult result rfl
        have hcoerce : Ensures (Expr.Typed width) (coerce (expressions opt) isSExt width result) := by
          unfold coerce
          split
          case isTrue hwidth => exact .pure ⟨hk.wellTyped, hwidth⟩
          case isFalse =>
            split
            exacts [ensures_sext hk hpos, ensures_zext hk hpos]
        refine hcoerce.bind fun e he => .pure (hbelow.bindLocal fun sf' hsf' => ?_)
        obtain rfl : below = sf' := by
          rw [hstack] at hsf'
          exact Option.some.inj hsf'
        exact hdest.symm ▸ he
      case h_2 => exact .pure hbelow
      case h_3 f arguments type isSExt used heq =>
        split
        exacts [.pure trivial, .pure hbelow]
      case h_4 => exact .error _

theorem ensures_call (h : Executes types m thread ki sf) {f : Nat} {arguments : List VNumber}
    (harguments : ∀ (i : Nat) (argument : VNumber), arguments[i]? = some argument → argument.HasWidth (types sf.kf) (types f i)) :
    Ensures (Next.Typed types) (executeCall (expressions opt) m thread f arguments) := by
  have hvalues : ∀ (l : List VNumber) (ws : Nat → Nat), (∀ (i : Nat) (x : VNumber), l[i]? = some x → x.HasWidth (types sf.kf) (ws i)) →
      Ensures (fun es : List Expr => ∀ (i : Nat) (e : Expr), es[i]? = some e → e.Typed (ws i)) (l.mapM (eval (expressions opt) thread)) := by
    intro l
    induction l with
    | nil => exact fun ws _ => .pure (by simp)
    | cons x l ih =>
      intro ws hl
      rw [List.mapM_cons]
      refine (h.ensures_eval (hl 0 x rfl)).bind fun e he => ?_
      refine (ih (fun i => ws (i + 1)) fun i x hx => hl (i + 1) x hx).bind fun es hes => .pure fun i e' hi => ?_
      cases i with
      | zero =>
        obtain rfl : e = e' := by simpa using hi
        exact he
      | succ i => exact hes i e' hi
  refine (hvalues arguments (types f) harguments).bind fun es hes => ?_
  refine Ensures.trivial.bind fun kf _ => ?_
  split
  case isTrue => exact .pure trivial
  case isFalse =>
    refine .pure (List.forall_mem_cons.mpr ⟨fun i e hi => ?_, h.typed⟩)
    have hi : (if i < kf.numArgs then es[i]? else none) = some e := hi
    split at hi
    exacts [hes i e hi, by cases hi]

theorem ensures_execute (h : Executes types m thread ki sf) : Ensures (Next.Typed types) (execute (expressions opt) m thread ki) := by
  have hinst := h.inst
  unfold execute
  cases heq : ki.inst with
  | ret value => exact h.ensures_ret value
  | br successor =>
    exact (ensures_orAssert fun _ htransfer => h.typed.transferToBasicBlock htransfer).bind fun _ hthread => .pure hthread
  | condBr => exact .error _
  | call f arguments type isSExt used => exact h.ensures_call (heq ▸ hinst).1
  | phi incoming =>
    have hentries := heq ▸ hinst
    refine (ensures_orAssert fun entry hentry => hentries entry (List.mem_of_getElem? hentry)).bind fun entry hentry => ?_
    exact h.ensures_cast hentry fun he => .pure he
  | select cond trueValue falseValue =>
    obtain ⟨hc, ht, hf⟩ := heq ▸ hinst
    refine (h.ensures_eval hc).bind fun c hc => h.ensures_binary ht hf fun ht hf => ?_
    exact ensures_of_produces (SelectExpr.create_spec (Expr.Typed.select.mpr ⟨hc, ht, hf⟩))
  | arith kind left right =>
    obtain ⟨hl, hr⟩ := heq ▸ hinst
    exact h.ensures_binary hl hr fun hl hr => ensures_arith kind hl hr
  | icmp predicate left right =>
    obtain ⟨hdest, w, hl, hr⟩ := heq ▸ hinst
    refine h.ensures_binary hl hr fun hl hr => ?_
    rw [hdest]
    exact ensures_of_produces (createComparison_spec predicate hl hr)
  | trunc src width =>
    obtain ⟨hpos, hdest, k, hsrc, hle⟩ := heq ▸ hinst
    refine h.ensures_cast hsrc fun {e} he => ?_
    rw [hdest]
    have hextract : Produces opt (fun _ => True) width (.extract e 0 width) (ExtractExpr.create e 0 width) :=
      ExtractExpr.create_spec he hpos (by omega)
    exact ensures_of_produces hextract
  | zext src width | intToPtr src width | ptrToInt src width =>
    obtain ⟨hpos, hdest⟩ := heq ▸ hinst
    obtain ⟨k, hk⟩ := exists_width (types sf.kf) src
    refine h.ensures_cast hk fun he => ?_
    rw [hdest]
    exact ensures_zext he hpos
  | sext src width =>
    obtain ⟨hpos, hdest⟩ := heq ▸ hinst
    obtain ⟨k, hk⟩ := exists_width (types sf.kf) src
    refine h.ensures_cast hk fun he => ?_
    rw [hdest]
    exact ensures_sext he hpos
  | bitCast src =>
    have hsrc := heq ▸ hinst
    exact h.ensures_cast hsrc fun he => .pure he

end Executes
end
end

/-! ### Forks -/

section
open ConstraintManager (AllTrue Refutes)

variable {opt useVisitorHash : Bool} {v : Valuation} {st : State} {e : Expr} {σ : Type} {impl : SolverImpl σ}

/-- The constraints are true under the valuation. -/
def State.Admits (opt : Bool) (v : Valuation) (st : State) : Prop := AllTrue opt false v st.constraints

/-- A constraint is false under the valuation. -/
def State.Excludes (opt : Bool) (v : Valuation) (st : State) : Prop := Refutes opt false v st.constraints

/-- What a state has of the one that it is forked from. -/
structure State.Inherits (opt : Bool) (st st' : State) : Prop where
  typed : ∀ c ∈ st'.constraints, c.Typed 1
  thread : st'.thread = st.thread
  exited : st'.exited = st.exited
  excludes : ∀ v, st.Excludes opt v → st'.Excludes opt v

/-- The state has an additional constraint. -/
structure State.Constrained (opt : Bool) (st : State) (e : Expr) (st' : State) : Prop extends st.Inherits opt st' where
  admits : ∀ v, st.Admits opt v → e.Sound opt false v → e.Holds v → st'.Admits opt v
  rejects : ∀ v, st.Admits opt v → e.Sound opt false v → ¬e.Holds v → st'.Excludes opt v

theorem constant_holds_iff (value : BitVec 1) : (Expr.constant 1 value).Holds v ↔ value = 1 := by
  rw [Expr.Holds, Expr.value, ← BitVec.toNat_inj]
  rfl

theorem addConstraint_ensures (hcs : ∀ c ∈ st.constraints, c.Typed 1) (he : e.Typed 1) :
    Ensures (st.Constrained opt e) (addConstraint opt useVisitorHash st e) := by
  unfold addConstraint
  split
  case h_1 width value =>
    obtain rfl : width = 1 := he.width
    split
    case isFalse => exact .error _
    case isTrue hone =>
      exact .pure ⟨⟨hcs, rfl, rfl, fun _ h => h⟩, fun _ h _ _ => h, fun v _ _ hnot => absurd ((constant_holds_iff value).mpr hone.2) hnot⟩
  case h_2 =>
    have hkept : ConstraintManager.Kept opt st.constraints e (ConstraintManager.addConstraint opt useVisitorHash st.constraints e) :=
      ConstraintManager.addConstraint_spec hcs he
    generalize ConstraintManager.addConstraint opt useVisitorHash st.constraints e = result at hkept
    cases hkept with
    | ok cs' typed keeps refuted refutes =>
      exact .pure ⟨⟨typed, rfl, rfl, refuted false⟩, keeps false, refutes false⟩
    | invalid => exact .error _
    | divides => exact .error _

/-- What the answer of the solver says about the valuation. -/
def Answered (v : Valuation) (e : Expr) (res : Option Validity) : Prop :=
  ∃ validity, res = some validity ∧ (validity = .True → e.Holds v) ∧ (validity = .False → ¬e.Holds v)

theorem solver_ensures (himpl : impl.Decides) (hanswers : impl.Answers) (hcs : ∀ c ∈ st.constraints, c.Typed 1) (he : e.Typed 1)
    (hv : ∀ c ∈ st.constraints, c.Holds v) (s : σ) :
    Ensures (fun r => Answered v e r.1) (Solver.evaluate impl ⟨st.constraints, e⟩ s) := by
  unfold Solver.evaluate
  rw [if_neg (not_not.mpr he.width)]
  split
  case h_1 width value heq =>
    have heq : e = .constant width value := heq
    subst heq
    obtain rfl : width = 1 := he.width
    have hanswer : ∀ value : BitVec 1, ((if value = 0 then Validity.False else .True) = .True → value = 1) ∧
        ((if value = 0 then Validity.False else .True) = .False → ¬value = 1) := by decide
    refine .pure ⟨_, rfl, ?_⟩
    rw [constant_holds_iff]
    exact hanswer value
  case h_2 =>
    refine .pure ?_
    obtain ⟨validity, hvalidity⟩ := Option.ne_none_iff_exists'.mp (hanswers.validity ⟨st.constraints, e⟩ s)
    have hright := himpl.validity ⟨st.constraints, e⟩ s validity ⟨hcs, he⟩ ⟨v, hv⟩ hvalidity
    refine ⟨validity, hvalidity, ?_, ?_⟩
    · rintro rfl
      exact hright v hv
    · rintro rfl
      exact hright v hv

theorem evaluate_ensures (himpl : impl.Decides) (hanswers : impl.Answers) (hcs : ∀ c ∈ st.constraints, c.Typed 1) (he : e.Typed 1) (s : σ) :
    Ensures (fun r => ∀ v, st.Admits opt v → e.Sound opt false v → Answered v e r.1) (evaluate opt useVisitorHash impl st e s) := by
  unfold evaluate
  split
  case h_1 width value =>
    obtain rfl : width = 1 := he.width
    have hanswer : ∀ value : BitVec 1, ((if 1 = 1 ∧ value = 1 then Validity.True else .False) = .True → value = 1) ∧
        ((if 1 = 1 ∧ value = 1 then Validity.True else .False) = .False → ¬value = 1) := by decide
    refine .pure fun v _ _ => ⟨_, rfl, ?_⟩
    rw [constant_holds_iff]
    exact hanswer value
  case h_2 =>
    rcases ConstraintManager.simplifyExpr_spec opt useVisitorHash hcs he with ⟨r, hr, hrewrites⟩ | ⟨herror, -⟩
    · rw [hr]
      intro result hresult v hadmits hsound
      obtain ⟨validity, hvalidity, htrue, hfalse⟩ :=
        solver_ensures himpl hanswers hcs hrewrites.typed hadmits.holds s result hresult
      have hholds := hrewrites.holds_iff hadmits.holds hsound
      exact ⟨validity, hvalidity, fun h => hholds.mp (htrue h), fun h => mt hholds.mpr (hfalse h)⟩
    · rw [herror]
      exact .error _

/-- The states of a fork: a valuation goes on in the one of its side only. -/
structure Forked (opt : Bool) (st : State) (e : Expr) (branches : Option State × Option State) : Prop where
  first : ∀ t, branches.1 = some t → st.Inherits opt t
  second : ∀ f, branches.2 = some f → st.Inherits opt f
  holds : ∀ v, st.Admits opt v → e.Sound opt false v → e.Holds v →
    (∃ t, branches.1 = some t ∧ t.Admits opt v) ∧ ∀ f, branches.2 = some f → f.Excludes opt v
  fails : ∀ v, st.Admits opt v → e.Sound opt false v → ¬e.Holds v →
    (∃ f, branches.2 = some f ∧ f.Admits opt v) ∧ ∀ t, branches.1 = some t → t.Excludes opt v

theorem fork_ensures (himpl : impl.Decides) (hanswers : impl.Answers) (hcs : ∀ c ∈ st.constraints, c.Typed 1) (he : e.Typed 1) (s : σ) :
    Ensures (fun r => Forked opt st e r.1) (fork opt useVisitorHash impl st e s) := by
  have hself : st.Inherits opt st := ⟨hcs, rfl, rfl, fun _ h => h⟩
  refine (evaluate_ensures himpl hanswers hcs he s).bind fun r hr => ?_
  obtain ⟨res, s⟩ := r
  cases res with
  | none =>
    -- the solver fails only if there is no valuation to lose
    have hno : ∀ v, st.Admits opt v → e.Sound opt false v → False := fun v hadmits hsound => by
      obtain ⟨validity, hvalidity, -⟩ := hr v hadmits hsound
      cases hvalidity
    exact .pure ⟨by simp, by simp, fun v ha hs => (hno v ha hs).elim, fun v ha hs => (hno v ha hs).elim⟩
  | some validity =>
    have hright : ∀ v, st.Admits opt v → e.Sound opt false v → (validity = .True → e.Holds v) ∧ (validity = .False → ¬e.Holds v) := by
      intro v hadmits hsound
      obtain ⟨validity', hvalidity, hright⟩ := hr v hadmits hsound
      exact Option.some.inj hvalidity ▸ hright
    cases validity with
    | True =>
      refine .pure ⟨?_, by simp, fun v ha hs _ => ⟨⟨st, rfl, ha⟩, by simp⟩, fun v ha hs hnot => absurd ((hright v ha hs).1 rfl) hnot⟩
      intro t ht
      obtain rfl := Option.some.inj ht
      exact hself
    | False =>
      refine .pure ⟨by simp, ?_, fun v ha hs hv => absurd hv ((hright v ha hs).2 rfl), fun v ha hs _ => ⟨⟨st, rfl, ha⟩, by simp⟩⟩
      intro f hf
      obtain rfl := Option.some.inj hf
      exact hself
    | Unknown =>
      refine (addConstraint_ensures hcs he).bind fun trueState htrue => ?_
      obtain ⟨n, hn, hrewrites⟩ : Produces opt (fun _ => True) 1 _ (e.createIsZero opt) := Expr.createIsZero_spec he
      obtain ⟨n', hn', -, hnegates⟩ := Expr.createIsZero_negates opt he
      obtain rfl := Except.ok.inj (hn.symm.trans hn')
      have hsound : ∀ v, e.Sound opt false v → n.Sound opt false v := fun v hs =>
        (hrewrites.value false v trivial ⟨hs, trivial⟩).1
      rw [hn]
      refine (addConstraint_ensures hcs hrewrites.typed).bind fun falseState hfalse => .pure ⟨?_, ?_, ?_, ?_⟩
      · intro t ht
        obtain rfl := Option.some.inj ht
        exact htrue.toInherits
      · intro f hf
        obtain rfl := Option.some.inj hf
        exact hfalse.toInherits
      · intro v ha hs hv
        refine ⟨⟨trueState, rfl, htrue.admits v ha hs hv⟩, ?_⟩
        intro f hf
        obtain rfl := Option.some.inj hf
        exact hfalse.rejects v ha (hsound v hs) fun hnv => (hnegates v).mp hnv hv
      · intro v ha hs hv
        refine ⟨⟨falseState, rfl, hfalse.admits v ha (hsound v hs) ((hnegates v).mpr hv)⟩, ?_⟩
        intro t ht
        obtain rfl := Option.some.inj ht
        exact htrue.rejects v ha hs hv

end

/-! ### Steps -/

section
variable {opt useVisitorHash : Bool} {types : Types} {m : Module} {v : Valuation} {st : State} {c c' : Machine.State} {σ : Type}
  {impl : SolverImpl σ} {ki : KInstruction} {sf : StackFrame Expr}

structure State.Typed (types : Types) (st : State) : Prop where
  constraints : ∀ c ∈ st.constraints, c.Typed 1
  thread : st.thread.Typed types

/-- The inputs of the machine satisfy the constraints, and the registers have its integers as values. -/
structure State.Simulates (opt : Bool) (v : Valuation) (st : State) (c : Machine.State) : Prop where
  admits : st.Admits opt v
  thread : st.thread.Related (Represents opt v) c.thread
  exited : st.exited = c.exited

/-- The states that one becomes when the machine goes from `c` to `next c`. -/
structure Steps (opt : Bool) (types : Types) (next : Machine.State → Option Machine.State) (st : State) (results : List State) : Prop where
  typed : ∀ r ∈ results, r.Typed types
  excludes : ∀ v, st.Excludes opt v → ∀ r ∈ results, r.Excludes opt v
  follows : ∀ v c c', st.Simulates opt v c → next c = some c' → Alone (·.Simulates opt v c') (·.Excludes opt v) results

/-- The instructions that do not fork. -/
theorem advance_steps (hst : st.Typed types) (h : Executes types m st.thread ki sf) :
    Ensures (Steps opt types (fun c => execute integers m c.thread ki >>= c.advance) st)
      (do return st.advance (← execute (expressions opt) m st.thread ki)) := by
  intro results hresults
  obtain ⟨next, hnext, hresults⟩ := Result.bind_eq_ok.mp hresults
  obtain rfl := Except.ok.inj hresults
  have htyped := h.ensures_execute next hnext
  refine ⟨fun r hr => ?_, fun v hexcludes r hr => ?_, fun v c c' hsimulates hc' => ?_⟩
  · cases next with
    | goesOn thread => exact List.mem_singleton.mp hr ▸ ⟨hst.constraints, htyped⟩
    | exits => exact List.mem_singleton.mp hr ▸ ⟨hst.constraints, hst.thread⟩
    | terminated => cases hr
  · cases next with
    | goesOn thread => exact List.mem_singleton.mp hr ▸ hexcludes
    | exits => exact List.mem_singleton.mp hr ▸ hexcludes
    | terminated => cases hr
  · obtain ⟨next', hnext', hc'⟩ := Option.bind_eq_some_iff.mp hc'
    obtain ⟨next₁, hnext₁, hrelated⟩ := (expressions_refines opt v).execute m hsimulates.thread ki next' hnext'
    obtain rfl := Except.ok.inj (hnext.symm.trans hnext₁)
    cases hrelated with
    | goesOn hthread =>
      obtain rfl := Option.some.inj hc'
      exact .singleton ⟨hsimulates.admits, hthread, hsimulates.exited⟩
    | exits =>
      obtain rfl := Option.some.inj hc'
      exact .singleton ⟨hsimulates.admits, hsimulates.thread, rfl⟩
    | terminated => cases hc'

theorem mapM_transferToBasicBlock {dst src : Nat} {branch branch' : Option State}
    (h : branch.mapM (State.transferToBasicBlock opt m dst src) = .ok branch') :
    (branch = none ∧ branch' = none) ∨ ∃ t thread, branch = some t ∧ t.thread.transferToBasicBlock m dst src = some thread ∧
      branch' = some { t with thread := thread } := by
  cases branch with
  | none =>
    obtain rfl := Except.ok.inj h
    exact .inl ⟨rfl, rfl⟩
  | some t =>
    have h : (State.transferToBasicBlock opt m dst src t).map some = .ok branch' := h
    unfold State.transferToBasicBlock at h
    cases hthread : t.thread.transferToBasicBlock m dst src with
    | none =>
      rw [hthread] at h
      cases h
    | some thread =>
      rw [hthread] at h
      obtain rfl := Except.ok.inj h
      exact .inr ⟨t, thread, rfl, hthread, rfl⟩

/-- One side of a branch, at the block that it goes to. -/
theorem branch_results {dst src : Nat} {branch branch' : Option State} (hst : st.Typed types)
    (hinherits : ∀ t, branch = some t → st.Inherits opt t)
    (h : branch.mapM (State.transferToBasicBlock opt m dst src) = .ok branch') :
    (∀ r ∈ branch'.toList, r.Typed types) ∧ (∀ v, st.Excludes opt v → ∀ r ∈ branch'.toList, r.Excludes opt v) ∧
      (∀ v, (∀ t, branch = some t → t.Excludes opt v) → ∀ r ∈ branch'.toList, r.Excludes opt v) ∧
      ∀ v c thread, st.Simulates opt v c → (∃ t, branch = some t ∧ t.Admits opt v) →
        c.thread.transferToBasicBlock m dst src = some thread →
        Alone (·.Simulates opt v { c with thread := thread }) (·.Excludes opt v) branch'.toList := by
  rcases mapM_transferToBasicBlock h with ⟨rfl, rfl⟩ | ⟨t, thread, rfl, hthread, rfl⟩
  · refine ⟨by simp, by simp, by simp, fun v c thread _ hsome => ?_⟩
    obtain ⟨t, ht, -⟩ := hsome
    cases ht
  · have ht := hinherits t rfl
    have hmem : ∀ r ∈ (some { t with thread := thread }).toList, r = { t with thread := thread } := fun r hr => by simpa using hr
    refine ⟨fun r hr => ?_, fun v hv r hr => ?_, fun v hv r hr => ?_, fun v c thread' hsimulates hsome hthread' => ?_⟩
    · exact hmem r hr ▸ ⟨ht.typed, (ht.thread ▸ hst.thread : t.thread.Typed types).transferToBasicBlock hthread⟩
    · exact hmem r hr ▸ ht.excludes v hv
    · exact hmem r hr ▸ hv t rfl
    · obtain ⟨t', ht', hadmits⟩ := hsome
      obtain rfl := Option.some.inj ht'
      have hrel := hsimulates.thread.transferToBasicBlock m dst src
      rw [← ht.thread, hthread, hthread'] at hrel
      cases hrel with
      | some hrelated => exact .singleton ⟨hadmits, hrelated, ht.exited.trans hsimulates.exited⟩

theorem executeInstruction_steps (himpl : impl.Decides) (hanswers : impl.Answers) (hst : st.Typed types)
    (h : Executes types m st.thread ki sf) (s : σ) :
    Ensures (fun r => Steps opt types (Machine.executeInstruction m ki) st r.1)
      (executeInstruction opt useVisitorHash impl m ki st s) := by
  unfold executeInstruction Machine.executeInstruction
  have hinst := h.inst
  cases heq : ki.inst with
  | condBr cond successor₀ successor₁ =>
    rw [heq] at hinst
    have hcond : cond.HasWidth (types sf.kf) 1 := hinst
    intro r hr
    obtain ⟨e, he, hr⟩ := Result.bind_eq_ok.mp hr
    obtain ⟨⟨branches, s₁⟩, hfork, hr⟩ := Result.bind_eq_ok.mp hr
    obtain ⟨first, hfirst, hr⟩ := Result.bind_eq_ok.mp hr
    obtain ⟨second, hsecond, hr⟩ := Result.bind_eq_ok.mp hr
    obtain rfl := Except.ok.inj hr
    have hforked := fork_ensures himpl hanswers hst.constraints (h.ensures_eval hcond e he) s _ hfork
    obtain ⟨htyped₀, hexcludes₀, hrejects₀, halone₀⟩ := branch_results hst hforked.first hfirst
    obtain ⟨htyped₁, hexcludes₁, hrejects₁, halone₁⟩ := branch_results hst hforked.second hsecond
    refine ⟨List.forall_mem_append.mpr ⟨htyped₀, htyped₁⟩,
      fun v hv => List.forall_mem_append.mpr ⟨hexcludes₀ v hv, hexcludes₁ v hv⟩, fun v c c' hsimulates hc' => ?_⟩
    obtain ⟨x, hx, hc'⟩ := Option.bind_eq_some_iff.mp hc'
    obtain ⟨e', he', hrepresents⟩ := (expressions_refines opt v).eval hsimulates.thread cond x hx
    obtain rfl := Except.ok.inj (he.symm.trans he')
    split at hc'
    case isFalse => cases hc'
    case isTrue hwidth =>
      obtain ⟨thread, hthread, hc'⟩ := Option.bind_eq_some_iff.mp hc'
      obtain rfl := Option.some.inj hc'
      have hholds : e.Holds v ↔ x.bits.toNat = 1 := by rw [Expr.Holds, hrepresents.value_eq]
      by_cases hv : x.bits.toNat = 1
      · rw [if_pos hv] at hthread
        obtain ⟨hsome, hothers⟩ := hforked.holds v hsimulates.admits hrepresents.inRange (hholds.mpr hv)
        exact (halone₀ v c thread hsimulates hsome hthread).append_right (hrejects₁ v hothers)
      · rw [if_neg hv] at hthread
        obtain ⟨hsome, hothers⟩ := hforked.fails v hsimulates.admits hrepresents.inRange (mt hholds.mp hv)
        exact (halone₁ v c thread hsimulates hsome hthread).append_left (hrejects₀ v hothers)
  | _ =>
    intro r hr
    obtain ⟨next, hnext, hr⟩ := Result.bind_eq_ok.mp hr
    obtain rfl := Except.ok.inj hr
    exact advance_steps hst h _ (Result.bind_eq_ok.mpr ⟨next, hnext, rfl⟩)

theorem step_steps (himpl : impl.Decides) (hanswers : impl.Answers) (hm : m.WellTyped types) (hst : st.Typed types) (s : σ) :
    Ensures (fun r => Steps opt types (Machine.step m) st r.1) (step opt useVisitorHash impl m st s) := by
  unfold step Machine.step
  split
  case isTrue hexited =>
    refine .pure ⟨by simpa using hst, fun v hv => by simpa using hv, fun v c c' hsimulates hc' => ?_⟩
    rw [if_pos (hsimulates.exited ▸ hexited)] at hc'
    obtain rfl := Option.some.inj hc'
    exact .singleton hsimulates
  case isFalse hexited =>
    intro r hr
    obtain ⟨ki, hki, hr⟩ := Result.bind_eq_ok.mp hr
    have hinstruction : st.thread.instruction? m = some ki := by
      cases hfound : st.thread.instruction? m with
      | none =>
        rw [hfound] at hki
        cases hki
      | some ki' =>
        rw [hfound] at hki
        exact congrArg some (Except.ok.inj hki)
    obtain ⟨kf, hkf, hget⟩ := Option.bind_eq_some_iff.mp hinstruction
    obtain ⟨sf, hsf, hkf⟩ := Option.bind_eq_some_iff.mp hkf
    have hexecutes : Executes types m st.thread.stepInstruction ki sf :=
      ⟨hm, hst.thread, hsf, hm sf.kf kf hkf ki (List.mem_of_getElem? hget)⟩
    have hstepped : State.Typed types { st with thread := st.thread.stepInstruction } := ⟨hst.constraints, hst.thread⟩
    have hsteps := executeInstruction_steps himpl hanswers hstepped hexecutes s r hr
    refine ⟨hsteps.typed, hsteps.excludes, fun v c c' hsimulates hc' => ?_⟩
    rw [if_neg (hsimulates.exited ▸ hexited), ← hsimulates.thread.instruction?_eq m, hinstruction] at hc'
    exact hsteps.follows v { c with thread := c.thread.stepInstruction } c'
      ⟨hsimulates.admits, hsimulates.thread.stepInstruction, hsimulates.exited⟩ hc'

/-! ### Runs -/

theorem Machine.run_succ (m : Module) (n : Nat) (c : Machine.State) :
    Machine.run m (n + 1) c = Machine.run m n c >>= Machine.step m := by
  induction n generalizing c with
  | zero =>
    show (Machine.step m c >>= fun c' => some c') = Machine.step m c
    cases Machine.step m c <;> rfl
  | succ n ih =>
    rw [Machine.run]
    cases hstep : Machine.step m c with
    | none => simp [Machine.run, hstep]
    | some c' =>
      rw [Option.bind_eq_bind, Option.bind_some, ih c', Machine.run, hstep]
      rfl

instance (v : Valuation) (e : Expr) : Decidable (e.Holds v) := inferInstanceAs (Decidable (e.value v = 1))

/-- How many of the selected states accept the inputs. -/
def stepsWith (opt useVisitorHash : Bool) (impl : SolverImpl σ) (m : Module) (v : Valuation) : List Nat → List State → σ → Nat
  | [], _, _ => 0
  | i :: selections, states, s =>
    match states[i]? with
    | none => stepsWith opt useVisitorHash impl m v selections states s
    | some st =>
      match step opt useVisitorHash impl m st s with
      | .error _ => 0
      | .ok r => (if ∀ e ∈ st.constraints, e.Holds v then 1 else 0) +
        stepsWith opt useVisitorHash impl m v selections (states.take i ++ r.1 ++ states.drop (i + 1)) r.2

theorem stepsWith_le (v : Valuation) (selections : List Nat) (states : List State) (s : σ) :
    stepsWith opt useVisitorHash impl m v selections states s ≤ selections.length := by
  induction selections generalizing states s with
  | nil => exact le_rfl
  | cons i selections ih =>
    rw [stepsWith, List.length_cons]
    split
    · exact (ih _ _).trans (Nat.le_succ _)
    · split
      · exact Nat.zero_le _
      next r _ =>
        rw [Nat.add_comm]
        refine Nat.add_le_add (ih _ _) ?_
        split
        · exact le_rfl
        · exact Nat.zero_le 1

/-- After any selections one state has followed the machine, a step for each selection of a state with its inputs, and the
    others exclude them. -/
theorem run_alone (himpl : impl.Decides) (hanswers : impl.Answers) (hm : m.WellTyped types) (v : Valuation) (c₀ : Machine.State)
    (selections : List Nat) : ∀ (n : Nat) (states : List State) (s : σ) (c : Machine.State), (∀ st ∈ states, st.Typed types) →
      Machine.run m n c₀ = some c → Alone (·.Simulates opt v c) (·.Excludes opt v) states →
      (∀ k ≤ n + selections.length, ∃ c', Machine.run m k c₀ = some c') →
      ∀ states' s', run opt useVisitorHash impl m selections states s = .ok (states', s') →
        ∃ c', Machine.run m (n + stepsWith opt useVisitorHash impl m v selections states s) c₀ = some c' ∧
          Alone (·.Simulates opt v c') (·.Excludes opt v) states' := by
  induction selections with
  | nil =>
    intro n states s c _ hc halone _ states' s' hrun
    obtain ⟨rfl, rfl⟩ := Prod.mk.inj (Except.ok.inj hrun)
    exact ⟨c, hc, halone⟩
  | cons i selections ih =>
    intro n states s c htyped hc halone hdefined states' s' hrun
    rw [List.length_cons] at hdefined
    unfold run at hrun
    unfold stepsWith
    cases hi : states[i]? with
    | none =>
      rw [hi] at hrun
      exact ih n states s c htyped hc halone (fun k hk => hdefined k (by omega)) states' s' hrun
    | some st =>
      rw [hi] at hrun
      obtain ⟨⟨results, s₁⟩, hstep, hrun⟩ := Result.bind_eq_ok.mp hrun
      simp only [hstep]
      have hsteps := step_steps himpl hanswers hm (htyped st (List.mem_of_getElem? hi)) s _ hstep
      have htyped' : ∀ st ∈ states.take i ++ results ++ states.drop (i + 1), st.Typed types := by
        refine List.forall_mem_append.mpr ⟨List.forall_mem_append.mpr ⟨fun r hr => htyped r (List.mem_of_mem_take hr), hsteps.typed⟩,
          fun r hr => htyped r (List.mem_of_mem_drop hr)⟩
      obtain ⟨c₁, hc₁⟩ := hdefined (n + 1) (by omega)
      have hnext : Machine.step m c = some c₁ := by
        rw [Machine.run_succ, hc] at hc₁
        exact hc₁
      rcases halone.splice (·.Simulates opt v c₁) hi with ⟨hst, hsplice⟩ | ⟨hst, hsplice⟩
      · rw [if_pos fun e he => (hst.admits e he).2, ← Nat.add_assoc]
        exact ih (n + 1) _ s₁ c₁ htyped' hc₁ (hsplice results (hsteps.follows v c c₁ hst hnext))
          (fun k hk => hdefined k (by omega)) states' s' hrun
      · obtain ⟨e, he, -, hfalse⟩ := id hst
        rw [if_neg fun hall => hfalse (hall e he), Nat.zero_add]
        exact ih n _ s₁ c htyped' hc (hsplice results (hsteps.excludes v hst)) (fun k hk => hdefined k (by omega)) states' s' hrun

/-- Symbolic execution follows every run of the machine: whatever a searcher selects, the inputs of a run satisfy the constraints
    of exactly one state, and the registers and the place of that state are those of the machine, after as many steps as states
    with these inputs have been selected. -/
theorem run_follows (himpl : impl.Decides) (hanswers : impl.Answers) (hm : m.WellTyped types) (hst : st.Typed types)
    (hsimulates : st.Simulates opt v c) (selections : List Nat) (s : σ)
    (hdefined : ∀ k ≤ selections.length, ∃ c', Machine.run m k c = some c') (states : List State) (s' : σ)
    (hrun : run opt useVisitorHash impl m selections [st] s = .ok (states, s')) :
    ∃ (i : Nat) (st' : State), states[i]? = some st' ∧
      (∃ k ≤ selections.length, k = stepsWith opt useVisitorHash impl m v selections [st] s ∧
        ∃ c', Machine.run m k c = some c' ∧ st'.Simulates opt v c') ∧
      ∀ (j : Nat) (other : State), states[j]? = some other → (∀ e ∈ other.constraints, e.Holds v) → j = i := by
  have hdefined : ∀ k ≤ 0 + selections.length, ∃ c', Machine.run m k c = some c' := by simpa using hdefined
  obtain ⟨c', hc', halone⟩ := run_alone himpl hanswers hm v c selections 0 [st] s c (by simpa using hst) rfl
    (.singleton hsimulates) hdefined states s' hrun
  rw [Nat.zero_add] at hc'
  obtain ⟨i, st', hi, hst', hunique⟩ := halone.exists_index
  refine ⟨i, st', hi, ⟨_, stepsWith_le .., rfl, c', hc', hst'⟩, fun j other hj hholds => hunique j other hj fun hexcludes => ?_⟩
  obtain ⟨e, he, -, hfalse⟩ := hexcludes
  exact hfalse (hholds e he)

end

/-! ### A branch on a byte -/

section
open ConstraintManager (byteAt)
open CachingSolver (exactSolver exactSolver_decides)

/-- The function returns its argument, less 3 unless it is below 10. -/
def lessThree : Module :=
  [{ numArgs := 1
     instructions :=
      [⟨1, 0, .icmp .ult (.register 0) (.constant 8 (by decide) 10)⟩, ⟨0, 0, .condBr (.register 1) 1 2⟩,
        ⟨0, 1, .ret (some (.register 0))⟩, ⟨2, 2, .arith .sub (.register 0) (.constant 8 (by decide) 3)⟩,
        ⟨0, 2, .ret (some (.register 2))⟩]
     basicBlockEntry := fun block => some block.succ }]

def lessThreeTypes : Types := fun _ register => if register = 1 then 1 else 8

theorem lessThree_wellTyped : lessThree.WellTyped lessThreeTypes := by
  intro f kf hkf ki hki
  cases f with
  | zero =>
    obtain rfl := Option.some.inj hkf
    simp only [List.mem_cons, List.not_mem_nil, or_false] at hki
    rcases hki with rfl | rfl | rfl | rfl | rfl
    · exact ⟨rfl, 8, rfl, rfl⟩
    · exact rfl
    · exact trivial
    · exact ⟨rfl, rfl⟩
    · exact trivial
  | succ f => cases hkf

/-- A state at the start of the function, with the value of its argument. -/
def started {α : Type} (argument : α) : Thread α := ⟨[⟨none, 0, fun i => if i = 0 then some argument else none⟩], 0, 0, 0⟩

def belowTen : Expr := .cmp .ult (byteAt 2) (.constant 8 10)

theorem exactSolver_belowTen (s : Unit) : exactSolver.computeValidity ⟨[], belowTen⟩ s = (some .Unknown, ()) := by
  have hfalse : ¬belowTen.value (fun _ _ => 255) = 1 := by decide +kernel
  have htrue : belowTen.value (fun _ _ => 0) = 1 := by decide +kernel
  have hvalid : ¬Query.Valid ⟨[], belowTen⟩ := fun h => hfalse (h (fun _ _ => 255) (by simp [Query.Satisfies]))
  have hrefuted : ¬Query.Refuted ⟨[], belowTen⟩ := fun h => h (fun _ _ => 0) (by simp [Query.Satisfies]) htrue
  simp only [exactSolver, if_neg hvalid, if_neg hrefuted]

theorem fork_belowTen (thread : Thread Expr) : ∃ n, fork false true exactSolver ⟨[], thread, false⟩ belowTen () =
    .ok ((some ⟨[belowTen], thread, false⟩, some ⟨[n], thread, false⟩), ()) := by
  have hsimplify : ConstraintManager.simplifyExpr false true [] belowTen = .ok belowTen := by decide +kernel
  have hadd : ConstraintManager.addConstraint false true [] belowTen = .ok [belowTen] := by decide +kernel
  have hzero : belowTen.createIsZero false = .ok (.cmp .eq (.constant 1 0) belowTen) := by decide +kernel
  have hnegated : ConstraintManager.addConstraint false true [] (.cmp .eq (.constant 1 0) belowTen) =
      .ok [.cmp .eq (.constant 1 0) belowTen] := by decide +kernel
  have hevaluate : evaluate false true exactSolver ⟨[], thread, false⟩ belowTen () = .ok (some .Unknown, ()) := by
    show (ConstraintManager.simplifyExpr false true [] belowTen >>= fun e => Solver.evaluate exactSolver ⟨[], e⟩ ()) = _
    rw [hsimplify]
    exact congrArg Except.ok (exactSolver_belowTen ())
  refine ⟨.cmp .eq (.constant 1 0) belowTen, ?_⟩
  rw [fork, hevaluate]
  have htrueState : addConstraint false true ⟨[], thread, false⟩ belowTen = .ok ⟨[belowTen], thread, false⟩ := by
    show (ConstraintManager.addConstraint false true [] belowTen >>= fun cs => Except.ok (State.mk cs thread false)) = _
    rw [hadd]
    rfl
  have hfalseState : addConstraint false true ⟨[], thread, false⟩ (.cmp .eq (.constant 1 0) belowTen) =
      .ok ⟨[.cmp .eq (.constant 1 0) belowTen], thread, false⟩ := by
    show (ConstraintManager.addConstraint false true [] (.cmp .eq (.constant 1 0) belowTen) >>= fun cs =>
      Except.ok (State.mk cs thread false)) = _
    rw [hnegated]
    rfl
  show (addConstraint false true ⟨[], thread, false⟩ belowTen >>= fun trueState =>
    belowTen.createIsZero false >>= fun n => addConstraint false true ⟨[], thread, false⟩ n >>= fun falseState =>
      Except.ok ((some trueState, some falseState), ())) = _
  rw [htrueState, hzero]
  show (addConstraint false true ⟨[], thread, false⟩ (.cmp .eq (.constant 1 0) belowTen) >>= fun falseState =>
      Except.ok ((some (State.mk [belowTen] thread false), some falseState), ())) = _
  rw [hfalseState]
  rfl

theorem run_belowTen : ∃ states, run false true exactSolver lessThree [0, 0] [⟨[], started (byteAt 2), false⟩] () = .ok (states, ()) := by
  obtain ⟨n, hfork⟩ := fork_belowTen (((started (byteAt 2)).stepInstruction.bindLocal 1 belowTen).stepInstruction)
  refine ⟨?_, ?_⟩
  rotate_left 1
  · show ((fork false true exactSolver
      ⟨[], ((started (byteAt 2)).stepInstruction.bindLocal 1 belowTen).stepInstruction, false⟩ belowTen () >>= _) >>= _) = _
    rw [hfork]
    rfl

theorem run_follows_lessThree :
    ∃ states, run false true exactSolver lessThree [0, 0] [⟨[], started (byteAt 2), false⟩] () = .ok (states, ()) ∧
      ∃ (i : Nat) (st : State), states[i]? = some st ∧
      (∃ k ≤ 2, k = stepsWith false true exactSolver lessThree (fun _ _ => 200) [0, 0] [⟨[], started (byteAt 2), false⟩] () ∧
        ∃ c', Machine.run lessThree k ⟨started ⟨8, 200⟩, false⟩ = some c' ∧ st.Simulates false (fun _ _ => 200) c') ∧
      ∀ (j : Nat) (other : State), states[j]? = some other → (∀ e ∈ other.constraints, e.Holds fun _ _ => 200) → j = i := by
  have hbyte : (byteAt 2).Typed 8 := ⟨⟨⟨by decide, by decide, fun h => (by cases h)⟩, Nat.succ_pos 31, rfl⟩, rfl⟩
  have hanswers : exactSolver.Answers := ⟨fun _ _ => Option.some_ne_none _, fun _ _ => Option.some_ne_none _⟩
  have hrepresents : Represents false (fun _ _ => 200) (byteAt 2) ⟨8, 200⟩ := ⟨⟨hbyte, Expr.sound_any _⟩, by decide +kernel⟩
  have hlocals : ∀ i, Option.Rel (Represents false fun _ _ => 200) (if i = 0 then some (byteAt 2) else none)
      (if i = 0 then some ⟨8, 200⟩ else none) := fun i => by
    split
    exacts [.some hrepresents, .none]
  have htyped : State.Typed lessThreeTypes ⟨[], started (byteAt 2), false⟩ := by
    refine ⟨by simp, fun sf hsf i e hi => ?_⟩
    obtain rfl := List.mem_singleton.mp hsf
    have hi : (if i = 0 then some (byteAt 2) else none) = some e := hi
    split at hi
    case isTrue hzero =>
      subst hzero
      obtain rfl := Option.some.inj hi
      exact hbyte
    case isFalse => cases hi
  have hsimulates : State.Simulates false (fun _ _ => 200) ⟨[], started (byteAt 2), false⟩ ⟨started ⟨8, 200⟩, false⟩ :=
    ⟨fun _ h => (by cases h), ⟨.cons ⟨rfl, rfl, hlocals⟩ .nil, rfl, rfl, rfl⟩, rfl⟩
  have hdefined : ∀ k ≤ 2, ∃ c', Machine.run lessThree k ⟨started ⟨8, 200⟩, false⟩ = some c' := by
    intro k hk
    interval_cases k
    exacts [⟨_, rfl⟩, ⟨_, rfl⟩, ⟨_, rfl⟩]
  obtain ⟨states, hrun⟩ := run_belowTen
  exact ⟨states, hrun, run_follows exactSolver_decides hanswers lessThree_wellTyped htyped hsimulates [0, 0] () hdefined states () hrun⟩

end

end CapTaint.Klee.Interpreter
