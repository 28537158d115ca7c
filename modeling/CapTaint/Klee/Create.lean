import CapTaint.Klee.Expr

/-! # The create functions

The functions of `Expr.cpp` that build expressions, with their folding and rewriting. `opt` is the option
`ConstArrayOpt`. An operation on two constants is done by `APInt`, which asserts that divisors are not zero. -/

namespace CapTaint.Klee

/-- Why a construction does not end with an expression. -/
inductive Abort
  /-- An assertion of the source fails. -/
  | assertion
  /-- `APInt` is asked to divide by zero. -/
  | divideByZero
  /-- The assertion on a false constraint. -/
  | invalidConstraint
  /-- The bound on the depth of the recursion is used up. -/
  | unfinished
  deriving DecidableEq

abbrev Created := Except Abort Expr

/-- A constant of width `Bool`. -/
def boolean (b : Bool) : Expr := .constant 1 (BitVec.ofBool b)

def foldArith (kind : ArithKind) {wl wr : Nat} (cl : BitVec wl) (cr : BitVec wr) : Created :=
  if divides kind = true ∧ cr = 0 then .error .divideByZero
  else .ok (.constant wl (kind.eval cl (cr.setWidth wl)))

def foldCmp (kind : CmpKind) {wl wr : Nat} (cl : BitVec wl) (cr : BitVec wr) : Created :=
  .ok (boolean (kind.eval cl (cr.setWidth wl)))

/-- The macros `BCREATE_R` and `CMPCREATE_T`. -/
def bcreateR (fold : ∀ {wl wr : Nat}, BitVec wl → BitVec wr → Created) (partialR : ∀ {w : Nat}, BitVec w → Expr → Created)
    (partialL : ∀ {w : Nat}, Expr → BitVec w → Created) (rest : Expr → Expr → Created) (l r : Expr) : Created :=
  if l.getWidth ≠ r.getWidth then .error .assertion
  else
    match l, r with
    | .constant _ cl, .constant _ cr => fold cl cr
    | .constant _ cl, r => partialR cl r
    | l, .constant _ cr => partialL l cr
    | l, r => rest l r

/-- The macros `BCREATE` and `CMPCREATE`. -/
def bcreate (fold : ∀ {wl wr : Nat}, BitVec wl → BitVec wr → Created) (rest : Expr → Expr → Created) (l r : Expr) : Created :=
  if l.getWidth ≠ r.getWidth then .error .assertion
  else
    match l, r with
    | .constant _ cl, .constant _ cr => fold cl cr
    | l, r => rest l r

/-! ### Parts of vectors -/

/-- `ConcatExpr::create`; `extract` is `ExtractExpr::create`. -/
def ConcatExpr.createWith (extract : Expr → Nat → Nat → Created) (l r : Expr) : Created :=
  match l, r with
  | .constant _ cl, .constant _ cr => .ok (.constant _ (cl ++ cr))
  | .extract el ol wl, .extract er or wr =>
    if el = er ∧ or + wr = ol then extract el or (wl + wr) else .ok (.concat l r)
  | _, _ => .ok (.concat l r)

/-- `ExtractExpr::create` with a bound on the depth of its recursion. -/
def ExtractExpr.createFuel : Nat → Expr → Nat → Nat → Created
  | 0, _, _, _ => .error .unfinished
  | fuel + 1, e, off, w =>
    if ¬(0 < w ∧ off + w ≤ e.getWidth) then .error .assertion
    else if w = e.getWidth then .ok e
    else
      match e with
      | .constant _ c => .ok (.constant w ((c.sshiftRight off).setWidth w))
      | .concat left right =>
        if right.getWidth ≤ off then createFuel fuel left (off - right.getWidth) w
        else if off + w ≤ right.getWidth then createFuel fuel right off w
        else do
          -- the source's `w - width + off` is unsigned and wraps back
          let l ← createFuel fuel left 0 (w + off - right.getWidth)
          let r ← createFuel fuel right off (right.getWidth - off)
          ConcatExpr.createWith (createFuel fuel) l r
      | _ => .ok (.extract e off w)

/-- No recursion is deeper than the expression. -/
def ExtractExpr.create (e : Expr) (off w : Nat) : Created := ExtractExpr.createFuel (e.size + 1) e off w

def ConcatExpr.create (l r : Expr) : Created := ConcatExpr.createWith ExtractExpr.create l r

/-- The chain is unbalanced to the right. -/
def ConcatExpr.createN : List Expr → Created
  | [] => .error .assertion
  | [kid] => .ok kid
  | kid :: kids => do
    let r ← createN kids
    ConcatExpr.create kid r

def ZExtExpr.create (e : Expr) (w : Nat) : Created :=
  if w = e.getWidth then .ok e
  else if w < e.getWidth then ExtractExpr.create e 0 w
  else
    match e with
    | .constant _ c => .ok (.constant w (c.setWidth w))
    | _ => .ok (.zext e w)

def SExtExpr.create (e : Expr) (w : Nat) : Created :=
  if w = e.getWidth then .ok e
  else if w < e.getWidth then ExtractExpr.create e 0 w
  else
    match e with
    | .constant _ c => .ok (.constant w (c.signExtend w))
    | _ => .ok (.sext e w)

def NotExpr.create : Expr → Created
  | .constant _ c => .ok (.constant _ (~~~c))
  | e => .ok (.not e)

/-! ### And, or -/

def AndExpr.createPartial {w : Nat} (l : Expr) (cr : BitVec w) : Created :=
  if cr = BitVec.allOnes w then .ok l
  else if cr = 0 then .ok (.constant w cr)
  else .ok (.arith .and l (.constant w cr))

def AndExpr.create : Expr → Expr → Created :=
  bcreateR (foldArith .and) (fun cl r => AndExpr.createPartial r cl) AndExpr.createPartial fun l r => .ok (.arith .and l r)

def OrExpr.createPartial {w : Nat} (l : Expr) (cr : BitVec w) : Created :=
  if cr = BitVec.allOnes w then .ok (.constant w cr)
  else if cr = 0 then .ok l
  else .ok (.arith .or l (.constant w cr))

def OrExpr.create : Expr → Expr → Created :=
  bcreateR (foldArith .or) (fun cl r => OrExpr.createPartial r cl) OrExpr.createPartial fun l r => .ok (.arith .or l r)

/-! ### Equality -/

/-- `EqExpr_create`. -/
def EqExpr.createSymbolic (l r : Expr) : Expr := if l = r then boolean true else .cmp .eq l r

/-- `EqExpr::create(e, c)`, where `rest` is what `EqExpr_createPartial` gives. -/
def EqExpr.withConstant {w : Nat} (e : Expr) (c : BitVec w) (rest : Created) : Created :=
  match e with
  | .constant _ ce => foldCmp .eq ce c
  | _ => rest

/-- The positions at which a constant array has a value. -/
def constantPositions {w : Nat} (array : Array) (cl : BitVec w) : List Nat :=
  (List.range array.size).filter fun i =>
    array.constantValues[i]?.any fun c => Expr.constant array.range c = Expr.constant w cl

/-- `EqExpr_createPartialR`, with `TryConstArrayOpt`. -/
def EqExpr.createPartialR (opt : Bool) {w : Nat} (cl : BitVec w) (r : Expr) : Created :=
  if w = 1 then
    if cl ≠ 0 then .ok r
    else
      match r with
      | .cmp .eq (.constant wc c) right =>
        -- 0 == (0 == A) => A
        if wc = 1 ∧ c = 0 then .ok right else .ok (EqExpr.createSymbolic (.constant w cl) r)
      | .arith .or left right => do
        -- transform not(or(a,b)) to and(not a, not b)
        let notLeft ← EqExpr.withConstant left (0 : BitVec left.getWidth)
          (EqExpr.createPartialR opt (0 : BitVec left.getWidth) left)
        let notRight ← EqExpr.withConstant right (0 : BitVec right.getWidth)
          (EqExpr.createPartialR opt (0 : BitVec right.getWidth) right)
        AndExpr.create notLeft notRight
      | _ => .ok (EqExpr.createSymbolic (.constant w cl) r)
  else
    match r with
    | .sext src _ =>
      let trunc := cl.setWidth src.getWidth
      if cl = trunc.signExtend w then EqExpr.withConstant src trunc (EqExpr.createPartialR opt trunc src)
      else .ok (boolean false)
    | .zext src _ =>
      let trunc := cl.setWidth src.getWidth
      if cl = trunc.setWidth w then EqExpr.withConstant src trunc (EqExpr.createPartialR opt trunc src)
      else .ok (boolean false)
    | .arith .add (.constant wk k) right =>
      -- c0 = c1 + b => c0 - c1 = b
      if wk ≠ w then .error .assertion else EqExpr.createPartialR opt (cl - k.setWidth w) right
    | .arith .sub (.constant wk k) right =>
      -- c0 = c1 - b => c1 - c0 = b
      if wk ≠ w then .error .assertion else EqExpr.createPartialR opt (k.setWidth w - cl) right
    | .read (.root array) index =>
      if opt ∧ array.isConstantArray then
        let positions := constantPositions array cl
        if 100 < positions.length then .ok (EqExpr.createSymbolic (.constant w cl) r)
        else
          positions.foldlM
            (fun res i => do
              let c := BitVec.ofNat index.getWidth i
              let mayBe ← EqExpr.withConstant index c (EqExpr.createPartialR opt c index)
              OrExpr.create res mayBe)
            (boolean false)
      else .ok (EqExpr.createSymbolic (.constant w cl) r)
    | _ => .ok (EqExpr.createSymbolic (.constant w cl) r)

def EqExpr.create (opt : Bool) : Expr → Expr → Created :=
  bcreateR (foldCmp .eq) (EqExpr.createPartialR opt) (fun l cr => EqExpr.createPartialR opt cr l)
    fun l r => .ok (EqExpr.createSymbolic l r)

def Expr.createIsZero (opt : Bool) (e : Expr) : Created := EqExpr.create opt e (.constant e.getWidth 0)

/-! ### Sums -/

def XorExpr.createPartialR (opt : Bool) {w : Nat} (cl : BitVec w) (r : Expr) : Created :=
  if cl = 0 then .ok r
  else if w = 1 then EqExpr.createPartialR opt (0 : BitVec 1) r
  else .ok (.arith .xor (.constant w cl) r)

def XorExpr.create (opt : Bool) : Expr → Expr → Created :=
  bcreateR (foldArith .xor) (XorExpr.createPartialR opt) (fun l cr => XorExpr.createPartialR opt cr l)
    fun l r => .ok (.arith .xor l r)

/-- `create(c, e)`, where `rest` is what the function for a constant on the left gives. -/
def foldConstant (kind : ArithKind) {w : Nat} (c : BitVec w) (e : Expr) (rest : Created) : Created :=
  if w ≠ e.getWidth then .error .assertion
  else
    match e with
    | .constant _ ce => foldArith kind c ce
    | _ => rest

mutual
def AddExpr.createPartialR (opt : Bool) {w : Nat} (cl : BitVec w) (r : Expr) : Created :=
  if w = 1 then XorExpr.createPartialR opt cl r
  else if cl = 0 then .ok r
  else
    match r with
    | .arith .add (.constant wk k) c =>
      -- A + (B+c) == (A+B) + c
      if wk ≠ w then .error .assertion
      else foldConstant .add (cl + k.setWidth w) c (AddExpr.createPartialR opt (cl + k.setWidth w) c)
    | .arith .sub (.constant wk k) c =>
      -- A + (B-c) == (A+B) - c
      if wk ≠ w then .error .assertion
      else foldConstant .sub (cl + k.setWidth w) c (SubExpr.createPartialR opt (cl + k.setWidth w) c)
    | _ => .ok (.arith .add (.constant w cl) r)

def SubExpr.createPartialR (opt : Bool) {w : Nat} (cl : BitVec w) (r : Expr) : Created :=
  if w = 1 then XorExpr.createPartialR opt cl r
  else
    match r with
    | .arith .add (.constant wk k) c =>
      -- A - (B+c) == (A-B) - c
      if wk ≠ w then .error .assertion
      else foldConstant .sub (cl - k.setWidth w) c (SubExpr.createPartialR opt (cl - k.setWidth w) c)
    | .arith .sub (.constant wk k) c =>
      -- A - (B-c) == (A-B) + c
      if wk ≠ w then .error .assertion
      else foldConstant .add (cl - k.setWidth w) c (AddExpr.createPartialR opt (cl - k.setWidth w) c)
    | _ => .ok (.arith .sub (.constant w cl) r)
end

/-- l - c => l + (-c) -/
def SubExpr.createPartial (opt : Bool) {w : Nat} (l : Expr) (cr : BitVec w) : Created :=
  AddExpr.createPartialR opt (0 - cr) l

mutual
/-- `AddExpr::create` with a bound on the depth of its recursion. -/
def AddExpr.createFuel (opt : Bool) : Nat → Expr → Expr → Created
  | 0, _, _ => .error .unfinished
  | fuel + 1, l, r =>
    bcreateR (foldArith .add) (AddExpr.createPartialR opt) (fun l cr => AddExpr.createPartialR opt cr l)
      (fun l r =>
        if l.getWidth = 1 then .ok (.arith .xor l r)
        else
          match l, r with
          | .arith .add (.constant wk k) a, b => do
            -- (k+a)+b = k+(a+b)
            let sum ← AddExpr.createFuel opt fuel a b
            AddExpr.createFuel opt fuel (.constant wk k) sum
          | .arith .sub (.constant wk k) a, b => do
            -- (k-a)+b = k+(b-a)
            let difference ← SubExpr.createFuel opt fuel b a
            AddExpr.createFuel opt fuel (.constant wk k) difference
          | a, .arith .add (.constant wk k) b => do
            -- a + (k+b) = k+(a+b)
            let sum ← AddExpr.createFuel opt fuel a b
            AddExpr.createFuel opt fuel (.constant wk k) sum
          | a, .arith .sub (.constant wk k) b => do
            -- a + (k-b) = k+(a-b)
            let difference ← SubExpr.createFuel opt fuel a b
            AddExpr.createFuel opt fuel (.constant wk k) difference
          | a, b => .ok (.arith .add a b)) l r

/-- `SubExpr::create` with a bound on the depth of its recursion. -/
def SubExpr.createFuel (opt : Bool) : Nat → Expr → Expr → Created
  | 0, _, _ => .error .unfinished
  | fuel + 1, l, r =>
    bcreateR (foldArith .sub) (SubExpr.createPartialR opt) (SubExpr.createPartial opt)
      (fun l r =>
        if l.getWidth = 1 then .ok (.arith .xor l r)
        else if l = r then .ok (.constant l.getWidth 0)
        else
          match l, r with
          | .arith .add (.constant wk k) a, b => do
            -- (k+a)-b = k+(a-b)
            let difference ← SubExpr.createFuel opt fuel a b
            AddExpr.createFuel opt fuel (.constant wk k) difference
          | .arith .sub (.constant wk k) a, b => do
            -- (k-a)-b = k-(a+b)
            let sum ← AddExpr.createFuel opt fuel a b
            SubExpr.createFuel opt fuel (.constant wk k) sum
          | a, .arith .add (.constant wk k) b => do
            -- a - (k+b) = (a-b) - k
            let difference ← SubExpr.createFuel opt fuel a b
            SubExpr.createFuel opt fuel difference (.constant wk k)
          | a, .arith .sub (.constant wk k) b => do
            -- a - (k-b) = (a+b) - k
            let sum ← AddExpr.createFuel opt fuel a b
            SubExpr.createFuel opt fuel sum (.constant wk k)
          | a, b => .ok (.arith .sub a b)) l r
end

/-- No recursion is deeper than the operands. -/
def AddExpr.create (opt : Bool) (l r : Expr) : Created := AddExpr.createFuel opt (l.size + r.size) l r

def SubExpr.create (opt : Bool) (l r : Expr) : Created := SubExpr.createFuel opt (l.size + r.size) l r

/-! ### The other binary kinds -/

def MulExpr.createPartialR {w : Nat} (cl : BitVec w) (r : Expr) : Created :=
  if w = 1 then AndExpr.createPartial r cl
  else if cl = 1 then .ok r
  else if cl = 0 then .ok (.constant w cl)
  else .ok (.arith .mul (.constant w cl) r)

def MulExpr.create : Expr → Expr → Created :=
  bcreateR (foldArith .mul) MulExpr.createPartialR (fun l cr => MulExpr.createPartialR cr l) fun l r =>
    if l.getWidth = 1 then .ok (.arith .and l r) else .ok (.arith .mul l r)

/-- A one-bit divisor must be 1. -/
def createQuotient (kind : ArithKind) : Expr → Expr → Created :=
  bcreate (foldArith kind) fun l r => if l.getWidth = 1 then .ok l else .ok (.arith kind l r)

def UDivExpr.create : Expr → Expr → Created := createQuotient .udiv

def SDivExpr.create : Expr → Expr → Created := createQuotient .sdiv

def createRemainder (kind : ArithKind) : Expr → Expr → Created :=
  bcreate (foldArith kind) fun l r => if l.getWidth = 1 then .ok (boolean false) else .ok (.arith kind l r)

def URemExpr.create : Expr → Expr → Created := createRemainder .urem

def SRemExpr.create : Expr → Expr → Created := createRemainder .srem

/-- One-bit shifts that fill with zero are `l & !r`. -/
def createShift (opt : Bool) (kind : ArithKind) : Expr → Expr → Created :=
  bcreate (foldArith kind) fun l r =>
    if l.getWidth = 1 then do
      let isZero ← r.createIsZero opt
      AndExpr.create l isZero
    else .ok (.arith kind l r)

def ShlExpr.create (opt : Bool) : Expr → Expr → Created := createShift opt .shl

def LShrExpr.create (opt : Bool) : Expr → Expr → Created := createShift opt .lshr

def AShrExpr.create : Expr → Expr → Created :=
  bcreate (foldArith .ashr) fun l r => if l.getWidth = 1 then .ok l else .ok (.arith .ashr l r)

def createArith (opt : Bool) : ArithKind → Expr → Expr → Created
  | .add => AddExpr.create opt
  | .sub => SubExpr.create opt
  | .mul => MulExpr.create
  | .udiv => UDivExpr.create
  | .sdiv => SDivExpr.create
  | .urem => URemExpr.create
  | .srem => SRemExpr.create
  | .and => AndExpr.create
  | .or => OrExpr.create
  | .xor => XorExpr.create opt
  | .shl => ShlExpr.create opt
  | .lshr => LShrExpr.create opt
  | .ashr => AShrExpr.create

/-! ### Comparisons -/

def NeExpr.create (opt : Bool) (l r : Expr) : Created := do
  let eq ← EqExpr.create opt l r
  EqExpr.create opt (boolean false) eq

def UltExpr.create (opt : Bool) : Expr → Expr → Created :=
  bcreate (foldCmp .ult) fun l r =>
    if l.getWidth = 1 then do
      let isZero ← l.createIsZero opt
      AndExpr.create isZero r
    else .ok (.cmp .ult l r)

def UleExpr.create (opt : Bool) : Expr → Expr → Created :=
  bcreate (foldCmp .ule) fun l r =>
    if l.getWidth = 1 then do
      let isZero ← l.createIsZero opt
      OrExpr.create isZero r
    else .ok (.cmp .ule l r)

def SltExpr.create (opt : Bool) : Expr → Expr → Created :=
  bcreate (foldCmp .slt) fun l r =>
    if l.getWidth = 1 then do
      let isZero ← r.createIsZero opt
      AndExpr.create l isZero
    else .ok (.cmp .slt l r)

def SleExpr.create (opt : Bool) : Expr → Expr → Created :=
  bcreate (foldCmp .sle) fun l r =>
    if l.getWidth = 1 then do
      let isZero ← r.createIsZero opt
      OrExpr.create l isZero
    else .ok (.cmp .sle l r)

/-- The kinds of comparison that can be asked for. -/
inductive Comparison
  | eq | ne | ult | ule | ugt | uge | slt | sle | sgt | sge
  deriving DecidableEq

def createComparison (opt : Bool) (l r : Expr) : Comparison → Created
  | .eq => EqExpr.create opt l r
  | .ne => NeExpr.create opt l r
  | .ult => UltExpr.create opt l r
  | .ule => UleExpr.create opt l r
  | .ugt => UltExpr.create opt r l
  | .uge => UleExpr.create opt r l
  | .slt => SltExpr.create opt l r
  | .sle => SleExpr.create opt l r
  | .sgt => SltExpr.create opt r l
  | .sge => SleExpr.create opt r l

/-! ### Reads and selections -/

/-- The loop over the updates: the value of the first one at the index, if no update before it may be at the index. -/
def ReadExpr.rollback (opt : Bool) (index : Expr) : UpdateList → Except Abort (Option Expr)
  | .root _ => .ok none
  | .extend next updateIndex value => do
    let cond ← EqExpr.create opt index updateIndex
    match cond with
    | .constant wc c => if wc = 1 ∧ c ≠ 0 then .ok (some value) else rollback opt index next
    | _ => .ok none

def ReadExpr.create (opt : Bool) (ul : UpdateList) (index : Expr) : Created := do
  let value ← ReadExpr.rollback opt index ul
  return value.getD (.read ul index)

def SelectExpr.create (opt : Bool) (c t f : Expr) : Created :=
  if c.getWidth ≠ 1 ∨ t.getWidth ≠ f.getWidth then .error .assertion
  else
    match c with
    | .constant _ cc => .ok (if cc ≠ 0 then t else f)
    | _ =>
      if t = f then .ok t
      else if t.getWidth = 1 then
        match t, f with
        | .constant _ ct, _ =>
          if ct ≠ 0 then OrExpr.create c f
          else do
            let notC ← c.createIsZero opt
            AndExpr.create notC f
        | _, .constant _ cf =>
          if cf ≠ 0 then do
            let notC ← c.createIsZero opt
            OrExpr.create notC t
          else AndExpr.create c t
        | _, _ => .ok (.select c t f)
      else .ok (.select c t f)

end CapTaint.Klee
