import CapTaint.IntrinsicCleaner
import CapTaint.Lib.OptionLoop

/-! # Lowering of intrinsics

What is put in the place of an intrinsic does what the intrinsic does, but for the bit of a product: the product is compared
with a factor. -/

namespace CapTaint.IntrinsicCleaner
open OptionLoop

variable {size : WordSize} {ω : Type} {meaning : Meaning size ω} {f g : Operand size → Operand size}
  {env env₁ env₂ : Register → Option (Value size)} {m : Memory size} {code rest : List (Instruction size ω)} {s : State size}
  {o : Outcome size} {args : List (Value size)} {v : Value size} {n k : Nat} {r : Register}

/-! ### Runs -/

theorem run_cons (ii : Instruction size ω) (rest : List (Instruction size ω)) (s : State size) :
    run meaning (ii :: rest) s = (step meaning ii s).bind fun o => if o.stopped then some o else run meaning rest o.state := rfl

theorem run_single (ii : Instruction size ω) (s : State size) : run meaning [ii] s = step meaning ii s := by
  rw [run_cons]
  rcases step meaning ii s with _ | ⟨stopped, after⟩
  · rfl
  · cases stopped <;> rfl

theorem run_append : ∀ (code rest : List (Instruction size ω)) (s : State size), run meaning (code ++ rest) s =
    (run meaning code s).bind fun o => if o.stopped then some o else run meaning rest o.state
  | [], rest, s => rfl
  | ii :: code, rest, s => by
    rw [List.cons_append, run_cons, run_cons, Option.bind_assoc]
    refine congrArg _ (funext fun o => ?_)
    cases hstopped : o.stopped with
    | false => exact run_append code rest o.state
    | true =>
      rw [if_pos rfl, if_pos rfl, Option.bind_some, if_pos hstopped]

theorem step_eq {ii : Instruction size ω} {e : Effect size} (hargs : ii.operands.mapM (Operand.eval s.env) = some args)
    (he : effect meaning ii.opcode args s.memory = some e) : step meaning ii s = some (e.outcome ii.register s) := by
  rw [step, hargs]
  show (effect meaning ii.opcode args s.memory >>= _) = _
  rw [he]
  rfl

theorem step_cases {ii : Instruction size ω} (h : step meaning ii s = some o) :
    ∃ args e, ii.operands.mapM (Operand.eval s.env) = some args ∧ effect meaning ii.opcode args s.memory = some e ∧
      o = e.outcome ii.register s := by
  obtain ⟨args, hargs, h⟩ := Option.bind_eq_some_iff.mp h
  obtain ⟨e, he, h⟩ := Option.bind_eq_some_iff.mp h
  exact ⟨args, e, hargs, he, (Option.some.inj h).symm⟩

theorem Effect.outcome_env {e : Effect size} {r r' : Register} (h : r' ≠ r) : (e.outcome r s).state.env r' = s.env r' := if_neg h

theorem Effect.outcome_env_self (e : Effect size) (r : Register) (s : State size) :
    (e.outcome r s).state.env r = e.result.or (s.env r) := if_pos rfl

/-- Registers that no instruction of the run computes keep their values. -/
theorem run_env : ∀ {code : List (Instruction size ω)} {s : State size}, run meaning code s = some o →
    (∀ ii ∈ code, ii.register ≠ r) → o.state.env r = s.env r
  | [], s, h, _ => by
    cases h
    rfl
  | ii :: code, s, h, hne => by
    rw [run_cons] at h
    obtain ⟨o₁, hstep, h⟩ := Option.bind_eq_some_iff.mp h
    have hkeep : o₁.state.env r = s.env r := by
      obtain ⟨args, e, -, -, rfl⟩ := step_cases hstep
      exact Effect.outcome_env (Ne.symm (hne ii List.mem_cons_self))
    split_ifs at h with hstopped
    · cases h
      exact hkeep
    · exact (run_env h fun ii' hmem => hne ii' (List.mem_cons_of_mem ii hmem)).trans hkeep

/-! ### Operands -/

theorem Operand.eval_congr {a : Operand size} (h : ∀ r, a = .register r → env₂ r = env₁ r) : a.eval env₂ = a.eval env₁ := by
  rcases a with v | r
  · rfl
  · exact h r rfl

/-- Not computed in the place of the instruction `n`. -/
def Operand.Away (n : Nat) (a : Operand size) : Prop := ∀ r, a = .register r → r.place ≠ n

/-- A constant, or put in the place of the instruction `n`. -/
def Operand.Inserted (n : Nat) (a : Operand size) : Prop := (∃ v, a = .constant v) ∨ ∃ k, a = .register (.inserted n k)

/-- What uses are replaced by: only the values of intrinsics have others in their places. -/
structure Uses (f : Operand size → Operand size) : Prop where
  constant : ∀ v, f (.constant v) = .constant v
  inserted : ∀ n k, f (.register (.inserted n k)) = .register (.inserted n k)
  original : ∀ n, f (.register (.original n)) = .register (.original n) ∨ (f (.register (.original n))).Inserted n

namespace Uses

theorem id : Uses (id : Operand size → Operand size) := ⟨fun _ => rfl, fun _ _ => rfl, fun _ => .inl rfl⟩

theorem fixes (h : Uses f) {a : Operand size} (ha : a.Inserted n) : f a = a := by
  rcases ha with ⟨v, rfl⟩ | ⟨k, rfl⟩
  · exact h.constant v
  · exact h.inserted n k

theorem comp (hf : Uses f) (hg : Uses g) : Uses (f ∘ g) where
  constant v := (congrArg f (hg.constant v)).trans (hf.constant v)
  inserted n k := (congrArg f (hg.inserted n k)).trans (hf.inserted n k)
  original n := by
    rw [Function.comp_apply]
    rcases hg.original n with h | h
    · rw [h]
      exact hf.original n
    · rw [hf.fixes h]
      exact .inr h

theorem place (h : Uses f) {r : Register} (hr : f (.register (.original n)) = .register r) : r.place = n := by
  rcases h.original n with heq | ⟨v, heq⟩ | ⟨k, heq⟩
  · cases hr.symm.trans heq
    rfl
  · cases hr.symm.trans heq
  · cases hr.symm.trans heq
    rfl

end Uses

theorem mapM_two {l : List (Operand size)} {u v : Value size} (h : (l.map f).mapM (Operand.eval env) = some [u, v]) :
    ∃ a b, l = [a, b] ∧ (f a).eval env = some u ∧ (f b).eval env = some v := by
  rcases l with _ | ⟨a, l⟩
  · cases h
  obtain ⟨_, _, ha, h, heq⟩ := mapM_cons_eq_some.mp h
  cases heq
  rcases l with _ | ⟨b, l⟩
  · cases h
  obtain ⟨_, _, hb, h, heq⟩ := mapM_cons_eq_some.mp h
  cases heq
  rcases l with _ | ⟨c, l⟩
  · exact ⟨a, b, rfl, ha, hb⟩
  · obtain ⟨_, _, -, -, heq⟩ := mapM_cons_eq_some.mp h
    cases heq

theorem mapM_pair {a b : Operand size} {u v : Value size} (ha : a.eval env = some u) (hb : b.eval env = some v) :
    [a, b].mapM (Operand.eval env) = some [u, v] :=
  mapM_cons_eq_some.mpr ⟨u, [v], ha, mapM_cons_eq_some.mpr ⟨v, [], hb, rfl, rfl⟩, rfl⟩

/-- Constants have one value in all states. -/
theorem mapM_asConstant (hf : Uses f) : ∀ {l : List (Operand size)} {vs : List (Value size)},
    l.mapM Operand.asConstant = some vs → (l.map f).mapM (Operand.eval env) = some vs
  | [], vs, h => h
  | a :: l, vs, h => by
    obtain ⟨v, vs, ha, hl, rfl⟩ := mapM_cons_eq_some.mp h
    refine mapM_cons_eq_some.mpr ⟨v, vs, ?_, mapM_asConstant hf hl, rfl⟩
    rcases a with c | r
    · rw [hf.constant]
      exact ha
    · cases ha

/-! ### The builder -/

theorem effect_of_pure {opcode : Opcode ω} (h : pureValue opcode args = some v) (m : Memory size) :
    effect meaning opcode args m = some { result := some v, memory := m } := by
  cases opcode with
  | add | mul | icmpULT | insertValue => exact congrArg (valueEffect m) h
  | _ => cases h

/-- The instructions, with their uses replaced, run to the end. -/
def Runs (meaning : Meaning size ω) (f : Operand size → Operand size) (code : List (Instruction size ω))
    (env : Register → Option (Value size)) (m : Memory size) (env₁ : Register → Option (Value size)) (m₁ : Memory size) : Prop :=
  run meaning (code.map (Instruction.mapOperands f)) ⟨env, m⟩ = some ⟨false, env₁, m₁⟩

theorem Runs.append {m₁ m₂ : Memory size} (h : Runs meaning f code env m env₁ m₁) (h' : Runs meaning f rest env₁ m₁ env₂ m₂) :
    Runs meaning f (code ++ rest) env m env₂ m₂ := by
  rw [Runs, List.map_append, run_append, h]
  exact h'

theorem runs_single {opcode : Opcode ω} {operands : List (Operand size)} {e : Effect size}
    (hargs : (operands.map f).mapM (Operand.eval env) = some args) (he : effect meaning opcode args m = some e)
    (hstops : e.stops = false) :
    Runs meaning f [⟨r, opcode, operands⟩] env m (fun r' => if r' = r then e.result.or (env r) else env r') e.memory := by
  have hstep : step meaning (Instruction.mapOperands f ⟨r, opcode, operands⟩) ⟨env, m⟩ = some (e.outcome r ⟨env, m⟩) := step_eq hargs he
  refine (run_single _ _).trans (hstep.trans ?_)
  rw [Effect.outcome, hstops]

theorem create_fst (r : Register) (opcode : Opcode ω) (operands : List (Operand size)) (code : List (Instruction size ω)) :
    (∃ v, (create r opcode operands code).1 = .constant v) ∨ (create r opcode operands code).1 = .register r := by
  rw [create]
  rcases (operands.mapM Operand.asConstant).bind (pureValue opcode) with _ | v
  · exact .inr rfl
  · exact .inl ⟨v, rfl⟩

theorem create_inserted (n k : Nat) (opcode : Opcode ω) (operands : List (Operand size)) (code : List (Instruction size ω)) :
    (create (.inserted n k) opcode operands code).1.Inserted n :=
  (create_fst _ opcode operands code).imp_right fun h => ⟨k, h⟩

theorem create_eval {r : Register} {opcode : Opcode ω} {operands : List (Operand size)} (h : env₂ r = env₁ r) :
    (create r opcode operands code).1.eval env₂ = (create r opcode operands code).1.eval env₁ := by
  rcases create_fst r opcode operands code with ⟨v, heq⟩ | heq <;> rw [heq]
  · rfl
  · exact h

/-- A created value is there, and nothing else is changed. -/
theorem create_computes (hf : Uses f) {opcode : Opcode ω} {operands : List (Operand size)} (hcode : Runs meaning f code env m env₁ m)
    (hargs : (operands.map f).mapM (Operand.eval env₁) = some args) (hv : pureValue opcode args = some v) :
    ∃ env₂, Runs meaning f (create (.inserted n k) opcode operands code).2 env m env₂ m ∧
      (f (create (.inserted n k) opcode operands code).1).eval env₂ = some v ∧
      ∀ r, r ≠ .inserted n k → env₂ r = env₁ r := by
  rw [hf.fixes (create_inserted n k opcode operands code), create]
  rcases hfold : (operands.mapM Operand.asConstant).bind (pureValue opcode) with _ | v'
  · refine ⟨fun r => if r = .inserted n k then some v else env₁ r, ?_, if_pos rfl, fun r hr => if_neg hr⟩
    exact hcode.append (runs_single hargs (effect_of_pure hv m) rfl)
  · refine ⟨env₁, hcode, ?_, fun _ _ => rfl⟩
    obtain ⟨vs, hvs, hfold⟩ := Option.bind_eq_some_iff.mp hfold
    obtain rfl : vs = args := Option.some.inj ((mapM_asConstant hf hvs).symm.trans hargs)
    exact hfold.symm.trans hv

theorem create_two (hf : Uses f) {opcode : Opcode ω} {a b : Operand size} {x y : Value size} (k : Nat)
    (hcode : Runs meaning f code env m env₁ m) (ha : (f a).eval env₁ = some x) (hb : (f b).eval env₁ = some y)
    (hv : pureValue opcode [x, y] = some v) :
    ∃ env₂, Runs meaning f (create (.inserted n k) opcode [a, b] code).2 env m env₂ m ∧
      (f (create (.inserted n k) opcode [a, b] code).1).eval env₂ = some v ∧ ∀ r, r ≠ .inserted n k → env₂ r = env₁ r :=
  create_computes hf hcode (mapM_pair ha hb) hv

theorem lowerOverflow_computes (hf : Uses f) {opcode : Opcode ω} {combine : (w : Nat) → BitVec w → BitVec w → BitVec w}
    (hopcode : ∀ w a b, pureValue opcode [(.int w a : Value size), .int w b] = some (.int w (combine w a b)))
    {op1 op2 : Operand size} {w : Nat} {a b : BitVec w} (h1 : (f op1).eval env = some (.int w a))
    (h2 : (f op2).eval env = some (.int w b)) (haway : (f op1).Away n) :
    ∃ env', Runs meaning f (lowerOverflow opcode n op1 op2).code env m env' m ∧
      (∃ result, (lowerOverflow opcode n op1 op2).result = some result ∧ result.Inserted n ∧
        result.eval env' = some (.pair (.int w (combine w a b)) (bool ((combine w a b).ult a)))) ∧
      ∀ r, r.place ≠ n → env' r = env r := by
  obtain ⟨env₁, hcode₁, hresult, hkeep₁⟩ := create_two (n := n) (m := m) hf 0
    (show Runs meaning f [] env m env m from rfl) h1 h2 (hopcode w a b)
  have h1₁ : (f op1).eval env₁ = some (.int w a) :=
    (Operand.eval_congr fun r hr => hkeep₁ r fun h => haway r hr (h ▸ rfl)).trans h1
  have hult : pureValue (.icmpULT : Opcode ω) [(.int w (combine w a b) : Value size), .int w a] =
      some (bool ((combine w a b).ult a)) := by
    rw [pureValue, binary, if_pos rfl, BitVec.setWidth_eq]
    rfl
  obtain ⟨env₂, hcode₂, hoverflow, hkeep₂⟩ := create_two (n := n) hf 1 hcode₁ hresult h1₁ hult
  -- The result keeps its value while the other instructions are put behind it.
  rw [hf.fixes (create_inserted n 0 _ _ _)] at hresult
  have hresult₂ := (create_eval (hkeep₂ (.inserted n 0) (by simp))).trans hresult
  rw [← hf.fixes (create_inserted n 0 _ _ _)] at hresult₂
  obtain ⟨env₃, hcode₃, hfirst, hkeep₃⟩ := create_two (n := n) hf 2 hcode₂
    ((congrArg (Operand.eval env₂) (hf.constant _)).trans rfl) hresult₂ (rfl : pureValue (.insertValue 0) [.pair .undef .undef, _] = _)
  rw [hf.fixes (create_inserted n 1 _ _ _)] at hoverflow
  have hoverflow₃ := (create_eval (hkeep₃ (.inserted n 1) (by simp))).trans hoverflow
  rw [← hf.fixes (create_inserted n 1 _ _ _)] at hoverflow₃
  obtain ⟨env₄, hcode₄, hsecond, hkeep₄⟩ := create_two (n := n) hf 3 hcode₃ hfirst hoverflow₃
    (rfl : pureValue (.insertValue 1) [.pair _ .undef, _] = _)
  rw [hf.fixes (create_inserted n 3 _ _ _)] at hsecond
  refine ⟨env₄, hcode₄, ⟨_, rfl, create_inserted n 3 _ _ _, hsecond⟩, fun r hr => ?_⟩
  have hne : ∀ k, r ≠ .inserted n k := fun k h => hr (h ▸ rfl)
  rw [hkeep₄ r (hne 3), hkeep₃ r (hne 2), hkeep₂ r (hne 1), hkeep₁ r (hne 0)]

/-! ### Copies of memory -/

section
variable {bits : Nat}

theorem readBytes_div (m : BitVec bits → BitVec 8) : ∀ (n : Nat) (p : BitVec bits) (i : Nat), i < n →
    readBytes m p n / 256 ^ i % 256 = (m (p + BitVec.ofNat _ i)).toNat
  | n + 1, p, 0, _ => by
    have hlt := (m p).isLt
    rw [readBytes, pow_zero, Nat.div_one, BitVec.add_zero]
    omega
  | n + 1, p, i + 1, hi => by
    have hlt := (m p).isLt
    have hdiv : ((m p).toNat + 256 * readBytes m (p + 1) n) / 256 = readBytes m (p + 1) n := by omega
    rw [readBytes, pow_succ', ← Nat.div_div_eq_div_mul, hdiv, readBytes_div m n (p + 1) i (by omega), BitVec.add_assoc,
      BitVec.add_comm 1, BitVec.ofNat_add]
    rfl

theorem writeBytes_readBytes (m : BitVec bits → BitVec 8) (dst src : BitVec bits) (n : Nat) :
    writeBytes m dst n (readBytes m src n) = copyBytes m dst src n := by
  funext x
  rw [writeBytes, copyBytes]
  by_cases hx : (x - dst).toNat < n
  · rw [if_pos hx, if_pos hx]
    refine BitVec.eq_of_toNat_eq ?_
    rw [BitVec.toNat_ofNat, readBytes_div m n src _ hx, BitVec.ofNat_toNat, BitVec.setWidth_eq]
  · rw [if_neg hx, if_neg hx]

theorem readBytes_lt (m : BitVec bits → BitVec 8) : ∀ (n : Nat) (p : BitVec bits), readBytes m p n < 256 ^ n
  | 0, _ => Nat.one_pos
  | n + 1, p => by
    have hlt := (m p).isLt
    have hrest := readBytes_lt m n (p + 1)
    rw [readBytes, pow_succ']
    omega

end

/-- The bytes from the `a`-th on start at `dst + a`. -/
theorem toNat_sub_add (dst x : BitVec 64) {a : Nat} (ha : a < 2 ^ 64) :
    (x - (dst + BitVec.ofNat 64 a)).toNat = ((x - dst).toNat + 2 ^ 64 - a) % 2 ^ 64 := by
  rw [← BitVec.sub_sub, BitVec.toNat_sub, BitVec.toNat_ofNat, Nat.mod_eq_of_lt ha]
  congr 1
  omega

theorem add_sub_add (dst src x c : BitVec 64) : src + c + (x - (dst + c)) = src + (x - dst) := by
  ring

/-- What a copy reads behind its first `a` bytes it has not written. -/
theorem Separate.source {dst src y : BitVec 64} {a n : Nat} (h : Separate dst src n) (hy : y.toNat < n) (ha : a ≤ y.toNat) :
    ¬(src + y - dst).toNat < a := by
  rcases h with rfl | ⟨hafter, hbefore⟩
  · rw [BitVec.add_comm, BitVec.add_sub_cancel]
    omega
  · have hinside : (src + y - dst).toNat = ((src - dst).toNat + y.toNat) % 2 ^ 64 := by
      rw [← BitVec.toNat_add]
      congr 1
      ring
    have hsum : (dst - src).toNat = (2 ^ 64 - (src - dst).toNat) % 2 ^ 64 := by
      rw [← BitVec.toNat_neg]
      congr 1
      ring
    have hlt := y.isLt
    have hlt' := (src - dst).isLt
    omega

/-- A copy of `a` bytes and then of the `b` behind them. -/
theorem copyBytes_add (m : BitVec 64 → BitVec 8) {dst src : BitVec 64} {a b : Nat} (hfits : a + b < 2 ^ 64)
    (h : Separate dst src (a + b)) :
    copyBytes (copyBytes m dst src a) (dst + BitVec.ofNat 64 a) (src + BitVec.ofNat 64 a) b =
      copyBytes m dst src (a + b) := by
  funext x
  have hoffset := toNat_sub_add dst x (by omega : a < 2 ^ 64)
  have hlt : (x - dst).toNat < 2 ^ 64 := (x - dst).isLt
  simp only [copyBytes]
  by_cases hax : a ≤ (x - dst).toNat
  · by_cases hx : (x - dst).toNat < a + b
    · have hrest : (x - (dst + BitVec.ofNat 64 a)).toNat < b := by omega
      rw [if_pos hrest, if_pos hx, add_sub_add, if_neg (h.source hx hax)]
    · have hrest : ¬(x - (dst + BitVec.ofNat 64 a)).toNat < b := by omega
      rw [if_neg hrest, if_neg hx, if_neg (by omega)]
  · have hrest : ¬(x - (dst + BitVec.ofNat 64 a)).toNat < b := by omega
    rw [if_neg hrest, if_pos (by omega), if_pos (by omega)]

theorem copyBytes_three (m : BitVec 64 → BitVec 8) {dst src : BitVec 64} (h : Separate dst src 24) :
    copyBytes (copyBytes (copyBytes m dst src 8) (dst + 8) (src + 8) 8) (dst + 8 + 8) (src + 8 + 8) 8 =
      copyBytes m dst src 24 := by
  have hpart : Separate dst src 16 := h.imp_right fun h => ⟨le_trans (by decide) h.1, le_trans (by decide) h.2⟩
  have hnext : ∀ p : BitVec 64, p + 8 + 8 = p + BitVec.ofNat 64 16 := fun p => BitVec.add_assoc p 8 8
  rw [hnext, hnext]
  exact (congrArg (copyBytes · _ _ 8) (copyBytes_add m (by decide) hpart)).trans (copyBytes_add m (by decide) h)

/-! ### Copies of a list of arguments -/

/-- Only values from the `k`-th one in the place of `n` on differ. -/
def Keeps (n k : Nat) (env env₁ : Register → Option (Value size)) : Prop := ∀ r, (∀ j, k ≤ j → r ≠ .inserted n j) → env₁ r = env r

theorem Keeps.inserted {i : Nat} (h : Keeps n k env env₁) (hi : i < k) : env₁ (.inserted n i) = env (.inserted n i) := by
  refine h _ fun j hj heq => ?_
  obtain ⟨-, rfl⟩ := Register.inserted.inj heq
  exact absurd hi (Nat.not_lt.mpr hj)

theorem Keeps.trans {k' : Nat} (h : Keeps n k env env₁) (h' : Keeps n k' env₁ env₂) (hk : k ≤ k') : Keeps n k env env₂ :=
  fun r hr => (h' r fun j hj => hr j (hk.trans hj)).trans (h r hr)

theorem Keeps.away (h : Keeps n k env env₁) {r : Register} (hr : r.place ≠ n) : env₁ r = env r :=
  h r fun _ _ heq => hr (heq ▸ rfl)

theorem Keeps.eval (h : Keeps n k env env₁) {a : Operand size} (ha : a.Away n) : a.eval env₁ = a.eval env :=
  Operand.eval_congr fun r hr => h.away (ha r hr)

theorem mapM_single {a : Operand size} (ha : a.eval env = some v) : [a].mapM (Operand.eval env) = some [v] :=
  mapM_cons_eq_some.mpr ⟨v, [], ha, rfl, rfl⟩

/-- An instruction that computes a value. -/
theorem value_runs (meaning : Meaning size ω) (m : Memory size) (n k : Nat) (opcode : Opcode ω) (operands : List (Operand size))
    (hargs : (operands.map f).mapM (Operand.eval env) = some args)
    (he : effect meaning opcode args m = some { result := some v, memory := m }) :
    ∃ env₁, Runs meaning f [⟨.inserted n k, opcode, operands⟩] env m env₁ m ∧ env₁ (.inserted n k) = some v ∧ Keeps n k env env₁ :=
  ⟨_, runs_single hargs he rfl, if_pos rfl, fun _ hr => if_neg (hr k le_rfl)⟩

/-- A store of the value that the instruction before it has loaded. -/
theorem store_runs (meaning : Meaning size ω) (hf : Uses f) (n k : Nat) {i j : Nat} {p : BitVec size.bits} {m₁ : Memory size}
    (hv : env (.inserted n i) = some v) (hp : env (.inserted n j) = some (.pointer p))
    (he : store [v, .pointer p] m = some { result := none, memory := m₁ }) :
    ∃ env₁, Runs meaning f [⟨.inserted n k, .store, [.register (.inserted n i), .register (.inserted n j)]⟩] env m env₁ m₁ ∧
      Keeps n k env env₁ := by
  have hargs : ([Operand.register (.inserted n i), .register (.inserted n j)].map f).mapM (Operand.eval env) = some [v, .pointer p] :=
    mapM_pair ((congrArg (Operand.eval env) (hf.inserted n i)).trans hv) ((congrArg (Operand.eval env) (hf.inserted n j)).trans hp)
  have heffect : effect meaning .store [v, .pointer p] m = some { result := none, memory := m₁ } := he
  exact ⟨_, runs_single hargs heffect rfl, fun _ hr => if_neg (hr k le_rfl)⟩

/-- The casts of the two pointers. -/
theorem casts_runs (meaning : Meaning size ω) (m : Memory size) {dst src : Operand size} {p q : BitVec size.bits}
    (hdst : (f dst).eval env = some (.pointer p))
    (hsrc : (f src).eval env = some (.pointer q)) (haway : (f src).Away n) :
    ∃ env₁, Runs meaning f [⟨.inserted n 0, .pointerCast, [dst]⟩, ⟨.inserted n 1, .pointerCast, [src]⟩] env m env₁ m ∧
      (env₁ (.inserted n 0) = some (.pointer p) ∧ env₁ (.inserted n 1) = some (.pointer q)) ∧ Keeps n 0 env env₁ := by
  obtain ⟨env₁, hrun₁, hp, hkeep₁⟩ := value_runs meaning m n 0 .pointerCast [dst] (mapM_single hdst) rfl
  obtain ⟨env₂, hrun₂, hq, hkeep₂⟩ := value_runs meaning m n 1 .pointerCast [src] (mapM_single ((hkeep₁.eval haway).trans hsrc)) rfl
  exact ⟨env₂, hrun₁.append hrun₂, ⟨(hkeep₂.inserted Nat.one_pos).trans hp, hq⟩, hkeep₁.trans hkeep₂ (Nat.zero_le 1)⟩

theorem lowerVaCopy_four_runs {f : Operand .four → Operand .four} {meaning : Meaning .four ω} {m : Memory .four}
    {env : Register → Option (Value .four)} (hf : Uses f) {dst src : Operand .four} {p q : BitVec WordSize.four.bits}
    (hdst : (f dst).eval env = some (.pointer p)) (hsrc : (f src).eval env = some (.pointer q)) (haway : (f src).Away n) :
    ∃ env', Runs meaning f (lowerVaCopy .four n dst src) env m env' (copyBytes m p q 4) ∧ Keeps n 0 env env' := by
  obtain ⟨env₁, hrun₁, ⟨hp, hq⟩, hkeep₁⟩ := casts_runs meaning m hdst hsrc haway
  obtain ⟨env₂, hrun₂, hv, hkeep₂⟩ := value_runs meaning m n 2 .loadPointer [.register (.inserted n 1)]
    (mapM_single ((congrArg (Operand.eval env₁) (hf.inserted n 1)).trans hq)) rfl
  have hstore : store [.pointer (BitVec.ofNat _ (readBytes m q 4)), .pointer p] m =
      some { result := none, memory := copyBytes m p q 4 } := by
    have hword : (BitVec.ofNat WordSize.four.bits (readBytes m q 4)).toNat = readBytes m q 4 :=
      (BitVec.toNat_ofNat _ _).trans (Nat.mod_eq_of_lt (readBytes_lt m 4 q))
    show some (Effect.mk none (writeBytes m p 4 _) false) = _
    rw [hword, writeBytes_readBytes]
  obtain ⟨env₃, hrun₃, hkeep₃⟩ := store_runs meaning hf n 3 hv ((hkeep₂.inserted Nat.two_pos).trans hp) hstore
  exact ⟨env₃, (hrun₁.append hrun₂).append hrun₃, (hkeep₁.trans hkeep₂ (Nat.zero_le 2)).trans hkeep₃ (Nat.zero_le 3)⟩

section
variable {f : Operand .eight → Operand .eight} {meaning : Meaning .eight ω} {m : Memory .eight}
  {env : Register → Option (Value .eight)} {i j : Nat} {p q : BitVec 64}

theorem copyInt64_runs (meaning : Meaning .eight ω) (m : Memory .eight) (hf : Uses f) (n k : Nat) (hp : env (.inserted n i) = some (.pointer p))
    (hq : env (.inserted n j) = some (.pointer q)) (hi : i < k) :
    ∃ env', Runs meaning f (copyInt64 n k (.register (.inserted n i)) (.register (.inserted n j))) env m env' (copyBytes m p q 8) ∧
      Keeps n k env env' := by
  obtain ⟨env₁, hrun₁, hv, hkeep₁⟩ := value_runs meaning m n k .loadInt64 [.register (.inserted n j)]
    (mapM_single ((congrArg (Operand.eval env) (hf.inserted n j)).trans hq)) rfl
  have hstore : store [(.int 64 (BitVec.ofNat 64 (readBytes m q 8)) : Value .eight), .pointer p] m =
      some { result := none, memory := copyBytes m p q 8 } := by
    have hword : (BitVec.ofNat 64 (readBytes m q 8)).toNat = readBytes m q 8 :=
      (BitVec.toNat_ofNat _ _).trans (Nat.mod_eq_of_lt (readBytes_lt m 8 q))
    show some (Effect.mk none (writeBytes m p 8 _) false) = _
    rw [hword]
    exact congrArg (fun m₁ => some (Effect.mk none m₁ false)) (writeBytes_readBytes m p q 8)
  obtain ⟨env₂, hrun₂, hkeep₂⟩ := store_runs meaning hf n (k + 1) hv ((hkeep₁.inserted hi).trans hp) hstore
  exact ⟨env₂, hrun₁.append hrun₂, hkeep₁.trans hkeep₂ (Nat.le_succ k)⟩

theorem advance_runs (meaning : Meaning .eight ω) (m : Memory .eight) (hf : Uses f) (n k : Nat) (hp : env (.inserted n i) = some (.pointer p))
    (hq : env (.inserted n j) = some (.pointer q)) (hj : j < k) :
    ∃ env', Runs meaning f (advance n k (.register (.inserted n i)) (.register (.inserted n j))) env m env' m ∧
      (env' (.inserted n k) = some (.pointer (p + 8 : BitVec 64)) ∧
        env' (.inserted n (k + 1)) = some (.pointer (q + 8 : BitVec 64))) ∧ Keeps n k env env' := by
  have hargs : ∀ {env : Register → Option (Value .eight)} {i : Nat} {p : BitVec 64}, env (.inserted n i) = some (.pointer p) →
      ([Operand.register (.inserted n i), .constant (.int 64 1)].map f).mapM (Operand.eval env) = some [.pointer p, .int 64 1] :=
    fun h => mapM_pair ((congrArg _ (hf.inserted n _)).trans h) ((congrArg _ (hf.constant _)).trans rfl)
  obtain ⟨env₁, hrun₁, hp', hkeep₁⟩ := value_runs meaning m n k .getElementPtr _ (hargs hp) rfl
  obtain ⟨env₂, hrun₂, hq', hkeep₂⟩ := value_runs meaning m n (k + 1) .getElementPtr _
    (hargs ((hkeep₁.inserted hj).trans hq)) rfl
  exact ⟨env₂, hrun₁.append hrun₂, ⟨(hkeep₂.inserted (Nat.lt_succ_self k)).trans hp', hq'⟩, hkeep₁.trans hkeep₂ (Nat.le_succ k)⟩

theorem lowerVaCopy_eight_runs (hf : Uses f) {dst src : Operand .eight} (hdst : (f dst).eval env = some (.pointer p))
    (hsrc : (f src).eval env = some (.pointer q)) (haway : (f src).Away n) (hseparate : Separate p q 24) :
    ∃ env', Runs meaning f (lowerVaCopy .eight n dst src) env m env' (copyBytes m p q 24) ∧ Keeps n 0 env env' := by
  obtain ⟨env₁, hrun₁, ⟨hp₁, hq₁⟩, hkeep₁⟩ := casts_runs meaning m hdst hsrc haway
  obtain ⟨env₂, hrun₂, hkeep₂⟩ := copyInt64_runs meaning m hf n 2 hp₁ hq₁ (by decide)
  obtain ⟨env₃, hrun₃, ⟨hp₃, hq₃⟩, hkeep₃⟩ := advance_runs meaning (copyBytes m p q 8) hf n 4
    ((hkeep₂.inserted (by decide)).trans hp₁) ((hkeep₂.inserted (by decide)).trans hq₁) (by decide)
  obtain ⟨env₄, hrun₄, hkeep₄⟩ := copyInt64_runs meaning (copyBytes m p q 8) hf n 6 hp₃ hq₃ (by decide)
  obtain ⟨env₅, hrun₅, ⟨hp₅, hq₅⟩, hkeep₅⟩ := advance_runs meaning
    (copyBytes (copyBytes m p q 8) (p + 8 : BitVec 64) (q + 8 : BitVec 64) 8) hf n 8
    ((hkeep₄.inserted (by decide)).trans hp₃) ((hkeep₄.inserted (by decide)).trans hq₃) (by decide)
  obtain ⟨env₆, hrun₆, hkeep₆⟩ := copyInt64_runs meaning (copyBytes (copyBytes m p q 8) (p + 8 : BitVec 64) (q + 8 : BitVec 64) 8)
    hf n 10 hp₅ hq₅ (by decide)
  have hall : Runs meaning f _ env₅ _ env₆ (copyBytes m p q 24) :=
    (congrArg (Runs meaning f _ env₅ _ env₆) (copyBytes_three m hseparate)).mp hrun₆
  refine ⟨env₆, ((((hrun₁.append hrun₂).append hrun₃).append hrun₄).append hrun₅).append hall, ?_⟩
  exact ((((hkeep₁.trans hkeep₂ (Nat.zero_le _)).trans hkeep₃ (Nat.zero_le _)).trans hkeep₄ (Nat.zero_le _)).trans hkeep₅
    (Nat.zero_le _)).trans hkeep₆ (Nat.zero_le _)

end

/-! ### Overflow -/

theorem binary_cases {g : (w : Nat) → BitVec w → BitVec w → Value size} (h : binary g args = some v) :
    ∃ (w : Nat) (a b : BitVec w), args = [.int w a, .int w b] ∧ v = g w a b := by
  rw [binary.eq_def] at h
  split at h
  · split_ifs at h with heq
    subst heq
    rw [BitVec.setWidth_eq] at h
    exact ⟨_, _, _, rfl, (Option.some.inj h).symm⟩
  · cases h

theorem ult_add {w : Nat} (a b : BitVec w) : (a + b).ult a = decide (2 ^ w ≤ a.toNat + b.toNat) := by
  have ha := a.isLt
  have hb := b.isLt
  rw [BitVec.ult, BitVec.toNat_add]
  refine decide_eq_decide.mpr ?_
  by_cases hfits : a.toNat + b.toNat < 2 ^ w
  · rw [Nat.mod_eq_of_lt hfits]
    omega
  · have hrest : (a.toNat + b.toNat) % 2 ^ w = a.toNat + b.toNat - 2 ^ w := by
      rw [Nat.mod_eq_sub_mod (Nat.le_of_not_lt hfits), Nat.mod_eq_of_lt (by omega)]
    omega

/-- The product is below the first factor exactly when it does not fit. -/
def ProductDetected (modulus a b : Nat) : Prop := (b = 0 → a = 0) ∧ (modulus ≤ a * b → a * b % modulus < a)

theorem ult_mul_iff {w : Nat} (a b : BitVec w) : (a * b).ult a = decide (2 ^ w ≤ a.toNat * b.toNat) ↔
    ProductDetected (2 ^ w) a.toNat b.toNat := by
  rw [BitVec.ult, BitVec.toNat_mul, decide_eq_decide, ProductDetected]
  by_cases hfits : a.toNat * b.toNat < 2 ^ w
  · have hbelow : a.toNat * b.toNat < a.toNat ↔ ¬(b.toNat = 0 → a.toNat = 0) := by
      rcases Nat.eq_zero_or_pos b.toNat with hb | hb
      · rw [hb, Nat.mul_zero]
        omega
      · have hle := Nat.le_mul_of_pos_right a.toNat hb
        omega
    rw [Nat.mod_eq_of_lt hfits, hbelow]
    constructor
    · exact fun h => ⟨Classical.not_not.mp fun hzero => absurd (h.mp hzero) (Nat.not_le.mpr hfits), fun h => absurd h (Nat.not_le.mpr hfits)⟩
    · exact fun h => ⟨fun hzero => absurd h.1 hzero, fun h => absurd h (Nat.not_le.mpr hfits)⟩
  · have hb : b.toNat ≠ 0 := by
      intro hb
      rw [hb, Nat.mul_zero] at hfits
      exact hfits (Nat.two_pow_pos w)
    have hle := Nat.le_of_not_lt hfits
    exact ⟨fun h => ⟨fun hzero => absurd hzero hb, h.mpr⟩, fun h => ⟨fun _ => hle, h.2⟩⟩

/-- The bit of a product is right. -/
def Detected (opcode : Opcode ω) (args : List (Value size)) : Prop :=
  opcode = .intrinsic .umul_with_overflow → ∀ (w : Nat) (a b : BitVec w), args = [.int w a, .int w b] →
    ProductDetected (2 ^ w) a.toNat b.toNat

/-! ### What is put in the place of an instruction -/

/-- The code does the effect: it ends in its memory, its result is there, and the values of other places are as before. -/
def Does (meaning : Meaning size ω) (f : Operand size → Operand size) (r : Register) (l : Lowering size ω)
    (env : Register → Option (Value size)) (m : Memory size) (e : Effect size) : Prop :=
  ∃ env', run meaning (l.code.map (Instruction.mapOperands f)) ⟨env, m⟩ = some ⟨e.stops, env', e.memory⟩ ∧
    (∀ r', r'.place ≠ r.place → env' r' = env r') ∧
    (∀ result, l.result = some result → ∃ v, e.result = some v ∧ result.eval env' = some v) ∧
    (l.result = none → env' r = e.result.or (env r))

/-- An instruction of the block as it was. The operands of intrinsics are computed before. -/
def Ready (f : Operand size → Operand size) (ii : Instruction size ω) : Prop :=
  (∃ n, ii.register = .original n) ∧ ∀ id, ii.opcode = .intrinsic id → ∀ a ∈ ii.operands, (f a).Away ii.register.place

/-- The code is in the place of the instruction, and does what the instruction does. -/
structure Implements (meaning : Meaning size ω) (ii : Instruction size ω) (l : Lowering size ω) : Prop where
  place : ∀ jj ∈ l.code, jj.register.place = ii.register.place
  inserted : ∀ result, l.result = some result → result.Inserted ii.register.place
  does : ∀ f env m args e, Uses f → Ready f ii → (ii.operands.map f).mapM (Operand.eval env) = some args →
    effect meaning ii.opcode args m = some e → Does meaning f ii.register l env m e

/-- An instruction that is kept. -/
theorem implements_self (meaning : Meaning size ω) (ii : Instruction size ω) : Implements meaning ii ⟨[ii], none⟩ where
  place jj hjj := by rw [List.mem_singleton.mp hjj]
  inserted _ h := absurd h.symm (Option.some_ne_none _)
  does f env m args e _ _ hargs he := by
    have hstep : step meaning (ii.mapOperands f) ⟨env, m⟩ = some (e.outcome ii.register ⟨env, m⟩) := step_eq hargs he
    refine ⟨_, ?_, fun r hr => Effect.outcome_env (e := e) (s := ⟨env, m⟩) fun h => hr (h ▸ rfl),
      fun _ h => absurd h.symm (Option.some_ne_none _),
      fun _ => Effect.outcome_env_self e ii.register ⟨env, m⟩⟩
    exact (run_single _ _).trans hstep

theorem lowerOverflow_place (opcode : Opcode ω) (n : Nat) (op1 op2 : Operand size) :
    ∀ jj ∈ (lowerOverflow opcode n op1 op2).code, jj.register.place = n := by
  have hcreate : ∀ (k : Nat) (opcode : Opcode ω) (operands : List (Operand size)) (code : List (Instruction size ω)),
      (∀ jj ∈ code, jj.register.place = n) → ∀ jj ∈ (create (.inserted n k) opcode operands code).2, jj.register.place = n := by
    intro k opcode operands code hcode jj hjj
    rw [create] at hjj
    rcases hfold : (operands.mapM Operand.asConstant).bind (pureValue opcode) with _ | v <;> rw [hfold] at hjj
    · rcases List.mem_append.mp hjj with hjj | hjj
      · exact hcode jj hjj
      · rw [List.mem_singleton.mp hjj]
        rfl
    · exact hcode jj hjj
  exact hcreate 3 _ _ _ (hcreate 2 _ _ _ (hcreate 1 _ _ _ (hcreate 0 _ _ _ fun jj hjj => absurd hjj List.not_mem_nil)))

theorem lowerVaCopy_place (n : Nat) (dst src : Operand size) :
    ∀ jj ∈ (lowerVaCopy size n dst src : List (Instruction size ω)), jj.register.place = n := by
  cases size <;> simp [lowerVaCopy, copyInt64, advance, Register.place]

theorem lowerOverflow_inserted (opcode : Opcode ω) (n : Nat) (op1 op2 : Operand size) :
    ∀ result, (lowerOverflow opcode n op1 op2).result = some result → result.Inserted n := by
  rintro result h
  cases h
  exact create_inserted n 3 _ _ _

theorem overflow_does (hf : Uses f) {opcode : Opcode ω} {combine : (w : Nat) → BitVec w → BitVec w → BitVec w}
    (hopcode : ∀ w a b, pureValue opcode [(.int w a : Value size), .int w b] = some (.int w (combine w a b)))
    {ii : Instruction size ω} (hready : ∀ a ∈ ii.operands, (f a).Away ii.register.place) {w : Nat} {a b : BitVec w}
    (hargs : (ii.operands.map f).mapM (Operand.eval env) = some [.int w a, .int w b]) :
    Does meaning f ii.register (lowerOverflow opcode ii.register.place (ii.getArgOperand 0) (ii.getArgOperand 1)) env m
      { result := some (.pair (.int w (combine w a b)) (bool ((combine w a b).ult a))), memory := m } := by
  obtain ⟨x, y, hoperands, hx, hy⟩ := mapM_two hargs
  have haway : (f x).Away ii.register.place := hready x (hoperands ▸ List.mem_cons_self)
  rw [Instruction.getArgOperand, Instruction.getArgOperand, hoperands]
  obtain ⟨env', hrun, ⟨result, hresult, -, hv⟩, hkeep⟩ := lowerOverflow_computes (m := m) hf hopcode hx hy haway
  refine ⟨env', hrun, hkeep, fun result' h => ⟨_, rfl, ?_⟩, fun h => ?_⟩
  · cases hresult.symm.trans h
    exact hv
  · cases hresult.symm.trans h

theorem uaddWithOverflow_eq {w : Nat} (a b : BitVec w) :
    (uaddWithOverflow w a b : Value size) = .pair (.int w (a + b)) (bool ((a + b).ult a)) := by
  rw [uaddWithOverflow, BitVec.ofNat_add, BitVec.ofNat_toNat, BitVec.ofNat_toNat, BitVec.setWidth_eq, BitVec.setWidth_eq, ult_add]

theorem umulWithOverflow_eq {w : Nat} (a b : BitVec w) :
    (umulWithOverflow w a b : Value size) = .pair (.int w (a * b)) (bool (2 ^ w ≤ a.toNat * b.toNat)) := by
  rw [umulWithOverflow, BitVec.ofNat_mul, BitVec.ofNat_toNat, BitVec.ofNat_toNat, BitVec.setWidth_eq, BitVec.setWidth_eq]

theorem pureValue_add (w : Nat) (a b : BitVec w) :
    pureValue (.add : Opcode ω) [(.int w a : Value size), .int w b] = some (.int w (a + b)) := by
  rw [pureValue, binary, if_pos rfl, BitVec.setWidth_eq]
  rfl

theorem pureValue_mul (w : Nat) (a b : BitVec w) :
    pureValue (.mul : Opcode ω) [(.int w a : Value size), .int w b] = some (.int w (a * b)) := by
  rw [pureValue, binary, if_pos rfl, BitVec.setWidth_eq]
  rfl

theorem valueEffect_cases {value : Option (Value size)} {e : Effect size} (h : valueEffect m value = some e) :
    ∃ v, value = some v ∧ e = { result := some v, memory := m } := by
  obtain ⟨v, hv, rfl⟩ := Option.map_eq_some_iff.mp h
  exact ⟨v, hv, rfl⟩

theorem uadd_implements {ii : Instruction size ω} (hopcode : ii.opcode = .intrinsic .uadd_with_overflow) :
    Implements meaning ii (lowerOverflow .add ii.register.place (ii.getArgOperand 0) (ii.getArgOperand 1)) where
  place := lowerOverflow_place _ _ _ _
  inserted := lowerOverflow_inserted _ _ _ _
  does f env m args e hf hready hargs he := by
    rw [hopcode] at he
    obtain ⟨v, hv, rfl⟩ := valueEffect_cases he
    obtain ⟨w, a, b, rfl, rfl⟩ := binary_cases hv
    rw [uaddWithOverflow_eq]
    exact overflow_does hf pureValue_add (hready.2 _ hopcode) hargs

/-- The pair that the code computes for a product, next to the one of the intrinsic. -/
theorem umul_does {ii : Instruction size ω} (hopcode : ii.opcode = .intrinsic .umul_with_overflow) {e : Effect size} (hf : Uses f)
    (hready : Ready f ii) (hargs : (ii.operands.map f).mapM (Operand.eval env) = some args)
    (he : effect meaning ii.opcode args m = some e) :
    ∃ (w : Nat) (a b : BitVec w), args = [.int w a, .int w b] ∧
      e = { result := some (.pair (.int w (a * b)) (bool (2 ^ w ≤ a.toNat * b.toNat))), memory := m } ∧
      Does meaning f ii.register (lowerOverflow .mul ii.register.place (ii.getArgOperand 0) (ii.getArgOperand 1)) env m
        { result := some (.pair (.int w (a * b)) (bool ((a * b).ult a))), memory := m } := by
  rw [hopcode] at he
  obtain ⟨v, hv, rfl⟩ := valueEffect_cases he
  obtain ⟨w, a, b, rfl, rfl⟩ := binary_cases hv
  exact ⟨w, a, b, rfl, by rw [umulWithOverflow_eq], overflow_does hf pureValue_mul (hready.2 _ hopcode) hargs⟩

theorem vaCopy_cases {e : Effect size} (h : vaCopy args m = some e) : ∃ p q, args = [.pointer p, .pointer q] ∧
    Separate p q size.vaListBytes ∧ e = { result := none, memory := copyBytes m p q size.vaListBytes } := by
  rw [vaCopy.eq_def] at h
  split at h
  · split_ifs at h with hseparate
    exact ⟨_, _, rfl, hseparate, (Option.some.inj h).symm⟩
  · cases h

theorem vaCopy_implements (meaning : Meaning size ω) {ii : Instruction size ω} (hopcode : ii.opcode = .intrinsic .vacopy) :
    Implements meaning ii ⟨lowerVaCopy size ii.register.place (ii.getArgOperand 0) (ii.getArgOperand 1), none⟩ where
  place := lowerVaCopy_place _ _ _
  inserted _ h := absurd h.symm (Option.some_ne_none _)
  does f env m args e hf hready hargs he := by
    rw [hopcode] at he
    obtain ⟨p, q, rfl, hseparate, rfl⟩ := vaCopy_cases he
    obtain ⟨x, y, hoperands, hx, hy⟩ := mapM_two hargs
    have haway : (f y).Away ii.register.place := hready.2 _ hopcode y (hoperands ▸ by simp)
    rw [Instruction.getArgOperand, Instruction.getArgOperand, hoperands]
    have hcopy : ∃ env', Runs meaning f (lowerVaCopy size ii.register.place x y) env m env' (copyBytes m p q size.vaListBytes) ∧
        Keeps ii.register.place 0 env env' := by
      cases size with
      | four => exact lowerVaCopy_four_runs hf hx hy haway
      | eight => exact lowerVaCopy_eight_runs hf hx hy haway hseparate
    obtain ⟨env', hrun, hkeep⟩ := hcopy
    obtain ⟨n, hregister⟩ := hready.1
    refine ⟨env', hrun, fun r hr => hkeep.away hr, fun _ h => absurd h.symm (Option.some_ne_none _), fun _ => hkeep _ fun j _ hj => ?_⟩
    cases hregister.symm.trans hj

/-- Debug intrinsics are deleted. -/
theorem nothing_implements {ii : Instruction size ω} (h : ∀ args m, effect meaning ii.opcode args m = some { result := none, memory := m }) :
    Implements meaning ii ⟨[], none⟩ where
  place _ h := absurd h List.not_mem_nil
  inserted _ h := absurd h.symm (Option.some_ne_none _)
  does f env m args e _ _ _ he := by
    cases (h args m).symm.trans he
    exact ⟨env, rfl, fun _ _ => rfl, fun _ h => absurd h.symm (Option.some_ne_none _), fun _ => rfl⟩

theorem trap_implements {ii : Instruction size ω} (hopcode : ii.opcode = .intrinsic .trap) :
    Implements meaning ii
      ⟨[⟨.inserted ii.register.place 0, .callAbort, []⟩, ⟨.inserted ii.register.place 1, .unreachable, []⟩], none⟩ where
  place jj hjj := by
    rcases List.mem_pair.mp hjj with rfl | rfl <;> rfl
  inserted _ h := absurd h.symm (Option.some_ne_none _)
  does f env m args e _ hready _ he := by
    rw [hopcode] at he
    cases (rfl : effect meaning (.intrinsic .trap) args m = some { result := none, memory := m, stops := true }).symm.trans he
    obtain ⟨n, hregister⟩ := hready.1
    refine ⟨fun r => if r = .inserted ii.register.place 0 then env (.inserted ii.register.place 0) else env r, rfl,
      fun r hr => if_neg fun h => hr (by rw [h]; rfl), fun _ h => absurd h.symm (Option.some_ne_none _), fun _ => if_neg fun h => ?_⟩
    cases hregister.symm.trans h

/-- The code in the place of an instruction other than a product does what it does. -/
theorem lower_implements {pass : IntrinsicCleanerPass size ω} {ii : Instruction size ω}
    (hcall : ∀ (ii : Instruction size ω) (o : ω), ii.opcode = .intrinsic (.other o) → Implements meaning ii (pass.lowerIntrinsicCall ii))
    (hii : ii.opcode ≠ .intrinsic .umul_with_overflow) : Implements meaning ii (pass.lower ii) := by
  have hself := implements_self meaning ii
  rw [IntrinsicCleanerPass.lower.eq_def]
  split
  · rename_i id hopcode
    cases id with
    | vastart => exact hself
    | vaend => exact hself
    | vacopy => exact vaCopy_implements meaning hopcode
    | uadd_with_overflow => exact uadd_implements hopcode
    | umul_with_overflow => exact absurd hopcode hii
    | dbg_value => exact nothing_implements fun _ _ => hopcode ▸ rfl
    | dbg_declare => exact nothing_implements fun _ _ => hopcode ▸ rfl
    | trap => exact trap_implements hopcode
    | other o =>
      rw [IntrinsicCleanerPass.lowerIntrinsic]
      split_ifs
      · exact hcall ii o hopcode
      · exact hself
  · exact hself

theorem lower_product (pass : IntrinsicCleanerPass size ω) {ii : Instruction size ω} (hopcode : ii.opcode = .intrinsic .umul_with_overflow) :
    pass.lower ii = lowerOverflow .mul ii.register.place (ii.getArgOperand 0) (ii.getArgOperand 1) := by
  rw [IntrinsicCleanerPass.lower, hopcode]
  rfl

end CapTaint.IntrinsicCleaner
