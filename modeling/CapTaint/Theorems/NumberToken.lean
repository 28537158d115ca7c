import CapTaint.Klee.NumberToken

/-! # The values of number literals

A literal has its value when the guessed width is enough for it. The negated value is extended with zeroes to a wider
type. -/

namespace CapTaint.Klee.Parser

/-! ### Literals -/

inductive Sign
  | none
  | plus
  | minus
  deriving DecidableEq

def Sign.text : Sign → List Char
  | none => []
  | plus => ['+']
  | minus => ['-']

inductive Radix
  | bin
  | oct
  | dec
  | hex
  deriving DecidableEq

def Radix.text : Radix → List Char
  | bin => ['0', 'b']
  | oct => ['0', 'o']
  | dec => []
  | hex => ['0', 'x']

def Radix.base : Radix → Base
  | bin => ⟨2, 1⟩
  | oct => ⟨8, 3⟩
  | dec => ⟨10, 4⟩
  | hex => ⟨16, 4⟩

/-- A legal number token: digits of the radix, with underscores between them. -/
structure Literal where
  sign : Sign
  radix : Radix
  body : List Char
  lt : (sign.text ++ (radix.text ++ body)).length < 2 ^ 32
  legal : ∀ c ∈ body, c = '_' ∨ ∃ d < radix.base.radix, digit c = some d
  ne_nil : body ≠ []
  /-- The first character of a number is a digit. -/
  first : radix = .dec → body.head? ≠ some '_'

namespace Literal

variable (l : Literal)

def token : Token := ⟨l.sign.text ++ (l.radix.text ++ l.body), l.lt⟩

/-- The number that the digits stand for. -/
def magnitude : Nat := Nat.ofDigits l.radix.base.radix (l.body.filterMap digit).reverse

def value : Int := if l.sign = .minus then -l.magnitude else l.magnitude

/-- The guessed width. -/
def bits : Nat := l.radix.base.radixBits * l.body.length % 2 ^ 32

/-- The token stands for the constant of the type with the value of the literal. -/
def HasValue (type : Nat) : Prop := parseNumberToken type l.token = some ⟨BitVec.ofInt type l.value, none⟩

end Literal

/-! ### The parts of a token -/

variable {l : Literal} {s : List Char} {c : Char} {type bits : Nat}

theorem Literal.digit_of_dec (hdec : l.radix = .dec) (hc : c ∈ l.body) (hne : c ≠ '_') : ∃ d < 10, digit c = some d := by
  have hlegal := (l.legal c hc).resolve_left hne
  rwa [hdec] at hlegal

theorem Literal.not_mem_of_dec (hdec : l.radix = .dec) (hne : c ≠ '_') (hdigit : (digit c).all (10 ≤ ·) = true) : c ∉ l.body := by
  intro hc
  obtain ⟨d, hd, heq⟩ := l.digit_of_dec hdec hc hne
  rw [heq, Option.all_some, decide_eq_true_eq] at hdigit
  omega

theorem detectMinus_text (l : Literal) :
    detectMinus l.token.text = (decide (l.sign = .minus), l.radix.text ++ l.body) := by
  change detectMinus (l.sign.text ++ (l.radix.text ++ l.body)) = _
  cases hsign : l.sign with
  | plus => rfl
  | minus => rfl
  | none =>
    rw [Sign.text, List.nil_append]
    cases hradix : l.radix with
    | bin | oct | hex => rfl
    | dec =>
      rw [Radix.text, List.nil_append]
      unfold detectMinus
      split
      next heq => exact absurd (heq ▸ List.mem_cons_self) (l.not_mem_of_dec (c := '+') hradix (by decide) (by decide))
      next heq => exact absurd (heq ▸ List.mem_cons_self) (l.not_mem_of_dec (c := '-') hradix (by decide) (by decide))
      next => rfl

theorem detectRadix_text (l : Literal) :
    detectRadix (l.radix.text ++ l.body) = (if l.radix = .dec then none else some l.radix.base, l.body) := by
  cases hradix : l.radix with
  | bin | oct | hex => rfl
  | dec =>
    have hmem : ∀ {c c' : Char} {s : List Char}, l.body = c :: c' :: s → c' ∈ l.body := fun heq => by
      rw [heq]
      exact List.mem_cons_of_mem _ List.mem_cons_self
    rw [Radix.text, List.nil_append, if_pos rfl]
    unfold detectRadix
    split
    next heq => exact absurd (hmem heq) (l.not_mem_of_dec hradix (by decide) (by decide))
    next heq => exact absurd (hmem heq) (l.not_mem_of_dec hradix (by decide) (by decide))
    next heq => exact absurd (hmem heq) (l.not_mem_of_dec hradix (by decide) (by decide))
    next => rfl

theorem parseNumberToken_token (l : Literal) (type : Nat) :
    parseNumberToken type l.token = parseDigits type (decide (l.sign = .minus)) l.radix.base l.body := by
  obtain ⟨c, rest, hbody⟩ := List.exists_cons_of_ne_nil l.ne_nil
  unfold parseNumberToken
  rw [detectMinus_text]
  dsimp only
  rw [detectRadix_text]
  cases hradix : l.radix with
  | dec => rfl
  | bin | oct | hex =>
    rw [hbody]
    rfl

/-! ### The loop -/

/-- The digits so far. -/
theorem accumulate_foldlM (radix bits : Nat) {s : List Char} (hlegal : ∀ c ∈ s, c = '_' ∨ ∃ d < radix, digit c = some d)
    (n : Nat) : s.foldlM (accumulate radix bits) (BitVec.ofNat bits n) =
      .ok (BitVec.ofNat bits ((s.filterMap digit).foldl (fun n d => n * radix + d) n)) := by
  induction s generalizing n with
  | nil => rfl
  | cons c s ih =>
    obtain ⟨hc, hrest⟩ := List.forall_mem_cons.mp hlegal
    rw [List.foldlM_cons]
    rcases hc with rfl | ⟨d, hd, hdigit⟩
    · have hnone : digit '_' = none := by decide
      rw [List.filterMap_cons_none hnone, accumulate, if_pos rfl]
      exact ih hrest n
    · have hne : c ≠ '_' := by
        rintro rfl
        have hnone : digit '_' = none := by decide
        rw [hnone] at hdigit
        cases hdigit
      rw [List.filterMap_cons_some hdigit, accumulate, if_neg hne, hdigit, Option.elim_some, if_neg (not_le.mpr hd),
        ← BitVec.ofNat_mul, ← BitVec.ofNat_add]
      exact ih hrest (n * radix + d)

theorem Literal.foldlM_body (l : Literal) (bits : Nat) :
    l.body.foldlM (accumulate l.radix.base.radix bits) 0 = .ok (BitVec.ofNat bits l.magnitude) := by
  have hfold := accumulate_foldlM l.radix.base.radix bits l.legal 0
  rw [Literal.magnitude, Nat.ofDigits_eq_foldr, List.foldr_reverse]
  have hcomm : ∀ n d : Nat, n * l.radix.base.radix + d = d + l.radix.base.radix * n := fun n d => by ring
  simp only [hcomm] at hfold
  exact hfold

/-! ### The width -/

/-- The extension has the value when the type is not wider, or the value fits. -/
theorem setWidth_ofInt_iff (bits type : Nat) (v : Int) :
    (BitVec.ofInt bits v).setWidth type = BitVec.ofInt type v ↔ type ≤ bits ∨ v % 2 ^ type < 2 ^ bits := by
  have hpos : ∀ n : Nat, (0 : Int) < 2 ^ n := fun n => by positivity
  have hiff : (BitVec.ofInt bits v).setWidth type = BitVec.ofInt type v ↔ v % 2 ^ bits % 2 ^ type = v % 2 ^ type := by
    rw [← BitVec.toNat_inj, ← Int.natCast_inj, BitVec.toNat_setWidth, Int.natCast_mod, BitVec.toNat_ofInt, BitVec.toNat_ofInt]
    push_cast
    rw [Int.toNat_of_nonneg (Int.emod_nonneg v (hpos bits).ne'), Int.toNat_of_nonneg (Int.emod_nonneg v (hpos type).ne')]
  rw [hiff]
  by_cases hle : type ≤ bits
  · exact iff_of_true (Int.emod_emod_of_dvd v (pow_dvd_pow 2 hle)) (.inl hle)
  · have hlt : v % 2 ^ bits < 2 ^ type :=
      (Int.emod_lt_of_pos v (hpos bits)).trans (pow_lt_pow_right₀ (by norm_num) (not_le.mp hle))
    rw [Int.emod_eq_of_lt (Int.emod_nonneg v (hpos bits).ne') hlt, or_iff_right hle]
    constructor
    · intro heq
      rw [← heq]
      exact Int.emod_lt_of_pos v (hpos bits)
    · intro hfits
      rw [← Int.emod_emod_of_dvd v (pow_dvd_pow 2 (not_le.mp hle).le), Int.emod_eq_of_lt (Int.emod_nonneg v (hpos type).ne') hfits]

theorem parseDigits_body (l : Literal) (hbits : l.bits ≠ 0) (htype : type ≠ 0) :
    parseDigits type (decide (l.sign = .minus)) l.radix.base l.body = some ⟨(BitVec.ofInt l.bits l.value).setWidth type, none⟩ := by
  have hval : (if decide (l.sign = .minus) then -BitVec.ofNat l.bits l.magnitude else BitVec.ofNat l.bits l.magnitude) =
      BitVec.ofInt l.bits l.value := by
    rw [Literal.value]
    by_cases hminus : l.sign = .minus
    · rw [if_pos hminus, if_pos (decide_eq_true hminus), BitVec.ofInt_neg, BitVec.ofInt_natCast]
    · rw [if_neg hminus, if_neg (by simpa using hminus), BitVec.ofInt_natCast]
  unfold parseDigits
  dsimp only
  rw [← Literal.bits, if_neg hbits, l.foldlM_body]
  dsimp only
  rw [if_neg htype, hval, ofAPInt]

/-- A literal has its value exactly when the type has no more bits than were guessed, or the value fits them. -/
theorem hasValue_iff (l : Literal) (type : Nat) :
    l.HasValue type ↔ 0 < type ∧ 0 < l.bits ∧ (type ≤ l.bits ∨ l.value % 2 ^ type < 2 ^ l.bits) := by
  rw [Literal.HasValue, parseNumberToken_token]
  by_cases hbits : l.bits = 0
  · -- an `APInt` without bits
    have hnone : parseDigits type (decide (l.sign = .minus)) l.radix.base l.body = none := if_pos hbits
    rw [hnone, hbits]
    exact iff_of_false nofun fun h => absurd h.2.1 (lt_irrefl 0)
  by_cases htype : type = 0
  · subst htype
    have hnone : parseDigits 0 (decide (l.sign = .minus)) l.radix.base l.body = none := by
      unfold parseDigits
      dsimp only
      rw [← Literal.bits, if_neg hbits, l.foldlM_body]
      rfl
    rw [hnone]
    exact iff_of_false nofun fun h => absurd h.1 (lt_irrefl 0)
  · rw [parseDigits_body l hbits htype, Option.some.injEq, ExprResult.mk.injEq, setWidth_ofInt_iff]
    constructor
    · exact fun h => ⟨Nat.pos_of_ne_zero htype, Nat.pos_of_ne_zero hbits, h.1⟩
    · exact fun h => ⟨h.2.2, rfl⟩

/-- The literal `-1`. -/
def minusOne : Literal where
  sign := .minus
  radix := .dec
  body := ['1']
  lt := by decide
  legal c hc := by
    obtain rfl := List.mem_singleton.mp hc
    exact .inr ⟨1, by decide, by decide⟩
  ne_nil := List.cons_ne_nil _ _
  first _ := by decide

/-- At 32 bits it is 15. -/
theorem not_hasValue_minusOne : ¬∀ (l : Literal) (type : Nat), 0 < type → l.HasValue type := by
  intro hall
  have hvalue : parseNumberToken 32 minusOne.token = some ⟨BitVec.ofInt 32 minusOne.value, none⟩ := hall minusOne 32 (by decide)
  have hfifteen : parseNumberToken 32 minusOne.token = some ⟨15, none⟩ := by decide
  have hone : BitVec.ofInt 32 minusOne.value = -1 := by decide
  rw [hfifteen, hone] at hvalue
  exact absurd hvalue (by decide)

end CapTaint.Klee.Parser
