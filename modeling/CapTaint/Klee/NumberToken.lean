import Mathlib

/-! # Number tokens

`ParserImpl::ParseNumberToken`. The value is accumulated in an `APInt` of a width that is guessed from the number of
characters. -/

namespace CapTaint.Klee.Parser

/-- A token of kind `Number`. Its length is an `unsigned`. -/
structure Token where
  text : List Char
  lt : text.length < 2 ^ 32

/-- A constant of the type, and the error that was reported, if any. -/
structure ExprResult (type : Nat) where
  value : BitVec type
  error : Option String
  deriving DecidableEq

/-- `+` and `-` (a number token cannot have both). -/
def detectMinus : List Char → Bool × List Char
  | '+' :: s => (false, s)
  | '-' :: s => (true, s)
  | s => (false, s)

structure Base where
  radix : Nat
  radixBits : Nat

/-- The prefixes `0b`, `0o` and `0x`. What follows a token is never one of these letters. -/
def detectRadix : List Char → Option Base × List Char
  | '0' :: 'b' :: s => (some ⟨2, 1⟩, s)
  | '0' :: 'o' :: s => (some ⟨8, 3⟩, s)
  | '0' :: 'x' :: s => (some ⟨16, 4⟩, s)
  | s => (none, s)

def digit (char : Char) : Option Nat :=
  if '0' ≤ char ∧ char ≤ '9' then some (char.toNat - '0'.toNat)
  else if 'a' ≤ char ∧ char ≤ 'z' then some (char.toNat - 'a'.toNat + 10)
  else if 'A' ≤ char ∧ char ≤ 'Z' then some (char.toNat - 'A'.toNat + 10)
  else none

/-- One character of the loop. -/
def accumulate (radix bits : Nat) (val : BitVec bits) (char : Char) : Except String (BitVec bits) :=
  if char = '_' then .ok val
  else
    (digit char).elim (.error "invalid character in numeric token.") fun digit =>
      if radix ≤ digit then .error "invalid character in numeric token (out of range)."
      else .ok (val * BitVec.ofNat bits radix + BitVec.ofNat bits digit)

/-- The value of a type's width: truncated, or extended with zeroes. -/
def ofAPInt {bits : Nat} (type : Nat) (val : BitVec bits) : BitVec type := val.setWidth type

/-- The digits `s` after the prefix. An `APInt` has at least one bit, also after a truncation. -/
def parseDigits (type : Nat) (hasMinus : Bool) (base : Base) (s : List Char) : Option (ExprResult type) :=
  let bits := base.radixBits * s.length % 2 ^ 32
  if bits = 0 then none
  else
    match s.foldlM (accumulate base.radix bits) 0 with
    | .error message => some ⟨0, some message⟩
    | .ok val => if type = 0 then none else some ⟨ofAPInt type (if hasMinus then -val else val), none⟩

def parseNumberToken (type : Nat) (tok : Token) : Option (ExprResult type) :=
  let signed := detectMinus tok.text
  match detectRadix signed.2 with
  | (some _, []) => some ⟨0, some "invalid numeric token (no digits)."⟩
  | (some base, s) => parseDigits type signed.1 base s
  | (none, s) => parseDigits type signed.1 ⟨10, 4⟩ s

end CapTaint.Klee.Parser
