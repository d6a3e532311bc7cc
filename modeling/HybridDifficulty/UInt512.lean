import HybridDifficulty.CompactForm
import HybridDifficulty.Hex

/-!
Unsigned numbers of 512 bits. An operation whose exact result does not fit has none.
-/

namespace HybridDifficulty

/-- The first number with more than 512 bits. -/
def UInt512.bound : Nat := byteWeight 64

structure UInt512 where
  val : Nat
  val_lt : val < UInt512.bound
  deriving DecidableEq

namespace UInt512

def ofNat? (n : Nat) : Option UInt512 := if h : n < UInt512.bound then some ⟨n, h⟩ else none

instance : Zero UInt512 := ⟨0, by decide⟩

instance : One UInt512 := ⟨1, by decide⟩

def add? (a b : UInt512) : Option UInt512 := ofNat? (a.val + b.val)

def mul? (a b : UInt512) : Option UInt512 := ofNat? (a.val * b.val)

def times? (a : UInt512) (n : Nat) : Option UInt512 := do a.mul? (← ofNat? n)

def div? (a b : UInt512) : Option UInt512 :=
  if b.val = 0 then none
  else some ⟨a.val / b.val, Nat.lt_of_le_of_lt (Nat.div_le_self _ _) a.val_lt⟩

theorem one_shiftLeft_lt {e : Nat} (h : e < 512) : 1 <<< e < UInt512.bound := by
  rw [Nat.one_shiftLeft]
  exact Nat.lt_of_lt_of_eq (Nat.pow_lt_pow_right Nat.one_lt_two (show e < 8 * 64 from h))
    (Nat.pow_mul 2 8 64)

def pow2? (e : Nat) : Option UInt512 :=
  if h : e < 512 then some ⟨1 <<< e, one_shiftLeft_lt h⟩ else none

/-- `value * num / den`, when the product fits and `den` is not zero. -/
def mulDiv? (value : Nat) (num den : UInt512) : Option UInt512 := do
  (← (← ofNat? value).mul? num).div? den

def low256 (a : UInt512) : Nat := a.val % byteWeight 32

def narrow? (a : UInt512) : Option Nat := if a.val < byteWeight 32 then some a.val else none

def bits (a : UInt512) : Nat := if a.val = 0 then 0 else a.val.log2 + 1

def describe (a : UInt512) : String := "WideUint(" ++ Hex.ofNat a.val ++ ")"

end UInt512

end HybridDifficulty
