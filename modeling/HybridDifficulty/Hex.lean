/-!
Hexadecimal text of bytes and of numbers: written in lower case, read in either case.
-/

namespace HybridDifficulty.Hex

def digitValue? (c : Char) : Option Nat :=
  if '0' ≤ c ∧ c ≤ '9' then some (c.toNat - '0'.toNat)
  else if 'a' ≤ c ∧ c ≤ 'f' then some (c.toNat - 'a'.toNat + 10)
  else if 'A' ≤ c ∧ c ≤ 'F' then some (c.toNat - 'A'.toNat + 10)
  else none

def digits : List Char → Option (List Nat)
  | [] => some []
  | c :: r => do return (← digitValue? c) :: (← digits r)

def encode : List UInt8 → List Char
  | [] => []
  | b :: r => Nat.digitChar (b.toNat / 16) :: Nat.digitChar (b.toNat % 16) :: encode r

/-- Two digits for each byte; an odd digit at the end is refused. -/
def decode? : List Char → Option (List UInt8)
  | [] => some []
  | [_] => none
  | hi :: lo :: r => do
    let h ← digitValue? hi
    let l ← digitValue? lo
    return UInt8.ofNat (16 * h + l) :: (← decode? r)

def ofBytes (bytes : List UInt8) : String := String.ofList (encode bytes)

/-- `0x` and the digits without leading zeros; zero has one digit. -/
def ofNat (n : Nat) : String := "0x" ++ String.ofList (Nat.toDigits 16 n)

/-- Reads what `ofNat` writes, leading zeros allowed. -/
def toNat? (text : String) : Option Nat :=
  match text.toList with
  | '0' :: 'x' :: c :: r => (digits (c :: r)).map (List.foldl (fun n d ↦ 16 * n + d) 0)
  | _ => none

end HybridDifficulty.Hex
