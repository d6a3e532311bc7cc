import HybridDifficulty.Hex
import HybridDifficulty.Json.Token

/-!
The strings and numbers of a JSON text.
-/

namespace HybridDifficulty.Json

/-- A character of a string, or a 16-bit unit given by an escape. -/
abbrev Piece := Char ⊕ Nat

def escaped? (c : Char) : Option Char :=
  if c = quote ∨ c = backslash ∨ c = '/' then some c
  else if c = 'b' then some '\x08'
  else if c = 'f' then some '\x0c'
  else if c = 'n' then some '\n'
  else if c = 'r' then some '\r'
  else if c = 't' then some '\t'
  else none

def pieces? : List Char → Option (List Piece)
  | [] => some []
  | '\x5c' :: 'u' :: a :: b :: c :: d :: r => do
    let ds ← Hex.digits [a, b, c, d]
    return .inr (ds.foldl (fun n d ↦ 16 * n + d) 0) :: (← pieces? r)
  | '\x5c' :: c :: r => do return .inl (← escaped? c) :: (← pieces? r)
  | ['\x5c'] => none
  | c :: r => (.inl c :: ·) <$> pieces? r

def isHighSurrogate (n : Nat) : Bool := 0xd800 ≤ n && n < 0xdc00

def isLowSurrogate (n : Nat) : Bool := 0xdc00 ≤ n && n < 0xe000

/-- Surrogates stand for a character in pairs only. -/
def chars? : List Piece → Option (List Char)
  | [] => some []
  | .inl c :: r => (c :: ·) <$> chars? r
  | .inr hi :: .inr lo :: r =>
    if isHighSurrogate hi then
      if isLowSurrogate lo then
        (Char.ofNat (0x10000 + 0x400 * (hi - 0xd800) + (lo - 0xdc00)) :: ·) <$> chars? r
      else none
    else if isLowSurrogate hi then none
    else (Char.ofNat hi :: ·) <$> chars? (.inr lo :: r)
  | .inr n :: r =>
    if isHighSurrogate n || isLowSurrogate n then none else (Char.ofNat n :: ·) <$> chars? r

inductive Number
  | integer (n : Int)
  /-- A number that is not written as an integer. Minus zero is not one either. -/
  | other

def isExponent : List Char → Bool
  | [] => true
  | e :: r =>
    let ds := match r with
      | '+' :: ds | '-' :: ds => ds
      | ds => ds
    (e = 'e' || e = 'E') && !ds.isEmpty && ds.all Char.isDigit

def isFraction : List Char → Bool
  | '.' :: r => !(r.takeWhile Char.isDigit).isEmpty && isExponent (r.dropWhile Char.isDigit)
  | cs => isExponent cs

def unsigned? (cs : List Char) : Option (Option Nat) :=
  let ds := cs.takeWhile Char.isDigit
  let rest := cs.dropWhile Char.isDigit
  if ds.isEmpty || (ds.head? = some '0' && 1 < ds.length) then none
  else if rest.isEmpty then some (some (ds.foldl (fun n d ↦ 10 * n + (d.toNat - '0'.toNat)) 0))
  else if isFraction rest then some none
  else none

def number? : List Char → Option Number
  | '-' :: cs => (unsigned? cs).map fun
    | some (n + 1) => .integer (-(n + 1))
    | _ => .other
  | cs => (unsigned? cs).map fun
    | some n => .integer n
    | none => .other

end HybridDifficulty.Json
