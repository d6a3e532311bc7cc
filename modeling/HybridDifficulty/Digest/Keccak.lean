import HybridDifficulty.Digest.Words

/-!
Keccak-256 with the padding that it had before it became a standard.
-/

namespace HybridDifficulty.Digest.Keccak

/-- Lane `(x, y)` stands at `x + 5 * y`. -/
abbrev State := Vector UInt64 25

def lane (s : State) (x y : Nat) : UInt64 := s[x % 5 + 5 * (y % 5)]

def build (f : Nat → Nat → UInt64) : State := .ofFn fun i ↦ f (i % 5) (i / 5)

def rotate (x n : UInt64) : UInt64 := if n = 0 then x else (x <<< n) ||| (x >>> (64 - n))

/-- One step of the eight-bit shift register behind the round constants. -/
def shift (r : UInt8) : UInt8 := (r <<< 1) ^^^ (if r < 0x80 then 0 else 0x71)

/-- The places of the bits that a round constant can have. -/
def constantPlaces : List UInt64 := [0, 1, 3, 7, 15, 31, 63]

/-- The register after a round, and the constant of the round, one bit of it for each step. -/
def roundConstant (r : UInt8) : UInt8 × UInt64 :=
  constantPlaces.foldl (fun (r, k) place ↦
    let r := shift r
    let bit := (1 : UInt64) <<< place
    (r, if r &&& 2 = 0 then k else k ||| bit)) (r, 0)

def roundConstantsFrom : Nat → UInt8 → List UInt64
  | 0, _ => []
  | n + 1, r =>
    let (r, k) := roundConstant r
    k :: roundConstantsFrom n r

def roundConstants : List UInt64 := roundConstantsFrom 24 1

/-- Turns lane `(x, y)` by the next triangular number and goes on to lane `(y, 2x + 3y)`. -/
def turnFrom (s : State) : Nat → Nat → Nat → Nat → State
  | 0, _, _, _ => s
  | n + 1, t, x, y =>
    let i := x % 5 + 5 * (y % 5)
    turnFrom (s.set i (rotate s[i] (UInt64.ofNat ((t + 1) * (t + 2) / 2 % 64)))) n (t + 1) y
      (2 * x + 3 * y)

def theta (s : State) : State :=
  let column := fun x ↦ lane s x 0 ^^^ lane s x 1 ^^^ lane s x 2 ^^^ lane s x 3 ^^^ lane s x 4
  let parities : Vector UInt64 5 := .ofFn fun i ↦ column i
  let parity := fun x : Nat ↦ parities[x % 5]
  build fun x y ↦ lane s x y ^^^ parity (x + 4) ^^^ rotate (parity (x + 1)) 1

/-- Lane `(0, 0)` stays as it is. -/
def rho (s : State) : State := turnFrom s 24 0 1 0

def pi (s : State) : State := build fun x y ↦ lane s (x + 3 * y) x

def chi (s : State) : State :=
  build fun x y ↦ lane s x y ^^^ ((~~~lane s (x + 1) y) &&& lane s (x + 2) y)

def permute (s : State) : State :=
  roundConstants.foldl (fun s k ↦
    let t := chi (pi (rho (theta s)))
    t.set 0 (t[0] ^^^ k)) s

def absorb (s : State) (block : List UInt8) : State :=
  let words := ((pieces 7 block).map fun bytes ↦ UInt64.ofNat (littleEndian bytes)).toArray
  permute (.ofFn fun i ↦ s[i] ^^^ words.getD i 0)

/-- The last block ends with a one bit and begins its filling with another; both may share a
byte. -/
def pad (bytes : List UInt8) : List UInt8 :=
  match 135 - bytes.length % 136 with
  | 0 => bytes ++ [0x81]
  | n + 1 => bytes ++ 0x01 :: List.replicate n 0 ++ [0x80]

def hash (bytes : List UInt8) : List UInt8 :=
  let s := (pieces 135 (pad bytes)).foldl absorb (.replicate 25 0)
  (s.toList.take 4).flatMap fun w ↦ toLittleEndian 8 w.toNat

end HybridDifficulty.Digest.Keccak
