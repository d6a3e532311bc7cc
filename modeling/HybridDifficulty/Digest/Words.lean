/-!
Bytes gathered into blocks and words, in either byte order.
-/

namespace HybridDifficulty.Digest

/-- Pieces of `n + 1` elements; the last one may be shorter. -/
def pieces {α : Type} (n : Nat) : List α → List (List α)
  | [] => []
  | x :: r => (x :: r.take n) :: pieces n (r.drop n)
termination_by xs => xs.length
decreasing_by
  rw [List.length_drop, List.length_cons]
  omega

def littleEndian (bytes : List UInt8) : Nat := bytes.foldr (fun b n ↦ b.toNat + 256 * n) 0

def bigEndian (bytes : List UInt8) : Nat := littleEndian bytes.reverse

/-- The `k` low bytes of `n`, least significant first. -/
def toLittleEndian : Nat → Nat → List UInt8
  | 0, _ => []
  | k + 1, n => UInt8.ofNat n :: toLittleEndian k (n / 256)

def toBigEndian (k n : Nat) : List UInt8 := (toLittleEndian k n).reverse

end HybridDifficulty.Digest
