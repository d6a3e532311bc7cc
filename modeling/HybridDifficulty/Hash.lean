import HybridDifficulty.Hex

/-!
Block hashes. The first byte is the least significant one of the hash read as a number; the display
text writes the most significant byte first.
-/

namespace HybridDifficulty

structure Hash where
  bytes : Vector UInt8 32
  deriving DecidableEq

namespace Hash

instance : Hashable Hash := ⟨fun h ↦ hash h.bytes.toArray⟩

def ofList? (bytes : List UInt8) : Option Hash :=
  if h : bytes.length = 32 then some ⟨bytes.toArray, by simpa using h⟩ else none

def toList (h : Hash) : List UInt8 := h.bytes.toList

def toNat (h : Hash) : Nat := h.toList.foldr (fun b n ↦ b.toNat + 256 * n) 0

def display (h : Hash) : String := Hex.ofBytes h.toList.reverse

/-- One `0x` in front of the digits is passed over. -/
def dropMark : List Char → List Char
  | '0' :: 'x' :: r => r
  | cs => cs

def ofDisplay? (text : String) : Option Hash := do
  ofList? (← Hex.decode? (dropMark text.toList)).reverse

end Hash

end HybridDifficulty
