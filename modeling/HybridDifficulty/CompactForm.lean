/-!
The 32-bit compact form of a 256-bit target: the top byte is a size in bytes, the low 23 bits a
mantissa, and bit 23 a sign. It stands for `mantissa * 256 ^ (size - 3)`.
-/

namespace HybridDifficulty

/-- The weight of a byte that has so many below it: numbers under it have no more bytes than
these. -/
def byteWeight (below : Nat) : Nat := Nat.pow 256 below

namespace CompactForm

/-- The value keeps the low 256 bits; `overflow` says that higher ones were lost. -/
structure Decoded where
  target : Nat
  negative : Bool
  overflow : Bool
  deriving DecidableEq

def Decoded.isValid (d : Decoded) : Bool := !d.negative && !d.overflow && d.target != 0

def size (bits : UInt32) : Nat := bits.toNat / 0x1000000

def mantissa (bits : UInt32) : Nat := bits.toNat % 0x800000

def signed (bits : UInt32) : Bool := bits.toNat / 0x800000 % 2 = 1

/-- The mantissa without the bytes that a size below three shifts out. -/
def word (bits : UInt32) : Nat := mantissa bits / byteWeight (3 - size bits)

def decode (bits : UInt32) : Decoded where
  target := word bits * byteWeight (size bits - 3) % byteWeight 32
  negative := word bits ≠ 0 && signed bits
  overflow := word bits ≠ 0 &&
    (34 < size bits || (0xff < word bits && 33 < size bits) ||
      (0xffff < word bits && 32 < size bits))

def target (bits : UInt32) : Nat := (decode bits).target

theorem target_lt (bits : UInt32) : target bits < byteWeight 32 := Nat.mod_lt _ (by decide)

def pack (size mantissa : Nat) : UInt32 := UInt32.ofNat (size * 0x1000000 + mantissa)

/-- The least size whose unsigned mantissa holds the leading bits of `v`. -/
def sizeFor (v : Nat) : Nat := if v = 0 then 0 else (v.log2 + 1) / 8 + 1

/-- Bytes below the mantissa are cut off. -/
def encode (v : Nat) : UInt32 :=
  pack (sizeFor v) (v * byteWeight (3 - sizeFor v) / byteWeight (sizeFor v - 3))

/-- Rounds half up at the byte below the mantissa. Values of at most three bytes are cut off all the
same, and so is a value that would round to 2 ^ 256. -/
def encodeRounded (v : Nat) : UInt32 :=
  if v < 0x1000000 then encode v
  else
    let step := byteWeight (sizeFor v - 3)
    let m := (v + step / 2) / step
    let rounded := if m < 0x800000 then pack (sizeFor v) m else pack (sizeFor v + 1) (m / 256)
    if (decode rounded).overflow then encode v else rounded

/-- The expected number of hashes to meet the target, `2 ^ 256 / (target + 1)`, without forming
2 ^ 256. -/
def expectedWork (bits : UInt32) : Nat :=
  let d := decode bits
  if d.isValid then (byteWeight 32 - 1 - d.target) / (d.target + 1) + 1 else 0

/-- The bits just below a ceiling's own, which mark a block mined under the min-difficulty rule. -/
def marker (limit : Nat) : UInt32 :=
  let bits := encode limit
  if bits = 0 then 0 else bits - 1

end CompactForm

end HybridDifficulty
