/-!
The four algorithms that produce tagged blocks, and the version field that carries the tag.
-/

namespace HybridDifficulty

inductive Algorithm
  | stake
  | xevan
  | sha256d
  | keccak256
  deriving DecidableEq, Repr

/-- Versions from here on carry an algorithm index in bits 8 to 15. -/
def firstTaggedVersion : Int32 := 0x20000000

/-- The version of blocks made before tags existed. -/
def untaggedVersion : Int32 := 4

def carriesTag (version : Int32) : Bool := firstTaggedVersion ≤ version

namespace Algorithm

def all : List Algorithm := [stake, xevan, sha256d, keccak256]

def index : Algorithm → Nat
  | stake => 0
  | xevan => 1
  | sha256d => 2
  | keccak256 => 3

def ofIndex? (i : Nat) : Option Algorithm := all[i]?

/-- Old versions have no tag, and neither have new ones whose index belongs to no algorithm. -/
def ofVersion? (version : Int32) : Option Algorithm :=
  if carriesTag version then ofIndex? (version.toInt / 256 % 256).toNat else none

def version (a : Algorithm) : Int32 := firstTaggedVersion + Int32.ofNat (256 * a.index)

def isWork (a : Algorithm) : Bool := a ≠ stake

def name : Algorithm → String
  | stake => "pos"
  | xevan => "xevan"
  | sha256d => "sha256d"
  | keccak256 => "keccak256"

theorem ofVersion?_version (a : Algorithm) : ofVersion? a.version = some a := by cases a <;> decide

end Algorithm

def tagName : Option Algorithm → String
  | some a => a.name
  | none => "legacy"

/-- One value for each algorithm. -/
structure PerAlgorithm (α : Type) where
  stake : α
  xevan : α
  sha256d : α
  keccak256 : α
  deriving DecidableEq

namespace PerAlgorithm

variable {α : Type}

def replicate (x : α) : PerAlgorithm α := ⟨x, x, x, x⟩

def get (t : PerAlgorithm α) : Algorithm → α
  | .stake => t.stake
  | .xevan => t.xevan
  | .sha256d => t.sha256d
  | .keccak256 => t.keccak256

def set (t : PerAlgorithm α) (a : Algorithm) (x : α) : PerAlgorithm α :=
  match a with
  | .stake => { t with stake := x }
  | .xevan => { t with xevan := x }
  | .sha256d => { t with sha256d := x }
  | .keccak256 => { t with keccak256 := x }

@[simp] theorem get_replicate (x : α) (a : Algorithm) : (replicate x).get a = x := by
  cases a <;> rfl

theorem get_set (t : PerAlgorithm α) (a b : Algorithm) (x : α) :
    (t.set a x).get b = if b = a then x else t.get b := by
  cases a <;> cases b <;> rfl

end PerAlgorithm

end HybridDifficulty
