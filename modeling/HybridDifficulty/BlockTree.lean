import HybridDifficulty.Branch
import Std.Data.HashMap

/-!
The tree of all blocks seen. A block joins on top of one that is already there, so each block is
kept with its whole branch.
-/

namespace HybridDifficulty

structure BlockTree where
  branches : Array Branch := #[]
  ids : Std.HashMap Hash BlockId := ∅
  genesis? : Option BlockId := none

inductive TreeError
  | noParent (id : BlockId)
  | knownHash (hash : Hash) (existing : BlockId)
  | secondGenesis (existing : BlockId)
  deriving DecidableEq

def TreeError.message : TreeError → String
  | .noParent id => "Unknown parent node: " ++ idText id
  | .knownHash hash existing =>
    "Duplicate block: " ++ hash.display ++ " already indexed as " ++ idText existing
  | .secondGenesis existing => "Genesis already present as " ++ idText existing

namespace BlockTree

def size (t : BlockTree) : Nat := t.branches.size

def branch (t : BlockTree) (id : BlockId) : Branch := t.branches[id]?.getD (.missing id)

def idOf? (t : BlockTree) (hash : Hash) : Option BlockId := t.ids[hash]?

def push (t : BlockTree) (e : Entry) (height : Nat) (place : Block → Branch) :
    Except TreeError Block × BlockTree :=
  match t.idOf? e.hash with
  | some existing => (.error (.knownHash e.hash existing), t)
  | none =>
    let b : Block := { e with id := t.size, height }
    (.ok b, { t with branches := t.branches.push (place b), ids := t.ids.insert e.hash b.id })

def plant (t : BlockTree) (e : Entry) : Except TreeError Block × BlockTree :=
  match t.genesis? with
  | some existing => (.error (.secondGenesis existing), t)
  | none =>
    match t.push e 0 fun b ↦ ⟨[], .genesis b⟩ with
    | (.ok b, t) => (.ok b, { t with genesis? := some b.id })
    | (.error f, t) => (.error f, t)

def insert (t : BlockTree) (parent : BlockId) (e : Entry) : Except TreeError Block × BlockTree :=
  match (t.branch parent).top with
  | .error _ => (.error (.noParent parent), t)
  | .ok p => t.push e (p.height + 1) (t.branch parent).extend

end BlockTree

end HybridDifficulty
