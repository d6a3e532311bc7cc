import HybridDifficulty.Json.Scalar

/-!
JSON values and their reader, which goes through the tokens once with the open arrays and objects on
a stack.
-/

namespace HybridDifficulty

inductive Json
  | null
  | bool (b : Bool)
  | number (n : Json.Number)
  /-- Strings with a surrogate out of place are written correctly but have no text. -/
  | string (text : Option String)
  | array (xs : List Json)
  | object (fields : List (Option String × Json))

namespace Json

/-- An array or object not yet closed, with what it holds so far, newest first. -/
inductive Frame
  | array (done : List Json)
  | object (done : List (Option String × Json))
  | field (done : List (Option String × Json)) (key : Option String)

inductive Expect
  | value
  | valueOrClose
  | key
  | keyOrClose
  | colon
  | separator
  | nothing (v : Json)

structure Reader where
  frames : List Frame
  expect : Expect

namespace Reader

def start : Reader := ⟨[], .value⟩

/-- Hands a finished value to the innermost open frame. -/
def finish (v : Json) : List Frame → Reader
  | [] => ⟨[], .nothing v⟩
  | .array done :: fs => ⟨.array (v :: done) :: fs, .separator⟩
  | .object done :: fs => ⟨.object done :: fs, .separator⟩
  | .field done key :: fs => ⟨.object ((key, v) :: done) :: fs, .separator⟩

def text? (cs : List Char) : Option (Option String) :=
  (pieces? cs).map fun ps ↦ (chars? ps).map String.ofList

def scalar? (cs : List Char) : Option Json :=
  match String.ofList cs with
  | "null" => some .null
  | "true" => some (.bool true)
  | "false" => some (.bool false)
  | _ => (number? cs).map .number

def value? (fs : List Frame) : Token → Option Reader
  | .mark '[' => some ⟨.array [] :: fs, .valueOrClose⟩
  | .mark '\x7b' => some ⟨.object [] :: fs, .keyOrClose⟩
  | .mark _ => none
  | .bare cs => (scalar? cs).map (finish · fs)
  | .quoted cs => (text? cs).map fun s ↦ finish (.string s) fs

def close? : List Frame → Token → Option Reader
  | .array done :: fs, .mark ']' => some (finish (.array done.reverse) fs)
  | .object done :: fs, .mark '\x7d' => some (finish (.object done.reverse) fs)
  | _, _ => none

def key? : List Frame → Token → Option Reader
  | .object done :: fs, .quoted cs => (text? cs).map fun s ↦ ⟨.field done s :: fs, .colon⟩
  | _, _ => none

def separator? (fs : List Frame) (t : Token) : Option Reader :=
  match fs, t with
  | .array _ :: _, .mark ',' => some ⟨fs, .value⟩
  | .object _ :: _, .mark ',' => some ⟨fs, .key⟩
  | _, _ => close? fs t

def step (r : Reader) (t : Token) : Option Reader :=
  match r.expect with
  | .value => value? r.frames t
  | .valueOrClose => close? r.frames t <|> value? r.frames t
  | .key => key? r.frames t
  | .keyOrClose => close? r.frames t <|> key? r.frames t
  | .colon => if t = .mark ':' then some ⟨r.frames, .value⟩ else none
  | .separator => separator? r.frames t
  | .nothing _ => none

end Reader

def parse? (text : String) : Option Json := do
  let r ← (← tokens text).foldlM Reader.step Reader.start
  match r.expect with
  | .nothing v => some v
  | _ => none

def integerIn? (lo hi : Int) : Json → Option Int
  | .number (.integer n) => if lo ≤ n ∧ n ≤ hi then some n else none
  | _ => none

def natBelow? (bound : Nat) (j : Json) : Option Nat := (j.integerIn? 0 (bound - 1)).map Int.toNat

def bool? : Json → Option Bool
  | .bool b => some b
  | _ => none

/-- The name of a case without contents, written as a string or as an object. -/
def case? : Json → Option String
  | .string s => s
  | .object [(s, .null)] => s
  | _ => none

/-- The fields of a record in the order of `names`, whether written as an object or as an array.
Fields of other names are passed over, a field may not occur twice, and an array may stop early only
if `short` says so. -/
def fields? (names : List String) (short : Bool) : Json → Option (List (Option Json))
  | .array xs =>
    if xs.length = names.length ∨ short ∧ xs.length < names.length then
      some (xs.map some ++ List.replicate (names.length - xs.length) none)
    else none
  | .object fs =>
    if fs.all (·.1.isSome) ∧ names.all (fun n ↦ fs.countP (·.1 = some n) ≤ 1) then
      some (names.map fun n ↦ (fs.find? (·.1 = some n)).map (·.2))
    else none
  | _ => none

end Json

end HybridDifficulty
