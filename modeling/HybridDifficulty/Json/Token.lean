/-!
The tokens of a JSON text, and what the text of a string or of a number stands for.
-/

namespace HybridDifficulty.Json

inductive Token
  | mark (c : Char)
  /-- A number or a literal. -/
  | bare (cs : List Char)
  /-- What stands between two quotes, escapes included. -/
  | quoted (cs : List Char)
  deriving DecidableEq

def isBlank (c : Char) : Bool := c = ' ' || c = '\n' || c = '\t' || c = '\r'

def isMark (c : Char) : Bool := c = '[' || c = ']' || c = '\x7b' || c = '\x7d' || c = ':' || c = ','

def quote : Char := '\x22'

def backslash : Char := '\x5c'

inductive Mode
  | gap
  | bare (done : List Char)
  | quoted (done : List Char) (escaped : Bool)

/-- The tokens that a character ends, and the mode after it. Control characters may not stand in
strings. -/
def advance (mode : Mode) (c : Char) : Option (List Token × Mode) :=
  let outside (ended : List Token) : Option (List Token × Mode) :=
    if isBlank c then some (ended, .gap)
    else if isMark c then some (ended ++ [.mark c], .gap)
    else if c = quote then some (ended, .quoted [] false)
    else some (ended, .bare [c])
  match mode with
  | .gap => outside []
  | .bare done =>
    if isBlank c || isMark c || c = quote then outside [.bare done.reverse]
    else some ([], .bare (c :: done))
  | .quoted done true => some ([], .quoted (c :: done) false)
  | .quoted done false =>
    if c = quote then some ([.quoted done.reverse], .gap)
    else if c < ' ' then none
    else some ([], .quoted (c :: done) (c = backslash))

def tokensFrom (mode : Mode) : List Char → Option (List Token)
  | [] =>
    match mode with
    | .gap => some []
    | .bare done => some [.bare done.reverse]
    | .quoted _ _ => none
  | c :: r => do
    let (ended, mode) ← advance mode c
    return ended ++ (← tokensFrom mode r)

def tokens (text : String) : Option (List Token) := tokensFrom .gap text.toList

end HybridDifficulty.Json
