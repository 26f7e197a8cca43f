import ScriptEngine.Text.Bytes

/-!
# Source text

Newlines of a source are normalised to the line feed before anything else looks at it. A `LineMap`
is a source with the offsets at which its lines start. The line of an offset is found by bisection
among them, and the text of a line is cut out of the source between two of them.

Positions are 1-based, and their columns count bytes of the UTF-8 form. Both numbers are kept in 32
bits, so that those of a source of 4 GiB or more wrap around.
-/

namespace ScriptEngine

/-- A place in a source, line and column counted from one, columns in bytes. -/
structure Position where
  line : Nat
  column : Nat
  deriving DecidableEq, Inhabited

namespace Source

/-- Folds each carriage return, alone or before a line feed, into one line feed. -/
def normalize : List Char → List Char
  | [] => []
  | '\r' :: '\n' :: cs => '\n' :: normalize cs
  | c :: cs => (if c = '\r' then '\n' else c) :: normalize cs

/-- The offsets behind the newlines of a text that starts at `offset`. -/
def breaks (offset : Nat) (cs : List Char) : List Nat :=
  (Text.charIndices offset cs).filterMap fun (i, c) => if c = '\n' then some (i + 1) else none

end Source

/-! ## Bisection -/

/-- Where a bisection of numbers in increasing order ends. -/
inductive Search where
  /-- The number is at the index. -/
  | found (index : Nat)
  /-- The number is not there, and can be inserted at the index. -/
  | missing (index : Nat)
  deriving DecidableEq, Inhabited

/-- The index among `size` ones from `base` on at which the bisection for `x` ends: that of the last
number that is not above `x`, or else `base`. -/
def bisect (xs : Array Nat) (x base size : Nat) : Nat :=
  if 1 < size then
    let half := size / 2
    bisect xs x (if x < xs.getD (base + half) 0 then base else base + half) (size - half)
  else base
termination_by size

/-- Looks for a number among numbers in increasing order. -/
def binarySearch (xs : Array Nat) (x : Nat) : Search :=
  if xs.isEmpty then .missing 0
  else
    let i := bisect xs x 0 xs.size
    if xs.getD i 0 = x then .found i
    else .missing (if xs.getD i 0 < x then i + 1 else i)

/-! ## The index of lines -/

/-- A source and the offsets at which its lines start. -/
structure LineMap where
  text : List Char
  starts : Array Nat
  deriving Inhabited

namespace LineMap

/-- The index of a source whose newlines are normalised. -/
def ofText (cs : List Char) : LineMap :=
  { text := cs, starts := (0 :: Source.breaks 0 cs).toArray }

def lineCount (m : LineMap) : Nat :=
  m.starts.size

/-- The index of the line that an offset is on. -/
def lineIndex (m : LineMap) (offset : Nat) : Nat :=
  match binarySearch m.starts offset with
  | .found i => i
  | .missing i => i - 1

/-- The number behind an index, in 32 bits. -/
def ordinal (index : Nat) : UInt32 :=
  UInt32.ofNat index + 1

/-- The position of a byte of the source. -/
def position (m : LineMap) (offset : Nat) : Position :=
  let i := m.lineIndex offset
  { line := (ordinal i).toNat, column := (ordinal (offset - m.starts.getD i 0)).toNat }

/-- The text of a line without its newline; empty if there is no such line. -/
def lineText (m : LineMap) (line : Nat) : List Char :=
  if line = 0 ∨ m.starts.size < line then []
  else
    let start := m.starts.getD (line - 1) 0
    let stop := match m.starts[line]? with
      | some next => next - 1
      | none => Text.byteSize m.text
    (Text.slice? m.text start (max stop start)).getD []

end LineMap

end ScriptEngine
