import ScriptEngine.Text.CaseTable

/-!
# Upper and lower case

The full case maps: a character may become several. Lower case has one rule that looks at its
surroundings: a capital sigma that ends a word becomes the final form.
-/

namespace ScriptEngine.Text

/-- The run among those at the indices from `lo` up to but not including `hi` whose ends
enclose `n`. -/
def CaseRun.findIn? (runs : Array CaseRun) (n lo hi : Nat) : Option CaseRun :=
  if lo < hi then
    let mid := (lo + hi) / 2
    match runs[mid]? with
    | some run =>
      if n < run.first then findIn? runs n lo mid
      else if run.last < n then findIn? runs n (mid + 1) hi
      else some run
    | none => none
  else none
termination_by hi - lo

/-- Whether a code point between the ends of a run is one of its members. -/
def CaseRun.covers (run : CaseRun) (n : Nat) : Bool :=
  (n - run.first) % run.step = 0

/-- The image of a character under a case map given by its runs and its expansions. -/
def mapCase (runs : Array CaseRun) (expansions : Array (Nat × List Nat)) (c : Char) : List Char :=
  match (CaseRun.findIn? runs c.toNat 0 runs.size).filter (·.covers c.toNat) with
  | some run => [Char.ofNat (c.toNat + run.offset).toNat]
  | none =>
    match expansions.find? (·.1 = c.toNat) with
    | some (_, image) => image.map Char.ofNat
    | none => [c]

/-- The upper case form of a character. -/
def upper (c : Char) : List Char :=
  if c.toNat < 128 then [c.toUpper] else mapCase upperRuns upperExpansions c

/-- The lower case form of a character on its own. -/
def lower (c : Char) : List Char :=
  if c.toNat < 128 then [c.toLower] else mapCase lowerRuns lowerExpansions c

/-- Whether the first character that is not ignored has case. -/
def startsCased (cs : List Char) : Bool :=
  match cs.dropWhile caseIgnorable.holds with
  | [] => false
  | c :: _ => cased.holds c

/-- The lower case form of a text whose characters before it are `before`, nearest first. -/
def lowerFrom (before : List Char) : List Char → List Char
  | [] => []
  | c :: rest =>
    let image :=
      if c = 'Σ' then (if startsCased before && !startsCased rest then ['ς'] else ['σ'])
      else lower c
    image ++ lowerFrom (c :: before) rest

/-- The text in lower case. -/
def toLowerCase (s : String) : String :=
  String.ofList (lowerFrom [] s.toList)

/-- The text in upper case. -/
def toUpperCase (s : String) : String :=
  String.ofList (s.toList.flatMap upper)

end ScriptEngine.Text
