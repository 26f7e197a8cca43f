/-!
# Texts as bytes

Texts are lists of characters, while offsets into them count the bytes of their UTF-8 form. An
offset cuts a text in two if it is between two characters or at an end of the text. `slice?` is the
part between two such offsets, and `byteOffset` turns the index of a character into its offset.
`extract?` is the part of a string between two offsets, for which nothing but the part is gone
through.
-/

namespace ScriptEngine.Text

/-- The UTF-8 form of a text. -/
def bytes (cs : List Char) : List UInt8 :=
  cs.flatMap String.utf8EncodeChar

/-- The number of bytes of a text in UTF-8. -/
def byteSize (cs : List Char) : Nat :=
  cs.foldr (fun c n => c.utf8Size + n) 0

/-- The characters of a text, each behind its offset, the first of them at `offset`. -/
def charIndices (offset : Nat) : List Char → List (Nat × Char)
  | [] => []
  | c :: cs => (offset, c) :: charIndices (offset + c.utf8Size) cs

/-- The offset of the character at an index, or that of the end if there is no such character. -/
def byteOffset (cs : List Char) (index : Nat) : Nat :=
  match (charIndices 0 cs)[index]? with
  | some (offset, _) => offset
  | none => byteSize cs

/-- What is in front of an offset and what is behind it, unless the offset is inside of a character
or behind the end. -/
def cut? : List Char → Nat → Option (List Char × List Char)
  | cs, 0 => some ([], cs)
  | [], _ + 1 => none
  | c :: cs, n + 1 =>
    if c.utf8Size ≤ n + 1 then
      (cut? cs (n + 1 - c.utf8Size)).map fun (front, behind) => (c :: front, behind)
    else none

/-- The text from one offset up to another one, if both cut the text and the first is not behind the
second. -/
def slice? (cs : List Char) (start stop : Nat) : Option (List Char) := do
  let (front, _) ← cut? cs stop
  let (_, part) ← cut? front start
  return part

/-- The part of a string from one offset up to another one, if both cut the string and the first is
not behind the second. -/
def extract? (s : String) (start stop : Nat) : Option String :=
  if h : (⟨start⟩ : String.Pos.Raw).IsValid s ∧ (⟨stop⟩ : String.Pos.Raw).IsValid s ∧ start ≤ stop then
    some (s.extract ⟨⟨start⟩, h.1⟩ ⟨⟨stop⟩, h.2.1⟩)
  else none

end ScriptEngine.Text
