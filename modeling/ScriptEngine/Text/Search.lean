/-!
# Searching a text

Texts are lists of characters. `find?` gives the first place where a needle occurs in a list, be it of
characters or of bytes. `split` cuts a text at the leftmost occurrences of a separator that do not
overlap, and `join` puts pieces together around a separator. `charAt?` reads one character of a
string without listing the others.
-/

namespace ScriptEngine.Text

/-- The character of a string at an index. -/
def charAt? (s : String) (i : Nat) : Option Char :=
  (s.drop i).front?

@[simp]
theorem charAt?_eq (s : String) (i : Nat) : charAt? s i = s.toList[i]? := by
  rw [charAt?, String.Slice.front?_eq, ← String.drop_toSlice, String.Slice.toList_copy_drop]
  simp

/-- The least number of items to drop so that the rest starts with `needle`. -/
def find? {α : Type} [BEq α] (needle : List α) : List α → Option Nat
  | [] => if needle.isEmpty then some 0 else none
  | x :: xs => if needle.isPrefixOf (x :: xs) then some 0 else (find? needle xs).map (· + 1)

/-- Puts a character in front of the first piece. -/
def consHead (c : Char) : List (List Char) → List (List Char)
  | [] => [[c]]
  | piece :: pieces => (c :: piece) :: pieces

/-- The pieces of a text between the occurrences of `sep`, skipping the first `skip` characters:
those belong to an occurrence of the separator that starts before them. -/
def splitFrom (sep : List Char) : Nat → List Char → List (List Char)
  | _, [] => [[]]
  | skip + 1, _ :: cs => splitFrom sep skip cs
  | 0, c :: cs =>
    if sep.isPrefixOf (c :: cs) then [] :: splitFrom sep (sep.length - 1) cs
    else consHead c (splitFrom sep 0 cs)

/-- The pieces of a text between the leftmost occurrences of `sep` that do not overlap. An empty
separator leaves the text in one piece. -/
def split (sep text : List Char) : List (List Char) :=
  if sep.isEmpty then [text] else splitFrom sep 0 text

/-- The pieces put together with `sep` between them. -/
def join (sep : String) (pieces : List String) : String :=
  sep.intercalate pieces

end ScriptEngine.Text
