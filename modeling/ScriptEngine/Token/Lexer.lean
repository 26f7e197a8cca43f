import ScriptEngine.Fault
import ScriptEngine.Json
import ScriptEngine.Number.Reader

/-!
# Cutting a source into tokens

Each rule of the lexicon says how long a prefix of the text it matches at most. `longest` takes
the rule with the longest match, `scan` skips white space and comments and gives the next lexeme
with its place, and `Lexer.next` turns lexemes into tokens.

A word that follows a dot is an identifier even if it is reserved. A block comment that is never
closed ends the source. A lexeme that is refused is still consumed, so that lexing can go on
behind it.
-/

namespace ScriptEngine

/-! ## The lexicon -/

/-- The rules of the lexicon. The last five kinds of lexemes become tokens. -/
inductive LexRule where
  | blank
  | lineComment
  | blockComment
  | openComment
  | unclosed (quote : Char)
  | quoted (quote : Char)
  | number
  | fraction
  | word
  | sign
  deriving DecidableEq, Inhabited

namespace LexRule

/-- Every rule. -/
def all : List LexRule :=
  [.blank, .lineComment, .blockComment, .openComment, .unclosed '"', .unclosed '\'', .quoted '"',
   .quoted '\'', .number, .fraction, .word, .sign]

/-- White space between tokens. -/
def isBlank (c : Char) : Bool :=
  c = ' ' || c = '\t' || c = '\n' || c = '\x0b' || c = '\x0c'

/-- Characters that start a word: letters, the underscore and all beyond ASCII. -/
def isWordStart (c : Char) : Bool :=
  c.isAlpha || c = '_' || 0x80 ≤ c.toNat

/-- Characters that continue a word. -/
def isWordPart (c : Char) : Bool :=
  isWordStart c || c.isDigit

/-- How many of the first characters satisfy `p`. -/
def run (p : Char → Bool) (cs : List Char) : Nat :=
  (cs.takeWhile p).length

/-- A length that does not count if it is zero. -/
def positive? (n : Nat) : Option Nat :=
  if n = 0 then none else some n

/-- How many characters of an exponent start the text: a letter `e`, an optional sign and at
least one digit, or nothing. -/
def exponentLength : List Char → Nat
  | c :: s :: cs =>
    if c = 'e' ∨ c = 'E' then
      if s = '+' ∨ s = '-' then
        let n := run Char.isDigit cs
        if n = 0 then 0 else n + 2
      else
        let n := run Char.isDigit (s :: cs)
        if n = 0 then 0 else n + 1
    else 0
  | _ => 0

/-- The length of a point and the digits behind it, if the text starts with a point. -/
def pointLength : List Char → Nat
  | '.' :: cs => run Char.isDigit cs + 1
  | _ => 0

/-- The distance to the end of the first closing mark of a block comment. -/
def commentEnd? : List Char → Option Nat
  | '*' :: '/' :: _ => some 2
  | _ :: cs => (commentEnd? cs).map (· + 1)
  | [] => none

/-- How the body of a quoted text goes on: its length up to a closing quote, the end of the line
or the end of the source, and whether it is closed there. A backslash takes the character behind
it along, but not a newline. -/
def quotedBody (quote : Char) : List Char → Nat × Bool
  | [] => (0, false)
  | '\\' :: c :: cs =>
    if c = '\n' then (1, false)
    else
      let (n, closed) := quotedBody quote cs
      (n + 2, closed)
  | c :: cs =>
    if c = quote then (0, true)
    else if c = '\n' then (0, false)
    else
      let (n, closed) := quotedBody quote cs
      (n + 1, closed)

/-- The spellings of all signs. -/
def spellings : List (List Char × Mark) :=
  Mark.all.map fun m => (m.spelling.toList, m)

/-- The sign that is spelled like the text. -/
def signOf? (text : List Char) : Option Mark :=
  (spellings.find? (·.1 = text)).map (·.2)

/-- The length of the longest prefix of a text that a rule matches. -/
def match? : LexRule → List Char → Option Nat
  | .blank, cs => positive? (run isBlank cs)
  | .lineComment, '/' :: '/' :: cs => some (run (· ≠ '\n') cs + 2)
  | .blockComment, '/' :: '*' :: cs => (commentEnd? cs).map (· + 2)
  | .openComment, '/' :: '*' :: _ => some 2
  | .unclosed quote, c :: cs => if c = quote then some ((quotedBody quote cs).1 + 1) else none
  | .quoted quote, c :: cs =>
    if c = quote then
      match quotedBody quote cs with
      | (n, true) => some (n + 2)
      | (_, false) => none
    else none
  | .number, cs =>
    match run Char.isDigit cs with
    | 0 => none
    | n =>
      let m := n + pointLength (cs.drop n)
      some (m + exponentLength (cs.drop m))
  | .fraction, '.' :: cs =>
    match run Char.isDigit cs with
    | 0 => none
    | n => some (n + 1 + exponentLength (cs.drop n))
  | .word, c :: cs => if isWordStart c then some (run isWordPart cs + 1) else none
  | .sign, cs =>
    ((spellings.filter fun (s, _) => s.isPrefixOf cs).map (·.1.length)).max?
  | _, _ => none

end LexRule

/-- The longer of two matches; the first if they are equally long. -/
def longerMatch : Option (LexRule × Nat) → Option (LexRule × Nat) → Option (LexRule × Nat)
  | some a, some b => some (if a.2 < b.2 then b else a)
  | some a, none => some a
  | none, b => b

/-- The rule with the longest match at the front of a text, and its length. -/
def longest (cs : List Char) : Option (LexRule × Nat) :=
  (LexRule.all.map fun rule => (rule.match? cs).map (rule, ·)).foldl longerMatch none

/-! ## Lexemes -/

/-- The next thing in a source, behind white space and closed comments. Each carries its first
byte; a lexeme also its text, and both the text behind it. -/
inductive Scan where
  | finish
  | lexeme (rule : LexRule) (text : List Char) (start : Nat) (rest : List Char)
  | invalid (c : Char) (start : Nat) (rest : List Char)
  deriving Inhabited

/-- Whether what a rule matches is skipped between tokens. -/
def LexRule.isSkipped : LexRule → Bool
  | .blank | .lineComment | .blockComment => true
  | _ => false

/-- The next lexeme of a text whose first byte is at `offset`. -/
def scan : (cs : List Char) → (offset : Nat) → Scan
  | [], _ => .finish
  | c :: cs, offset =>
    match longest (c :: cs) with
    | none => .invalid c offset cs
    | some (rule, n) =>
      let text := c :: cs.take (n - 1)
      if rule.isSkipped then scan (cs.drop (n - 1)) (offset + Text.byteSize text)
      else .lexeme rule text offset (cs.drop (n - 1))
termination_by cs => cs.length
decreasing_by grind

/-! ## Escapes -/

/-- The character that a one-letter escape of a string stands for. -/
def stringEscape? (c : Char) : Option Char :=
  if c = '\\' ∨ c = '\'' ∨ c = '"' then some c
  else if c = 'n' then some '\n'
  else if c = 'r' then some '\r'
  else if c = 't' then some '\t'
  else if c = 'a' then some '\x07'
  else if c = 'b' then some '\x08'
  else if c = 'f' then some '\x0c'
  else if c = 'v' then some '\x0b'
  else none

/-- The value of digits in base sixteen. -/
def hexValue (ds : List Char) : Nat :=
  ds.foldl (fun n d => 16 * n + (Json.hexDigit? d).getD 0) 0

/-- The text that the body of a quoted literal stands for. A fault comes with the byte of the
backslash that starts it, the body itself starting at `offset`. -/
def unescapeBody (cs : List Char) (offset : Nat) : Except (LexicalFault × Nat) (List Char) :=
  match cs with
  | [] => .ok []
  | '\\' :: [] => .error (.unclosedString, offset)
  | '\\' :: c :: cs =>
    if c = 'x' then
      let digits := (cs.take 4).takeWhile fun d => (Json.hexDigit? d).isSome
      let code := hexValue digits
      if digits.isEmpty || !decide code.isValidChar then .error (.illegalHexEscape, offset)
      else
        (unescapeBody (cs.drop digits.length) (offset + 2 + digits.length)).map
          (Char.ofNat code :: ·)
    else
      match stringEscape? c with
      | some d => (unescapeBody cs (offset + 2)).map (d :: ·)
      | none => .error (.illegalEscape c, offset)
  | c :: cs => (unescapeBody cs (offset + c.utf8Size)).map (c :: ·)
termination_by cs.length
decreasing_by all_goals simp; try omega

/-! ## The lexer -/

/-- A source that is being cut into tokens, with a slot for one token that was given back. -/
structure Lexer where
  /-- The lines of the source. -/
  map : LineMap
  /-- The number of bytes of the source. -/
  size : Nat
  /-- The text that was not read yet. -/
  rest : List Char
  /-- The byte at which that text starts. -/
  offset : Nat
  /-- Whether the last token was a dot. -/
  afterDot : Bool := false
  /-- Whether the end was reached. -/
  finished : Bool := false
  /-- A token that was given back. -/
  pushed : Option Token := none
  deriving Inhabited

namespace Lexer

/-- A lexer at the start of a source whose newlines are normalised. -/
def ofText (cs : List Char) : Lexer :=
  { map := LineMap.ofText cs, size := Text.byteSize cs, rest := cs, offset := 0 }

/-- Gives a token back, to be read again by the next `next`. -/
def pushBack (l : Lexer) (t : Token) : Lexer :=
  { l with pushed := some t }

/-- The token of the end of the source. -/
def finishToken (l : Lexer) : Token :=
  { kind := .finish, position := l.map.position l.size }

/-- What a lexeme stands for, `start` being its first byte. -/
def kindOf (l : Lexer) (rule : LexRule) (text : List Char) (start : Nat) :
    Except ScriptError Token.Kind :=
  let here := l.map.position start
  let name := String.ofList text
  match rule with
  | .number | .fraction =>
    match Number.read? text with
    | some x => .ok (.number x)
    | none => .error (.lexical (.malformedNumber name) here)
  | .quoted _ =>
    match unescapeBody text.tail.dropLast (start + 1) with
    | .ok body => .ok (.str (String.ofList body))
    | .error (cause, place) => .error (.lexical cause (l.map.position place))
  | .unclosed _ => .error (.lexical .unclosedString here)
  | .word =>
    match if l.afterDot then none else Keyword.ofSpelling? name with
    | some word => .ok (.keyword word)
    | none => .ok (.ident name)
  | .sign =>
    match LexRule.signOf? text with
    | some sign => .ok (.mark sign)
    | none => .ok .finish
  | _ => .ok .finish

/-- The lexer behind a lexeme. -/
def advance (l : Lexer) (text rest : List Char) (start : Nat) : Lexer :=
  { l with rest := rest, offset := start + Text.byteSize text }

/-- The next token that was not read before. -/
def fetch (l : Lexer) : Except ScriptError Token × Lexer :=
  if l.finished then (.ok l.finishToken, l)
  else
    match scan l.rest l.offset with
    | .finish => (.ok l.finishToken, { l with finished := true })
    | .invalid c start rest =>
      (.error (.lexical (.invalidCharacter c) (l.map.position start)), l.advance [c] rest start)
    | .lexeme rule text start rest =>
      let after := l.advance text rest start
      match l.kindOf rule text start with
      | .error e => (.error e, after)
      | .ok kind =>
        (.ok { kind, position := l.map.position start },
          { after with afterDot := kind = .mark .dot, finished := rule = .openComment })

/-- The next token: the one that was given back, if there is one. -/
def next (l : Lexer) : Except ScriptError Token × Lexer :=
  match l.pushed with
  | some t => (.ok t, { l with pushed := none })
  | none => l.fetch

/-- The tokens up to the end; `fuel` bounds their number. -/
def drain (l : Lexer) : Nat → Except ScriptError (List Token)
  | 0 => .ok []
  | fuel + 1 =>
    match l.next with
    | (.error e, _) => .error e
    | (.ok t, l) => if t.kind = .finish then .ok [] else (l.drain fuel).map (t :: ·)

end Lexer

/-- The tokens of a source whose newlines are normalised, without the end. -/
def tokenize (cs : List Char) : Except ScriptError (List Token) :=
  (Lexer.ofText cs).drain (cs.length + 1)

end ScriptEngine
