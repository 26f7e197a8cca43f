import ScriptEngine.Proofs.Printing.Lexicon
import ScriptEngine.Proofs.Reading.Stream

/-!
# Tokens that are written are read again

`Printed kinds text` says that a text is one way to write tokens: each in one of its spellings, with
a blank behind it and then any white space and closed comments. Reserved words need care behind a
dot, where they are names; `wordsInPlace` says that no token would be another one there.

Main statement: `tokenize_undoes_printing`. Cutting a text into tokens gives back the tokens that were
written.
-/

namespace ScriptEngine

open LexRule

/-! ## Spellings -/

/-- How a token may be written. A number stands for what reading its text gives. -/
inductive Spelled : Token.Kind → List Char → Prop where
  | mark (m : Mark) : Spelled (.mark m) m.spelling.toList
  | keyword (word : Keyword) : Spelled (.keyword word) word.spelling.toList
  | ident {name : String} (h : IsName name.toList) : Spelled (.ident name) name.toList
  | str {quote : Char} {s : String} {body : List Char} (hquote : quote = '"' ∨ quote = '\'')
      (h : Body quote s.toList body) : Spelled (.str s) (quote :: (body ++ [quote]))
  | number {x : Number} {text : List Char} (h : IsNumeral text)
      (hx : ∀ y, Number.read? text = some y → y = x) : Spelled (.number x) text

/-- Tokens one behind the other, each with a blank and a gap behind it. -/
inductive Printed : List Token.Kind → List Char → Prop where
  | nil : Printed [] []
  | cons {kind : Token.Kind} {word gap text : List Char} {b : Char} {kinds : List Token.Kind}
      (hword : Spelled kind word) (hb : isBlank b = true) (hgap : Gap gap) (h : Printed kinds text) :
      Printed (kind :: kinds) (word ++ b :: (gap ++ text))

/-- Whether a token keeps its kind where it stands: a reserved word not behind a dot, and a name that
is spelled like one only there. -/
def Token.Kind.inPlace (afterDot : Bool) : Token.Kind → Bool
  | .keyword _ => !afterDot
  | .ident name => afterDot || Keyword.all.all (·.spelling ≠ name)
  | _ => true

/-- Whether all tokens keep their kinds, a dot being in front of the first or not. -/
def wordsInPlace : (afterDot : Bool) → List Token.Kind → Bool
  | _, [] => true
  | afterDot, kind :: kinds => kind.inPlace afterDot && wordsInPlace (kind = .mark .dot) kinds

/-! ## Reading one token -/

/-- In front of a blank, the text is read as one token of its kind. -/
def Lexeme.Delimited (w : Lexeme) (afterDot : Bool) : Prop :=
  w.text ≠ [] ∧ ∃ rule : LexRule, rule.isSkipped = false ∧ rule ≠ .openComment ∧
    (∀ b rest, isBlank b = true → longest (w.text ++ b :: rest) = some (rule, w.text.length)) ∧
    ∀ (l : Lexer) start, l.afterDot = afterDot → l.kindOf rule w.text start = .ok w.kind

theorem Lexeme.Readable.delimited {w : Lexeme} {afterDot : Bool} (h : w.Readable afterDot) :
    w.Delimited afterDot := by
  obtain ⟨hplain, -, rule, hlongest, hskip, hopen, hkind⟩ := h
  refine ⟨fun hnil => ?_, rule, hskip, hopen, fun b rest hb => ?_, hkind⟩
  · rw [hnil] at hplain
    cases hplain
  · rwa [longest_append hb hplain]

/-- A text between quotes is one token, whatever is behind it. -/
theorem Lexeme.delimited_str {quote : Char} {s : String} {body : List Char}
    (hquote : quote = '"' ∨ quote = '\'') (h : Body quote s.toList body) (afterDot : Bool) :
    Delimited ⟨quote :: (body ++ [quote]), .str s⟩ afterDot := by
  refine ⟨List.cons_ne_nil _ _, .quoted quote, rfl, nofun, fun b rest _ => ?_, fun l start _ => ?_⟩
  · simpa using h.longest hquote (b :: rest)
  · unfold Lexer.kindOf
    simp only [List.tail_cons, List.dropLast_concat, h.unescape, String.ofList_toList]

/-- A spelling of a token that is in its place is read as that token. -/
theorem Spelled.delimited {kind : Token.Kind} {word : List Char} (h : Spelled kind word)
    {afterDot : Bool} (hplace : kind.inPlace afterDot = true) :
    Lexeme.Delimited ⟨word, kind⟩ afterDot := by
  cases h with
  | mark m => exact (Lexeme.readable_ofMark m afterDot).delimited
  | keyword word =>
    obtain rfl : afterDot = false := by simpa [Token.Kind.inPlace] using hplace
    exact (Lexeme.readable_ofKeyword word).delimited
  | @ident name h =>
    refine Lexeme.Readable.delimited (Lexeme.readable_word (longest_name h) ?_)
    rw [String.ofList_toList]
    cases afterDot with
    | true => rfl
    | false =>
      have hnone : Keyword.ofSpelling? name = none := by
        simpa [Token.Kind.inPlace, Keyword.ofSpelling?, List.find?_eq_none] using hplace
      rw [if_neg Bool.false_ne_true, hnone]
  | str hquote h => exact Lexeme.delimited_str hquote h afterDot
  | number h hx =>
    obtain ⟨y, hy⟩ := h.read?
    rw [← hx y hy]
    exact (Lexeme.readable_number h.longest hy).delimited

namespace Lexer

variable {l : Lexer} {w : Lexeme} {gap rest : List Char} {b : Char}

/-- The next token is that of the next lexeme, with a gap in front of it. -/
theorem fetch_delimited (hfinished : l.finished = false) (hgap : Gap gap) (hb : isBlank b = true)
    (hrest : l.rest = gap ++ (w.text ++ b :: rest)) (hw : w.Delimited l.afterDot) :
    ∃ p l', l.fetch = (.ok ⟨w.kind, p⟩, l') ∧ l'.finished = false ∧ l'.rest = b :: rest ∧
      l'.afterDot = decide (w.kind = .mark .dot) := by
  obtain ⟨htext, rule, hskip, hopen, hlongest, hkind⟩ := hw
  obtain ⟨start, hstart⟩ := hgap.scan (w.text ++ b :: rest) l.offset
  have hscan : scan l.rest l.offset = .lexeme rule w.text start (b :: rest) := by
    rw [hrest, hstart, scan_of_longest htext (hlongest b rest hb), hskip, if_neg Bool.false_ne_true]
  have hfetch : l.fetch = (.ok ⟨w.kind, l.map.position start⟩,
      { l.advance w.text (b :: rest) start with
        afterDot := w.kind = .mark .dot, finished := rule = .openComment }) := by
    simp only [fetch, hfinished, hscan, hkind l start rfl, Bool.false_eq_true, if_false]
  exact ⟨_, _, hfetch, decide_eq_false hopen, rfl, rfl⟩

/-- Behind the last gap comes the end. -/
theorem fetch_gap (hfinished : l.finished = false) (hgap : Gap gap) (hrest : l.rest = gap) :
    l.fetch = (.ok l.finishToken, { l with finished := true }) := by
  obtain ⟨start, hstart⟩ := hgap.scan [] l.offset
  have hscan : scan l.rest l.offset = .finish := by
    rw [hrest, ← List.append_nil gap, hstart]
    unfold scan
    rfl
  simp only [fetch, hfinished, hscan, Bool.false_eq_true, if_false]

/-- A lexer that has a gap and tokens ahead of it yields these tokens, and then the end. -/
theorem yields_printed {cs text : List Char} {kinds : List Token.Kind} {ts : List Token}
    (h : Printed kinds text) (hyields : (ofText cs).Yields ts l) (hfinished : l.finished = false)
    (hgap : Gap gap) (hrest : l.rest = gap ++ text)
    (hplace : wordsInPlace l.afterDot kinds = true) :
    ∃ (us : List Token) (t : Token) (l' : Lexer), (ofText cs).Yields (ts ++ us ++ [t]) l' ∧
      us.map Token.kind = kinds ∧ t.kind = .finish := by
  induction h generalizing l ts gap with
  | nil =>
    have hfetch := fetch_gap hfinished hgap (hrest.trans (List.append_nil gap))
    exact ⟨[], l.finishToken, _, by simpa using hyields.snoc hfetch, rfl, rfl⟩
  | @cons kind word behind text b kinds hword hb hbehind _ ih =>
    rw [wordsInPlace, Bool.and_eq_true] at hplace
    obtain ⟨p, l', hfetch, hfinished', hrest', hdot⟩ :=
      fetch_delimited hfinished hgap hb hrest (hword.delimited hplace.1)
    obtain ⟨us, t, l'', hyields', hus, ht⟩ := ih (hyields.snoc hfetch) hfinished' (hbehind.blank hb)
      hrest' (hdot ▸ hplace.2)
    exact ⟨⟨kind, p⟩ :: us, t, l'', by simpa using hyields', congrArg (kind :: ·) hus, ht⟩

end Lexer

theorem Spelled.ne_finish {kind : Token.Kind} {word : List Char} (h : Spelled kind word) :
    kind ≠ .finish := by
  cases h <;> nofun

theorem Printed.ne_finish {kinds : List Token.Kind} {text : List Char} (h : Printed kinds text) :
    ∀ kind ∈ kinds, kind ≠ .finish := by
  induction h with
  | nil => nofun
  | cons hword _ _ _ ih => exact List.forall_mem_cons.2 ⟨hword.ne_finish, ih⟩

/-- Tokens that are written, with white space and comments between them, are read again; see the head
of the module. -/
theorem tokenize_undoes_printing {kinds : List Token.Kind} {text : List Char}
    (hprinted : Printed kinds text) (hplace : wordsInPlace false kinds = true) :
    ∃ ts, tokenize text = .ok ts ∧ ts.map Token.kind = kinds := by
  obtain ⟨ts, t, l, hyields, hts, ht⟩ := Lexer.yields_printed hprinted
    (.nil (l := Lexer.ofText text)) rfl .none rfl hplace
  refine ⟨ts, hyields.tokenize (fun u hu => ?_) ht, hts⟩
  exact hprinted.ne_finish _ (hts ▸ List.mem_map_of_mem hu)

/-- A reserved word behind a dot and a comment, a quote inside a comment, escapes of all forms, and a
number that starts with its point. -/
theorem tokenize_undoes_printing_nested :
    ∃ ts, tokenize ". /***/int // '\n'\\'\\n\\x004a-' .5e-1\t".toList = .ok ts ∧
      ts.map Token.kind = [.mark .dot, .ident "int", .str "'\nJ-",
        .number ((Number.read? ['.', '5', 'e', '-', '1']).getD default)] := by
  have hint : Spelled (.ident "int") "int".toList := .ident (by simp [IsName]; decide)
  have hbody : Body '\'' ['\'', '\n', 'J', '-']
      (['\\', '\''] ++ (['\\', 'n'] ++ (['\\', 'x', '0', '0', '4', 'a'] ++ (['-'] ++ [])))) :=
    .cons (.letter (by decide)) <| .cons (.letter (by decide)) <|
      .cons (.hex (by decide) (by decide)) <| .cons (.raw (by decide) (by decide) (by decide)) .nil
  have hnumeral : IsNumeral ([] ++ '.' :: (['5'] ++ 'e' :: (['-'] ++ ['1']))) :=
    .point nofun (by simp [Digits]) (.inr nofun)
      (.power (.inl rfl) (.inr (.inr rfl)) (by simp [Digits]) nofun)
  have htext : ". /***/int // '\n'\\'\\n\\x004a-' .5e-1\t".toList =
      Mark.dot.spelling.toList ++ ' ' :: (('/' :: '*' :: (['*'] ++ '*' :: '/' :: [])) ++
        ("int".toList ++ ' ' :: (('/' :: '/' :: ([' ', '\''] ++ '\n' :: [])) ++
        ('\'' :: (['\\', '\''] ++ (['\\', 'n'] ++ (['\\', 'x', '0', '0', '4', 'a'] ++
          (['-'] ++ []))) ++ ['\'']) ++ ' ' :: ([] ++
        (['.', '5', 'e', '-', '1'] ++ '\t' :: ([] ++ []))))))) := by
    decide
  rw [htext]
  refine tokenize_undoes_printing ?_ (by decide)
  refine .cons (.mark .dot) rfl (.block (by decide) .none) (.cons hint rfl (.line (by decide) .none) ?_)
  refine .cons (.str (s := "'\nJ-") (.inr rfl) hbody) rfl .none
    (.cons (.number hnumeral fun y hy => ?_) rfl .none .nil)
  exact (congrArg (Option.getD · default) hy).symm

end ScriptEngine
