import ScriptEngine.Proofs.Precedence.Lexemes

/-!
# The tokens of a source

`Lexed` says how far a source is cut by longest matches, and `Landmark` which places of it a
compilation may refer to: those where a token starts, an unclosed text or comment or a character
that no rule matches, the backslash of an escape that stands for nothing, and the end.
`Position.Marks` says that a position is that of a landmark.

`Lexer.Yields` are the tokens that a lexer gives, one behind the other, if none is given back. They
start at marks (`Yields.marks`), and each of them but the end takes up a part of the source
(`Yields.length_le`), so that the tokens up to the end are those of `tokenize` (`Yields.tokenize`).
-/

namespace ScriptEngine

open Text

/-! ## Places of a source -/

/-- The rules whose lexemes become tokens. -/
def LexRule.isToken : LexRule → Bool
  | .quoted _ | .number | .fraction | .word | .sign => true
  | _ => false

/-- A source is cut into longest matches up to a place: what is in front of it and what is behind. -/
inductive Lexed (cs : List Char) : List Char → List Char → Prop where
  | start : Lexed cs [] cs
  | step {before after : List Char} {rule : LexRule} {n : Nat} (h : Lexed cs before after)
      (hlongest : longest after = some (rule, n)) (hrule : rule ≠ .openComment) :
      Lexed cs (before ++ after.take n) (after.drop n)

/-- Reading the body of a quoted text, escape by escape, comes to a rest of it. -/
inductive Unescapes : List Char → List Char → Prop where
  | here (cs : List Char) : Unescapes cs cs
  | raw {c : Char} {cs rest : List Char} (hc : c ≠ '\\') (h : Unescapes cs rest) :
      Unescapes (c :: cs) rest
  | letter {c d : Char} {cs rest : List Char} (hx : c ≠ 'x') (hc : stringEscape? c = some d)
      (h : Unescapes cs rest) : Unescapes ('\\' :: c :: cs) rest
  | hex {cs digits rest : List Char}
      (hdigits : digits = (cs.take 4).takeWhile fun d => (Json.hexDigit? d).isSome)
      (hsome : digits ≠ []) (hvalid : (hexValue digits).isValidChar)
      (h : Unescapes (cs.drop digits.length) rest) : Unescapes ('\\' :: 'x' :: cs) rest

/-- What is behind a backslash stands for no character. -/
def IllegalEscape : List Char → Prop
  | [] => True
  | c :: cs =>
    if c = 'x' then
      let digits := (cs.take 4).takeWhile fun d => (Json.hexDigit? d).isSome
      digits = [] ∨ ¬(hexValue digits).isValidChar
    else stringEscape? c = none

/-- The fault of what is behind a backslash and stands for no character. -/
def escapeFault : List Char → LexicalFault
  | [] => .unclosedString
  | c :: _ => if c = 'x' then .illegalHexEscape else .illegalEscape c

/-- The places of a source that a compilation may refer to. -/
inductive Landmark (cs : List Char) : List Char → List Char → Prop where
  | token {before after : List Char} {rule : LexRule} {n : Nat} (h : Lexed cs before after)
      (hlongest : longest after = some (rule, n)) (hrule : rule.isToken = true) :
      Landmark cs before after
  | unclosedText {before after : List Char} {quote : Char} {n : Nat} (h : Lexed cs before after)
      (hlongest : longest after = some (.unclosed quote, n)) : Landmark cs before after
  | unclosedComment {before after : List Char} {n : Nat} (h : Lexed cs before after)
      (hlongest : longest after = some (.openComment, n)) : Landmark cs before after
  | illegalCharacter {before after : List Char} {c : Char} (h : Lexed cs before (c :: after))
      (hlongest : longest (c :: after) = none) : Landmark cs before (c :: after)
  | illegalEscape {before after inside escape body : List Char} {quote : Char} {n : Nat}
      (h : Lexed cs before after) (hlongest : longest after = some (.quoted quote, n))
      (hbody : after.take n = quote :: body ++ [quote]) (hinside : body = inside ++ '\\' :: escape)
      (hcomes : Unescapes body ('\\' :: escape)) (hillegal : IllegalEscape escape) :
      Landmark cs (before ++ quote :: inside) ('\\' :: escape ++ quote :: after.drop n)
  | finish : Landmark cs cs []

/-- The position of a landmark of a source. -/
def Position.Marks (place : Position) (cs : List Char) : Prop :=
  ∃ before after, Landmark cs before after ∧
    place = (LineMap.ofText cs).position (byteSize before)

theorem Lexed.eq_append {cs before after : List Char} (h : Lexed cs before after) :
    cs = before ++ after := by
  induction h with
  | start => rfl
  | step _ _ _ ih => rw [List.append_assoc, List.take_append_drop, ← ih]

theorem Landmark.eq_append {cs before after : List Char} (h : Landmark cs before after) :
    cs = before ++ after := by
  cases h with
  | token h | unclosedText h | unclosedComment h | illegalCharacter h => exact h.eq_append
  | @illegalEscape before after inside escape body quote n h hlongest hbody hinside =>
    rw [h.eq_append]
    conv_lhs => rw [← List.take_append_drop n after, hbody, hinside]
    simp
  | finish => simp

/-- A mark is in a line of the source, between two characters or at an end of the line. -/
theorem Position.Marks.covers {cs : List Char} {place : Position} (h : place.Marks cs)
    (hfits : Source.Fits cs) : (LineMap.ofText cs).Covers place := by
  obtain ⟨before, after, hlandmark, rfl⟩ := h
  obtain rfl := hlandmark.eq_append
  exact LineMap.covers_position hfits

/-! ## Scanning -/

theorem LexRule.match?_pos {rule : LexRule} {cs : List Char} {n : Nat}
    (h : rule.match? cs = some n) : 0 < n := by
  unfold LexRule.match? at h
  split at h
  · rw [positive?] at h
    split at h
    · cases h
    · cases h
      omega
  · cases h
    omega
  · obtain ⟨m, -, rfl⟩ := Option.map_eq_some_iff.1 h
    omega
  · cases h
    omega
  · split at h
    · cases h
      omega
    · cases h
  · split at h
    · split at h
      · cases h
        omega
      · cases h
    · cases h
  · rcases hrun : run Char.isDigit _ with _ | m <;> rw [hrun] at h <;> cases h
    omega
  · rcases hrun : run Char.isDigit _ with _ | m <;> rw [hrun] at h <;> cases h
    omega
  · split at h
    · cases h
      omega
    · cases h
  · obtain ⟨s, hs, -, rfl⟩ := prefix_of_match?_sign h
    exact List.length_pos_iff.2 (spelling_ne_nil s hs)
  · cases h

theorem longest_pos {cs : List Char} {rule : LexRule} {n : Nat} (h : longest cs = some (rule, n)) :
    0 < n :=
  LexRule.match?_pos (match?_of_longest h)

theorem scan_shortens {cs : List Char} {offset : Nat} {rule : LexRule} {text rest : List Char}
    {start : Nat} (h : scan cs offset = .lexeme rule text start rest) : rest.length < cs.length := by
  fun_induction scan cs offset with
  | case1 => cases h
  | case2 => cases h
  | case3 c cs offset rule n hlongest text hskipped ih =>
    have := ih h
    simp only [List.length_drop, List.length_cons] at this ⊢
    omega
  | case4 c cs offset rule n hlongest text hskipped =>
    obtain ⟨-, -, -, hrest⟩ := Scan.lexeme.inj h
    rw [← hrest, List.length_drop, List.length_cons]
    omega

namespace Lexed

variable {cs before rest : List Char} {offset start : Nat}

/-- What is skipped is cut off, too. -/
theorem skip {c : Char} {rule : LexRule} {n : Nat} (h : Lexed cs before (c :: rest))
    (hlongest : longest (c :: rest) = some (rule, n)) (hskipped : rule.isSkipped = true) :
    Lexed cs (before ++ c :: rest.take (n - 1)) (rest.drop (n - 1)) := by
  obtain ⟨m, rfl⟩ := Nat.exists_eq_succ_of_ne_zero (longest_pos hlongest).ne'
  refine h.step hlongest ?_
  rintro rfl
  cases hskipped

/-- The lexeme that is found is the longest match at a place that the cuts come to. -/
theorem scan_lexeme {rule : LexRule} {text behind : List Char} (h : Lexed cs before rest)
    (hoffset : offset = byteSize before)
    (hscan : scan rest offset = .lexeme rule text start behind) :
    ∃ front after n, Lexed cs front after ∧ longest after = some (rule, n) ∧ text = after.take n ∧
      behind = after.drop n ∧ start = byteSize front ∧ rule.isSkipped = false := by
  fun_induction scan rest offset generalizing before with
  | case1 => cases hscan
  | case2 => cases hscan
  | case3 c cs offset rule n hlongest skipped hskipped =>
    rename_i ih
    exact ih (h.skip hlongest hskipped) (by rw [hoffset, byteSize_append]) hscan
  | case4 c cs offset rule n hlongest =>
    rename_i hskipped
    obtain ⟨m, rfl⟩ := Nat.exists_eq_succ_of_ne_zero (longest_pos hlongest).ne'
    obtain ⟨rfl, htext, rfl, rfl⟩ := Scan.lexeme.inj hscan
    exact ⟨before, c :: cs, m + 1, h, hlongest, htext.symm, rfl, hoffset, by simpa using hskipped⟩

theorem scan_invalid {c : Char} {behind : List Char} (h : Lexed cs before rest)
    (hoffset : offset = byteSize before) (hscan : scan rest offset = .invalid c start behind) :
    ∃ front, Lexed cs front (c :: behind) ∧ longest (c :: behind) = none ∧ start = byteSize front := by
  fun_induction scan rest offset generalizing before with
  | case1 => cases hscan
  | case2 c cs offset hlongest =>
    cases hscan
    exact ⟨before, h, hlongest, hoffset⟩
  | case3 c cs offset rule n hlongest skipped hskipped =>
    rename_i ih
    exact ih (h.skip hlongest hskipped) (by rw [hoffset, byteSize_append]) hscan
  | case4 => cases hscan

end Lexed

/-! ## Escapes -/

theorem quotedBody_closed {quote : Char} {cs : List Char} {n : Nat}
    (h : LexRule.quotedBody quote cs = (n, true)) :
    ∃ body rest, cs = body ++ quote :: rest ∧ body.length = n := by
  fun_induction LexRule.quotedBody quote cs generalizing n with
  | case1 => cases h
  | case2 => cases h
  | case3 c cs hc m closed hbody =>
    rename_i ih
    cases h
    obtain ⟨body, rest, rfl, rfl⟩ := ih hbody
    exact ⟨'\\' :: c :: body, rest, rfl, rfl⟩
  | case4 cs =>
    cases h
    exact ⟨[], cs, rfl, rfl⟩
  | case5 => cases h
  | case6 c cs hmore hquote hline m closed hbody =>
    rename_i ih
    cases h
    obtain ⟨body, rest, rfl, rfl⟩ := ih hbody
    exact ⟨c :: body, rest, rfl, rfl⟩

/-- A quoted text is its body between two quotes. -/
theorem take_quoted {quote : Char} {cs : List Char} {n : Nat}
    (h : LexRule.match? (.quoted quote) cs = some n) :
    ∃ body, cs.take n = quote :: body ++ [quote] := by
  cases cs with
  | nil => cases h
  | cons c cs =>
    simp only [LexRule.match?] at h
    split at h
    · rename_i hc
      subst hc
      split at h
      · rename_i m hbody
        cases h
        obtain ⟨body, rest, rfl, rfl⟩ := quotedBody_closed hbody
        exact ⟨body, by simp [List.take_append]⟩
      · cases h
    · cases h

/-- An escape that is refused is found at its backslash. -/
theorem utf8Size_of_hexDigit {d : Char} (h : (Json.hexDigit? d).isSome) : d.utf8Size = 1 := by
  rw [Char.utf8Size_eq_one_iff]
  unfold Json.hexDigit? at h
  split at h
  · rename_i hdigit
    simp only [Char.isDigit, Bool.and_eq_true, decide_eq_true_eq] at hdigit
    exact UInt32.le_trans hdigit.2 (by decide)
  · split at h
    · rename_i hletter
      exact UInt32.le_trans hletter.2 (by decide)
    · split at h
      · rename_i hletter
        exact UInt32.le_trans hletter.2 (by decide)
      · cases h

theorem utf8Size_of_stringEscape {c d : Char} (h : stringEscape? c = some d) : c.utf8Size = 1 := by
  unfold stringEscape? at h
  repeat' split at h
  all_goals first
    | (rename_i hc; rcases hc with rfl | rfl | rfl <;> rfl)
    | cases h

theorem byteSize_hexDigits {ds : List Char} (h : ∀ d ∈ ds, (Json.hexDigit? d).isSome) :
    byteSize ds = ds.length := by
  induction ds with
  | nil => rfl
  | cons d ds ih =>
    rw [byteSize_cons, utf8Size_of_hexDigit (h d List.mem_cons_self),
      ih fun x hx => h x (List.mem_cons_of_mem _ hx), List.length_cons, Nat.add_comm]

theorem unescapeBody_error {cs : List Char} {offset place : Nat} {cause : LexicalFault}
    (h : unescapeBody cs offset = .error (cause, place)) :
    ∃ inside escape, cs = inside ++ '\\' :: escape ∧ Unescapes cs ('\\' :: escape) ∧
      place = offset + byteSize inside ∧ IllegalEscape escape ∧ cause = escapeFault escape := by
  have hbackslash : '\\'.utf8Size = 1 := rfl
  have hrefused : ∀ (ds : List Char) (n : Nat),
      (ds.isEmpty || !decide n.isValidChar) = true ↔ ds = [] ∨ ¬n.isValidChar := by
    intro ds n
    rw [Bool.or_eq_true, List.isEmpty_iff, Bool.not_eq_true', decide_eq_false_iff_not]
  fun_induction unescapeBody cs offset with
  | case1 => cases h
  | case2 offset =>
    cases h
    exact ⟨[], [], rfl, .here _, rfl, trivial, rfl⟩
  | case3 offset cs digits code hbad =>
    cases h
    refine ⟨[], 'x' :: cs, rfl, .here _, rfl, ?_, rfl⟩
    simpa only [IllegalEscape, if_true] using (hrefused digits code).1 hbad
  | case4 offset cs digits code hgood ih =>
    simp only [Except.map] at h
    split at h
    · rename_i herror
      cases h
      obtain ⟨inside, escape, hsplit, hcomes, rfl, hfault⟩ := ih herror
      have hdigits : ∀ d ∈ digits, (Json.hexDigit? d).isSome := fun d hd =>
        List.all_eq_true.1 List.all_takeWhile d hd
      have hcs : cs = digits ++ inside ++ '\\' :: escape := by
        rw [List.append_assoc, ← hsplit]
        exact (List.prefix_iff_eq_append.1
          ((List.takeWhile_prefix _).trans (List.take_prefix 4 cs))).symm
      rw [hrefused, not_or, not_not] at hgood
      refine ⟨'\\' :: 'x' :: digits ++ inside, escape, by rw [hcs]; simp,
        .hex rfl hgood.1 hgood.2 hcomes, ?_, hfault⟩
      have hx : 'x'.utf8Size = 1 := rfl
      simp only [List.cons_append, byteSize_cons, byteSize_append, byteSize_hexDigits hdigits,
        hbackslash, hx]
      omega
    · cases h
  | case5 offset c cs hx d hd ih =>
    simp only [Except.map] at h
    split at h
    · rename_i herror
      cases h
      obtain ⟨inside, escape, rfl, hcomes, rfl, hfault⟩ := ih herror
      refine ⟨'\\' :: c :: inside, escape, rfl, .letter hx hd hcomes, ?_, hfault⟩
      simp only [byteSize_cons, hbackslash, utf8Size_of_stringEscape hd]
      omega
    · cases h
  | case6 offset c cs hx hnone =>
    cases h
    exact ⟨[], c :: cs, rfl, .here _, rfl, by simpa [IllegalEscape, hx] using hnone,
      (if_neg hx).symm⟩
  | case7 offset c cs hlast hmore ih =>
    simp only [Except.map] at h
    split at h
    · rename_i herror
      cases h
      obtain ⟨inside, escape, rfl, hcomes, rfl, hfault⟩ := ih herror
      refine ⟨c :: inside, escape, rfl, .raw (fun hc => ?_) hcomes, ?_, hfault⟩
      · -- A backslash is the start of an escape, or the last character.
        cases inside <;> exact hmore _ _ hc rfl
      · rw [byteSize_cons]
        omega
    · cases h

/-! ## Lexers -/

namespace Lexer

/-- A lexer that is cutting a source. -/
structure Within (l : Lexer) (cs : List Char) : Prop where
  map : l.map = LineMap.ofText cs
  size : l.size = byteSize cs
  cut : l.finished = false → ∃ before, Lexed cs before l.rest ∧ l.offset = byteSize before

variable {l l' : Lexer} {cs : List Char} {t : Token}

theorem within_ofText (cs : List Char) : (ofText cs).Within cs :=
  ⟨rfl, rfl, fun _ => ⟨[], .start, rfl⟩⟩

theorem Within.marks_position {before after : List Char} (h : l.Within cs)
    (hlandmark : Landmark cs before after) : (l.map.position (byteSize before)).Marks cs :=
  ⟨before, after, hlandmark, by rw [h.map]⟩

theorem Within.marks_finish (h : l.Within cs) : l.finishToken.position.Marks cs := by
  unfold finishToken
  rw [h.size]
  exact h.marks_position .finish

/-- A lexeme that is no token is refused at a landmark. -/
theorem Within.kindOf_error {before after : List Char} {rule : LexRule} {n : Nat} {e : ScriptError}
    (h : l.Within cs) (hcut : Lexed cs before after) (hlongest : longest after = some (rule, n))
    (hkind : l.kindOf rule (after.take n) (byteSize before) = .error e) :
    ∃ cause place, e = .lexical cause place ∧ place.Marks cs := by
  cases rule with
  | number | fraction =>
    unfold kindOf at hkind
    dsimp only at hkind
    split at hkind <;> cases hkind
    exact ⟨_, _, rfl, h.marks_position (.token hcut hlongest rfl)⟩
  | unclosed quote =>
    cases hkind
    exact ⟨_, _, rfl, h.marks_position (.unclosedText hcut hlongest)⟩
  | quoted quote =>
    unfold kindOf at hkind
    dsimp only at hkind
    split at hkind <;> cases hkind
    rename_i cause place herror
    obtain ⟨body, hbody⟩ := take_quoted (match?_of_longest hlongest)
    have htext : (after.take n).tail.dropLast = body := by
      rw [hbody, List.cons_append, List.tail_cons, List.dropLast_concat]
    rw [htext] at herror
    obtain ⟨inside, escape, hinside, hcomes, rfl, hillegal, -⟩ := unescapeBody_error herror
    have hquote : quote.utf8Size = 1 := by
      obtain rfl | rfl : quote = '"' ∨ quote = '\'' := by
        simpa [LexRule.all] using (mem_of_longest hlongest).1
      all_goals rfl
    refine ⟨_, _, rfl, ?_⟩
    have hmark := h.marks_position (.illegalEscape hcut hlongest hbody hinside hcomes hillegal)
    rwa [byteSize_append, byteSize_cons, hquote, ← Nat.add_assoc] at hmark
  | word | sign =>
    unfold kindOf at hkind
    dsimp only at hkind
    split at hkind <;> cases hkind
  | _ => cases hkind

/-- A lexeme starts at a landmark. -/
theorem Within.marks_lexeme {before after : List Char} {rule : LexRule} {n : Nat}
    (h : l.Within cs) (hcut : Lexed cs before after)
    (hlongest : longest after = some (rule, n)) (hrule : rule.isSkipped = false) :
    (l.map.position (byteSize before)).Marks cs := by
  cases rule with
  | number | fraction | quoted | word | sign => exact h.marks_position (.token hcut hlongest rfl)
  | openComment => exact h.marks_position (.unclosedComment hcut hlongest)
  | unclosed => exact h.marks_position (.unclosedText hcut hlongest)
  | _ => cases hrule

/-- A token starts at a landmark, and cutting goes on behind it. -/
theorem Within.fetch_ok (h : l.Within cs) (hfetch : l.fetch = (.ok t, l')) :
    t.position.Marks cs ∧ l'.Within cs := by
  unfold fetch at hfetch
  split at hfetch
  · cases hfetch
    exact ⟨h.marks_finish, h⟩
  · rename_i hfinished
    obtain ⟨before, hcut, hoffset⟩ := h.cut (by simpa using hfinished)
    split at hfetch
    · cases hfetch
      exact ⟨h.marks_finish, h.map, h.size, nofun⟩
    · cases hfetch
    · rename_i rule text start rest hscan
      obtain ⟨front, after, n, hcut, hlongest, rfl, rfl, rfl, hrule⟩ := hcut.scan_lexeme hoffset hscan
      split at hfetch
      · cases hfetch
      · rename_i kind hkind
        cases hfetch
        refine ⟨h.marks_lexeme hcut hlongest hrule, h.map, h.size, fun hopen => ?_⟩
        refine ⟨_, hcut.step hlongest (by simpa using hopen), ?_⟩
        rw [byteSize_append]
        rfl

/-- What is refused is refused at a landmark. -/
theorem Within.fetch_error {e : ScriptError} (h : l.Within cs) (hfetch : l.fetch = (.error e, l')) :
    ∃ cause place, e = .lexical cause place ∧ place.Marks cs := by
  unfold fetch at hfetch
  split at hfetch
  · cases hfetch
  · rename_i hfinished
    obtain ⟨before, hcut, hoffset⟩ := h.cut (by simpa using hfinished)
    split at hfetch
    · cases hfetch
    · rename_i c start rest hscan
      obtain ⟨front, hcut, hlongest, rfl⟩ := hcut.scan_invalid hoffset hscan
      cases hfetch
      exact ⟨_, _, rfl, h.marks_position (.illegalCharacter hcut hlongest)⟩
    · rename_i rule text start rest hscan
      obtain ⟨front, after, n, hcut, hlongest, rfl, rfl, rfl, hrule⟩ := hcut.scan_lexeme hoffset hscan
      split at hfetch
      · rename_i hkind
        cases hfetch
        exact h.kindOf_error hcut hlongest hkind
      · cases hfetch

theorem pushed_fetch (h : l.fetch = (.ok t, l')) : l'.pushed = l.pushed := by
  unfold fetch at h
  split at h
  · cases h
    rfl
  · split at h
    · cases h
      rfl
    · cases h
    · split at h
      · cases h
      · cases h
        rfl

theorem next_eq_fetch (h : l.pushed = none) : l.next = l.fetch := by
  simp only [next, h]

/-- No token gives text back. -/
theorem fetch_length_le (h : l.fetch = (.ok t, l')) : l'.rest.length ≤ l.rest.length := by
  unfold fetch at h
  split at h
  · cases h
    exact Nat.le_refl _
  · split at h
    · cases h
      exact Nat.le_refl _
    · cases h
    · rename_i hscan
      split at h
      · cases h
      · cases h
        exact (scan_shortens hscan).le

/-- Every token but the last takes a character. -/
theorem fetch_shortens (h : l.fetch = (.ok t, l')) (ht : t.kind ≠ .finish) :
    l'.rest.length < l.rest.length := by
  unfold fetch at h
  split at h
  · cases h
    exact absurd rfl ht
  · split at h
    · cases h
      exact absurd rfl ht
    · cases h
    · rename_i hscan
      split at h
      · cases h
      · cases h
        exact scan_shortens hscan

/-! ## Streams -/

/-- A lexer gives tokens, one behind the other, and comes to another lexer. -/
inductive Yields (l : Lexer) : List Token → Lexer → Prop where
  | nil : Yields l [] l
  | snoc {ts : List Token} {t : Token} {l₁ l₂ : Lexer} (h : Yields l ts l₁)
      (hfetch : l₁.fetch = (.ok t, l₂)) : Yields l (ts ++ [t]) l₂

variable {ts : List Token}

theorem Yields.within (h : (ofText cs).Yields ts l) : l.Within cs := by
  induction h with
  | nil => exact within_ofText cs
  | snoc _ hfetch ih => exact (ih.fetch_ok hfetch).2

/-- All tokens of a source start at landmarks. -/
theorem Yields.marks (h : (ofText cs).Yields ts l) : ∀ t ∈ ts, t.position.Marks cs := by
  induction h with
  | nil => simp
  | snoc h hfetch ih =>
    intro t ht
    rcases List.mem_append.1 ht with ht | ht
    · exact ih t ht
    · obtain rfl := List.mem_singleton.1 ht
      exact (h.within.fetch_ok hfetch).1

theorem Yields.length_le (h : l.Yields ts l') (hopen : ∀ t ∈ ts, t.kind ≠ .finish) :
    ts.length + l'.rest.length ≤ l.rest.length := by
  induction h with
  | nil => simp
  | snoc h hfetch ih =>
    have hrest := ih fun t ht => hopen t (List.mem_append_left _ ht)
    have hlt := fetch_shortens hfetch (hopen _ (by simp))
    rw [List.length_append, List.length_singleton]
    omega

/-- Draining a lexer gives the tokens that it yields. -/
theorem Yields.drain (h : l.Yields ts l') (hpushed : l.pushed = none)
    (hopen : ∀ t ∈ ts, t.kind ≠ .finish) (fuel : Nat) :
    l'.pushed = none ∧ l.drain (ts.length + fuel) = (l'.drain fuel).map (ts ++ ·) := by
  induction h generalizing fuel with
  | nil =>
    refine ⟨hpushed, ?_⟩
    cases hdrain : l.drain fuel <;> simp [hdrain, Except.map]
  | @snoc ts t l₁ l₂ h hfetch ih =>
    obtain ⟨hpushed₁, hdrain⟩ := ih (fun t ht => hopen t (List.mem_append_left _ ht)) (fuel + 1)
    refine ⟨(pushed_fetch hfetch).trans hpushed₁, ?_⟩
    rw [List.length_append, List.length_singleton, Nat.add_assoc, Nat.add_comm 1, hdrain]
    rw [Lexer.drain, next_eq_fetch hpushed₁, hfetch]
    simp only [if_neg (hopen t (by simp))]
    cases l₂.drain fuel <;> simp [Except.map]

/-- The tokens of a source are those that its lexer yields up to the end. -/
theorem Yields.tokenize (h : (ofText cs).Yields (ts ++ [t]) l) (hopen : ∀ t ∈ ts, t.kind ≠ .finish)
    (ht : t.kind = .finish) : tokenize cs = .ok ts := by
  generalize hall : ts ++ [t] = all at h
  cases h with
  | nil => simp at hall
  | @snoc us u l₁ l₂ h hfetch =>
    obtain ⟨rfl, hu⟩ := List.append_inj' hall rfl
    obtain rfl : t = u := by simpa using hu
    have hlength := h.length_le hopen
    obtain ⟨hpushed, hdrain⟩ := h.drain rfl hopen (cs.length + 1 - ts.length)
    obtain ⟨m, hm⟩ : ∃ m, cs.length + 1 - ts.length = m + 1 := by
      have : (ofText cs).rest.length = cs.length := rfl
      exact ⟨cs.length - ts.length, by omega⟩
    have hfuel : cs.length + 1 = ts.length + (cs.length + 1 - ts.length) := by omega
    rw [ScriptEngine.tokenize, hfuel, hdrain, hm, Lexer.drain, next_eq_fetch hpushed, hfetch]
    simp [ht, Except.map]

end Lexer

end ScriptEngine
