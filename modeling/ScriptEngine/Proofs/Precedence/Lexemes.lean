import ScriptEngine.Proofs.Expression.Reading
import ScriptEngine.Proofs.Source.Places

/-!
# Lexemes with blanks between them

A text that is made of the lexemes of tokens, with one blank between any two of them, is cut into
those tokens again (`Lexer.delivers_spaced`). No rule of the lexicon looks beyond a blank, apart
from those of comments and quoted texts (`match?_append`); so the longest match in front of a
blank is the one that the lexeme has alone.

A lexeme can be another token behind a dot, where reserved words are names. `Readable` therefore
goes along a list of lexemes and remembers whether the last one was a dot.
-/

namespace ScriptEngine

namespace LexRule

/-- No blank, comment or quoted text starts here. -/
@[simp] def startsPlain : List Char → Bool
  | '/' :: c :: _ => c ≠ '/' && c ≠ '*'
  | c :: _ => !isBlank c && c ≠ '"' && c ≠ '\''
  | [] => false

variable {p : Char → Bool} {cs rest : List Char} {b : Char}

/-- What holds of none of the five blanks. -/
theorem not_of_isBlank (hp : [' ', '\t', '\n', '\x0b', '\x0c'].any p = false)
    (h : isBlank b = true) : p b = false := by
  have hmem : b ∈ [' ', '\t', '\n', '\x0b', '\x0c'] := by
    simpa [isBlank, or_assoc] using h
  exact Bool.not_eq_true _ ▸ List.any_eq_false.1 hp b hmem

theorem ne_of_isBlank {c : Char} (hc : isBlank c = false) (h : isBlank b = true) : b ≠ c := by
  rintro rfl
  rw [hc] at h
  cases h

theorem startsPlain_append (rest : List Char) (hb : isBlank b = true) (h : startsPlain cs = true) :
    startsPlain (cs ++ b :: rest) = true := by
  match cs with
  | [] => cases h
  | [c] =>
    by_cases hc : c = '/'
    · subst hc
      simp [startsPlain, ne_of_isBlank (c := '/') rfl hb, ne_of_isBlank (c := '*') rfl hb]
    · simpa [startsPlain, hc] using h
  | c :: d :: cs =>
    by_cases hc : c = '/'
    · subst hc
      exact h
    · simpa [startsPlain, hc] using h

/-- The first character of a plain text. -/
theorem ne_of_startsPlain {c : Char} (h : startsPlain (c :: cs) = true) :
    isBlank c = false ∧ c ≠ '"' ∧ c ≠ '\'' := by
  by_cases hc : c = '/'
  · subst hc
    decide
  · simpa [startsPlain, hc, and_assoc] using h

theorem run_append (h : p b = false) : run p (cs ++ b :: rest) = run p cs := by
  unfold run
  induction cs with
  | nil => simp [h]
  | cons c cs ih =>
    rw [List.cons_append, List.takeWhile_cons, List.takeWhile_cons]
    split
    · rw [List.length_cons, ih, List.length_cons]
    · rfl

theorem run_le : run p cs ≤ cs.length :=
  (List.takeWhile_prefix p).length_le

theorem isDigit_of_isBlank (hb : isBlank b = true) : b.isDigit = false :=
  not_of_isBlank (by decide) hb

theorem pointLength_append (hb : isBlank b = true) :
    pointLength (cs ++ b :: rest) = pointLength cs := by
  match cs with
  | [] => simp [pointLength, ne_of_isBlank (c := '.') rfl hb]
  | c :: cs =>
    by_cases hc : c = '.'
    · subst hc
      exact congrArg (· + 1) (run_append (isDigit_of_isBlank hb))
    · simp [pointLength, hc]

theorem pointLength_le (cs : List Char) : pointLength cs ≤ cs.length := by
  unfold pointLength
  split
  · exact Nat.succ_le_succ run_le
  · exact Nat.zero_le _

theorem exponentLength_append (hb : isBlank b = true) :
    exponentLength (cs ++ b :: rest) = exponentLength cs := by
  have hdigit := isDigit_of_isBlank hb
  match cs with
  | [] =>
    cases rest with
    | nil => rfl
    | cons c rest =>
      simp [exponentLength, ne_of_isBlank (c := 'e') rfl hb, ne_of_isBlank (c := 'E') rfl hb]
  | [c] =>
    simp [exponentLength, run, hdigit, ne_of_isBlank (c := '+') rfl hb,
      ne_of_isBlank (c := '-') rfl hb]
  | c :: s :: cs =>
    simp only [List.cons_append, exponentLength]
    rw [run_append hdigit, ← List.cons_append, run_append hdigit]

/-- No sign contains a blank. -/
theorem isPrefixOf_append {s : List Char} (h : b ∉ s) :
    s.isPrefixOf (cs ++ b :: rest) = s.isPrefixOf cs := by
  induction s generalizing cs with
  | nil => simp
  | cons a s ih =>
    simp only [List.mem_cons, not_or] at h
    cases cs with
    | nil => simp [List.isPrefixOf, Ne.symm h.1]
    | cons c cs =>
      rw [List.cons_append, List.isPrefixOf, List.isPrefixOf, ih h.2]

theorem blank_notMem_spellings (hb : isBlank b = true) : ∀ s ∈ spellings, b ∉ s.1 := by
  have hnone : ∀ s ∈ spellings, s.1.any isBlank = false := by
    decide
  intro s hs hmem
  exact List.any_eq_false.1 (hnone s hs) b hmem hb

theorem spelling_ne_nil : ∀ s ∈ spellings, s.1 ≠ [] := by
  decide

theorem match?_number_append (hb : isBlank b = true) :
    match? .number (cs ++ b :: rest) = match? .number cs := by
  simp only [match?]
  rw [run_append (isDigit_of_isBlank hb)]
  rcases hn : run Char.isDigit cs with _ | n
  · rfl
  · have hle : n + 1 ≤ cs.length := hn ▸ run_le
    have hpoint : n + 1 + pointLength (cs.drop (n + 1)) ≤ cs.length := by
      have h := pointLength_le (cs.drop (n + 1))
      rw [List.length_drop] at h
      omega
    simp only [List.drop_append_of_le_length hle, pointLength_append hb,
      List.drop_append_of_le_length hpoint, exponentLength_append hb]

theorem match?_fraction_append (hb : isBlank b = true) :
    match? .fraction (cs ++ b :: rest) = match? .fraction cs := by
  match cs with
  | [] => simp [match?, ne_of_isBlank (c := '.') rfl hb]
  | c :: cs =>
    by_cases hc : c = '.'
    · subst hc
      simp only [List.cons_append, match?]
      rw [run_append (isDigit_of_isBlank hb)]
      rcases hn : run Char.isDigit cs with _ | n
      · rfl
      · have hle : n + 1 ≤ cs.length := hn ▸ run_le
        simp only [List.drop_append_of_le_length hle, exponentLength_append hb]
    · simp [match?, hc]

theorem match?_sign_append (hb : isBlank b = true) :
    match? .sign (cs ++ b :: rest) = match? .sign cs := by
  simp only [match?]
  rw [List.filter_congr fun s hs => isPrefixOf_append (blank_notMem_spellings hb s hs)]

/-- No comment starts a plain text. -/
theorem match?_comment (h : startsPlain cs = true) :
    match? .lineComment cs = none ∧ match? .blockComment cs = none ∧
      match? .openComment cs = none := by
  match cs with
  | [] => cases h
  | [c] => simp [match?]
  | c :: d :: cs =>
    by_cases hc : c = '/'
    · subst hc
      simp only [startsPlain, ne_eq, decide_not, Bool.and_eq_true, Bool.not_eq_eq_eq_not,
        Bool.not_true, decide_eq_false_iff_not] at h
      simp [match?, h]
    · simp [match?, hc]

/-- A rule matches in front of a blank what it matches alone. -/
theorem match?_append (hb : isBlank b = true) (h : startsPlain cs = true) {rule : LexRule}
    (hrule : rule ∈ all) : rule.match? (cs ++ b :: rest) = rule.match? cs := by
  obtain ⟨hline, hblock, hopen⟩ := match?_comment h
  obtain ⟨hline', hblock', hopen'⟩ := match?_comment (startsPlain_append rest hb h)
  match cs with
  | [] => cases h
  | c :: cs =>
    obtain ⟨hblank, hdouble, hsingle⟩ := ne_of_startsPlain h
    simp only [all, List.mem_cons, List.not_mem_nil, or_false] at hrule
    rcases hrule with rfl | rfl | rfl | rfl | rfl | rfl | rfl | rfl | rfl | rfl | rfl | rfl
    · simp [match?, run, hblank]
    · rw [hline, hline']
    · rw [hblock, hblock']
    · rw [hopen, hopen']
    · simp [match?, hdouble]
    · simp [match?, hsingle]
    · simp [match?, hdouble]
    · simp [match?, hsingle]
    · exact match?_number_append hb
    · exact match?_fraction_append hb
    · have hrun : run isWordPart (cs ++ b :: rest) = run isWordPart cs :=
        run_append (not_of_isBlank (by decide) hb)
      simp only [List.cons_append, match?, hrun]
    · exact match?_sign_append hb

/-- A sign that is matched is one of the signs, and starts the text. -/
theorem prefix_of_match?_sign {n : Nat} (h : match? .sign cs = some n) :
    ∃ s ∈ spellings, s.1 <+: cs ∧ n = s.1.length := by
  obtain ⟨hmem, -⟩ := List.max?_eq_some_iff.1 h
  obtain ⟨s, hs, rfl⟩ := List.mem_map.1 hmem
  obtain ⟨hs, hprefix⟩ := List.mem_filter.1 hs
  exact ⟨s, hs, List.isPrefixOf_iff_prefix.1 hprefix, rfl⟩

theorem head_of_match?_sign {c : Char} {n : Nat} (h : match? .sign (c :: cs) = some n) :
    ∃ s ∈ spellings, s.1 <+: c :: cs ∧ s.1.head? = some c ∧ n = s.1.length := by
  obtain ⟨s, hs, hprefix, hn⟩ := prefix_of_match?_sign h
  obtain ⟨a, as, ha⟩ := List.exists_cons_of_ne_nil (spelling_ne_nil s hs)
  refine ⟨s, hs, hprefix, ?_, hn⟩
  rw [ha, List.cons_prefix_cons] at hprefix
  rw [ha, ← hprefix.1, List.head?_cons]

/-- Whether a rule can match a text that starts with a character. -/
def starts : LexRule → Char → Bool
  | .blank, c => isBlank c
  | .lineComment, c | .blockComment, c | .openComment, c => c = '/'
  | .unclosed quote, c | .quoted quote, c => c = quote
  | .number, c => c.isDigit
  | .fraction, c => c = '.'
  | .word, c => isWordStart c
  | .sign, c => spellings.any (·.1.head? = some c)

theorem starts_of_match? {rule : LexRule} {c : Char} {n : Nat}
    (h : rule.match? (c :: cs) = some n) : rule.starts c = true := by
  have hrun : ∀ (p : Char → Bool) m, run p (c :: cs) = m + 1 → p c = true := by
    intro p m hm
    by_contra hc
    simp [run, hc] at hm
  cases rule with
  | blank =>
    rcases hm : run isBlank (c :: cs) with _ | m
    · simp [match?, positive?, hm] at h
    · exact hrun _ m hm
  | lineComment | blockComment | openComment =>
    simp only [match?] at h
    split at h <;> simp_all [starts]
  | unclosed quote | quoted quote =>
    simp only [match?] at h
    split at h
    · simpa [starts]
    · cases h
  | number =>
    rcases hm : run Char.isDigit (c :: cs) with _ | m
    · simp [match?, hm] at h
    · exact hrun _ m hm
  | fraction =>
    by_cases hc : c = '.'
    · simpa [starts]
    · simp [match?, hc] at h
  | word =>
    simp only [match?] at h
    split at h
    · assumption
    · cases h
  | sign =>
    obtain ⟨s, hs, -, hhead, -⟩ := head_of_match?_sign h
    simp only [starts, List.any_eq_true, decide_eq_true_eq]
    exact ⟨s, hs, hhead⟩

end LexRule

/-! ## The longest match -/

open LexRule

theorem longest_append {cs rest : List Char} {b : Char} (hb : isBlank b = true)
    (h : startsPlain cs = true) : longest (cs ++ b :: rest) = longest cs := by
  unfold longest
  rw [List.map_congr_left fun rule hrule => by rw [match?_append hb h hrule]]

theorem mem_of_foldl_longerMatch {m : LexRule × Nat} {xs : List (Option (LexRule × Nat))}
    {a : Option (LexRule × Nat)} (h : xs.foldl longerMatch a = some m) : a = some m ∨ some m ∈ xs := by
  induction xs generalizing a with
  | nil => exact .inl h
  | cons x xs ih =>
    rcases ih h with h' | h'
    · rcases a with _ | a <;> rcases x with _ | x <;> simp only [longerMatch] at h'
      · cases h'
      · exact .inr (h' ▸ List.mem_cons_self)
      · exact .inl h'
      · split at h'
        · exact .inr (h' ▸ List.mem_cons_self)
        · exact .inl h'
    · exact .inr (List.mem_cons_of_mem _ h')

theorem mem_of_longest {cs : List Char} {rule : LexRule} {n : Nat}
    (h : longest cs = some (rule, n)) : rule ∈ all ∧ rule.match? cs = some n := by
  rcases mem_of_foldl_longerMatch h with h' | h'
  · cases h'
  · obtain ⟨rule', hrule', hmatch⟩ := List.mem_map.1 h'
    obtain ⟨n', hn', heq⟩ := Option.map_eq_some_iff.1 hmatch
    cases heq
    exact ⟨hrule', hn'⟩

theorem longerMatch_eq (a x : Option (LexRule × Nat)) :
    longerMatch a x = a ∨ longerMatch a x = x := by
  rcases a with _ | a <;> rcases x with _ | x <;> simp only [longerMatch, or_true, true_or]
  split
  · exact .inr rfl
  · exact .inl rfl

/-- A match that is longer than all others is the longest. -/
theorem foldl_longerMatch {m : LexRule × Nat} {xs : List (Option (LexRule × Nat))}
    {a : Option (LexRule × Nat)} (hm : a = some m ∨ some m ∈ xs)
    (hothers : ∀ x, a = some x ∨ some x ∈ xs → x ≠ m → x.2 < m.2) :
    xs.foldl longerMatch a = some m := by
  induction xs generalizing a with
  | nil => exact hm.resolve_right (by simp)
  | cons x xs ih =>
    refine ih ?_ fun y hy => hothers y ?_
    · have hless : ∀ y, a = some y ∨ x = some y → y ≠ m → y.2 < m.2 := fun y hy =>
        hothers y (hy.imp_right fun h => List.mem_cons.2 (.inl h.symm))
      rcases hm with rfl | hm
      · rcases x with _ | y
        · exact .inl rfl
        · by_cases hy : y = m
          · subst hy
            simp [longerMatch]
          · simp [longerMatch, Nat.lt_asymm (hless y (.inr rfl) hy)]
      · rcases List.mem_cons.1 hm with rfl | hm
        · rcases a with _ | y
          · exact .inl rfl
          · by_cases hy : y = m
            · subst hy
              simp [longerMatch]
            · simp [longerMatch, hless y (.inl rfl) hy]
        · exact .inr hm
    · rcases hy with hy | hy
      · rcases longerMatch_eq a x with h | h
        · exact .inl (h ▸ hy)
        · exact .inr (List.mem_cons.2 (.inl (hy ▸ h)))
      · exact .inr (List.mem_cons_of_mem _ hy)

theorem longest_eq {cs : List Char} {rule : LexRule} {n : Nat} (hrule : rule ∈ all)
    (hmatch : rule.match? cs = some n)
    (hothers : ∀ other ∈ all, other ≠ rule → ∀ k, other.match? cs = some k → k < n) :
    longest cs = some (rule, n) := by
  refine foldl_longerMatch (.inr (List.mem_map.2 ⟨rule, hrule, by rw [hmatch]; rfl⟩)) ?_
  rintro ⟨other, k⟩ (hx | hx) hne
  · cases hx
  · obtain ⟨other', hother, hx⟩ := List.mem_map.1 hx
    obtain ⟨k', hk, heq⟩ := Option.map_eq_some_iff.1 hx
    cases heq
    refine hothers other hother (fun heq => hne ?_) k hk
    subst heq
    rw [hmatch] at hk
    cases hk
    rfl

/-- The only rule that can match a text is the one whose match is the longest. -/
theorem longest_of_starts {c : Char} {cs : List Char} {rule : LexRule} {n : Nat} (hrule : rule ∈ all)
    (hmatch : rule.match? (c :: cs) = some n)
    (hothers : ∀ other ∈ all, other ≠ rule → other.starts c = false) :
    longest (c :: cs) = some (rule, n) := by
  refine longest_eq hrule hmatch fun other hother hne k hk => ?_
  have hstarts := starts_of_match? hk
  rw [hothers other hother hne] at hstarts
  cases hstarts

theorem longest_blank {b : Char} (hb : isBlank b = true) (cs : List Char) :
    longest (b :: cs) = some (.blank, run isBlank cs + 1) := by
  have hrun : run isBlank (b :: cs) = run isBlank cs + 1 := by
    simp [run, hb]
  have hothers : ∀ other ∈ all, other ≠ .blank →
      [' ', '\t', '\n', '\x0b', '\x0c'].any other.starts = false := by
    decide
  exact longest_of_starts (by decide) (by simp [match?, positive?, hrun]) fun other hother hne =>
    not_of_isBlank (hothers other hother hne) hb

/-- The longest match is the match of its rule. -/
theorem match?_of_longest {cs : List Char} {rule : LexRule} {n : Nat}
    (h : longest cs = some (rule, n)) : rule.match? cs = some n :=
  (mem_of_longest h).2

/-! ## Lexemes -/

/-- A text and the kind of the token it stands for. -/
structure Lexeme where
  text : List Char
  kind : Token.Kind

/-- The text is read as one token of its kind. -/
def Lexeme.Readable (w : Lexeme) (afterDot : Bool) : Prop :=
  startsPlain w.text = true ∧ '\r' ∉ w.text ∧
    ∃ rule : LexRule, longest w.text = some (rule, w.text.length) ∧ rule.isSkipped = false ∧
      rule ≠ .openComment ∧
      ∀ (l : Lexer) start, l.afterDot = afterDot → l.kindOf rule w.text start = .ok w.kind

/-- The lexemes behind another one. -/
def spacedBehind (ws : List Lexeme) : List Char :=
  ws.flatMap fun w => ' ' :: w.text

/-- The text of lexemes with one blank between any two. -/
def spaced : List Lexeme → List Char
  | [] => []
  | w :: ws => w.text ++ spacedBehind ws

/-- Every lexeme is read as its token, a dot being in front of the first or not. -/
def ReadableAll : Bool → List Lexeme → Prop
  | _, [] => True
  | afterDot, w :: ws => w.Readable afterDot ∧ ReadableAll (w.kind = .mark .dot) ws

theorem spacedBehind_eq (ws : List Lexeme) :
    spacedBehind ws = [] ∨ ∃ rest, spacedBehind ws = ' ' :: rest := by
  cases ws with
  | nil => exact .inl rfl
  | cons w ws => exact .inr ⟨_, rfl⟩

section Scan

variable {w : Lexeme} {ws : List Lexeme} {afterDot : Bool}

/-- What is matched at the front of a text is skipped, or is the next lexeme. -/
theorem scan_of_longest {text rest : List Char} {rule : LexRule} (htext : text ≠ [])
    (h : longest (text ++ rest) = some (rule, text.length)) (offset : Nat) :
    scan (text ++ rest) offset =
      if rule.isSkipped then scan rest (offset + Text.byteSize text)
      else .lexeme rule text offset rest := by
  obtain ⟨c, cs, rfl⟩ := List.exists_cons_of_ne_nil htext
  rw [List.cons_append] at h ⊢
  conv_lhs => unfold scan
  simp only [h, List.length_cons, Nat.add_sub_cancel, List.take_left', List.drop_left']

/-- All blanks at the front of a text are skipped at once. -/
theorem scan_blanks (cs : List Char) (offset : Nat) : scan cs offset =
    scan (cs.dropWhile isBlank) (offset + Text.byteSize (cs.takeWhile isBlank)) := by
  match cs with
  | [] => rfl
  | c :: cs =>
    by_cases hc : isBlank c = true
    · have hcut : c :: cs = (c :: cs.takeWhile isBlank) ++ cs.dropWhile isBlank := by
        rw [List.cons_append, List.takeWhile_append_dropWhile]
      have hlongest := longest_blank hc cs
      rw [hcut] at hlongest
      rw [List.dropWhile_cons_of_pos hc, List.takeWhile_cons_of_pos hc]
      conv_lhs => rw [hcut, scan_of_longest (List.cons_ne_nil _ _) hlongest]
      rfl
    · rw [List.dropWhile_cons_of_neg hc, List.takeWhile_cons_of_neg hc]
      rfl

/-- A blank is skipped, whatever is behind it. -/
theorem scan_blank {b : Char} (hb : isBlank b = true) (cs : List Char) (offset : Nat) :
    scan (b :: cs) offset = scan cs (offset + 1) := by
  have hsize : b.utf8Size = 1 := by
    have hone := not_of_isBlank (p := fun c => c.utf8Size ≠ 1) (by decide) hb
    simpa using hone
  rw [scan_blanks (b :: cs), scan_blanks cs, List.dropWhile_cons_of_pos hb,
    List.takeWhile_cons_of_pos hb, Text.byteSize_cons, hsize, Nat.add_assoc]

/-- The next lexeme, and what is behind it. -/
theorem scan_lexeme {rule : LexRule} (hplain : startsPlain w.text = true)
    (hrule : longest w.text = some (rule, w.text.length)) (hskip : rule.isSkipped = false)
    (offset : Nat) :
    scan (w.text ++ spacedBehind ws) offset = .lexeme rule w.text offset (spacedBehind ws) := by
  have hlongest : longest (w.text ++ spacedBehind ws) = some (rule, w.text.length) := by
    rcases spacedBehind_eq ws with hws | ⟨rest, hws⟩ <;> rw [hws]
    · rwa [List.append_nil]
    · rwa [longest_append rfl hplain]
  have htext : w.text ≠ [] := fun hnil => by
    rw [hnil] at hplain
    cases hplain
  rw [scan_of_longest htext hlongest, hskip, if_neg Bool.false_ne_true]

end Scan

namespace Lexer

variable {l : Lexer} {w : Lexeme} {ws : List Lexeme}

/-- The next token is that of the next lexeme, with a blank in front of it or none. -/
theorem next_lexeme (hpushed : l.pushed = none) (hfinished : l.finished = false)
    (hrest : l.rest = w.text ++ spacedBehind ws ∨ l.rest = ' ' :: (w.text ++ spacedBehind ws))
    (hw : w.Readable l.afterDot) :
    ∃ p l', l.next = (.ok ⟨w.kind, p⟩, l') ∧ l'.pushed = none ∧ l'.finished = false ∧
      l'.rest = spacedBehind ws ∧ l'.afterDot = decide (w.kind = .mark .dot) := by
  obtain ⟨hplain, -, rule, hrule, hskip, hopen, hkind⟩ := hw
  obtain ⟨start, hscan⟩ : ∃ start, scan l.rest l.offset =
      .lexeme rule w.text start (spacedBehind ws) := by
    rcases hrest with hrest | hrest <;> rw [hrest]
    · exact ⟨_, scan_lexeme hplain hrule hskip _⟩
    · exact ⟨_, (scan_blank rfl _ _).trans (scan_lexeme hplain hrule hskip _)⟩
  have hnext : l.next = (.ok ⟨w.kind, l.map.position start⟩,
      { l.advance w.text (spacedBehind ws) start with
        afterDot := w.kind = .mark .dot, finished := rule = .openComment }) := by
    simp only [next, hpushed, fetch, hfinished, hscan, hkind l start rfl, Bool.false_eq_true,
      if_false]
  exact ⟨_, _, hnext, hpushed, decide_eq_false hopen, rfl, rfl⟩

/-- Behind the last lexeme comes the end. -/
theorem next_finish (hpushed : l.pushed = none) (hfinished : l.finished = false)
    (hrest : l.rest = []) : ∃ p l', l.next = (.ok ⟨.finish, p⟩, l') := by
  have hscan : scan l.rest l.offset = .finish := by
    rw [hrest]
    unfold scan
    rfl
  have hnext : l.next = (.ok l.finishToken, { l with finished := true }) := by
    simp only [next, hpushed, fetch, hfinished, hscan, Bool.false_eq_true, if_false]
  exact ⟨_, _, hnext⟩

theorem delivers_spacedBehind (hpushed : l.pushed = none) (hfinished : l.finished = false)
    (hrest : l.rest = spacedBehind ws) (hws : ReadableAll l.afterDot ws) :
    ∃ (ts : List Token) (finish : Position), ts.map Token.kind = ws.map Lexeme.kind ∧
      l.Delivers (ts ++ [⟨.finish, finish⟩]) := by
  induction ws generalizing l with
  | nil =>
    obtain ⟨p, l', hnext⟩ := next_finish hpushed hfinished hrest
    exact ⟨[], p, rfl, l', hnext, trivial⟩
  | cons w ws ih =>
    obtain ⟨p, l', hnext, hpushed', hfinished', hrest', hdot⟩ :=
      next_lexeme hpushed hfinished (.inr hrest) hws.1
    obtain ⟨ts, finish, hts, hdelivers⟩ := ih hpushed' hfinished' hrest' (hdot ▸ hws.2)
    exact ⟨⟨w.kind, p⟩ :: ts, finish, congrArg (w.kind :: ·) hts, l', hnext, hdelivers⟩

/-- The lexemes of a text with blanks between them are read one after the other. -/
theorem delivers_spaced (hws : ReadableAll false ws) :
    ∃ (ts : List Token) (finish : Position), ts.map Token.kind = ws.map Lexeme.kind ∧
      (ofText (spaced ws)).Delivers (ts ++ [⟨.finish, finish⟩]) := by
  cases ws with
  | nil => exact delivers_spacedBehind rfl rfl rfl hws
  | cons w ws =>
    obtain ⟨p, l', hnext, hpushed', hfinished', hrest', hdot⟩ :=
      next_lexeme (l := ofText (spaced (w :: ws))) rfl rfl (.inl rfl) hws.1
    obtain ⟨ts, finish, hts, hdelivers⟩ :=
      delivers_spacedBehind hpushed' hfinished' hrest' (hdot ▸ hws.2)
    exact ⟨⟨w.kind, p⟩ :: ts, finish, congrArg (w.kind :: ·) hts, l', hnext, hdelivers⟩

end Lexer

/-! ## Newlines -/

theorem normalize_eq {cs : List Char} (h : '\r' ∉ cs) : Source.normalize cs = cs := by
  induction cs with
  | nil => rfl
  | cons c cs ih =>
    simp only [List.mem_cons, not_or] at h
    rw [Source.normalize, if_neg (Ne.symm h.1), ih h.2]
    rintro _ rfl
    exact absurd rfl h.1

theorem return_notMem_spaced {afterDot : Bool} {ws : List Lexeme} (h : ReadableAll afterDot ws) :
    '\r' ∉ spacedBehind ws := by
  induction ws generalizing afterDot with
  | nil => nofun
  | cons w ws ih =>
    simp only [spacedBehind, List.flatMap_cons, List.mem_append, List.mem_cons, not_or]
    exact ⟨⟨by decide, h.1.2.1⟩, ih h.2⟩

theorem normalize_spaced {ws : List Lexeme} (h : ReadableAll false ws) :
    Source.normalize (spaced ws) = spaced ws := by
  cases ws with
  | nil => rfl
  | cons w ws =>
    refine normalize_eq ?_
    simp only [spaced, List.mem_append, not_or]
    exact ⟨h.1.2.1, return_notMem_spaced h.2⟩

/-! ## Signs and words -/

theorem mark_spelling : ∀ m ∈ Mark.all,
    startsPlain m.spelling.toList = true ∧ '\r' ∉ m.spelling.toList ∧
      longest m.spelling.toList = some (.sign, m.spelling.toList.length) ∧
      signOf? m.spelling.toList = some m := by
  decide +kernel

theorem keyword_spelling : ∀ word ∈ Keyword.all,
    longest word.spelling.toList = some (.word, word.spelling.toList.length) ∧
      Keyword.ofSpelling? (String.ofList word.spelling.toList) = some word := by
  decide +kernel

theorem Mark.mem_all (m : Mark) : m ∈ Mark.all := by
  cases m <;> decide

theorem Keyword.mem_all (word : Keyword) : word ∈ Keyword.all := by
  cases word <;> decide

theorem startsPlain_of_start {c : Char} {cs : List Char}
    (h : isWordStart c = true ∨ c.isDigit = true ∨ c = '.') : startsPlain (c :: cs) = true := by
  have hnone : (['/', ' ', '\t', '\n', '\x0b', '\x0c', '"', '\''].any fun d =>
      isWordStart d || d.isDigit || d == '.') = false := by decide
  have hne : ∀ d ∈ ['/', ' ', '\t', '\n', '\x0b', '\x0c', '"', '\''], c ≠ d := by
    rintro d hd rfl
    have := List.any_eq_false.mp hnone c hd
    grind
  have hslash : c ≠ '/' := hne _ (by decide)
  have hblank : isBlank c = false := by
    simp only [isBlank, Bool.or_eq_false_iff, decide_eq_false_iff_not]
    exact ⟨⟨⟨⟨hne _ (by decide), hne _ (by decide)⟩, hne _ (by decide)⟩, hne _ (by decide)⟩,
      hne _ (by decide)⟩
  have hquotes : c ≠ '"' ∧ c ≠ '\'' := ⟨hne _ (by decide), hne _ (by decide)⟩
  simp [startsPlain, hslash, hblank, hquotes]

theorem notMem_take_run {p : Char → Bool} {x : Char} (hx : p x = false) (cs : List Char) :
    x ∉ cs.take (run p cs) := by
  intro hmem
  rw [run, ← List.prefix_iff_eq_take.1 (List.takeWhile_prefix p)] at hmem
  have hall := List.all_eq_true.1 (List.all_takeWhile (p := p) (l := cs)) x hmem
  rw [hx] at hall
  cases hall

theorem notMem_take_pointLength (cs : List Char) : '\r' ∉ cs.take (pointLength cs) := by
  unfold pointLength
  split
  · rw [List.take_succ_cons, List.mem_cons, not_or]
    exact ⟨by decide, notMem_take_run (by decide) _⟩
  · simp

theorem notMem_take_exponentLength (cs : List Char) : '\r' ∉ cs.take (exponentLength cs) := by
  have hrun := fun cs => notMem_take_run (p := Char.isDigit) (x := '\r') (by decide) cs
  match cs with
  | [] | [_] => simp [exponentLength]
  | c :: s :: cs =>
    simp only [exponentLength]
    split
    · rename_i hc
      have hc' : '\r' ≠ c := by rcases hc with rfl | rfl <;> decide
      split
      · rename_i hs
        have hs' : '\r' ≠ s := by rcases hs with rfl | rfl <;> decide
        split
        · simp
        · simp [hc', hs', hrun cs]
      · split
        · simp
        · simp [hc', hrun (s :: cs)]
    · simp

theorem plain_of_word {cs : List Char} {n : Nat} (h : match? .word cs = some n) :
    startsPlain cs = true ∧ '\r' ∉ cs.take n := by
  match cs with
  | [] => cases h
  | c :: cs =>
    simp only [match?] at h
    split at h
    · rename_i hc
      cases h
      refine ⟨startsPlain_of_start (.inl hc), ?_⟩
      rw [List.take_succ_cons, List.mem_cons, not_or]
      refine ⟨?_, notMem_take_run (by decide) _⟩
      rintro rfl
      revert hc
      decide
    · cases h

theorem plain_of_number {cs : List Char} {n : Nat} (h : match? .number cs = some n) :
    startsPlain cs = true ∧ '\r' ∉ cs.take n := by
  have hdigits := notMem_take_run (p := Char.isDigit) (x := '\r') (by decide) cs
  simp only [match?] at h
  rcases hk : run Char.isDigit cs with _ | k <;> rw [hk] at h hdigits
  · cases h
  · cases h
    constructor
    · match cs with
      | [] => cases hk
      | c :: cs =>
        refine startsPlain_of_start (.inr (.inl ?_))
        by_contra hc
        simp [run, hc] at hk
    · rw [List.take_add, List.take_add, List.mem_append, List.mem_append, not_or, not_or]
      exact ⟨⟨hdigits, notMem_take_pointLength _⟩, notMem_take_exponentLength _⟩

theorem plain_of_fraction {cs : List Char} {n : Nat} (h : match? .fraction cs = some n) :
    startsPlain cs = true ∧ '\r' ∉ cs.take n := by
  match cs with
  | [] => cases h
  | c :: cs =>
    by_cases hc : c = '.'
    · subst hc
      have hdigits := notMem_take_run (p := Char.isDigit) (x := '\r') (by decide) cs
      simp only [match?] at h
      rcases hk : run Char.isDigit cs with _ | k <;> rw [hk] at h hdigits
      · cases h
      · cases h
        refine ⟨startsPlain_of_start (.inr (.inr rfl)), ?_⟩
        rw [Nat.add_right_comm, List.take_succ_cons, List.mem_cons, not_or, List.take_add,
          List.mem_append, not_or]
        exact ⟨by decide, hdigits, notMem_take_exponentLength _⟩
    · simp [match?, hc] at h

namespace Lexeme

/-- The lexeme of a sign. -/
def ofMark (m : Mark) : Lexeme :=
  ⟨m.spelling.toList, .mark m⟩

/-- The lexeme of a reserved word. -/
def ofKeyword (word : Keyword) : Lexeme :=
  ⟨word.spelling.toList, .keyword word⟩

theorem readable_ofMark (m : Mark) (afterDot : Bool) : (ofMark m).Readable afterDot := by
  obtain ⟨hplain, hreturn, hlongest, hsign⟩ := mark_spelling m m.mem_all
  refine ⟨hplain, hreturn, .sign, hlongest, rfl, nofun, fun l start _ => ?_⟩
  unfold Lexer.kindOf
  dsimp only [ofMark]
  rw [hsign]

variable {text : List Char}

/-- A text that is one word, where it is not reserved. -/
theorem readable_word {afterDot : Bool} (h : longest text = some (.word, text.length))
    {kind : Token.Kind}
    (hkind : kind = match if afterDot then none else Keyword.ofSpelling? (String.ofList text) with
      | some reserved => .keyword reserved
      | none => .ident (String.ofList text)) :
    Readable ⟨text, kind⟩ afterDot := by
  obtain ⟨hplain, hreturn⟩ := plain_of_word (match?_of_longest h)
  rw [List.take_length] at hreturn
  refine ⟨hplain, hreturn, .word, h, rfl, nofun, fun l start hdot => ?_⟩
  subst hkind hdot
  unfold Lexer.kindOf
  dsimp only
  cases (if l.afterDot then none else Keyword.ofSpelling? (String.ofList text)) <;> rfl

theorem readable_ofKeyword (word : Keyword) : (ofKeyword word).Readable false := by
  obtain ⟨hlongest, hword⟩ := keyword_spelling word word.mem_all
  refine readable_word hlongest ?_
  rw [if_neg Bool.false_ne_true, hword]

/-- A text that is one number. -/
theorem readable_number {afterDot : Bool} {x : Number}
    (h : longest text = some (.number, text.length) ∨ longest text = some (.fraction, text.length))
    (hx : Number.read? text = some x) : Readable ⟨text, .number x⟩ afterDot := by
  rcases h with h | h
  · obtain ⟨hplain, hreturn⟩ := plain_of_number (match?_of_longest h)
    rw [List.take_length] at hreturn
    refine ⟨hplain, hreturn, .number, h, rfl, nofun, fun l start _ => ?_⟩
    unfold Lexer.kindOf
    dsimp only
    rw [hx]
  · obtain ⟨hplain, hreturn⟩ := plain_of_fraction (match?_of_longest h)
    rw [List.take_length] at hreturn
    refine ⟨hplain, hreturn, .fraction, h, rfl, nofun, fun l start _ => ?_⟩
    unfold Lexer.kindOf
    dsimp only
    rw [hx]

end Lexeme

end ScriptEngine
