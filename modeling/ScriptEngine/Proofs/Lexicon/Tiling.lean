import ScriptEngine.Proofs.Lexicon.Rules

/-!
# How a source is cut into tokens

A source is made of stretches: what is skipped, the lexemes of tokens, and characters that are
refused (`Cut`). At each place the stretch is the longest text there that is in the language of a
rule, or a single character if no rule matches. The last stretch ends at the end of the source, or
where a comment begins that is never closed.

**One call.** `Cut.found` says what scanning comes to at the front of a text that is cut: the first
stretch that is not skipped, and the rest of the cut behind it. The lexer answers with the token
that this stretch stands for, or the fault of the stretch (`Stretch.Answers`).

**All calls.** `Lexer.Stands` relates a lexer to the cut of its source: as many stretches are behind
it as it has answered. It holds at the start, and every call keeps it (`Stands.fetch`).

Main statement: `source_is_cut_into_longest_matches`.
-/

namespace ScriptEngine

open Text LexRule

/-! ## The longest match -/

/-- A rule matches a text at the front of another one: no longer text there is matched by any rule,
and this text is matched by no other rule. -/
structure LexRule.Longest (rule : LexRule) (text cs : List Char) : Prop where
  rule_mem : rule ∈ LexRule.all
  mem : text ∈ rule.language
  front : text <+: cs
  max : ∀ other ∈ LexRule.all, ∀ t ∈ other.language, t <+: cs → t.length ≤ text.length
  only : ∀ other ∈ LexRule.all, text ∈ other.language → other = rule

variable {rule : LexRule} {text cs front rest t : List Char} {n : Nat}

theorem LexRule.ne_nil_of_mem (hrule : rule ∈ all) (h : text ∈ rule.language) : text ≠ [] := by
  obtain ⟨c, cs, rfl, -⟩ := starts_of_mem hrule h
  exact List.cons_ne_nil c cs

theorem LexRule.match?_of_longest_mem (hrule : rule ∈ all) (hmem : text ∈ rule.language)
    (hfront : text <+: cs) (hmax : ∀ t ∈ rule.language, t <+: cs → t.length ≤ text.length) :
    rule.match? cs = some text.length := by
  have hfinds := finds_match? hrule cs
  rcases hn : rule.match? cs with _ | n <;> rw [hn] at hfinds
  · exact absurd hfront (hfinds text hmem)
  · have hle := hmax _ hfinds.mem (List.take_prefix n cs)
    rw [List.length_take_of_le hfinds.le] at hle
    rw [hle.antisymm (hfinds.max text hmem hfront)]

theorem LexRule.Longest.longest (h : rule.Longest text cs) :
    longest cs = some (rule, text.length) := by
  refine longest_eq h.rule_mem (match?_of_longest_mem h.rule_mem h.mem h.front
    (h.max rule h.rule_mem)) fun other hother hne k hk => ?_
  have hfinds := finds_match? hother cs
  rw [hk] at hfinds
  have hle := h.max other hother _ hfinds.mem (List.take_prefix k cs)
  rw [List.length_take_of_le hfinds.le] at hle
  refine hle.lt_of_ne fun heq => hne (h.only other hother ?_)
  rw [List.prefix_iff_eq_take.1 h.front, ← heq]
  exact hfinds.mem

theorem le_longerMatch {a b : Option (LexRule × Nat)} {x : LexRule × Nat}
    (hx : a = some x ∨ b = some x) : ∃ m, longerMatch a b = some m ∧ x.2 ≤ m.2 := by
  rcases hx with rfl | rfl
  · rcases b with _ | y
    · exact ⟨x, rfl, Nat.le_refl _⟩
    · simp only [longerMatch]
      split
      · exact ⟨y, rfl, by omega⟩
      · exact ⟨x, rfl, Nat.le_refl _⟩
  · rcases a with _ | y
    · exact ⟨x, rfl, Nat.le_refl _⟩
    · simp only [longerMatch]
      split
      · exact ⟨x, rfl, Nat.le_refl _⟩
      · exact ⟨y, rfl, by omega⟩

/-- No match is longer than the one that is taken. -/
theorem le_foldl_longerMatch {xs : List (Option (LexRule × Nat))} {a : Option (LexRule × Nat)}
    {x : LexRule × Nat} (hx : a = some x ∨ some x ∈ xs) :
    ∃ m, xs.foldl longerMatch a = some m ∧ x.2 ≤ m.2 := by
  induction xs generalizing a x with
  | nil => exact ⟨x, hx.resolve_right List.not_mem_nil, Nat.le_refl _⟩
  | cons y xs ih =>
    rw [List.mem_cons, ← or_assoc] at hx
    rcases hx with hx | hx
    · obtain ⟨z, hz, hle⟩ := le_longerMatch (hx.imp_right Eq.symm)
      obtain ⟨m, hm, hle'⟩ := ih (.inl hz)
      exact ⟨m, hm, hle.trans hle'⟩
    · exact ih (.inr hx)

theorem le_of_longest {other : LexRule} (hother : other ∈ all) {k : Nat}
    (hk : other.match? cs = some k) : ∃ rule n, longest cs = some (rule, n) ∧ k ≤ n := by
  have hmem : some (other, k) ∈ all.map fun rule => (rule.match? cs).map (rule, ·) :=
    List.mem_map.2 ⟨other, hother, by rw [hk]; rfl⟩
  obtain ⟨⟨rule, n⟩, hm, hle⟩ := le_foldl_longerMatch (a := none) (.inr hmem)
  exact ⟨rule, n, hm, hle⟩

theorem longest_of_eq (h : longest cs = some (rule, n)) : rule.Longest (cs.take n) cs := by
  obtain ⟨hrule, hmatch⟩ := mem_of_longest h
  have hfinds := finds_match? hrule cs
  rw [hmatch] at hfinds
  refine ⟨hrule, hfinds.mem, List.take_prefix n cs, fun other hother t ht hfront => ?_,
    fun other hother hmem => eq_of_mem_language hother hrule hmem hfinds.mem⟩
  rw [List.length_take_of_le hfinds.le]
  have hfinds' := finds_match? hother cs
  rcases hk : other.match? cs with _ | k <;> rw [hk] at hfinds'
  · exact absurd hfront (hfinds' t ht)
  · obtain ⟨rule', n', hlongest, hle⟩ := le_of_longest hother hk
    obtain ⟨rfl, rfl⟩ := Prod.mk.inj (Option.some.inj (hlongest.symm.trans h))
    exact (hfinds'.max t ht hfront).trans hle

theorem longest_eq_none : longest cs = none ↔
    ∀ rule ∈ LexRule.all, ∀ t ∈ rule.language, ¬t <+: cs := by
  refine ⟨fun h rule hrule t ht hfront => ?_, fun h => ?_⟩
  · have hfinds := finds_match? hrule cs
    rcases hk : rule.match? cs with _ | k <;> rw [hk] at hfinds
    · exact hfinds t ht hfront
    · obtain ⟨rule', n, hlongest, -⟩ := le_of_longest hrule hk
      rw [h] at hlongest
      cases hlongest
  · rcases hlongest : longest cs with _ | ⟨rule, n⟩
    · rfl
    · have hrule := longest_of_eq hlongest
      exact absurd hrule.front (h rule hrule.rule_mem _ hrule.mem)

/-! ## Cutting -/

/-- A stretch of a source: what is in front of it, the rule that matches it, and its text. No rule
matches what is refused. -/
structure Stretch where
  front : List Char
  rule? : Option LexRule
  text : List Char

/-- Whether a call of the lexer is answered with what the stretch stands for. -/
def Stretch.isToken (p : Stretch) : Bool :=
  !p.rule?.any LexRule.isSkipped

/-- A text behind another one is cut into stretches, up to a rest. -/
inductive Cut : List Char → List Char → List Stretch → List Char → Prop where
  | nil (front rest : List Char) : Cut front rest [] rest
  | matched {front text behind rest : List Char} {rule : LexRule} {ps : List Stretch}
      (h : rule.Longest text (text ++ behind)) (hclosed : rule ≠ .openComment)
      (hrest : Cut (front ++ text) behind ps rest) :
      Cut front (text ++ behind) (⟨front, some rule, text⟩ :: ps) rest
  | refused {front behind rest : List Char} {c : Char} {ps : List Stretch}
      (h : ∀ rule ∈ LexRule.all, ∀ t ∈ rule.language, ¬t <+: c :: behind)
      (hrest : Cut (front ++ [c]) behind ps rest) :
      Cut front (c :: behind) (⟨front, none, [c]⟩ :: ps) rest

/-- The rest of a source that is not cut: nothing, or a comment that is never closed. -/
def Uncut (rest : List Char) : Prop :=
  rest = [] ∨ ∃ t, rest = '/' :: '*' :: t ∧ ¬['*', '/'] <:+: t

/-- The stretches that calls are answered with. -/
def tokens (ps : List Stretch) : List Stretch :=
  ps.filter Stretch.isToken

/-- The text that stretches cover. -/
def covered (ps : List Stretch) : List Char :=
  (ps.map (·.text)).flatten

variable {ps : List Stretch} {p : Stretch}

theorem LexRule.commentEnd?_of_infix (h : ['*', '/'] <:+: t) : ∃ n, commentEnd? t = some n := by
  obtain ⟨s, rest, rfl⟩ := h
  induction s with
  | nil => exact ⟨2, rfl⟩
  | cons c s ih =>
    by_cases hmark : ['*', '/'] <+: c :: (s ++ ['*', '/'] ++ rest)
    · obtain ⟨behind, hbehind⟩ := hmark
      exact ⟨2, by rw [List.cons_append, List.cons_append, ← hbehind]; rfl⟩
    · obtain ⟨n, hn⟩ := ih
      exact ⟨1 + n, by rw [List.cons_append, List.cons_append, commentEnd?_cons hmark, hn]; rfl⟩

/-- An opening mark is a lexeme only if the comment is not closed. -/
theorem LexRule.Longest.uncut (h : LexRule.Longest .openComment text cs) : Uncut cs := by
  obtain rfl : text = ['/', '*'] := h.mem
  obtain ⟨t, rfl⟩ := h.front
  refine .inr ⟨t, rfl, fun hinfix => ?_⟩
  obtain ⟨n, hn⟩ := commentEnd?_of_infix hinfix
  have hmatch : match? .blockComment (['/', '*'] ++ t) = some (n + 2) := congrArg (Option.map _) hn
  have hfinds : FindsLongest (language .blockComment) (['/', '*'] ++ t) _ :=
    finds_match? (by decide) _
  rw [hmatch] at hfinds
  have hle := h.max .blockComment (by decide) _ hfinds.mem (List.take_prefix _ _)
  rw [List.length_take_of_le hfinds.le] at hle
  obtain ⟨_, _, -, rfl, -⟩ := commentEnd?_take hn
  exact absurd hle (by simp)

/-- Every text can be cut. -/
theorem exists_cut (front cs : List Char) : ∃ ps rest, Cut front cs ps rest ∧ Uncut rest := by
  induction hn : cs.length using Nat.strong_induction_on generalizing front cs with
  | _ n ih =>
    subst hn
    cases cs with
    | nil => exact ⟨[], [], .nil front [], .inl rfl⟩
    | cons c cs =>
      rcases hlongest : longest (c :: cs) with _ | ⟨rule, n⟩
      · obtain ⟨ps, rest, hcut, hrest⟩ := ih _ (Nat.lt_succ_self _) (front ++ [c]) cs rfl
        exact ⟨_, rest, .refused (longest_eq_none.1 hlongest) hcut, hrest⟩
      · have hrule := longest_of_eq hlongest
        by_cases hopen : rule = .openComment
        · subst hopen
          exact ⟨[], _, .nil front _, hrule.uncut⟩
        · have hpos := longest_pos hlongest
          obtain ⟨ps, rest, hcut, hrest⟩ := ih ((c :: cs).drop n).length
            (by rw [List.length_drop, List.length_cons]; omega) (front ++ (c :: cs).take n) _ rfl
          have hmatched := Cut.matched ((List.take_append_drop n (c :: cs)).symm ▸ hrule) hopen hcut
          rw [List.take_append_drop] at hmatched
          exact ⟨_, rest, hmatched, hrest⟩

namespace Cut

theorem covered_append (h : Cut front cs ps rest) : covered ps ++ rest = cs := by
  induction h with
  | nil => rfl
  | matched h hclosed hrest ih => rw [← ih, ← List.append_assoc]; rfl
  | refused h hrest ih => rw [← ih]; rfl

/-- A cut goes on at each of its stretches. -/
theorem mem (h : Cut front cs ps rest) (hp : p ∈ ps) : ∃ behind qs,
    front ++ cs = p.front ++ (p.text ++ behind) ∧
      Cut p.front (p.text ++ behind) (p :: qs) rest := by
  induction h with
  | nil => cases hp
  | @matched front text behind rest rule ps h hclosed hrest ih =>
    rcases List.mem_cons.1 hp with rfl | hp
    · exact ⟨behind, ps, rfl, .matched h hclosed hrest⟩
    · rw [← List.append_assoc]
      exact ih hp
  | @refused front behind rest c ps h hrest ih =>
    rcases List.mem_cons.1 hp with rfl | hp
    · exact ⟨behind, ps, rfl, .refused h hrest⟩
    · rw [List.append_cons]
      exact ih hp

theorem text_ne_nil (h : Cut front cs ps rest) (hp : p ∈ ps) : p.text ≠ [] := by
  obtain ⟨behind, qs, -, hcut⟩ := h.mem hp
  obtain ⟨front, rule?, text⟩ := p
  generalize hcs : text ++ behind = cs' at hcut
  cases hcut with
  | matched h => exact ne_nil_of_mem h.rule_mem h.mem
  | refused => exact List.cons_ne_nil _ _

theorem byteSize_le (h : Cut front cs ps rest) (hp : p ∈ ps) :
    byteSize front ≤ byteSize p.front := by
  induction h with
  | nil => cases hp
  | matched h hclosed hrest ih =>
    rcases List.mem_cons.1 hp with rfl | hp
    · exact Nat.le_refl _
    · have := ih hp
      rw [byteSize_append] at this
      omega
  | refused h hrest ih =>
    rcases List.mem_cons.1 hp with rfl | hp
    · exact Nat.le_refl _
    · have := ih hp
      rw [byteSize_append] at this
      omega

end Cut

theorem byteSize_pos (h : text ≠ []) : 0 < byteSize text := by
  obtain ⟨c, cs, rfl⟩ := List.exists_cons_of_ne_nil h
  have := c.utf8Size_pos
  rw [byteSize_cons]
  omega

/-- Each stretch starts behind those in front of it. -/
theorem Cut.ordered (h : Cut front cs ps rest) :
    ps.Pairwise fun p q => byteSize p.front < byteSize q.front := by
  have hbehind : ∀ {front text behind ps}, text ≠ [] → Cut (front ++ text) behind ps rest →
      ∀ q ∈ ps, byteSize front < byteSize q.front := by
    intro front text behind ps htext hrest q hq
    have hle := hrest.byteSize_le hq
    have hpos := byteSize_pos htext
    rw [byteSize_append] at hle
    omega
  induction h with
  | nil => exact .nil
  | matched h hclosed hrest ih =>
    exact .cons (hbehind (ne_nil_of_mem h.rule_mem h.mem) hrest) (ih hbehind)
  | refused h hrest ih => exact .cons (hbehind (List.cons_ne_nil _ _) hrest) (ih hbehind)

/-! ## Scanning -/

/-- What scanning finds at the front of a text that is cut: its first stretch that is not skipped,
with the rest of the cut behind it, or the end. -/
inductive Found (source : List Char) (ts : List Stretch) (rest : List Char) : Scan → Prop where
  | finish (hts : ts = []) (hrest : rest = []) : Found source ts rest .finish
  | openComment {front t : List Char} (hts : ts = []) (hrest : rest = '/' :: '*' :: t)
      (hsource : source = front ++ rest) :
      Found source ts rest (.lexeme .openComment ['/', '*'] (byteSize front) t)
  | lexeme {front text behind : List Char} {rule : LexRule} {ps : List Stretch}
      (hts : ts = ⟨front, some rule, text⟩ :: tokens ps) (hrule : rule ∈ LexRule.all)
      (hmem : text ∈ rule.language) (hskip : rule.isSkipped = false) (hclosed : rule ≠ .openComment)
      (hsource : source = front ++ (text ++ behind)) (hcut : Cut (front ++ text) behind ps rest) :
      Found source ts rest (.lexeme rule text (byteSize front) behind)
  | invalid {front behind : List Char} {c : Char} {ps : List Stretch}
      (hts : ts = ⟨front, none, [c]⟩ :: tokens ps) (hsource : source = front ++ ([c] ++ behind))
      (hcut : Cut (front ++ [c]) behind ps rest) :
      Found source ts rest (.invalid c (byteSize front) behind)

/-- The mark of a comment that is not closed is the longest match. -/
theorem longest_openComment (h : ¬['*', '/'] <:+: t) :
    longest ('/' :: '*' :: t) = some (.openComment, 2) := by
  have hend : commentEnd? t = none := by
    rcases hend : commentEnd? t with _ | n
    · rfl
    · obtain ⟨s, rest, rfl, -⟩ := commentEnd?_take hend
      exact absurd ⟨s, rest, rfl⟩ h
  refine longest_comment (by decide) (by decide) (by simp only [match?]) (by decide)
    fun other hother hne k hk => ?_
  simp only [List.mem_cons, List.not_mem_nil, or_false] at hother
  rcases hother with rfl | rfl | rfl
  · cases hk
  · simp [match?, hend] at hk
  · exact absurd rfl hne

theorem scan_openComment (h : ¬['*', '/'] <:+: t) (offset : Nat) :
    scan ('/' :: '*' :: t) offset = .lexeme .openComment ['/', '*'] offset t := by
  have hlongest : longest (['/', '*'] ++ t) = some (.openComment, ['/', '*'].length) :=
    longest_openComment h
  exact (scan_of_longest (List.cons_ne_nil _ _) hlongest offset).trans (if_neg (by decide))

theorem Cut.found (h : Cut front cs ps rest) (hrest : Uncut rest) :
    Found (front ++ cs) (tokens ps) rest (scan cs (byteSize front)) := by
  induction h with
  | nil front rest =>
    rcases hrest with rfl | ⟨t, rfl, ht⟩
    · unfold scan
      exact .finish rfl rfl
    · rw [scan_openComment ht]
      exact .openComment rfl rfl rfl
  | @matched front text behind rest rule ps h hclosed hcut ih =>
    rw [scan_of_longest (ne_nil_of_mem h.rule_mem h.mem) h.longest]
    split
    · rename_i hskip
      have hts : tokens (⟨front, some rule, text⟩ :: ps) = tokens ps := by
        simp [tokens, Stretch.isToken, hskip]
      rw [hts, ← List.append_assoc, ← byteSize_append]
      exact ih hrest
    · rename_i hskip
      rw [Bool.not_eq_true] at hskip
      refine .lexeme ?_ h.rule_mem h.mem hskip hclosed rfl hcut
      simp [tokens, Stretch.isToken, hskip]
  | @refused front behind rest c ps h hcut ih =>
    have hscan : scan (c :: behind) (byteSize front) = .invalid c (byteSize front) behind := by
      unfold scan
      simp only [longest_eq_none.2 h]
    rw [hscan]
    refine .invalid ?_ rfl hcut
    rfl

/-! ## Answers -/

/-- The index of lines gives the place behind a first part of a source a certain position. -/
def Source.Placed (source : List Char) (place : List Char → Position) : Prop :=
  ∀ front behind, source = front ++ behind →
    (LineMap.ofText source).position (byteSize front) = place front

theorem Source.placed_wrapped (source : List Char) :
    Placed source fun front => (Position.behind front).wrapped := by
  rintro front behind rfl
  exact LineMap.position_eq_behind front behind

theorem Source.Fits.placed {source : List Char} (h : Fits source) : Placed source .behind := by
  rintro front behind rfl
  exact LineMap.position_eq_behind_of_fits h

/-- What a call of the lexer may be answered with for a stretch, the place behind a text having a
certain position. -/
inductive Stretch.Answers (place : List Char → Position) (p : Stretch) :
    Except ScriptError Token → Prop where
  | number {x : Number} (hrule : p.rule? = some .number ∨ p.rule? = some .fraction)
      (hread : Number.read? p.text = some x) : Answers place p (.ok ⟨.number x, place p.front⟩)
  | quoted {quote : Char} {body s : List Char} (hrule : p.rule? = some (.quoted quote))
      (htext : p.text = quote :: (body ++ [quote]))
      (hread : unescapeBody body (byteSize p.front + 1) = .ok s) :
      Answers place p (.ok ⟨.str (String.ofList s), place p.front⟩)
  | escape {quote c : Char} {body inside behind : List Char}
      (hrule : p.rule? = some (.quoted quote)) (htext : p.text = quote :: (body ++ [quote]))
      (hbody : body = inside ++ '\\' :: c :: behind)
      (hcomes : Unescapes body ('\\' :: c :: behind)) (hillegal : IllegalEscape (c :: behind)) :
      Answers place p
        (.error (.lexical (escapeFault (c :: behind)) (place (p.front ++ quote :: inside))))
  | unclosed {quote : Char} (hrule : p.rule? = some (.unclosed quote)) :
      Answers place p (.error (.lexical .unclosedString (place p.front)))
  | ident (hrule : p.rule? = some .word) :
      Answers place p (.ok ⟨.ident (String.ofList p.text), place p.front⟩)
  | keyword {word : Keyword} (hrule : p.rule? = some .word)
      (hspelling : Keyword.ofSpelling? (String.ofList p.text) = some word) :
      Answers place p (.ok ⟨.keyword word, place p.front⟩)
  | mark {m : Mark} (hrule : p.rule? = some .sign) (hspelling : p.text = m.spelling.toList) :
      Answers place p (.ok ⟨.mark m, place p.front⟩)
  | invalid {c : Char} (hrule : p.rule? = none) (htext : p.text = [c]) :
      Answers place p (.error (.lexical (.invalidCharacter c) (place p.front)))

/-- Every number that is matched is written in the decimal system. -/
theorem isNumeral_of_mem (h : text ∈ language .number ∨ text ∈ language .fraction) :
    IsNumeral text := by
  rcases h with ⟨_, ⟨ds, hds, dot, hdot, rfl⟩, e, he, rfl⟩ | ⟨_, rfl, _, ⟨fs, hfs, e, he, rfl⟩, rfl⟩
  · obtain ⟨hdigits, hsome⟩ := mem_digits.1 hds
    rcases hdot with rfl | ⟨_, rfl, fs, hfs, rfl⟩
    · show IsNumeral (ds ++ [] ++ e)
      rw [List.append_nil]
      exact .whole hdigits hsome (mem_exponent.1 he)
    · show IsNumeral (ds ++ '.' :: fs ++ e)
      rw [List.append_assoc]
      exact .point hdigits (mem_single_kstar.1 hfs) (.inl hsome) (mem_exponent.1 he)
  · obtain ⟨hdigits, hsome⟩ := mem_digits.1 hfs
    show IsNumeral ([] ++ '.' :: (fs ++ e))
    exact .point (by simp [Digits]) hdigits (.inr hsome) (mem_exponent.1 he)

section Unquoted

variable {quote c : Char} {body ds : List Char}

theorem LexRule.Unquoted.of_cons (hc : c ≠ '\\') (h : Unquoted quote (c :: t)) :
    Unquoted quote t := by
  cases h with
  | raw _ _ _ h => exact h
  | escape => exact absurd rfl hc

theorem LexRule.Unquoted.of_escape (h : Unquoted quote ('\\' :: c :: t)) : Unquoted quote t := by
  cases h with
  | raw hslash => exact absurd rfl hslash
  | escape _ h => exact h

theorem LexRule.Unquoted.of_append (hds : ∀ d ∈ ds, d ≠ '\\') (h : Unquoted quote (ds ++ t)) :
    Unquoted quote t := by
  induction ds with
  | nil => exact h
  | cons d ds ih =>
    obtain ⟨hd, hds⟩ := List.forall_mem_cons.1 hds
    exact ih hds (h.of_cons hd)

/-- What reading escapes comes to has no unescaped quote either. -/
theorem LexRule.Unquoted.unescapes (h : Unquoted quote body) (hcomes : Unescapes body rest) :
    Unquoted quote rest := by
  induction hcomes with
  | here => exact h
  | raw hc _ ih => exact ih (h.of_cons hc)
  | letter _ _ _ ih => exact ih h.of_escape
  | @hex cs digits rest hdigits hsome hvalid _ ih =>
    have hfront : digits <+: cs :=
      hdigits ▸ (List.takeWhile_prefix _).trans (List.take_prefix 4 cs)
    have hbehind : Unquoted quote (digits ++ cs.drop digits.length) := by
      rw [List.prefix_iff_eq_append.1 hfront]
      exact h.of_escape
    refine ih (hbehind.of_append fun d hd => ?_)
    rw [hdigits] at hd
    have hhex := List.all_eq_true.1 List.all_takeWhile d hd
    rintro rfl
    cases hhex

/-- A backslash is not the last character inside a quoted text. -/
theorem LexRule.Unquoted.escape_ne_nil (h : Unquoted quote body)
    (hcomes : Unescapes body ('\\' :: rest)) : rest ≠ [] := by
  rintro rfl
  cases h.unescapes hcomes with
  | raw hslash => exact hslash rfl

end Unquoted

/-- Every sign that is matched is one of the marks. -/
theorem signOf?_of_mem (h : text ∈ language .sign) :
    ∃ m, signOf? text = some m ∧ text = m.spelling.toList := by
  obtain ⟨m, rfl⟩ := h
  have hmem : (m.spelling.toList, m) ∈ spellings := List.mem_map.2 ⟨m, mem_marks m, rfl⟩
  rcases hfind : spellings.find? (·.1 = m.spelling.toList) with _ | s
  · exact absurd (List.find?_eq_none.1 hfind _ hmem) (by simp)
  · have hs := List.find?_some hfind
    obtain ⟨m', -, rfl⟩ := List.mem_map.1 (List.mem_of_find?_eq_some hfind)
    refine ⟨m', ?_, (of_decide_eq_true hs).symm⟩
    rw [signOf?, hfind]
    rfl

namespace Lexer

variable {l : Lexer} {source behind : List Char} {place : List Char → Position}

/-- What a lexeme stands for, or its fault. -/
theorem kindOf_answers (hplaced : Source.Placed source place) (hmap : l.map = LineMap.ofText source)
    (hsource : source = front ++ (text ++ behind)) (hrule : rule ∈ LexRule.all)
    (hmem : text ∈ rule.language) (hskip : rule.isSkipped = false) (hclosed : rule ≠ .openComment) :
    Stretch.Answers place ⟨front, some rule, text⟩ ((l.kindOf rule text (byteSize front)).map
      (⟨·, l.map.position (byteSize front)⟩)) := by
  have hplace : l.map.position (byteSize front) = place front := by
    rw [hmap, hplaced front _ hsource]
  rw [hplace]
  cases rule with
  | blank | lineComment | blockComment => cases hskip
  | openComment => exact absurd rfl hclosed
  | number | fraction =>
    have hnumeral : IsNumeral text :=
      isNumeral_of_mem (by first | exact .inl hmem | exact .inr hmem)
    obtain ⟨x, hx⟩ := hnumeral.read?
    unfold kindOf
    simp only [hx]
    exact .number (by simp) hx
  | unclosed quote =>
    unfold kindOf
    simp only [hplace]
    exact .unclosed rfl
  | quoted quote =>
    obtain ⟨_, rfl, _, ⟨body, hbody, _, rfl, rfl⟩, rfl⟩ := hmem
    have hquote : quote.utf8Size = 1 := by
      obtain rfl | rfl : quote = '"' ∨ quote = '\'' := by simpa [LexRule.all] using hrule
      all_goals rfl
    have hinner : ([quote] ++ (body ++ [quote])).tail.dropLast = body := by simp
    show Stretch.Answers place ⟨front, _, [quote] ++ (body ++ [quote])⟩
      ((l.kindOf (.quoted quote) ([quote] ++ (body ++ [quote])) _).map _)
    unfold kindOf
    simp only [hinner]
    rcases hread : unescapeBody body (byteSize front + 1) with ⟨cause, offset⟩ | s
    · obtain ⟨inside, escape, hsplit, hcomes, rfl, hillegal, rfl⟩ := unescapeBody_error hread
      obtain ⟨c, escape, rfl⟩ :=
        List.exists_cons_of_ne_nil ((mem_inside.1 hbody).escape_ne_nil hcomes)
      have hbytes : byteSize front + 1 + byteSize inside = byteSize (front ++ quote :: inside) := by
        rw [byteSize_append, byteSize_cons, hquote, Nat.add_assoc]
      have hinside : l.map.position (byteSize (front ++ quote :: inside)) =
          place (front ++ quote :: inside) := by
        have hcut : source = front ++ quote :: inside ++
            ('\\' :: c :: escape ++ [quote] ++ behind) := by
          rw [hsource, hsplit]
          simp
        rw [hmap, hplaced _ _ hcut]
      simp only [hbytes, hinside]
      exact .escape rfl rfl hsplit hcomes hillegal
    · exact .quoted rfl rfl hread
  | word =>
    rcases hword : (if l.afterDot then none else Keyword.ofSpelling? (String.ofList text))
      with _ | word
    · unfold kindOf
      simp only [hword]
      exact .ident rfl
    · unfold kindOf
      simp only [hword]
      refine .keyword rfl ?_
      split at hword
      · cases hword
      · exact hword
  | sign =>
    obtain ⟨m, hm, htext⟩ := signOf?_of_mem hmem
    unfold kindOf
    simp only [hm]
    exact .mark rfl htext

end Lexer

/-! ## Calls -/

/-- The call with an index, tokens that were given back apart, is answered for the stretch with this
index, or with the end. -/
def Answered (place : List Char → Position) (source : List Char) (ps : List Stretch) (i : Nat)
    (r : Except ScriptError Token) : Prop :=
  (∃ p, (tokens ps)[i]? = some p ∧ p.Answers place r) ∨
    (tokens ps).length ≤ i ∧ r = .ok ⟨.finish,
      place (if i = (tokens ps).length then covered ps else source)⟩

section Answered

variable {place : List Char → Position} {source : List Char} {i : Nat}
  {r : Except ScriptError Token}

/-- No number is malformed. -/
theorem Answered.ne_malformed (h : Answered place source ps i r) (name : String) (p : Position) :
    r ≠ .error (.lexical (.malformedNumber name) p) := by
  rintro rfl
  rcases h with ⟨q, -, hanswers⟩ | ⟨-, heq⟩
  · generalize hr : (.error (.lexical (.malformedNumber name) p) : Except ScriptError Token) = r
      at hanswers
    cases hanswers with
    | escape =>
      simp only [escapeFault] at hr
      split at hr <;> cases hr
    | _ => cases hr
  · cases heq

/-- Only a text without a closing quote is not ended. -/
theorem Answered.unclosed {at_ : Position}
    (h : Answered place source ps i (.error (.lexical .unclosedString at_))) :
    ∃ p quote, (tokens ps)[i]? = some p ∧ p.rule? = some (.unclosed quote) := by
  rcases h with ⟨p, hp, hanswers⟩ | ⟨-, heq⟩
  · generalize hr : (.error (.lexical .unclosedString at_) : Except ScriptError Token) = r
      at hanswers
    cases hanswers with
    | unclosed hrule => exact ⟨p, _, hp, hrule⟩
    | escape =>
      simp only [escapeFault] at hr
      split at hr <;> cases hr
    | _ => cases hr
  · cases heq

end Answered

namespace Lexer

variable {l : Lexer} {source : List Char} {place : List Char → Position}

/-- A lexer that has answered a number of calls: as many stretches are behind it, or the end. -/
structure Stands (l : Lexer) (source : List Char) (ps : List Stretch) (rest : List Char) (n : Nat) :
    Prop where
  map : l.map = LineMap.ofText source
  size : l.size = byteSize source
  place : l.finished = true ∧ (tokens ps).length < n ∨
    l.finished = false ∧ ∃ front qs, source = front ++ l.rest ∧ l.offset = byteSize front ∧
      Cut front l.rest qs rest ∧ n ≤ (tokens ps).length ∧ (tokens ps).drop n = tokens qs

theorem stands_ofText (h : Cut [] source ps rest) : (ofText source).Stands source ps rest 0 :=
  ⟨rfl, rfl, .inr ⟨rfl, [], ps, rfl, rfl, h, Nat.zero_le _, rfl⟩⟩

theorem finishToken_eq (hplaced : Source.Placed source place) (hmap : l.map = LineMap.ofText source)
    (hsize : l.size = byteSize source) : l.finishToken = ⟨.finish, place source⟩ := by
  rw [finishToken, hmap, hsize, hplaced source [] (List.append_nil source).symm]

/-- Where the tokens end, none of them is left. -/
theorem length_of_drop (hle : n ≤ (tokens ps).length) (hdrop : (tokens ps).drop n = []) :
    n = (tokens ps).length :=
  hle.antisymm (List.drop_eq_nil_iff.1 hdrop)

/-- Where tokens are left, the next one is given. -/
theorem of_drop {qs : List Stretch} (hdrop : (tokens ps).drop n = p :: tokens qs) :
    (tokens ps)[n]? = some p ∧ n + 1 ≤ (tokens ps).length ∧
      (tokens ps).drop (n + 1) = tokens qs := by
  have hlt : n < (tokens ps).length := by
    by_contra hle
    rw [List.drop_eq_nil_of_le (Nat.le_of_not_lt hle)] at hdrop
    cases hdrop
  rw [List.drop_eq_getElem_cons hlt] at hdrop
  obtain ⟨rfl, hbehind⟩ := List.cons.inj hdrop
  exact ⟨List.getElem?_eq_getElem hlt, hlt, hbehind⟩

/-- A call gets the next answer. -/
theorem Stands.fetch (hplaced : Source.Placed source place) (h : l.Stands source ps rest n)
    (hcut : Cut [] source ps rest) (hrest : Uncut rest) :
    Answered place source ps n l.fetch.1 ∧ l.fetch.2.Stands source ps rest (n + 1) := by
  obtain ⟨hmap, hsize, ⟨hfinished, hlt⟩ |
    ⟨hfinished, front, qs, hsource, hoffset, hqs, hle, hdrop⟩⟩ := h
  · have hfetch : l.fetch = (.ok l.finishToken, l) := by
      rw [Lexer.fetch, if_pos hfinished]
    rw [hfetch, finishToken_eq hplaced hmap hsize]
    refine ⟨.inr ⟨hlt.le, ?_⟩, hmap, hsize, .inl ⟨hfinished, hlt.trans (Nat.lt_succ_self n)⟩⟩
    rw [if_neg hlt.ne']
  have hcovered := hcut.covered_append
  have hfound := hqs.found hrest
  rw [← hsource, ← hoffset] at hfound
  unfold Lexer.fetch
  rw [hfinished, if_neg Bool.false_ne_true]
  generalize scan l.rest l.offset = found at hfound
  cases hfound with
  | finish hts hnil =>
    rw [hts] at hdrop
    obtain rfl := length_of_drop hle hdrop
    refine ⟨.inr ⟨le_refl _, ?_⟩, hmap, hsize, .inl ⟨rfl, Nat.lt_succ_self _⟩⟩
    rw [hnil, List.append_nil] at hcovered
    rw [if_pos rfl, hcovered, finishToken_eq hplaced hmap hsize]
  | @openComment front t hts hnil hsource =>
    rw [hts] at hdrop
    obtain rfl := length_of_drop hle hdrop
    refine ⟨.inr ⟨le_refl _, ?_⟩, hmap, hsize, .inl ⟨rfl, Nat.lt_succ_self _⟩⟩
    obtain rfl : covered ps = front := List.append_cancel_right (hcovered.trans hsource)
    rw [if_pos rfl]
    show Except.ok (⟨.finish, l.map.position (byteSize (covered ps))⟩ : Token) = _
    rw [hmap, hplaced _ _ hsource]
  | @lexeme front text behind rule qs hts hrule hmem hskip hclosed hsource hqs =>
    rw [hts] at hdrop
    obtain ⟨hget, hle, hdrop⟩ := of_drop hdrop
    have hanswers := kindOf_answers hplaced hmap hsource hrule hmem hskip hclosed
    have hbehind : ∃ front' qs', source = front' ++ behind ∧
        byteSize front + byteSize text = byteSize front' ∧ Cut front' behind qs' rest ∧
          n + 1 ≤ (tokens ps).length ∧ (tokens ps).drop (n + 1) = tokens qs' :=
      ⟨front ++ text, qs, by rw [hsource, List.append_assoc], (byteSize_append _ _).symm, hqs, hle,
        hdrop⟩
    dsimp only
    rcases hkind : l.kindOf rule text (byteSize front) with e | kind <;> rw [hkind] at hanswers
    · exact ⟨.inl ⟨_, hget, hanswers⟩, hmap, hsize, .inr ⟨hfinished, hbehind⟩⟩
    · exact ⟨.inl ⟨_, hget, hanswers⟩, hmap, hsize, .inr ⟨decide_eq_false hclosed, hbehind⟩⟩
  | @invalid front behind c qs hts hsource hqs =>
    rw [hts] at hdrop
    obtain ⟨hget, hle, hdrop⟩ := of_drop hdrop
    have hplace : l.map.position (byteSize front) = place front := by
      rw [hmap, hplaced front _ hsource]
    refine ⟨.inl ⟨_, hget, ?_⟩, hmap, hsize, .inr ⟨hfinished, front ++ [c], qs, ?_, ?_, hqs, hle,
      hdrop⟩⟩
    · dsimp only
      rw [hplace]
      exact .invalid rfl rfl
    · rw [hsource, List.append_assoc]
      rfl
    · exact (byteSize_append _ _).symm

/-- A lexer of a source that has answered calls. A token that is given back is the answer of the
next call, which is not counted again. -/
inductive Reads (source : List Char) : List (Except ScriptError Token) → Lexer → Prop where
  | start : Reads source [] (ofText source)
  | next {rs : List (Except ScriptError Token)} {l : Lexer} (h : Reads source rs l)
      (hpushed : l.pushed = none) : Reads source (rs ++ [l.next.1]) l.next.2
  | pushBack {rs : List (Except ScriptError Token)} {l : Lexer} (h : Reads source rs l)
      (t : Token) : Reads source rs (l.pushBack t)
  | again {rs : List (Except ScriptError Token)} {l : Lexer} {t : Token} (h : Reads source rs l)
      (hpushed : l.pushed = some t) : Reads source rs l.next.2

theorem Reads.answered (hplaced : Source.Placed source place)
    {rs : List (Except ScriptError Token)} (h : l.Reads source rs) (hcut : Cut [] source ps rest)
    (hrest : Uncut rest) : l.Stands source ps rest rs.length ∧
      ∀ i r, rs[i]? = some r → Answered place source ps i r := by
  induction h with
  | start => exact ⟨stands_ofText hcut, by simp⟩
  | @next rs l h hpushed ih =>
    obtain ⟨hstands, hanswered⟩ := ih
    obtain ⟨hanswer, hnext⟩ := hstands.fetch hplaced hcut hrest
    rw [next_eq_fetch hpushed]
    refine ⟨by rwa [List.length_append], fun i r hr => ?_⟩
    rw [List.getElem?_append] at hr
    split at hr
    · exact hanswered i r hr
    · rename_i hle
      obtain ⟨hi, rfl⟩ : i - rs.length = 0 ∧ l.fetch.1 = r := by
        simpa [List.getElem?_singleton] using hr
      obtain rfl : i = rs.length := by omega
      exact hanswer
  | pushBack h t ih => exact ⟨⟨ih.1.map, ih.1.size, ih.1.place⟩, ih.2⟩
  | @again rs l t h hpushed ih =>
    have hnext : l.next.2 = { l with pushed := none } := by
      simp only [Lexer.next, hpushed]
    rw [hnext]
    exact ⟨⟨ih.1.map, ih.1.size, ih.1.place⟩, ih.2⟩

end Lexer

/-! ## The whole source -/

/-- The stretches of a source, of which nothing but the rest is left. -/
structure Tiling (source : List Char) (ps : List Stretch) (rest : List Char) : Prop where
  cut : Cut [] source ps rest
  uncut : Uncut rest
  covers : covered ps ++ rest = source
  ordered : ps.Pairwise fun p q => byteSize p.front < byteSize q.front
  consumes : ∀ p ∈ ps, 1 ≤ byteSize p.text
  /-- A quoted text ends at its first unescaped quote, and is in one line. -/
  quoted : ∀ p ∈ ps, ∀ quote, p.rule? = some (.quoted quote) → ∃ body,
    p.text = quote :: (body ++ [quote]) ∧ Unquoted quote body ∧ '\n' ∉ p.text
  closes : ∀ p ∈ ps, ∀ quote body behind, quote = '"' ∨ quote = '\'' → Unquoted quote body →
    source = p.front ++ quote :: (body ++ quote :: behind) →
      p.rule? = some (.quoted quote) ∧ p.text = quote :: (body ++ [quote])
  /-- A comment ends at its first closing mark. -/
  comment : ∀ p ∈ ps, p.rule? = some .blockComment → ∃ t,
    p.text = '/' :: '*' :: (t ++ ['*', '/']) ∧ ¬['*', '/'] <:+: t
  ends : ∀ p ∈ ps, ∀ t behind, ¬['*', '/'] <:+: t →
    source = p.front ++ '/' :: '*' :: (t ++ '*' :: '/' :: behind) →
      p.rule? = some .blockComment ∧ p.text = '/' :: '*' :: (t ++ ['*', '/'])

variable {source : List Char}

theorem LexRule.Unquoted.notMem_newline {quote : Char} {body : List Char}
    (h : Unquoted quote body) : '\n' ∉ body := by
  induction h with
  | nil => exact List.not_mem_nil
  | raw _ _ hline _ ih => exact List.not_mem_cons_of_ne_of_not_mem hline.symm ih
  | escape hline _ ih =>
    exact List.not_mem_cons_of_ne_of_not_mem (by decide)
      (List.not_mem_cons_of_ne_of_not_mem hline.symm ih)

/-- A stretch is the longest match at its place, or no rule matches there. -/
theorem Cut.longest_of_mem (h : Cut [] source ps rest) (hp : p ∈ ps) :
    ∃ behind, source = p.front ++ (p.text ++ behind) ∧
      ((∃ rule ∈ LexRule.all, p.rule? = some rule ∧ p.text ∈ rule.language ∧
        longest (p.text ++ behind) = some (rule, p.text.length)) ∨
      p.rule? = none ∧ longest (p.text ++ behind) = none) := by
  obtain ⟨behind, qs, hsource, hcut⟩ := h.mem hp
  refine ⟨behind, hsource, ?_⟩
  obtain ⟨front, rule?, text⟩ := p
  generalize hcs : text ++ behind = cs at hcut
  cases hcut with
  | matched h hclosed =>
    exact .inl ⟨_, h.rule_mem, rfl, h.mem, h.longest⟩
  | refused h => exact .inr ⟨rfl, longest_eq_none.2 h⟩

/-- What is the longest match at the place of a stretch is the stretch. -/
theorem Cut.eq_of_longest (h : Cut [] source ps rest) (hp : p ∈ ps)
    (hsource : source = p.front ++ (text ++ cs))
    (hlongest : longest (text ++ cs) = some (rule, text.length)) :
    p.rule? = some rule ∧ p.text = text := by
  obtain ⟨behind, hsource', hmatch⟩ := h.longest_of_mem hp
  have hcs : p.text ++ behind = text ++ cs :=
    List.append_cancel_left (hsource'.symm.trans hsource)
  rw [hcs, hlongest] at hmatch
  rcases hmatch with ⟨rule', -, hrule, -, heq⟩ | ⟨-, hnone⟩
  · obtain ⟨rfl, hlength⟩ := Prod.mk.inj (Option.some.inj heq)
    exact ⟨hrule, (List.append_inj hcs hlength.symm).1⟩
  · cases hnone

theorem Cut.tiling (h : Cut [] source ps rest) (hrest : Uncut rest) : Tiling source ps rest where
  cut := h
  uncut := hrest
  covers := h.covered_append
  ordered := h.ordered
  consumes p hp := byteSize_pos (h.text_ne_nil hp)
  quoted p hp quote hrule := by
    obtain ⟨behind, -, ⟨rule, hall, hrule', hmem, -⟩ | ⟨hnone, -⟩⟩ := h.longest_of_mem hp
    · obtain rfl := Option.some.inj (hrule'.symm.trans hrule)
      obtain ⟨_, rfl, _, ⟨body, hbody, _, rfl, rfl⟩, htext⟩ := hmem
      have hunquoted := mem_inside.1 hbody
      have hquote : quote ≠ '\n' := by
        rintro rfl
        revert hall
        decide
      refine ⟨body, htext.symm, hunquoted, ?_⟩
      rw [← htext]
      simp [hquote.symm, hunquoted.notMem_newline]
    · rw [hrule] at hnone
      cases hnone
  closes p hp quote body behind hquote hbody hsource := by
    have hslash : quote ≠ '\\' := by
      rcases hquote with rfl | rfl <;> decide
    have hclosed : quotedBody quote (body ++ quote :: behind) = (body.length, true) := by
      rw [quotedBody_append hbody, quotedBody_quote hslash, Nat.zero_add]
    have hsource' : source = p.front ++ (quote :: (body ++ [quote]) ++ behind) := by
      simpa using hsource
    refine h.eq_of_longest hp hsource' ?_
    simpa using longest_quoted hquote hclosed
  comment p hp hrule := by
    obtain ⟨behind, -, ⟨rule, hall, hrule', hmem, -⟩ | ⟨hnone, -⟩⟩ := h.longest_of_mem hp
    · obtain rfl := Option.some.inj (hrule'.symm.trans hrule)
      obtain ⟨_, rfl, t, ht, htext⟩ := hmem
      have hend := commentEnd?_of_mem ht []
      rw [List.append_nil] at hend
      obtain ⟨s, rest, rfl, hlength, hs⟩ := commentEnd?_take hend
      obtain rfl : rest = [] := by simpa using hlength
      exact ⟨s, by rw [← htext, List.append_nil]; rfl, hs⟩
    · rw [hrule] at hnone
      cases hnone
  ends p hp t behind ht hsource := by
    have hsource' : source = p.front ++ ('/' :: '*' :: (t ++ ['*', '/']) ++ behind) := by
      simpa using hsource
    refine h.eq_of_longest hp hsource' ?_
    simpa using longest_blockComment ht behind

/-- A source is cut into longest matches. The stretches, one behind the other, are the source up to
its end or to a comment that is never closed. The calls of the lexer get the answers for those
stretches that are no white space and no closed comments, in order and each at the position of its
first byte, and then the end. Positions are those of the first bytes as 32 bits hold them. No number
is malformed, and no text between quotes is not ended. -/
theorem source_is_cut_into_longest_matches (source : List Char) :
    ∃ ps rest, Tiling source ps rest ∧
      ∀ rs l, Lexer.Reads source rs l → ∀ i r, rs[i]? = some r →
        Answered (fun front => (Position.behind front).wrapped) source ps i r ∧
        (Source.Fits source → Answered .behind source ps i r) ∧
        (∀ name place, r ≠ .error (.lexical (.malformedNumber name) place)) ∧
        ∀ place, r = .error (.lexical .unclosedString place) →
          ∃ p quote, (tokens ps)[i]? = some p ∧ p.rule? = some (.unclosed quote) := by
  obtain ⟨ps, rest, hcut, hrest⟩ := exists_cut [] source
  refine ⟨ps, rest, hcut.tiling hrest, fun rs l h i r hr => ?_⟩
  have hanswered := (h.answered (Source.placed_wrapped source) hcut hrest).2 i r hr
  exact ⟨hanswered, fun hfits => (h.answered hfits.placed hcut hrest).2 i r hr,
    hanswered.ne_malformed, fun place heq => (heq ▸ hanswered).unclosed⟩

theorem source_is_cut_into_longest_matches_unclosed :
    ∃ (ps : List Stretch) (rest : List Char) (l : Lexer), Tiling "x/*".toList ps rest ∧
      Source.Fits "x/*".toList ∧
      Lexer.Reads "x/*".toList [.ok ⟨.ident "x", ⟨1, 1⟩⟩, .ok ⟨.finish, ⟨1, 2⟩⟩] l ∧
      Answered .behind "x/*".toList ps 0 (.ok ⟨.ident "x", ⟨1, 1⟩⟩) ∧
      Answered .behind "x/*".toList ps 1 (.ok ⟨.finish, ⟨1, 2⟩⟩) := by
  have hfits : Source.Fits "x/*".toList := by
    unfold Source.Fits
    decide
  have hfirst : (Lexer.ofText "x/*".toList).next.1 = .ok ⟨.ident "x", ⟨1, 1⟩⟩ := by
    decide +kernel
  have hsecond : (Lexer.ofText "x/*".toList).next.2.next.1 = .ok ⟨.finish, ⟨1, 2⟩⟩ := by
    decide +kernel
  have hpushed : (Lexer.ofText "x/*".toList).next.2.pushed = none := by
    decide +kernel
  have hstart : Lexer.Reads "x/*".toList [] (Lexer.ofText "x/*".toList) := .start
  have hreads := (hstart.next rfl).next hpushed
  rw [hfirst, hsecond] at hreads
  obtain ⟨ps, rest, htiling, hcalls⟩ := source_is_cut_into_longest_matches "x/*".toList
  exact ⟨ps, rest, _, htiling, hfits, hreads, (hcalls _ _ hreads 0 _ rfl).2.1 hfits,
    (hcalls _ _ hreads 1 _ rfl).2.1 hfits⟩

/-- A semicolon behind `n` blanks is the first token, at the column behind them as 32 bits hold it. -/
theorem next_blanks_semicolon (n : Nat) :
    (Lexer.ofText (List.replicate n ' ' ++ [';'])).next.1 =
      .ok ⟨.mark .semicolon, (Position.behind (List.replicate n ' ')).wrapped⟩ := by
  have hblanks : ∀ c ∈ List.replicate n ' ', LexRule.isBlank c = true := fun c hc =>
    List.eq_of_mem_replicate hc ▸ rfl
  have hscan : scan (List.replicate n ' ' ++ [';']) 0 =
      .lexeme .sign [';'] (byteSize (List.replicate n ' ')) [] := by
    rw [scan_blanks, List.dropWhile_append_of_pos hblanks, List.takeWhile_append_of_pos hblanks,
      Nat.zero_add]
    have hstop : [';'].dropWhile LexRule.isBlank = [';'] ∧
        [';'].takeWhile LexRule.isBlank = [] := by decide
    have hlongest : longest [';'] = some (.sign, 1) := by decide
    rw [hstop.1, hstop.2, List.append_nil]
    unfold scan
    rw [hlongest]
    rfl
  have hplace := LineMap.position_eq_behind (List.replicate n ' ') [';']
  have hkind : (Lexer.ofText (List.replicate n ' ' ++ [';'])).kindOf .sign [';']
      (byteSize (List.replicate n ' ')) = .ok (.mark .semicolon) := rfl
  simp only [Lexer.next, Lexer.fetch, Lexer.ofText, Bool.false_eq_true, if_false, hscan] at hkind ⊢
  rw [hkind]
  exact congrArg (fun place => Except.ok (⟨.mark .semicolon, place⟩ : Token)) hplace

/-- Behind 4 GiB of blanks, the only semicolon of a source is said to start the line. -/
theorem semicolon_behind_blanks_starts_line :
    let front := List.replicate (2 ^ 32) ' '
    (∃ l, Lexer.Reads (front ++ [';']) [.ok ⟨.mark .semicolon, ⟨1, 1⟩⟩] l) ∧
      ';' ∉ front ∧ Position.behind front = ⟨1, 2 ^ 32 + 1⟩ := by
  intro front
  have hnewline : '\n' ∉ front := fun h => absurd (List.eq_of_mem_replicate h) (by decide)
  have hbehind : Position.behind front = ⟨1, 2 ^ 32 + 1⟩ := by
    rw [Position.behind, Source.lastLine_eq_self hnewline, List.count_eq_zero.2 hnewline,
      byteSize_replicate]
    rfl
  have hnext := next_blanks_semicolon (2 ^ 32)
  rw [hbehind] at hnext
  have hstart : Lexer.Reads (front ++ [';']) [] (Lexer.ofText (front ++ [';'])) := .start
  have hreads := hstart.next rfl
  rw [hnext] at hreads
  exact ⟨⟨_, hreads⟩, fun h => absurd (List.eq_of_mem_replicate h) (by decide), hbehind⟩

end ScriptEngine
