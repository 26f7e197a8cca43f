import ScriptEngine.Proofs.Lexicon.Longest
import ScriptEngine.Proofs.Printing.Lexicon
import ScriptEngine.Proofs.Reading.Stream

/-!
# The languages of the rules

Each rule of the lexicon is given as a regular expression (`LexRule.language`), and `match?` finds
the longest prefix of a text that is in its language (`finds_match?`). This is shown rule by rule,
by what the functions that measure runs, points, exponents, bodies and comments say about those
parts of the expressions.

**Quoted texts.** A text is inside a quoted text as long as there is no unescaped quote and no
newline (`Unquoted`). `quotedBody` stops at the end of the longest such text, and of a backslash
behind it that escapes nothing.

**Comments.** A block comment ends at its first closing mark: what is between its marks does not
contain the closing one (`mem_comment`).
-/

namespace ScriptEngine

open scoped Computability

namespace LexRule

/-! ## Regular expressions -/

def digits : Language Char :=
  repeated (single Char.isDigit)

def exponent : Language Char :=
  single (fun c => c = 'e' || c = 'E') * (1 + single fun c => c = '+' || c = '-') * digits

def point : Language Char :=
  {['.']} * (single Char.isDigit)∗

/-- A character of a quoted text that stands for itself, or a backslash and what it escapes. -/
def inside (quote : Char) : Language Char :=
  single (fun c => c ≠ quote && c ≠ '\\' && c ≠ '\n') + {['\\']} * single (· ≠ '\n')

def stars : Language Char :=
  repeated (single (· = '*'))

/-- What is behind the opening mark of a block comment, up to its first closing mark. -/
def comment : Language Char :=
  (single (· ≠ '*') + stars * single fun c => c ≠ '*' && c ≠ '/')∗ * (stars * {['/']})

/-- The regular expression of a rule. -/
def language : LexRule → Language Char
  | .blank => repeated (single isBlank)
  | .lineComment => {['/', '/']} * (single (· ≠ '\n'))∗
  | .blockComment => {['/', '*']} * comment
  | .openComment => {['/', '*']}
  | .unclosed quote => {[quote]} * ((inside quote)∗ * (1 + {['\\']}))
  | .quoted quote => {[quote]} * ((inside quote)∗ * {[quote]})
  | .number => digits * (1 + point) * (1 + exponent)
  | .fraction => {['.']} * (digits * (1 + exponent))
  | .word => single isWordStart * (single isWordPart)∗
  | .sign => {text | ∃ m : Mark, text = m.spelling.toList}

variable {cs rest text t : List Char} {c quote : Char} {n : Nat}

/-! ## Numbers -/

theorem mem_digits : t ∈ digits ↔ Digits t ∧ t ≠ [] :=
  mem_repeated_single.trans and_comm

theorem mem_exponent : t ∈ 1 + exponent ↔ Exponent t := by
  refine ⟨?_, fun h => ?_⟩
  · rintro (rfl | ⟨_, ⟨_, ⟨e, he, rfl⟩, s, hs, rfl⟩, ds, hds, rfl⟩)
    · exact .none
    · obtain ⟨hdigits, hsome⟩ := mem_digits.1 hds
      refine @Exponent.power e s ds (by simpa using he) ?_ hdigits hsome
      rcases hs with rfl | ⟨c, hc, rfl⟩
      · exact .inl rfl
      · simpa using hc
  · cases h with
    | none => exact .inl rfl
    | @power e sign ds he hsign hds hsome =>
      refine .inr ⟨e :: sign, ⟨[e], ⟨e, by simpa using he, rfl⟩, sign, ?_, rfl⟩, ds,
        mem_digits.2 ⟨hds, hsome⟩, rfl⟩
      rcases hsign with rfl | rfl | rfl
      · exact .inl rfl
      · exact .inr ⟨'+', rfl, rfl⟩
      · exact .inr ⟨'-', rfl, rfl⟩

theorem exponent_head (h : c :: t ∈ 1 + exponent) : c = 'e' ∨ c = 'E' := by
  cases mem_exponent.1 h with
  | power he => exact he

theorem exponent_take (cs : List Char) : Exponent (cs.take (exponentLength cs)) := by
  unfold exponentLength
  split
  case h_2 => exact .none
  rename_i c s cs
  split
  case isFalse => exact .none
  rename_i he
  have hdigits : ∀ ds : List Char, Digits (ds.take (run Char.isDigit ds)) := fun ds d hd => by
    rw [take_run] at hd
    exact List.all_eq_true.1 List.all_takeWhile d hd
  have hsome : ∀ ds : List Char, run Char.isDigit ds ≠ 0 → ds.take (run Char.isDigit ds) ≠ [] := by
    intro ds hrun hnil
    rw [take_run] at hnil
    exact hrun (congrArg List.length hnil)
  split
  · rename_i hs
    dsimp only
    split
    · exact .none
    · rename_i hrun
      refine @Exponent.power c [s] _ he (.inr ?_) (hdigits cs) (hsome cs hrun)
      simpa using hs
  · dsimp only
    split
    · exact .none
    · rename_i hrun
      exact @Exponent.power c [] _ he (.inl rfl) (hdigits (s :: cs)) (hsome (s :: cs) hrun)

theorem exponent_le (h : Exponent t) (hfront : t <+: cs) : t.length ≤ exponentLength cs := by
  obtain ⟨rest, rfl⟩ := hfront
  cases h with
  | none => exact Nat.zero_le _
  | @power e sign ds he hsign hds hsome =>
    obtain ⟨d, ds, rfl⟩ := List.exists_cons_of_ne_nil hsome
    have hd : d.isDigit = true := hds d List.mem_cons_self
    have hplus : d ≠ '+' ∧ d ≠ '-' := by
      constructor <;> rintro rfl <;> cases hd
    have hrun : (d :: ds).length ≤ run Char.isDigit (d :: ds ++ rest) :=
      length_le_run hds (List.prefix_append _ rest)
    rw [List.length_cons, List.cons_append] at hrun
    have hpos : run Char.isDigit (d :: (ds ++ rest)) ≠ 0 := by omega
    rcases hsign with rfl | rfl | rfl
    · simp [exponentLength, he, hplus, hpos]
      omega
    · simp [exponentLength, he, hpos]
      omega
    · simp [exponentLength, he, hpos]
      omega

theorem exponentLength_le (cs : List Char) : exponentLength cs ≤ cs.length := by
  unfold exponentLength
  split
  case h_2 => exact Nat.zero_le _
  rename_i c s cs
  have hbehind : run Char.isDigit cs ≤ cs.length := run_le
  have hall : run Char.isDigit (s :: cs) ≤ (s :: cs).length := run_le
  rw [List.length_cons] at hall
  dsimp only
  rw [List.length_cons, List.length_cons]
  split_ifs <;> omega

theorem longestPrefix_exponent (cs : List Char) :
    LongestPrefix (1 + exponent) cs (exponentLength cs) :=
  ⟨mem_exponent.2 (exponent_take cs), exponentLength_le cs,
    fun _ htext => exponent_le (mem_exponent.1 htext)⟩

theorem point_head (h : c :: t ∈ 1 + point) : c = '.' := by
  rcases h with h | ⟨_, rfl, _, -, h⟩
  · cases h
  · exact (List.cons.inj h).1.symm

theorem longestPrefix_point (cs : List Char) : LongestPrefix (1 + point) cs (pointLength cs) := by
  by_cases h : ['.'] <+: cs
  · obtain ⟨rest, rfl⟩ := h
    have hfinds : FindsLongest point (['.'] ++ rest) (some (1 + run Char.isDigit rest)) :=
      FindsLongest.spelled_mul (o := some _) (longestPrefix_run Char.isDigit rest) ['.']
    rw [show pointLength (['.'] ++ rest) = 1 + run Char.isDigit rest from Nat.add_comm _ _]
    exact hfinds.one_add
  · have hzero : pointLength cs = 0 := by
      unfold pointLength
      split
      · exact absurd (List.prefix_append ['.'] _) h
      · rfl
    rw [hzero]
    exact FindsLongest.one_add (o := none) (finds_none_mul (finds_none_spelled h))

/-- What is measured of a point is the point and digits. -/
theorem of_lt_pointLength {i : Nat} (hi : i < pointLength cs) (hc : cs[i]? = some c) :
    c = '.' ∨ c.isDigit = true := by
  unfold pointLength at hi
  split at hi
  · cases i with
    | zero => exact .inl (Option.some.inj hc).symm
    | succ i => exact .inr (of_lt_run (Nat.lt_of_succ_lt_succ hi) hc)
  · cases hi

theorem finds_number (cs : List Char) : FindsLongest (language .number) cs (match? .number cs) := by
  have hdigits := finds_repeated Char.isDigit cs
  simp only [match?]
  rcases hrun : run Char.isDigit cs with _ | n <;> rw [hrun] at hdigits
  · exact finds_none_mul (finds_none_mul hdigits)
  · -- Neither a point nor a letter is among the digits.
    have hwhole := LongestPrefix.mul_of_head hdigits (longestPrefix_point (cs.drop (n + 1)))
      fun i c t hi hc ht => by
        have hdigit := of_lt_run (hrun ▸ hi) hc
        rw [point_head ht] at hdigit
        cases hdigit
    refine hwhole.mul_of_head (longestPrefix_exponent _) fun i c t hi hc ht => ?_
    have hplain : c = '.' ∨ c.isDigit = true := by
      by_cases hlt : i < n + 1
      · exact .inr (of_lt_run (hrun ▸ hlt) hc)
      · have hbehind : (cs.drop (n + 1))[i - (n + 1)]? = some c := by
          rw [List.getElem?_drop, ← hc]
          congr 1
          omega
        exact of_lt_pointLength (by omega) hbehind
    rcases exponent_head ht with rfl | rfl <;> rcases hplain with h | h <;> cases h

theorem finds_fraction (cs : List Char) :
    FindsLongest (language .fraction) cs (match? .fraction cs) := by
  by_cases h : ['.'] <+: cs
  · obtain ⟨rest, rfl⟩ := h
    have hdigits := finds_repeated Char.isDigit rest
    rw [List.singleton_append]
    simp only [match?]
    rcases hrun : run Char.isDigit rest with _ | n <;> rw [hrun] at hdigits
    · exact FindsLongest.spelled_mul (finds_none_mul hdigits) ['.']
    · have hwhole : LongestPrefix (digits * (1 + exponent)) rest
          (n + 1 + exponentLength (rest.drop (n + 1))) := by
        refine LongestPrefix.mul_of_head hdigits (longestPrefix_exponent _) fun i c t hi hc ht => ?_
        have hdigit := of_lt_run (hrun ▸ hi) hc
        rcases exponent_head ht with rfl | rfl <;> cases hdigit
      show LongestPrefix _ _ (n + 1 + 1 + exponentLength (rest.drop (n + 1)))
      rw [Nat.add_right_comm, Nat.add_comm _ 1]
      exact FindsLongest.spelled_mul (o := some _) hwhole ['.']
  · have hnone : match? .fraction cs = none := by
      unfold match?
      split <;> first | rfl | cases ‹LexRule.fraction = _›
      exact absurd (List.prefix_append ['.'] _) h
    rw [hnone]
    exact finds_none_mul (finds_none_spelled h)

/-! ## Words and signs -/

theorem finds_word (cs : List Char) : FindsLongest (language .word) cs (match? .word cs) := by
  have hlength : ∀ s ∈ single isWordStart, s.length = 1 := by
    rintro _ ⟨c, -, rfl⟩
    rfl
  have hnone : ∀ cs, (∀ c rest, cs = c :: rest → isWordStart c = false) →
      FindsLongest (language .word) cs none := by
    rintro cs hcs
    refine finds_none_mul ?_
    rintro _ ⟨c, hc, rfl⟩ ⟨rest, rfl⟩
    rw [hcs c rest rfl] at hc
    cases hc
  cases cs with
  | nil => exact hnone [] nofun
  | cons c cs =>
    simp only [match?]
    split
    · rename_i hc
      rw [Nat.add_comm]
      exact FindsLongest.mul_of_length (o := some _) hlength ⟨c, hc, rfl⟩ (Nat.succ_pos _)
        (longestPrefix_run isWordPart cs)
    · rename_i hc
      refine hnone _ fun d rest heq => ?_
      obtain ⟨rfl, -⟩ := List.cons.inj heq
      exact Bool.not_eq_true _ ▸ hc

theorem mem_marks (m : Mark) : m ∈ Mark.all := by
  cases m <;> decide

theorem finds_sign (cs : List Char) : FindsLongest (language .sign) cs (match? .sign cs) := by
  have hfound : ∀ m : Mark, m.spelling.toList <+: cs →
      ∃ n, match? .sign cs = some n ∧ m.spelling.toList.length ≤ n := by
    intro m hm
    have hmem : m.spelling.toList.length ∈
        (spellings.filter fun s => s.1.isPrefixOf cs).map (·.1.length) :=
      List.mem_map.2 ⟨(m.spelling.toList, m), List.mem_filter.2
        ⟨List.mem_map.2 ⟨m, mem_marks m, rfl⟩, List.isPrefixOf_iff_prefix.2 hm⟩, rfl⟩
    rcases hmax : match? .sign cs with _ | n
    · rw [List.max?_eq_none_iff.1 hmax] at hmem
      cases hmem
    · exact ⟨n, rfl, (List.max?_eq_some_iff.1 hmax).2 _ hmem⟩
  rcases hmax : match? .sign cs with _ | n
  · rintro _ ⟨m, rfl⟩ hfront
    obtain ⟨n, hn, -⟩ := hfound m hfront
    rw [hmax] at hn
    cases hn
  · obtain ⟨s, hs, hfront, rfl⟩ := prefix_of_match?_sign hmax
    obtain ⟨m, -, rfl⟩ := List.mem_map.1 hs
    refine ⟨⟨m, (List.prefix_iff_eq_take.1 hfront).symm⟩, hfront.length_le, ?_⟩
    rintro _ ⟨m', rfl⟩ hfront'
    obtain ⟨n, hn, hle⟩ := hfound m' hfront'
    rw [hmax] at hn
    cases hn
    exact hle

/-! ## Quoted texts -/

/-- What is inside a quoted text: there is no unescaped quote, and no newline. -/
inductive Unquoted (quote : Char) : List Char → Prop where
  | nil : Unquoted quote []
  | raw {c : Char} {t : List Char} (hslash : c ≠ '\\') (hquote : c ≠ quote) (hline : c ≠ '\n')
      (h : Unquoted quote t) : Unquoted quote (c :: t)
  | escape {c : Char} {t : List Char} (hline : c ≠ '\n') (h : Unquoted quote t) :
      Unquoted quote ('\\' :: c :: t)

theorem mem_inside : t ∈ (inside quote)∗ ↔ Unquoted quote t := by
  refine ⟨fun h => ?_, fun h => ?_⟩
  · induction h using kstar_induction with
    | nil => exact .nil
    | append s hs t _ ih =>
      rcases hs with ⟨c, hc, rfl⟩ | ⟨_, rfl, _, ⟨c, hc, rfl⟩, rfl⟩
      · simp only [Bool.and_eq_true, decide_eq_true_eq] at hc
        exact .raw hc.1.2 hc.1.1 hc.2 ih
      · exact .escape (of_decide_eq_true hc) ih
  · induction h with
    | nil => exact kstar_nil
    | @raw c t hslash hquote hline _ ih =>
      refine kstar_append (s := [c]) (.inl ⟨c, ?_, rfl⟩) ih
      simp only [Bool.and_eq_true, decide_eq_true_eq]
      exact ⟨⟨hquote, hslash⟩, hline⟩
    | @escape c t hline _ ih =>
      exact kstar_append (s := ['\\', c])
        (.inr ⟨['\\'], rfl, [c], ⟨c, decide_eq_true hline, rfl⟩, rfl⟩) ih

theorem quotedBody_escape (hline : c ≠ '\n') (rest : List Char) :
    quotedBody quote ('\\' :: c :: rest) =
      ((quotedBody quote rest).1 + 2, (quotedBody quote rest).2) := by
  rw [quotedBody, if_neg hline]

/-- The body of a quoted text goes on behind text without a quote. -/
theorem quotedBody_append (h : Unquoted quote t) (rest : List Char) :
    quotedBody quote (t ++ rest) =
      ((quotedBody quote rest).1 + t.length, (quotedBody quote rest).2) := by
  induction h with
  | nil => rfl
  | raw hslash hquote hline _ ih =>
    rw [List.cons_append, quotedBody_raw hslash hquote hline, ih]
    rfl
  | escape hline _ ih =>
    rw [List.cons_append, List.cons_append, quotedBody_escape hline, ih]
    rfl

theorem quotedBody_quote (hslash : quote ≠ '\\') (rest : List Char) :
    quotedBody quote (quote :: rest) = (0, true) := by
  cases rest <;> simp [quotedBody, hslash]

theorem quotedBody_slash_pos (rest : List Char) (hslash : quote ≠ '\\') :
    0 < (quotedBody quote ('\\' :: rest)).1 := by
  cases rest with
  | nil => simp [quotedBody, hslash.symm]
  | cons c rest =>
    rw [quotedBody]
    split <;> exact Nat.succ_pos _

/-- What is measured is text without a quote, and a backslash behind it that escapes nothing. -/
theorem quotedBody_take {closed : Bool} (h : quotedBody quote cs = (n, closed)) :
    ∃ t tail rest, cs = t ++ tail ++ rest ∧ n = (t ++ tail).length ∧ Unquoted quote t ∧
      (tail = [] ∨ tail = ['\\']) ∧
        (closed = true → tail = [] ∧ ∃ behind, rest = quote :: behind) := by
  have hopen {p : Prop} : false = true → p := fun h => absurd h Bool.false_ne_true
  fun_induction quotedBody quote cs generalizing n closed with
  | case1 =>
    cases h
    exact ⟨[], [], [], rfl, rfl, .nil, .inl rfl, hopen⟩
  | case2 cs =>
    cases h
    exact ⟨[], ['\\'], '\n' :: cs, rfl, rfl, .nil, .inr rfl, hopen⟩
  | case3 c cs hc m closed hbody ih =>
    cases h
    obtain ⟨t, tail, rest, rfl, rfl, ht, htail, hclosed⟩ := ih hbody
    exact ⟨'\\' :: c :: t, tail, rest, rfl, rfl, .escape hc ht, htail, hclosed⟩
  | case4 cs =>
    cases h
    exact ⟨[], [], quote :: cs, rfl, rfl, .nil, .inl rfl, fun _ => ⟨rfl, cs, rfl⟩⟩
  | case5 cs =>
    cases h
    exact ⟨[], [], '\n' :: cs, rfl, rfl, .nil, .inl rfl, hopen⟩
  | case6 c cs hmore hquote hline m closed hbody ih =>
    cases h
    by_cases hc : c = '\\'
    · -- The backslash is the last character.
      cases cs with
      | nil =>
        cases hbody
        exact ⟨[], [c], [], rfl, rfl, .nil, .inr (by rw [hc]), hopen⟩
      | cons d cs => exact absurd rfl (hmore d cs hc)
    · obtain ⟨t, tail, rest, rfl, rfl, ht, htail, hclosed⟩ := ih hbody
      exact ⟨c :: t, tail, rest, rfl, rfl, .raw hc hquote hline ht, htail, hclosed⟩

/-- A quoted text ends at the first quote that is not escaped. -/
theorem quotedBody_of_mem (hslash : quote ≠ '\\') (ht : t ∈ (inside quote)∗ * {[quote]})
    (h : t <+: cs) : quotedBody quote cs = (t.length - 1, true) := by
  obtain ⟨t, ht, _, rfl, rfl⟩ := ht
  obtain ⟨rest, rfl⟩ := h
  show quotedBody quote (t ++ [quote] ++ rest) = _
  rw [List.append_assoc, quotedBody_append (mem_inside.1 ht), List.singleton_append,
    quotedBody_quote hslash, List.length_append, List.length_singleton]
  simp

theorem longestPrefix_closed (hslash : quote ≠ '\\') (h : quotedBody quote cs = (n, true)) :
    LongestPrefix ((inside quote)∗ * {[quote]}) cs (n + 1) := by
  obtain ⟨t, tail, rest, rfl, rfl, ht, -, hclosed⟩ := quotedBody_take h
  obtain ⟨rfl, behind, rfl⟩ := hclosed rfl
  refine ⟨⟨t, mem_inside.2 ht, [quote], rfl, ?_⟩, ?_, fun text htext hfront => ?_⟩
  · rw [List.append_nil, List.take_length_add_append]
    rfl
  · simp
  · have heq := (quotedBody_of_mem hslash htext hfront).symm.trans h
    have := congrArg Prod.fst heq
    omega

theorem finds_none_closed (hslash : quote ≠ '\\') (h : quotedBody quote cs = (n, false)) :
    FindsLongest ((inside quote)∗ * {[quote]}) cs none := by
  intro text htext hfront
  rw [quotedBody_of_mem hslash htext hfront] at h
  cases h

theorem longestPrefix_unclosed (hslash : quote ≠ '\\') (cs : List Char) :
    LongestPrefix ((inside quote)∗ * (1 + {['\\']})) cs (quotedBody quote cs).1 := by
  have hbody : quotedBody quote cs = ((quotedBody quote cs).1, (quotedBody quote cs).2) := rfl
  obtain ⟨t, tail, rest, hcs, hn, ht, htail, -⟩ := quotedBody_take hbody
  refine ⟨?_, ?_, ?_⟩
  · rw [hn, hcs, List.take_left]
    exact Language.append_mem_mul (mem_inside.2 ht) htail
  · rw [hn, hcs]
    exact (List.prefix_append _ rest).length_le
  · rintro _ ⟨t, ht, tail, htail, rfl⟩ ⟨rest, rfl⟩
    show (t ++ tail).length ≤ (quotedBody quote (t ++ tail ++ rest)).1
    rw [List.append_assoc, quotedBody_append (mem_inside.1 ht), List.length_append, Nat.add_comm]
    refine Nat.add_le_add_right ?_ _
    rcases htail with rfl | rfl
    · exact Nat.zero_le _
    · exact quotedBody_slash_pos rest hslash

theorem finds_quoted (hslash : quote ≠ '\\') (cs : List Char) :
    FindsLongest (language (.quoted quote)) cs (match? (.quoted quote) cs) := by
  by_cases h : [quote] <+: cs
  · obtain ⟨rest, rfl⟩ := h
    simp only [List.singleton_append, match?, if_true]
    split
    · rename_i n hbody
      rw [Nat.add_comm n 2, Nat.add_assoc 1 1 n, Nat.add_comm 1 n]
      exact FindsLongest.spelled_mul (o := some _) (longestPrefix_closed hslash hbody) [quote]
    · rename_i n hbody
      exact FindsLongest.spelled_mul (finds_none_closed hslash hbody) [quote]
  · have hnone : match? (.quoted quote) cs = none := by
      cases cs with
      | nil => rfl
      | cons c cs => exact if_neg fun hc => h ⟨cs, by rw [hc]; rfl⟩
    rw [hnone]
    exact finds_none_mul (finds_none_spelled h)

theorem finds_unclosed (hslash : quote ≠ '\\') (cs : List Char) :
    FindsLongest (language (.unclosed quote)) cs (match? (.unclosed quote) cs) := by
  by_cases h : [quote] <+: cs
  · obtain ⟨rest, rfl⟩ := h
    simp only [List.singleton_append, match?, if_true]
    rw [Nat.add_comm]
    exact FindsLongest.spelled_mul (o := some _) (longestPrefix_unclosed hslash rest) [quote]
  · have hnone : match? (.unclosed quote) cs = none := by
      cases cs with
      | nil => rfl
      | cons c cs => exact if_neg fun hc => h ⟨cs, by rw [hc]; rfl⟩
    rw [hnone]
    exact finds_none_mul (finds_none_spelled h)

/-! ## Comments -/

theorem finds_lineComment (cs : List Char) :
    FindsLongest (language .lineComment) cs (match? .lineComment cs) := by
  by_cases h : ['/', '/'] <+: cs
  · obtain ⟨rest, rfl⟩ := h
    simp only [List.cons_append, List.nil_append, match?]
    rw [Nat.add_comm]
    exact FindsLongest.spelled_mul (o := some _) (longestPrefix_run _ rest) ['/', '/']
  · have hnone : match? .lineComment cs = none := by
      unfold match?
      split <;> first | rfl | cases ‹LexRule.lineComment = _›
      exact absurd (List.prefix_append ['/', '/'] _) h
    rw [hnone]
    exact finds_none_mul (finds_none_spelled h)

theorem finds_openComment (cs : List Char) :
    FindsLongest (language .openComment) cs (match? .openComment cs) := by
  by_cases h : ['/', '*'] <+: cs
  · obtain ⟨rest, rfl⟩ := h
    refine ⟨rfl, by simp, ?_⟩
    rintro _ rfl -
    rfl
  · have hnone : match? .openComment cs = none := by
      unfold match?
      split <;> first | rfl | cases ‹LexRule.openComment = _›
      exact absurd (List.prefix_append ['/', '*'] _) h
    rw [hnone]
    exact finds_none_spelled h

theorem comment_append (hs : t ∈ single (· ≠ '*') + stars * single fun c => c ≠ '*' && c ≠ '/')
    (htext : text ∈ comment) : t ++ text ∈ comment := by
  obtain ⟨front, hfront, mark, hmark, rfl⟩ := htext
  exact ⟨t ++ front, kstar_append hs hfront, mark, hmark, List.append_assoc _ _ _⟩

theorem replicate_mem_stars (k : Nat) : List.replicate (k + 1) '*' ∈ stars :=
  mem_repeated_single.2 ⟨List.cons_ne_nil _ _, fun _ hc =>
    decide_eq_true (List.eq_of_mem_replicate hc)⟩

theorem eq_replicate_of_mem_stars (h : t ∈ stars) : ∃ k, t = List.replicate (k + 1) '*' := by
  obtain ⟨hne, hall⟩ := mem_repeated_single.1 h
  obtain ⟨k, hk⟩ := Nat.exists_eq_succ_of_ne_zero (List.length_pos_iff.2 hne).ne'
  exact ⟨k, List.eq_replicate_iff.2 ⟨hk, fun c hc => of_decide_eq_true (hall c hc)⟩⟩

/-- Text that does not contain the closing mark, which may begin with stars, up to the mark. -/
theorem mem_comment_of_stars (k : Nat) (h : ¬['*', '/'] <:+: List.replicate k '*' ++ t) :
    List.replicate k '*' ++ t ++ ['*', '/'] ∈ comment := by
  induction t generalizing k with
  | nil =>
    refine ⟨[], kstar_nil, _, ⟨_, replicate_mem_stars k, ['/'], rfl, rfl⟩, ?_⟩
    simp [List.replicate_succ']
  | cons c t ih =>
    by_cases hc : c = '*'
    · have hstars : List.replicate k '*' ++ c :: t = List.replicate (k + 1) '*' ++ t := by
        rw [hc, List.replicate_succ', List.append_assoc]
        rfl
      rw [hstars] at h ⊢
      exact ih (k + 1) h
    · have hbehind : t ++ ['*', '/'] ∈ comment := ih 0 fun hinfix =>
        h ((List.infix_cons hinfix).trans (List.suffix_append _ _).isInfix)
      cases k with
      | zero => exact comment_append (t := [c]) (.inl ⟨c, decide_eq_true hc, rfl⟩) hbehind
      | succ k =>
        have hslash : c ≠ '/' := by
          rintro rfl
          refine h ⟨List.replicate k '*', t, ?_⟩
          simp [List.replicate_succ']
        have hpiece := comment_append (.inr ⟨_, replicate_mem_stars k, [c],
          ⟨c, by simp [hc, hslash], rfl⟩, rfl⟩) hbehind
        simpa using hpiece

theorem commentEnd?_cons (h : ¬['*', '/'] <+: c :: cs) :
    commentEnd? (c :: cs) = (commentEnd? cs).map (1 + ·) := by
  rw [commentEnd?]
  · simp only [Nat.add_comm]
  · rintro rest rfl rfl
    exact h (List.prefix_append ['*', '/'] rest)

theorem commentEnd?_other (hc : c ≠ '*') (cs : List Char) :
    commentEnd? (c :: cs) = (commentEnd? cs).map (1 + ·) :=
  commentEnd?_cons fun h => hc (List.cons_prefix_cons.1 h).1.symm

/-- Stars in front of another character. -/
theorem commentEnd?_stars (hc : c ≠ '*') (hslash : c ≠ '/') (k : Nat) (cs : List Char) :
    commentEnd? (List.replicate k '*' ++ c :: cs) = (commentEnd? cs).map (k + 1 + ·) := by
  induction k with
  | zero => exact (commentEnd?_other hc cs).trans (by rw [Nat.zero_add])
  | succ k ih =>
    rw [List.replicate_succ, List.cons_append, commentEnd?_cons, ih, Option.map_map]
    · refine congrArg (Option.map · _) (funext fun x => ?_)
      show 1 + (k + 1 + x) = k + 1 + 1 + x
      omega
    · cases k <;> simp [List.replicate_succ, hslash.symm]

/-- Stars in front of a slash. -/
theorem commentEnd?_mark (k : Nat) (cs : List Char) :
    commentEnd? (List.replicate (k + 1) '*' ++ '/' :: cs) = some (k + 2) := by
  induction k with
  | zero => rfl
  | succ k ih =>
    rw [List.replicate_succ, List.cons_append, commentEnd?_cons, ih]
    · rw [Option.map_some, Nat.add_comm]
    · simp [List.replicate_succ]

theorem commentEnd?_of_mem (ht : t ∈ comment) (rest : List Char) :
    commentEnd? (t ++ rest) = some t.length := by
  obtain ⟨front, hfront, _, ⟨s, hs, _, rfl, rfl⟩, rfl⟩ := ht
  obtain ⟨k, rfl⟩ := eq_replicate_of_mem_stars hs
  induction hfront using kstar_induction with
  | nil => simpa using commentEnd?_mark k rest
  | append s hs front hfront ih =>
    show commentEnd? (s ++ front ++ _ ++ rest) = some (s ++ front ++ _).length
    rw [List.append_assoc s front, List.append_assoc s, List.length_append]
    rcases hs with ⟨c, hc, rfl⟩ | ⟨_, hstars, _, ⟨c, hc, rfl⟩, rfl⟩
    · rw [List.singleton_append, commentEnd?_other (of_decide_eq_true hc), ih]
      rfl
    · obtain ⟨j, rfl⟩ := eq_replicate_of_mem_stars hstars
      simp only [Bool.and_eq_true, decide_eq_true_eq] at hc
      show commentEnd? (List.replicate (j + 1) '*' ++ [c] ++ _) = _
      rw [List.append_assoc, List.singleton_append, commentEnd?_stars hc.1 hc.2, ih]
      simp

theorem commentEnd?_take (h : commentEnd? cs = some n) :
    ∃ t rest, cs = t ++ ['*', '/'] ++ rest ∧ n = t.length + 2 ∧ ¬['*', '/'] <:+: t := by
  fun_induction commentEnd? cs generalizing n with
  | case1 rest =>
    cases h
    exact ⟨[], rest, rfl, rfl, by simp⟩
  | case2 c cs hmore ih =>
    obtain ⟨m, hm, rfl⟩ := Option.map_eq_some_iff.1 h
    obtain ⟨t, rest, rfl, rfl, ht⟩ := ih hm
    refine ⟨c :: t, rest, rfl, rfl, fun hinfix => ?_⟩
    rcases List.infix_cons_iff.1 hinfix with hfront | hinfix
    · obtain ⟨rfl, behind, rfl⟩ := List.cons_prefix_cons.1 hfront
      exact hmore _ rfl rfl
    · exact ht hinfix
  | case3 => cases h

theorem finds_blockComment (cs : List Char) :
    FindsLongest (language .blockComment) cs (match? .blockComment cs) := by
  by_cases h : ['/', '*'] <+: cs
  · obtain ⟨rest, rfl⟩ := h
    have hfinds : FindsLongest comment rest (commentEnd? rest) := by
      rcases hend : commentEnd? rest with _ | n
      · rintro t ht ⟨behind, rfl⟩
        rw [commentEnd?_of_mem ht] at hend
        cases hend
      · obtain ⟨t, behind, rfl, rfl, ht⟩ := commentEnd?_take hend
        refine ⟨?_, ?_, ?_⟩
        · rw [show t.length + 2 = (t ++ ['*', '/']).length by simp, List.take_left]
          exact mem_comment_of_stars 0 ht
        · simp
        · rintro text htext ⟨behind', hbehind⟩
          rw [← hbehind, commentEnd?_of_mem htext] at hend
          exact (Option.some.inj hend).le
    have hmatch : match? .blockComment (['/', '*'] ++ rest) = (commentEnd? rest).map (2 + ·) :=
      congrArg (Option.map · _) (funext fun n => Nat.add_comm n 2)
    rw [hmatch]
    exact FindsLongest.spelled_mul hfinds ['/', '*']
  · have hnone : match? .blockComment cs = none := by
      unfold match?
      split <;> first | rfl | cases ‹LexRule.blockComment = _›
      exact absurd (List.prefix_append ['/', '*'] _) h
    rw [hnone]
    exact finds_none_mul (finds_none_spelled h)

/-! ## All rules -/

/-- A rule matches the longest prefix of a text that is in its language. -/
theorem finds_match? {rule : LexRule} (hrule : rule ∈ all) (cs : List Char) :
    FindsLongest rule.language cs (rule.match? cs) := by
  simp only [all, List.mem_cons, List.not_mem_nil, or_false] at hrule
  rcases hrule with rfl | rfl | rfl | rfl | rfl | rfl | rfl | rfl | rfl | rfl | rfl | rfl
  · exact finds_repeated isBlank cs
  · exact finds_lineComment cs
  · exact finds_blockComment cs
  · exact finds_openComment cs
  · exact finds_unclosed (by decide) cs
  · exact finds_unclosed (by decide) cs
  · exact finds_quoted (by decide) cs
  · exact finds_quoted (by decide) cs
  · exact finds_number cs
  · exact finds_fraction cs
  · exact finds_word cs
  · exact finds_sign cs

theorem match?_of_mem {rule : LexRule} (hrule : rule ∈ all) (h : text ∈ rule.language) :
    rule.match? text = some text.length := by
  have hfinds := finds_match? hrule text
  rcases hn : rule.match? text with _ | n <;> rw [hn] at hfinds
  · exact absurd (List.prefix_refl text) (hfinds text h)
  · rw [hfinds.le.antisymm (hfinds.max text h (List.prefix_refl text))]

/-- The first character of a text tells which rules may match it. -/
theorem starts_of_mem {rule : LexRule} (hrule : rule ∈ all) (h : text ∈ rule.language) :
    ∃ c cs, text = c :: cs ∧ rule.starts c = true := by
  have hmatch := match?_of_mem hrule h
  obtain ⟨c, cs, rfl⟩ := List.exists_cons_of_ne_nil (List.length_pos_iff.1 (match?_pos hmatch))
  exact ⟨c, cs, rfl, starts_of_match? hmatch⟩

/-- The pairs of rules that match texts with the same first character. -/
def rivals : List (LexRule × LexRule) :=
  [(.lineComment, .blockComment), (.lineComment, .openComment), (.lineComment, .sign),
   (.blockComment, .openComment), (.blockComment, .sign), (.openComment, .sign),
   (.unclosed '"', .quoted '"'), (.unclosed '\'', .quoted '\''), (.fraction, .sign)]

theorem rivals_of_starts {rule other : LexRule} (hrule : rule ∈ all) (hother : other ∈ all)
    (h : rule.starts c = true) (h' : other.starts c = true) :
    rule = other ∨ (rule, other) ∈ rivals ∨ (other, rule) ∈ rivals := by
  have hothers : ∀ c ∈ otherStarts, ∀ rule ∈ all, ∀ other ∈ all, rule.starts c = true →
      other.starts c = true → rule = other ∨ (rule, other) ∈ rivals ∨ (other, rule) ∈ rivals := by
    -- As a test of the lists, so that the characters are not enumerated.
    have htest : (otherStarts.all fun c => all.all fun rule => all.all fun other =>
        !rule.starts c || !other.starts c ||
          decide (rule = other ∨ (rule, other) ∈ rivals ∨ (other, rule) ∈ rivals)) = true := by
      decide +kernel
    intro c hc rule hrule other hother h h'
    have hpair := List.all_eq_true.1 (List.all_eq_true.1 (List.all_eq_true.1 htest c hc) rule hrule)
      other hother
    simpa [h, h'] using hpair
  by_cases hword : isWordStart c = true
  · have heq : ∀ r ∈ all, r.starts c = true → r = .word := fun r hr hstarts => by
      by_contra hne
      rw [starts_of_wordStart hword hr hne] at hstarts
      cases hstarts
    exact .inl ((heq rule hrule h).trans (heq other hother h').symm)
  by_cases hdigit : c.isDigit = true
  · have heq : ∀ r ∈ all, r.starts c = true → r = .number := fun r hr hstarts => by
      by_contra hne
      rw [starts_of_isDigit hdigit hr hne] at hstarts
      cases hstarts
    exact .inl ((heq rule hrule h).trans (heq other hother h').symm)
  · refine hothers c (mem_otherStarts hrule ?_ ?_ h) rule hrule other hother h h'
    · rintro rfl
      exact hword h
    · rintro rfl
      exact hdigit h

theorem notMem_quoted (hslash : quote ≠ '\\') (h : text ∈ language (.unclosed quote)) :
    text ∉ language (.quoted quote) := by
  rintro ⟨_, rfl, t, ht, rfl⟩
  obtain ⟨_, rfl, t', ht', heq⟩ := h
  obtain rfl : t' = t := (List.cons.inj heq).2
  have hle := (longestPrefix_unclosed hslash t').max t' ht' (List.prefix_refl t')
  rw [quotedBody_of_mem hslash ht (List.prefix_refl t')] at hle
  -- The longest unclosed text ends in front of the quote.
  obtain ⟨_, -, _, rfl, rfl⟩ := ht
  simp at hle

/-- The signs that start like a comment or a number are too short. -/
theorem notMem_sign (h : text = '/' :: '/' :: t ∨ text = '/' :: '*' :: t ∨ text = '.' :: c :: t) :
    text ∉ language .sign := by
  have hslash : ∀ m : Mark, m.spelling.toList.head? = some '/' →
      m.spelling.toList = ['/'] ∨ m.spelling.toList = ['/', '='] := by
    intro m
    cases m <;> decide
  have hdot : ∀ m : Mark, m.spelling.toList.head? = some '.' → m.spelling.toList = ['.'] := by
    intro m
    cases m <;> decide
  rintro ⟨m, hm⟩
  rcases h with rfl | rfl | rfl
  · rcases hslash m (hm ▸ rfl) with heq | heq <;> rw [heq] at hm <;> cases hm
  · rcases hslash m (hm ▸ rfl) with heq | heq <;> rw [heq] at hm <;> cases hm
  · rw [hdot m (hm ▸ rfl)] at hm
    cases hm

theorem notMem_of_rivals {rule other : LexRule} (h : (rule, other) ∈ rivals)
    (ht : text ∈ rule.language) : text ∉ other.language := by
  simp only [rivals, List.mem_cons, Prod.mk.injEq, List.not_mem_nil, or_false] at h
  rcases h with ⟨rfl, rfl⟩ | ⟨rfl, rfl⟩ | ⟨rfl, rfl⟩ | ⟨rfl, rfl⟩ | ⟨rfl, rfl⟩ | ⟨rfl, rfl⟩ |
    ⟨rfl, rfl⟩ | ⟨rfl, rfl⟩ | ⟨rfl, rfl⟩
  · obtain ⟨_, rfl, t, -, rfl⟩ := ht
    rintro ⟨_, rfl, t', -, heq⟩
    cases heq
  · obtain ⟨_, rfl, t, -, rfl⟩ := ht
    rintro heq
    cases heq
  · obtain ⟨_, rfl, t, -, rfl⟩ := ht
    exact notMem_sign (c := '/') (.inl rfl)
  · obtain ⟨_, rfl, t, ht, rfl⟩ := ht
    rintro heq
    obtain rfl : t = [] := (List.cons.inj (List.cons.inj heq).2).2
    cases commentEnd?_of_mem ht []
  · obtain ⟨_, rfl, t, -, rfl⟩ := ht
    exact notMem_sign (c := '/') (.inr (.inl rfl))
  · obtain rfl := ht
    exact notMem_sign (c := '/') (.inr (.inl rfl))
  · exact notMem_quoted (by decide) ht
  · exact notMem_quoted (by decide) ht
  · obtain ⟨_, rfl, _, ⟨ds, hds, t, -, rfl⟩, rfl⟩ := ht
    obtain ⟨d, ds, rfl⟩ := List.exists_cons_of_ne_nil (mem_digits.1 hds).2
    exact notMem_sign (.inr (.inr rfl))

/-- No text is matched by two rules. -/
theorem eq_of_mem_language {rule other : LexRule} (hrule : rule ∈ all) (hother : other ∈ all)
    (h : text ∈ rule.language) (h' : text ∈ other.language) : rule = other := by
  obtain ⟨c, cs, rfl, hstarts⟩ := starts_of_mem hrule h
  obtain ⟨d, ds, heq, hstarts'⟩ := starts_of_mem hother h'
  obtain ⟨rfl, rfl⟩ := List.cons.inj heq
  rcases rivals_of_starts hrule hother hstarts hstarts' with heq | hrivals | hrivals
  · exact heq
  · exact absurd h' (notMem_of_rivals hrivals h)
  · exact absurd h (notMem_of_rivals hrivals h')

end LexRule

end ScriptEngine
