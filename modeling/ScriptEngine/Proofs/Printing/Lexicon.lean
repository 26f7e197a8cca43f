import Mathlib.Data.List.TakeWhile
import ScriptEngine.Proofs.Precedence.Lexemes

/-!
# Written forms

How numbers, names and texts are written, and what may stand between two tokens, each as a grammar of
its own beside the rules of the lexicon. The main statements say that the lexicon recognises them: a
number or a name is one lexeme (`IsNumeral.longest`, `longest_name`), a text between quotes is one lexeme
and stands for the text that was written (`Body.longest`, `Body.unescape`), and what stands between
tokens is skipped (`Gap.scan`).
-/

namespace ScriptEngine

open LexRule

/-! ## First characters -/

/-- The characters that start something other than a word or a number. -/
def otherStarts : List Char :=
  [' ', '\t', '\n', '\x0b', '\x0c', '/', '"', '\'', '.'] ++ spellings.filterMap (·.1.head?)

theorem mem_otherStarts {rule : LexRule} (hrule : rule ∈ all) (hword : rule ≠ .word)
    (hnumber : rule ≠ .number) {c : Char} (h : rule.starts c = true) : c ∈ otherStarts := by
  simp only [all, List.mem_cons, List.not_mem_nil, or_false] at hrule
  rcases hrule with rfl | rfl | rfl | rfl | rfl | rfl | rfl | rfl | rfl | rfl | rfl | rfl
  case inl =>
    simp only [starts, isBlank, Bool.or_eq_true, decide_eq_true_eq] at h
    rcases h with (((rfl | rfl) | rfl) | rfl) | rfl <;> decide
  case inr.inr.inr.inr.inr.inr.inr.inr.inr.inr.inr =>
    simp only [starts, List.any_eq_true, decide_eq_true_eq] at h
    obtain ⟨s, hs, hc⟩ := h
    exact List.mem_append_right _ (List.mem_filterMap.2 ⟨s, hs, hc⟩)
  all_goals first
    | exact absurd rfl hword
    | exact absurd rfl hnumber
    | simp only [starts, decide_eq_true_eq] at h
      subst h
      decide

/-- What holds of the ten digits. -/
theorem of_isDigit {p : Char → Prop} (hp : ∀ n ≤ 57, 48 ≤ n → p (Char.ofNat n)) {c : Char}
    (h : c.isDigit = true) : p c := by
  have hrange : 48 ≤ c.toNat ∧ c.toNat ≤ 57 := by
    simpa [Char.isDigit, UInt32.le_iff_toNat_le] using h
  rw [← Char.ofNat_toNat c]
  exact hp c.toNat hrange.2 hrange.1

theorem not_wordStart_of_isDigit {c : Char} (h : c.isDigit = true) : isWordStart c = false :=
  of_isDigit (p := fun c => isWordStart c = false) (by decide) h

/-- Only words start with a letter. -/
theorem starts_of_wordStart {c : Char} (hc : isWordStart c = true) {rule : LexRule}
    (hrule : rule ∈ all) (hne : rule ≠ .word) : rule.starts c = false := by
  have hnone : otherStarts.any isWordStart = false := by
    decide
  by_contra h
  rw [Bool.not_eq_false] at h
  by_cases hnumber : rule = .number
  · subst hnumber
    rw [not_wordStart_of_isDigit h] at hc
    cases hc
  · exact List.any_eq_false.1 hnone c (mem_otherStarts hrule hne hnumber h) hc

/-- Only numbers start with a digit. -/
theorem starts_of_isDigit {c : Char} (hc : c.isDigit = true) {rule : LexRule}
    (hrule : rule ∈ all) (hne : rule ≠ .number) : rule.starts c = false := by
  have hnone : otherStarts.any Char.isDigit = false := by
    decide
  by_contra h
  rw [Bool.not_eq_false] at h
  by_cases hword : rule = .word
  · subst hword
    rw [starts, not_wordStart_of_isDigit hc] at h
    cases h
  · exact List.any_eq_false.1 hnone c (mem_otherStarts hrule hword hne h) hc

/-! ## Names -/

/-- A name: a letter and letters or digits behind it. -/
def IsName : List Char → Prop
  | [] => False
  | c :: cs => isWordStart c = true ∧ ∀ d ∈ cs, isWordPart d = true

theorem longest_name {text : List Char} (h : IsName text) :
    longest text = some (.word, text.length) := by
  match text with
  | [] => exact h.elim
  | c :: cs =>
    obtain ⟨hc, hcs⟩ := h
    refine longest_of_starts (by decide) ?_ fun _ hrule hne => starts_of_wordStart hc hrule hne
    simp only [match?, hc, if_true, run, List.takeWhile_eq_self_iff.2 hcs, List.length_cons]

/-! ## Numbers -/

/-- Nothing but digits. -/
def Digits (ds : List Char) : Prop :=
  ∀ d ∈ ds, d.isDigit = true

/-- An exponent, or nothing. -/
inductive Exponent : List Char → Prop where
  | none : Exponent []
  | power {e : Char} {sign ds : List Char} (he : e = 'e' ∨ e = 'E')
      (hsign : sign = [] ∨ sign = ['+'] ∨ sign = ['-']) (hds : Digits ds) (hsome : ds ≠ []) :
      Exponent (e :: (sign ++ ds))

/-- A number in the decimal system: digits, of which there is at least one, with at most one point
among them, and an exponent. -/
inductive IsNumeral : List Char → Prop where
  | whole {ds e : List Char} (hds : Digits ds) (hsome : ds ≠ []) (he : Exponent e) : IsNumeral (ds ++ e)
  | point {ds fs e : List Char} (hds : Digits ds) (hfs : Digits fs) (hsome : ds ≠ [] ∨ fs ≠ [])
      (he : Exponent e) : IsNumeral (ds ++ '.' :: (fs ++ e))

section Number

variable {ds e rest : List Char}

theorem Digits.takeWhile (h : Digits ds) :
    (ds ++ rest).takeWhile Char.isDigit = ds ++ rest.takeWhile Char.isDigit :=
  List.takeWhile_append_of_pos h

theorem Digits.dropWhile (h : Digits ds) :
    (ds ++ rest).dropWhile Char.isDigit = rest.dropWhile Char.isDigit :=
  List.dropWhile_append_of_pos h

theorem Digits.run (h : Digits ds) : LexRule.run Char.isDigit ds = ds.length := by
  rw [LexRule.run, List.takeWhile_eq_self_iff.2 h]

/-- No sign starts digits. -/
theorem Digits.readSign (h : Digits ds) : readSign ds = (false, ds) := by
  unfold ScriptEngine.readSign
  split
  · cases h '-' List.mem_cons_self
  · cases h '+' List.mem_cons_self
  · rfl

/-- No digit and no point starts an exponent. -/
theorem Exponent.head (h : Exponent e) :
    e.takeWhile Char.isDigit = [] ∧ e.dropWhile Char.isDigit = e ∧ pointLength e = 0 := by
  cases h with
  | none => exact ⟨rfl, rfl, rfl⟩
  | power he => rcases he with rfl | rfl <;> exact ⟨rfl, rfl, rfl⟩

theorem Exponent.run (h : Exponent e) (hds : Digits ds) :
    LexRule.run Char.isDigit (ds ++ e) = ds.length := by
  rw [LexRule.run, hds.takeWhile, h.head.1, List.append_nil]

theorem Exponent.length (h : Exponent e) : exponentLength e = e.length := by
  cases h with
  | none => rfl
  | @power e sign ds he hsign hds hsome =>
    obtain ⟨d, ds, rfl⟩ := List.exists_cons_of_ne_nil hsome
    have hd : d.isDigit = true := hds d List.mem_cons_self
    have hplus : d ≠ '+' ∧ d ≠ '-' := by
      constructor <;> rintro rfl <;> cases hd
    rcases hsign with rfl | rfl | rfl
    · simp [exponentLength, he, hplus, hds.run]
    · simp [exponentLength, he, hds.run]
    · simp [exponentLength, he, hds.run]

theorem Exponent.read? (h : Exponent e) : ∃ x, Number.readExponent? e = some x := by
  cases h with
  | none => exact ⟨0, rfl⟩
  | @power e sign ds he hsign hds hsome =>
    obtain ⟨negative, hread⟩ : ∃ negative, readSign (sign ++ ds) = (negative, ds) := by
      rcases hsign with rfl | rfl | rfl
      · exact ⟨false, hds.readSign⟩
      · exact ⟨false, rfl⟩
      · exact ⟨true, rfl⟩
    have hall : ds.all Char.isDigit = true := List.all_eq_true.2 hds
    simp [Number.readExponent?, he, hread, hall, hsome]

theorem longest_digits (hds : Digits ds) (hsome : ds ≠ [])
    (hrun : LexRule.run Char.isDigit (ds ++ rest) = ds.length)
    (hlength : ds.length + pointLength ((ds ++ rest).drop ds.length) +
      exponentLength ((ds ++ rest).drop (ds.length + pointLength ((ds ++ rest).drop ds.length))) =
        (ds ++ rest).length) :
    longest (ds ++ rest) = some (.number, (ds ++ rest).length) := by
  obtain ⟨d, ds, rfl⟩ := List.exists_cons_of_ne_nil hsome
  refine longest_of_starts (by decide) ?_ fun _ hrule hne =>
    starts_of_isDigit (hds d List.mem_cons_self) hrule hne
  show match? .number (d :: ds ++ rest) = _
  rw [← hlength]
  simp only [match?, hrun, List.length_cons]

theorem longest_fraction {fs : List Char} (hsome : fs ≠ [])
    (hrun : LexRule.run Char.isDigit (fs ++ rest) = fs.length) {n : Nat}
    (hlength : fs.length + 1 + exponentLength ((fs ++ rest).drop fs.length) = n) :
    longest ('.' :: (fs ++ rest)) = some (.fraction, n) := by
  have hothers : ∀ other ∈ all, other ≠ .fraction → other ≠ .sign → other.starts '.' = false := by
    decide
  have hsigns : ∀ s ∈ spellings, s.1.head? = some '.' → s.1.length = 1 := by
    decide
  have hpos : 0 < fs.length := List.length_pos_iff.2 hsome
  refine longest_eq (by decide) ?_ fun other hother hne k hk => ?_
  · rcases hm : fs.length with _ | m <;> rw [hm] at hrun hlength hpos
    · cases hpos
    · rw [← hlength]
      simp only [match?, hrun]
  · by_cases hsign : other = .sign
    · subst hsign
      obtain ⟨s, hs, -, hhead, rfl⟩ := head_of_match?_sign hk
      rw [hsigns s hs hhead]
      omega
    · have hstarts := starts_of_match? hk
      rw [hothers other hother hne hsign] at hstarts
      cases hstarts

theorem IsNumeral.longest {text : List Char} (h : IsNumeral text) :
    longest text = some (.number, text.length) ∨ longest text = some (.fraction, text.length) := by
  cases h with
  | @whole ds e hds hsome he =>
    refine .inl (longest_digits hds hsome (he.run hds) ?_)
    rw [List.drop_left, he.head.2.2, Nat.add_zero, List.drop_left, he.length, List.length_append]
  | @point ds fs e hds hfs hsome he =>
    have hpoint : pointLength ('.' :: (fs ++ e)) = fs.length + 1 := congrArg (· + 1) (he.run hfs)
    by_cases hwhole : ds = []
    · subst hwhole
      refine .inr (longest_fraction (hsome.resolve_left (· rfl)) (he.run hfs) ?_)
      rw [List.drop_left, he.length]
      simp only [List.length_append, List.nil_append, List.length_cons]
      omega
    · have hrun : LexRule.run Char.isDigit (ds ++ '.' :: (fs ++ e)) = ds.length := by
        rw [LexRule.run, hds.takeWhile]
        simp
      refine .inl (longest_digits hds hwhole hrun ?_)
      have hcut : ds ++ '.' :: (fs ++ e) = (ds ++ '.' :: fs) ++ e := by simp
      have hlength : ds.length + (fs.length + 1) = (ds ++ '.' :: fs).length := by simp
      rw [List.drop_left, hpoint, hcut, hlength, List.drop_left, he.length, ← List.length_append]

/-- The first character of a number is no letter and no sign. -/
theorem IsNumeral.head {text : List Char} (h : IsNumeral text) :
    ∃ c cs, text = c :: cs ∧ c ≠ '-' ∧ c ≠ '+' ∧ c.toLower ≠ 'i' ∧ c.toLower ≠ 'n' := by
  have hdigit : ∀ c : Char, c.isDigit = true →
      c ≠ '-' ∧ c ≠ '+' ∧ c.toLower ≠ 'i' ∧ c.toLower ≠ 'n' := fun c =>
    of_isDigit (p := fun c => c ≠ '-' ∧ c ≠ '+' ∧ c.toLower ≠ 'i' ∧ c.toLower ≠ 'n') (by decide)
  have hcons : ∀ {ds rest : List Char}, Digits ds → ds ≠ [] → ∃ c cs, ds ++ rest = c :: cs ∧
      c ≠ '-' ∧ c ≠ '+' ∧ c.toLower ≠ 'i' ∧ c.toLower ≠ 'n' := by
    intro ds rest hds hsome
    obtain ⟨d, ds, rfl⟩ := List.exists_cons_of_ne_nil hsome
    exact ⟨d, ds ++ rest, rfl, hdigit d (hds d List.mem_cons_self)⟩
  cases h with
  | whole hds hsome => exact hcons hds hsome
  | @point ds fs e hds hfs =>
    by_cases hwhole : ds = []
    · subst hwhole
      exact ⟨'.', fs ++ e, rfl, by decide⟩
    · exact hcons hds hwhole

theorem IsNumeral.readDecimal? {text : List Char} (h : IsNumeral text) :
    ∃ x, Number.readDecimal? false text = some x := by
  cases h with
  | @whole ds e hds hsome he =>
    obtain ⟨x, hx⟩ := he.read?
    obtain ⟨htake, hdrop, -⟩ := he.head
    have hpart : ∀ rest, e ≠ '.' :: rest := by
      rintro rest rfl
      cases he with
      | power he => simp at he
    simp [Number.readDecimal?, hds.takeWhile, hds.dropWhile, htake, hdrop, hx, hsome]
  | @point ds fs e hds hfs hsome he =>
    obtain ⟨x, hx⟩ := he.read?
    obtain ⟨htake, hdrop, -⟩ := he.head
    have hsome' : ¬(ds = [] ∧ fs = []) := fun h => hsome.elim (· h.1) (· h.2)
    simp [Number.readDecimal?, hds.takeWhile, hds.dropWhile, hfs.takeWhile, hfs.dropWhile, htake,
      hdrop, hx, hsome']

/-- Every number that is written can be read. -/
theorem IsNumeral.read? {text : List Char} (h : IsNumeral text) : ∃ x, Number.read? text = some x := by
  obtain ⟨x, hx⟩ := h.readDecimal?
  obtain ⟨c, cs, rfl, hminus, hplus, hi, hn⟩ := h.head
  have hsign : readSign (c :: cs) = (false, c :: cs) := by
    unfold readSign
    split <;> simp_all
  have hword : ∀ (d : Char) (ds : List Char), c.toLower ≠ d →
      String.ofList ((c :: cs).map Char.toLower) ≠ String.ofList (d :: ds) := by
    intro d ds hd heq
    have hlist := String.ofList_injective heq
    simp only [List.map_cons, List.cons.injEq] at hlist
    exact hd hlist.1
  refine ⟨x, ?_⟩
  unfold Number.read?
  rw [hsign]
  dsimp only
  rw [if_neg, if_neg, hx]
  · exact hword 'n' ['a', 'n'] hn
  · rintro (heq | heq)
    · exact hword 'i' ['n', 'f'] hi heq
    · exact hword 'i' ['n', 'f', 'i', 'n', 'i', 't', 'y'] hi heq

end Number

/-! ## Texts between quotes -/

/-- The letters that stand behind a backslash for another character. -/
def escapeLetters : List (Char × Char) :=
  [('\\', '\\'), ('\'', '\''), ('"', '"'), ('n', '\n'), ('r', '\r'), ('t', '\t'), ('a', '\x07'),
   ('b', '\x08'), ('f', '\x0c'), ('v', '\x0b')]

theorem escape_of_mem {e c : Char} (h : (e, c) ∈ escapeLetters) :
    e ≠ 'x' ∧ e ≠ '\n' ∧ stringEscape? e = some c := by
  have hall : escapeLetters.all (fun x =>
      x.1 ≠ 'x' ∧ x.1 ≠ '\n' ∧ stringEscape? x.1 = some x.2) = true := by
    decide
  simpa using List.all_eq_true.1 hall _ h

/-- The four digits of a number in base sixteen. -/
def hexDigits (n : Nat) : List Char :=
  [n / 4096, n / 256 % 16, n / 16 % 16, n % 16].map Nat.digitChar

/-- A digit in base sixteen, whose letters may be of either case. -/
theorem hexDigit?_of_toLower {d : Char} {k : Nat} (hk : k < 16) (h : d.toLower = Nat.digitChar k) :
    Json.hexDigit? d = some k := by
  by_cases hupper : d.isUpper = true
  · have hrange : 65 ≤ d.toNat ∧ d.toNat ≤ 90 := by
      have hval : d.val ≥ 65 ∧ d.val ≤ 90 := of_decide_eq_true hupper
      simpa [UInt32.le_iff_toNat_le] using hval
    have hletters : ∀ n ≤ 90, 65 ≤ n → ∀ k < 16, (Char.ofNat n).toLower = Nat.digitChar k →
        Json.hexDigit? (Char.ofNat n) = some k := by
      decide
    rw [← Char.ofNat_toNat d] at h ⊢
    exact hletters _ hrange.2 hrange.1 k hk h
  · have hdigits : ∀ k < 16, Json.hexDigit? (Nat.digitChar k) = some k := by
      decide
    have hlower : d.toLower = d := dif_neg fun hval => hupper (decide_eq_true hval)
    rw [← hlower, h, hdigits k hk]

/-- Four digits that are the digits of a number have its value. -/
theorem hexValue_of_hexDigits {n : Nat} (hn : n < 0x10000) {ds : List Char}
    (h : ds.map Char.toLower = hexDigits n) :
    hexValue ds = n ∧ ds.length = 4 ∧ ∀ d ∈ ds, (Json.hexDigit? d).isSome = true := by
  have hlength : ds.length = 4 := by
    rw [← List.length_map (f := Char.toLower), h]
    rfl
  match ds, hlength with
  | [a, b, c, d], hlength =>
    simp only [hexDigits, List.map_cons, List.map_nil, List.cons.injEq, and_true] at h
    obtain ⟨ha, hb, hc, hd⟩ := h
    have ha := hexDigit?_of_toLower (by omega) ha
    have hb := hexDigit?_of_toLower (by omega) hb
    have hc := hexDigit?_of_toLower (by omega) hc
    have hd := hexDigit?_of_toLower (by omega) hd
    refine ⟨?_, hlength, by simp [ha, hb, hc, hd]⟩
    simp only [hexValue, List.foldl_cons, List.foldl_nil, ha, hb, hc, hd, Option.getD_some]
    omega

/-- How a character may be written between quotes. -/
inductive Written (quote : Char) : Char → List Char → Prop where
  | raw {c : Char} (hslash : c ≠ '\\') (hquote : c ≠ quote) (hline : c ≠ '\n') : Written quote c [c]
  | letter {e c : Char} (h : (e, c) ∈ escapeLetters) : Written quote c ['\\', e]
  | hex {c : Char} {ds : List Char} (hsmall : c.toNat < 0x10000)
      (hds : ds.map Char.toLower = hexDigits c.toNat) : Written quote c ('\\' :: 'x' :: ds)

/-- How a text may be written between quotes. -/
inductive Body (quote : Char) : List Char → List Char → Prop where
  | nil : Body quote [] []
  | cons {c : Char} {piece cs body : List Char} (hc : Written quote c piece) (h : Body quote cs body) :
      Body quote (c :: cs) (piece ++ body)

section Text

variable {quote c : Char} {piece cs body rest : List Char}

/-- A character that stands for itself. -/
theorem quotedBody_raw (hslash : c ≠ '\\') (hquote : c ≠ quote) (hline : c ≠ '\n')
    (rest : List Char) : LexRule.quotedBody quote (c :: rest) =
      ((LexRule.quotedBody quote rest).1 + 1, (LexRule.quotedBody quote rest).2) := by
  cases rest <;> simp [LexRule.quotedBody, hslash, hquote, hline]

theorem quotedBody_raws {ds : List Char} (h : ∀ d ∈ ds, d ≠ '\\' ∧ d ≠ quote ∧ d ≠ '\n')
    (rest : List Char) : LexRule.quotedBody quote (ds ++ rest) =
      (ds.length + (LexRule.quotedBody quote rest).1, (LexRule.quotedBody quote rest).2) := by
  induction ds with
  | nil => simp
  | cons d ds ih =>
    obtain ⟨⟨hslash, hquote, hline⟩, hds⟩ := List.forall_mem_cons.1 h
    rw [List.cons_append, quotedBody_raw hslash hquote hline, ih hds, List.length_cons]
    simp only [Prod.mk.injEq, and_true]
    omega

theorem Written.quotedBody (hquote : quote = '"' ∨ quote = '\'') (h : Written quote c piece)
    (rest : List Char) : LexRule.quotedBody quote (piece ++ rest) =
      (piece.length + (LexRule.quotedBody quote rest).1, (LexRule.quotedBody quote rest).2) := by
  cases h with
  | raw hslash hne hline =>
    rw [List.singleton_append, quotedBody_raw hslash hne hline, List.length_singleton, Nat.add_comm]
  | letter h =>
    obtain ⟨-, hline, -⟩ := escape_of_mem h
    simp [LexRule.quotedBody, hline, Nat.add_comm]
  | @hex c ds hsmall hds =>
    obtain ⟨-, -, hhex⟩ := hexValue_of_hexDigits hsmall hds
    have hraw : ∀ d ∈ ds, d ≠ '\\' ∧ d ≠ quote ∧ d ≠ '\n' := by
      intro d hd
      have hsome := hhex d hd
      refine ⟨?_, ?_, ?_⟩ <;> rintro rfl
      · cases hsome
      · rcases hquote with rfl | rfl <;> cases hsome
      · cases hsome
    simp [LexRule.quotedBody, quotedBody_raws hraw]
    omega

theorem unescapeBody_raw (hslash : c ≠ '\\') (rest : List Char) (offset : Nat) :
    unescapeBody (c :: rest) offset =
      (unescapeBody rest (offset + c.utf8Size)).map (c :: ·) := by
  conv_lhs => unfold unescapeBody
  split <;> simp_all

theorem Written.unescape (h : Written quote c piece) (rest : List Char) (offset : Nat) :
    ∃ next, unescapeBody (piece ++ rest) offset = (unescapeBody rest next).map (c :: ·) := by
  cases h with
  | raw hslash => exact ⟨_, unescapeBody_raw hslash rest offset⟩
  | @letter e _ h =>
    obtain ⟨hx, -, he⟩ := escape_of_mem h
    refine ⟨offset + 2, ?_⟩
    conv_lhs => unfold unescapeBody
    simp only [List.cons_append, List.nil_append, hx, he, if_false]
  | @hex c ds hsmall hds =>
    obtain ⟨hvalue, hlength, hhex⟩ := hexValue_of_hexDigits hsmall hds
    have hdigits : ((ds ++ rest).take 4).takeWhile (fun d => (Json.hexDigit? d).isSome) = ds := by
      rw [List.take_left' hlength, List.takeWhile_eq_self_iff.2 hhex]
    have hsome : ds.isEmpty = false := by
      cases ds <;> simp_all
    have hvalid : c.toNat.isValidChar := c.valid
    refine ⟨offset + 2 + ds.length, ?_⟩
    conv_lhs => unfold unescapeBody
    simp only [List.cons_append, hdigits, hvalue, hsome, hvalid, List.drop_left, Char.ofNat_toNat,
      if_true, decide_true, Bool.not_true, Bool.or_self, Bool.false_eq_true, if_false]

theorem Body.quotedBody (hquote : quote = '"' ∨ quote = '\'') (h : Body quote cs body)
    (rest : List Char) : LexRule.quotedBody quote (body ++ quote :: rest) = (body.length, true) := by
  induction h with
  | nil => rcases hquote with rfl | rfl <;> simp [LexRule.quotedBody]
  | cons hc _ ih =>
    rw [List.append_assoc, hc.quotedBody hquote, ih, List.length_append]

theorem Body.unescape (h : Body quote cs body) (offset : Nat) : unescapeBody body offset = .ok cs := by
  induction h generalizing offset with
  | nil => simp [unescapeBody]
  | cons hc _ ih =>
    obtain ⟨next, hnext⟩ := hc.unescape _ offset
    rw [hnext, ih]
    rfl

/-- A text between quotes is one lexeme. -/
theorem longest_quoted (hquote : quote = '"' ∨ quote = '\'')
    (hbody : LexRule.quotedBody quote (body ++ quote :: rest) = (body.length, true)) :
    longest (quote :: (body ++ quote :: rest)) = some (.quoted quote, body.length + 2) := by
  have hothers : ∀ other ∈ all, other ≠ .quoted quote → other ≠ .unclosed quote →
      other.starts quote = false := by
    rcases hquote with rfl | rfl <;> decide
  have hrule : .quoted quote ∈ all := by
    rcases hquote with rfl | rfl <;> decide
  refine longest_eq hrule (by simp [match?, hbody]) fun other hother hne k hk => ?_
  by_cases hopen : other = .unclosed quote
  · subst hopen
    simp only [match?, if_true, hbody, Option.some.injEq] at hk
    subst hk
    exact Nat.lt_succ_self _
  · have hstarts := starts_of_match? hk
    rw [hothers other hother hne hopen] at hstarts
    cases hstarts

theorem Body.longest (hquote : quote = '"' ∨ quote = '\'') (h : Body quote cs body)
    (rest : List Char) : longest (quote :: (body ++ quote :: rest)) =
      some (.quoted quote, body.length + 2) :=
  longest_quoted hquote (h.quotedBody hquote rest)

end Text

/-! ## Between tokens -/

/-- White space and closed comments. -/
inductive Gap : List Char → Prop where
  | none : Gap []
  | blank {b : Char} {gap : List Char} (hb : isBlank b = true) (h : Gap gap) : Gap (b :: gap)
  | line {comment gap : List Char} (hline : '\n' ∉ comment) (h : Gap gap) :
      Gap ('/' :: '/' :: (comment ++ '\n' :: gap))
  | block {comment gap : List Char} (hclosed : ¬['*', '/'] <:+: comment) (h : Gap gap) :
      Gap ('/' :: '*' :: (comment ++ '*' :: '/' :: gap))

/-- A comment is longer than the sign that starts it. -/
theorem longest_comment {c : Char} {cs : List Char} {rule : LexRule} {n : Nat} (hrule : rule ∈ all)
    (hc : c ≠ '=') (hmatch : rule.match? ('/' :: c :: cs) = some n) (hn : 1 < n)
    (hothers : ∀ other ∈ [.lineComment, .blockComment, .openComment], other ≠ rule →
      ∀ k, other.match? ('/' :: c :: cs) = some k → k < n) :
    longest ('/' :: c :: cs) = some (rule, n) := by
  have hslash : ∀ other ∈ all, other.starts '/' = true →
      other = .sign ∨ other ∈ [.lineComment, .blockComment, .openComment] := by
    decide
  have hsigns : ∀ s ∈ spellings, s.1.head? = some '/' → s.1 = ['/'] ∨ s.1 = ['/', '='] := by
    decide
  refine longest_eq hrule hmatch fun other hother hne k hk => ?_
  rcases hslash other hother (starts_of_match? hk) with rfl | hcomment
  · obtain ⟨s, hs, hprefix, hhead, rfl⟩ := head_of_match?_sign hk
    rcases hsigns s hs hhead with hs' | hs'
    · rwa [hs']
    · rw [hs', List.cons_prefix_cons, List.cons_prefix_cons] at hprefix
      exact absurd hprefix.2.1.symm hc
  · exact hothers other hcomment hne k hk

theorem longest_lineComment {comment : List Char} (h : '\n' ∉ comment) (rest : List Char) :
    longest ('/' :: '/' :: (comment ++ '\n' :: rest)) = some (.lineComment, comment.length + 2) := by
  have hrun : run (· ≠ '\n') (comment ++ '\n' :: rest) = comment.length := by
    rw [run_append (by decide), run, List.takeWhile_eq_self_iff.2]
    intro c hc
    simpa using ne_of_mem_of_not_mem hc h
  refine longest_comment (by decide) (by decide) (by simp only [match?, hrun]) (by omega)
    fun other hother hne k hk => ?_
  simp only [List.mem_cons, List.not_mem_nil, or_false] at hother
  rcases hother with rfl | rfl | rfl
  · exact absurd rfl hne
  · cases hk
  · cases hk

theorem commentEnd?_append {comment : List Char} (h : ¬['*', '/'] <:+: comment) (rest : List Char) :
    commentEnd? (comment ++ '*' :: '/' :: rest) = some (comment.length + 2) := by
  induction comment with
  | nil => rfl
  | cons c cs ih =>
    have hcs : ¬['*', '/'] <:+: cs := fun hinfix => h (List.infix_cons hinfix)
    rw [List.cons_append, commentEnd?, ih hcs]
    · rfl
    -- The comment is not closed at its first character.
    · rintro tail rfl htail
      cases cs with
      | nil => cases htail
      | cons d ds =>
        obtain ⟨rfl, -⟩ := List.cons.inj htail
        exact h ⟨[], ds, rfl⟩

theorem longest_blockComment {comment : List Char} (h : ¬['*', '/'] <:+: comment)
    (rest : List Char) : longest ('/' :: '*' :: (comment ++ '*' :: '/' :: rest)) =
      some (.blockComment, comment.length + 4) := by
  refine longest_comment (by decide) (by decide) (by simp only [match?, commentEnd?_append h]; rfl)
    (by omega) fun other hother hne k hk => ?_
  simp only [List.mem_cons, List.not_mem_nil, or_false] at hother
  rcases hother with rfl | rfl | rfl
  · cases hk
  · exact absurd rfl hne
  · cases hk
    omega

theorem scan_skipped {text rest : List Char} {rule : LexRule} (htext : text ≠ [])
    (h : longest (text ++ rest) = some (rule, text.length)) (hskip : rule.isSkipped = true)
    (offset : Nat) : scan (text ++ rest) offset = scan rest (offset + Text.byteSize text) := by
  rw [scan_of_longest htext h, if_pos hskip]

/-- What stands between two tokens is skipped. -/
theorem Gap.scan {gap : List Char} (h : Gap gap) (rest : List Char) (offset : Nat) :
    ∃ next, scan (gap ++ rest) offset = scan rest next := by
  induction h generalizing offset with
  | none => exact ⟨offset, rfl⟩
  | blank hb _ ih =>
    obtain ⟨next, hnext⟩ := ih (offset + 1)
    exact ⟨next, (scan_blank hb _ _).trans hnext⟩
  | @line comment gap hline _ ih =>
    have hcut : '/' :: '/' :: (comment ++ '\n' :: gap) ++ rest =
        '/' :: '/' :: comment ++ '\n' :: (gap ++ rest) := by simp
    obtain ⟨next, hnext⟩ := ih (offset + Text.byteSize ('/' :: '/' :: comment) + 1)
    refine ⟨next, ?_⟩
    have hlongest : longest ('/' :: '/' :: comment ++ '\n' :: (gap ++ rest)) =
        some (.lineComment, ('/' :: '/' :: comment).length) :=
      longest_lineComment hline (gap ++ rest)
    rw [hcut, scan_skipped (List.cons_ne_nil _ _) hlongest rfl, scan_blank (b := '\n') rfl, hnext]
  | @block comment gap hclosed _ ih =>
    have hcut : '/' :: '*' :: (comment ++ '*' :: '/' :: gap) ++ rest =
        '/' :: '*' :: (comment ++ ['*', '/']) ++ (gap ++ rest) := by simp
    obtain ⟨next, hnext⟩ := ih (offset + Text.byteSize ('/' :: '*' :: (comment ++ ['*', '/'])))
    have hlongest : longest ('/' :: '*' :: (comment ++ ['*', '/']) ++ (gap ++ rest)) =
        some (.blockComment, ('/' :: '*' :: (comment ++ ['*', '/'])).length) := by
      simpa using longest_blockComment hclosed (gap ++ rest)
    refine ⟨next, ?_⟩
    rw [hcut, scan_skipped (List.cons_ne_nil _ _) hlongest rfl, hnext]

end ScriptEngine
