import Mathlib.Computability.Language
import ScriptEngine.Token.Lexer

/-!
# The longest prefix in a language

A rule of a lexicon is a language, and what it matches at the front of a text is the longest prefix
of the text that is in the language. `FindsLongest` says that a length is that of this prefix, or
that no prefix is in the language.

**Sequences.** A greedy match of `a` and then of `b` is the longest match of `a * b` if a text of
`b` cannot begin earlier, inside the longest match of `a` (`LongestPrefix.mul`). It cannot if no
text of `b` begins with a character that stands there (`LongestPrefix.mul_of_head`), or if all texts
of `a` have one length (`FindsLongest.mul_of_length`).
-/

namespace ScriptEngine

open scoped Computability

/-- The longest prefix of a text that is in a language has this length. -/
structure LongestPrefix (l : Language Char) (cs : List Char) (n : Nat) : Prop where
  mem : cs.take n ∈ l
  le : n ≤ cs.length
  max : ∀ text ∈ l, text <+: cs → text.length ≤ n

/-- The length of the longest prefix of a text that is in a language, if there is one. -/
def FindsLongest (l : Language Char) (cs : List Char) : Option Nat → Prop
  | some n => LongestPrefix l cs n
  | none => ∀ text ∈ l, ¬text <+: cs

variable {l a b : Language Char} {cs s t : List Char} {c : Char} {n m : Nat} {o : Option Nat}
  {p : Char → Bool}

/-! ## Sequences -/

/-- A prefix that is as long as the longest one, and what is behind it. -/
theorem LongestPrefix.behind (ha : LongestPrefix a cs s.length) (h : s ++ t <+: cs) :
    t <+: cs.drop s.length := by
  obtain ⟨rest, rfl⟩ := h
  rw [List.append_assoc, List.drop_left]
  exact List.prefix_append t rest

theorem LongestPrefix.mul (ha : LongestPrefix a cs n) (hb : LongestPrefix b (cs.drop n) m)
    (hskip : ∀ s ∈ a, ∀ t ∈ b, s ++ t <+: cs → s.length < n → t = []) :
    LongestPrefix (a * b) cs (n + m) := by
  refine ⟨?_, ?_, ?_⟩
  · rw [List.take_add]
    exact Language.append_mem_mul ha.mem hb.mem
  · have hle := hb.le
    have hle' := ha.le
    rw [List.length_drop] at hle
    omega
  · rintro _ ⟨s, hs, t, ht, rfl⟩ hfront
    have hsn := ha.max s hs ((List.prefix_append s t).trans hfront)
    show (s ++ t).length ≤ _
    rw [List.length_append]
    rcases hsn.lt_or_eq with hlt | rfl
    · rw [hskip s hs t ht hfront hlt, List.length_nil]
      omega
    · have := hb.max t ht (ha.behind hfront)
      omega

/-- A character behind a prefix is in the text. -/
theorem getElem?_of_append (h : s ++ c :: t <+: cs) : cs[s.length]? = some c := by
  obtain ⟨rest, rfl⟩ := h
  simp

theorem LongestPrefix.mul_of_head (ha : LongestPrefix a cs n) (hb : LongestPrefix b (cs.drop n) m)
    (hhead : ∀ (i : Nat) c t, i < n → cs[i]? = some c → c :: t ∉ b) :
    LongestPrefix (a * b) cs (n + m) := by
  refine ha.mul hb fun s _ t ht hfront hlt => ?_
  cases t with
  | nil => rfl
  | cons c t => exact absurd ht (hhead s.length c t hlt (getElem?_of_append hfront))

/-- Texts of one length are matched, and then another language. -/
theorem FindsLongest.mul_of_length (hlength : ∀ s ∈ a, s.length = n) (hmem : cs.take n ∈ a)
    (hn : n ≤ cs.length) (hb : FindsLongest b (cs.drop n) o) :
    FindsLongest (a * b) cs (o.map (n + ·)) := by
  have ha : LongestPrefix a cs n := ⟨hmem, hn, fun s hs _ => (hlength s hs).le⟩
  cases o with
  | some m => exact ha.mul hb fun s hs _ _ _ hlt => absurd (hlength s hs) hlt.ne
  | none =>
    rintro _ ⟨s, hs, t, ht, rfl⟩ hfront
    obtain rfl := hlength s hs
    exact hb t ht (ha.behind hfront)

/-- A text that begins with a given one, and then another language. -/
theorem FindsLongest.spelled_mul (hb : FindsLongest b cs o) (s : List Char) :
    FindsLongest ({s} * b) (s ++ cs) (o.map (s.length + ·)) := by
  refine FindsLongest.mul_of_length (fun t ht => congrArg List.length ht) ?_ ?_ ?_
  · rw [List.take_left]
    rfl
  · rw [List.length_append]
    exact Nat.le_add_right _ _
  · rwa [List.drop_left]

theorem finds_none_mul (h : FindsLongest a cs none) : FindsLongest (a * b) cs none := by
  rintro _ ⟨s, hs, t, -, rfl⟩ hfront
  exact h s hs ((List.prefix_append s t).trans hfront)

theorem finds_none_spelled (h : ¬s <+: cs) : FindsLongest {s} cs none := by
  rintro _ rfl
  exact h

/-- What may be missing. -/
theorem FindsLongest.one_add (h : FindsLongest l cs o) : LongestPrefix (1 + l) cs (o.getD 0) := by
  cases o with
  | some n =>
    refine ⟨.inr h.mem, h.le, ?_⟩
    rintro text (rfl | htext) hfront
    · exact Nat.zero_le n
    · exact h.max text htext hfront
  | none =>
    refine ⟨.inl rfl, Nat.zero_le _, ?_⟩
    rintro text (rfl | htext) hfront
    · exact Nat.le_refl 0
    · exact absurd hfront (h text htext)

/-! ## Repeated characters -/

/-- The texts of a single character that satisfies `p`. -/
def single (p : Char → Bool) : Language Char :=
  {text | ∃ c, p c = true ∧ text = [c]}

/-- The texts of one or more texts of a language. -/
def repeated (l : Language Char) : Language Char :=
  l * l∗

theorem kstar_nil : [] ∈ l∗ :=
  Language.nil_mem_kstar l

theorem kstar_append (hs : s ∈ l) (ht : t ∈ l∗) : s ++ t ∈ l∗ := by
  obtain ⟨L, rfl, hL⟩ := Language.mem_kstar.1 ht
  exact Language.mem_kstar.2 ⟨s :: L, rfl, List.forall_mem_cons.2 ⟨hs, hL⟩⟩

/-- Induction on the number of texts. -/
@[elab_as_elim]
theorem kstar_induction {motive : (t : List Char) → t ∈ l∗ → Prop} (nil : motive [] kstar_nil)
    (append : ∀ s (hs : s ∈ l) t (ht : t ∈ l∗), motive t ht → motive (s ++ t) (kstar_append hs ht))
    {t : List Char} (h : t ∈ l∗) : motive t h := by
  obtain ⟨L, rfl, hL⟩ := Language.mem_kstar.1 h
  induction L with
  | nil => exact nil
  | cons s L ih =>
    obtain ⟨hs, hL⟩ := List.forall_mem_cons.1 hL
    exact append s hs L.flatten (Language.join_mem_kstar hL) (ih hL _)

theorem mem_single_kstar : t ∈ (single p)∗ ↔ ∀ c ∈ t, p c = true := by
  refine ⟨fun h => ?_, fun h => ?_⟩
  · induction h using kstar_induction with
    | nil => simp
    | append s hs t _ ih =>
      obtain ⟨c, hc, rfl⟩ := hs
      exact List.forall_mem_cons.2 ⟨hc, ih⟩
  · induction t with
    | nil => exact kstar_nil
    | cons c t ih =>
      obtain ⟨hc, ht⟩ := List.forall_mem_cons.1 h
      exact kstar_append (s := [c]) ⟨c, hc, rfl⟩ (ih ht)

theorem mem_repeated_single : t ∈ repeated (single p) ↔ t ≠ [] ∧ ∀ c ∈ t, p c = true := by
  refine ⟨?_, fun ⟨hne, h⟩ => ?_⟩
  · rintro ⟨_, ⟨c, hc, rfl⟩, s, hs, rfl⟩
    exact ⟨List.cons_ne_nil c s, List.forall_mem_cons.2 ⟨hc, mem_single_kstar.1 hs⟩⟩
  · obtain ⟨c, s, rfl⟩ := List.exists_cons_of_ne_nil hne
    obtain ⟨hc, hs⟩ := List.forall_mem_cons.1 h
    exact ⟨[c], ⟨c, hc, rfl⟩, s, mem_single_kstar.2 hs, rfl⟩

open LexRule

/-- A character in front of the end of a run. -/
theorem of_lt_run {i : Nat} (hi : i < run p cs) (hc : cs[i]? = some c) : p c = true := by
  obtain ⟨hlt, rfl⟩ := List.getElem?_eq_some_iff.1 hc
  rw [← (List.takeWhile_prefix p).getElem hi]
  exact List.all_eq_true.1 List.all_takeWhile _ (List.getElem_mem hi)

theorem take_run (p : Char → Bool) (cs : List Char) : cs.take (run p cs) = cs.takeWhile p :=
  (List.prefix_iff_eq_take.1 (List.takeWhile_prefix p)).symm

/-- No prefix all of whose characters satisfy `p` is longer than the run. -/
theorem length_le_run (ht : ∀ c ∈ t, p c = true) (h : t <+: cs) : t.length ≤ run p cs := by
  obtain ⟨rest, rfl⟩ := h
  rw [run, List.takeWhile_append_of_pos ht, List.length_append]
  exact Nat.le_add_right _ _

theorem longestPrefix_run (p : Char → Bool) (cs : List Char) :
    LongestPrefix (single p)∗ cs (run p cs) := by
  refine ⟨mem_single_kstar.2 fun c hc => ?_, (List.takeWhile_prefix p).length_le,
    fun text htext => length_le_run (mem_single_kstar.1 htext)⟩
  rw [take_run] at hc
  exact List.all_eq_true.1 List.all_takeWhile c hc

theorem finds_repeated (p : Char → Bool) (cs : List Char) :
    FindsLongest (repeated (single p)) cs (positive? (run p cs)) := by
  obtain ⟨hmem, hle, hmax⟩ := longestPrefix_run p cs
  have hmax' : ∀ text ∈ repeated (single p), text <+: cs → text.length ≤ run p cs :=
    fun text htext => hmax text (mem_single_kstar.2 (mem_repeated_single.1 htext).2)
  unfold positive?
  split
  · rename_i hzero
    intro text htext hfront
    have := hmax' text htext hfront
    exact (mem_repeated_single.1 htext).1 (List.eq_nil_of_length_eq_zero (by omega))
  · rename_i hpos
    refine ⟨mem_repeated_single.2 ⟨fun hnil => hpos ?_, mem_single_kstar.1 hmem⟩, hle, hmax'⟩
    rw [← List.length_take_of_le hle, hnil, List.length_nil]

end ScriptEngine
