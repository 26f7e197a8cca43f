import Mathlib.Computability.Language
import Mathlib.Tactic
import ScriptEngine.Text.Search

/-!
# Leftmost occurrences

The words of a language are looked for in a text from left to right. `Leftmost` says what such a
search has to find, without saying how: each occurrence starts as early as it can behind the one
before it, and nothing occurs behind the last one. Together with the gaps between them, the
occurrences make up the text (`Leftmost.restore`), the gaps are free of the words (`Leftmost.free`),
and if no word is the beginning of another one, there is one result (`Leftmost.unique`).

A search that goes from character to character gets its result from the end of the text on:
`Leftmost.here` if a word starts at the character, `Leftmost.push` if none does.
-/

namespace ScriptEngine.Text

variable {l : Language Char} {text rest last last' : List Char} {c : Char}

/-- An occurrence of a word, with the gap between it and the occurrence before. -/
structure Occurrence where
  gap : List Char
  word : List Char

variable {os os' : List Occurrence}

/-- The leftmost occurrences of words of a language in a text that do not overlap, and what is left
of the text behind them. -/
inductive Leftmost (l : Language Char) : List Char → List Occurrence → List Char → Prop
  | stop {text : List Char} (hnone : ∀ w ∈ l, ¬ w <:+: text) : Leftmost l text [] text
  | next {o : Occurrence} {rest last : List Char} {os : List Occurrence} (hword : o.word ∈ l)
      (hleft : ∀ w ∈ l, ∀ k < o.gap.length, ¬ w <+: (o.gap ++ o.word ++ rest).drop k)
      (hrest : Leftmost l rest os last) : Leftmost l (o.gap ++ o.word ++ rest) (o :: os) last

/-- The text that occurrences and their gaps make up. -/
def spelled (os : List Occurrence) : List Char :=
  os.flatMap fun o => o.gap ++ o.word

/-- The gaps of occurrences, and what is left behind them. -/
def gaps (os : List Occurrence) (last : List Char) : List (List Char) :=
  os.map (·.gap) ++ [last]

/-- Puts a character in front of the first gap. -/
def pushGap (c : Char) : List Occurrence → List Occurrence
  | [] => []
  | o :: os => { o with gap := c :: o.gap } :: os

/-- Puts a character in front of what is left, if there are no occurrences in front of it. -/
def pushLast (c : Char) (last : List Char) : List Occurrence → List Char
  | [] => c :: last
  | _ :: _ => last

/-- The words of a language are told apart by any texts that start with them. -/
def PrefixFree (l : Language Char) : Prop :=
  ∀ v ∈ l, ∀ w ∈ l, ∀ s t, v ++ s = w ++ t → v = w

theorem prefixFree_singleton (w : List Char) : PrefixFree {w} := by
  rintro _ rfl _ rfl s t -
  rfl

namespace Leftmost

/-- The occurrences, their gaps and the rest are the whole text. -/
theorem restore (h : Leftmost l text os last) : spelled os ++ last = text := by
  induction h with
  | stop => rfl
  | next hword hleft hrest ih => simp [spelled, ← ih]

theorem word_mem (h : Leftmost l text os last) : ∀ o ∈ os, o.word ∈ l := by
  induction h with
  | stop => nofun
  | next hword hleft hrest ih => exact List.forall_mem_cons.2 ⟨hword, ih⟩

/-- No word occurs in a gap, or in what is left. -/
theorem free (h : Leftmost l text os last) (hl : [] ∉ l) :
    ∀ gap ∈ gaps os last, ∀ w ∈ l, ¬ w <:+: gap := by
  induction h with
  | stop hnone => simpa [gaps] using hnone
  | @next o rest last os hword hleft hrest ih =>
    refine List.forall_mem_cons.2 ⟨fun w hw hinfix => ?_, ih⟩
    obtain ⟨s, t, hgap : s ++ w ++ t = o.gap⟩ := hinfix
    have hne : w ≠ [] := fun hnil => hl (hnil ▸ hw)
    have hlt : s.length < o.gap.length := by
      rw [← hgap]
      simp [List.length_pos_iff.2 hne]
    refine hleft w hw s.length hlt ⟨t ++ (o.word ++ rest), ?_⟩
    simp [← hgap]

/-- A search finds nothing exactly if nothing occurs. -/
theorem eq_nil_iff (h : Leftmost l text os last) : os = [] ↔ ∀ w ∈ l, ¬ w <:+: text := by
  cases h with
  | stop hnone => exact iff_of_true rfl hnone
  | @next o rest last os hword hleft hrest =>
    refine iff_of_false (List.cons_ne_nil _ _) fun hnone => hnone o.word hword ?_
    exact List.infix_append o.gap o.word rest

/-! ## From character to character -/

theorem here {w : List Char} (hw : w ∈ l) (h : Leftmost l rest os last) :
    Leftmost l (w ++ rest) (⟨[], w⟩ :: os) last :=
  .next (o := ⟨[], w⟩) hw (fun _ _ k hk => absurd hk k.not_lt_zero) h

theorem push (hstart : ∀ w ∈ l, ¬ w <+: c :: text) (h : Leftmost l text os last) :
    Leftmost l (c :: text) (pushGap c os) (pushLast c last os) := by
  cases h with
  | stop hnone =>
    refine .stop fun w hw hinfix => ?_
    rcases List.infix_cons_iff.1 hinfix with hfront | hbehind
    · exact hstart w hw hfront
    · exact hnone w hw hbehind
  | @next o rest last os hword hleft hrest =>
    refine .next (o := { o with gap := c :: o.gap }) hword (fun w hw k hk => ?_) hrest
    rcases k with _ | k
    · exact hstart w hw
    · exact hleft w hw k (Nat.lt_of_succ_lt_succ hk)

/-! ## Uniqueness -/

/-- An occurrence in a text does not start in front of its first one. -/
theorem length_gap_le {o : Occurrence} {gap w : List Char} (hw : w ∈ l)
    (hleft : ∀ w ∈ l, ∀ k < o.gap.length, ¬ w <+: text.drop k) (htext : gap ++ w ++ rest = text) :
    o.gap.length ≤ gap.length := by
  by_contra hlt
  refine hleft w hw gap.length (by omega) ⟨rest, ?_⟩
  rw [← htext, List.append_assoc, List.drop_left]

/-- If the words are told apart by the texts that start with them, a text has one list of leftmost
occurrences. -/
theorem unique (hl : PrefixFree l) (h : Leftmost l text os last) (h' : Leftmost l text os' last') :
    os' = os ∧ last' = last := by
  induction h generalizing os' last' with
  | stop hnone =>
    obtain rfl := h'.eq_nil_iff.2 hnone
    exact ⟨rfl, h'.restore⟩
  | @next o rest last os hword hleft hrest ih =>
    generalize htext : o.gap ++ o.word ++ rest = text at h' hleft
    cases h' with
    | stop hnone => exact absurd (htext ▸ List.infix_append o.gap o.word rest) (hnone o.word hword)
    | @next o' rest' last' os' hword' hleft' hrest' =>
      have hlength : o.gap.length = o'.gap.length :=
        Nat.le_antisymm (length_gap_le hword' hleft rfl) (length_gap_le hword hleft' htext)
      rw [List.append_assoc, List.append_assoc] at htext
      obtain ⟨hgap, hbehind⟩ := List.append_inj htext hlength
      have hsame : o.word = o'.word := hl _ hword _ hword' rest rest' hbehind
      rw [hsame] at hbehind
      obtain rfl := List.append_cancel_left hbehind
      obtain ⟨rfl, rfl⟩ := ih hrest'
      obtain ⟨gap, word⟩ := o
      obtain rfl : gap = o'.gap := hgap
      obtain rfl : word = o'.word := hsame
      exact ⟨rfl, rfl⟩

end Leftmost

end ScriptEngine.Text
