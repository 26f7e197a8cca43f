import ScriptEngine.Engine.Install
import ScriptEngine.Proofs.NumberValue
import ScriptEngine.Proofs.Strings.Occurrences
import ScriptEngine.Proofs.Tame

/-!
# Searching a string

**Theorem (`indexOf_finds_first_occurrence`).** The member `indexOf` of a string gives the first
place, counted in characters, that is not in front of the start and at which the needle occurs, and
-1 if there is no such place. The member `substring` cuts the needle out again there, if the place and
the length of the needle are numbers that it can read.

Members read whole numbers in 32 bits, and a number that does not fit is read as the nearest one that
does. A place that fits is read back from the number that it was given as (`Value.readsAs_ofNat`), so
that the result of one member can be passed on to the other. No number is read as a place behind 2 ^ 31
characters, and a needle that `indexOf` finds there is not what `substring` cuts out
(`substring_misses_far_occurrence`).
-/

namespace ScriptEngine

open Text

/-! ## Arguments -/

/-- A value is read as a whole number by the members that take one. -/
def Value.ReadsAs (v : Value) (i : ℤ) : Prop :=
  v.toInt32.map Int32.toInt = .ok i

/-- A natural number is read as the nearest one below 2 ^ 31. -/
theorem Value.readsAs_min {n : ℕ} (hn : n < 2 ^ 53) :
    (Value.ofNat n).ReadsAs (min (2 ^ 31 - 1 : ℤ) n) := by
  have hvalue := Number.ofInt_value (i := n) (by omega)
  have hfinite := Number.ofInt_isFinite (i := n) (by omega)
  have hfield : (Number.ofInt n).exponentField ≠ 2047 := (of_decide_eq_true hfinite).ne
  have hinfinite : (Number.ofInt n).isInfinite = false := by simp [Number.isInfinite, hfield]
  have hclamp : max Int32.minValue.toInt (min Int32.maxValue.toInt n) = min (2 ^ 31 - 1 : ℤ) n := by
    have hlow : Int32.minValue.toInt = -2 ^ 31 := rfl
    have hhigh : Int32.maxValue.toInt = 2 ^ 31 - 1 := rfl
    omega
  change Except.ok (Number.ofInt n).toInt32.toInt = _
  rw [Number.toInt32, Number.isNaN_of_isFinite hfinite, hinfinite, Number.truncate_of_value hvalue,
    hclamp]
  exact congrArg Except.ok (Int32.toInt_ofInt_of_le (by omega) (by omega))

/-- A natural number below 2 ^ 31 is read as itself. -/
theorem Value.readsAs_ofNat {n : ℕ} (hn : n < 2 ^ 31) : (Value.ofNat n).ReadsAs n := by
  have hmin := Value.readsAs_min (n := n) (by omega)
  rwa [min_eq_right (by omega)] at hmin

namespace Script

variable {e : Engine} {s : String} {args : Array Value}

theorem require_ok (name : String) {n : ℕ} (hargs : n ≤ args.size) :
    require name args n e = .ok () e := by
  unfold require
  rw [if_neg (by omega)]
  rfl

theorem toInt_ok {v : Value} {i : ℤ} (hv : v.ReadsAs i) : toInt v e = .ok i e := by
  unfold Value.ReadsAs at hv
  unfold toInt
  cases hread : v.toInt32 with
  | error cause =>
    rw [hread] at hv
    cases hv
  | ok n =>
    rw [hread] at hv
    rw [← Except.ok.inj hv]
    rfl

/-- The number that stands for the place of a needle. -/
def placeNumber : Option ℕ → Value
  | some k => .ofNat k
  | none => .ofInt (-1)

theorem runString_indexOf (hargs : 1 ≤ args.size) {start : ℤ}
    (hstart : (argument args 1).ReadsAs start) {place : Option ℕ}
    (hplace : indexOf s (e.heap.text (argument args 0)) start.toNat = .ok place) :
    runString (.str s) args .indexOf e = .ok (placeNumber place) e := by
  change (require "indexOf" args 1 >>= fun _ => _) e = _
  rw [bind_apply, require_ok "indexOf" hargs]
  change (toInt (argument args 1) >>= _) e = _
  rw [bind_apply, toInt_ok hstart]
  change (ofExcept (indexOf s (e.heap.text (argument args 0)) start.toNat) >>= _) e = _
  rw [bind_apply, hplace]
  cases place <;> rfl

/-- The characters from a place on, as many as are asked for. -/
theorem runString_substring {a b : Value} {k n : ℕ} (ha : a.ReadsAs k) (hb : b.ReadsAs n)
    (hlength : k + n ≤ s.toList.length) :
    runString (.str s) #[a, b] .substring e =
      .ok (.str (String.ofList ((s.toList.drop k).take n))) e := by
  change (toInt a >>= _) e = _
  rw [bind_apply, toInt_ok ha]
  dsimp only
  rw [if_neg (by omega)]
  change (toInt b >>= _) e = _
  rw [bind_apply, toInt_ok hb]
  dsimp only
  rw [if_neg (by simp only [List.length_drop, Int.toNat_natCast]; omega)]
  rfl

/-- Where a needle occurs, `substring` cuts it out. -/
theorem runString_substring_of_occursAt {a b : Value} {needle : String} {k : ℕ}
    (h : OccursAt needle.toList s.toList k) (ha : a.ReadsAs k) (hb : b.ReadsAs needle.length) :
    runString (.str s) #[a, b] .substring e = .ok (.str needle) e := by
  obtain ⟨hk, rest, hrest⟩ := h
  have hlength : k + needle.length ≤ s.toList.length := by
    have := congrArg List.length hrest
    simp only [List.length_append, List.length_drop, String.length_toList] at this
    simp only [String.length_toList] at hk ⊢
    omega
  rw [runString_substring ha hb hlength, ← hrest, ← String.length_toList, List.take_left,
    String.ofList_toList]

end Script

/-! ## The main result -/

/-- The places of a string at which `indexOf` can find a needle. -/
def occurrencesFrom (s needle : String) (start : ℤ) : Set ℕ :=
  {k | max 0 start ≤ k ∧ OccursAt needle.toList s.toList k}

/-- `indexOf` gives the number of the least place, or that of no place. -/
theorem exists_place (e : Engine) (s : String) {args : Array Value} (hargs : 1 ≤ args.size)
    {start : ℤ} (hstart : (Script.argument args 1).ReadsAs start) :
    let places := occurrencesFrom s (e.heap.text (Script.argument args 0)) start
    ∃ place, Script.runString (.str s) args .indexOf e = .ok (Script.placeNumber place) e ∧
      match place with
      | some k => IsLeast places k
      | none => places = ∅ := by
  intro places
  have hplaces : places = {k | start.toNat ≤ k ∧
      OccursAt (e.heap.text (Script.argument args 0)).toList s.toList k} := by
    ext k
    exact and_congr_left fun _ => by omega
  obtain ⟨place, hplace, hleast⟩ :=
    indexOf_least s (e.heap.text (Script.argument args 0)) start.toNat
  refine ⟨place, Script.runString_indexOf hargs hstart hplace, ?_⟩
  rw [hplaces]
  cases place with
  | none => exact Set.eq_empty_of_forall_notMem fun k hk => hleast k hk.1 hk.2
  | some k => exact hleast

/-- `indexOf` gives the least place of the needle that is not in front of the start, or -1. At the
place that it gives, `substring` cuts out the needle. -/
theorem indexOf_finds_first_occurrence (e : Engine) (s : String) {args : Array Value}
    (hargs : 1 ≤ args.size) {start : ℤ} (hstart : (Script.argument args 1).ReadsAs start) :
    let needle := e.heap.text (Script.argument args 0)
    (∃ k, IsLeast (occurrencesFrom s needle start) k ∧
      Script.runString (.str s) args .indexOf e = .ok (.ofNat k) e ∧
      (∀ a b e', a.ReadsAs k → b.ReadsAs needle.length →
        Script.runString (.str s) #[a, b] .substring e' = .ok (.str needle) e') ∧
      (k < 2 ^ 31 → needle.length < 2 ^ 31 →
        Script.runString (.str s) #[.ofNat k, .ofNat needle.length] .substring e =
          .ok (.str needle) e)) ∨
    (occurrencesFrom s needle start = ∅ ∧
      Script.runString (.str s) args .indexOf e = .ok (.ofInt (-1)) e) := by
  intro needle
  obtain ⟨place, hrun, hplace⟩ := exists_place e s hargs hstart
  cases place with
  | none => exact .inr ⟨hplace, hrun⟩
  | some k =>
    have hcut : ∀ a b e', a.ReadsAs k → b.ReadsAs needle.length →
        Script.runString (.str s) #[a, b] .substring e' = .ok (.str needle) e' := fun a b e' =>
      Script.runString_substring_of_occursAt hplace.1.2
    exact .inl ⟨k, hplace, hrun, hcut, fun hk hneedle =>
      hcut _ _ e (Value.readsAs_ofNat hk) (Value.readsAs_ofNat hneedle)⟩

/-- Characters of one, two and four bytes stand in front of the occurrence behind the start. -/
theorem indexOf_finds_first_occurrence_multiByte :
    (1 ≤ #[Value.str "éb", .ofNat 2].size ∧ (Value.ofNat 2).ReadsAs 2) ∧
      IsLeast (occurrencesFrom "aéb😀éb" "éb" 2) 4 ∧
      Script.runString (.str "aéb😀éb") #[.str "éb", .ofNat 2] .indexOf (.bare {}) =
        .ok (.ofNat 4) (.bare {}) ∧
      Script.runString (.str "aéb😀éb") #[.ofNat 4, .ofNat 2] .substring (.bare {}) =
        .ok (.str "éb") (.bare {}) := by
  have hstart : (Value.ofNat 2).ReadsAs 2 := Value.readsAs_ofNat (by decide)
  have hplace : 4 ∈ occurrencesFrom "aéb😀éb" "éb" 2 := ⟨by decide, by decide, by decide⟩
  have hargs : 1 ≤ #[Value.str "éb", .ofNat 2].size := by decide
  rcases indexOf_finds_first_occurrence (.bare {}) "aéb😀éb" hargs hstart with
    ⟨k, hleast, hrun, -, hcut⟩ | ⟨hnone, -⟩
  · have hk : k ≤ 4 := hleast.2 hplace
    have h2 : 2 ≤ k := by exact_mod_cast hleast.1.1
    have hmem := hleast.1.2.2
    interval_cases k
    · exact absurd hmem (by decide)
    · exact absurd hmem (by decide)
    · exact ⟨⟨hargs, hstart⟩, hleast, hrun, hcut (by decide) (by decide)⟩
  · exact absurd hplace (hnone ▸ Set.notMem_empty 4)

/-- A letter behind `n` other ones. -/
def farLetter (n : ℕ) : String :=
  String.ofList (List.replicate n 'a' ++ ['b'])

theorem toList_farLetter (n : ℕ) : (farLetter n).toList = List.replicate n 'a' ++ ['b'] :=
  String.toList_ofList

theorem isLeast_occurrencesFrom_farLetter (n : ℕ) :
    IsLeast (occurrencesFrom (farLetter n) "b" 0) n := by
  refine ⟨⟨by simp, ?_⟩, fun k hk => ?_⟩
  · rw [toList_farLetter]
    exact ⟨by simp, by simp [List.drop_left']⟩
  · obtain ⟨rest, hrest⟩ := hk.2.2
    rw [toList_farLetter] at hrest
    by_contra hlt
    have hfront : (List.replicate n 'a' ++ ['b'])[k]? = some 'a' := by
      rw [List.getElem?_append_left (by simpa using hlt), List.getElem?_replicate_of_lt (by omega)]
    have hhead := congrArg (·[0]?) hrest
    simp only [List.getElem?_drop, Nat.add_zero, hfront] at hhead
    cases hhead

theorem substring_misses_farLetter {n : ℕ} (hfar : 2 ^ 31 ≤ n) (hn : n < 2 ^ 53) :
    IsLeast (occurrencesFrom (farLetter n) "b" 0) n ∧
      Script.runString (.str (farLetter n)) #[.str "b", .ofNat 0] .indexOf (.bare {}) =
        .ok (.ofNat n) (.bare {}) ∧
      Script.runString (.str (farLetter n)) #[.ofNat n, .ofNat 1] .substring (.bare {}) =
        .ok (.str "a") (.bare {}) := by
  have hleast := isLeast_occurrencesFrom_farLetter n
  refine ⟨hleast, ?_, ?_⟩
  · have hargs : 1 ≤ #[Value.str "b", .ofNat 0].size := by decide
    have hzero : (Value.ofNat 0).ReadsAs 0 := Value.readsAs_ofNat (by decide)
    obtain ⟨place, hrun, hplace⟩ := exists_place (.bare {}) (farLetter n) hargs hzero
    cases place with
    | none => exact absurd (hplace ▸ hleast.1) (Set.notMem_empty n)
    | some k => rwa [hplace.unique hleast] at hrun
  · have hlast : (Value.ofNat n).ReadsAs (2 ^ 31 - 1 : ℕ) := by
      have hmin := Value.readsAs_min hn
      rwa [min_eq_left (by omega)] at hmin
    have hone : (Value.ofNat 1).ReadsAs (1 : ℕ) := Value.readsAs_ofNat (by decide)
    have hletter : ((farLetter n).toList.drop (2 ^ 31 - 1)).take 1 = ['a'] := by
      rw [toList_farLetter, List.drop_append_of_le_length (by simp; omega), List.drop_replicate,
        List.take_append_of_le_length (by simp; omega), List.take_replicate, Nat.min_eq_left (by omega)]
      rfl
    rw [Script.runString_substring hlast hone (by simp [toList_farLetter]; omega), hletter]

/-- Behind 2 ^ 31 letters, `indexOf` finds another letter, but `substring` reads its place as the one
in front of it. -/
theorem substring_misses_far_occurrence :
    IsLeast (occurrencesFrom (farLetter (2 ^ 31)) "b" 0) (2 ^ 31) ∧
      Script.runString (.str (farLetter (2 ^ 31))) #[.str "b", .ofNat 0] .indexOf (.bare {}) =
        .ok (.ofNat (2 ^ 31)) (.bare {}) ∧
      Script.runString (.str (farLetter (2 ^ 31))) #[.ofNat (2 ^ 31), .ofNat 1] .substring (.bare {}) =
        .ok (.str "a") (.bare {}) :=
  substring_misses_farLetter (by decide) (by decide)

end ScriptEngine
