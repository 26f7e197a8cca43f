import ScriptEngine.Native.String
import ScriptEngine.Proofs.Strings.Bytes

/-!
# Occurrences of a needle

A needle occurs in a text behind so many of its characters (`OccursAt`). The search gives the least
of these places (`find?_least`).

`indexOf` turns its start into an offset, looks for the bytes of the needle behind it, and counts the
characters in front of what it finds. UTF-8 says where a character starts, so that the bytes of the
needle are found where the needle is, and every cut is between two characters: the search among the
characters gives the same (`indexOf_eq`).
-/

namespace ScriptEngine.Text

/-- A needle occurs in a text behind so many of its characters. -/
def OccursAt (needle text : List Char) (k : ℕ) : Prop :=
  k ≤ text.length ∧ needle <+: text.drop k

variable {needle text : List Char} {c : Char} {k : ℕ}

theorem occursAt_zero : OccursAt needle text 0 ↔ needle <+: text := by
  simp [OccursAt]

theorem occursAt_succ : OccursAt needle (c :: text) (k + 1) ↔ OccursAt needle text k := by
  simp [OccursAt]

/-- The least place at which a needle occurs. -/
theorem find?_least (needle text : List Char) :
    match find? needle text with
    | some k => IsLeast {k | OccursAt needle text k} k
    | none => ∀ k, ¬ OccursAt needle text k := by
  induction text with
  | nil =>
    rcases needle with _ | ⟨d, needle⟩
    · exact ⟨occursAt_zero.2 List.nil_prefix, fun k _ => k.zero_le⟩
    · exact fun k hk => by simpa using hk.2
  | cons c text ih =>
    unfold find?
    split_ifs with hfront
    · exact ⟨occursAt_zero.2 (List.isPrefixOf_iff_prefix.1 hfront), fun k _ => k.zero_le⟩
    · have hzero : ¬ OccursAt needle (c :: text) 0 := fun h =>
        hfront (List.isPrefixOf_iff_prefix.2 (occursAt_zero.1 h))
      cases hfind : find? needle text with
      | none =>
        rw [hfind] at ih
        rintro (_ | k)
        · exact hzero
        · exact fun h => ih k (occursAt_succ.1 h)
      | some k =>
        rw [hfind] at ih
        refine ⟨occursAt_succ.2 ih.1, ?_⟩
        rintro (_ | j) hj
        · exact absurd hj hzero
        · exact Nat.succ_le_succ (ih.2 (occursAt_succ.1 hj))

theorem occursAt_drop {start : ℕ} (hstart : start ≤ text.length) :
    OccursAt needle (text.drop start) k ↔ OccursAt needle text (k + start) := by
  rw [OccursAt, OccursAt, List.drop_drop, List.length_drop, Nat.add_comm start k]
  exact and_congr_left fun _ => by omega

/-! ## Cuts -/

theorem ok_bind {ε α β : Type} (a : α) (f : α → Except ε β) : (Except.ok a >>= f) = f a := rfl

theorem slice_append {s : String} {front part behind : List Char}
    (hs : s.toList = front ++ part ++ behind) :
    slice s (byteSize front) (byteSize (front ++ part)) = .ok (String.ofList part) := by
  obtain rfl : s = String.ofList (front ++ part ++ behind) := by rw [← hs, String.ofList_toList]
  unfold slice
  rw [extract?_append]

/-- What is behind a first part of a text. -/
theorem slice_rest {s : String} {front behind : List Char} (hs : s.toList = front ++ behind) :
    slice s (byteSize front) (byteSize s.toList) = .ok (String.ofList behind) := by
  rw [hs]
  exact slice_append (by rw [hs, List.append_nil])

/-- The search by bytes is that by characters. -/
theorem indexOf_eq (s t : String) (start : ℕ) :
    indexOf s t start = .ok (if s.length < start then none
      else (find? t.toList (s.toList.drop start)).map (· + start)) := by
  unfold indexOf
  split_ifs with hlength
  · rfl
  have hstart : start ≤ s.toList.length := by
    rw [String.length_toList]
    omega
  have hbehind : slice s (byteOffset s.toList start) (byteSize s.toList) =
      .ok (String.ofList (s.toList.drop start)) := by
    rw [byteOffset_eq]
    exact slice_rest (List.take_append_drop start s.toList).symm
  dsimp only
  rw [hbehind, ok_bind, String.toList_ofList, find?_bytes]
  rcases hfind : find? t.toList (s.toList.drop start) with _ | k
  · rfl
  have hk : k ≤ (s.toList.drop start).length := by
    have hleast := find?_least t.toList (s.toList.drop start)
    rw [hfind] at hleast
    exact hleast.1.1
  have hplace : byteOffset s.toList start + byteSize ((s.toList.drop start).take k) =
      byteSize (s.toList.take (start + k)) := by
    rw [byteOffset_eq, ← byteSize_append, List.take_add]
  have hfront : slice s 0 (byteSize (s.toList.take (start + k))) =
      .ok (String.ofList (s.toList.take (start + k))) := by
    have hcut : s.toList = [] ++ s.toList.take (start + k) ++ s.toList.drop (start + k) := by
      rw [List.nil_append, List.take_append_drop]
    exact slice_append hcut
  have hcount : (s.toList.take (start + k)).length = k + start := by
    rw [List.length_drop] at hk
    rw [List.length_take, Nat.min_eq_left (by omega), Nat.add_comm]
  dsimp only [Option.map_some]
  rw [hplace, hfront, ok_bind, String.length_ofList, hcount]
  rfl

/-- The least place that is not in front of a start. -/
theorem indexOf_least (s t : String) (start : ℕ) :
    ∃ place, indexOf s t start = .ok place ∧
      match place with
      | some k => IsLeast {k | start ≤ k ∧ OccursAt t.toList s.toList k} k
      | none => ∀ k, start ≤ k → ¬ OccursAt t.toList s.toList k := by
  refine ⟨_, indexOf_eq s t start, ?_⟩
  split_ifs with hlength
  · intro k hk h
    have := h.1
    rw [String.length_toList] at this
    omega
  · have hstart : start ≤ s.toList.length := by
      rw [String.length_toList]
      omega
    have hfind := find?_least t.toList (s.toList.drop start)
    cases hcase : find? t.toList (s.toList.drop start) with
    | none =>
      rw [hcase] at hfind
      intro k hk h
      obtain ⟨j, rfl⟩ := Nat.exists_eq_add_of_le' hk
      exact hfind j ((occursAt_drop hstart).2 h)
    | some k =>
      rw [hcase] at hfind
      refine ⟨⟨Nat.le_add_left _ _, (occursAt_drop hstart).1 hfind.1⟩, fun j ⟨hj, h⟩ => ?_⟩
      obtain ⟨i, rfl⟩ := Nat.exists_eq_add_of_le' hj
      exact Nat.add_le_add_right (hfind.2 ((occursAt_drop hstart).2 h)) start

end ScriptEngine.Text
