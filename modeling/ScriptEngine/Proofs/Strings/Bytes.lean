import Mathlib.Tactic
import ScriptEngine.Text.Bytes
import ScriptEngine.Text.Search

/-!
# Offsets into texts

An offset cuts a text if some first part of the text has that many bytes (`cut?_eq_some`), so that a
slice is what stands between two first parts (`slice?_eq_some`), and the offset of a character is the
size of the characters in front of it (`byteOffset_eq`).

UTF-8 can be read from any byte on: only the first byte of a character says that it is one. A text
that occurs among the bytes of another one therefore starts at a cut, and occurs there as characters
(`exists_of_bytes_prefix_drop`).
-/

namespace ScriptEngine.Text

variable {cs ds front behind part : List Char} {c : Char} {n start stop : ℕ}

/-! ## Sizes and bytes -/

@[simp]
theorem byteSize_nil : byteSize [] = 0 := rfl

@[simp]
theorem byteSize_cons (c : Char) (cs : List Char) :
    byteSize (c :: cs) = c.utf8Size + byteSize cs := rfl

@[simp]
theorem byteSize_append (cs ds : List Char) : byteSize (cs ++ ds) = byteSize cs + byteSize ds := by
  induction cs with
  | nil => simp
  | cons c cs ih => simp [ih, Nat.add_assoc]

@[simp]
theorem bytes_nil : bytes [] = [] := rfl

@[simp]
theorem bytes_cons (c : Char) (cs : List Char) :
    bytes (c :: cs) = String.utf8EncodeChar c ++ bytes cs := rfl

@[simp]
theorem bytes_append (cs ds : List Char) : bytes (cs ++ ds) = bytes cs ++ bytes ds :=
  List.flatMap_append

theorem byteSize_replicate (n : ℕ) (c : Char) :
    byteSize (List.replicate n c) = n * c.utf8Size := by
  induction n with
  | zero => simp
  | succ n ih => rw [List.replicate_succ, byteSize_cons, ih, Nat.succ_mul, Nat.add_comm]

theorem length_le_byteSize (cs : List Char) : cs.length ≤ byteSize cs := by
  induction cs with
  | nil => exact Nat.le_refl _
  | cons c cs ih =>
    have := c.utf8Size_pos
    rw [List.length_cons, byteSize_cons]
    omega

/-! ## Cuts -/

theorem cut?_append (front behind : List Char) :
    cut? (front ++ behind) (byteSize front) = some (front, behind) := by
  induction front with
  | nil => simp [cut?]
  | cons c front ih =>
    obtain ⟨n, hn⟩ : ∃ n, byteSize (c :: front) = n + 1 :=
      Nat.exists_eq_succ_of_ne_zero (by have := c.utf8Size_pos; rw [byteSize_cons]; omega)
    have hle : c.utf8Size ≤ n + 1 := by rw [← hn, byteSize_cons]; omega
    have hrest : n + 1 - c.utf8Size = byteSize front := by rw [← hn, byteSize_cons]; omega
    rw [hn, List.cons_append, cut?, if_pos hle, hrest, ih]
    rfl

theorem cut?_eq_some :
    cut? cs n = some (front, behind) ↔ cs = front ++ behind ∧ n = byteSize front := by
  constructor
  · intro h
    induction cs generalizing n front with
    | nil =>
      rcases n with _ | n
      · obtain ⟨rfl, rfl⟩ : [] = front ∧ [] = behind := by simpa [cut?] using h
        exact ⟨rfl, rfl⟩
      · cases h
    | cons c cs ih =>
      rcases n with _ | n
      · obtain ⟨rfl, rfl⟩ : [] = front ∧ c :: cs = behind := by simpa [cut?] using h
        exact ⟨rfl, rfl⟩
      · rw [cut?] at h
        split_ifs at h with hle
        obtain ⟨⟨front', behind'⟩, hcut, heq⟩ := Option.map_eq_some_iff.1 h
        obtain ⟨rfl, rfl⟩ : c :: front' = front ∧ behind' = behind := by simpa using heq
        obtain ⟨rfl, hn⟩ := ih hcut
        exact ⟨rfl, by rw [byteSize_cons]; omega⟩
  · rintro ⟨rfl, rfl⟩
    exact cut?_append front behind

theorem slice?_eq_some : slice? cs start stop = some part ↔
    ∃ front behind, cs = front ++ part ++ behind ∧ start = byteSize front ∧
      stop = byteSize (front ++ part) := by
  unfold slice?
  constructor
  · intro h
    obtain ⟨⟨upTo, behind⟩, hstop, h⟩ := Option.bind_eq_some_iff.1 h
    obtain ⟨⟨front, part'⟩, hstart, h⟩ := Option.bind_eq_some_iff.1 h
    obtain rfl : part' = part := Option.some.inj h
    obtain ⟨rfl, rfl⟩ := cut?_eq_some.1 hstop
    obtain ⟨rfl, rfl⟩ := cut?_eq_some.1 hstart
    exact ⟨front, behind, rfl, rfl, rfl⟩
  · rintro ⟨front, behind, rfl, rfl, rfl⟩
    simp only [cut?_append, Option.bind_eq_bind, Option.bind_some, Option.pure_def]

/-- What stands between two first parts of a text. -/
theorem slice?_append (front part behind : List Char) :
    slice? (front ++ part ++ behind) (byteSize front) (byteSize (front ++ part)) = some part :=
  slice?_eq_some.2 ⟨front, behind, rfl, rfl, rfl⟩

/-! ## Cuts of strings -/

theorem size_utf8Encode (cs : List Char) : cs.utf8Encode.size = byteSize cs := by
  induction cs with
  | nil => rfl
  | cons c cs ih =>
    rw [List.utf8Encode_cons, ByteArray.size_append, ih, List.utf8Encode_singleton,
      List.size_toByteArray, String.length_utf8EncodeChar, byteSize_cons]

/-- The end of a first part of a string cuts it. -/
theorem isValid_append (front behind : List Char) :
    (⟨byteSize front⟩ : String.Pos.Raw).IsValid (String.ofList (front ++ behind)) := by
  refine String.Pos.Raw.isValid_iff_exists_append.2
    ⟨String.ofList front, String.ofList behind, String.ofList_append, ?_⟩
  rw [String.Pos.Raw.ext_iff, String.byteIdx_rawEndPos, ← String.size_toByteArray,
    String.toByteArray_ofList, size_utf8Encode]

theorem extract?_append (front part behind : List Char) :
    extract? (String.ofList (front ++ part ++ behind)) (byteSize front) (byteSize (front ++ part)) =
      some (String.ofList part) := by
  have hstart := isValid_append front (part ++ behind)
  have hstop := isValid_append (front ++ part) behind
  have hle : byteSize front ≤ byteSize (front ++ part) := by
    rw [byteSize_append]
    omega
  rw [← List.append_assoc] at hstart
  unfold extract?
  rw [dif_pos ⟨hstart, hstop, hle⟩]
  refine congrArg some (String.toByteArray_inj.1 ?_)
  rw [String.toByteArray_extract, String.toByteArray_ofList, String.toByteArray_ofList,
    List.utf8Encode_append]
  dsimp only
  rw [← size_utf8Encode (front ++ part), ByteArray.extract_append_size_left, ← size_utf8Encode front,
    List.utf8Encode_append, ByteArray.size_append, ByteArray.extract_append_eq_right rfl rfl]

/-! ## Characters by their index -/

theorem getElem?_charIndices (offset : ℕ) (cs : List Char) (i : ℕ) :
    (charIndices offset cs)[i]? = cs[i]?.map (offset + byteSize (cs.take i), ·) := by
  induction cs generalizing offset i with
  | nil => rfl
  | cons c cs ih =>
    rcases i with _ | i
    · rfl
    · rw [charIndices, List.getElem?_cons_succ, List.getElem?_cons_succ, ih, List.take_succ_cons,
        byteSize_cons, Nat.add_assoc]

theorem byteOffset_eq (cs : List Char) (index : ℕ) :
    byteOffset cs index = byteSize (cs.take index) := by
  unfold byteOffset
  rw [getElem?_charIndices]
  by_cases hlt : index < cs.length
  · rw [List.getElem?_eq_getElem hlt, Option.map_some, Nat.zero_add]
  · rw [List.getElem?_eq_none (by omega), Option.map_none, List.take_of_length_le (by omega)]

/-! ## Texts among bytes -/

/-- The bytes of a text start with those of one character. -/
theorem head_eq_of_bytes_eq {c d : Char} {xs ys : List UInt8}
    (h : String.utf8EncodeChar c ++ xs = String.utf8EncodeChar d ++ ys) : c = d := by
  have hdecode := congrArg (fun bs => bs.toByteArray.utf8DecodeChar? 0) h
  simpa [List.toByteArray_append, ByteArray.utf8DecodeChar?_utf8EncodeChar_append] using hdecode

theorem prefix_of_bytes (h : bytes ds <+: bytes cs) : ds <+: cs := by
  induction ds generalizing cs with
  | nil => exact List.nil_prefix
  | cons d ds ih =>
    obtain ⟨rest, hrest⟩ := h
    rw [bytes_cons, List.append_assoc] at hrest
    cases cs with
    | nil => exact absurd (List.append_eq_nil_iff.1 hrest).1 String.utf8EncodeChar_ne_nil
    | cons c cs =>
      rw [bytes_cons] at hrest
      obtain rfl := head_eq_of_bytes_eq hrest
      exact List.cons_prefix_cons.2 ⟨rfl, ih ⟨rest, List.append_cancel_left hrest⟩⟩

/-- The bytes of a text do not occur from within a character on. -/
theorem not_bytes_prefix_drop {k : ℕ} (hne : ds ≠ []) (hk : 0 < k) (hlt : k < c.utf8Size) :
    ¬ bytes ds <+: (bytes (c :: cs)).drop k := by
  rintro ⟨rest, hrest⟩
  obtain ⟨d, ds, rfl⟩ := List.exists_cons_of_ne_nil hne
  have hlength : k < (String.utf8EncodeChar c).length := by rwa [String.length_utf8EncodeChar]
  have hpos : 0 < (String.utf8EncodeChar d).length := by
    rw [String.length_utf8EncodeChar]
    exact d.utf8Size_pos
  have hfirst : (String.utf8EncodeChar d)[0]? = (String.utf8EncodeChar c)[k]? := by
    have hzero := congrArg (·[0]?) hrest
    simpa only [bytes_cons, List.append_assoc, List.getElem?_drop, List.getElem?_append_left hpos,
      List.getElem?_append_left hlength, Nat.add_zero] using hzero
  rw [List.getElem?_eq_getElem hlength, List.getElem?_eq_getElem hpos] at hfirst
  have hinside := UInt8.isUTF8FirstByte_getElem_zero_utf8EncodeChar (c := d)
  rw [Option.some.inj hfirst, UInt8.isUTF8FirstByte_getElem_utf8EncodeChar] at hinside
  exact hk.ne' hinside

/-- A search passes over items from which on the needle does not occur. -/
theorem find?_append {α : Type} [BEq α] [LawfulBEq α] {needle xs ys : List α}
    (h : ∀ k < xs.length, ¬ needle <+: (xs ++ ys).drop k) :
    find? needle (xs ++ ys) = (find? needle ys).map (· + xs.length) := by
  induction xs with
  | nil => simp
  | cons x xs ih =>
    have hhere : ¬ needle.isPrefixOf (x :: xs ++ ys) = true := fun hprefix =>
      h 0 (Nat.succ_pos _) (List.isPrefixOf_iff_prefix.1 hprefix)
    rw [List.cons_append] at hhere
    rw [List.cons_append, find?, if_neg hhere, ih fun k hk => h (k + 1) (Nat.succ_lt_succ hk),
      Option.map_map]
    rfl

theorem find?_eq_zero {α : Type} [BEq α] [LawfulBEq α] {needle xs : List α} (h : needle <+: xs) :
    find? needle xs = some 0 := by
  cases xs with
  | nil => rw [List.prefix_nil.1 h]; rfl
  | cons x xs => rw [find?, if_pos (List.isPrefixOf_iff_prefix.2 h)]

/-- Among the bytes of a text, another text is found behind the same characters. -/
theorem find?_bytes (ds cs : List Char) :
    find? (bytes ds) (bytes cs) = (find? ds cs).map fun k => byteSize (cs.take k) := by
  induction cs with
  | nil => cases ds <;> simp [find?, String.utf8EncodeChar_ne_nil]
  | cons c cs ih =>
    by_cases hprefix : ds <+: c :: cs
    · obtain ⟨rest, hrest⟩ := hprefix
      rw [find?_eq_zero ⟨rest, hrest⟩, find?_eq_zero ⟨bytes rest, by rw [← bytes_append, hrest]⟩]
      rfl
    · have hne : ds ≠ [] := fun hnil => hprefix (hnil ▸ List.nil_prefix)
      have hbehind : find? (bytes ds) (bytes (c :: cs)) =
          (find? (bytes ds) (bytes cs)).map (· + (String.utf8EncodeChar c).length) := by
        refine find?_append fun k hk => ?_
        rw [String.length_utf8EncodeChar] at hk
        rcases Nat.eq_zero_or_pos k with rfl | hpos
        · exact fun h => hprefix (prefix_of_bytes h)
        · exact not_bytes_prefix_drop hne hpos hk
      have hchar : find? ds (c :: cs) = (find? ds cs).map (· + 1) :=
        if_neg fun h => hprefix (List.isPrefixOf_iff_prefix.1 h)
      rw [hbehind, hchar, ih, Option.map_map, Option.map_map]
      refine congrArg (fun f => (find? ds cs).map f) (funext fun k => ?_)
      rw [Function.comp_apply, Function.comp_apply, String.length_utf8EncodeChar, List.take_succ_cons,
        byteSize_cons, Nat.add_comm]

end ScriptEngine.Text
