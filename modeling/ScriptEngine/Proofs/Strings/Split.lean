import ScriptEngine.Engine.Install
import ScriptEngine.Native.Array
import ScriptEngine.Proofs.Strings.Leftmost
import ScriptEngine.Proofs.Tame

/-!
# Splitting and joining

**Theorem (`join_undoes_split`).** The member `split` cuts a text at the leftmost occurrences of a
separator that do not overlap, and `join` puts the pieces together again around the separator. No
piece contains the separator, an empty separator leaves the text in one piece, and if empty pieces
are to be skipped, they alone are left out.

* *texts*: `splitFrom` skips the characters of an occurrence it is in, and starts a new piece behind
  it. Read from the end of the text on, it builds the gaps of the leftmost occurrences
  (`exists_leftmost_splitFrom`), and every occurrence is the separator;
* *arrays*: the pieces are strings, so none of them is void and each is its own text.
-/

namespace ScriptEngine

namespace Text

variable {sep text last : List Char} {os : List Occurrence}

/-! ## Texts -/

/-- The pieces are the gaps of the leftmost occurrences behind the skipped characters. -/
theorem exists_leftmost_splitFrom (hsep : sep ≠ []) (skip : ℕ) (text : List Char) :
    ∃ os last, Leftmost {sep} (text.drop skip) os last ∧
      splitFrom sep skip text = gaps os last := by
  fun_induction splitFrom sep skip text with
  | case1 skip =>
    refine ⟨[], [], ?_, rfl⟩
    rw [List.drop_nil]
    refine .stop fun w hw hinfix => hsep ?_
    rw [← Set.mem_singleton_iff.1 hw, List.infix_nil.1 hinfix]
  | case2 skip c text ih => exact ih
  | case3 c text hfront ih =>
    obtain ⟨os, last, hleft, hsplit⟩ := ih
    obtain ⟨rest, hrest⟩ := List.isPrefixOf_iff_prefix.1 hfront
    have hbehind : text.drop (sep.length - 1) = rest := by
      have hdrop := congrArg (List.drop sep.length) hrest
      rw [List.drop_left] at hdrop
      obtain ⟨n, hn⟩ := Nat.exists_eq_add_of_le' (List.length_pos_iff.2 hsep)
      rw [hdrop, hn]
      rfl
    have hword : sep ∈ ({sep} : Language Char) := rfl
    rw [hbehind] at hleft
    refine ⟨⟨[], sep⟩ :: os, last, hrest ▸ hleft.here hword, ?_⟩
    rw [hsplit]
    rfl
  | case4 c text hfront ih =>
    obtain ⟨os, last, hleft, hsplit⟩ := ih
    refine ⟨pushGap c os, pushLast c last os, hleft.push fun w hw hprefix => hfront ?_, ?_⟩
    · exact List.isPrefixOf_iff_prefix.2 (Set.mem_singleton_iff.1 hw ▸ hprefix)
    · rw [hsplit]
      cases os <;> rfl

theorem exists_leftmost_split (hsep : sep ≠ []) (text : List Char) :
    ∃ os last, Leftmost {sep} text os last ∧ split sep text = gaps os last := by
  unfold split
  rw [if_neg (by simpa using hsep)]
  exact exists_leftmost_splitFrom hsep 0 text

/-- The gaps with the separator between them are the text. -/
theorem intercalate_gaps (hwords : ∀ o ∈ os, o.word = sep) :
    sep.intercalate (gaps os last) = spelled os ++ last := by
  induction os with
  | nil => simp [gaps, spelled]
  | cons o os ih =>
    obtain ⟨hword, hwords⟩ := List.forall_mem_cons.1 hwords
    have hgaps : gaps (o :: os) last = o.gap :: gaps os last := rfl
    have hne : gaps os last ≠ [] := by simp [gaps]
    rw [hgaps, List.intercalate_cons_of_ne_nil hne, ih hwords]
    simp [spelled, hword]

theorem intercalate_split (sep text : List Char) : sep.intercalate (split sep text) = text := by
  by_cases hsep : sep = []
  · simp [split, hsep]
  · obtain ⟨os, last, hleft, hsplit⟩ := exists_leftmost_split hsep text
    rw [hsplit, intercalate_gaps fun o ho => hleft.word_mem o ho, hleft.restore]

theorem not_infix_of_mem_split (hsep : sep ≠ []) {piece : List Char}
    (hpiece : piece ∈ split sep text) : ¬ sep <:+: piece := by
  obtain ⟨os, last, hleft, hsplit⟩ := exists_leftmost_split hsep text
  exact hleft.free (fun hnil => hsep (Set.mem_singleton_iff.1 hnil).symm) piece (hsplit ▸ hpiece)
    sep rfl

/-! ## Strings -/

/-- The pieces of a string between the leftmost occurrences of a separator that do not overlap. -/
def splitString (sep text : String) : List String :=
  (split sep.toList text.toList).map String.ofList

theorem map_toList_splitString (sep text : String) :
    (splitString sep text).map String.toList = split sep.toList text.toList := by
  simp [splitString, Function.comp_def]

theorem intercalate_splitString (sep text : String) :
    sep.intercalate (splitString sep text) = text := by
  rw [← String.toList_inj, String.toList_intercalate, map_toList_splitString, intercalate_split]

end Text

open Text

/-! ## Arrays -/

namespace Script

variable {e : Engine} {args : Array Value} {r : ArrayRef}

theorem splitText_eq (sep text : String) (skipEmpty : Bool) :
    splitText sep text skipEmpty =
      (if skipEmpty then (splitString sep text).filter (· ≠ "") else splitString sep text).map
        .str := by
  cases skipEmpty
  · simp [splitText, splitString, Function.comp_def]
  · have hempty : ∀ piece : List Char, (!piece.isEmpty) = decide (String.ofList piece ≠ "") := by
      intro piece
      cases piece <;> simp
    simp [splitText, splitString, List.filter_map, Function.comp_def, hempty]

/-- A new array gets the pieces. -/
theorem runArray_split (receiver : Value) (args : Array Value) (e : Engine) :
    ∃ r e', runArray receiver args .split e = .ok (.array r) e' ∧
      (e'.heap.array r).toList =
        splitText (e.heap.text (argument args 0)) (e.heap.text (argument args 1))
          (argument args 3).truthy := by
  refine ⟨_, _, rfl, ?_⟩
  simp [Heap.array]

/-- The texts of items that are strings are put together around a separator. -/
theorem runArray_join {pieces : List String} (hitems : (e.heap.array r).toList = pieces.map .str) :
    runArray (.array r) args .join e =
      .ok (.str ((e.heap.text (argument args 0)).intercalate pieces)) e := by
  have hjoin : joinItems r (e.heap.text (argument args 0)) (argument args 2).truthy e =
      .ok ((e.heap.text (argument args 0)).intercalate pieces) e := by
    change EStateM.Result.ok _ e = _
    rw [hitems, List.filter_map, List.map_map]
    simp [Function.comp_def, Value.isVoid, Heap.text, Heap.render, join]
  have hrun : runArray (.array r) args .join e =
      (joinItems r (e.heap.text (argument args 0)) (argument args 2).truthy >>=
        fun t => pure (.str t)) e := rfl
  rw [hrun, bind_apply, hjoin]
  rfl

end Script

/-! ## The main result -/

/-- `split` gives the pieces of a text between separators, and `join` puts them together again; see
the head of the module. -/
theorem join_undoes_split (sep text : String) :
    ∃ pieces : List String,
      (sep = "" → pieces = [text]) ∧
      (sep ≠ "" → ∃ os last, Leftmost {sep.toList} text.toList os last ∧
        pieces.map String.toList = gaps os last) ∧
      (sep ≠ "" → ∀ piece ∈ pieces, ¬ sep.toList <:+: piece.toList) ∧
      ∀ (e : Engine) (receiver : Value) (args : Array Value),
        e.heap.text (Script.argument args 0) = sep → e.heap.text (Script.argument args 1) = text →
        ∃ r e', Script.runArray receiver args .split e = .ok (.array r) e' ∧
          (e'.heap.array r).toList =
            (if (Script.argument args 3).truthy then pieces.filter (· ≠ "") else pieces).map .str ∧
          ((Script.argument args 3).truthy = false → ∀ args',
            e'.heap.text (Script.argument args' 0) = sep →
            Script.runArray (.array r) args' .join e' = .ok (.str text) e') := by
  have hne (hsep : sep ≠ "") : sep.toList ≠ [] := by simpa using hsep
  refine ⟨splitString sep text, ?_, fun hsep => ?_, fun hsep piece hpiece => ?_, ?_⟩
  · rintro rfl
    simp [splitString, split]
  · rw [map_toList_splitString]
    exact exists_leftmost_split (hne hsep) text.toList
  · have hmem : piece.toList ∈ split sep.toList text.toList := by
      rw [← map_toList_splitString]
      exact List.mem_map_of_mem hpiece
    exact not_infix_of_mem_split (hne hsep) hmem
  · rintro e receiver args rfl rfl
    obtain ⟨r, e', hrun, hitems⟩ := Script.runArray_split receiver args e
    rw [Script.splitText_eq] at hitems
    refine ⟨r, e', hrun, hitems, fun hkeep args' hsep => ?_⟩
    rw [if_neg (by simp [hkeep])] at hitems
    rw [Script.runArray_join hitems, hsep, intercalate_splitString]

/-- The separator overlaps itself in the text, which starts and ends with it. -/
theorem join_undoes_split_overlapping :
    (∃ r e', Script.runArray .void #[.str "aa", .str "aaaxaa"] .split (.bare {}) =
          .ok (.array r) e' ∧
        (e'.heap.array r).toList = [.str "", .str "ax", .str ""] ∧
        Script.runArray (.array r) #[.str "aa"] .join e' = .ok (.str "aaaxaa") e') ∧
      ∃ r e', Script.runArray .void #[.str "aa", .str "aaaxaa", .void, .number .one] .split
            (.bare {}) = .ok (.array r) e' ∧
        (e'.heap.array r).toList = [.str "ax"] := by
  obtain ⟨pieces, -, hpieces, -, hruns⟩ := join_undoes_split "aa" "aaaxaa"
  obtain ⟨os, last, hleft, hgaps⟩ := hpieces (by decide)
  have hword : "aa".toList ∈ ({"aa".toList} : Language Char) := rfl
  have hexact : Leftmost {"aa".toList} "aaaxaa".toList
      [⟨[], "aa".toList⟩, ⟨"ax".toList, "aa".toList⟩] [] := by
    have hend : Leftmost {"aa".toList} [] [] [] := .stop (by rintro _ rfl; decide)
    have hbehind := Leftmost.next (o := ⟨"ax".toList, "aa".toList⟩) hword
      (by rintro _ rfl; decide) hend
    exact hbehind.here hword
  obtain ⟨rfl, rfl⟩ := hexact.unique (prefixFree_singleton _) hleft
  obtain rfl : pieces = ["", "ax", ""] :=
    List.map_injective_iff.2 (fun _ _ => String.toList_inj.1) hgaps
  obtain ⟨r, e', hrun, hitems, hjoin⟩ := hruns (.bare {}) .void #[.str "aa", .str "aaaxaa"] rfl rfl
  obtain ⟨r₁, e₁, hrun₁, hitems₁, -⟩ := hruns (.bare {}) .void
    #[.str "aa", .str "aaaxaa", .void, .number .one] rfl rfl
  exact ⟨⟨r, e', hrun, hitems, hjoin rfl _ rfl⟩, r₁, e₁, hrun₁, hitems₁⟩

end ScriptEngine
