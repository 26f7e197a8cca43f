import ScriptEngine.Proofs.Reading.Statements

/-!
# What a compilation reads of its source, and where it points to

Two statements about every source, which both follow from `compile_traced`: a compilation has a trace
that begins at the start of its source and that is in order.

`positions_point_into_source`: an error of a compilation has one place, and this place, and the place
of every instruction of a compiled script, is a mark of the source: it lies inside a line, between two
characters, where a token starts or the source ends or goes wrong. This is for sources whose places
fit into 32 bits; in a longer one, the column of a place can be zero
(`return_behind_blanks_has_column_zero`).

`tokens_are_consumed_in_order`: a token is given back only while the slot is empty, so that the tokens
that are read are those that the lexer yields without any giving back. A script that compiles has been
read to the end.
-/

namespace ScriptEngine

namespace Compile

/-- The tokens that are read for the first time: a token that was given back just before
(`given`) is read again. -/
def firstReads : (given : Bool) → List Act → List Token
  | _, [] => []
  | true, .read _ :: acts => firstReads false acts
  | false, .read t :: acts => t :: firstReads false acts
  | _, .back _ _ :: acts => firstReads true acts

theorem Orderly.firstReads_append {acts : List Act} {ts : List Token} {slot : Option Token}
    (h : Orderly acts ts slot) (more : List Act) :
    firstReads false (acts ++ more) = ts ++ firstReads slot.isSome more := by
  induction h generalizing more with
  | start => rfl
  | fresh t _ ih => simp [ih, firstReads]
  | back _ ih =>
    rw [List.append_assoc, ih]
    rfl
  | again _ ih => simp [ih, firstReads]

theorem Orderly.firstReads {acts : List Act} {ts : List Token} {slot : Option Token}
    (h : Orderly acts ts slot) : firstReads false acts = ts := by
  have hall := h.firstReads_append []
  rwa [List.append_nil, Compile.firstReads, List.append_nil] at hall

/-- The slot is empty whenever a token is given back. -/
theorem Orderly.slot_empty {acts : List Act} {ts : List Token} {slot : Option Token}
    (h : Orderly acts ts slot) {held : Option Token} {t : Token} (hback : .back held t ∈ acts) :
    held = none := by
  induction h with
  | start => cases hback
  | fresh _ _ ih | again _ ih =>
    rcases List.mem_append.1 hback with hback | hback
    · exact ih hback
    · simp at hback
  | back _ ih =>
    rcases List.mem_append.1 hback with hback | hback
    · exact ih hback
    · simp only [List.mem_singleton, Act.back.injEq] at hback
      exact hback.1

theorem ready_start (cs : List Char) : Ready cs cs.length [] { lexer := Lexer.ofText cs } where
  follows := ⟨[], ⟨.start, .nil, nofun⟩, fun _ => nofun⟩
  bound := Nat.le_refl _
  current := Chunk.marked_empty none
  enclosing := nofun

/-- All tokens up to the end were read. -/
theorem Finished.tokenize {cs : List Char} {log : List Act} {s : CompileState}
    (h : Finished cs log s) : ∃ ts t, Consumed cs log (ts ++ [t]) ∧ t.kind = .finish ∧
      tokenize cs = .ok ts := by
  obtain ⟨t, k, ht, hheld⟩ := h
  obtain ⟨ts, hfollows⟩ := hheld.follows
  obtain ⟨before, hlog⟩ := hheld.read
  have hlast := (hfollows.orderly.getLast? t).1 before hlog
  have hsplit := List.dropLast_append_getLast? t hlast
  refine ⟨ts.dropLast, t, hsplit.symm ▸ hfollows.consumed, ht, ?_⟩
  exact (hsplit.symm ▸ hfollows.yields).tokenize hfollows.inside ht

/-- What the end of a compilation is for its caller. -/
def End.result : End Chunk → Except Failure Chunk
  | .ok c _ => .ok c
  | .error x _ => .error x

end Compile

open Compile

/-- A compilation has a trace in order, behind which its code is marked and all tokens are read, or
it fails for a reason that lies in the source. -/
theorem compile_traced (source : String) :
    let cs := Source.normalize source.toList
    ∃ acts r, Traced (script (productions (compileFuel cs))) { lexer := Lexer.ofText cs } acts r ∧
      compile source = r.result ∧
      match r with
      | .ok root s => root.Marked cs ∧ Finished cs acts s
      | .error x _ => Explained cs acts x := by
  intro cs
  have hfuel : 2 * cs.length + 2 ≤ (productions (compileFuel cs)).budget := by
    show 2 * cs.length + 2 ≤ 2 * cs.length + 8
    omega
  have hscript := consumes_script (feeding_productions cs (compileFuel cs)) hfuel
  obtain ⟨acts, r, htraced, hr⟩ := hscript [] _ (ready_start cs)
  refine ⟨acts, r, htraced, ?_, ?_⟩
  · unfold compile EStateM.run
    dsimp only
    rw [htraced.sound]
    cases r <;> rfl
  · cases r <;> exact hr

/-- An error of a compilation and the instructions of a compiled script point to marks of the source;
see the head of the module. -/
theorem positions_point_into_source (source : String) (hfits : Source.Fits source.toList) :
    let cs := Source.normalize source.toList
    match compile source with
    | .ok root => ∀ c, root.Contains c → ∀ i ∈ c.code,
        (LineMap.ofText cs).Covers i.position ∧ i.position.Marks cs
    | .error failure => ∃ e place, failure = .error e ∧
        ((∃ cause, e.fault = .lexical cause) ∨ ∃ cause, e.fault = .grammar cause) ∧
        e.trace = [place] ∧ (LineMap.ofText cs).Covers place ∧ place.Marks cs := by
  intro cs
  have hfits : Source.Fits cs := hfits.normalize
  obtain ⟨acts, r, -, hresult, hr⟩ := compile_traced source
  rw [hresult]
  cases r with
  | ok root s => exact fun c hc i hi => ⟨(hr.1 c hc i hi).covers hfits, hr.1 c hc i hi⟩
  | error failure s =>
    obtain ⟨e, place, rfl, hmarks, hcause⟩ := hr.reason
    refine ⟨e, place, rfl, ?_, ?_, hmarks.covers hfits, hmarks⟩
    · rcases hcause with ⟨cause, rfl⟩ | ⟨cause, rfl⟩
      · exact .inl ⟨cause, rfl⟩
      · exact .inr ⟨cause, rfl⟩
    · rcases hcause with ⟨cause, rfl⟩ | ⟨cause, rfl⟩ <;> rfl

/-- A source of `n` blanks is compiled to a return behind them. -/
theorem compile_blanks (n : Nat) :
    ∃ root, compile (String.ofList (List.replicate n ' ')) = .ok root ∧
      root.code = #[⟨.ret, resultRegister, 0, 0, Position.wrapped ⟨1, n + 1⟩⟩] := by
  have hnewline : '\n' ∉ List.replicate n ' ' := fun h =>
    absurd (List.eq_of_mem_replicate h) (by decide)
  have hcs : Source.normalize (String.ofList (List.replicate n ' ')).toList =
      List.replicate n ' ' := by
    rw [String.toList_ofList, normalize_eq fun h => absurd (List.eq_of_mem_replicate h) (by decide)]
  have hscan : scan (List.replicate n ' ') 0 = .finish := by
    rw [scan_blanks, List.dropWhile_replicate, if_pos (by decide)]
    unfold scan
    rfl
  have hplace : (Lexer.ofText (List.replicate n ' ')).finishToken.position =
      Position.wrapped ⟨1, n + 1⟩ := by
    have hbehind := LineMap.position_eq_behind (List.replicate n ' ') []
    have hsize : Text.byteSize (List.replicate n ' ') = n :=
      (Text.byteSize_replicate n ' ').trans n.mul_one
    rw [List.append_nil, Position.behind, Source.lastLine_eq_self hnewline,
      List.count_eq_zero.2 hnewline, hsize] at hbehind
    change (LineMap.ofText (List.replicate n ' ')).position (Text.byteSize (List.replicate n ' ')) = _
    rw [hsize, hbehind]
  have hnext : (Lexer.ofText (List.replicate n ' ')).next =
      (.ok (Lexer.ofText (List.replicate n ' ')).finishToken,
        { Lexer.ofText (List.replicate n ' ') with finished := true }) := by
    simp only [Lexer.next, Lexer.fetch, Lexer.ofText, hscan, Bool.false_eq_true, if_false]
  rw [← hcs] at hnext
  obtain ⟨root, hroot, hcode⟩ := compile_of_next_finish hnext rfl
  rw [hcs, hplace] at hcode
  exact ⟨root, hroot, hcode⟩

/-- The return of a source of three blanks is behind them. -/
theorem positions_point_into_source_blanks :
    let cs := List.replicate 3 ' '
    Source.Fits (String.ofList cs).toList ∧ ∃ root, compile (String.ofList cs) = .ok root ∧
      ⟨.ret, resultRegister, 0, 0, ⟨1, 4⟩⟩ ∈ root.code ∧
      (LineMap.ofText (Source.normalize (String.ofList cs).toList)).Covers ⟨1, 4⟩ := by
  intro cs
  have hfits : Source.Fits (String.ofList cs).toList := by
    rw [String.toList_ofList]
    unfold Source.Fits
    decide
  obtain ⟨root, hroot, hcode⟩ := compile_blanks 3
  have hret : ⟨.ret, resultRegister, 0, 0, ⟨1, 4⟩⟩ ∈ root.code := by
    rw [hcode]
    exact Array.mem_singleton.2 rfl
  have hplaces := positions_point_into_source (String.ofList cs) hfits
  rw [hroot] at hplaces
  exact ⟨hfits, root, hroot, hret, (hplaces root (.refl root) _ hret).1⟩

/-- Behind one byte less than 4 GiB, the column does not fit into 32 bits. -/
theorem return_behind_blanks_has_column_zero :
    let source := String.ofList (List.replicate (2 ^ 32 - 1) ' ')
    Text.byteSize source.toList < 2 ^ 32 ∧ ∃ root, compile source = .ok root ∧
      ∃ i ∈ root.code, i.position = ⟨1, 0⟩ := by
  intro source
  obtain ⟨root, hroot, hcode⟩ := compile_blanks (2 ^ 32 - 1)
  refine ⟨?_, root, hroot, ⟨.ret, resultRegister, 0, 0, ⟨1, 0⟩⟩, ?_, rfl⟩
  · rw [String.toList_ofList, Text.byteSize_replicate]
    decide
  · rw [hcode]
    exact Array.mem_singleton.2 rfl

/-- A compilation reads the tokens of its source one behind the other, and if it succeeds all of them;
see the head of the module. -/
theorem tokens_are_consumed_in_order (source : String) :
    let cs := Source.normalize source.toList
    ∃ acts r, Traced (script (productions (compileFuel cs))) { lexer := Lexer.ofText cs } acts r ∧
      compile source = r.result ∧
      (∃ slot, Orderly acts (firstReads false acts) slot) ∧
      (∀ slot t, .back slot t ∈ acts → slot = none) ∧
      (∃ l, (Lexer.ofText cs).Yields (firstReads false acts) l) ∧
      ∀ root, compile source = .ok root → ∃ ts t, firstReads false acts = ts ++ [t] ∧
        t.kind = .finish ∧ tokenize cs = .ok ts := by
  intro cs
  obtain ⟨acts, r, htraced, hresult, hr⟩ := compile_traced source
  refine ⟨acts, r, htraced, hresult, ?_⟩
  have hconsumed : ∃ ts, Consumed cs acts ts := by
    cases r with
    | ok root s => exact stable_finished.consumed hr.2
    | error failure s => exact hr.consumed
  obtain ⟨ts, ⟨slot, horderly⟩, hyields, -⟩ := hconsumed
  rw [horderly.firstReads]
  refine ⟨⟨slot, horderly⟩, fun _ _ => horderly.slot_empty, hyields, fun root hroot => ?_⟩
  cases r with
  | ok root' s =>
    obtain ⟨us, t, ⟨⟨_, horderly'⟩, -, -⟩, ht, htokenize⟩ := hr.2.tokenize
    exact ⟨us, t, horderly.firstReads.symm.trans horderly'.firstReads, ht, htokenize⟩
  | error failure s =>
    rw [hresult] at hroot
    cases hroot

end ScriptEngine
