import ScriptEngine.Engine.Install
import ScriptEngine.Proofs.Strings.Templates
import ScriptEngine.Proofs.Tame

/-!
# Filling a template

**Theorem (`format_fills_each_placeholder_once`).** The member `format` of a string replaces the
leftmost placeholders of its template that do not overlap by the texts of the arguments that they
ask for, and leaves the gaps between them as they are. It fails at the first placeholder that asks
for no argument: its digits are not all ASCII digits, they write a number that 64 bits do not hold,
or they are no index of an argument.
-/

namespace ScriptEngine

open Text

namespace Script

theorem mapM_textOf (vs : Array Value) (e : Engine) :
    vs.mapM textOf e = .ok (vs.map e.heap.text) e := by
  have hlist : ∀ ws : List Value, ws.mapM textOf e = .ok (ws.map e.heap.text) e := by
    intro ws
    induction ws with
    | nil => rfl
    | cons v ws ih =>
      rw [List.mapM_cons, bind_apply]
      change (ws.mapM textOf >>= _) e = _
      rw [bind_apply, ih]
      rfl
  rw [Array.mapM_eq_mapM_toList, map_eq_pure_bind, bind_apply, hlist]
  change EStateM.Result.ok (vs.toList.map e.heap.text).toArray e = _
  rw [← Array.toList_map, Array.toArray_toList]

theorem runString_format (template : String) (args : Array Value) (e : Engine) :
    runString (.str template) args .format e =
      match Text.format template (args.map e.heap.text) with
      | .ok s => .ok (.str s) e
      | .error cause => .error (.runtime cause) e := by
  change (args.mapM textOf >>= _) e = _
  rw [bind_apply, mapM_textOf]
  change ((ofExcept _) >>= _) e = _
  rw [bind_apply]
  cases Text.format template (args.map e.heap.text) <;> rfl

variable {template : String} {args : Array Value} {os : List Occurrence} {last : List Char}

theorem runString_format_ok (e : Engine) (h : Leftmost placeholders template.toList os last)
    {vs : List Value} (hvs : List.Forall₂ (fun o v => Selects args o.word v) os vs) :
    runString (.str template) args .format e =
      .ok (.str (String.ofList (filled last os (vs.map e.heap.text)))) e := by
  have htexts : List.Forall₂ (fun o t => Selects (args.map e.heap.text) o.word t) os
      (vs.map e.heap.text) :=
    List.forall₂_map_right_iff.2 (hvs.imp fun o v hv => selects_map.2 ⟨v, hv, rfl⟩)
  rw [runString_format, format_of_selects _ h htexts]

theorem runString_format_error (e : Engine) (h : Leftmost placeholders template.toList os last)
    {done rest : List Occurrence} {o : Occurrence} (hos : os = done ++ o :: rest)
    (hdone : ∀ p ∈ done, ∃ v, Selects args p.word v) (ho : ∀ v, ¬ Selects args o.word v) :
    runString (.str template) args .format e =
      .error (.runtime (.formatArgument (String.ofList o.word))) e := by
  have hdone' : ∀ p ∈ done, ∃ t, Selects (args.map e.heap.text) p.word t := by
    intro p hp
    obtain ⟨v, hv⟩ := hdone p hp
    exact ⟨_, selects_map.2 ⟨v, hv, rfl⟩⟩
  have ho' : ∀ t, ¬ Selects (args.map e.heap.text) o.word t := by
    intro t ht
    obtain ⟨v, hv, -⟩ := selects_map.1 ht
    exact ho v hv
  rw [runString_format, format_of_not_selects _ h hos hdone' ho']

end Script

/-! ## The main result -/

/-- A template with its leftmost placeholders replaced by the texts of the arguments that they ask
for; see the head of the module. -/
theorem format_fills_each_placeholder_once (e : Engine) (template : String) (args : Array Value) :
    ∃ os last, Leftmost placeholders template.toList os last ∧
      (∀ os' last', Leftmost placeholders template.toList os' last' → os' = os ∧ last' = last) ∧
      ((∀ w ∈ placeholders, ¬ w <:+: template.toList) →
        Script.runString (.str template) args .format e = .ok (.str template) e) ∧
      ((∃ failure e', Script.runString (.str template) args .format e = .error failure e') ↔
        ∃ o ∈ os, ∀ v, ¬ Selects args o.word v) ∧
      ((∃ vs, List.Forall₂ (fun o v => Selects args o.word v) os vs ∧
          Script.runString (.str template) args .format e =
            .ok (.str (String.ofList (filled last os (vs.map e.heap.text)))) e) ∨
        ∃ done o rest, os = done ++ o :: rest ∧ (∀ p ∈ done, ∃ v, Selects args p.word v) ∧
          (∀ v, ¬ Selects args o.word v) ∧
          Script.runString (.str template) args .format e =
            .error (.runtime (.formatArgument (String.ofList o.word))) e) := by
  obtain ⟨os, last, hleft, -⟩ := exists_leftmost_findPlaceholders 0 0 template.toList
  rw [List.drop_zero] at hleft
  refine ⟨os, last, hleft, fun os' last' => hleft.unique prefixFree_placeholders, ?_, ?_⟩
  · intro hnone
    obtain rfl := hleft.eq_nil_iff.2 hnone
    obtain rfl : last = template.toList := hleft.restore
    rw [Script.runString_format_ok e hleft .nil]
    simp [filled]
  · rcases selects_all_or_first args os with ⟨vs, hvs⟩ | ⟨done, o, rest, hos, hdone, ho⟩
    · have hrun := Script.runString_format_ok e hleft hvs
      refine ⟨iff_of_false ?_ ?_, .inl ⟨vs, hvs, hrun⟩⟩
      · rintro ⟨failure, e', hfailed⟩
        cases hrun.symm.trans hfailed
      · rintro ⟨o, hmem, ho⟩
        have hboth := (List.forall₂_and_left (p := fun o => ∃ v, Selects args o.word v) _ _).1
          (hvs.imp fun o v hv => ⟨⟨v, hv⟩, hv⟩)
        obtain ⟨v, hv⟩ := hboth.1 o hmem
        exact ho v hv
    · have hrun := Script.runString_format_error e hleft hos hdone ho
      refine ⟨iff_of_true ⟨_, _, hrun⟩ ⟨o, ?_, ho⟩, .inr ⟨done, o, rest, hos, hdone, ho, hrun⟩⟩
      rw [hos]
      exact List.mem_append_right _ (List.mem_cons_self ..)

/-- A brace that is not closed, and then a brace in front of two placeholders, of which the first
one asks for a text that looks like the second one. -/
theorem format_fills_each_placeholder_once_braces :
    (∀ w ∈ placeholders, ¬ w <:+: "\x7b0".toList) ∧
      Script.runString (.str "\x7b0") #[.str "a"] .format (.bare {}) =
        .ok (.str "\x7b0") (.bare {}) ∧
      Script.runString (.str "\x7b\x7b0\x7d\x7b1\x7d") #[.str "\x7b1\x7d", .str "b"] .format
          (.bare {}) = .ok (.str "\x7b\x7b1\x7db") (.bare {}) := by
  have hnone : ∀ w ∈ placeholders, ¬ w <:+: "\x7b0".toList := by
    rintro _ ⟨ds, -, -, rfl⟩ hinfix
    have hbrace : '\x7d' ∈ "\x7b0".toList := hinfix.subset (by simp [braced])
    exact absurd hbrace (by decide)
  obtain ⟨-, -, -, -, hplain, -, -⟩ :=
    format_fills_each_placeholder_once (.bare {}) "\x7b0" #[.str "a"]
  refine ⟨hnone, hplain hnone, ?_⟩
  have hword : ∀ d, isDecimalDigit d = true → braced [d] ∈ placeholders := fun d hd =>
    ⟨[d], by simp, by simpa using hd, rfl⟩
  have hstart : placeholder? "\x7b0\x7d\x7b1\x7d".toList = none := by decide +kernel
  have hexact : Leftmost placeholders "\x7b\x7b0\x7d\x7b1\x7d".toList
      [⟨['\x7b'], braced ['0']⟩, ⟨[], braced ['1']⟩] [] := by
    have hend : Leftmost placeholders [] [] [] := .stop fun w hw hinfix =>
      nil_notMem_placeholders (List.infix_nil.1 hinfix ▸ hw)
    have hlast := hend.here (hword '1' (by decide +kernel))
    have hboth := hlast.here (hword '0' (by decide +kernel))
    refine hboth.push fun w hw hprefix => ?_
    obtain ⟨ds, hds⟩ := placeholder?_of_prefix hw hprefix
    cases hstart.symm.trans hds
  have hzero : Selects #[Value.str "\x7b1\x7d", .str "b"] (braced ['0']) (.str "\x7b1\x7d") :=
    selects_braced.2 rfl
  have hone : Selects #[Value.str "\x7b1\x7d", .str "b"] (braced ['1']) (.str "b") :=
    selects_braced.2 rfl
  obtain ⟨os, last, -, hunique, -, -, hcases⟩ := format_fills_each_placeholder_once (.bare {})
    "\x7b\x7b0\x7d\x7b1\x7d" #[.str "\x7b1\x7d", .str "b"]
  obtain ⟨rfl, rfl⟩ := hunique _ _ hexact
  rcases hcases with ⟨vs, hvs, hrun⟩ | ⟨done, o, rest, hos, -, ho, -⟩
  · rcases hvs with _ | ⟨h0, _ | ⟨h1, _ | _⟩⟩
    cases (selects_braced.1 hzero).symm.trans (selects_braced.1 h0)
    cases (selects_braced.1 hone).symm.trans (selects_braced.1 h1)
    exact hrun
  · have hmem : o ∈ done ++ o :: rest := List.mem_append_right _ (List.mem_cons_self ..)
    simp only [← hos, List.mem_cons, List.not_mem_nil, or_false] at hmem
    rcases hmem with rfl | rfl
    · exact absurd hzero (ho _)
    · exact absurd hone (ho _)

end ScriptEngine
