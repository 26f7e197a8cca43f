import ScriptEngine.Native.Run
import ScriptEngine.Proofs.Strings.Templates
import ScriptEngine.Proofs.Tame.Access

/-!
# Native functions are tame

The members of strings and arrays use only what the access of members does. Functions of the host
can also call functions and run sources: what they call was compiled before, and a source is
compiled when it is run.
-/

namespace ScriptEngine

variable {ρ : Option Region} {call : Invoke}

namespace Script

/-- Computations over the items of a list are calm if each of them is. -/
theorem calm_mapM {α β : Type} {f : α → Script β} (hf : ∀ a, Calm ρ (f a)) (items : List α) :
    Calm ρ (items.mapM f) := by
  induction items with
  | nil =>
    rw [List.mapM_nil]
    exact .pure _
  | cons a items ih =>
    rw [List.mapM_cons]
    exact (hf a).bind fun _ => ih.bind fun _ => .pure _

theorem calm_array_mapM {α β : Type} {f : α → Script β} (hf : ∀ a, Calm ρ (f a))
    (items : Array α) : Calm ρ (items.mapM f) := by
  rw [Array.mapM_eq_mapM_toList]
  exact (calm_mapM hf _).map

/-- A check that fails with a benign fault in front of a calm computation. -/
theorem calm_check {α β : Type} {c : Prop} [Decidable c] {cause : RuntimeFault} {m : Script α}
    (hcause : cause.isInternal = false) (hm : Calm ρ m) :
    Calm ρ (if c then (raise cause : Script β) >>= fun _ => m else m) :=
  .ite ((Calm.raise hcause).bind fun _ => hm) hm

/-- A list fails to be mapped only where an item does. -/
theorem mapM_error {α β : Type} {f : α → Except RuntimeFault β}
    (hf : ∀ a cause, f a = .error cause → cause.isInternal = false) {items : List α}
    {cause : RuntimeFault} (h : items.mapM f = .error cause) : cause.isInternal = false := by
  induction items with
  | nil => cases h
  | cons a items ih =>
    rw [List.mapM_cons] at h
    rcases ha : f a with c | b <;> rw [ha] at h
    · cases h
      exact hf a cause ha
    · rcases hrest : items.mapM f with c | bs <;> rw [hrest] at h <;> cases h
      exact ih hrest

/-! ## Strings -/

theorem calm_require (name : String) (args : Array Value) (count : Nat) :
    Calm ρ (require name args count) :=
  .ite (.raise rfl) (.pure _)

theorem calm_stringReceiver (name : String) (v : Value) : Calm ρ (stringReceiver name v) := by
  unfold stringReceiver
  split
  · exact .pure _
  · exact .raise rfl

theorem calm_substring (receiver : Value) (args : Array Value) :
    Calm ρ (substring receiver args) := by
  refine (calm_require _ _ _).bind fun _ => (calm_stringReceiver _ _).bind fun s => ?_
  refine (calm_toInt _).bind fun start => calm_check rfl ?_
  dsimp only
  split
  · exact .pure _
  · exact (calm_toInt _).bind fun length => calm_check rfl (.pure _)

/-- No cut of a search is inside of a character. -/
theorem indexOf_error {text needle : String} {start : Nat} {cause : RuntimeFault}
    (h : Text.indexOf text needle start = .error cause) : cause.isInternal = false := by
  rw [Text.indexOf_eq] at h
  cases h

theorem format_error {template : String} {args : Array String} {cause : RuntimeFault}
    (h : Text.format template args = .error cause) : cause.isInternal = false := by
  obtain ⟨w, rfl⟩ := Text.format_error args h
  rfl

theorem calm_runString (receiver : Value) (args : Array Value) (which : StringMember) :
    Calm ρ (runString receiver args which) := by
  cases which with
  | length => exact (calm_stringReceiver _ _).bind fun _ => .pure _
  | toString => exact (calm_stringReceiver _ _).bind fun _ => .pure _
  | startsWith =>
    refine (calm_require _ _ _).bind fun _ => (calm_stringReceiver _ _).bind fun s => ?_
    exact (calm_textOf _).bind fun _ => .pure _
  | indexOf =>
    refine (calm_require _ _ _).bind fun _ => (calm_stringReceiver _ _).bind fun s => ?_
    refine (calm_textOf _).bind fun needle => (calm_toInt _).bind fun start => ?_
    refine (calm_ofExcept fun _ => indexOf_error).bind fun place => ?_
    cases place <;> exact .pure _
  | toLowerCase => exact (calm_stringReceiver _ _).bind fun _ => .pure _
  | toUpperCase => exact (calm_stringReceiver _ _).bind fun _ => .pure _
  | substring => exact calm_substring receiver args
  | format =>
    refine (calm_stringReceiver _ _).bind fun template => ?_
    refine (calm_array_mapM calm_textOf args).bind fun texts => ?_
    exact (calm_ofExcept fun _ => format_error).bind fun _ => .pure _

/-! ## Arrays -/

theorem calm_arrayReceiver (name : String) (v : Value) : Calm ρ (arrayReceiver name v) := by
  unfold arrayReceiver
  split
  · exact .pure _
  · exact .raise rfl

theorem calm_deepClone (fuel : Nat) (ancestors : List Value) (v : Value) :
    Calm ρ (deepClone fuel ancestors v) := by
  induction fuel generalizing ancestors v with
  | zero => exact Tame.throw trivial
  | succ fuel ih =>
    unfold deepClone
    split
    · refine .ite (.raise rfl) (.ofHeap (fun _ _ _ => rfl) fun h _ => ?_)
      exact (calm_array_mapM (ih _) _).bind fun _ => calm_newArray _
    · refine .ite (.raise rfl) (.ofHeap (fun _ _ _ => rfl) fun h _ => ?_)
      refine (calm_mapM (fun entry => ?_) _).bind fun _ => calm_newDict _
      exact (ih _ _).bind fun _ => .pure _
    · exact .pure _

theorem calm_deepCopy (v : Value) : Calm ρ (deepCopy v) :=
  .ofHeap (fun _ _ _ => rfl) fun _ _ => calm_deepClone _ _ v

theorem calm_insertItem (r : ArrayRef) (requested : Int) (v : Value) :
    Calm ρ (insertItem r requested v) := by
  refine .get_bind (fun _ _ => rfl) fun e => calm_check rfl (calm_check rfl ?_)
  exact calm_modifyArray r _

theorem calm_eraseItem (r : ArrayRef) (requested : Int) : Calm ρ (eraseItem r requested) := by
  refine .ofHeap (fun _ _ _ => rfl) fun h _ => ?_
  split
  · exact calm_modifyArray _ _
  · exact .raise rfl

theorem sortValues_error {h : Heap} {mode : SortMode} {items : List Value} {cause : RuntimeFault}
    (hs : h.sortValues mode items = .error cause) : cause.isInternal = false := by
  cases mode with
  | numeric | numericDown =>
    simp only [Heap.sortValues] at hs
    rcases hm : items.mapM Value.toNumber with c | keys <;> rw [hm] at hs <;> cases hs
    exact mapM_error (fun _ _ => toNumber_error) hm
  | natural | naturalDown | textual | textualDown => cases hs

@[simp] theorem sortValues_graft {h : Heap} {t : Nat → Value} (mode : SortMode)
    (items : List Value) : (h.graft ρ t).sortValues mode items = h.sortValues mode items := by
  cases mode <;> simp only [Heap.sortValues, Heap.text_graft]

theorem calm_sortArray (r : ArrayRef) (mode : String) : Calm ρ (sortArray r mode) := by
  refine .ofHeap (fun _ _ _ => rfl) fun h _ => (calm_modifyArray r _).bind fun _ => ?_
  refine .ofHeap (fun h t _ => by simp only [sortValues_graft]) fun h _ => ?_
  dsimp only
  split
  · exact calm_modifyArray r _
  · rename_i cause hcause
    refine (calm_modifyArray r _).bind fun _ => .raise ?_
    split at hcause
    · exact sortValues_error hcause
    · cases hcause
      rfl

theorem calm_joinItems (r : ArrayRef) (sep : String) (skipVoid : Bool) :
    Calm ρ (joinItems r sep skipVoid) := by
  refine .ofHeap (fun h t _ => ?_) fun _ _ => .pure _
  have htext : (h.graft ρ t).text = h.text := funext fun v => Heap.text_graft v
  simp only [htext]
  rfl

/-- An array takes over the items of a value. -/
theorem calm_takeOver (r : ArrayRef) (v : Value) :
    Calm ρ (modifyHeap fun h => h.modifyArray r fun _ => h.flatten v) :=
  .modifyHeap_same (fun _ _ => by cases v <;> rfl) fun _ => ⟨rfl, rfl, rfl, rfl⟩

theorem calm_runArray (receiver : Value) (args : Array Value) (which : ArrayMember) :
    Calm ρ (runArray receiver args which) := by
  cases which with
  | length =>
    refine (calm_arrayReceiver _ _).bind fun r => ?_
    exact .ofHeap (fun _ _ _ => rfl) fun _ _ => .pure _
  | setLength =>
    refine (calm_toNumber _).bind fun x => calm_check rfl ?_
    exact (calm_arrayReceiver _ _).bind fun r => (calm_setLength r x).bind fun _ => .pure _
  | add =>
    refine (calm_arrayReceiver _ _).bind fun r => .ofHeap (fun _ _ _ => rfl) fun _ _ => ?_
    exact (calm_setItem r _ _).bind fun _ => .pure _
  | insert =>
    refine (calm_arrayReceiver _ _).bind fun r => (calm_toInt _).bind fun i => ?_
    exact (calm_insertItem r i _).bind fun _ => .pure _
  | erase =>
    refine (calm_arrayReceiver _ _).bind fun r => (calm_toInt _).bind fun i => ?_
    exact (calm_eraseItem r i).bind fun _ => .pure _
  | remove =>
    refine (calm_arrayReceiver _ _).bind fun r => .ite ?_ ?_
    · exact (calm_modifyArray r _).bind fun _ => .pure _
    · refine .ofHeap (fun _ _ _ => rfl) fun h _ => ?_
      split
      · exact (calm_modifyArray r _).bind fun _ => .pure _
      · exact .pure _
  | find =>
    refine (calm_arrayReceiver _ _).bind fun r => .ofHeap (fun _ _ _ => rfl) fun _ _ => ?_
    refine (calm_toInt _).bind fun start => ?_
    dsimp only
    split <;> exact .pure _
  | clear =>
    refine (calm_arrayReceiver _ _).bind fun r => ?_
    exact (calm_modifyArray r _).bind fun _ => .pure _
  | reverse =>
    refine (calm_arrayReceiver _ _).bind fun r => ?_
    exact (calm_modifyArray r _).bind fun _ => .pure _
  | sort =>
    refine (calm_arrayReceiver _ _).bind fun r => .ite ?_ ?_
    · exact (Calm.pure _).bind fun mode => (calm_sortArray r mode).bind fun _ => .pure _
    · exact (calm_textOf _).bind fun mode => (calm_sortArray r mode).bind fun _ => .pure _
  | join =>
    refine (calm_arrayReceiver _ _).bind fun r => (calm_textOf _).bind fun sep => ?_
    exact (calm_joinItems r sep _).bind fun _ => .pure _
  | split =>
    refine (calm_textOf _).bind fun sep => (calm_textOf _).bind fun text => ?_
    exact calm_newArray _
  | assign =>
    refine (calm_arrayReceiver _ _).bind fun r => ?_
    exact (calm_takeOver r _).bind fun _ => .pure _
  | assignStruct =>
    refine (calm_arrayReceiver _ _).bind fun r => (calm_deepCopy _).bind fun copy => ?_
    exact (calm_takeOver r copy).bind fun _ => .pure _

/-! ## The host -/

theorem calm_evalIn (hcall : call.Calm ρ) (source : String) (scope : ScopeRef) :
    Calm ρ (evalIn call source scope) := by
  unfold evalIn
  split
  · rename_i chunk hchunk
    refine hcall _ _ fun c hc => ?_
    cases hc
    exact ⟨source, chunk, hchunk, .refl _⟩
  · rename_i failure hfailure
    exact Tame.throw (ofText_of_compile hfailure).benign

theorem calm_eval (hcall : call.Calm ρ) (source : String) : Calm ρ (eval call source) :=
  .get_bind (fun _ _ => rfl) fun _ => calm_evalIn hcall _ _

/-- A function that a value is was compiled. -/
theorem tame_functionOf? (v : Value) :
    Tame ρ (fun _ => True) (functionOf? v) fun f _ => (∀ g, f = some g → g.Compiled) ∧ True := by
  unfold functionOf?
  split
  · refine .ofHeap (fun _ _ _ => rfl) fun h hg => .pure fun _ _ => ⟨fun g hfun => ?_, trivial⟩
    cases hfun
    exact hg.function _
  · exact .pure fun _ _ => ⟨nofun, trivial⟩

theorem calm_runHost (hcall : call.Calm ρ) (receiver : Value) (args : Array Value)
    (which : HostFunction) : Calm ρ (runHost call receiver args which) := by
  cases which with
  | arguments => exact calm_newArray args
  | receiver => exact .pure _
  | nothing => exact .pure _
  | refuse => exact .raise rfl
  | twice => exact (calm_toNumber _).bind fun _ => .pure _
  | depth => exact .get_bind (fun _ _ => rfl) fun _ => .pure _
  | eval => exact (calm_textOf _).bind fun source => calm_eval hcall source
  | apply =>
    simp only [runHost]
    split
    · exact .pure _
    · exact calm_callValue hcall _ _
  | property =>
    refine (tame_functionOf? _).bind fun getter => .assume fun hgetter => ?_
    refine (tame_functionOf? _).bind fun setter => .assume fun hsetter => ?_
    exact calm_newProperty ⟨hgetter, hsetter⟩
  | increment =>
    simp only [runHost]
    split
    · refine (calm_toInt _).bind fun n => (calm_counterOf _).bind fun m => ?_
      exact (calm_setCounter _ _).bind fun _ => .pure _
    · refine (Calm.pure _).bind fun n => (calm_counterOf _).bind fun m => ?_
      exact (calm_setCounter _ _).bind fun _ => .pure _
  | count => exact (calm_counterOf _).bind fun _ => .pure _
  | label => exact (calm_labelOf _).bind fun _ => .pure _
  | method target =>
    exact .ofHeap (fun _ _ _ => rfl) fun h hg => hcall _ _ (hg.function target)
  | setCount =>
    refine (calm_counterOf _).bind fun _ => (calm_toInt _).bind fun n => ?_
    exact (calm_setCounter _ _).bind fun _ => .pure _
  | doubledCount => exact (calm_counterOf _).bind fun _ => .pure _

end Script

/-- An operation that is calm if the calls that it makes are, whatever region is shut. -/
def Script.StaysCalm {α : Type} (m : Invoke → Script α) : Prop :=
  ∀ (ρ : Option Region) (call : Invoke), call.Calm ρ → Script.Calm ρ (m call)

theorem Host.standard_staysCalm : Host.standard.All Script.StaysCalm where
  run which receiver args _ _ hcall := Script.calm_runHost hcall receiver args which
  construct _ made args _ _ _ := Script.calm_construct args made

/-- Native functions are calm if calls are, and what the host adds is. -/
theorem Host.calm_native {host : Host} (hhost : host.All Script.StaysCalm) {n : Native}
    (hcall : call.Calm ρ) (receiver : Value) (args : Array Value) :
    Script.Calm ρ (host.native call receiver args n) := by
  cases n with
  | log =>
    refine (Script.calm_mapM Script.calm_textOf _).bind fun texts => ?_
    refine Script.Calm.bind ?_ fun _ => .pure _
    exact Script.Tame.modify (fun _ => rfl) fun _ _ => rfl
  | numberToString => exact (Script.calm_textOf receiver).bind fun _ => .pure _
  | string which => exact Script.calm_runString receiver args which
  | array which => exact Script.calm_runArray receiver args which
  | make =>
    cases receiver with
    | classObj c =>
      exact Script.calm_instantiate (fun d made => hhost.construct d made args ρ call hcall) c
    | _ => exact .raise rfl
  | host which => exact hhost.run which receiver args ρ call hcall

end ScriptEngine
