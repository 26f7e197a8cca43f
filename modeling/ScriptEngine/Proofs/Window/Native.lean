import ScriptEngine.Proofs.Tame.Native
import ScriptEngine.Proofs.Window.Contained

/-!
# Native functions keep windows as they are

Members of strings and arrays have no registers to name. Functions of the host may also call
functions and run sources. What a source is compiled to was built, too, so that all of this is
contained as long as calls are, and so is what a host adds (`Host.contained_native`).
-/

namespace ScriptEngine

variable {h : Heap} {call : Invoke}

namespace Script

/-! ## Strings -/

theorem contained_require (name : String) (args : Array Value) (count : Nat) :
    Contained h (require name args count) fun _ => True :=
  .ite (fun _ => .raise rfl) fun _ => .pure trivial

theorem contained_stringReceiver (name : String) (v : Value) :
    Contained h (stringReceiver name v) fun _ => True := by
  unfold stringReceiver
  split
  · exact .pure trivial
  · exact .raise rfl

theorem contained_substring (receiver : Value) (args : Array Value) :
    Contained h (substring receiver args) fun _ => True := by
  refine (contained_require _ _ _).bind fun _ _ => (contained_stringReceiver _ _).bind fun s _ => ?_
  refine (Contained.toInt _).bind fun start _ => .check rfl ?_
  dsimp only
  split
  · exact .pure trivial
  · exact (Contained.toInt _).bind fun length _ => .check rfl (.pure trivial)

theorem contained_runString (receiver : Value) (args : Array Value) (which : StringMember) :
    Contained h (runString receiver args which) fun _ => True := by
  cases which with
  | length | toString | toLowerCase | toUpperCase =>
    exact (contained_stringReceiver _ _).bind fun _ _ => .pure trivial
  | startsWith =>
    refine (contained_require _ _ _).bind fun _ _ => ?_
    refine (contained_stringReceiver _ _).bind fun s _ => ?_
    exact (Contained.textOf _).bind fun _ _ => .pure trivial
  | indexOf =>
    refine (contained_require _ _ _).bind fun _ _ => ?_
    refine (contained_stringReceiver _ _).bind fun s _ => ?_
    refine (Contained.textOf _).bind fun needle _ => (Contained.toInt _).bind fun start _ => ?_
    refine (Contained.ofExcept fun _ => indexOf_error).bind fun place _ => ?_
    cases place <;> exact .pure trivial
  | substring => exact contained_substring receiver args
  | format =>
    refine (contained_stringReceiver _ _).bind fun template _ => ?_
    refine (Contained.array_mapM Contained.textOf args).bind fun texts _ => ?_
    exact (Contained.ofExcept fun _ => format_error).bind fun _ _ => .pure trivial

/-! ## Arrays -/

theorem contained_arrayReceiver (name : String) (v : Value) :
    Contained h (arrayReceiver name v) fun _ => True := by
  unfold arrayReceiver
  split
  · exact .pure trivial
  · exact .raise rfl

theorem contained_deepClone (fuel : Nat) (ancestors : List Value) (v : Value) :
    Contained h (deepClone fuel ancestors v) fun _ => True := by
  induction fuel generalizing ancestors v with
  | zero => exact .throw trivial
  | succ fuel ih =>
    unfold deepClone
    split
    · refine .ite (fun _ => .raise rfl) fun _ => Contained.getHeap.bind fun _ _ => ?_
      exact (Contained.array_mapM (ih _) _).bind fun _ _ => .newArray _
    · refine .ite (fun _ => .raise rfl) fun _ => Contained.getHeap.bind fun _ _ => ?_
      refine (Contained.mapM (fun entry => ?_) _).bind fun _ _ => .newDict _
      exact (ih _ _).bind fun _ _ => .pure trivial
    · exact .pure trivial

theorem contained_deepCopy (v : Value) : Contained h (deepCopy v) fun _ => True :=
  Contained.getHeap.bind fun _ _ => contained_deepClone _ _ v

theorem contained_insertItem (r : ArrayRef) (requested : Int) (v : Value) :
    Contained h (insertItem r requested v) fun _ => True :=
  Contained.get.bind fun _ _ => .check rfl (.check rfl (contained_modifyArray r _))

theorem contained_eraseItem (r : ArrayRef) (requested : Int) :
    Contained h (eraseItem r requested) fun _ => True := by
  refine Contained.getHeap.bind fun _ _ => ?_
  split
  · exact contained_modifyArray _ _
  · exact .raise rfl

theorem contained_sortArray (r : ArrayRef) (mode : String) :
    Contained h (sortArray r mode) fun _ => True := by
  refine Contained.getHeap.bind fun h' _ => (contained_modifyArray r _).bind fun _ _ => ?_
  refine Contained.getHeap.bind fun h' _ => ?_
  dsimp only
  split
  · exact contained_modifyArray r _
  · rename_i cause hcause
    refine (contained_modifyArray r _).bind fun _ _ => .throw (Failure.Benign.inside ?_)
    split at hcause
    · exact Failure.benign_runtime (sortValues_error hcause)
    · cases hcause
      exact Failure.benign_runtime rfl

theorem contained_joinItems (r : ArrayRef) (sep : String) (skipVoid : Bool) :
    Contained h (joinItems r sep skipVoid) fun _ => True :=
  Contained.getHeap.bind fun _ _ => .pure trivial

/-- An array takes over the items of a value. -/
theorem contained_takeOver (r : ArrayRef) (v : Value) :
    Contained h (modifyHeap fun h => h.modifyArray r fun _ => h.flatten v) fun _ => True :=
  .modifyHeap_same fun _ => ⟨rfl, rfl, rfl⟩

theorem contained_runArray (receiver : Value) (args : Array Value) (which : ArrayMember) :
    Contained h (runArray receiver args which) fun _ => True := by
  cases which with
  | length =>
    exact (contained_arrayReceiver _ _).bind fun r _ =>
      Contained.getHeap.bind fun _ _ => .pure trivial
  | setLength =>
    refine (Contained.toNumber _).bind fun x _ => .check rfl ?_
    exact (contained_arrayReceiver _ _).bind fun r _ =>
      (contained_setLength r x).bind fun _ _ => .pure trivial
  | add =>
    refine (contained_arrayReceiver _ _).bind fun r _ => Contained.getHeap.bind fun _ _ => ?_
    exact (contained_setItem r _ _).bind fun _ _ => .pure trivial
  | insert =>
    refine (contained_arrayReceiver _ _).bind fun r _ => (Contained.toInt _).bind fun i _ => ?_
    exact (contained_insertItem r i _).bind fun _ _ => .pure trivial
  | erase =>
    refine (contained_arrayReceiver _ _).bind fun r _ => (Contained.toInt _).bind fun i _ => ?_
    exact (contained_eraseItem r i).bind fun _ _ => .pure trivial
  | remove =>
    refine (contained_arrayReceiver _ _).bind fun r _ => .ite (fun _ => ?_) fun _ => ?_
    · exact (contained_modifyArray r _).bind fun _ _ => .pure trivial
    · refine Contained.getHeap.bind fun _ _ => ?_
      split
      · exact (contained_modifyArray r _).bind fun _ _ => .pure trivial
      · exact .pure trivial
  | find =>
    refine (contained_arrayReceiver _ _).bind fun r _ => Contained.getHeap.bind fun _ _ => ?_
    refine (Contained.toInt _).bind fun start _ => ?_
    dsimp only
    split <;> exact .pure trivial
  | clear | reverse =>
    refine (contained_arrayReceiver _ _).bind fun r _ => ?_
    exact (contained_modifyArray r _).bind fun _ _ => .pure trivial
  | sort =>
    refine (contained_arrayReceiver _ _).bind fun r _ => .ite (fun _ => ?_) fun _ => ?_
    · refine (Contained.pure (Q := fun _ => True) trivial).bind fun mode _ => ?_
      exact (contained_sortArray r mode).bind fun _ _ => .pure trivial
    · refine (Contained.textOf _).bind fun mode _ => ?_
      exact (contained_sortArray r mode).bind fun _ _ => .pure trivial
  | join =>
    refine (contained_arrayReceiver _ _).bind fun r _ => (Contained.textOf _).bind fun sep _ => ?_
    exact (contained_joinItems r sep _).bind fun _ _ => .pure trivial
  | split =>
    refine (Contained.textOf _).bind fun sep _ => (Contained.textOf _).bind fun text _ => ?_
    exact .newArray _
  | assign =>
    refine (contained_arrayReceiver _ _).bind fun r _ => ?_
    exact (contained_takeOver r _).bind fun _ _ => .pure trivial
  | assignStruct =>
    refine (contained_arrayReceiver _ _).bind fun r _ => ?_
    refine (contained_deepCopy _).bind fun copy _ => ?_
    exact (contained_takeOver r copy).bind fun _ _ => .pure trivial

/-! ## The host -/

theorem contained_evalIn (hcall : call.Contained) (source : String) (scope : ScopeRef) :
    Contained h (evalIn call source scope) fun _ => True := by
  unfold evalIn
  split
  · rename_i chunk hchunk
    refine hcall h _ _ fun c hc => ?_
    cases hc
    exact .compiled ⟨source, chunk, hchunk, .refl _⟩
  · rename_i failure hfailure
    exact .throw (ofText_of_compile hfailure).benign.inside

theorem contained_eval (hcall : call.Contained) (source : String) :
    Contained h (eval call source) fun _ => True :=
  Contained.get.bind fun _ _ => contained_evalIn hcall _ _

theorem contained_functionOf? (v : Value) :
    Contained h (functionOf? v) fun f => ∀ g, f = some g → g.Built := by
  unfold functionOf?
  split
  · refine Contained.getHeap.bind fun h' hh => .pure fun g hg => ?_
    cases hg
    exact hh.built.function _
  · exact .pure fun _ hg => by cases hg

theorem contained_runHost (hcall : call.Contained) (receiver : Value) (args : Array Value)
    (which : HostFunction) : Contained h (runHost call receiver args which) fun _ => True := by
  cases which with
  | arguments => exact .newArray args
  | receiver | nothing => exact .pure trivial
  | refuse => exact .raise rfl
  | twice => exact (Contained.toNumber _).bind fun _ _ => .pure trivial
  | depth => exact Contained.get.bind fun _ _ => .pure trivial
  | eval => exact (Contained.textOf _).bind fun source _ => contained_eval hcall source
  | apply =>
    simp only [runHost]
    split
    · exact .pure trivial
    · exact contained_callValue hcall _ _
  | property =>
    refine (contained_functionOf? _).bind fun getter hgetter => ?_
    refine (contained_functionOf? _).bind fun setter hsetter => ?_
    exact .newProperty ⟨hgetter, hsetter⟩
  | increment =>
    simp only [runHost]
    split
    · refine (Contained.toInt _).bind fun n _ => (contained_counterOf _).bind fun m _ => ?_
      exact (contained_setCounter _ _).bind fun _ _ => .pure trivial
    · refine (Contained.pure (Q := fun _ => True) trivial).bind fun n _ => ?_
      refine (contained_counterOf _).bind fun m _ => ?_
      exact (contained_setCounter _ _).bind fun _ _ => .pure trivial
  | count | doubledCount => exact (contained_counterOf _).bind fun _ _ => .pure trivial
  | label => exact (contained_labelOf _).bind fun _ _ => .pure trivial
  | method target =>
    exact Contained.getHeap.bind fun _ hh => hcall h _ _ (hh.built.function target)
  | setCount =>
    refine (contained_counterOf _).bind fun _ _ => (Contained.toInt _).bind fun n _ => ?_
    exact (contained_setCounter _ _).bind fun _ _ => .pure trivial

end Script

/-- An operation that is contained if the calls that it makes are. -/
def Script.StaysContained {α : Type} (m : Invoke → Script α) : Prop :=
  ∀ (h : Heap) (call : Invoke), call.Contained → Script.Contained h (m call) fun _ => True

theorem Host.standard_staysContained : Host.standard.All Script.StaysContained where
  run which receiver args _ _ hcall := Script.contained_runHost hcall receiver args which
  construct _ made args _ _ _ := Script.contained_construct args made

/-- Native functions are contained if calls are, and what the host adds is. -/
theorem Host.contained_native {host : Host} (hhost : host.All Script.StaysContained) (n : Native)
    (hcall : call.Contained) (receiver : Value) (args : Array Value) :
    Script.Contained h (host.native call receiver args n) fun _ => True := by
  cases n with
  | log =>
    refine (Script.Contained.mapM Script.Contained.textOf _).bind fun texts _ => ?_
    refine Script.Contained.bind (Q := fun _ => True) ?_ fun _ _ => .pure trivial
    exact .modify fun _ => rfl
  | numberToString => exact (Script.Contained.textOf receiver).bind fun _ _ => .pure trivial
  | string which => exact Script.contained_runString receiver args which
  | array which => exact Script.contained_runArray receiver args which
  | make =>
    cases receiver with
    | classObj c =>
      exact Script.contained_instantiate (fun d made => hhost.construct d made args h call hcall) c
    | _ => exact .raise rfl
  | host which => exact hhost.run which receiver args h call hcall

end ScriptEngine
