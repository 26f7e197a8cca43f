import ScriptEngine.Proofs.Composed

/-!
# Native functions and instructions are composed

No member of strings or arrays calls a function. Functions of the host may call functions, and run
sources: a source that does not compile fails with an error that has the place in the source. Among
the instructions, those that use members, copy into locals or call functions make calls.
-/

namespace ScriptEngine

namespace Script

/-! ## Strings -/

theorem composed_require (name : String) (args : Array Value) (count : Nat) :
    Composed fun _ => require name args count :=
  .ite (.raise _) (.pure _)

theorem composed_stringReceiver (name : String) (v : Value) :
    Composed fun _ => stringReceiver name v := by
  cases v with
  | str s => exact .pure _
  | _ => exact .raise _

theorem composed_substring (receiver : Value) (args : Array Value) :
    Composed fun _ => substring receiver args := by
  refine (composed_require _ _ _).bind fun _ => (composed_stringReceiver _ _).bind fun s => ?_
  refine (Composed.toInt _).bind fun start => .check ?_
  cases args[1]? with
  | none => exact .pure _
  | some v => exact (Composed.toInt v).bind fun _ => .check (.pure _)

theorem composed_runString (receiver : Value) (args : Array Value) (which : StringMember) :
    Composed fun _ => runString receiver args which := by
  cases which with
  | startsWith =>
    refine (composed_require _ _ _).bind fun _ => (composed_stringReceiver _ _).bind fun s => ?_
    exact (Composed.textOf _).bind fun _ => .pure _
  | indexOf =>
    refine (composed_require _ _ _).bind fun _ => (composed_stringReceiver _ _).bind fun s => ?_
    refine (Composed.textOf _).bind fun needle => (Composed.toInt _).bind fun start => ?_
    refine (Composed.ofExcept _).bind fun place => ?_
    cases place <;> exact .pure _
  | substring => exact composed_substring receiver args
  | format =>
    refine (composed_stringReceiver _ _).bind fun template => ?_
    refine (Composed.array_mapM Composed.textOf args).bind fun texts => ?_
    exact (Composed.ofExcept _).bind fun _ => .pure _
  | _ => exact (composed_stringReceiver _ _).bind fun _ => .pure _

/-! ## Arrays -/

theorem composed_arrayReceiver (name : String) (v : Value) : Composed fun _ => arrayReceiver name v := by
  cases v with
  | array r => exact .pure _
  | _ => exact .raise _

theorem composed_deepClone (fuel : Nat) (ancestors : List Value) (v : Value) :
    Composed fun _ => deepClone fuel ancestors v := by
  induction fuel generalizing ancestors v with
  | zero => exact .throw trivial
  | succ fuel ih =>
    cases v with
    | array r =>
      refine .ite (.raise _) (Composed.getHeap.bind fun h => ?_)
      exact (Composed.array_mapM (ih _) _).bind fun _ => .newArray _
    | dict r =>
      refine .ite (.raise _) (Composed.getHeap.bind fun h => ?_)
      refine (Composed.mapM (fun entry => ?_) _).bind fun _ => .newDict _
      exact (ih _ entry.2).bind fun _ => .pure _
    | _ => exact .pure _

theorem composed_deepCopy (v : Value) : Composed fun _ => deepCopy v :=
  Composed.getHeap.bind fun _ => composed_deepClone _ _ v

theorem composed_insertItem (r : ArrayRef) (requested : Int) (v : Value) :
    Composed fun _ => insertItem r requested v :=
  Composed.get.bind fun _ => .check (.check (.modifyHeap _))

theorem composed_eraseItem (r : ArrayRef) (requested : Int) :
    Composed fun _ => eraseItem r requested := by
  refine Composed.getHeap.bind fun h => ?_
  cases resolveIndex requested (h.array r).size with
  | some index => exact .modifyHeap _
  | none => exact .raise _

theorem composed_sortArray (r : ArrayRef) (mode : String) : Composed fun _ => sortArray r mode := by
  refine Composed.getHeap.bind fun h => (Composed.modifyHeap _).bind fun _ => ?_
  refine Composed.getHeap.bind fun h' => ?_
  dsimp only
  split
  · exact .modifyHeap _
  · exact (Composed.modifyHeap _).bind fun _ => .raise _

theorem composed_joinItems (r : ArrayRef) (sep : String) (skipVoid : Bool) :
    Composed fun _ => joinItems r sep skipVoid :=
  Composed.getHeap.bind fun _ => .pure _

theorem composed_runArray (receiver : Value) (args : Array Value) (which : ArrayMember) :
    Composed fun _ => runArray receiver args which := by
  cases which with
  | length =>
    exact (composed_arrayReceiver _ _).bind fun _ => Composed.getHeap.bind fun _ => .pure _
  | setLength =>
    refine (Composed.toNumber _).bind fun x => .check ?_
    exact (composed_arrayReceiver _ _).bind fun r => (composed_setLength r x).bind fun _ => .pure _
  | add =>
    refine (composed_arrayReceiver _ _).bind fun r => Composed.getHeap.bind fun h => ?_
    exact (composed_setItem r _ _).bind fun _ => .pure _
  | insert =>
    refine (composed_arrayReceiver _ _).bind fun r => (Composed.toInt _).bind fun i => ?_
    exact (composed_insertItem r i _).bind fun _ => .pure _
  | erase =>
    refine (composed_arrayReceiver _ _).bind fun r => (Composed.toInt _).bind fun i => ?_
    exact (composed_eraseItem r i).bind fun _ => .pure _
  | remove =>
    refine (composed_arrayReceiver _ _).bind fun r => .ite ?_ ?_
    · exact (Composed.modifyHeap _).bind fun _ => .pure _
    · refine Composed.getHeap.bind fun h => ?_
      cases findItem? (h.array r).toList (argument args 0) 0 with
      | some index => exact (Composed.modifyHeap _).bind fun _ => .pure _
      | none => exact .pure _
  | find =>
    refine (composed_arrayReceiver _ _).bind fun r => Composed.getHeap.bind fun h => ?_
    refine (Composed.toInt _).bind fun start => ?_
    dsimp only
    split <;> exact .pure _
  | clear => exact (composed_arrayReceiver _ _).bind fun _ => (Composed.modifyHeap _).bind fun _ => .pure _
  | reverse =>
    exact (composed_arrayReceiver _ _).bind fun _ => (Composed.modifyHeap _).bind fun _ => .pure _
  | sort =>
    refine (composed_arrayReceiver _ _).bind fun r => .ite ?_ ?_
    · exact (Composed.pure _).bind fun mode => (composed_sortArray r mode).bind fun _ => .pure _
    · exact (Composed.textOf _).bind fun mode => (composed_sortArray r mode).bind fun _ => .pure _
  | join =>
    refine (composed_arrayReceiver _ _).bind fun r => (Composed.textOf _).bind fun sep => ?_
    exact (composed_joinItems r sep _).bind fun _ => .pure _
  | split =>
    exact (Composed.textOf _).bind fun _ => (Composed.textOf _).bind fun _ => .newArray _
  | assign =>
    exact (composed_arrayReceiver _ _).bind fun _ => (Composed.modifyHeap _).bind fun _ => .pure _
  | assignStruct =>
    refine (composed_arrayReceiver _ _).bind fun r => (composed_deepCopy _).bind fun copy => ?_
    exact (Composed.modifyHeap _).bind fun _ => .pure _

/-! ## The host -/

/-- What is wrong with a source is found at one place of it. -/
theorem fresh_of_compile {source : String} {x : Failure} (h : compile source = .error x) :
    x.Fresh := by
  have htext := ofText_of_compile h
  cases x with
  | error e => exact .inr htext
  | exhausted => trivial

theorem composed_evalIn (source : String) (scope : ScopeRef) :
    Composed fun call => evalIn call source scope := by
  unfold evalIn
  rcases h : compile source with x | chunk
  · exact .throw (fresh_of_compile h)
  · exact .invoke _ _

theorem composed_eval (source : String) : Composed fun call => eval call source :=
  Composed.get.bind fun _ => composed_evalIn source _

theorem composed_functionOf? (v : Value) : Composed fun _ => functionOf? v := by
  cases v with
  | function r => exact Composed.getHeap.bind fun _ => .pure _
  | _ => exact .pure _

theorem composed_runHost (receiver : Value) (args : Array Value) (which : HostFunction) :
    Composed fun call => runHost call receiver args which := by
  cases which with
  | arguments => exact .newArray args
  | receiver => exact .pure _
  | nothing => exact .pure _
  | refuse => exact .raise _
  | twice => exact (Composed.toNumber _).bind fun _ => .pure _
  | depth => exact Composed.get.bind fun _ => .pure _
  | eval => exact (Composed.textOf _).bind fun source => composed_eval source
  | apply =>
    unfold runHost
    cases args.toList with
    | nil => exact .pure _
    | cons callee rest => exact composed_callValue callee _
  | property =>
    refine (composed_functionOf? _).bind fun getter => (composed_functionOf? _).bind fun setter => ?_
    exact .newProperty _
  | increment =>
    unfold runHost
    cases args[0]? with
    | some v =>
      refine (Composed.toInt v).bind fun n => (composed_counterOf _).bind fun count => ?_
      exact (composed_setCounter _ _).bind fun _ => .pure _
    | none =>
      refine (Composed.pure 1).bind fun n => (composed_counterOf _).bind fun count => ?_
      exact (composed_setCounter _ _).bind fun _ => .pure _
  | count => exact (composed_counterOf _).bind fun _ => .pure _
  | label => exact (composed_labelOf _).bind fun _ => .pure _
  | method target => exact Composed.getHeap.bind fun h => .invoke _ args
  | setCount =>
    refine (composed_counterOf _).bind fun _ => (Composed.toInt _).bind fun n => ?_
    exact (composed_setCounter _ n).bind fun _ => .pure _
  | doubledCount => exact (composed_counterOf _).bind fun _ => .pure _

end Script

theorem Host.standard_all : Host.standard.All Script.Composed where
  run which receiver args := Script.composed_runHost receiver args which
  construct _ made args := Script.composed_construct args made

theorem Host.All.mono {host : Host} {P Q : ∀ {α : Type}, (Invoke → Script α) → Prop}
    (h : host.All P) (hPQ : ∀ {α : Type} {m : Invoke → Script α}, P m → Q m) : host.All Q :=
  ⟨fun _ _ _ => hPQ (h.run _ _ _), fun _ _ _ => hPQ (h.construct _ _ _)⟩

/-- Native functions are of the kind that all that the host adds is of. -/
theorem Host.All.native {host : Host} {P : ∀ {α : Type}, (Invoke → Script α) → Prop}
    (h : host.All P) (hP : Script.Closed P) (receiver : Value) (args : Array Value) (n : Native) :
    P fun call => host.native call receiver args n := by
  cases n with
  | log =>
    exact hP.composed ((Script.Composed.mapM Script.Composed.textOf _).bind fun texts =>
      (Script.Composed.note _).bind fun _ => .pure _)
  | numberToString => exact hP.composed ((Script.Composed.textOf _).bind fun _ => .pure _)
  | string which => exact hP.composed (Script.composed_runString receiver args which)
  | array which => exact hP.composed (Script.composed_runArray receiver args which)
  | make =>
    cases receiver with
    | classObj c => exact hP.instantiate (fun d made => h.construct d made args) c
    | _ => exact hP.composed (.raise _)
  | host which => exact h.run which receiver args

/-! ## Frames -/

namespace Frame

open Script

variable (f : Frame)

theorem composed_slot (r : Int) : Composed fun _ => f.slot r :=
  Composed.getHeap.bind fun _ => .ite (.pure _) (.raise _)

theorem composed_read (r : Int) : Composed fun _ => f.read r := by
  refine .ite (.raise _) (Composed.getHeap.bind fun h => ?_)
  cases h.cell? ⟨f.window, ((f.base : Int) + r).toNat⟩ with
  | some v => exact .pure _
  | none => exact .raise _

theorem composed_write (r : Int) (v : Value) : Composed fun _ => f.write r v :=
  (f.composed_slot r).bind fun _ => .modifyHeap _

theorem composed_number (r : Int) : Composed fun _ => f.number r :=
  (f.composed_read r).bind fun _ => .toNumber _

theorem composed_int (r : Int) : Composed fun _ => f.int r :=
  (f.composed_read r).bind fun _ => .ofExcept _

theorem composed_rangeFrom (before : Array Value) (first : Int) (count : Nat) :
    Composed fun _ => f.rangeFrom before first count := by
  induction count generalizing before first with
  | zero => exact .pure _
  | succ count ih => exact (f.composed_read first).bind fun _ => ih _ _

theorem composed_range (first behind : Int) : Composed fun _ => f.range first behind :=
  f.composed_rangeFrom _ _ _

theorem composed_constant (k : Int) : Composed fun _ => f.constant k := by
  unfold Frame.constant
  split
  · exact .pure _
  · exact .raise _

theorem composed_constantValue (k : Int) : Composed fun _ => f.constantValue k := by
  refine (f.composed_constant k).bind fun found => ?_
  cases found with
  | value v => exact .pure _
  | template chunk => exact .newFunction _

theorem composed_name (k : Int) : Composed fun _ => f.name k := by
  refine (f.composed_constant k).bind fun found => ?_
  cases found with
  | template chunk => exact .raise _
  | value v =>
    cases v with
    | str s => exact .pure _
    | _ => exact .raise _

theorem composed_copy (dest source : Int) : Composed fun call => f.copy call dest source := by
  refine (f.composed_read source).bind fun v => .ite ?_ (f.composed_write dest v)
  refine (f.composed_read dest).bind fun old => ?_
  cases old with
  | property r => exact Composed.getHeap.bind fun h => Script.composed_write _ v
  | _ => exact f.composed_write dest v

theorem composed_globalClass (name : String) : Composed fun _ => globalClass name := by
  refine Composed.get.bind fun e => ?_
  rcases e.heap.lookup? e.globalScope name with _ | v
  · exact .raise _
  · cases v with
    | classObj c => exact .pure _
    | _ => exact .raise _

theorem composed_resolveClass (target : Value) (fallback : Int) :
    Composed fun _ => f.resolveClass target fallback := by
  cases target with
  | classObj c => exact .pure _
  | str name => exact composed_globalClass name
  | _ => exact .ite ((f.composed_name _).bind fun _ => composed_globalClass _) (.raise _)

theorem composed_makeFunction (i : Instruction) : Composed fun _ => f.makeFunction i := by
  refine (f.composed_read _).bind fun v => ?_
  cases v with
  | function r =>
    refine (f.composed_range _ _).bind fun defaults => Composed.get.bind fun e => ?_
    exact (Composed.newFunction _).bind fun _ => f.composed_write _ _
  | _ => exact .raise _

theorem composed_bindClosure (i : Instruction) : Composed fun _ => f.bindClosure i := by
  refine (f.composed_read _).bind fun v => ?_
  cases v with
  | function r =>
    refine Composed.getHeap.bind fun h => ?_
    exact (Composed.newFunction _).bind fun _ => f.composed_write _ _
  | _ => exact .raise _

theorem composed_add (i : Instruction) : Composed fun _ => f.add i := by
  refine (f.composed_read _).bind fun x => (f.composed_read _).bind fun y => ?_
  cases x with
  | str s => exact (Composed.textOf y).bind fun _ => f.composed_write _ _
  | _ =>
    exact (Composed.toNumber _).bind fun _ => (Composed.toNumber y).bind fun _ => f.composed_write _ _

theorem composed_char (i : Instruction) : Composed fun _ => f.char i := by
  refine (f.composed_read _).bind fun v => (Composed.textOf v).bind fun text => ?_
  cases Text.charAt? text 0 with
  | some c => exact f.composed_write _ _
  | none => exact .raise _

theorem composed_intOp (i : Instruction) (op : Int32 → Int32 → Int32) :
    Composed fun _ => f.intOp i op :=
  (f.composed_int _).bind fun _ => (f.composed_int _).bind fun _ => f.composed_write _ _

theorem composed_numberOp (i : Instruction) (op : Number → Number → Number) :
    Composed fun _ => f.numberOp i op :=
  (f.composed_number _).bind fun _ => (f.composed_number _).bind fun _ => f.composed_write _ _

theorem composed_testOp (i : Instruction) (op : Value → Value → Bool) :
    Composed fun _ => f.testOp i op :=
  (f.composed_read _).bind fun _ => (f.composed_read _).bind fun _ => f.composed_write _ _

theorem composed_orderOp (i : Instruction) (swapped : Bool) (op : Heap → Value → Value → Bool) :
    Composed fun _ => f.orderOp i swapped op :=
  (f.composed_read _).bind fun _ => (f.composed_read _).bind fun _ => Composed.getHeap.bind fun _ =>
    f.composed_write _ _

theorem composed_stepBefore (i : Instruction) (op : Int32 → Int32) :
    Composed fun _ => f.stepBefore i op :=
  (f.composed_int _).bind fun _ => (f.composed_write _ _).bind fun _ =>
    .ite (.pure _) (f.composed_write _ _)

theorem composed_stepAfter (i : Instruction) (op : Int32 → Int32) :
    Composed fun _ => f.stepAfter i op :=
  (f.composed_read _).bind fun _ => (Composed.ofExcept _).bind fun _ => (f.composed_write _ _).bind fun _ =>
    f.composed_write _ _

/-- The result of an instruction is written. -/
theorem composed_result {α : Type} {m : Invoke → Script α} (hm : Composed m) (r : Int) (g : α → Value) :
    Composed fun call => m call >>= fun a => f.write r (g a) :=
  hm.bind fun a => f.composed_write r (g a)

theorem composed_perform (i : Instruction) : Composed fun call => f.perform call i := by
  obtain ⟨op, a, b, c, place⟩ := i
  cases op with
  | bitAnd | bitOr | bitXor | shl | shr => exact f.composed_intOp _ _
  | sub | mod | div | mul => exact f.composed_numberOp _ _
  | add => exact f.composed_add _
  | intDiv =>
    refine (f.composed_int _).bind fun divisor => .check ?_
    exact f.composed_result (f.composed_int _) _ _
  | and =>
    exact (f.composed_read _).bind fun _ => .ite (f.composed_result (f.composed_read _) _ _)
      (f.composed_write _ _)
  | or =>
    exact (f.composed_read _).bind fun _ => .ite (f.composed_write _ _)
      (f.composed_result (f.composed_read _) _ _)
  | eq | notEq | strictEq | strictNotEq => exact f.composed_testOp _ _
  | gt | ge | lt | le => exact f.composed_orderOp _ _ _
  | not | typeOf => exact f.composed_result (f.composed_read _) _ _
  | bitNot | toInt => exact f.composed_result (f.composed_int _) _ _
  | toReal | toNumber | negate => exact f.composed_result (f.composed_number _) _ _
  | toStr => exact (f.composed_read _).bind fun v => f.composed_result (.textOf v) _ _
  | char => exact f.composed_char _
  | strOf => exact (f.composed_int _).bind fun _ => .ite (f.composed_write _ _) (.raise _)
  | dot =>
    refine (f.composed_read _).bind fun v => (f.composed_read _).bind fun key => ?_
    exact f.composed_result (composed_getMember v key) _ _
  | dotSet =>
    refine (f.composed_read _).bind fun v => (f.composed_read _).bind fun key => ?_
    exact (f.composed_read _).bind fun x => composed_setMember v key x
  | dotSetVoid =>
    exact (f.composed_read _).bind fun v => (f.composed_read _).bind fun key => composed_setMember v key _
  | delete =>
    exact (f.composed_read _).bind fun v => (f.composed_read _).bind fun key => composed_removeMember v key
  | loadConst => exact f.composed_result (f.composed_constantValue _) _ _
  | copy => exact f.composed_copy _ _
  | loadVoid | loadTrue | loadFalse => exact f.composed_write _ _
  | call =>
    refine (f.composed_read _).bind fun callee => (f.composed_range _ _).bind fun args => ?_
    exact f.composed_result (composed_callValue callee args) _ _
  | inc | dec => exact f.composed_stepBefore _ _
  | postInc | postDec => exact f.composed_stepAfter _ _
  | makeArray => exact (f.composed_range _ _).bind fun items => f.composed_result (.newArray items) _ _
  | makeDict =>
    refine (f.composed_range _ _).bind fun items => Composed.getHeap.bind fun h => ?_
    exact f.composed_result (.newDict _) _ _
  | makeFunc => exact f.composed_makeFunction _
  | bindClosure => exact f.composed_bindClosure _
  | newObject =>
    exact (f.composed_read _).bind fun v => f.composed_result (f.composed_resolveClass v _) _ _
  | instanceOf =>
    refine (f.composed_read _).bind fun target => Composed.getHeap.bind fun h => ?_
    exact f.composed_result (f.composed_read _) _ _
  | loadGlobal => exact f.composed_result Composed.get _ _
  | registerLocal =>
    exact (f.composed_name _).bind fun _ => (f.composed_slot _).bind fun _ => .modifyHeap _
  | captureUpvalue => exact (f.composed_name _).bind fun _ => .modifyHeap _
  | nop | jump | jumpFalse | jumpTrue | ret | retVoid => exact .pure _

theorem composed_jumpTo (target : Int) : Composed fun _ => jumpTo target :=
  .ite (.pure _) (.raise _)

theorem composed_step (i : Instruction) : Composed fun call => f.step call i := by
  obtain ⟨op, a, b, c, place⟩ := i
  cases op with
  | jump => exact composed_jumpTo _
  | jumpFalse | jumpTrue => exact (f.composed_read _).bind fun _ => .ite (composed_jumpTo _) (.pure _)
  | ret => exact (f.composed_read _).bind fun _ => .pure _
  | retVoid => exact .pure _
  | _ => exact (f.composed_perform _).bind fun _ => .pure _

end Frame

end ScriptEngine
