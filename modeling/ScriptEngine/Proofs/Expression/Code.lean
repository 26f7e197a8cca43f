import Mathlib.Tactic
import ScriptEngine.Proofs.Expression.Tree

/-!
# The code of expression trees

What is emitted for a tree, as a function on drafts: the code and the constants of a chunk in the
making, without its measures. A draft only grows (`Draft.Le`), apart from the jumps and loads that
an expression rewrites in its own code. What follows an expression is not affected by a change of
what stands in front of it (`gen_modifyAt`), so that jumps can be read as if their targets had
been known when they were emitted.
-/

namespace ScriptEngine

/-! ## Drafts -/

/-- How names are resolved at a place: the registers of the locals, and whether a name is one of
an enclosing function. -/
structure Names where
  slot? : String → Option Int
  linked : String → Bool

/-- The code and the constants of a chunk in the making. -/
structure Draft where
  code : Array Instruction
  constants : Array Constant

def Chunk.draft (c : Chunk) : Draft :=
  ⟨c.code, c.constants⟩

/-- A jump with another target. -/
def Instruction.aim (i : Instruction) (target : Nat) : Instruction :=
  match i.op with
  | .jump => { i with a := target }
  | .jumpFalse | .jumpTrue => { i with b := target }
  | _ => i

namespace Draft

def size (c : Draft) : Nat :=
  c.code.size

def push (c : Draft) (i : Instruction) : Draft :=
  { c with code := c.code.push i }

def emit (c : Draft) (place : Position) (op : Op) (a : Int) (b : Int := 0) (e : Int := 0) : Draft :=
  c.push ⟨op, a, b, e, place⟩

/-- The index that a constant has or gets. -/
def index (c : Draft) (k : Constant) : Nat :=
  match c.constants.findIdx? (Chunk.interns · k) with
  | some i => i
  | none => c.constants.size

/-- The draft with a constant. -/
def intern (c : Draft) (k : Constant) : Draft :=
  match c.constants.findIdx? (Chunk.interns · k) with
  | some _ => c
  | none => { c with constants := c.constants.push k }

/-- Loads a constant. -/
def load (c : Draft) (place : Position) (dest : Int) (v : Value) : Draft :=
  (c.intern (.value v)).emit place .loadConst dest (c.index (.value v))

def modifyAt (c : Draft) (n : Nat) (f : Instruction → Instruction) : Draft :=
  { c with code := c.code.modify n f }

/-- Points the jump at an index to the end of the code. -/
def land (c : Draft) (n : Nat) : Draft :=
  c.modifyAt n (·.aim c.size)

def erase (c : Draft) (n : Nat) : Draft :=
  c.modifyAt n ({ · with op := .nop })

/-- The draft without its last instruction. -/
def pop (c : Draft) : Draft :=
  { c with code := c.code.pop }

end Draft

/-! ## Code -/

/-- Where the value of an expression comes from, its load being at an index. -/
@[simp] def Expr.operand (names : Names) (d : Int) (load : Nat) : Expr → Operand
  | .name _ s =>
    match names.slot? s with
    | some register => .slot register load
    | none => .member 0 d load
  | .dot _ _ _ _ | .index _ _ _ _ => .member d (d + 1) load
  | .paren _ e _ => e.operand names d load
  | .comma _ _ r => r.operand names d load
  | _ => .temp

/-- The load of an operand. -/
def Operand.load? : Operand → Option Nat
  | .slot _ load | .member _ _ load => some load
  | _ => none

theorem Expr.load_of_operand {names : Names} {d : Int} {load n : Nat} {e : Expr}
    (h : (e.operand names d load).load? = some n) : n = load := by
  fun_induction operand names d load e <;> simp_all [Operand.load?]

/-- The targets are the expressions whose value is loaded from somewhere. -/
theorem Expr.isTarget_eq (names : Names) (d : Int) (load : Nat) (e : Expr) :
    e.isTarget = (e.operand names d load).load?.isSome := by
  fun_induction operand names d load e <;> simp_all [isTarget, Operand.load?]

/-- The name of a class, if it is the first token of an expression. -/
def Expr.className? (cls : Expr) : Option String :=
  match cls.first.kind with
  | .ident s => some s
  | _ => none

/-- The number of items, holes included. -/
@[simp] def Items.count : Items → Int
  | .done => 0
  | .last _ => 1
  | .hole _ items | .more _ _ items => items.count + 1

/-- The number of registers that entries take. -/
@[simp] def Entries.count : Entries → Int
  | .done => 0
  | .last _ _ => 2
  | .more _ _ _ entries => entries.count + 2

/-- The name that an instance falls back to if its class is no value. -/
def fallback? (cls : Expr) (path : List PathStep) : Option String :=
  if path.isEmpty then cls.className? else none

/-- The draft with the name of a class. -/
def Draft.internName (c : Draft) : Option String → Draft
  | some s => c.intern (.value (.str s))
  | none => c

/-- The index of the name of a class. -/
def Draft.nameIndex (c : Draft) : Option String → Int
  | some s => c.index (.value (.str s))
  | none => -1

/-- Selects a member by its name. -/
def Draft.select (c : Draft) (place : Position) (d : Int) (s : String) : Draft :=
  (c.load place (d + 1) (.str s)).emit place .dot d d (d + 1)

def Draft.selectPath (c : Draft) (d : Int) (path : List PathStep) : Draft :=
  path.foldl (fun c step => c.select step.dot d step.name) c

mutual

/-- The code of an expression whose value goes into a register. -/
def Expr.gen (names : Names) : Expr → Int → Draft → Draft
  | .number place x, d, c => c.load place d (.number x)
  | .text place s, d, c => c.load place d (.str s)
  | .truth place b, d, c => c.emit place (if b then .loadTrue else .loadFalse) d
  | .this place, d, c => c.emit place .copy d 1
  | .global place, d, c => c.emit place .loadGlobal d
  | .name place s, d, c =>
    match names.slot? s with
    | some register => c.emit place .copy d register
    | none =>
      let k := c.index (.value (.str s))
      let c := c.intern (.value (.str s))
      let c := if names.linked s then c.emit place .captureUpvalue k else c
      (c.emit place .loadConst d k).emit place .dot d 0 d
  | .paren _ e _, d, c => e.gen names d c
  | .cast _ word place _ e, d, c => (e.gen names d c).emit place word.op d d
  | .unary op place e, d, c => (e.gen names d c).emit place op.op d d
  | .array opening items _, d, c =>
    (items.gen names (d + 1) c).emit opening .makeArray d (d + 1) (d + 1 + items.count)
  | .dict opening entries _, d, c =>
    (entries.gen names (d + 1) c).emit opening .makeDict d (d + 1) (d + 1 + entries.count)
  | .fresh place cls path, d, c =>
    let inner := (cls.gen names d (c.internName cls.className?)).selectPath d path
    (inner.emit place .newObject d d (c.nameIndex (fallback? cls path))).emit place .call d (d + 1)
      (d + 1)
  | .freshWith place cls path _ args _, d, c =>
    let inner := (cls.gen names d (c.internName cls.className?)).selectPath d path
    let made := inner.emit place .newObject d d (c.nameIndex (fallback? cls path))
    (args.gen names (d + 1) made).emit place .call d (d + 1) (d + 1 + args.count)
  | .binary l op place r, d, c =>
    (r.gen names (d + 1) (l.gen names d c)).emit place op.op d d (d + 1)
  | .logic l op place r, d, c =>
    let left := l.gen names d c
    let both := (r.gen names (d + 1) (left.emit place op.leave d)).emit place op.op d d (d + 1)
    let decided := ((both.emit place .jump 0).land left.size).emit place op.decided d
    decided.land both.size
  | .comma l _ r, d, c => r.gen names d (l.gen names d c)
  | .ternary e question a _ b, d, c =>
    let test := e.gen names d c
    let first := a.gen names d (test.emit question .jumpFalse d)
    let second := b.gen names d ((first.emit question .jump 0).land test.size)
    second.land first.size
  | .dot e place _ s, d, c => (e.gen names d c).select place d s
  | .index e opening key _, d, c =>
    (key.gen names (d + 1) (e.gen names d c)).emit opening .dot d d (d + 1)
  | .call e _ args closing, d, c =>
    (args.gen names (d + 1) (e.gen names d c)).emit closing .call d (d + 1) (d + 1 + args.count)
  | .assign target op place e, d, c =>
    let c := target.gen names d c
    match target.operand names d (c.size - 1), op.op? with
    | .slot register load, none => (e.gen names d (c.erase load)).emit place .copy register d
    | .slot register _, some op =>
      ((e.gen names (d + 1) c).emit place op d d (d + 1)).emit place .copy register d
    | .member receiver key load, none =>
      let t := Compile.above d receiver key
      ((e.gen names t (c.erase load)).emit place .dotSet receiver key t).emit place .copy d t
    | .member receiver key load, some op =>
      let t := Compile.above d receiver key
      let c := (e.gen names (t + 1) (c.modifyAt load ({ · with a := t }))).emit place op t t (t + 1)
      (c.emit place .dotSet receiver key t).emit place .copy d t
    | _, _ => c
  | .stepBefore op place target, d, c =>
    let c := target.gen names d c
    match target.operand names d (c.size - 1) with
    | .slot register load => (c.erase load).emit place op.before d register
    | .member receiver key load =>
      let t := Compile.above d receiver key
      let c := (c.modifyAt load ({ · with a := t })).emit place op.before t t
      (c.emit place .dotSet receiver key t).emit place .copy d t
    | _ => c
  | .stepAfter target op place, d, c =>
    let c := target.gen names d c
    match target.operand names d (c.size - 1) with
    | .slot register load => (c.erase load).emit place op.after d register
    | .member receiver key load =>
      let t := Compile.above d receiver key
      let c := (c.modifyAt load ({ · with a := t })).emit place op.after (t + 1) t
      (c.emit place .dotSet receiver key t).emit place .copy d (t + 1)
    | _ => c
  | .delete place target, d, c =>
    let c := target.gen names d c
    let c := match target.operand names d (c.size - 1) with
      | .slot register load => (c.erase load).emit place .loadVoid register
      | .member receiver key load =>
        c.modifyAt load fun _ => { op := .delete, a := receiver, b := key, c := 0, position := place }
      | _ => c
    c.emit place .loadVoid d

/-- The code of items, the first of which goes into a register. -/
def Items.gen (names : Names) : Items → Int → Draft → Draft
  | .done, _, c => c
  | .last e, register, c => e.gen names register c
  | .hole comma items, register, c =>
    items.gen names (register + 1) (c.emit comma .loadVoid register)
  | .more e _ items, register, c => items.gen names (register + 1) (e.gen names register c)

def DictKey.gen (names : Names) : DictKey → Int → Draft → Draft
  | .label _ s colon, register, c => c.load colon register (.str s)
  | .computed e _ _, register, c => e.gen names register c

/-- The code of entries: the first key goes into a register, its value into the next one. -/
def Entries.gen (names : Names) : Entries → Int → Draft → Draft
  | .done, _, c => c
  | .last key e, register, c => e.gen names (register + 1) (key.gen names register c)
  | .more key e _ entries, register, c =>
    entries.gen names (register + 2) (e.gen names (register + 1) (key.gen names register c))

end

/-! ## Growth -/

namespace Draft

/-- A draft that starts with another one. -/
structure Le (c c' : Draft) : Prop where
  code : ∀ (n : Nat) i, c.code[n]? = some i → c'.code[n]? = some i
  constants : ∀ (n : Nat) k, c.constants[n]? = some k → c'.constants[n]? = some k

theorem Le.refl (c : Draft) : c.Le c :=
  ⟨fun _ _ h => h, fun _ _ h => h⟩

theorem Le.trans {c₁ c₂ c₃ : Draft} (h : c₁.Le c₂) (h' : c₂.Le c₃) : c₁.Le c₃ :=
  ⟨fun n i hi => h'.code n i (h.code n i hi), fun n k hk => h'.constants n k (h.constants n k hk)⟩

theorem Le.size {c c' : Draft} (h : c.Le c') : c.size ≤ c'.size := by
  by_contra hn
  have hlt : c'.size < c.code.size := Nat.lt_of_not_le hn
  have hsome := h.code c'.size _ (Array.getElem?_eq_getElem hlt)
  rw [Array.getElem?_eq_none (show c'.code.size ≤ c'.size from le_refl _)] at hsome
  cases hsome

variable {c c' : Draft} {n m : Nat} {f g : Instruction → Instruction}

@[simp] theorem size_push (i : Instruction) : (c.push i).size = c.size + 1 :=
  Array.size_push _

@[simp] theorem size_emit (place : Position) (op : Op) (a b e : Int) :
    (c.emit place op a b e).size = c.size + 1 :=
  Array.size_push _

@[simp] theorem size_intern (k : Constant) : (c.intern k).size = c.size := by
  unfold intern
  split <;> rfl

@[simp] theorem size_internName (s : Option String) : (c.internName s).size = c.size := by
  cases s with
  | none => rfl
  | some s => exact size_intern _

@[simp] theorem size_load (place : Position) (d : Int) (v : Value) :
    (c.load place d v).size = c.size + 1 := by
  simp [load]

@[simp] theorem size_select (place : Position) (d : Int) (s : String) :
    (c.select place d s).size = c.size + 2 := by
  simp [select]

@[simp] theorem size_modifyAt : (c.modifyAt n f).size = c.size :=
  Array.size_modify

@[simp] theorem size_land : (c.land n).size = c.size :=
  size_modifyAt

@[simp] theorem size_erase : (c.erase n).size = c.size :=
  size_modifyAt

@[simp] theorem size_pop : c.pop.size = c.size - 1 :=
  Array.size_pop

theorem code_push (i : Instruction) : (c.push i).code[c.size]? = some i := by
  simp [push, size]

theorem Le.push (h : c.Le c') (i : Instruction) : c.Le (c'.push i) := by
  refine ⟨fun n j hj => ?_, h.constants⟩
  have hlt : n < c'.code.size := (Array.getElem?_eq_some_iff.1 (h.code n j hj)).1
  rw [Draft.push, Array.getElem?_push, if_neg hlt.ne]
  exact h.code n j hj

theorem Le.emit (h : c.Le c') (place : Position) (op : Op) (a b e : Int) :
    c.Le (c'.emit place op a b e) :=
  h.push _

theorem Le.intern (h : c.Le c') (k : Constant) : c.Le (c'.intern k) := by
  unfold Draft.intern
  split
  · exact h
  · refine ⟨h.code, fun n v hv => ?_⟩
    have hlt : n < c'.constants.size :=
      (Array.getElem?_eq_some_iff.1 (h.constants n v hv)).1
    rw [Array.getElem?_push, if_neg hlt.ne]
    exact h.constants n v hv

theorem Le.internName (h : c.Le c') (s : Option String) : c.Le (c'.internName s) := by
  cases s with
  | none => exact h
  | some s => exact h.intern _

theorem Le.load (h : c.Le c') (place : Position) (d : Int) (v : Value) :
    c.Le (c'.load place d v) :=
  (h.intern _).emit ..

theorem Le.select (h : c.Le c') (place : Position) (d : Int) (s : String) :
    c.Le (c'.select place d s) :=
  (h.load ..).emit ..

theorem Le.selectPath (h : c.Le c') (d : Int) (path : List PathStep) :
    c.Le (c'.selectPath d path) := by
  induction path generalizing c' with
  | nil => exact h
  | cons step path ih => exact ih (h.select ..)

/-- A change behind the end of the smaller draft. -/
theorem Le.modifyAt (h : c.Le c') (hn : c.size ≤ n) : c.Le (c'.modifyAt n f) := by
  refine ⟨fun m i hi => ?_, h.constants⟩
  have hlt : m < c.size := (Array.getElem?_eq_some_iff.1 hi).1
  rw [Draft.modifyAt, Array.getElem?_modify, if_neg (by omega)]
  exact h.code m i hi

theorem Le.land (h : c.Le c') (hn : c.size ≤ n) : c.Le (c'.land n) :=
  h.modifyAt hn

theorem Le.erase (h : c.Le c') (hn : c.size ≤ n) : c.Le (c'.erase n) :=
  h.modifyAt hn

theorem Le.pop (h : c.Le c') (hlt : c.size < c'.size) : c.Le c'.pop := by
  refine ⟨fun m i hi => ?_, h.constants⟩
  have hm : m < c.size := (Array.getElem?_eq_some_iff.1 hi).1
  have hm' : m < c'.code.size - 1 := by
    unfold Draft.size at hlt hm
    omega
  rw [Draft.pop, Array.getElem?_pop, if_pos hm']
  exact h.code m i hi

theorem eq_of_interns {k l : Constant} (h : Chunk.interns k l = true) : k = l := by
  unfold Chunk.interns at h
  split at h
  · rw [of_decide_eq_true h]
  · rw [of_decide_eq_true h]
  · cases h

/-- A constant that is there is found at its index. -/
theorem constants_intern (k : Constant) : (c.intern k).constants[c.index k]? = some k := by
  unfold intern index
  rcases hfound : c.constants.findIdx? (Chunk.interns · k) with _ | n
  · simp
  · obtain ⟨hlt, hk, -⟩ := Array.findIdx?_eq_some_iff_getElem.1 hfound
    rw [← eq_of_interns hk]
    exact Array.getElem?_eq_getElem hlt

/-! ## Changes in front of the end -/

theorem push_modifyAt (h : n < c.size) (i : Instruction) :
    (c.modifyAt n f).push i = (c.push i).modifyAt n f := by
  simp only [push, modifyAt, mk.injEq, and_true]
  refine Array.ext_getElem? fun m => ?_
  simp only [Array.getElem?_push, Array.getElem?_modify, Array.size_modify]
  by_cases hm : m = c.code.size
  · simp only [hm, if_true]
    rw [if_neg (by unfold size at h; omega)]
  · simp [hm]

theorem emit_modifyAt (h : n < c.size) (place : Position) (op : Op) (a b e : Int) :
    (c.modifyAt n f).emit place op a b e = (c.emit place op a b e).modifyAt n f :=
  push_modifyAt h _

theorem intern_modifyAt (k : Constant) :
    (c.modifyAt n f).intern k = (c.intern k).modifyAt n f := by
  unfold intern modifyAt
  dsimp only
  split <;> rfl

theorem internName_modifyAt (s : Option String) :
    (c.modifyAt n f).internName s = (c.internName s).modifyAt n f := by
  cases s with
  | none => rfl
  | some s => exact intern_modifyAt _

theorem index_modifyAt (k : Constant) : (c.modifyAt n f).index k = c.index k := by
  unfold index modifyAt
  rfl

theorem nameIndex_modifyAt (s : Option String) :
    (c.modifyAt n f).nameIndex s = c.nameIndex s := by
  cases s <;> rfl

theorem load_modifyAt (h : n < c.size) (place : Position) (d : Int) (v : Value) :
    (c.modifyAt n f).load place d v = (c.load place d v).modifyAt n f := by
  simp only [load, intern_modifyAt, index_modifyAt]
  exact emit_modifyAt (by simpa using h) ..

theorem select_modifyAt (h : n < c.size) (place : Position) (d : Int) (s : String) :
    (c.modifyAt n f).select place d s = (c.select place d s).modifyAt n f := by
  simp only [select, load_modifyAt h]
  exact emit_modifyAt (by simp; omega) ..

theorem selectPath_modifyAt (h : n < c.size) (d : Int) (path : List PathStep) :
    (c.modifyAt n f).selectPath d path = (c.selectPath d path).modifyAt n f := by
  induction path generalizing c with
  | nil => rfl
  | cons step path ih =>
    simp only [selectPath, List.foldl_cons, select_modifyAt h]
    exact ih (by simp; omega)

theorem modifyAt_comm (h : n ≠ m) :
    (c.modifyAt n f).modifyAt m g = (c.modifyAt m g).modifyAt n f := by
  simp only [modifyAt, mk.injEq, and_true]
  refine Array.ext_getElem? fun k => ?_
  simp only [Array.getElem?_modify]
  by_cases hn : n = k
  · subst hn
    simp [h.symm]
  · simp [hn]

theorem land_modifyAt (h : n ≠ m) : (c.modifyAt n f).land m = (c.land m).modifyAt n f := by
  simp only [land, size_modifyAt]
  exact modifyAt_comm h

theorem push_modifyAt_self (i : Instruction) : (c.push i).modifyAt c.size f = c.push (f i) := by
  simp only [push, modifyAt, mk.injEq, and_true]
  refine Array.ext_getElem? fun m => ?_
  simp only [Array.getElem?_push, Array.getElem?_modify, size]
  by_cases hm : m = c.code.size
  · subst hm
    simp
  · simp [hm, Ne.symm hm]

end Draft

mutual

/-- The code of an expression extends a draft by at least one instruction. -/
theorem Expr.le_gen (names : Names) :
    ∀ (e : Expr) (d : Int) (c : Draft), c.Le (e.gen names d c) ∧ c.size < (e.gen names d c).size
  | .number _ _, _, c | .text _ _, _, c => by
    simp only [Expr.gen, Draft.size_load]
    exact ⟨(Draft.Le.refl c).load .., Nat.lt_succ_self _⟩
  | .truth _ _, _, c | .this _, _, c | .global _, _, c => by
    simp only [Expr.gen, Draft.size_emit]
    exact ⟨(Draft.Le.refl c).emit .., Nat.lt_succ_self _⟩
  | .name place s, d, c => by
    simp only [Expr.gen]
    split
    · exact ⟨(Draft.Le.refl c).emit .., by simp⟩
    · split
      · exact ⟨((((Draft.Le.refl c).intern _).emit ..).emit ..).emit .., by simp; omega⟩
      · exact ⟨(((Draft.Le.refl c).intern _).emit ..).emit .., by simp⟩
  | .paren _ e _, d, c => by
    simp only [Expr.gen]
    exact e.le_gen names d c
  | .cast _ _ _ _ e, d, c | .unary _ _ e, d, c => by
    obtain ⟨hle, hlt⟩ := e.le_gen names d c
    simp only [Expr.gen, Draft.size_emit]
    exact ⟨hle.emit .., by omega⟩
  | .array _ items _, d, c => by
    have hle := items.le_gen names (d + 1) c
    have hsize := hle.size
    simp only [Expr.gen, Draft.size_emit]
    exact ⟨hle.emit .., by omega⟩
  | .dict _ entries _, d, c => by
    have hle := entries.le_gen names (d + 1) c
    have hsize := hle.size
    simp only [Expr.gen, Draft.size_emit]
    exact ⟨hle.emit .., by omega⟩
  | .fresh _ cls path, d, c => by
    obtain ⟨hle, hlt⟩ := cls.le_gen names d (c.internName cls.className?)
    have hpath := (((Draft.Le.refl c).internName _).trans hle).selectPath d path
    have hsize := hpath.size
    simp only [Expr.gen, Draft.size_emit]
    exact ⟨(hpath.emit ..).emit .., by omega⟩
  | .freshWith place cls path _ args _, d, c => by
    obtain ⟨hle, hlt⟩ := cls.le_gen names d (c.internName cls.className?)
    have hpath := (((Draft.Le.refl c).internName _).trans hle).selectPath d path
    have hmade := hpath.emit place .newObject d d (c.nameIndex (fallback? cls path))
    have hargs := hmade.trans (args.le_gen names (d + 1) _)
    simp only [Expr.gen, Draft.size_emit]
    exact ⟨hargs.emit .., Nat.lt_succ_of_le hargs.size⟩
  | .binary l _ _ r, d, c => by
    obtain ⟨hl, hl'⟩ := l.le_gen names d c
    obtain ⟨hr, hr'⟩ := r.le_gen names (d + 1) (l.gen names d c)
    simp only [Expr.gen, Draft.size_emit]
    exact ⟨(hl.trans hr).emit .., by omega⟩
  | .logic l op place r, d, c => by
    obtain ⟨hl, hl'⟩ := l.le_gen names d c
    obtain ⟨hr, hr'⟩ := r.le_gen names (d + 1) ((l.gen names d c).emit place op.leave d)
    have hboth := (((hl.emit ..).trans hr).emit place op.op d d (d + 1)).emit place .jump 0 0 0
    simp only [Expr.gen]
    rw [Draft.size_emit] at hr'
    refine ⟨((hboth.land (by omega)).emit ..).land ?_, ?_⟩
    · rw [Draft.size_emit]
      omega
    · simp only [Draft.size_land, Draft.size_emit]
      omega
  | .comma l _ r, d, c => by
    obtain ⟨hl, hl'⟩ := l.le_gen names d c
    obtain ⟨hr, hr'⟩ := r.le_gen names d (l.gen names d c)
    simp only [Expr.gen]
    exact ⟨hl.trans hr, by omega⟩
  | .ternary e question a _ b, d, c => by
    obtain ⟨he, he'⟩ := e.le_gen names d c
    obtain ⟨ha, ha'⟩ := a.le_gen names d ((e.gen names d c).emit question .jumpFalse d)
    have hfirst := (((he.emit ..).trans ha).emit question .jump 0 0 0).land he'.le
    obtain ⟨hb, hb'⟩ := b.le_gen names d _
    simp only [Expr.gen]
    rw [Draft.size_emit] at ha'
    refine ⟨(hfirst.trans hb).land (by omega), ?_⟩
    simp only [Draft.size_land, Draft.size_emit] at hb' ⊢
    omega
  | .dot e _ _ _, d, c => by
    obtain ⟨hle, hlt⟩ := e.le_gen names d c
    simp only [Expr.gen, Draft.size_select]
    exact ⟨hle.select .., by omega⟩
  | .index e _ key _, d, c => by
    obtain ⟨he, he'⟩ := e.le_gen names d c
    obtain ⟨hk, hk'⟩ := key.le_gen names (d + 1) (e.gen names d c)
    simp only [Expr.gen, Draft.size_emit]
    exact ⟨(he.trans hk).emit .., by omega⟩
  | .call e _ args _, d, c => by
    obtain ⟨he, he'⟩ := e.le_gen names d c
    have hargs := args.le_gen names (d + 1) (e.gen names d c)
    have hsize := hargs.size
    simp only [Expr.gen, Draft.size_emit]
    exact ⟨(he.trans hargs).emit .., by omega⟩
  | .assign target op place e, d, c => by
    obtain ⟨ht, ht'⟩ := target.le_gen names d c
    have hlast : c.size ≤ (target.gen names d c).size - 1 := by omega
    simp only [Expr.gen]
    rcases hop : target.operand names d ((target.gen names d c).size - 1) with
      _ | ⟨r, load⟩ | ⟨a, b, load⟩ | _ <;> rcases op.op? with _ | op' <;> dsimp only
    all_goals try obtain rfl := Expr.load_of_operand (congrArg Operand.load? hop)
    · exact ⟨ht, ht'⟩
    · exact ⟨ht, ht'⟩
    · have he := e.le_gen names d ((target.gen names d c).erase ((target.gen names d c).size - 1))
      refine ⟨((ht.erase hlast).trans he.1).emit .., ?_⟩
      simp only [Draft.size_emit, Draft.size_erase] at he ⊢
      omega
    · have he := e.le_gen names (d + 1) (target.gen names d c)
      exact ⟨((ht.trans he.1).emit ..).emit .., by simp only [Draft.size_emit]; omega⟩
    · have he := e.le_gen names (Compile.above d a b)
        ((target.gen names d c).erase ((target.gen names d c).size - 1))
      refine ⟨(((ht.erase hlast).trans he.1).emit ..).emit .., ?_⟩
      simp only [Draft.size_emit, Draft.size_erase] at he ⊢
      omega
    · have he := e.le_gen names (Compile.above d a b + 1)
        ((target.gen names d c).modifyAt ((target.gen names d c).size - 1)
          ({ · with a := Compile.above d a b }))
      refine ⟨((((ht.modifyAt hlast).trans he.1).emit ..).emit ..).emit .., ?_⟩
      simp only [Draft.size_emit, Draft.size_modifyAt] at he ⊢
      omega
    · exact ⟨ht, ht'⟩
    · exact ⟨ht, ht'⟩
  | .stepBefore op place target, d, c => by
    obtain ⟨ht, ht'⟩ := target.le_gen names d c
    have hlast : c.size ≤ (target.gen names d c).size - 1 := by omega
    simp only [Expr.gen]
    rcases hop : target.operand names d ((target.gen names d c).size - 1) with
      _ | ⟨r, load⟩ | ⟨a, b, load⟩ | _ <;> dsimp only
    all_goals try obtain rfl := Expr.load_of_operand (congrArg Operand.load? hop)
    · exact ⟨ht, ht'⟩
    · exact ⟨(ht.erase hlast).emit .., by simp; omega⟩
    · exact ⟨(((ht.modifyAt hlast).emit ..).emit ..).emit .., by simp; omega⟩
    · exact ⟨ht, ht'⟩
  | .stepAfter target op place, d, c => by
    obtain ⟨ht, ht'⟩ := target.le_gen names d c
    have hlast : c.size ≤ (target.gen names d c).size - 1 := by omega
    simp only [Expr.gen]
    rcases hop : target.operand names d ((target.gen names d c).size - 1) with
      _ | ⟨r, load⟩ | ⟨a, b, load⟩ | _ <;> dsimp only
    all_goals try obtain rfl := Expr.load_of_operand (congrArg Operand.load? hop)
    · exact ⟨ht, ht'⟩
    · exact ⟨(ht.erase hlast).emit .., by simp; omega⟩
    · exact ⟨(((ht.modifyAt hlast).emit ..).emit ..).emit .., by simp; omega⟩
    · exact ⟨ht, ht'⟩
  | .delete place target, d, c => by
    obtain ⟨ht, ht'⟩ := target.le_gen names d c
    have hlast : c.size ≤ (target.gen names d c).size - 1 := by omega
    simp only [Expr.gen]
    rcases hop : target.operand names d ((target.gen names d c).size - 1) with
      _ | ⟨r, load⟩ | ⟨a, b, load⟩ | _ <;> dsimp only
    all_goals try obtain rfl := Expr.load_of_operand (congrArg Operand.load? hop)
    · exact ⟨ht.emit .., by simp; omega⟩
    · exact ⟨((ht.erase hlast).emit ..).emit .., by simp; omega⟩
    · exact ⟨(ht.modifyAt hlast).emit .., by simp; omega⟩
    · exact ⟨ht.emit .., by simp; omega⟩

theorem Items.le_gen (names : Names) :
    ∀ (items : Items) (register : Int) (c : Draft), c.Le (items.gen names register c)
  | .done, _, c => by
    simp only [Items.gen]
    exact .refl c
  | .last e, register, c => by
    simp only [Items.gen]
    exact (e.le_gen names register c).1
  | .hole _ items, register, c => by
    simp only [Items.gen]
    exact ((Draft.Le.refl c).emit ..).trans (items.le_gen names _ _)
  | .more e _ items, register, c => by
    simp only [Items.gen]
    exact (e.le_gen names register c).1.trans (items.le_gen names _ _)

theorem DictKey.le_gen (names : Names) :
    ∀ (key : DictKey) (register : Int) (c : Draft), c.Le (key.gen names register c)
  | .label _ _ _, _, c => by
    simp only [DictKey.gen]
    exact (Draft.Le.refl c).load ..
  | .computed e _ _, register, c => by
    simp only [DictKey.gen]
    exact (e.le_gen names register c).1

theorem Entries.le_gen (names : Names) :
    ∀ (entries : Entries) (register : Int) (c : Draft), c.Le (entries.gen names register c)
  | .done, _, c => by
    simp only [Entries.gen]
    exact .refl c
  | .last key e, register, c => by
    simp only [Entries.gen]
    exact (key.le_gen names register c).trans (e.le_gen names _ _).1
  | .more key e _ entries, register, c => by
    simp only [Entries.gen]
    exact ((key.le_gen names register c).trans (e.le_gen names _ _).1).trans
      (entries.le_gen names _ _)

end

section

variable (names : Names) {c : Draft} {n : Nat}

theorem Expr.lt_gen (e : Expr) (d : Int) (h : n < c.size) : n < (e.gen names d c).size :=
  h.trans (e.le_gen names d c).2

theorem Items.lt_gen (items : Items) (register : Int) (h : n < c.size) :
    n < (items.gen names register c).size :=
  h.trans_le (items.le_gen names register c).size

theorem DictKey.lt_gen (key : DictKey) (register : Int) (h : n < c.size) :
    n < (key.gen names register c).size :=
  h.trans_le (key.le_gen names register c).size

theorem Entries.lt_gen (entries : Entries) (register : Int) (h : n < c.size) :
    n < (entries.gen names register c).size :=
  h.trans_le (entries.le_gen names register c).size

theorem Draft.lt_emit (place : Position) (op : Op) (a b e : Int) (h : n < c.size) :
    n < (c.emit place op a b e).size := by
  rw [Draft.size_emit]
  exact Nat.lt_succ_of_lt h

theorem Draft.lt_selectPath (d : Int) (path : List PathStep) (h : n < c.size) :
    n < (c.selectPath d path).size :=
  h.trans_le ((Draft.Le.refl c).selectPath d path).size

end

mutual

/-- What is in front of an expression does not matter for its code. -/
theorem Expr.gen_modifyAt (names : Names) (n : Nat) (f : Instruction → Instruction) :
    ∀ (e : Expr) (d : Int) (c : Draft), n < c.size →
      e.gen names d (c.modifyAt n f) = (e.gen names d c).modifyAt n f
  | .number _ _, _, c, h | .text _ _, _, c, h => by
    simp only [Expr.gen]
    exact Draft.load_modifyAt h ..
  | .truth _ _, _, c, h | .this _, _, c, h | .global _, _, c, h => by
    simp only [Expr.gen]
    exact Draft.emit_modifyAt h ..
  | .name place s, d, c, h => by
    have hintern : n < (c.intern (.value (.str s))).size := by simpa using h
    simp only [Expr.gen, Draft.intern_modifyAt, Draft.index_modifyAt]
    split
    · exact Draft.emit_modifyAt h ..
    · split
      · have hlink := Draft.lt_emit place .captureUpvalue (c.index (.value (.str s))) 0 0 hintern
        rw [Draft.emit_modifyAt hintern, Draft.emit_modifyAt hlink,
          Draft.emit_modifyAt (Draft.lt_emit _ _ _ _ _ hlink)]
      · rw [Draft.emit_modifyAt hintern, Draft.emit_modifyAt (Draft.lt_emit _ _ _ _ _ hintern)]
  | .paren _ e _, d, c, h => by
    simp only [Expr.gen]
    exact e.gen_modifyAt names n f d c h
  | .cast _ _ _ _ e, d, c, h | .unary _ _ e, d, c, h => by
    simp only [Expr.gen]
    rw [e.gen_modifyAt names n f d c h, Draft.emit_modifyAt (e.lt_gen names d h)]
  | .array _ items _, d, c, h => by
    simp only [Expr.gen]
    rw [items.gen_modifyAt names n f _ c h, Draft.emit_modifyAt (items.lt_gen names _ h)]
  | .dict _ entries _, d, c, h => by
    simp only [Expr.gen]
    rw [entries.gen_modifyAt names n f _ c h, Draft.emit_modifyAt (entries.lt_gen names _ h)]
  | .fresh place cls path, d, c, h => by
    have hcls : n < (c.internName cls.className?).size := by simpa using h
    have hpath := Draft.lt_selectPath d path (cls.lt_gen names d hcls)
    simp only [Expr.gen, Draft.internName_modifyAt, Draft.nameIndex_modifyAt]
    rw [cls.gen_modifyAt names n f d _ hcls, Draft.selectPath_modifyAt (cls.lt_gen names d hcls),
      Draft.emit_modifyAt hpath, Draft.emit_modifyAt (Draft.lt_emit _ _ _ _ _ hpath)]
  | .freshWith place cls path _ args _, d, c, h => by
    have hcls : n < (c.internName cls.className?).size := by simpa using h
    have hpath := Draft.lt_selectPath d path (cls.lt_gen names d hcls)
    have hmade := Draft.lt_emit place .newObject d d (c.nameIndex (fallback? cls path)) hpath
    simp only [Expr.gen, Draft.internName_modifyAt, Draft.nameIndex_modifyAt]
    rw [cls.gen_modifyAt names n f d _ hcls, Draft.selectPath_modifyAt (cls.lt_gen names d hcls),
      Draft.emit_modifyAt hpath, args.gen_modifyAt names n f _ _ hmade,
      Draft.emit_modifyAt (args.lt_gen names _ hmade)]
  | .binary l _ _ r, d, c, h => by
    simp only [Expr.gen]
    rw [l.gen_modifyAt names n f d c h, r.gen_modifyAt names n f _ _ (l.lt_gen names d h),
      Draft.emit_modifyAt (r.lt_gen names _ (l.lt_gen names d h))]
  | .logic l op place r, d, c, h => by
    have hl := l.lt_gen names d h
    have hskip := Draft.lt_emit place op.leave d 0 0 hl
    have hr := r.lt_gen names (d + 1) hskip
    have hboth := Draft.lt_emit place op.op d d (d + 1) hr
    have hexit := Draft.lt_emit place .jump 0 0 0 hboth
    simp only [Expr.gen]
    rw [l.gen_modifyAt names n f d c h, Draft.emit_modifyAt hl,
      r.gen_modifyAt names n f _ _ hskip, Draft.emit_modifyAt hr, Draft.emit_modifyAt hboth,
      Draft.size_modifyAt, Draft.size_modifyAt, Draft.land_modifyAt hl.ne,
      Draft.emit_modifyAt (by rwa [Draft.size_land]), Draft.land_modifyAt hboth.ne]
  | .comma l _ r, d, c, h => by
    simp only [Expr.gen]
    rw [l.gen_modifyAt names n f d c h, r.gen_modifyAt names n f _ _ (l.lt_gen names d h)]
  | .ternary e question a _ b, d, c, h => by
    have he := e.lt_gen names d h
    have hskip := Draft.lt_emit question .jumpFalse d 0 0 he
    have ha := a.lt_gen names d hskip
    have hexit := Draft.lt_emit question .jump 0 0 0 ha
    simp only [Expr.gen]
    rw [e.gen_modifyAt names n f d c h, Draft.emit_modifyAt he,
      a.gen_modifyAt names n f _ _ hskip, Draft.emit_modifyAt ha, Draft.size_modifyAt,
      Draft.size_modifyAt, Draft.land_modifyAt he.ne,
      b.gen_modifyAt names n f _ _ (by rwa [Draft.size_land]), Draft.land_modifyAt ha.ne]
  | .dot e _ _ _, d, c, h => by
    simp only [Expr.gen]
    rw [e.gen_modifyAt names n f d c h, Draft.select_modifyAt (e.lt_gen names d h)]
  | .index e _ key _, d, c, h => by
    simp only [Expr.gen]
    rw [e.gen_modifyAt names n f d c h, key.gen_modifyAt names n f _ _ (e.lt_gen names d h),
      Draft.emit_modifyAt (key.lt_gen names _ (e.lt_gen names d h))]
  | .call e _ args _, d, c, h => by
    simp only [Expr.gen]
    rw [e.gen_modifyAt names n f d c h, args.gen_modifyAt names n f _ _ (e.lt_gen names d h),
      Draft.emit_modifyAt (args.lt_gen names _ (e.lt_gen names d h))]
  | .assign target op place e, d, c, h => by
    have ht := target.lt_gen names d h
    have hlt := (target.le_gen names d c).2
    have hload : n ≠ (target.gen names d c).size - 1 := by omega
    simp only [Expr.gen]
    rw [target.gen_modifyAt names n f d c h]
    simp only [Draft.size_modifyAt]
    rcases hop : target.operand names d ((target.gen names d c).size - 1) with
      _ | ⟨r, load⟩ | ⟨a, b, load⟩ | _ <;> rcases op.op? with _ | op' <;> dsimp only
    all_goals obtain rfl := Expr.load_of_operand (congrArg Operand.load? hop)
    · have herase : n < ((target.gen names d c).erase ((target.gen names d c).size - 1)).size := by
        rwa [Draft.size_erase]
      rw [Draft.erase, Draft.modifyAt_comm hload, ← Draft.erase,
        e.gen_modifyAt names n f _ _ herase, Draft.emit_modifyAt (e.lt_gen names _ herase)]
    · rw [e.gen_modifyAt names n f _ _ ht, Draft.emit_modifyAt (e.lt_gen names _ ht),
        Draft.emit_modifyAt (Draft.lt_emit _ _ _ _ _ (e.lt_gen names _ ht))]
    · have herase : n < ((target.gen names d c).erase ((target.gen names d c).size - 1)).size := by
        rwa [Draft.size_erase]
      rw [Draft.erase, Draft.modifyAt_comm hload, ← Draft.erase,
        e.gen_modifyAt names n f _ _ herase, Draft.emit_modifyAt (e.lt_gen names _ herase),
        Draft.emit_modifyAt (Draft.lt_emit _ _ _ _ _ (e.lt_gen names _ herase))]
    · have hmove : n < ((target.gen names d c).modifyAt ((target.gen names d c).size - 1)
          ({ · with a := Compile.above d a b })).size := by
        rwa [Draft.size_modifyAt]
      have he := e.lt_gen names (Compile.above d a b + 1) hmove
      rw [Draft.modifyAt_comm hload, e.gen_modifyAt names n f _ _ hmove, Draft.emit_modifyAt he,
        Draft.emit_modifyAt (Draft.lt_emit _ _ _ _ _ he),
        Draft.emit_modifyAt (Draft.lt_emit _ _ _ _ _ (Draft.lt_emit _ _ _ _ _ he))]
  | .stepBefore op place target, d, c, h => by
    have ht := target.lt_gen names d h
    have hlt := (target.le_gen names d c).2
    have hload : n ≠ (target.gen names d c).size - 1 := by omega
    simp only [Expr.gen]
    rw [target.gen_modifyAt names n f d c h]
    simp only [Draft.size_modifyAt]
    rcases hop : target.operand names d ((target.gen names d c).size - 1) with
      _ | ⟨r, load⟩ | ⟨a, b, load⟩ | _ <;> dsimp only
    all_goals obtain rfl := Expr.load_of_operand (congrArg Operand.load? hop)
    · rw [Draft.erase, Draft.modifyAt_comm hload, ← Draft.erase,
        Draft.emit_modifyAt (by rwa [Draft.size_erase])]
    · have hmove : n < ((target.gen names d c).modifyAt ((target.gen names d c).size - 1)
          ({ · with a := Compile.above d a b })).size := by
        rwa [Draft.size_modifyAt]
      rw [Draft.modifyAt_comm hload, Draft.emit_modifyAt hmove,
        Draft.emit_modifyAt (Draft.lt_emit _ _ _ _ _ hmove),
        Draft.emit_modifyAt (Draft.lt_emit _ _ _ _ _ (Draft.lt_emit _ _ _ _ _ hmove))]
  | .stepAfter target op place, d, c, h => by
    have ht := target.lt_gen names d h
    have hlt := (target.le_gen names d c).2
    have hload : n ≠ (target.gen names d c).size - 1 := by omega
    simp only [Expr.gen]
    rw [target.gen_modifyAt names n f d c h]
    simp only [Draft.size_modifyAt]
    rcases hop : target.operand names d ((target.gen names d c).size - 1) with
      _ | ⟨r, load⟩ | ⟨a, b, load⟩ | _ <;> dsimp only
    all_goals obtain rfl := Expr.load_of_operand (congrArg Operand.load? hop)
    · rw [Draft.erase, Draft.modifyAt_comm hload, ← Draft.erase,
        Draft.emit_modifyAt (by rwa [Draft.size_erase])]
    · have hmove : n < ((target.gen names d c).modifyAt ((target.gen names d c).size - 1)
          ({ · with a := Compile.above d a b })).size := by
        rwa [Draft.size_modifyAt]
      rw [Draft.modifyAt_comm hload, Draft.emit_modifyAt hmove,
        Draft.emit_modifyAt (Draft.lt_emit _ _ _ _ _ hmove),
        Draft.emit_modifyAt (Draft.lt_emit _ _ _ _ _ (Draft.lt_emit _ _ _ _ _ hmove))]
  | .delete place target, d, c, h => by
    have ht := target.lt_gen names d h
    have hlt := (target.le_gen names d c).2
    have hload : n ≠ (target.gen names d c).size - 1 := by omega
    simp only [Expr.gen]
    rw [target.gen_modifyAt names n f d c h]
    simp only [Draft.size_modifyAt]
    rcases hop : target.operand names d ((target.gen names d c).size - 1) with
      _ | ⟨r, load⟩ | ⟨a, b, load⟩ | _ <;> dsimp only
    all_goals try obtain rfl := Expr.load_of_operand (congrArg Operand.load? hop)
    · exact Draft.emit_modifyAt ht ..
    · have herase : n < ((target.gen names d c).erase ((target.gen names d c).size - 1)).size := by
        rwa [Draft.size_erase]
      rw [Draft.erase, Draft.modifyAt_comm hload, ← Draft.erase, Draft.emit_modifyAt herase,
        Draft.emit_modifyAt (Draft.lt_emit _ _ _ _ _ herase)]
    · rw [Draft.modifyAt_comm hload, Draft.emit_modifyAt (by rwa [Draft.size_modifyAt])]
    · exact Draft.emit_modifyAt ht ..

theorem Items.gen_modifyAt (names : Names) (n : Nat) (f : Instruction → Instruction) :
    ∀ (items : Items) (register : Int) (c : Draft), n < c.size →
      items.gen names register (c.modifyAt n f) = (items.gen names register c).modifyAt n f
  | .done, _, c, h => by simp only [Items.gen]
  | .last e, register, c, h => by
    simp only [Items.gen]
    exact e.gen_modifyAt names n f register c h
  | .hole comma items, register, c, h => by
    simp only [Items.gen]
    rw [Draft.emit_modifyAt h, items.gen_modifyAt names n f _ _ (Draft.lt_emit _ _ _ _ _ h)]
  | .more e _ items, register, c, h => by
    simp only [Items.gen]
    rw [e.gen_modifyAt names n f register c h, items.gen_modifyAt names n f _ _ (e.lt_gen names _ h)]

theorem DictKey.gen_modifyAt (names : Names) (n : Nat) (f : Instruction → Instruction) :
    ∀ (key : DictKey) (register : Int) (c : Draft), n < c.size →
      key.gen names register (c.modifyAt n f) = (key.gen names register c).modifyAt n f
  | .label _ _ _, _, c, h => by
    simp only [DictKey.gen]
    exact Draft.load_modifyAt h ..
  | .computed e _ _, register, c, h => by
    simp only [DictKey.gen]
    exact e.gen_modifyAt names n f register c h

theorem Entries.gen_modifyAt (names : Names) (n : Nat) (f : Instruction → Instruction) :
    ∀ (entries : Entries) (register : Int) (c : Draft), n < c.size →
      entries.gen names register (c.modifyAt n f) = (entries.gen names register c).modifyAt n f
  | .done, _, c, h => by simp only [Entries.gen]
  | .last key e, register, c, h => by
    simp only [Entries.gen]
    rw [key.gen_modifyAt names n f register c h, e.gen_modifyAt names n f _ _ (key.lt_gen names _ h)]
  | .more key e _ entries, register, c, h => by
    have hkey := key.lt_gen names register h
    simp only [Entries.gen]
    rw [key.gen_modifyAt names n f register c h, e.gen_modifyAt names n f _ _ hkey,
      entries.gen_modifyAt names n f _ _ (e.lt_gen names _ hkey)]

end

/-! ## Layout -/

/-- Where the load of a target is, which is the last of its instructions. -/
@[simp] def Expr.place : Expr → Position
  | .name place _ | .dot _ place _ _ => place
  | .index _ opening _ _ => opening
  | .paren _ e _ => e.place
  | .comma _ _ r => r.place
  | e => e.first.position

/-- The instruction that loads an operand. -/
def Operand.fetch (d : Int) (place : Position) : Operand → Instruction
  | .slot register _ => ⟨.copy, d, register, 0, place⟩
  | .member receiver key _ => ⟨.dot, d, receiver, key, place⟩
  | _ => ⟨.nop, 0, 0, 0, place⟩

namespace Draft

variable {c : Draft}

theorem pop_push (i : Instruction) : (c.push i).pop = c := by
  simp [pop, push]

theorem push_modifyAt_last (i : Instruction) (f : Instruction → Instruction) :
    (c.push i).modifyAt ((c.push i).size - 1) f = c.push (f i) := by
  rw [size_push, Nat.add_sub_cancel, push_modifyAt_self]

end Draft

section

variable (names : Names)

/-- The code of a target ends with its load. -/
theorem Expr.gen_target {e : Expr} (h : e.isTarget = true) (d : Int) (c : Draft) (n : Nat) :
    e.gen names d c = (e.gen names d c).pop.push ((e.operand names d n).fetch d e.place) := by
  fun_induction isTarget e generalizing c with
  | case1 place s =>
    simp only [gen, operand, Expr.place]
    rcases names.slot? s with _ | register
    · simp only [Draft.emit, Draft.pop_push, Operand.fetch]
    · simp only [Draft.emit, Draft.pop_push, Operand.fetch]
  | case2 e place _ s =>
    simp only [gen, Draft.select, Draft.emit, Draft.pop_push, operand, Operand.fetch, Expr.place]
  | case3 e opening key _ =>
    simp only [gen, Draft.emit, Draft.pop_push, operand, Operand.fetch, Expr.place]
  | case4 _ e _ ih =>
    simp only [gen, operand, Expr.place]
    exact ih h c
  | case5 l _ r ih =>
    simp only [gen, operand, Expr.place]
    exact ih h _
  | case6 => cases h

theorem Expr.le_pop_gen (e : Expr) (d : Int) (c : Draft) : c.Le (e.gen names d c).pop :=
  (e.le_gen names d c).1.pop (e.le_gen names d c).2

end

/-! ## Jumps -/

namespace Draft

/-- Code that does not depend on what is in front of it. -/
def Natural (X : Draft → Draft) : Prop :=
  ∀ c n f, n < c.size → X (c.modifyAt n f) = (X c).modifyAt n f ∧ n < (X c).size

theorem Natural.comp {X Y : Draft → Draft} (hX : Natural X) (hY : Natural Y) :
    Natural fun c => Y (X c) := by
  intro c n f h
  obtain ⟨hx, hx'⟩ := hX c n f h
  obtain ⟨hy, hy'⟩ := hY (X c) n f hx'
  refine ⟨?_, hy'⟩
  dsimp only
  rw [hx, hy]

theorem natural_emit (place : Position) (op : Op) (a b e : Int) :
    Natural (·.emit place op a b e) :=
  fun _ _ _ h => ⟨emit_modifyAt h .., lt_emit _ _ _ _ _ h⟩

variable {X : Draft → Draft} {c : Draft}

/-- Changing the instruction right in front of code. -/
theorem Natural.modifyAt (hX : Natural X) (i : Instruction) (f : Instruction → Instruction) :
    (X (c.push i)).modifyAt c.size f = X (c.push (f i)) := by
  rw [← (hX (c.push i) c.size f (by simp)).1, push_modifyAt_self]

theorem Natural.size (hX : Natural X) (i j : Instruction) :
    (X (c.push i)).size = (X (c.push j)).size := by
  rw [← hX.modifyAt i fun _ => j, size_modifyAt]

/-- A jump over code to its end. -/
theorem Natural.land (hX : Natural X) (i : Instruction) :
    (X (c.push i)).land c.size = X (c.push (i.aim (X (c.push i)).size)) :=
  hX.modifyAt i _

end Draft

section

variable (names : Names)

theorem Expr.natural_gen (e : Expr) (d : Int) : Draft.Natural (e.gen names d) :=
  fun c n f h => ⟨e.gen_modifyAt names n f d c h, e.lt_gen names d h⟩

/-- A conditional expression jumps to its second branch and to its end. -/
theorem Expr.gen_ternary (e a b : Expr) (question colon : Position) (d : Int) (c : Draft) :
    ∃ (test first front : Draft) (skip exit : Nat),
      test = (e.gen names d c).emit question .jumpFalse d skip ∧
        first = a.gen names d test ∧ front = first.emit question .jump exit ∧
          (Expr.ternary e question a colon b).gen names d c = b.gen names d front ∧
            skip = front.size ∧ exit = (b.gen names d front).size := by
  let start := e.gen names d c
  have hskip : Draft.Natural fun c => (a.gen names d c).emit question .jump 0 :=
    (a.natural_gen names d).comp (Draft.natural_emit _ _ _ _ _)
  have hexit := b.natural_gen names d
  let skip := (a.gen names d (start.emit question .jumpFalse d)).size + 1
  let first := a.gen names d (start.emit question .jumpFalse d skip)
  let exit := (b.gen names d (first.emit question .jump 0)).size
  have hsize : (a.gen names d (start.emit question .jumpFalse d)).size = first.size :=
    (a.natural_gen names d).size _ _
  have hfirst : ((a.gen names d (start.emit question .jumpFalse d)).emit question .jump 0).land
      start.size = first.emit question .jump 0 := by
    refine (hskip.land ⟨.jumpFalse, d, 0, 0, question⟩).trans ?_
    simp only [Draft.size_emit]
    rfl
  refine ⟨_, first, _, skip, exit, rfl, rfl, rfl, ?_, ?_, hexit.size _ _⟩
  · simp only [gen]
    rw [hfirst, hsize]
    exact hexit.land ⟨.jump, 0, 0, 0, question⟩
  · rw [Draft.size_emit, ← hsize]

/-- A logical operator jumps to the load of the decided result, and from the computed one to the
end. -/
theorem Expr.gen_logic (l r : Expr) (op : LogicOp) (place : Position) (d : Int) (c : Draft) :
    ∃ (test right both out : Draft) (skip exit : Nat),
      test = (l.gen names d c).emit place op.leave d skip ∧ right = r.gen names (d + 1) test ∧
        both = right.emit place op.op d d (d + 1) ∧ out = both.emit place .jump exit ∧
          (Expr.logic l op place r).gen names d c = out.emit place op.decided d ∧
            skip = out.size ∧ exit = out.size + 1 := by
  let start := l.gen names d c
  have hright : Draft.Natural fun c => (r.gen names (d + 1) c).emit place op.op d d (d + 1) :=
    (r.natural_gen names (d + 1)).comp (Draft.natural_emit _ _ _ _ _)
  let both := fun skip : Int =>
    (r.gen names (d + 1) (start.emit place op.leave d skip)).emit place op.op d d (d + 1)
  let skip := (both 0).size + 1
  have hsize : (both 0).size = (both skip).size := hright.size _ _
  have hboth : ((both 0).emit place .jump 0).land start.size = (both skip).emit place .jump 0 := by
    refine ((hright.comp (Draft.natural_emit place .jump 0 0 0)).land
      ⟨op.leave, d, 0, 0, place⟩).trans ?_
    simp only [Draft.size_emit, both, skip]
    cases op <;> rfl
  refine ⟨_, _, both skip, _, skip, (both skip).size + 2, rfl, rfl, rfl, rfl, ?_, ?_, ?_⟩
  · simp only [gen]
    rw [hboth, hsize]
    exact ((Draft.natural_emit place op.decided d 0 0).land ⟨.jump, 0, 0, 0, place⟩).trans
      (by simp only [Draft.size_emit, Draft.size_push]; rfl)
  · rw [Draft.size_emit, ← hsize]
  · exact congrArg (· + 1) (Draft.size_emit ..).symm

end

end ScriptEngine
