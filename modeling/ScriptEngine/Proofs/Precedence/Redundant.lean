import ScriptEngine.Proofs.Precedence.Shape

/-!
# Redundant parentheses

The parentheses that the powers of the operators do not ask for have no effect on the code. The
tree of an expression is read from its text if the expression `fits` (`Shape.compile_source`), and
the code of a tree depends neither on its parentheses nor on its positions, apart from the
positions of the instructions (`Shape.alike`). So all texts of an expression that can be read as it
have the same code (`redundant_parentheses_make_no_code`).
-/

namespace ScriptEngine

variable {ps ps' : Nat → Position}

/-! ## The tree of a text -/

theorem Shape.stops_toExpr {kind : Token.Kind} (s : Shape) (n : Nat) (h : s.stops kind = true) :
    (s.toExpr ps n).Stops kind := by
  fun_induction Shape.stops kind s generalizing n with
  | case10 s => cases s <;> first | trivial | simp_all
  | _ =>
    rename_i ih
    simp only [Bool.and_eq_true, decide_eq_true_eq] at h
    exact ⟨h.1, ih _ h.2⟩

mutual

theorem Shape.fits_toExpr : (s : Shape) → (n power : Nat) → s.fits power = true →
    (s.toExpr ps n).Fits power
  | .name _, _, _, _ | .numeral _, _, _, _ => trivial
  | .paren s, n, power, h => by
    simp only [Shape.fits, Bool.and_eq_true] at h
    exact ⟨s.fits_toExpr _ _ h.1, s.stops_toExpr _ h.2⟩
  | .cast _ s, _, _, h => s.fits_toExpr _ _ h
  | .unary _ s, _, _, h => s.fits_toExpr _ _ h
  | .stepBefore _ target, _, _, h => target.fits_toExpr _ _ h
  | .delete target, _, _, h => target.fits_toExpr _ _ h
  | .binary l op r, n, power, h => by
    simp only [Shape.fits, Bool.and_eq_true, decide_eq_true_eq, and_assoc] at h
    exact ⟨h.1, l.fits_toExpr _ _ h.2.1, l.stops_toExpr _ h.2.2.1, r.fits_toExpr _ _ h.2.2.2⟩
  | .logic l op r, n, power, h => by
    simp only [Shape.fits, Bool.and_eq_true, decide_eq_true_eq, and_assoc] at h
    exact ⟨h.1, l.fits_toExpr _ _ h.2.1, l.stops_toExpr _ h.2.2.1, r.fits_toExpr _ _ h.2.2.2⟩
  | .comma l r, n, power, h => by
    simp only [Shape.fits, Bool.and_eq_true, decide_eq_true_eq, and_assoc] at h
    exact ⟨h.1, l.fits_toExpr _ _ h.2.1, l.stops_toExpr _ h.2.2.1, r.fits_toExpr _ _ h.2.2.2⟩
  | .ternary c a b, n, power, h => by
    simp only [Shape.fits, Bool.and_eq_true, decide_eq_true_eq, and_assoc] at h
    obtain ⟨hpower, hc, hquestion, ha, hcolon, hb⟩ := h
    exact ⟨hpower, c.fits_toExpr _ _ hc, c.stops_toExpr _ hquestion, a.fits_toExpr _ _ ha,
      a.stops_toExpr _ hcolon, b.fits_toExpr _ _ hb⟩
  | .assign target op s, n, power, h => by
    simp only [Shape.fits, Bool.and_eq_true, decide_eq_true_eq, and_assoc] at h
    exact ⟨h.1, target.fits_toExpr _ _ h.2.1, target.stops_toExpr _ h.2.2.1,
      s.fits_toExpr _ _ h.2.2.2⟩
  | .stepAfter target op, n, power, h => by
    simp only [Shape.fits, Bool.and_eq_true, decide_eq_true_eq, and_assoc] at h
    exact ⟨h.1, target.fits_toExpr _ _ h.2.1, target.stops_toExpr _ h.2.2⟩
  | .dot s x, n, power, h => by
    simp only [Shape.fits, Bool.and_eq_true, decide_eq_true_eq, and_assoc] at h
    exact ⟨h.1, s.fits_toExpr _ _ h.2.1, s.stops_toExpr _ h.2.2⟩
  | .index s key, n, power, h => by
    simp only [Shape.fits, Bool.and_eq_true, decide_eq_true_eq, and_assoc] at h
    obtain ⟨hpower, hs, hbracket, hkey, hclosing⟩ := h
    exact ⟨hpower, s.fits_toExpr _ _ hs, s.stops_toExpr _ hbracket, key.fits_toExpr _ _ hkey,
      key.stops_toExpr _ hclosing⟩
  | .invoke s, n, power, h => by
    simp only [Shape.fits, Bool.and_eq_true, decide_eq_true_eq, and_assoc] at h
    exact ⟨h.1, s.fits_toExpr _ _ h.2.1, s.stops_toExpr _ h.2.2, .inl rfl, trivial⟩
  | .call s args, n, power, h => by
    simp only [Shape.fits, Bool.and_eq_true, decide_eq_true_eq, and_assoc] at h
    obtain ⟨hpower, hs, hparen, hargs⟩ := h
    exact ⟨hpower, s.fits_toExpr _ _ hs, s.stops_toExpr _ hparen, .inr (args.filled_toItems _),
      args.fit_toItems _ hargs⟩

theorem Args.fit_toItems : (args : Args) → (n : Nat) → args.fit = true →
    (args.toItems ps n).Fit (.mark .rParen)
  | .last s, n, h => by
    simp only [Args.fit, Bool.and_eq_true] at h
    exact ⟨s.fits_toExpr _ _ h.1, s.stops_toExpr _ h.2⟩
  | .more s args, n, h => by
    simp only [Args.fit, Bool.and_eq_true, and_assoc] at h
    exact ⟨s.fits_toExpr _ _ h.1, s.stops_toExpr _ h.2.1, args.fit_toItems _ h.2.2⟩

theorem Args.filled_toItems : (args : Args) → (n : Nat) → (args.toItems ps n).Filled
  | .last _, _ => trivial
  | .more _ args, _ => args.filled_toItems _

end

theorem length_spacedBehind (ws : List Lexeme) : ws.length ≤ (spacedBehind ws).length := by
  induction ws with
  | nil => exact Nat.le_refl 0
  | cons w ws ih =>
    have h : (spacedBehind (w :: ws)).length = w.text.length + 1 + (spacedBehind ws).length := by
      simp [spacedBehind, List.flatMap_cons]
      omega
    rw [List.length_cons]
    omega

theorem length_spaced (ws : List Lexeme) : ws.length ≤ (spaced ws).length + 1 := by
  cases ws with
  | nil => exact Nat.zero_le _
  | cons w ws =>
    have h := length_spacedBehind ws
    rw [spaced, List.length_cons, List.length_append]
    omega

/-- How names are resolved in a script. -/
def Names.script : Names :=
  (CompileState.ofText []).names

/-- The code of a text is that of the tree it was written for, at the places where the tokens are
found. -/
theorem Shape.compile_source (s : Shape) (h : s.fits Power.statement = true) :
    ∃ (ps : Nat → Position) (finish : Position),
      match (s.toExpr ps 0).fault? with
      | none => ∃ root, compile s.source = .ok root ∧ root.draft =
          ((s.toExpr ps 0).gen .script resultRegister ⟨#[], #[]⟩).emit finish .ret resultRegister
      | some place => compile s.source = .error (Compile.notAssignable place) := by
  have hreadable : ReadableAll false s.words := by
    simpa using s.readable (show ReadableAll false [] from trivial)
  obtain ⟨ts, finish, hts, hdelivers⟩ := Lexer.delivers_spaced hreadable
  obtain ⟨ps, hps⟩ := exists_placed 0 hts
  have htokens := s.tokens_toExpr ps 0
  have hsource : Source.normalize s.source.toList = spaced s.words := by
    rw [Shape.source, String.toList_ofList, normalize_spaced hreadable]
  refine ⟨ps, finish, compile_expression ?_ ?_ (s.fits_toExpr 0 _ h)
    (s.stops_toExpr 0 (stops_of_leftPower _ rfl s))⟩
  · have hsize : (s.toExpr ps 0).size = s.words.length := by
      have hlength := congrArg List.length (htokens.trans hps)
      rw [List.length_cons] at hlength
      rw [Expr.size, hlength, ← List.length_map Token.kind, hts, List.length_map]
    have hlength := length_spaced s.words
    rw [hsource, hsize, compileFuel]
    omega
  · rw [hsource, ← List.cons_append, htokens, hps]
    exact hdelivers

/-! ## The same code -/

/-- What an instruction does, its position aside. -/
def Instruction.act (i : Instruction) : Op × Int × Int × Int :=
  (i.op, i.a, i.b, i.c)

namespace Draft

/-- The instructions of two drafts differ in their positions only, and the constants not at all. -/
structure Same (c c' : Draft) : Prop where
  code : c.code.map Instruction.act = c'.code.map Instruction.act
  constants : c.constants = c'.constants

namespace Same

variable {c c' : Draft}

theorem refl (c : Draft) : c.Same c :=
  ⟨rfl, rfl⟩

theorem symm (h : c.Same c') : c'.Same c :=
  ⟨h.code.symm, h.constants.symm⟩

theorem trans {c'' : Draft} (h : c.Same c') (h' : c'.Same c'') : c.Same c'' :=
  ⟨h.code.trans h'.code, h.constants.trans h'.constants⟩

theorem size (h : c.Same c') : c.size = c'.size := by
  have hsize := congrArg Array.size h.code
  rwa [Array.size_map, Array.size_map] at hsize

theorem index (h : c.Same c') (k : Constant) : c.index k = c'.index k := by
  unfold Draft.index
  rw [h.constants]

theorem emit (h : c.Same c') (p p' : Position) (op : Op) (a b e : Int) :
    (c.emit p op a b e).Same (c'.emit p' op a b e) := by
  refine ⟨?_, h.constants⟩
  show (c.code.push _).map _ = (c'.code.push _).map _
  rw [Array.map_push, Array.map_push, h.code]
  rfl

theorem intern (h : c.Same c') (k : Constant) : (c.intern k).Same (c'.intern k) := by
  unfold Draft.intern
  rw [h.constants]
  split
  · exact h
  · exact ⟨h.code, rfl⟩

theorem load (h : c.Same c') {p p' : Position} {d : Int} {v : Value} :
    (c.load p d v).Same (c'.load p' d v) := by
  unfold Draft.load
  rw [h.index]
  exact (h.intern _).emit ..

theorem select (h : c.Same c') {p p' : Position} {d : Int} {s : String} :
    (c.select p d s).Same (c'.select p' d s) :=
  h.load.emit ..

/-- A change of an instruction that does not look at its position. -/
theorem modifyAt (h : c.Same c') {n : Nat} {f f' : Instruction → Instruction}
    (hf : ∀ i i' : Instruction, i.act = i'.act → (f i).act = (f' i').act) :
    (c.modifyAt n f).Same (c'.modifyAt n f') := by
  refine ⟨Array.ext_getElem? fun m => ?_, h.constants⟩
  have hm := congrArg (·[m]?) h.code
  simp only [Array.getElem?_map] at hm
  simp only [Draft.modifyAt, Array.getElem?_map, Array.getElem?_modify]
  split
  · rcases hi : c.code[m]? with _ | i <;> rcases hi' : c'.code[m]? with _ | i' <;> rw [hi, hi'] at hm
    · rfl
    · cases hm
    · cases hm
    · exact congrArg some (hf i i' (Option.some.inj hm))
  · exact hm

theorem erase (h : c.Same c') {n : Nat} : (c.erase n).Same (c'.erase n) :=
  h.modifyAt fun _ _ hi => congrArg (fun x => (Op.nop, x.2)) hi

theorem retarget (h : c.Same c') {n : Nat} (t : Int) :
    (c.modifyAt n ({ · with a := t })).Same (c'.modifyAt n ({ · with a := t })) :=
  h.modifyAt fun _ _ hi => congrArg (fun x => (x.1, t, x.2.2)) hi

theorem land (h : c.Same c') {n : Nat} : (c.land n).Same (c'.land n) := by
  unfold Draft.land
  rw [h.size]
  refine h.modifyAt fun i i' hi => ?_
  obtain ⟨op, a, b, e, p⟩ := i
  obtain ⟨op', a', b', e', p'⟩ := i'
  cases hi
  cases op <;> rfl

end Same

end Draft

/-! ## Trees that differ in parentheses and positions -/

/-- Two trees have the same code, are the same targets, and are both faulty or both not. -/
structure Expr.Alike (names : Names) (e e' : Expr) : Prop where
  operand : ∀ d load, e.operand names d load = e'.operand names d load
  fault : e.fault?.isSome = e'.fault?.isSome
  gen : ∀ d {c c' : Draft}, c.Same c' → (e.gen names d c).Same (e'.gen names d c')

structure Items.Alike (names : Names) (items items' : Items) : Prop where
  count : items.count = items'.count
  fault : items.fault?.isSome = items'.fault?.isSome
  gen : ∀ register {c c' : Draft}, c.Same c' →
    (items.gen names register c).Same (items'.gen names register c')

namespace Expr.Alike

variable {names : Names} {e e' l l' r r' a a' b b' : Expr} {p p' q q' : Position}

theorem isTarget (h : e.Alike names e') : e.isTarget = e'.isTarget := by
  rw [e.isTarget_eq names 0 0, e'.isTarget_eq names 0 0, h.operand]

/-- Where the value was loaded from, when the code was just made. -/
theorem operand_gen (h : e.Alike names e') (d : Int) {c c' : Draft} (hc : c.Same c') :
    e.operand names d ((e.gen names d c).size - 1) =
      e'.operand names d ((e'.gen names d c').size - 1) := by
  rw [h.operand, (h.gen d hc).size]

theorem parens (h : e.Alike names e') : (Expr.paren p e q).Alike names e' :=
  ⟨h.operand, h.fault, h.gen⟩

theorem cast (h : e.Alike names e') {word : Conversion} {o o' : Position} :
    (Expr.cast o word p q e).Alike names (.cast o' word p' q' e') :=
  ⟨fun _ _ => rfl, h.fault, fun d _ _ hc => (h.gen d hc).emit ..⟩

theorem unary (h : e.Alike names e') {op : UnaryOp} :
    (Expr.unary op p e).Alike names (.unary op p' e') :=
  ⟨fun _ _ => rfl, h.fault, fun d _ _ hc => (h.gen d hc).emit ..⟩

theorem binary (hl : l.Alike names l') (hr : r.Alike names r') {op : BinaryOp} :
    (Expr.binary l op p r).Alike names (.binary l' op p' r') :=
  ⟨fun _ _ => rfl, by simp [hl.fault, hr.fault], fun d _ _ hc =>
    (hr.gen _ (hl.gen d hc)).emit ..⟩

theorem logic (hl : l.Alike names l') (hr : r.Alike names r') {op : LogicOp} :
    (Expr.logic l op p r).Alike names (.logic l' op p' r') := by
  refine ⟨fun _ _ => rfl, by simp [hl.fault, hr.fault], fun d c c' hc => ?_⟩
  have hleft := hl.gen d hc
  have hboth := (hr.gen (d + 1) (hleft.emit p p' op.leave d 0 0)).emit p p' op.op d d (d + 1)
  simp only [Expr.gen]
  rw [hboth.size, hleft.size]
  exact ((hboth.emit ..).land.emit ..).land

theorem comma (hl : l.Alike names l') (hr : r.Alike names r') :
    (Expr.comma l p r).Alike names (.comma l' p' r') :=
  ⟨hr.operand, by simp [hl.fault, hr.fault], fun d _ _ hc => hr.gen d (hl.gen d hc)⟩

theorem ternary (h : e.Alike names e') (ha : a.Alike names a') (hb : b.Alike names b') :
    (Expr.ternary e p a q b).Alike names (.ternary e' p' a' q' b') := by
  refine ⟨fun _ _ => rfl, by simp [h.fault, ha.fault, hb.fault], fun d c c' hc => ?_⟩
  have htest := h.gen d hc
  have hfirst := ha.gen d (htest.emit p p' .jumpFalse d 0 0)
  simp only [Expr.gen]
  rw [hfirst.size, htest.size]
  exact (hb.gen d (hfirst.emit ..).land).land

theorem dot (h : e.Alike names e') {s : String} :
    (Expr.dot e p q s).Alike names (.dot e' p' q' s) :=
  ⟨fun _ _ => rfl, h.fault, fun d _ _ hc => (h.gen d hc).select⟩

theorem index (h : e.Alike names e') (ha : a.Alike names a') :
    (Expr.index e p a q).Alike names (.index e' p' a' q') :=
  ⟨fun _ _ => rfl, by simp [h.fault, ha.fault], fun d _ _ hc => (ha.gen _ (h.gen d hc)).emit ..⟩

theorem call (h : e.Alike names e') {args args' : Items} (hargs : args.Alike names args') :
    (Expr.call e p args q).Alike names (.call e' p' args' q') := by
  refine ⟨fun _ _ => rfl, by simp [h.fault, hargs.fault], fun d c c' hc => ?_⟩
  simp only [Expr.gen, hargs.count]
  exact (hargs.gen _ (h.gen d hc)).emit ..

theorem assign (h : e.Alike names e') (ha : a.Alike names a') {op : AssignOp} :
    (Expr.assign e op p a).Alike names (.assign e' op p' a') := by
  refine ⟨fun _ _ => rfl, ?_, fun d c c' hc => ?_⟩
  · simp only [Expr.fault?, h.isTarget]
    split <;> simp [h.fault, ha.fault]
  · simp only [Expr.gen]
    rw [h.operand_gen d hc]
    have htarget := h.gen d hc
    split
    · exact (ha.gen d htarget.erase).emit ..
    · exact ((ha.gen _ htarget).emit ..).emit ..
    · exact ((ha.gen _ htarget.erase).emit ..).emit ..
    · exact (((ha.gen _ (htarget.retarget _)).emit ..).emit ..).emit ..
    · exact htarget

theorem stepBefore (h : e.Alike names e') {op : StepOp} :
    (Expr.stepBefore op p e).Alike names (.stepBefore op p' e') := by
  refine ⟨fun _ _ => rfl, ?_, fun d c c' hc => ?_⟩
  · simp only [Expr.fault?, h.isTarget]
    split <;> simp [h.fault]
  · simp only [Expr.gen]
    rw [h.operand_gen d hc]
    have htarget := h.gen d hc
    split
    · exact htarget.erase.emit ..
    · exact (((htarget.retarget _).emit ..).emit ..).emit ..
    · exact htarget

theorem stepAfter (h : e.Alike names e') {op : StepOp} :
    (Expr.stepAfter e op p).Alike names (.stepAfter e' op p') := by
  refine ⟨fun _ _ => rfl, ?_, fun d c c' hc => ?_⟩
  · simp only [Expr.fault?, h.isTarget]
    split <;> simp [h.fault]
  · simp only [Expr.gen]
    rw [h.operand_gen d hc]
    have htarget := h.gen d hc
    split
    · exact htarget.erase.emit ..
    · exact (((htarget.retarget _).emit ..).emit ..).emit ..
    · exact htarget

theorem delete (h : e.Alike names e') : (Expr.delete p e).Alike names (.delete p' e') := by
  refine ⟨fun _ _ => rfl, ?_, fun d c c' hc => ?_⟩
  · simp only [Expr.fault?, h.isTarget]
    split <;> simp [h.fault]
  · simp only [Expr.gen]
    rw [h.operand_gen d hc]
    have htarget := h.gen d hc
    refine Draft.Same.emit ?_ ..
    split
    · exact htarget.erase.emit ..
    · exact htarget.modifyAt fun _ _ _ => rfl
    · exact htarget

end Expr.Alike

mutual

/-- An expression and the one without its parentheses. -/
theorem Shape.alike (names : Names) (ps ps' : Nat → Position) : (s : Shape) → (n n' : Nat) →
    (s.toExpr ps n).Alike names (s.strip.toExpr ps' n')
  | .name x, n, n' => by
    refine ⟨fun _ _ => rfl, rfl, fun d c c' hc => ?_⟩
    simp only [Shape.toExpr, Shape.strip, Expr.gen]
    split
    · exact hc.emit ..
    · rw [hc.index]
      split
      · exact ((((hc.intern _).emit ..).emit ..).emit ..)
      · exact (((hc.intern _).emit ..).emit ..)
  | .numeral x, n, n' => ⟨fun _ _ => rfl, rfl, fun _ _ _ hc => hc.load⟩
  | .paren s, n, n' => (s.alike names ps ps' _ _).parens
  | .cast word s, n, n' => (s.alike names ps ps' _ _).cast
  | .unary op s, n, n' => (s.alike names ps ps' _ _).unary
  | .stepBefore op target, n, n' => (target.alike names ps ps' _ _).stepBefore
  | .delete target, n, n' => (target.alike names ps ps' _ _).delete
  | .binary l op r, n, n' => (l.alike names ps ps' _ _).binary (r.alike names ps ps' _ _)
  | .logic l op r, n, n' => (l.alike names ps ps' _ _).logic (r.alike names ps ps' _ _)
  | .comma l r, n, n' => (l.alike names ps ps' _ _).comma (r.alike names ps ps' _ _)
  | .ternary c a b, n, n' =>
    (c.alike names ps ps' _ _).ternary (a.alike names ps ps' _ _) (b.alike names ps ps' _ _)
  | .assign target op s, n, n' =>
    (target.alike names ps ps' _ _).assign (s.alike names ps ps' _ _)
  | .stepAfter target op, n, n' => (target.alike names ps ps' _ _).stepAfter
  | .dot s x, n, n' => (s.alike names ps ps' _ _).dot
  | .index s key, n, n' => (s.alike names ps ps' _ _).index (key.alike names ps ps' _ _)
  | .invoke s, n, n' => (s.alike names ps ps' _ _).call ⟨rfl, rfl, fun _ _ _ hc => hc⟩
  | .call s args, n, n' => (s.alike names ps ps' _ _).call (args.alike names ps ps' _ _)

theorem Args.alike (names : Names) (ps ps' : Nat → Position) : (args : Args) → (n n' : Nat) →
    (args.toItems ps n).Alike names (args.strip.toItems ps' n')
  | .last s, n, n' =>
    have h := s.alike names ps ps' n n'
    ⟨rfl, h.fault, h.gen⟩
  | .more s args, n, n' => by
    have h := s.alike names ps ps' n n'
    have hargs := args.alike names ps ps' (n + s.words.length + 1) (n' + s.strip.words.length + 1)
    refine ⟨congrArg (· + 1) hargs.count, ?_, fun register _ _ hc =>
      hargs.gen _ (h.gen register hc)⟩
    simp [Args.toItems, Args.strip, h.fault, hargs.fault]

end

/-! ## Parentheses are redundant -/

/-- Two compilations both fail with an error of the source, or both give the same constants and
the same instructions, positions aside. -/
def SameCode : Except Failure Chunk → Except Failure Chunk → Prop
  | .ok c, .ok c' =>
    c.code.map Instruction.act = c'.code.map Instruction.act ∧ c.constants = c'.constants
  | .error (.error _), .error (.error _) => True
  | _, _ => False

/-- Texts of one expression have the same code if both can be read. -/
theorem Shape.sameCode {s s' : Shape} (hstrip : s.strip = s'.strip)
    (h : s.fits Power.statement = true) (h' : s'.fits Power.statement = true) :
    SameCode (compile s.source) (compile s'.source) := by
  obtain ⟨ps, finish, hcompile⟩ := s.compile_source h
  obtain ⟨ps', finish', hcompile'⟩ := s'.compile_source h'
  have halike := s.alike .script ps ps 0 0
  have halike' := s'.alike .script ps' ps 0 0
  rw [← hstrip] at halike'
  have hfault := halike.fault.trans halike'.fault.symm
  rcases hf : (s.toExpr ps 0).fault? with _ | place <;>
    rcases hf' : (s'.toExpr ps' 0).fault? with _ | place' <;>
    rw [hf] at hcompile hfault <;> rw [hf'] at hcompile' hfault
  · obtain ⟨root, hroot, hdraft⟩ := hcompile
    obtain ⟨root', hroot', hdraft'⟩ := hcompile'
    have hgen := (halike.gen resultRegister (.refl ⟨#[], #[]⟩)).trans
      (halike'.gen resultRegister (.refl ⟨#[], #[]⟩)).symm
    have hsame := hgen.emit finish finish' .ret resultRegister 0 0
    rw [← hdraft, ← hdraft'] at hsame
    rw [hroot, hroot']
    exact ⟨hsame.code, hsame.constants⟩
  · cases hfault
  · cases hfault
  · rw [hcompile, hcompile']
    trivial

mutual

theorem Shape.strip_full : (s : Shape) → s.full.strip = s.strip
  | .name _ | .numeral _ => rfl
  | .paren s => s.strip_full
  | .cast _ s | .unary _ s | .stepBefore _ s | .delete s | .stepAfter s _ | .dot s _
  | .invoke s => by
    simp only [Shape.full, Shape.strip, s.strip_full]
  | .binary l _ r | .logic l _ r | .comma l r | .assign l _ r | .index l r => by
    simp only [Shape.full, Shape.strip, l.strip_full, r.strip_full]
  | .ternary c a b => by
    simp only [Shape.full, Shape.strip, c.strip_full, a.strip_full, b.strip_full]
  | .call s args => by
    simp only [Shape.full, Shape.strip, s.strip_full, args.strip_full]

theorem Args.strip_full : (args : Args) → args.full.strip = args.strip
  | .last s => by simp only [Args.full, Args.strip, s.strip_full]
  | .more s args => by simp only [Args.full, Args.strip, s.strip_full, args.strip_full]

end

@[simp] theorem Shape.strip_before (s : Shape) (kind : Token.Kind) :
    (s.before kind).strip = s.strip := by
  unfold before
  split <;> rfl

@[simp] theorem Shape.strip_within (s : Shape) (power : Nat) : (s.within power).strip = s.strip := by
  unfold within
  split <;> rfl

mutual

theorem Shape.strip_spare : (s : Shape) → s.spare.strip = s.strip
  | .name _ | .numeral _ => rfl
  | .paren s => s.strip_spare
  | .cast _ s | .unary _ s | .stepBefore _ s | .delete s | .stepAfter s _ | .dot s _
  | .invoke s => by
    simp [Shape.spare, Shape.strip, s.strip_spare]
  | .binary l _ r | .logic l _ r | .comma l r | .assign l _ r | .index l r => by
    simp [Shape.spare, Shape.strip, l.strip_spare, r.strip_spare]
  | .ternary c a b => by
    simp [Shape.spare, Shape.strip, c.strip_spare, a.strip_spare, b.strip_spare]
  | .call s args => by
    simp [Shape.spare, Shape.strip, s.strip_spare, args.strip_spare]

theorem Args.strip_spare : (args : Args) → args.spare.strip = args.strip
  | .last s => by simp [Args.spare, Args.strip, s.strip_spare]
  | .more s args => by simp [Args.spare, Args.strip, s.strip_spare, args.strip_spare]

end

/-- The text with parentheses around every part has the code of every text of the same expression
that can be read as it, and so that of the text with only those the powers ask for. -/
theorem redundant_parentheses_make_no_code (t : Shape) :
    SameCode (compile t.spare.source) (compile t.full.source) ∧
      ∀ s : Shape, s.strip = t.strip → s.fits Power.statement = true →
        SameCode (compile s.source) (compile t.full.source) := by
  have hfull := t.fits_full Power.statement
  refine ⟨?_, fun s hs hfits => Shape.sameCode (hs.trans t.strip_full.symm) hfits hfull⟩
  exact Shape.sameCode (t.strip_spare.trans t.strip_full.symm) (t.fits_spare _ (by decide)) hfull

/-- A sum. -/
def plusOp : BinaryOp :=
  ⟨.mark .add, .add, rfl⟩

/-- A product. -/
def timesOp : BinaryOp :=
  ⟨.mark .mul, .mul, rfl⟩

/-- The expression `x = - ( x + 1e3 ) * x . if [ i ++ ]`. -/
def nestedShape : Shape :=
  let x : Shape := .name ⟨⟨['x'], by decide +kernel⟩, by decide +kernel⟩
  let i : Shape := .name ⟨⟨['i'], by decide +kernel⟩, by decide +kernel⟩
  let k : Shape := .numeral ⟨['1', 'e', '3'], .ofNat 1000, by decide +kernel, by decide +kernel⟩
  .assign x .plain
    (.binary (.unary .negate (.binary x plusOp k)) timesOp
      (.index (.dot x ⟨['i', 'f'], by decide +kernel⟩) (.stepAfter i .inc)))

/-- An expression that needs one pair of parentheses, and may have one around it. -/
theorem redundant_parentheses_make_no_code_nested :
    nestedShape.spare.source = "x = - ( x + 1e3 ) * x . if [ i ++ ]" ∧
    nestedShape.full.source =
      "( ( x ) = ( ( - ( ( x ) + ( 1e3 ) ) ) * ( ( ( x ) . if ) [ ( ( i ) ++ ) ] ) ) )" ∧
    SameCode (compile "x = - ( x + 1e3 ) * x . if [ i ++ ]") (compile nestedShape.full.source) ∧
    SameCode (compile (Shape.paren nestedShape.spare).source) (compile nestedShape.full.source) := by
  have hspare : nestedShape.spare.source = "x = - ( x + 1e3 ) * x . if [ i ++ ]" := by
    decide +kernel
  obtain ⟨h, hall⟩ := redundant_parentheses_make_no_code nestedShape
  refine ⟨hspare, by decide +kernel, hspare ▸ h, hall _ nestedShape.strip_spare ?_⟩
  decide +kernel

end ScriptEngine
