import ScriptEngine.Proofs.Registers.Grammar

/-!
# What a function literal is compiled to

**Reading.** A parameter is a name, and the token with which its default begins if it has one.
`Parameter.Listed` says how a list of parameters is read, token by token, and remembers for each of
them the states of the compilation in front of and behind the code of its default.

**Code.** The code of a literal is that of its defaults, one behind the other and each of them into
a register of its own, followed by three instructions that make the function
(`FunctionLiteral.LaidIn`). The chunk of the function begins by declaring its parameters
(`Chunk.Takes`).

Every literal that is compiled is of this form (`Compile.makes_function`). The code is later found
in another chunk, to which more has been added (`Chunk.Holds`), and what is changed there afterwards
is outside of it (`function_has_literal`).
-/

namespace ScriptEngine

/-- A parameter of a function literal, with the states of the compilation in front of and behind
the code of its default. -/
structure Parameter where
  name : String
  /-- The first token of its default, if it has one; otherwise its default is void. -/
  default? : Option Token
  start : CompileState
  stop : CompileState

/-- A function literal: its parameters, and the chunk of its body. -/
structure FunctionLiteral where
  params : List Parameter
  chunk : Chunk

def FunctionLiteral.names (l : FunctionLiteral) : List String :=
  l.params.map (·.name)

namespace Parameter

/-! ## Reading -/

/-- What is compiled between the two states of a parameter: its default, into a register. -/
def Compiled (p : Parameter) (fuel : Nat) (register : Int) : Prop :=
  match p.default? with
  | some first => ∃ left,
      Compile.expressionWithin fuel first Power.comma register p.start = .ok left p.stop
  | none => ∃ place n, Compile.emitAt place .loadVoid register 0 0 p.start = .ok n p.stop

/-- A parameter is read from the token of its name up to the token behind it. -/
inductive Reads (p : Parameter) (t : Token) (s : CompileState) : Token → CompileState → Prop where
  | required {behind : Token} (hname : t.kind = .ident p.name) (hdefault : p.default? = none)
      (hnext : Compile.next s = .ok behind p.start) (hbehind : behind.kind ≠ .mark .assign) :
      Reads p t s behind p.stop
  | optional {sign first behind : Token} {s₁ s' : CompileState} (hname : t.kind = .ident p.name)
      (hdefault : p.default? = some first) (hsign : Compile.next s = .ok sign s₁)
      (hassign : sign.kind = .mark .assign) (hfirst : Compile.next s₁ = .ok first p.start)
      (hbehind : Compile.next p.stop = .ok behind s') : Reads p t s behind s'

/-- Parameters are read from a token up to the closing parenthesis, their defaults into registers
from one on. -/
inductive Listed (fuel : Nat) :
    Int → List Parameter → Token → CompileState → CompileState → Prop where
  | none {register : Int} {t : Token} {s : CompileState} (ht : t.kind = .mark .rParen) :
      Listed fuel register [] t s s
  | last {register : Int} {p : Parameter} {t behind : Token} {s s' : CompileState}
      (hreads : p.Reads t s behind s') (hcompiled : p.Compiled fuel register)
      (hbehind : behind.kind = .mark .rParen) : Listed fuel register [p] t s s'
  | more {register : Int} {p : Parameter} {ps : List Parameter} {t behind t' : Token}
      {s s₁ s₂ s' : CompileState} (hreads : p.Reads t s behind s₁)
      (hcompiled : p.Compiled fuel register) (hbehind : behind.kind = .mark .comma)
      (hnext : Compile.next s₁ = .ok t' s₂) (hrest : Listed fuel (register + 1) ps t' s₂ s') :
      Listed fuel register (p :: ps) t s s'

/-! ## Code -/

/-- The code of the defaults of parameters, into registers from one on, fills a range. -/
def Laid (c : Chunk) (fuel : Nat) : Int → List Parameter → Nat → Nat → Prop
  | _, [], start, stop => start = stop
  | register, p :: ps, start, stop =>
    p.start.current.Settled ∧ p.Compiled fuel register ∧ p.start.current.size = start ∧
      (∀ n, start ≤ n → n < p.stop.current.size →
        c.code[n]? = p.stop.current.chunk.code[n]?) ∧
      Laid c fuel (register + 1) ps p.stop.current.size stop

end Parameter

/-- The code of a function literal with a destination starts at an index. -/
structure FunctionLiteral.LaidIn (l : FunctionLiteral) (fuel : Nat) (dest : Int) (start close : Nat)
    (c : Chunk) : Prop where
  defaults : Parameter.Laid c fuel (dest + 1) l.params start close
  makes : ∃ k place, c.constantAt? k = some (.template l.chunk) ∧
    c.code[close]? = some ⟨.loadConst, dest, k, 0, place⟩ ∧
    c.code[close + 1]? = some ⟨.makeFunc, dest, dest + 1, dest + 1 + l.params.length, place⟩ ∧
    c.code[close + 2]? = some ⟨.bindClosure, dest, 0, 0, place⟩

/-- A chunk has a register for each of its parameters, and declares them in front of its body. -/
structure Chunk.Takes (c : Chunk) (names : List String) : Prop where
  params : c.paramCount = names.length
  room : c.localFloor ≤ -names.length
  declares : ∀ (i : Nat) name, names[i]? = some name → ∃ k place, c.nameAt? k = some name ∧
    c.code[i]? = some ⟨.registerLocal, -(i + 1), k, 0, place⟩

/-- A chunk has the code of another one from an index on, with its constants. -/
structure Chunk.Holds (c d : Chunk) (start : Nat) : Prop where
  code : ∀ n, start ≤ n → n < d.code.size → c.code[n]? = d.code[n]?
  constants : ∀ (n : Nat) k, d.constants[n]? = some k → c.constants[n]? = some k

/-- A literal behind its keyword is read and compiled, from one state to another. -/
structure FunctionLiteral.Made (l : FunctionLiteral) (fuel : Nat) (dest : Int)
    (s s' : CompileState) : Prop where
  reads : ∃ named t t' slot s₁ s₂ s₃ s₄ s₅, Compile.functionName s = .ok (named, t) s₁ ∧
    t.kind = .mark .lParen ∧ Compile.next s₁ = .ok t' s₂ ∧
    Parameter.Listed fuel (dest + 1) l.params t' s₂ s₃ ∧
    Compile.functionSlot named s₃ = .ok slot s₄ ∧
    Compile.functionChunk (Compile.productions fuel) named l.names s₄ = .ok l.chunk s₅
  names : l.names.Nodup
  /-- Behind a parameter with a default, all have one. -/
  trailing : l.params.Pairwise fun p q => p.default?.isSome → q.default?.isSome
  takes : l.chunk.Takes l.names
  laid : ∃ close, close + 3 ≤ s'.current.size ∧
    l.LaidIn fuel dest s.current.size close s'.current.chunk

/-! ## Code in other chunks -/

variable {c d : Chunk} {fuel start stop : Nat} {dest register : Int}

theorem Chunk.Holds.constantAt (h : c.Holds d start) {k : Int} {v : Constant}
    (hk : d.constantAt? k = some v) : c.constantAt? k = some v := by
  unfold constantAt? at hk ⊢
  split at hk
  · rw [if_pos ‹_›]
    exact h.constants _ _ hk
  · cases hk

theorem Chunk.Holds.nameAt (h : c.Holds d start) {k : Int} {name : String}
    (hk : d.nameAt? k = some name) : c.nameAt? k = some name := by
  unfold nameAt? at hk
  split at hk
  · rename_i t ht
    rw [nameAt?, h.constantAt ht]
    exact hk
  · cases hk

theorem Chunk.Holds.getElem? (h : c.Holds d start) {n : Nat} {i : Instruction} (hn : start ≤ n)
    (hi : d.code[n]? = some i) : c.code[n]? = some i := by
  rw [h.code n hn (Array.getElem?_eq_some_iff.1 hi).1, hi]

/-- The chunk of a function holds its code when more has been appended to it. -/
theorem FunctionState.Confined.holds {b f : FunctionState} (h : b.Confined dest f) (start : Nat) :
    f.chunk.Holds b.chunk start :=
  ⟨fun n _ hn => h.code n hn, h.grows.constants⟩

namespace Parameter

variable {p : Parameter} {ps : List Parameter} {t behind : Token} {s s' : CompileState}

/-- The code of a default writes from its register on. -/
theorem Compiled.confined (h : p.Compiled fuel register) (hs : p.start.current.Settled)
    (hr : 2 ≤ register) : p.start.current.Confined register p.stop.current := by
  unfold Compiled at h
  split at h
  · obtain ⟨left, hleft⟩ := h
    exact ((Compile.confining_productions fuel).expression _ (.inl ⟨by decide, hr⟩) _ _ (le_refl _)
      _ (.refl hs register) left _ hleft).1
  · obtain ⟨place, n, hn⟩ := h
    exact (Compile.confines_temp rfl (le_refl register) _ (.refl hs register) n _ hn).1

theorem Laid.le (h : Laid c fuel register ps start stop) (hr : 2 ≤ register) : start ≤ stop := by
  induction ps generalizing register start with
  | nil => exact le_of_eq h
  | cons p ps ih =>
    obtain ⟨hsettled, hcompiled, rfl, -, hrest⟩ := h
    exact (hcompiled.confined hsettled hr).size.trans (ih hrest (by omega))

theorem Laid.holds (h : Laid d fuel register ps start stop) (hr : 2 ≤ register) {m : Nat}
    (hc : c.Holds d m) (hm : m ≤ start) : Laid c fuel register ps start stop := by
  induction ps generalizing register start with
  | nil => exact h
  | cons p ps ih =>
    obtain ⟨hsettled, hcompiled, rfl, hcode, hrest⟩ := h
    have hsize := (hcompiled.confined hsettled hr).size
    refine ⟨hsettled, hcompiled, rfl, fun n hn hlt => ?_, ih hrest (by omega) (by omega)⟩
    have hd := hcode n hn hlt
    rw [Array.getElem?_eq_getElem hlt] at hd ⊢
    exact hc.getElem? (by omega) hd

/-- Reading tokens does not change the function in the making. -/
theorem Reads.current (h : p.Reads t s behind s') :
    p.start.current = s.current ∧ s'.current = p.stop.current := by
  cases h with
  | required _ _ hbehind _ => exact ⟨Compile.next_current hbehind, rfl⟩
  | optional _ _ hsign _ hfirst hbehind =>
    exact ⟨(Compile.next_current hfirst).trans (Compile.next_current hsign),
      Compile.next_current hbehind⟩

/-- The code of parameters that are read is appended. -/
theorem Listed.laid (h : Listed fuel register ps t s s') (hs : s.current.Settled)
    (hr : 2 ≤ register) : s.current.Confined register s'.current ∧
      Laid s'.current.chunk fuel register ps s.current.size s'.current.size := by
  induction h with
  | none => exact ⟨.refl hs _, rfl⟩
  | @last register p t behind s s' hreads hcompiled _ =>
    obtain ⟨hstart, hstop⟩ := hreads.current
    rw [← hstart] at hs ⊢
    rw [hstop]
    exact ⟨hcompiled.confined hs hr, hs, hcompiled, rfl, fun _ _ _ => rfl, rfl⟩
  | @more register p ps t behind t' s s₁ s₂ s' hreads hcompiled _ hnext _ ih =>
    obtain ⟨hstart, hstop⟩ := hreads.current
    have hnext : s₂.current = p.stop.current :=
      (Compile.next_current hnext).trans hstop
    rw [← hstart] at hs ⊢
    have hfirst := hcompiled.confined hs hr
    obtain ⟨hconfined, hlaid⟩ := ih (hnext ▸ hfirst.settled) (by omega)
    rw [hnext] at hconfined hlaid
    exact ⟨hfirst.trans hconfined (by omega), hs, hcompiled, rfl, fun n _ hlt =>
      hconfined.code n hlt, hlaid⟩

end Parameter

/-- The code of a literal is found in a chunk that holds it. -/
theorem FunctionLiteral.LaidIn.holds {l : FunctionLiteral} {close : Nat}
    (h : l.LaidIn fuel dest start close d) (hdest : 2 ≤ dest) (hc : c.Holds d start) :
    l.LaidIn fuel dest start close c := by
  obtain ⟨hdefaults, k, place, hk, hload, hmake, hbind⟩ := h
  have hle := hdefaults.le (by omega)
  exact ⟨hdefaults.holds (by omega) hc (le_refl _), k, place, hc.constantAt hk,
    hc.getElem? hle hload, hc.getElem? (by omega) hmake, hc.getElem? (by omega) hbind⟩

/-! ## The compilation of parameters -/

namespace Compile

variable {p : Productions}

/-- A name is that of a parameter if none before has it. -/
theorem parameterName_ok {t : Token} {params : List String} {s s' : CompileState} {name : String}
    (h : parameterName t params s = .ok name s') :
    s' = s ∧ t.kind = .ident name ∧ name ∉ params := by
  cases hkind : t.kind <;> simp only [parameterName, hkind] at h
  case ident found =>
    split at h
    · cases h
    · rename_i hnew
      cases h
      exact ⟨rfl, rfl, by simpa using hnew⟩
  all_goals cases h

/-- The default of a parameter, whose name is read, up to the token behind it. -/
theorem parameterDefault_ok {t behind behind' : Token} {name : String} {place : Position}
    {defaults defaults' : Bool} {s s₁ s' : CompileState} {fuel : Nat} {register : Int}
    (ht : t.kind = .ident name) (hnext : next s = .ok behind s₁)
    (h : parameterDefault (productions fuel) register place behind defaults s₁ =
      .ok (behind', defaults') s') :
    ∃ p : Parameter, p.name = name ∧ p.Reads t s behind' s' ∧ p.Compiled fuel register ∧
      (defaults' = true ↔ p.default?.isSome) ∧ (defaults = true → p.default?.isSome) := by
  unfold parameterDefault at h
  split at h
  · rename_i hassign
    obtain ⟨left, s₂, hparse, h₁⟩ := bind_eq_ok h
    obtain ⟨first, s₃, hfirst, hleft⟩ := bind_eq_ok hparse
    obtain ⟨last, s₄, hlast, h₂⟩ := bind_eq_ok h₁
    cases h₂
    exact ⟨⟨name, some first, s₃, s₂⟩, rfl, .optional ht rfl hnext hassign hfirst hlast,
      ⟨left, hleft⟩, by simp, by simp⟩
  · rename_i hassign
    split at h
    · cases h
    · rename_i hdefaults
      obtain ⟨n, s₂, hemit, h₁⟩ := bind_eq_ok h
      cases h₁
      exact ⟨⟨name, none, s₁, s'⟩, rfl, .required ht rfl hnext hassign, ⟨place, n, hemit⟩,
        by simp, by simp [hdefaults]⟩

/-- Parameters are listed, with names of their own, and all have defaults once one has. -/
theorem listed_parameters {fuel bound : Nat} {dest : Int} {t : Token} {params names : List String}
    {defaults : Bool} {s s' : CompileState} (hparams : params.Nodup)
    (h : parameters (productions fuel) dest bound t params defaults s = .ok names s') :
    ∃ ps : List Parameter, names = params ++ ps.map (·.name) ∧
      Parameter.Listed fuel (dest + 1 + params.length) ps t s s' ∧ names.Nodup ∧
      (defaults = true → ∀ p ∈ ps, p.default?.isSome) ∧
      ps.Pairwise fun p q => p.default?.isSome → q.default?.isSome := by
  induction bound generalizing t params defaults s with
  | zero => cases h
  | succ bound ih =>
    obtain ⟨name, s₁, hname, h₁⟩ := bind_eq_ok h
    obtain ⟨rfl, hkind, hnew⟩ := parameterName_ok hname
    obtain ⟨behind, s₂, hnext, h₂⟩ := bind_eq_ok h₁
    obtain ⟨⟨behind', defaults'⟩, s₃, hdefault, h₃⟩ := bind_eq_ok h₂
    obtain ⟨p, rfl, hreads, hcompiled, hhas, hmust⟩ := parameterDefault_ok hkind hnext hdefault
    have hnodup : (params ++ [p.name]).Nodup := by
      rw [← List.concat_eq_append]
      exact hparams.concat hnew
    dsimp only at h₃
    split at h₃
    · rename_i hcomma
      obtain ⟨t', s₄, ht', h₄⟩ := bind_eq_ok h₃
      obtain ⟨ps, rfl, hlisted, hall, hlater, htrailing⟩ := ih hnodup h₄
      refine ⟨p :: ps, by simp, .more hreads hcompiled hcomma ht' ?_, hall, fun hd q hq => ?_,
        List.pairwise_cons.2 ⟨fun q hq hp => hlater (hhas.2 hp) q hq, htrailing⟩⟩
      · have hregister : dest + 1 + params.length + 1 = dest + 1 + (params ++ [p.name]).length := by
          rw [List.length_append]
          simp
          omega
        rwa [hregister]
      · rcases List.mem_cons.1 hq with rfl | hq
        · exact hmust hd
        · exact hlater (hhas.2 (hmust hd)) q hq
    · split at h₃
      · rename_i hparen
        cases h₃
        refine ⟨[p], by simp, .last hreads hcompiled hparen, hnodup, fun hd q hq => ?_, by simp⟩
        rw [List.mem_singleton.1 hq]
        exact hmust hd
      · cases h₃

/-! ## The chunk of a function -/

/-- Parameters are declared one after the other, from a register downwards. -/
theorem registers_parameters {names : List String} {register : Int} {s s' : CompileState}
    (hs : s.current.Settled) (h : registerParameters register names s = .ok () s') (i : Nat)
    {name : String} (hi : names[i]? = some name) :
    ∃ k place, s'.current.chunk.nameAt? k = some name ∧
      s'.current.chunk.code[s.current.size + i]? =
        some ⟨.registerLocal, register - i, k, 0, place⟩ := by
  induction names generalizing register s i with
  | nil => cases hi
  | cons first names ih =>
    obtain ⟨k, s₁, hname, h₁⟩ := bind_eq_ok h
    obtain ⟨n, s₂, hemit, h₂⟩ := bind_eq_ok h₁
    have hconfined := confines_name (d := 0) first s (.refl hs 0) k s₁ hname
    have hcode : s₁.current.size = s.current.size :=
      congrArg Array.size (quiet_constant _ s k s₁ hname).1
    have hsettled := (confines_emitSilent rfl s₁ hconfined n s₂ hemit).1.settled
    have hlater := (confines_registerParameters (d := 0) (register - 1) names s₂
      (.refl hsettled 0) () s' h₂).holds 0
    have hsize : s₂.current.size = s.current.size + 1 := by
      cases hemit
      exact (Array.size_push _).trans (congrArg (· + 1) hcode)
    cases i with
    | zero =>
      cases hi
      refine ⟨k, s₁.position, hlater.nameAt ?_, hlater.getElem? (Nat.zero_le _) ?_⟩
      · cases hemit
        cases hname
        exact Chunk.addConstant_name _ _
      · cases hemit
        rw [Nat.add_zero, ← hcode, Nat.cast_zero, sub_zero]
        exact Array.getElem?_push_size
    | succ i =>
      obtain ⟨k', place, hk, hdeclared⟩ := ih hsettled h₂ i hi
      refine ⟨k', place, hk, ?_⟩
      have hregister : register - 1 - i = register - (i + 1 : Nat) := by omega
      rw [hsize, hregister, Nat.add_assoc, Nat.add_comm 1] at hdeclared
      exact hdeclared

/-- Names that are new to a block get registers from the next one downwards. -/
theorem floor_foldl_declare {names : List String} {f : FunctionState} {block : Block}
    {outer : List Block} (hf : f.blocks = block :: outer) (hnodup : names.Nodup)
    (hnew : ∀ name ∈ names, block.lookup name = none)
    (hfloor : f.chunk.localFloor ≤ f.nextLocal + 1) :
    (names.foldl (fun f name => (f.declare name).1) f).chunk.localFloor ≤
      f.nextLocal + 1 - names.length ∧
    (names.foldl (fun f name => (f.declare name).1) f).chunk.paramCount = f.chunk.paramCount := by
  induction names generalizing f block with
  | nil => exact ⟨by simpa using hfloor, rfl⟩
  | cons name names ih =>
    obtain ⟨hnot, hnodup⟩ := List.nodup_cons.1 hnodup
    have hdeclare : (f.declare name).1 = { f with
        blocks := ((name, f.nextLocal) :: block) :: outer
        nextLocal := f.nextLocal - 1
        chunk := { f.chunk with localFloor := min f.chunk.localFloor f.nextLocal } } := by
      simp only [FunctionState.declare, hf, hnew name List.mem_cons_self]
    have hlater : ∀ other ∈ names, ((name, f.nextLocal) :: block).lookup other = none := by
      intro other hother
      have hne : (other == name) = false := beq_false_of_ne fun heq => hnot (heq ▸ hother)
      rw [List.lookup_cons, hne]
      exact hnew other (List.mem_cons_of_mem _ hother)
    rw [List.foldl_cons, hdeclare]
    obtain ⟨hrest, hcount⟩ := ih (f := { f with
        blocks := ((name, f.nextLocal) :: block) :: outer
        nextLocal := f.nextLocal - 1
        chunk := { f.chunk with localFloor := min f.chunk.localFloor f.nextLocal } })
      rfl hnodup hlater ((min_le_right _ _).trans (by dsimp only; omega))
    refine ⟨hrest.trans_eq ?_, hcount⟩
    rw [List.length_cons]
    dsimp only
    omega

/-- The chunk of a function takes its parameters. -/
theorem takes_functionChunk {fuel : Nat} {named : Option String} {names : List String}
    (hnames : names.Nodup) {s s' : CompileState} {c : Chunk}
    (h : functionChunk (productions fuel) named names s = .ok c s') : c.Takes names := by
  obtain ⟨_, s₁, h₁, h₂⟩ := bind_eq_ok h
  cases h₁
  obtain ⟨_, s₂, hbody, hleave⟩ := bind_eq_ok h₂
  obtain ⟨-, henclosing, -⟩ := (keeps_functionBody (keeping_productions fuel) names _
    (sound_function named names) trivial).1 _ _ hbody
  rw [leaveFunction_cons henclosing] at hleave
  cases hleave
  have hsettled := settled_function named names
  have hp := confining_productions fuel
  have hgrows := (confines_functionBody hp (le_refl _) names _ (.refl hsettled _) () s₂ hbody).grows
  obtain ⟨_, s₃, hregister, hrest⟩ := bind_eq_ok hbody
  have hsettled' := (confines_registerParameters (d := 0) (-1) names _ (.refl hsettled 0) () s₃
    hregister).settled
  have hbehind : s₃.current.Confined resultRegister s₂.current := by
    refine Yields.bind (R := fun _ => s₃.current.Confined resultRegister) (yields_expect _)
      (fun _ => ?_) s₃ (FunctionState.Confined.refl hsettled' resultRegister) () s₂ hrest
    exact (confines_blockBody hp (le_refl _) _).bind fun _ =>
      (confines_emitSilent rfl).drop.bind fun _ => .pure fun _ h => h
  have hfold := @floor_foldl_declare names
    { chunk := { Chunk.empty named with paramCount := names.length }, blocks := [[]] } [] []
    rfl hnames (fun _ _ => rfl) (le_refl _)
  refine ⟨hgrows.params.trans hfold.2, hgrows.floor.trans ?_, fun i name hi => ?_⟩
  · exact hfold.1.trans_eq (by simp)
  · obtain ⟨k, place, hk, hi⟩ := registers_parameters hsettled hregister i hi
    have hsize : (FunctionState.function named names).size = 0 := size_function named names
    rw [hsize, Nat.zero_add] at hi
    refine ⟨k, place, (hbehind.holds 0).nameAt hk, ?_⟩
    rw [(hbehind.holds 0).getElem? (Nat.zero_le _) hi]
    congr 2
    omega

/-! ## The literal -/

theorem listed_parameterList {fuel : Nat} {dest : Int} {t : Token} {names : List String}
    {s s' : CompileState} (h : parameterList (productions fuel) dest t s = .ok names s') :
    ∃ ps t' s₁, t.kind = .mark .lParen ∧ next s = .ok t' s₁ ∧
      Parameter.Listed fuel (dest + 1) ps t' s₁ s' ∧ names = ps.map (·.name) ∧ names.Nodup ∧
      ps.Pairwise fun p q => p.default?.isSome → q.default?.isSome := by
  unfold parameterList at h
  split at h
  · rename_i hparen
    obtain ⟨t', s₁, hnext, h₁⟩ := bind_eq_ok h
    split at h₁
    · rename_i hclose
      cases h₁
      exact ⟨[], t', s', hparen, hnext, .none hclose, rfl, .nil, .nil⟩
    · obtain ⟨ps, rfl, hlisted, hnodup, -, htrailing⟩ := listed_parameters .nil h₁
      exact ⟨ps, t', s₁, hparen, hnext, by simpa using hlisted, rfl, hnodup, htrailing⟩
  · cases h

theorem quiet_functionSlot (named : Option String) {slot : Option Int} {s s' : CompileState}
    (h : functionSlot named s = .ok slot s') :
    s'.current.chunk.code = s.current.chunk.code := by
  refine (?_ : Yields (fun f => f.chunk.code = s.current.chunk.code) (functionSlot named)
    fun _ f => f.chunk.code = s.current.chunk.code) s rfl slot s' h
  refine yields_get.bind fun state => ?_
  split
  · refine .ite (fun _ => .pure fun _ h => h) fun _ => ?_
    rw [map_eq_pure_bind]
    exact Yields.bind (fun s hs a s' h => (quiet_declare _ s a s' h).1.trans hs) fun _ =>
      .pure fun _ h => h
  · exact .pure fun _ h => h

/-- The instructions that make a function. -/
theorem makeFunction_ok {c : Chunk} {dest : Int} {count : Nat} {place : Position}
    {s s' : CompileState} (h : makeFunction c dest count place s = .ok () s') :
    s'.current.size = s.current.size + 3 ∧
    ∃ k, s'.current.chunk.constantAt? k = some (.template c) ∧
      s'.current.chunk.code[s.current.size]? = some ⟨.loadConst, dest, k, 0, place⟩ ∧
      s'.current.chunk.code[s.current.size + 1]? =
        some ⟨.makeFunc, dest, dest + 1, dest + 1 + count, place⟩ ∧
      s'.current.chunk.code[s.current.size + 2]? = some ⟨.bindClosure, dest, 0, 0, place⟩ := by
  obtain ⟨k, s₁, hconstant, h₁⟩ := bind_eq_ok h
  have hcode : s₁.current.chunk.code = s.current.chunk.code := (quiet_constant _ s k s₁ hconstant).1
  have htemplate : s₁.current.chunk.constantAt? k = some (.template c) := by
    cases hconstant
    exact Chunk.addConstant_template _ _
  have hpushed : s'.current.chunk.code =
      ((s.current.chunk.code.push ⟨.loadConst, dest, k, 0, place⟩).push
        ⟨.makeFunc, dest, dest + 1, dest + 1 + count, place⟩).push
          ⟨.bindClosure, dest, 0, 0, place⟩ := by
    cases h₁
    rw [← hcode]
    rfl
  have hkept : s'.current.chunk.constantAt? k = s₁.current.chunk.constantAt? k := by
    cases h₁
    rfl
  refine ⟨?_, k, hkept.trans htemplate, ?_, ?_, ?_⟩ <;>
    simp only [hpushed, FunctionState.size, Array.size_push, Array.getElem?_push]
  · rw [if_neg (by omega), if_neg (by omega), if_pos trivial]
  · rw [if_neg (by omega), if_pos trivial]
  · rw [if_pos trivial]

/-- A function literal is compiled to the code of its defaults, which ends where its parameters are
read, and the code that makes it. -/
theorem makes_function_behind {fuel power : Nat} {dest : Int} {place : Position}
    {s s' : CompileState} {left : Operand} (hs : s.current.Settled) (hdest : 2 ≤ dest)
    (h : function (productions fuel) power dest place s = .ok left s') :
    ∃ (l : FunctionLiteral) (named : Option String × Token) (s₁ s₃ : CompileState),
      functionName s = .ok named s₁ ∧
      parameterList (productions fuel) dest named.2 s₁ = .ok l.names s₃ ∧ l.Made fuel dest s s' ∧
      l.LaidIn fuel dest s.current.size s₃.current.size s'.current.chunk := by
  have hp := confining_productions fuel
  obtain ⟨⟨named, t⟩, s₁, hnamed, h₁⟩ := bind_eq_ok h
  obtain ⟨names, s₃, hlist, h₂⟩ := bind_eq_ok h₁
  obtain ⟨slot, s₄, hslot, h₃⟩ := bind_eq_ok h₂
  obtain ⟨chunk, s₅, hchunk, h₄⟩ := bind_eq_ok h₃
  obtain ⟨_, s₆, hmake, h₅⟩ := bind_eq_ok h₄
  obtain ⟨ps, t', s₂, hparen, hnext, hlisted, rfl, hnodup, htrailing⟩ := listed_parameterList hlist
  have hcurrent : s₂.current = s.current :=
    (next_current hnext).trans (yields_functionName (P := (· = s.current)) s rfl _ s₁ hnamed)
  obtain ⟨hlist', hlaid⟩ := hlisted.laid (hcurrent ▸ hs) (by omega)
  rw [hcurrent] at hlaid
  have hslot₄ := confines_functionSlot named s₃ (.refl hlist'.settled dest) slot s₄ hslot
  obtain ⟨heq, hrestrained⟩ :=
    confines_functionChunk hp named _ (P := (· = s₄.current)) s₄ rfl chunk s₅ hchunk
  have hslot₆ := Yields.carry (fun _ => confines_makeFunction hrestrained (le_refl dest) _ place) s₅
    (heq ▸ hslot₄) () s₆ hmake
  have hrest : s₆.current.Confined dest s'.current := by
    have hrefl := FunctionState.Confined.refl hslot₆.1.settled dest
    cases named with
    | none =>
      cases h₅
      exact hrefl
    | some name =>
      obtain ⟨_, s₇, hbind, h₆⟩ := bind_eq_ok h₅
      cases h₆
      exact confines_bindFunctionName name slot (le_refl dest) place s₆ ⟨hrefl, hslot₆.2⟩ () _ hbind
  obtain ⟨hsize, k, hk, hload, hmake', hbind⟩ := makeFunction_ok hmake
  have hclose : s₅.current.size = s₃.current.size := by
    rw [heq]
    exact congrArg Array.size (quiet_functionSlot named hslot)
  rw [hclose] at hsize hload hmake' hbind
  have hholds := hrest.holds 0
  have hmade := hlaid.holds (by omega) ((hslot₆.1.trans hrest (le_refl _)).holds 0) (Nat.zero_le _)
  rw [List.length_map] at hmake'
  have hcode : FunctionLiteral.LaidIn ⟨ps, chunk⟩ fuel dest s.current.size s₃.current.size
      s'.current.chunk :=
    ⟨hmade, k, place, hholds.constantAt hk, hholds.getElem? (Nat.zero_le _) hload,
      hholds.getElem? (Nat.zero_le _) hmake', hholds.getElem? (Nat.zero_le _) hbind⟩
  exact ⟨⟨ps, chunk⟩, (named, t), s₁, s₃, hnamed, hlist, ⟨⟨named, t, t', slot, s₁, s₂, s₃, s₄, s₅,
    hnamed, hparen, hnext, hlisted, hslot, hchunk⟩, hnodup, htrailing,
    takes_functionChunk hnodup hchunk, s₃.current.size, hsize ▸ hrest.size, hcode⟩, hcode⟩

theorem makes_function {fuel power : Nat} {dest : Int} {place : Position} {s s' : CompileState}
    {left : Operand} (hs : s.current.Settled) (hdest : 2 ≤ dest)
    (h : function (productions fuel) power dest place s = .ok left s') :
    ∃ l : FunctionLiteral, l.Made fuel dest s s' := by
  obtain ⟨l, -, -, -, -, -, hmade, -⟩ := makes_function_behind hs hdest h
  exact ⟨l, hmade⟩

end Compile

end ScriptEngine
