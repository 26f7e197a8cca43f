import ScriptEngine.Proofs.Captured
import ScriptEngine.Proofs.Expression.Faithful

/-!
# The declarations that names reach

A name is resolved in two ways. Where a block of the function itself that is still open declares
it, the code uses the register of that declaration. Everywhere else the name is looked up when the
code runs, in activations that know one register for each name: that of the declaration which ran
last, whether its block is still open or not. A function inside another one therefore uses the
latest declaration of the outer one, not the one in whose block it stands.
-/

namespace ScriptEngine

namespace Heap

variable {h : Heap} {s u : ScopeRef} {name : String}

/-- Runs declarations of an activation: names and their registers. -/
def declareAll (h : Heap) (s : ScopeRef) (declarations : List (String × Nat)) : Heap :=
  declarations.foldl (fun h d => h.registerLocal s d.1 d.2) h

/-- The register of the last declaration of a name. -/
def latest? (name : String) : List (String × Nat) → Option Nat
  | [] => none
  | d :: declarations =>
    (latest? name declarations).or (if d.1 = name then some d.2 else none)

/-- The locals of an activation after declarations. -/
theorem scope_declareAll (name : String) {parent : ScopeRef} {window : WindowRef}
    {locals : Std.HashMap String Nat} {upvalues : Std.HashMap String Cell}
    (hs : h.scope s = .activation parent window locals upvalues)
    (declarations : List (String × Nat)) :
    ∃ locals', (h.declareAll s declarations).scope s = .activation parent window locals' upvalues ∧
      locals'[name]? = (latest? name declarations).or locals[name]? := by
  induction declarations generalizing h locals with
  | nil => exact ⟨locals, hs, rfl⟩
  | cons d declarations ih =>
    have hregister : (h.registerLocal s d.1 d.2).scope s =
        .activation parent window (locals.insert d.1 d.2) upvalues :=
      scope_modifyScope_self hs _
    obtain ⟨locals', hscope, hlocals⟩ := ih hregister
    refine ⟨locals', hscope, hlocals.trans ?_⟩
    rw [latest?, Option.or_assoc, Std.HashMap.getElem?_insert]
    by_cases hd : d.1 = name
    · simp [hd]
    · simp [hd]

variable {window : WindowRef} {declarations : List (String × Nat)} {index : Nat}

/-- The cell of a name is that of its last declaration. -/
theorem localCell?_declareAll (hs : (h.scope s).shape.2 = some window)
    (hindex : latest? name declarations = some index) :
    (h.declareAll s declarations).localCell? name s = some ⟨window, index⟩ := by
  rcases hscope : h.scope s with ⟨parent, vars⟩ | ⟨parent, w, locals, upvalues⟩ <;>
    rw [hscope] at hs <;> cases hs
  obtain ⟨locals', hscope', hlocals⟩ := scope_declareAll name hscope declarations
  rw [localCell?, hscope']
  simp only [hlocals, hindex, Option.some_or, Option.map_some]

theorem storedIn_of_localCell? {c : Cell} (hc : h.localCell? name s = some c) :
    h.StoredIn s name c := by
  have hown : h.ownPlace? name s = some (.register c) := by
    unfold localCell? at hc
    unfold ownPlace?
    rcases hscope : h.scope s with ⟨parent, vars⟩ | ⟨parent, w, locals, upvalues⟩ <;>
      rw [hscope] at hc
    · cases hc
    · obtain ⟨i, hi, rfl⟩ := Option.map_eq_some_iff.1 hc
      simp only [hi]
  exact storedIn_of_place? (by rw [place?, chain, List.findSome?_cons, hown])

end Heap

/-- What a name means: where an open block of the function declares it, the register of that
declaration; otherwise a member of the activation. The members of an activation, and the cells that
others are linked to, are the registers of the declarations that ran last. -/
theorem name_reaches_declaration {s : CompileState} {name : String} {place : Position}
    {power depth : Nat} {d : Int} {t : Token} {ts : List Token}
    (hfaces : s.Faces (.name place name) power depth t ts) (hd : 2 ≤ d) :
    (∀ register, s.current.resolve name = some register →
      s.Realises (.name place name) power depth d (t :: ts) fun x =>
        Script.tracing place (x.frame.read register)) ∧
    (s.current.resolve name = none →
      s.Realises (.name place name) power depth d (t :: ts) fun x => do
        if s.names.linked name then Script.modifyHeap (·.captureUpvalue x.frame.activation name)
        Script.tracing place (Script.getMember x.call x.scope (.str name))) ∧
    ∀ (h : Heap) (a : ScopeRef) (window : WindowRef) (declarations : List (String × Nat))
      (index : Nat), (h.scope a).shape.2 = some window →
        Heap.latest? name declarations = some index →
          (h.declareAll a declarations).StoredIn a name ⟨window, index⟩ ∧
          ∀ u, (h.declareAll a declarations).Ignores u name →
            (h.declareAll a declarations).owner? u name = some a →
              ((h.declareAll a declarations).captureUpvalue u name).StoredIn u name
                ⟨window, index⟩ := by
  refine ⟨fun register hregister => ?_, fun hnone => ?_, ?_⟩
  · refine (hfaces.realises hd rfl).congr fun calls f e₀ => ?_
    have hslot : (f.context calls s.names e₀).names.slot? name = some register := hregister
    simp only [Expr.value, Expr.refer, hslot, pure_bind, Reference.get]
  · refine (hfaces.realises hd rfl).congr fun calls f e₀ => ?_
    have hslot : (f.context calls s.names e₀).names.slot? name = none := hnone
    have hlinked : (f.context calls s.names e₀).names.linked name = s.names.linked name := rfl
    simp only [Expr.value, Expr.refer, hslot, hlinked]
    split <;> simp only [bind_assoc, pure_bind, Reference.get]
  · intro h a window declarations index hwindow hindex
    have hcell := Heap.localCell?_declareAll hwindow hindex
    exact ⟨Heap.storedIn_of_localCell? hcell, fun u hu howner =>
      (hu.captureUpvalue howner hcell).storedIn⟩

/-- A function declares `x` in register 0 of its window and then, in a block, in register 1: a name
that is looked up afterwards reaches register 1. -/
theorem name_reaches_declaration_shadowed :
    ∃ s : CompileState, s.Faces (.name ⟨1, 1⟩ "x") Power.statement 5 ⟨.finish, ⟨1, 2⟩⟩ [] ∧
      s.current.resolve "x" = none ∧
      (s.Realises (.name ⟨1, 1⟩ "x") Power.statement 5 2 [⟨.finish, ⟨1, 2⟩⟩] fun x => do
        if s.names.linked "x" then Script.modifyHeap (·.captureUpvalue x.frame.activation "x")
        Script.tracing ⟨1, 1⟩ (Script.getMember x.call x.scope (.str "x"))) ∧
      (twoCalls.heap.declareAll ⟨1⟩ [("x", 0), ("x", 1)]).StoredIn ⟨1⟩ "x" ⟨⟨0⟩, 1⟩ := by
  have htokens : (Lexer.ofText (Source.normalize "x".toList)).Delivers
      ((Expr.name ⟨1, 1⟩ "x").first :: ((Expr.name ⟨1, 1⟩ "x").rest ++ [⟨.finish, ⟨1, 2⟩⟩])) := by
    decide +kernel
  obtain ⟨s, -, hs, -, hnames⟩ := faces_ofText htokens trivial trivial (show _ < 5 by decide)
  have hnone : s.current.resolve "x" = none := congrArg (fun n : Names => n.slot? "x") hnames
  obtain ⟨-, hname, hlatest⟩ := name_reaches_declaration hs (le_refl 2)
  exact ⟨s, hs, hnone, hname hnone, (hlatest twoCalls.heap ⟨1⟩ ⟨0⟩ [("x", 0), ("x", 1)] 1 rfl
    (by decide)).1⟩

end ScriptEngine
