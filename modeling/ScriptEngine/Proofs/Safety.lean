import ScriptEngine.Proofs.Tame.Host

/-!
# Compiled code is safe

What the compiler promises and what the machine makes of it: the chunks of a source are well
formed, and no run of one of them ends in a fault of the machine, whatever engine it starts on,
as long as the engine is intact.
-/

namespace ScriptEngine

/-- All chunks that come from a source are well formed. On every intact engine, and so on every
engine that a host can come to, their runs end without a fault of the machine and leave an intact
engine. This is so for every host, the standard one among them, of which the functions and
constructors are calm as long as calls are. -/
theorem compiled_code_is_safe {source : String} {root : Chunk} (h : compile source = .ok root) :
    (∀ c, root.Contains c → c.WellFormed) ∧
      Host.standard.All Script.StaysCalm ∧
      ∀ host : Host, host.All Script.StaysCalm →
        (∀ e : Engine, e.Reachable host → e.Intact) ∧
        ∀ c, root.Contains c → ∀ e : Engine, e.Intact →
          ∀ (calls fuel : Nat) (scope : ScopeRef) (receiver : Value) (args : Array Value),
            Outcome.Safe (execute (host.call calls) fuel c scope receiver args e) := by
  refine ⟨fun c hc => wellFormed_of_compile h hc, Host.standard_staysCalm, fun host hhost =>
    ⟨fun e he => he.intact hhost, fun c hc e he calls fuel scope receiver args => ?_⟩⟩
  have hcompiled : c.Compiled := ⟨source, root, h, hc⟩
  exact (calm_execute (Host.calm_call hhost calls) fuel hcompiled scope receiver args).safe he

/-- A source with a jump, a rewritten load and a nested function. -/
theorem compiled_code_is_safe_nested :
    ∃ root, compile "if (x) a.b += 1; f(function () {});" = .ok root ∧
      (∀ c, root.Contains c → c.WellFormed) ∧
      Outcome.Safe (execute (callWithin 5) 50 root ⟨0⟩ .void #[] (Engine.create {})) := by
  have hok : (compile "if (x) a.b += 1; f(function () {});").isOk = true := by decide +kernel
  rcases hroot : compile "if (x) a.b += 1; f(function () {});" with failure | root
  · rw [hroot] at hok
    cases hok
  · obtain ⟨hformed, hstandard, hhosts⟩ := compiled_code_is_safe hroot
    obtain ⟨hintact, hsafe⟩ := hhosts _ hstandard
    have hcreated := hintact (Engine.create {}) (.create {})
    exact ⟨root, rfl, hformed, hsafe root (.refl _) _ hcreated 5 50 ⟨0⟩ .void #[]⟩

end ScriptEngine
