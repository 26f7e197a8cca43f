import ScriptEngine.Proofs.Compile.Keeps
import ScriptEngine.Proofs.Expression.Code

/-!
# Reading known tokens

When the tokens that follow are known, a step of a compilation is known too: what it gives, which
tokens it leaves, and what code it makes. `Takes s₀ g m fault a g'` says that of a step `m`: it
takes a compilation from the stage `g` to the stage `g'` with the result `a`, unless there is a
fault, in which case it fails because an operand there is no target.

The state `s₀` stands for what does not change meanwhile: the blocks of the function and the
functions around it.
-/

namespace ScriptEngine

/-- The tokens that a lexer gives next. -/
def Lexer.Delivers : Lexer → List Token → Prop
  | _, [] => True
  | l, t :: ts => ∃ l' : Lexer, l.next = (.ok t, l') ∧ l'.Delivers ts

namespace Lexer

instance decidableDelivers : (l : Lexer) → (ts : List Token) → Decidable (l.Delivers ts)
  | _, [] => .isTrue trivial
  | l, t :: ts =>
    match h : l.next with
    | (.error _, _) => .isFalse fun ⟨_, hnext, _⟩ => by rw [h] at hnext; cases hnext
    | (.ok t', l') =>
      if ht : t' = t then
        match decidableDelivers l' ts with
        | .isTrue hts => .isTrue ⟨l', by rw [h, ht], hts⟩
        | .isFalse hts => .isFalse fun ⟨_, hnext, hts'⟩ => by
          rw [h] at hnext
          cases hnext
          exact hts hts'
      else .isFalse fun ⟨_, hnext, _⟩ => by
        rw [h] at hnext
        cases hnext
        exact ht rfl

/-- After a token was read, none is waiting. -/
theorem pushed_next {l l' : Lexer} {t : Token} (h : l.next = (.ok t, l')) : l'.pushed = none := by
  unfold next at h
  split at h
  · cases h
    rfl
  · rename_i hpushed
    unfold fetch at h
    split at h
    · cases h
      exact hpushed
    · split at h
      · cases h
        exact hpushed
      · cases h
      · dsimp only at h
        split at h
        · cases h
        · cases h
          exact hpushed

/-- A token that was given back comes again. -/
theorem Delivers.pushBack {l : Lexer} {ts : List Token} (h : l.Delivers ts)
    (hpushed : l.pushed = none) (t : Token) : (l.pushBack t).Delivers (t :: ts) := by
  refine ⟨{ l.pushBack t with pushed := none }, rfl, ?_⟩
  rwa [show { l.pushBack t with pushed := none } = l by cases l; cases hpushed; rfl]

end Lexer

/-! ## Stages -/

/-- How names are resolved where a compilation is. -/
def CompileState.names (s : CompileState) : Names where
  slot? := s.current.resolve
  linked name := s.enclosing.any fun f => (f.resolve name).isSome

/-- Where a compilation is: the code so far, the place of the token read last unless it was given
back, and the tokens that follow. -/
structure Stage where
  draft : Draft
  place : Option Position
  tokens : List Token

/-- A compilation is at a stage, and nothing else changed since another state of it. -/
structure CompileState.At (s₀ : CompileState) (g : Stage) (s : CompileState) : Prop where
  lexer : s.lexer.Delivers g.tokens
  draft : s.current.chunk.draft = g.draft
  current : s.current = { s₀.current with chunk := s.current.chunk }
  enclosing : s.enclosing = s₀.enclosing
  place : ∀ p ∈ g.place, s.position = p ∧ s.lexer.pushed = none

theorem CompileState.At.names {s₀ s : CompileState} {g : Stage} (h : s₀.At g s) :
    s.names = s₀.names := by
  unfold CompileState.names
  rw [h.current, h.enclosing]
  rfl

/-- Only the chunk changes. -/
theorem CompileState.At.withChunk {s₀ s : CompileState} {g : Stage} (h : s₀.At g s) (c : Chunk) :
    s₀.At { g with draft := c.draft } { s with current := { s.current with chunk := c } } :=
  ⟨h.lexer, rfl, congrArg (fun f : FunctionState => { f with chunk := c }) h.current, h.enclosing,
    h.place⟩

namespace Compile

/-- How a step ends that finds no target at a place. -/
def notAssignable (place : Position) : Failure :=
  .error (.grammar .notAssignable place)

/-- What a step does at a stage; see the head of the module. -/
def Takes {α : Type} (s₀ : CompileState) (g : Stage) (m : Compile α) (fault : Option Position)
    (a : α) (g' : Stage) : Prop :=
  ∀ s, s₀.At g s →
    match fault with
    | none => ∃ s', m s = .ok a s' ∧ s₀.At g' s'
    | some place => ∃ s', m s = .error (notAssignable place) s'

theorem get_bind_apply {β : Type} (k : CompileState → Compile β) (s : CompileState) :
    (get >>= k) s = k s s :=
  rfl

variable {α β : Type} {s₀ : CompileState} {g g₁ g₂ : Stage} {c : Draft} {pl : Option Position}
  {p : Position} {ts : List Token}

namespace Takes

variable {m : Compile α} {k : α → Compile β} {φ ψ : Option Position} {a : α} {b : β}

theorem pure (a : α) : Takes s₀ g (pure a) none a g :=
  fun s h => ⟨s, rfl, h⟩

theorem bind (hm : Takes s₀ g m φ a g₁) (hk : Takes s₀ g₁ (k a) ψ b g₂) :
    Takes s₀ g (m >>= k) (φ.or ψ) b g₂ := by
  intro s h
  have hms := hm s h
  rcases φ with _ | place
  · obtain ⟨s₁, h₁, hat⟩ := hms
    have hks := hk s₁ hat
    rcases ψ with _ | place
    · obtain ⟨s₂, h₂, hat₂⟩ := hks
      exact ⟨s₂, by rw [bind_apply, h₁]; exact h₂, hat₂⟩
    · obtain ⟨s₂, h₂⟩ := hks
      exact ⟨s₂, by rw [bind_apply, h₁]; exact h₂⟩
  · obtain ⟨s₁, h₁⟩ := hms
    exact ⟨s₁, by rw [bind_apply, h₁]⟩

/-- A step without a fault comes first. -/
theorem andThen (hm : Takes s₀ g m none a g₁) (hk : Takes s₀ g₁ (k a) ψ b g₂) :
    Takes s₀ g (m >>= k) ψ b g₂ :=
  hm.bind hk

/-- A step without a fault comes last. -/
theorem finish (hm : Takes s₀ g m φ a g₁) (hk : Takes s₀ g₁ (k a) none b g₂) :
    Takes s₀ g (m >>= k) φ b g₂ := by
  have h := hm.bind hk
  rwa [Option.or_none] at h

/-- The place of the token read last can be forgotten. -/
theorem forget (hm : Takes s₀ g m φ a ⟨c, pl, ts⟩) : Takes s₀ g m φ a ⟨c, none, ts⟩ := by
  intro s h
  have hms := hm s h
  rcases φ with _ | place
  · obtain ⟨s', h', hat⟩ := hms
    exact ⟨s', h', hat.lexer, hat.draft, hat.current, hat.enclosing, nofun⟩
  · exact hms

theorem fail {place : Position} : Takes s₀ g (fail .notAssignable place : Compile α) (some place) a g₁ :=
  fun s _ => ⟨s, rfl⟩

theorem get_bind {k : CompileState → Compile β}
    (h : ∀ s, s₀.At g s → Takes s₀ g (k s) ψ b g₁) : Takes s₀ g (get >>= k) ψ b g₁ :=
  fun s hs => h s hs s hs

end Takes

/-! ## Tokens -/

theorem takes_next {t : Token} :
    Takes s₀ ⟨c, pl, t :: ts⟩ next none t ⟨c, some t.position, ts⟩ := by
  intro s h
  obtain ⟨l, hl, hts⟩ := h.lexer
  refine ⟨{ s with lexer := l, position := t.position }, ?_, hts, h.draft, h.current, h.enclosing, ?_⟩
  · rw [next_apply, hl]
  · rintro _ ⟨⟩
    exact ⟨rfl, Lexer.pushed_next hl⟩

theorem takes_pushBack {t : Token} :
    Takes s₀ ⟨c, some p, ts⟩ (pushBack t) none () ⟨c, none, t :: ts⟩ := by
  intro s h
  have hpushed := (h.place p rfl).2
  exact ⟨_, rfl, h.lexer.pushBack hpushed t, h.draft, h.current, h.enclosing, nofun⟩

theorem takes_expect {kind : Token.Kind} {place : Position} :
    Takes s₀ ⟨c, pl, ⟨kind, place⟩ :: ts⟩ (expect kind) none () ⟨c, some place, ts⟩ := by
  refine takes_next.andThen ?_
  rw [if_pos rfl]
  exact .pure ()

/-! ## Code -/

theorem draft_addConstant (c : Chunk) (k : Constant) :
    (c.addConstant k).1.draft = c.draft.intern k ∧ (c.addConstant k).2 = c.draft.index k := by
  unfold Chunk.addConstant Draft.intern Draft.index Chunk.draft
  rcases c.constants.findIdx? (Chunk.interns · k) with _ | n <;> exact ⟨rfl, rfl⟩

/-- A change of the chunk in the making. -/
theorem takes_modifyChunk {f : Chunk → Chunk} {F : Draft → Draft}
    (h : ∀ c : Chunk, (f c).draft = F c.draft) :
    Takes s₀ ⟨c, pl, ts⟩ (modifyChunk f) none () ⟨F c, pl, ts⟩ := by
  intro s hs
  have hat := hs.withChunk (f s.current.chunk)
  rw [h, hs.draft] at hat
  exact ⟨_, rfl, hat⟩

theorem takes_here : Takes s₀ ⟨c, pl, ts⟩ here none c.size ⟨c, pl, ts⟩ :=
  fun s h => ⟨s, congrArg (fun e : Draft => EStateM.Result.ok e.size s) h.draft, h⟩

theorem takes_emitAt {place : Position} {op : Op} {a b e : Int} :
    Takes s₀ ⟨c, pl, ts⟩ (emitAt place op a b e) none c.size ⟨c.emit place op a b e, pl, ts⟩ :=
  takes_here.andThen
    ((takes_modifyChunk (F := (·.emit place op a b e)) fun _ => rfl).andThen (.pure _))

/-- An emission that ends a step. -/
theorem takes_last {place : Position} {op : Op} {a b e : Int} {x : α} :
    Takes s₀ ⟨c, pl, ts⟩ (do let _ ← emitAt place op a b e; return x) none x
      ⟨c.emit place op a b e, pl, ts⟩ :=
  takes_emitAt.andThen (.pure x)

theorem takes_emit {op : Op} {a b e : Int} :
    Takes s₀ ⟨c, some p, ts⟩ (emit op a b e) none c.size ⟨c.emit p op a b e, some p, ts⟩ := by
  refine .get_bind fun s hs => ?_
  rw [(hs.place p rfl).1]
  exact takes_emitAt

theorem takes_constant {k : Constant} :
    Takes s₀ ⟨c, pl, ts⟩ (constant k) none (c.index k : Int) ⟨c.intern k, pl, ts⟩ := by
  intro s hs
  obtain ⟨hdraft, hindex⟩ := draft_addConstant s.current.chunk k
  have hat := hs.withChunk (s.current.chunk.addConstant k).1
  rw [hs.draft] at hdraft hindex
  rw [hdraft] at hat
  refine ⟨_, ?_, hat⟩
  rw [← hindex]
  rfl

theorem takes_name {s : String} :
    Takes s₀ ⟨c, pl, ts⟩ (name s) none (c.index (.value (.str s)) : Int)
      ⟨c.intern (.value (.str s)), pl, ts⟩ :=
  takes_constant

/-- A jump is pointed to the end of the code. -/
theorem takes_land {n : Nat} {k : Unit → Compile β} {φ : Option Position} {b : β}
    (h : Takes s₀ ⟨c.land n, pl, ts⟩ (k ()) φ b g) :
    Takes s₀ ⟨c, pl, ts⟩ (here >>= fun target => patch n target >>= k) φ b g :=
  takes_here.andThen
    ((takes_modifyChunk (F := fun e => e.modifyAt n (·.aim c.size)) fun _ => rfl).andThen h)

theorem takes_erase {n : Nat} : Takes s₀ ⟨c, pl, ts⟩ (erase n) none () ⟨c.erase n, pl, ts⟩ :=
  takes_modifyChunk (F := (·.erase n)) fun _ => rfl

theorem takes_retarget {load : Nat} {d receiver key : Int} :
    Takes s₀ ⟨c, pl, ts⟩ (retarget load d receiver key) none (above d receiver key)
      ⟨c.modifyAt load ({ · with a := above d receiver key }), pl, ts⟩ :=
  (takes_modifyChunk
    (F := fun e => e.modifyAt load ({ · with a := above d receiver key })) fun _ => rfl).andThen
      (.pure _)

end Compile

end ScriptEngine
