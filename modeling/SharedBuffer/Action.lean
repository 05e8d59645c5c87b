import SharedBuffer.Event

/-!
Actions on a state that may be refused and that report events. An outcome keeps the state in
either case: what a refused action has changed before is seen, and that it has changed nothing is
a statement about its outcome.
-/

namespace SharedBuffer

structure Outcome (ε σ α : Type) where
  result : Except ε α
  state : σ
  events : List Event

def Action (ε σ α : Type) : Type := σ → Outcome ε σ α

namespace Action

variable {ε ε' σ τ α β : Type}

def succeed (a : α) : Action ε σ α := fun s => ⟨.ok a, s, []⟩

def fail (e : ε) : Action ε σ α := fun s => ⟨.error e, s, []⟩

def bind (x : Action ε σ α) (f : α → Action ε σ β) : Action ε σ β := fun s =>
  match x s with
  | ⟨.error e, t, log⟩ => ⟨.error e, t, log⟩
  | ⟨.ok a, t, log⟩ => let o := f a t; ⟨o.result, o.state, log ++ o.events⟩

instance : Monad (Action ε σ) where
  pure := succeed
  bind := bind

def ask (f : σ → Except ε α) : Action ε σ α := fun s => ⟨f s, s, []⟩

def update (f : σ → Except ε σ) : Action ε σ Unit := fun s =>
  match f s with
  | .error e => ⟨.error e, s, []⟩
  | .ok t => ⟨.ok (), t, []⟩

def modify (f : σ → σ) : Action ε σ Unit := fun s => ⟨.ok (), f s, []⟩

def current : Action ε σ σ := fun s => ⟨.ok s, s, []⟩

def emit (e : Event) : Action ε σ Unit := fun s => ⟨.ok (), s, [e]⟩

def orUndo (x : Action ε σ α) (undo : Action ε σ Unit) : Action ε σ α := fun s =>
  match x s with
  | ⟨.error e, t, log⟩ => let o := undo t; ⟨.error e, o.state, log ++ o.events⟩
  | ⟨.ok a, t, log⟩ => ⟨.ok a, t, log⟩

def zoom (part : σ → τ) (put : τ → σ → σ) (x : Action ε τ α) : Action ε σ α := fun s =>
  let o := x (part s)
  ⟨o.result, put o.state s, o.events⟩

def mapError (f : ε → ε') (x : Action ε σ α) : Action ε' σ α := fun s =>
  let o := x s
  ⟨match o.result with | .error e => .error (f e) | .ok a => .ok a, o.state, o.events⟩

theorem bind_of_ok {x : Action ε σ α} {f : α → Action ε σ β} {s t : σ} {a : α} {log : List Event}
    (h : x s = ⟨.ok a, t, log⟩) :
    (x >>= f) s = ⟨(f a t).result, (f a t).state, log ++ (f a t).events⟩ := by
  show bind x f s = _
  simp only [bind, h]

theorem bind_of_error {x : Action ε σ α} {f : α → Action ε σ β} {s t : σ} {e : ε}
    {log : List Event} (h : x s = ⟨.error e, t, log⟩) : (x >>= f) s = ⟨.error e, t, log⟩ := by
  show bind x f s = _
  simp only [bind, h]

theorem pure_apply (a : α) (s : σ) : (pure a : Action ε σ α) s = ⟨.ok a, s, []⟩ := rfl

end Action

end SharedBuffer
