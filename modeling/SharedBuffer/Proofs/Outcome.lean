import SharedBuffer.Action

/-!
Reasoning about actions by what their outcome meets: one condition for an answer and one for a
refusal, each on the state left behind and the events reported. A sequence meets what its first
part makes the second part meet.
-/

namespace SharedBuffer

namespace Outcome

variable {ε σ α : Type}

def Meets (o : Outcome ε σ α) (Q : α → σ → List Event → Prop) (E : ε → σ → List Event → Prop) :
    Prop :=
  match o.result with
  | .ok a => Q a o.state o.events
  | .error e => E e o.state o.events

variable {o : Outcome ε σ α} {Q Q' : α → σ → List Event → Prop} {E E' : ε → σ → List Event → Prop}

theorem Meets.mono (h : o.Meets Q E) (hQ : ∀ a s log, Q a s log → Q' a s log)
    (hE : ∀ e s log, E e s log → E' e s log) : o.Meets Q' E' := by
  rcases o with ⟨e | a, s, log⟩
  · exact hE e s log h
  · exact hQ a s log h

theorem Meets.imp (h : o.Meets Q E) (hQ : ∀ a s log, Q a s log → Q' a s log) : o.Meets Q' E :=
  h.mono hQ fun _ _ _ he => he

theorem Meets.imp_error (h : o.Meets Q E) (hE : ∀ e s log, E e s log → E' e s log) :
    o.Meets Q E' :=
  h.mono (fun _ _ _ hq => hq) hE

theorem Meets.of_ok (h : o.Meets Q E) {a : α} (ha : o.result = .ok a) : Q a o.state o.events := by
  rcases o with ⟨e | b, s, log⟩
  · simp at ha
  · cases ha
    exact h

theorem Meets.of_error (h : o.Meets Q E) {e : ε} (he : o.result = .error e) :
    E e o.state o.events := by
  rcases o with ⟨f | b, s, log⟩
  · cases he
    exact h
  · simp at he

theorem result_of_eq {r : Except ε α} {s : σ} {log : List Event} (h : o = ⟨r, s, log⟩) :
    o.result = r := by rw [h]

theorem Meets.state {P : σ → Prop} (h : o.Meets (fun _ s _ => P s) (fun _ s _ => P s)) :
    P o.state := by
  rcases o with ⟨e | a, s, log⟩
  · exact h
  · exact h

theorem meets_of_state {P : σ → Prop} (h : P o.state) :
    o.Meets (fun _ s _ => P s) fun _ s _ => P s := by
  rcases o with ⟨e | a, s, log⟩
  · exact h
  · exact h

end Outcome

namespace Action

open Outcome (Meets)

variable {ε ε' σ τ α β : Type} {Q : β → σ → List Event → Prop} {E : ε → σ → List Event → Prop}

theorem meets_bind {x : Action ε σ α} {f : α → Action ε σ β} {s : σ}
    (h : (x s).Meets
      (fun a t log => (f a t).Meets (fun b u more => Q b u (log ++ more))
        (fun e u more => E e u (log ++ more))) E) :
    ((x >>= f) s).Meets Q E := by
  generalize hx : x s = o at h
  rcases o with ⟨e | a, t, log⟩
  · rw [bind_of_error hx]
    exact h
  · rw [bind_of_ok hx]
    have h : (f a t).Meets (fun b u more => Q b u (log ++ more))
        (fun e u more => E e u (log ++ more)) := h
    generalize hf : f a t = p at h
    rcases p with ⟨e | b, u, more⟩
    · exact h
    · exact h

theorem ask_of_ok {g : σ → Except ε α} {s : σ} {a : α} (h : g s = .ok a) :
    ask g s = ⟨.ok a, s, []⟩ := by rw [← h]; rfl

theorem ask_of_error {g : σ → Except ε α} {s : σ} {e : ε} (h : g s = .error e) :
    ask g s = ⟨.error e, s, []⟩ := by rw [← h]; rfl

theorem ask_bind_of_ok {g : σ → Except ε α} {f : α → Action ε σ β} {s : σ} {a : α}
    (h : g s = .ok a) : (ask g >>= f) s = f a s :=
  bind_of_ok (ask_of_ok h)

theorem ask_bind_of_error {g : σ → Except ε α} {f : α → Action ε σ β} {s : σ} {e : ε}
    (h : g s = .error e) : (ask g >>= f) s = ⟨.error e, s, []⟩ :=
  bind_of_error (ask_of_error h)

theorem update_of_ok {g : σ → Except ε σ} {s t : σ} (h : g s = .ok t) :
    update g s = ⟨.ok (), t, []⟩ := by rw [update, h]

theorem update_of_error {g : σ → Except ε σ} {s : σ} {e : ε} (h : g s = .error e) :
    update g s = ⟨.error e, s, []⟩ := by rw [update, h]

theorem orUndo_of_ok {x : Action ε σ α} {s t : σ} {v : α} {log : List Event}
    (h : x s = ⟨.ok v, t, log⟩) (undo : Action ε σ Unit) : orUndo x undo s = ⟨.ok v, t, log⟩ := by
  rw [orUndo, h]

theorem orUndo_of_error {x : Action ε σ α} {undo : Action ε σ Unit} {s t : σ} {e : ε} {log : List Event}
    (h : x s = ⟨.error e, t, log⟩) :
    orUndo x undo s = ⟨.error e, (undo t).state, log ++ (undo t).events⟩ := by
  rw [orUndo, h]

theorem bind_eq_ok {x : Action ε σ α} {f : α → Action ε σ β} {s t u : σ} {v : α} {w : β}
    {log more : List Event} (hx : x s = ⟨.ok v, t, log⟩) (hf : f v t = ⟨.ok w, u, more⟩) :
    (x >>= f) s = ⟨.ok w, u, log ++ more⟩ := by rw [bind_of_ok hx, hf]

theorem exists_of_bind_eq_ok {x : Action ε σ α} {f : α → Action ε σ β} {s u : σ} {w : β}
    {log : List Event} (h : (x >>= f) s = ⟨.ok w, u, log⟩) :
    ∃ v t first more, x s = ⟨.ok v, t, first⟩ ∧ f v t = ⟨.ok w, u, more⟩ ∧ log = first ++ more := by
  rcases hx : x s with ⟨e | v, t, first⟩
  · rw [bind_of_error hx] at h
    cases h
  · rw [bind_of_ok hx] at h
    rcases hf : f v t with ⟨w', u', more⟩
    rw [hf] at h
    cases h
    exact ⟨v, t, first, more, rfl, hf, rfl⟩

theorem mapError_of_ok {x : Action ε σ α} {s t : σ} {v : α} {log : List Event}
    (h : x s = ⟨.ok v, t, log⟩) (f : ε → ε') : mapError f x s = ⟨.ok v, t, log⟩ := by rw [mapError, h]

theorem current_bind (f : σ → Action ε σ β) (s : σ) : (current >>= f) s = f s s :=
  bind_of_ok (show current s = ⟨.ok s, s, []⟩ from rfl)

theorem modify_bind (g : σ → σ) (f : Unit → Action ε σ β) (s : σ) :
    (modify g >>= f) s = f () (g s) :=
  bind_of_ok (show modify g s = ⟨.ok (), g s, []⟩ from rfl)

theorem emit_bind (e : Event) (f : Unit → Action ε σ β) (s : σ) :
    (emit e >>= f) s = ⟨(f () s).result, (f () s).state, e :: (f () s).events⟩ :=
  bind_of_ok (show emit e s = ⟨.ok (), s, [e]⟩ from rfl)

theorem meets_ask {g : σ → Except ε β} {s : σ} (hQ : ∀ b, g s = .ok b → Q b s [])
    (hE : ∀ e, g s = .error e → E e s []) : ((ask g) s).Meets Q E := by
  cases hg : g s with
  | error e =>
    have h := hE e hg
    simpa only [ask, Meets, hg] using h
  | ok b =>
    have h := hQ b hg
    simpa only [ask, Meets, hg] using h

theorem meets_ask_bind {g : σ → Except ε α} {f : α → Action ε σ β} {s : σ}
    (hQ : ∀ a, g s = .ok a → (f a s).Meets Q E) (hE : ∀ e, g s = .error e → E e s []) :
    ((ask g >>= f) s).Meets Q E := by
  cases hg : g s with
  | error e =>
    rw [ask_bind_of_error hg]
    exact hE e hg
  | ok a =>
    rw [ask_bind_of_ok hg]
    exact hQ a hg

theorem meets_update {g : σ → Except ε σ} {Q : Unit → σ → List Event → Prop} {s : σ}
    (hQ : ∀ t, g s = .ok t → Q () t []) (hE : ∀ e, g s = .error e → E e s []) :
    ((update g) s).Meets Q E := by
  cases hg : g s with
  | error e =>
    rw [update_of_error hg]
    exact hE e hg
  | ok t =>
    rw [update_of_ok hg]
    exact hQ t hg

theorem meets_map {x : Action ε σ α} {f : α → β} {s : σ}
    (h : (x s).Meets (fun a t log => Q (f a) t log) E) : ((f <$> x) s).Meets Q E := by
  refine meets_bind (h.mono ?_ fun _ _ _ he => he)
  intro a t log hq
  change Q (f a) t (log ++ [])
  rwa [List.append_nil]

theorem map_of_ok {x : Action ε σ α} {s t : σ} {v : α} {log : List Event} (f : α → β)
    (h : x s = ⟨.ok v, t, log⟩) : (f <$> x) s = ⟨.ok (f v), t, log⟩ := by
  refine (bind_of_ok h).trans ?_
  change (⟨.ok (f v), t, log ++ []⟩ : Outcome ε σ β) = _
  rw [List.append_nil]

theorem map_of_error {x : Action ε σ α} {s t : σ} {e : ε} {log : List Event} (f : α → β)
    (h : x s = ⟨.error e, t, log⟩) : (f <$> x) s = ⟨.error e, t, log⟩ := bind_of_error h

theorem events_map (f : α → β) (x : Action ε σ α) (s : σ) : ((f <$> x) s).events = (x s).events := by
  rcases ho : x s with ⟨e | v, t, log⟩
  · rw [map_of_error f ho]
  · rw [map_of_ok f ho]

theorem state_then_pure (x : Action ε σ α) (b : β) (s : σ) :
    ((x >>= fun _ => pure b) s).state = (x s).state := by
  rcases ho : x s with ⟨e | a, t, log⟩
  · rw [bind_of_error ho]
  · rw [bind_of_ok ho]
    rfl

theorem meets_then_pure {x : Action ε σ α} {b : β} {s : σ}
    (h : (x s).Meets (fun _ t log => Q b t log) E) :
    ((do let _ ← x; return b) s).Meets Q E :=
  meets_map (f := fun _ => b) h

theorem meets_mapError {x : Action ε σ β} {f : ε → ε'} {E : ε' → σ → List Event → Prop} {s : σ}
    (h : (x s).Meets Q (fun e t log => E (f e) t log)) : ((mapError f x) s).Meets Q E := by
  simp only [mapError]
  generalize x s = o at h ⊢
  rcases o with ⟨e | b, t, log⟩
  · exact h
  · exact h

theorem meets_zoom {part : σ → τ} {put : τ → σ → σ} {x : Action ε τ β} {s : σ}
    (h : (x (part s)).Meets (fun b t log => Q b (put t s) log)
      (fun e t log => E e (put t s) log)) : ((zoom part put x) s).Meets Q E := by
  simp only [zoom]
  generalize x (part s) = o at h ⊢
  rcases o with ⟨e | b, t, log⟩
  · exact h
  · exact h

theorem bind_assoc {γ : Type} (x : Action ε σ α) (f : α → Action ε σ β)
    (g : β → Action ε σ γ) : x >>= f >>= g = x >>= fun v => f v >>= g := by
  funext s
  rcases hx : x s with ⟨e | v, t, log⟩
  · rw [bind_of_error hx, bind_of_error (bind_of_error hx)]
  · rw [bind_of_ok hx]
    rcases hf : f v t with ⟨e | w, u, more⟩
    · rw [bind_of_error hf, bind_of_error ((bind_of_ok hx).trans (by rw [hf]))]
    · rw [bind_of_ok hf, bind_of_ok ((bind_of_ok hx).trans (by rw [hf]))]
      exact congrArg (Outcome.mk _ _) (List.append_assoc _ _ _)

theorem ask_bind_congr {g h : σ → Except ε α} {s : σ} (heq : g s = h s)
    (f : α → Action ε σ β) : (ask g >>= f) s = (ask h >>= f) s := by
  cases hh : h s with
  | error e => rw [ask_bind_of_error hh, ask_bind_of_error (heq.trans hh)]
  | ok v => rw [ask_bind_of_ok hh, ask_bind_of_ok (heq.trans hh)]

def Preserves (P : σ → Prop) (x : Action ε σ α) : Prop := ∀ s, P s → P (x s).state

theorem Preserves.bind {P : σ → Prop} {x : Action ε σ α} {f : α → Action ε σ β}
    (hx : x.Preserves P) (hf : ∀ v, (f v).Preserves P) : (x >>= f).Preserves P := by
  intro s hs
  have hstate := hx s hs
  rcases ho : x s with ⟨e | v, t, log⟩
  · rw [ho] at hstate
    rw [bind_of_error ho]
    exact hstate
  · rw [ho] at hstate
    rw [bind_of_ok ho]
    exact hf v t hstate

theorem Preserves.orUndo {P : σ → Prop} {x : Action ε σ α} {undo : Action ε σ Unit}
    (hx : x.Preserves P) (hundo : undo.Preserves P) : (x.orUndo undo).Preserves P := by
  intro s hs
  have hstate := hx s hs
  rcases ho : x s with ⟨e | v, t, log⟩
  · rw [ho] at hstate
    rw [orUndo_of_error ho]
    exact hundo t hstate
  · rw [ho] at hstate
    rw [orUndo_of_ok ho]
    exact hstate

theorem preserves_update {P : σ → Prop} {f : σ → Except ε σ} (h : ∀ s t, f s = .ok t → P s → P t) :
    (update f).Preserves P := by
  intro s hs
  cases hf : f s with
  | error e =>
    rw [update_of_error hf]
    exact hs
  | ok t =>
    rw [update_of_ok hf]
    exact h s t hf hs

end Action

/-!
Two actions side by side: from states that go together they end in the same refusal or in answers
that go together, and in states that go together.
-/

/-- The same refusal, or answers that go together. -/
inductive SameUpTo {ε α β : Type} (R : α → β → Prop) : Except ε α → Except ε β → Prop
  | ok {v : α} {w : β} (h : R v w) : SameUpTo R (.ok v) (.ok w)
  | error (e : ε) : SameUpTo R (.error e) (.error e)

structure Outcome.Agree {ε σ α β : Type} (T : σ → σ → Prop) (R : α → β → Prop)
    (o : Outcome ε σ α) (o' : Outcome ε σ β) : Prop where
  state : T o.state o'.state
  result : SameUpTo R o.result o'.result

section SameUpTo

variable {ε α β : Type} {R R' : α → β → Prop} {x : Except ε α} {y : Except ε β}

theorem SameUpTo.mono (h : SameUpTo R x y) (hR : ∀ v w, R v w → R' v w) : SameUpTo R' x y := by
  cases h with
  | ok h => exact .ok (hR _ _ h)
  | error e => exact .error e

theorem sameUpTo_refl {R : α → α → Prop} {x : Except ε α} (hR : ∀ v, x = .ok v → R v v) :
    SameUpTo R x x := by
  cases x with
  | ok v => exact .ok (hR v rfl)
  | error e => exact .error e

end SameUpTo

namespace Action

variable {ε ε' σ τ α β γ δ : Type} {T : σ → σ → Prop} {R : α → β → Prop} {S : γ → δ → Prop}

def Agrees (T : σ → σ → Prop) (R : α → β → Prop) (x : Action ε σ α) (y : Action ε σ β) : Prop :=
  ∀ s t, T s t → (x s).Agree T R (y t)

variable {x : Action ε σ α} {y : Action ε σ β} {f : α → Action ε σ γ} {g : β → Action ε σ δ}

theorem Agrees.mono {R' : α → β → Prop} (h : Agrees T R x y) (hR : ∀ v w, R v w → R' v w) :
    Agrees T R' x y :=
  fun s t hst => ⟨(h s t hst).state, (h s t hst).result.mono hR⟩

theorem Agrees.bind (h : Agrees T R x y) (hfg : ∀ v w, R v w → Agrees T S (f v) (g w)) :
    Agrees T S (x >>= f) (y >>= g) := by
  intro s t hst
  obtain ⟨hstate, hresult⟩ := h s t hst
  rcases hx : x s with ⟨r, s', log⟩
  rcases hy : y t with ⟨r', t', log'⟩
  rw [hx, hy] at hstate hresult
  cases hresult with
  | ok hvw =>
    rw [bind_of_ok hx, bind_of_ok hy]
    have hrest := hfg _ _ hvw s' t' hstate
    exact ⟨hrest.state, hrest.result⟩
  | error e =>
    rw [bind_of_error hx, bind_of_error hy]
    exact ⟨hstate, .error e⟩

theorem agrees_pure {v : α} {w : β} (h : R v w) :
    Agrees T R (pure v : Action ε σ α) (pure w) :=
  fun _ _ hst => ⟨hst, .ok h⟩

theorem agrees_fail (e : ε) : Agrees T R (fail e) (fail e) := fun _ _ hst => ⟨hst, .error e⟩

theorem Agrees.map {f : α → γ} {g : β → δ} (h : Agrees T R x y)
    (hfg : ∀ v w, R v w → S (f v) (g w)) : Agrees T S (f <$> x) (g <$> y) :=
  h.bind fun v w hvw => agrees_pure (hfg v w hvw)

theorem agrees_ask {f : σ → Except ε α} {g : σ → Except ε β}
    (h : ∀ s t, T s t → SameUpTo R (f s) (g t)) : Agrees T R (ask f) (ask g) :=
  fun s t hst => ⟨hst, h s t hst⟩

theorem agrees_current : Agrees T T (current : Action ε σ σ) current := fun _ _ hst => ⟨hst, .ok hst⟩

theorem agrees_modify {f g : σ → σ} (h : ∀ s t, T s t → T (f s) (g t)) :
    Agrees T (· = ·) (modify f : Action ε σ Unit) (modify g) :=
  fun s t hst => ⟨h s t hst, .ok rfl⟩

theorem agrees_update {f g : σ → Except ε σ} (h : ∀ s t, T s t → SameUpTo T (f s) (g t)) :
    Agrees T (· = ·) (update f) (update g) := by
  intro s t hst
  have hsame := h s t hst
  generalize hf : f s = r at hsame
  generalize hg : g t = r' at hsame
  cases hsame with
  | ok h =>
    rw [update_of_ok hf, update_of_ok hg]
    exact ⟨h, .ok rfl⟩
  | error e =>
    rw [update_of_error hf, update_of_error hg]
    exact ⟨hst, .error e⟩

theorem agrees_emit (e : Event) : Agrees T (· = ·) (emit e : Action ε σ Unit) (emit e) :=
  fun _ _ hst => ⟨hst, .ok rfl⟩

theorem Agrees.mapError (h : Agrees T R x y) (r : ε → ε') :
    Agrees T R (Action.mapError r x) (Action.mapError r y) := by
  intro s t hst
  obtain ⟨hstate, hresult⟩ := h s t hst
  rcases hx : x s with ⟨r, s', log⟩
  rcases hy : y t with ⟨r', t', log'⟩
  rw [hx, hy] at hstate hresult
  simp only [Action.mapError, hx, hy]
  cases hresult with
  | ok hvw => exact ⟨hstate, .ok hvw⟩
  | error e => exact ⟨hstate, .error _⟩

theorem Agrees.orUndo {u v : Action ε σ Unit} (h : Agrees T R x y) (hundo : Agrees T (· = ·) u v) :
    Agrees T R (Action.orUndo x u) (Action.orUndo y v) := by
  intro s t hst
  obtain ⟨hstate, hresult⟩ := h s t hst
  rcases hx : x s with ⟨r, s', log⟩
  rcases hy : y t with ⟨r', t', log'⟩
  rw [hx, hy] at hstate hresult
  simp only [Action.orUndo, hx, hy]
  cases hresult with
  | ok hvw => exact ⟨hstate, .ok hvw⟩
  | error e => exact ⟨(hundo s' t' hstate).state, .error e⟩

theorem Agrees.zoom {U : τ → τ → Prop} {part : τ → σ} {put : σ → τ → τ} (h : Agrees T R x y)
    (hpart : ∀ s t, U s t → T (part s) (part t))
    (hput : ∀ s t s' t', U s t → T s' t' → U (put s' s) (put t' t)) :
    Agrees U R (Action.zoom part put x) (Action.zoom part put y) := by
  intro s t hst
  obtain ⟨hstate, hresult⟩ := h _ _ (hpart s t hst)
  exact ⟨hput s t _ _ hst hstate, hresult⟩

end Action

end SharedBuffer
