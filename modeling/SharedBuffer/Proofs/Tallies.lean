import SharedBuffer.Proofs.Commands

/-!
Tallies over runs. What each step of a run contributes is summed up; where a step moves a quantity by
the difference of two contributions, the run moves it by the difference of their tallies. Here are
the quantities of interest: the references of a group, the storages that groups hold, and those that
a pool has taken back.
-/

namespace SharedBuffer

open Table (find?)

theorem countP_balance {α : Type} {p q r s : α → Bool} {l : List α}
    (h : ∀ x ∈ l, (if p x then 1 else 0) + (if q x then 1 else 0) =
      (if r x then 1 else 0) + (if s x then 1 else 0)) :
    l.countP p + l.countP q = l.countP r + l.countP s := by
  induction l with
  | nil => rfl
  | cons x l ih =>
    have hx := h x List.mem_cons_self
    have hl := ih fun y hy => h y (List.mem_cons_of_mem _ hy)
    simp only [List.countP_cons]
    omega

theorem countP_range_of_le {p : Nat → Bool} {n k : Nat} (hle : n ≤ k) (h : ∀ i, n ≤ i → p i = false) :
    (List.range k).countP p = (List.range n).countP p := by
  obtain ⟨d, rfl⟩ := Nat.exists_eq_add_of_le hle
  rw [List.range_add, List.countP_append, List.countP_map]
  have hzero : (List.range d).countP (p ∘ (n + ·)) = 0 := by
    rw [List.countP_eq_zero]
    intro i _
    simp only [Function.comp_apply, h (n + i) (Nat.le_add_right n i), Bool.false_eq_true, not_false_iff]
  rw [hzero, Nat.add_zero]

theorem filterMap_range_of_single {α : Type} {f : Nat → Option α} {n g : Nat} (hg : g < n)
    (h : ∀ i < n, i ≠ g → f i = none) : (List.range n).filterMap f = (f g).toList := by
  induction n with
  | zero => omega
  | succ n ih =>
    rw [List.range_succ, List.filterMap_append]
    by_cases hn : g = n
    · have hnone : (List.range n).filterMap f = [] := by
        rw [List.filterMap_eq_nil_iff]
        intro i hi
        have hlt := List.mem_range.1 hi
        exact h i (by omega) (by omega)
      rw [hnone, hn, List.nil_append, List.filterMap_cons, List.filterMap_nil]
      cases f n <;> rfl
    · rw [ih (by omega) fun i hi => h i (by omega), List.filterMap_cons, h n (by omega) (Ne.symm hn),
        List.filterMap_nil, List.append_nil]

namespace Command

def booked (a : Arena) (c : Command) : Arena.Account :=
  match (c.run a).result with
  | .ok _ => c.account a
  | .error _ => {}

end Command

namespace Arena

variable {a a' : Arena} {c : Command} {k g : Nat}

def tally (f : Arena → Command → Nat) : Arena → List Command → Nat
  | _, [] => 0
  | a, c :: cs => f a c + tally f (c.run a).state cs

theorem tally_zero (a : Arena) (cs : List Command) : tally (fun _ _ => 0) a cs = 0 := by
  induction cs generalizing a with
  | nil => rfl
  | cons c cs ih => exact (Nat.zero_add _).trans (ih _)

/-- A quantity that every step moves by what it contributes moves so over a run. -/
theorem tally_balance {P : Arena → Nat} {f f' : Arena → Command → Nat}
    (step : ∀ a c, a.Valid → a.Tidy → c.Fits → P (c.run a).state + f a c = P a + f' a c)
    {cs : List Command} (hcs : ∀ c ∈ cs, c.Fits) (ha : a.Valid) (ht : a.Tidy) :
    P (after a cs) + tally f a cs = P a + tally f' a cs := by
  induction cs generalizing a with
  | nil => rfl
  | cons c cs ih =>
    have hc := hcs c List.mem_cons_self
    obtain ⟨x, hdoes, -⟩ := ha.step hc
    have hrest := ih (fun d hd => hcs d (List.mem_cons_of_mem _ hd)) (hdoes.valid ha) (hdoes.tidy ht)
    have hfirst := step a c ha ht hc
    simp only [tally, after, List.foldl_cons] at hrest ⊢
    omega

theorem countOn_tally {P : Arena → Nat} {f : Arena → Command → Nat}
    (step : ∀ a c, a.Valid → a.Tidy → c.Fits → P (c.run a).state = Word.countOn (P a) (f a c))
    {cs : List Command} (hcs : ∀ c ∈ cs, c.Fits) (ha : a.Valid) (ht : a.Tidy) :
    P (after a cs) = Word.countOn (P a) (tally f a cs) := by
  induction cs generalizing a with
  | nil => rfl
  | cons c cs ih =>
    have hc := hcs c List.mem_cons_self
    obtain ⟨x, hdoes, -⟩ := ha.step hc
    have hrest := ih (fun d hd => hcs d (List.mem_cons_of_mem _ hd)) (hdoes.valid ha) (hdoes.tidy ht)
    rw [step a c ha ht hc, ← Word.countOn_add] at hrest
    exact hrest

/-- A step is a course that comes to what is booked, apart from the bytes that a failed transfer has
left. -/
theorem Valid.books (ha : a.Valid) (hc : c.Fits) :
    ∃ x, a.Does x (c.run a).state ∧ x.gained = (c.booked a).gained ∧ x.lost = (c.booked a).lost ∧
      x.back = (c.booked a).back := by
  have hmeets := Command.run_meets ha hc
  simp only [Command.booked]
  cases hresult : (c.run a).result with
  | ok v => exact ⟨_, hmeets.of_ok hresult, rfl, rfl, rfl⟩
  | error f =>
    obtain ⟨used, written, hdoes⟩ := (hmeets.of_error hresult).does
    exact ⟨_, hdoes, rfl, rfl, rfl⟩

theorem booked_of_error {f : Failure} (hf : (c.run a).result = .error f) : c.booked a = {} := by
  rw [Command.booked, hf]

theorem references_step (ha : a.Valid) (hc : c.Fits) (g : Nat) :
    (c.run a).state.references g + (c.booked a).lost g = a.references g + (c.booked a).gained g := by
  obtain ⟨x, hdoes, hgained, hlost, -⟩ := ha.books hc
  obtain ⟨ended, -, -, hcourse⟩ := hdoes.course
  rw [← hgained, ← hlost]
  exact hcourse.count g

theorem references_of_error (ha : a.Valid) (hc : c.Fits) {f : Failure}
    (hf : (c.run a).result = .error f) (g : Nat) :
    (c.run a).state.references g = a.references g := by
  have hstep := references_step ha hc g
  rwa [booked_of_error hf] at hstep

theorem references_of_steady (ha : a.Valid) (hc : c.Fits)
    (hretain : ∀ name n, c ≠ .change name (.retain n))
    (hrelease : ∀ name n, c ≠ .change name (.release n))
    (hderive : ∀ name d target, c = .derive name d target → d.effect.gained = 0) (g : Nat) :
    (c.run a).state.references g = a.references g := by
  have hstep := references_step ha hc g
  simp only [Command.booked] at hstep
  split at hstep
  · rwa [Command.gained_account hretain hderive, Command.lost_account hrelease] at hstep
  · exact hstep

end Arena

end SharedBuffer
