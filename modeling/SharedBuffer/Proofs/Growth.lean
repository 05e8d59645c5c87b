import SharedBuffer.Proofs.Course
import SharedBuffer.Proofs.Outcome

/-!
Operations on a buffer as courses, and those that change the capacity. An operation either does
what is said of it or is refused, and a refusal leaves nothing behind but the pool's note of a
failed acquisition.
-/

namespace SharedBuffer

namespace Handle

structure Grows (n : Nat) (h : Handle) : Prop where
  more : h.writable < n
  canGrow : h.canGrow = true
  le_max : h.writer + n ≤ h.maxCapacity

def grown (n : Nat) (h : Handle) : Nat :=
  min (Capacity.doubled (h.writer + n) (max h.capacity 1)) h.maxCapacity

theorem canGrow_iff {h : Handle} : h.canGrow = true ↔ h.autoExpand = true ∧ h.origin ≠ .slice := by
  simp only [canGrow, Bool.and_eq_true, bne_iff_ne, ne_eq]

end Handle

namespace Buffer

open SharedBuffer.Action (meets_bind meets_ask_bind ask_bind_of_ok current_bind modify_bind)

def Does (b : Buffer) (e : Effect) (b' : Buffer) (log : List Event) : Prop :=
  ∃ back : List Storage, back.length ≤ 1 ∧ Course { e with back } b b' log

structure Unmoved (b b' : Buffer) : Prop where
  same : b' = { b with pool := b'.pool }
  pool : b'.pool.forgetFailures = b.pool.forgetFailures

structure Refuses (b : Buffer) (f : Fault) (b' : Buffer) (log : List Event) : Prop where
  foreseen : f.Foreseen
  unmoved : b.Unmoved b'
  course : Course {} b b' log

/-- The operation has the effect as a whole or is refused as a whole. -/
def Performs {α : Type} (x : Action Fault Buffer α) (e : Effect) (b : Buffer) : Prop :=
  (x b).Meets (fun _ b' log => b.Does e b' log) b.Refuses

variable {b c d : Buffer} {e f : Effect} {log more : List Event}

theorem does_refl (b : Buffer) : b.Does {} b [] := ⟨[], Nat.zero_le 1, .refl b⟩

theorem Does.of_quiet (h : Course e b c log) (hback : e.back = []) : b.Does e c log := by
  refine ⟨[], Nat.zero_le 1, ?_⟩
  rw [← hback]
  exact h

theorem Does.then (h : b.Does e c log) (h' : Course { f with back := [] } c d more) :
    b.Does (e.andThen f) d (log ++ more) := by
  obtain ⟨back, hback, hcourse⟩ := h
  refine ⟨back, hback, ?_⟩
  simpa only [Effect.andThen, List.append_nil] using hcourse.trans h'

theorem Does.valid (h : b.Does e c log) (hb : b.Valid) : c.Valid := by
  obtain ⟨back, -, hcourse⟩ := h
  exact hcourse.valid hb

theorem Does.follows (h : b.Does e c log) (hb : b.Valid) : b.Follows c := by
  obtain ⟨back, -, hcourse⟩ := h
  exact hcourse.follows hb

theorem unmoved_refl (b : Buffer) : b.Unmoved b := ⟨rfl, rfl⟩

theorem refuses_self {f : Fault} (hf : f.Foreseen) : b.Refuses f b [] :=
  ⟨hf, unmoved_refl b, .refl b⟩

theorem refuses_of_sound {α : Type} {g : Buffer → Except Fault α} (hg : Sound (g b)) :
    ∀ f, g b = .error f → b.Refuses f b [] := fun f hf => refuses_self (hg f hf)

section Resize

variable {s : Storage} {n : Nat}

theorem resize_cases (hs : b.group.storage = some s) (n : Nat) :
    (needsReplacement n s b.shared = false ∧
      resize n b = ⟨.ok (), b.setCapacity n,
        [.capacityAdjusted b.handle.capacity n b.handle.maxCapacity b.shared false]⟩) ∨
    (needsReplacement n s b.shared = true ∧
      ((∃ f, (Pool.relend s n b.pool).result = .error f ∧
        resize n b = ⟨.error f, { b with pool := (Pool.relend s n b.pool).state },
          (Pool.relend s n b.pool).events⟩) ∨
      ∃ t, (Pool.relend s n b.pool).result = .ok t ∧
        resize n b = ⟨.ok (), { (b.setStorage t) with
            pool := (Pool.takeBack s (Pool.relend s n b.pool).state).state }.setCapacity n,
          (Pool.relend s n b.pool).events ++
            ((Pool.takeBack s (Pool.relend s n b.pool).state).events ++
              [.capacityAdjusted b.handle.capacity n b.handle.maxCapacity b.shared true])⟩)) := by
  simp only [resize]
  rw [current_bind, ask_bind_of_ok (heldStorage_eq_ok.2 hs)]
  cases hneed : needsReplacement n s b.shared with
  | false => exact .inl ⟨rfl, rfl⟩
  | true =>
    refine .inr ⟨rfl, ?_⟩
    rcases hr : Pool.relend s n b.pool with ⟨f | t, p, log⟩
    · refine .inl ⟨f, rfl, ?_⟩
      have hpool : replaceStorage s n b = ⟨.error f, { b with pool := p }, log⟩ :=
        Action.bind_of_error (show onPool (Pool.relend s n) b = _ by
          rw [onPool, Action.zoom, hr])
      exact Action.bind_of_error hpool
    · refine .inr ⟨t, rfl, ?_⟩
      have hpool : replaceStorage s n b =
          ⟨.ok (), { (b.setStorage t) with pool := (Pool.takeBack s p).state },
            log ++ (Pool.takeBack s p).events⟩ := by
        have hlent : onPool (Pool.relend s n) b = ⟨.ok t, { b with pool := p }, log⟩ := by
          rw [onPool, Action.zoom, hr]
        rw [replaceStorage, Action.bind_of_ok hlent, modify_bind, onPool, Action.zoom]
        simp only [setStorage, Pool.result_takeBack]
      exact (Action.bind_of_ok hpool).trans (by
        rw [List.append_assoc]
        rfl)

theorem refuses_relend {s : Storage} {f : Fault} (hs : s.Valid)
    (hf : (Pool.relend s n b.pool).result = .error f) :
    b.Refuses f { b with pool := (Pool.relend s n b.pool).state }
      (Pool.relend s n b.pool).events := by
  obtain ⟨hsound, hforget, -⟩ := Pool.relend_eq_error (hs.min_le_largest n) hf
  exact ⟨hsound, ⟨rfl, hforget⟩, (Move.relend s n).course⟩

structure Resized (b : Buffer) (n : Nat) (b' : Buffer) (log : List Event) : Prop where
  does : ∀ c : Cursor, c.Within n → b.Does {} (b'.moveCursor fun _ => c) log
  cursor : b'.handle.cursor = b.handle.cursor
  capacity : b'.handle.capacity = n
  autoExpand : b'.handle.autoExpand = b.handle.autoExpand

theorem resize_meets (hb : b.Valid) (hs : b.group.storage = some s) (hopen : b.handle.readOnly = false)
    (hfree : b.handle.origin ≠ .slice) (hn : n ≤ b.handle.maxCapacity) :
    (resize n b).Meets (fun _ => b.Resized n) b.Refuses := by
  rcases resize_cases hs n with ⟨hkeep, hr⟩ | ⟨hneed, ⟨f, hf, hr⟩ | ⟨t, ht, hr⟩⟩
  · rw [hr]
    refine ⟨fun c hc => ?_, rfl, rfl, rfl⟩
    exact .of_quiet (Move.resize hs hopen hfree hn c hc hkeep).course rfl
  · rw [hr]
    exact refuses_relend (hb.group.storage s hs).1 hf
  · rw [hr]
    refine ⟨fun c hc => ?_, rfl, rfl, rfl⟩
    exact ⟨[s], Nat.le_refl 1, (Move.replace hs hopen hfree hn c hc hneed ht).course⟩

end Resize

structure Reserved (b : Buffer) (n : Nat) (b' : Buffer) (log : List Event) : Prop where
  does : b.Does {} b' log
  cursor : b'.handle.cursor = b.handle.cursor
  autoExpand : b'.handle.autoExpand = b.handle.autoExpand
  room : b'.handle.cursor.writer + n ≤ b'.handle.capacity
  live : 0 < b.group.count
  writable : b.handle.readOnly = false
  same : n ≤ b.handle.writable → b' = b ∧ log = []

theorem moveCursor_of_eq {c : Cursor} (h : b.handle.cursor = c) :
    (b.moveCursor fun _ => c) = b := by
  rw [← h]
  rfl

theorem growthFor_eq_ok {n : Nat} {o : Option Nat} (h : growthFor n b = .ok o) :
    b.checkMutable = .ok () ∧
      ((n ≤ b.handle.writable ∧ o = none) ∨
        (b.handle.writable < n ∧ b.handle.canGrow = true ∧
          b.handle.writer + n ≤ Word.largest ∧ ∃ m, o = some m ∧
            Capacity.next b.handle.capacity (b.handle.writer + n) b.handle.maxCapacity = .ok m)) := by
  simp only [growthFor] at h
  obtain ⟨⟨⟩, hmut, h⟩ := except_bind_eq_ok.1 h
  refine ⟨hmut, ?_⟩
  split at h
  · next hfits =>
    cases h
    exact .inl ⟨hfits, rfl⟩
  · next hfits =>
    split at h
    · next hgrow =>
      split at h
      · simp at h
      · next required hadd =>
        obtain ⟨m, hm, h⟩ := except_bind_eq_ok.1 h
        cases h
        obtain ⟨hle, rfl⟩ := Word.add?_eq_some_iff.1 hadd
        exact .inr ⟨Nat.lt_of_not_le hfits, hgrow, hle, m, rfl, hm⟩
    · simp at h

theorem sound_growthFor (n : Nat) (b : Buffer) : Sound (growthFor n b) := by
  simp only [growthFor]
  refine b.sound_checkMutable.bind fun _ _ => .ite (fun _ => sound_ok _) fun _ => ?_
  refine .ite (fun _ => ?_) fun _ => sound_error trivial
  split
  · exact sound_error trivial
  · refine Sound.bind ?_ fun _ _ => sound_ok _
    simp only [Capacity.next]
    exact .ite (fun _ => sound_error trivial) (fun _ => sound_ok _)

theorem not_slice_of_canGrow {h : Handle} (hg : h.canGrow = true) : h.origin ≠ .slice :=
  (Handle.canGrow_iff.1 hg).2

theorem growthFor_of_fits {n : Nat} (hmut : b.checkMutable = .ok ()) (hfits : n ≤ b.handle.writable) :
    growthFor n b = .ok none := by
  simp only [growthFor, hmut, bind, Except.bind, if_pos hfits, pure, Except.pure]

theorem growthFor_of_grows {n : Nat} (hb : b.Valid) (hmut : b.checkMutable = .ok ())
    (hgrows : b.handle.Grows n) : growthFor n b = .ok (some (b.handle.grown n)) := by
  have hmax := hgrows.le_max
  have hadd : Word.add? b.handle.writer n = some (b.handle.writer + n) :=
    Word.add?_eq_some_iff.2 ⟨Nat.le_trans hmax hb.handle.max_le_largest, rfl⟩
  simp only [growthFor, hmut, bind, Except.bind, if_neg (Nat.not_le.2 hgrows.more),
    if_pos hgrows.canGrow, hadd, Capacity.next_of_le hmax, pure, Except.pure, Handle.grown]

theorem reserve_of_fits {n : Nat} (hmut : b.checkMutable = .ok ()) (hfits : n ≤ b.handle.writable) :
    reserve n b = ⟨.ok (), b, []⟩ := by
  rw [reserve, ask_bind_of_ok (growthFor_of_fits hmut hfits)]
  rfl

/-- Room is made in full, or the request is refused and nothing has happened. -/
theorem reserve_meets (hb : b.Valid) (n : Nat) : (reserve n b).Meets (fun _ => b.Reserved n) b.Refuses := by
  refine meets_ask_bind ?_ (refuses_of_sound (sound_growthFor n b))
  intro o ho
  obtain ⟨hmut, hcases⟩ := growthFor_eq_ok ho
  obtain ⟨live, hopen⟩ := (checkMutable_eq_ok_iff b).1 hmut
  obtain ⟨s, hs, -⟩ := hb.window live
  have hwithin := hb.handle.cursor
  have hwriter := hwithin.writer_le
  rcases hcases with ⟨hfits, rfl⟩ | ⟨hmore, hgrow, hle, m, rfl, hm⟩
  · refine ⟨does_refl b, rfl, rfl, ?_, live, hopen, fun _ => ⟨rfl, rfl⟩⟩
    simp only [Handle.writable, Handle.writer] at hfits
    change b.handle.cursor.writer + n ≤ b.handle.capacity
    omega
  · have hnext := Capacity.next_eq_ok hb.handle.max_le_largest hm
    simp only [Handle.writable, Handle.writer] at hmore hnext
    have hk : b.handle.cursor.Within m := hwithin.mono (by omega)
    apply (resize_meets hb hs hopen (not_slice_of_canGrow hgrow) hnext.2).imp
    intro _ b' log hres
    have hdoes := hres.does b.handle.cursor hk
    rw [moveCursor_of_eq hres.cursor] at hdoes
    refine ⟨hdoes, hres.cursor, hres.autoExpand, ?_, live, hopen, fun hfits => ?_⟩
    · rw [hres.cursor, hres.capacity]
      exact hnext.1
    · simp only [Handle.writable, Handle.writer] at hfits
      omega

theorem reserve_performs (hb : b.Valid) (n : Nat) : Performs (reserve n) {} b :=
  (reserve_meets hb n).imp fun _ _ _ h => h.does

theorem tryReserve_performs (hb : b.Valid) (n : Nat) : Performs (tryReserve n) {} b := by
  simp only [tryReserve, Performs]
  rw [current_bind]
  refine meets_ask_bind ?_ (refuses_of_sound b.sound_checkMutable)
  intro _ _
  split
  · exact does_refl b
  · split
    · exact does_refl b
    · split
      · exact does_refl b
      · exact Action.meets_then_pure (reserve_performs hb n)

theorem changeCapacity_performs (hb : b.Valid) (n : Nat) : Performs (changeCapacity n) {} b := by
  simp only [changeCapacity, Performs]
  rw [current_bind]
  refine meets_ask_bind ?_ (refuses_of_sound ?_)
  · intro _ hcheck
    simp only [checkCapacity] at hcheck
    obtain ⟨⟨⟩, hmut, hcheck⟩ := except_bind_eq_ok.1 hcheck
    obtain ⟨live, hopen⟩ := (checkMutable_eq_ok_iff b).1 hmut
    obtain ⟨s, hs, -⟩ := hb.window live
    split at hcheck
    · simp at hcheck
    · next hfree =>
      split at hcheck
      · simp at hcheck
      · next hmax =>
        split
        · exact does_refl b
        · apply meets_bind
          apply (resize_meets hb hs hopen hfree (Nat.le_of_not_lt hmax)).imp
          intro _ b' log hres
          have hdoes := hres.does (b.handle.cursor.truncate n) (Cursor.within_truncate _ _)
          rw [← hres.cursor] at hdoes
          change b.Does {} _ (log ++ [])
          rw [List.append_nil]
          exact hdoes
  · simp only [checkCapacity]
    refine b.sound_checkMutable.bind fun _ _ => .ite (fun _ => sound_error trivial) fun _ => ?_
    exact .ite (fun _ => sound_error trivial) fun _ => sound_ok _

end Buffer

end SharedBuffer
