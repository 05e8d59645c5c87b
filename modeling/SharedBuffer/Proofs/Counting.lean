import SharedBuffer.Proofs.Growth

/-!
Retaining and releasing. Main statements: which requests succeed, with what answer, and that only
the release of the last reference gives the storage back.
-/

namespace SharedBuffer.Buffer

open SharedBuffer.Action (current_bind modify_bind emit_bind)

variable {b : Buffer} {s : Storage} {n : Nat}

theorem giveBack_of_some (hs : b.group.storage = some s) (note : Storage → Event) :
    giveBack note b =
      ⟨.ok (), { b.dropStorage with pool := (Pool.takeBack s b.pool).state },
        note s :: (Pool.takeBack s b.pool).events⟩ := by
  simp only [giveBack]
  rw [current_bind, hs]
  dsimp only
  rw [modify_bind, emit_bind, onPool, Action.zoom]
  simp only [dropStorage, Pool.result_takeBack]

theorem giveBack_of_none (hs : b.group.storage = none) (note : Storage → Event) :
    giveBack note b = ⟨.ok (), b, []⟩ := by
  simp only [giveBack]
  rw [current_bind, hs]
  rfl

theorem retain_eq_ok_iff {c : Buffer} :
    b.retain n = .ok c ↔ 0 < n ∧ 0 < b.group.count ∧ b.group.count + n ≤ Word.largest ∧
      c = b.setCount (b.group.count + n) := by
  simp only [retain]
  rw [except_bind_eq_ok]
  constructor
  · intro h
    obtain ⟨g, hg, hc⟩ := h
    obtain ⟨hn, live, hle, rfl⟩ := Group.retain_eq_ok_iff.1 hg
    cases hc
    exact ⟨hn, live, hle, rfl⟩
  · intro h
    obtain ⟨hn, live, hle, rfl⟩ := h
    exact ⟨_, Group.retain_eq_ok_iff.2 ⟨hn, live, hle, rfl⟩, rfl⟩

theorem sound_retain (n : Nat) (b : Buffer) : Sound (b.retain n) := by
  simp only [retain, Group.retain]
  refine Sound.bind (.ite (fun _ => sound_error trivial) fun _ => ?_) fun _ _ => sound_ok _
  refine .ite (fun _ => sound_error trivial) fun _ => ?_
  split
  · exact sound_error trivial
  · exact sound_ok _

theorem retain_meets (n : Nat) (b : Buffer) :
    (Action.update (retain n) b).Meets
      (fun _ c log => Course { gained := n } b c log ∧ 0 < b.group.count ∧
        c = b.setCount (b.group.count + n))
      b.Refuses := by
  refine Action.meets_update ?_ (refuses_of_sound (b.sound_retain n))
  intro c hc
  obtain ⟨-, live, hle, rfl⟩ := retain_eq_ok_iff.1 hc
  exact ⟨(Move.retain live hle).course, live, rfl⟩

theorem retain_performs (n : Nat) (b : Buffer) : Performs (Action.update (retain n)) { gained := n } b :=
  (retain_meets n b).imp fun _ _ _ h => .of_quiet h.1 rfl

def finished (s : Storage) (b : Buffer) : Buffer :=
  { ((b.setCount 0).dropStorage) with pool := (Pool.takeBack s b.pool).state }

theorem release_cases (hb : b.Valid) (n : Nat) :
    (n = 0 ∧ release n b = ⟨.error .releaseZero, b, []⟩) ∨
    (b.group.count < n ∧ release n b =
      ⟨.error (.releaseUnderflow b.group.count n), b, [.releaseUnderflow b.group.count n]⟩) ∨
    (0 < n ∧ n < b.group.count ∧
      release n b = ⟨.ok false, b.setCount (b.group.count - n), []⟩) ∨
    (0 < n ∧ n = b.group.count ∧ ∃ s, b.group.storage = some s ∧
      release n b = ⟨.ok true, b.finished s,
        .deallocated b.group.kind s.capacity :: (Pool.takeBack s b.pool).events⟩) := by
  simp only [release]
  rw [current_bind]
  by_cases hzero : n = 0
  · rw [if_pos hzero]
    exact .inl ⟨hzero, rfl⟩
  rw [if_neg hzero]
  have hpos : 0 < n := Nat.pos_of_ne_zero hzero
  by_cases hmore : b.group.count < n
  · rw [if_pos hmore, emit_bind]
    exact .inr (.inl ⟨hmore, rfl⟩)
  rw [if_neg hmore, modify_bind]
  by_cases hall : b.group.count = n
  · obtain ⟨s, hs, -⟩ := hb.window (by omega)
    have hgive := giveBack_of_some (b := b.setCount (b.group.count - n)) hs
      fun s => .deallocated b.group.kind s.capacity
    rw [if_pos hall, Action.bind_of_ok hgive, hall, Nat.sub_self]
    refine .inr (.inr (.inr ⟨hpos, rfl, s, hs, ?_⟩))
    simp only [Action.pure_apply, List.append_nil]
    rfl
  · rw [if_neg hall]
    exact .inr (.inr (.inl ⟨hpos, by omega, rfl⟩))

theorem release_performs (hb : b.Valid) (n : Nat) : Performs (release n) { lost := n } b := by
  simp only [Performs]
  rcases release_cases hb n with ⟨-, hr⟩ | ⟨-, hr⟩ | ⟨-, hlt, hr⟩ | ⟨-, hall, s, hs, hr⟩
  · rw [hr]
    exact refuses_self trivial
  · rw [hr]
    exact ⟨trivial, unmoved_refl b, (Move.report _ _).course⟩
  · rw [hr]
    exact .of_quiet (Move.release hlt).course rfl
  · rw [hr, hall]
    exact ⟨[s], Nat.le_refl 1, (Move.finish hs).course⟩

theorem result_release (hb : b.Valid) {last : Bool} :
    (release n b).result = .ok last ↔
      0 < n ∧ n ≤ b.group.count ∧ (last = true ↔ n = b.group.count) := by
  rcases release_cases hb n with ⟨h, hr⟩ | ⟨h, hr⟩ | ⟨h, hlt, hr⟩ | ⟨h, hall, s, hs, hr⟩
  · rw [hr]
    constructor
    · intro hok
      simp at hok
    · intro hright
      obtain ⟨hpos, -⟩ := hright
      omega
  · rw [hr]
    constructor
    · intro hok
      simp at hok
    · intro hright
      obtain ⟨-, hle, -⟩ := hright
      omega
  · rw [hr]
    constructor
    · intro hok
      cases hok
      exact ⟨h, Nat.le_of_lt hlt, by simp; omega⟩
    · intro hright
      obtain ⟨-, -, hlast⟩ := hright
      cases last with
      | false => rfl
      | true => exact absurd (hlast.1 rfl) (Nat.ne_of_lt hlt)
  · rw [hr]
    constructor
    · intro hok
      cases hok
      exact ⟨h, Nat.le_of_eq hall, by simp [hall]⟩
    · intro hright
      obtain ⟨-, -, hlast⟩ := hright
      rw [hlast.2 hall]

end SharedBuffer.Buffer
