import SharedBuffer.Proofs.Contents
import SharedBuffer.Proofs.Refusal

/-!
What a resize leaves, in full: the window has the new capacity and the storage the old bytes, cut off
or followed by zeros. How large the storage is then depends on who else needs it. Main statement: a
resize within the greatest capacity does this, or the storage that it needs is not to be had and
nothing has happened.
-/

namespace SharedBuffer

namespace Bytes

variable {bs : Bytes} {n p : Nat}

theorem fit_length (bs : Bytes) : bs.fit bs.length = bs := by
  rw [fit, List.take_length, Nat.sub_self, zeros, List.replicate_zero, List.append_nil]

theorem getElem?_fit_of_le (hp : bs.length ≤ p) (hn : p < n) : (bs.fit n)[p]? = some 0 := by
  have htake : (bs.take n).length = bs.length := by
    rw [List.length_take]
    omega
  rw [fit, List.getElem?_append_right (by omega), htake, zeros, List.getElem?_replicate, if_pos (by omega)]

end Bytes

namespace Storage

variable {sys : System} {kind : StorageKind} {n m : Nat} {f : Fault}

theorem refit_capacity (s : Storage) : s.refit s.capacity = s := by
  rw [refit, capacity, Bytes.fit_length]

theorem kind?_of_checkKind (h : checkKind sys kind n = .error f) :
    f.kind? = some .capacityExceeded ∨ f = .capacityOverflow n := by
  cases kind with
  | heap =>
    simp only [checkKind] at h
    split at h
    · cases h
      exact .inr rfl
    · cases h
  | direct =>
    simp only [checkKind] at h
    split at h
    · cases h
    · split at h
      · cases h
        exact .inl rfl
      · split at h
        · cases h
        · cases h
          exact .inl rfl

theorem create_eq_error (hn : n ≤ m) (h : create sys kind n m = .error f) :
    checkKind sys kind n = .error f := by
  rw [create, if_neg (Nat.not_lt.2 hn)] at h
  split at h
  · next hkind =>
    cases h
    exact hkind
  · cases h

theorem resize_eq_error {s : Storage} (hn : n ≤ s.maxCapacity) (h : s.resize sys n = .error f) :
    checkKind sys s.kind n = .error f := by
  rw [resize_of_create hn] at h
  exact create_eq_error hn (except_map_eq_error.1 h)

end Storage

namespace Pool

variable {kind : StorageKind} {n m : Nat} {f : Fault} {p : Pool} {s : Storage}

theorem checkKind_of_lend (hn : n ≤ m) (h : (lend kind n m p).result = .error f) :
    Storage.checkKind p.system kind n = .error f := by
  rcases lend_cases kind n m p with hl | ⟨l, t, rest, -, -, hl⟩
  · rw [hl] at h
    rcases lendFresh_cases kind n m p with ⟨t, -, hf⟩ | ⟨g, hg, hf⟩
    · rw [hf] at h
      cases h
    · rw [hf] at h
      cases h
      exact Storage.create_eq_error hn hg
  · rw [hl] at h
    cases h

theorem checkKind_of_relend (hs : min s.capacity n ≤ Word.largest) (hn : n ≤ s.maxCapacity)
    (h : (relend s n p).result = .error f) : Storage.checkKind p.system s.kind n = .error f := by
  rcases relend_cases s n p with hr | ⟨-, hr⟩
  · rw [hr] at h
    exact Storage.resize_eq_error hn h
  · rw [hr] at h
    rcases except_bind_eq_error.1 h with hl | ⟨t, ht, hwrite⟩
    · exact checkKind_of_lend hn hl
    · rw [writeRange_of_lend hs ht] at hwrite
      cases hwrite

end Pool

namespace Buffer

variable {b c : Buffer} {s : Storage} {n : Nat}

/-- How large the storage is once the window has the capacity `n`: no handle of the group loses a
byte of its window, and a handle without others has no byte beyond it. -/
def extent (n : Nat) (s : Storage) (b : Buffer) : Nat := if b.shared then max s.capacity n else n

structure Refitted (n : Nat) (s : Storage) (b c : Buffer) : Prop where
  handle : c.handle = { b.handle with capacity := n }
  group : c.group = { b.group with storage := some (s.refit (b.extent n s)) }
  shared : c.shared = b.shared

theorem extent_of_needsReplacement (h : needsReplacement n s b.shared = true) : b.extent n s = n := by
  have hsize := (capacity_of_needsReplacement h).2
  simp only [extent]
  split
  · next hshared => exact Nat.max_eq_right (Nat.le_of_lt (hsize hshared))
  · rfl

theorem extent_of_not_needsReplacement (h : needsReplacement n s b.shared = false) :
    b.extent n s = s.capacity := by
  simp only [needsReplacement, Bool.or_eq_false_iff, decide_eq_false_iff_not, Bool.and_eq_false_iff,
    Bool.not_eq_false'] at h
  simp only [extent]
  split
  · exact Nat.max_eq_left (by omega)
  · next hshared =>
    have hsame := h.2.resolve_left hshared
    omega

/-- A storage for a window of `n` bytes is there and may stay, or one can be had. -/
def Houses (n : Nat) (b : Buffer) : Prop :=
  (b.shared = true ∧ ∃ s, b.group.storage = some s ∧ n ≤ s.capacity) ∨
    Storage.checkKind b.pool.system b.group.kind n = .ok ()

theorem not_houses (hs : b.group.storage = some s) (hneed : needsReplacement n s b.shared = true)
    {f : Fault} (hkind : Storage.checkKind b.pool.system b.group.kind n = .error f) :
    ¬b.Houses n := by
  rintro (⟨hshared, t, ht, hle⟩ | hgranted)
  · cases hs.symm.trans ht
    have hless := (capacity_of_needsReplacement hneed).2 hshared
    omega
  · rw [hkind] at hgranted
    cases hgranted

theorem resize_refits (hb : b.Valid) (hs : b.group.storage = some s)
    (hfree : b.handle.origin ≠ .slice) (hn : n ≤ b.handle.maxCapacity) :
    (resize n b).Meets (fun _ c _ => b.Refitted n s c)
      fun f c _ => (Storage.checkKind b.pool.system b.group.kind n = .error f ∧ ¬b.Houses n) ∧
        b.Unmoved c := by
  rcases resize_cases hs n with ⟨hkeep, hr⟩ | ⟨hneed, ⟨f, hf, hr⟩ | ⟨t, ht, hr⟩⟩
  · rw [hr]
    refine ⟨rfl, ?_, rfl⟩
    rw [extent_of_not_needsReplacement hkeep, s.refit_capacity, ← hs]
    rfl
  · have hle : n ≤ s.maxCapacity := (hb.on hs).max_eq hfree ▸ hn
    rw [hr]
    obtain ⟨hstorage, hkind⟩ := hb.group.storage s hs
    have hrefused := Pool.checkKind_of_relend (hstorage.min_le_largest _) hle hf
    rw [hkind] at hrefused
    exact ⟨⟨hrefused, not_houses hs hneed hrefused⟩, (refuses_relend hstorage hf).unmoved⟩
  · obtain ⟨-, rfl⟩ := Pool.relend_eq_ok hb.pool ht
    rw [hr]
    refine ⟨rfl, ?_, rfl⟩
    rw [extent_of_needsReplacement hneed]
    rfl

theorem Retains.shown (h : b.Retains n c) (hb : b.Valid) (live : 0 < b.group.count)
    (hn : n ≤ b.handle.capacity) : ∃ bytes, b.read 0 n = .ok bytes ∧ c.read 0 n = .ok bytes := by
  obtain ⟨s, hs, -⟩ := hb.window live
  have hin : 0 + n ≤ b.handle.capacity := by omega
  have hread := hb.read_of_le hs hin
  exact ⟨_, hread, (h 0 n (by omega)).trans hread⟩

end Buffer

theorem Change.done_meets {x : Action Fault Buffer Unit} {b : Buffer}
    {Q : Buffer → List Event → Prop} {E : Fault → Buffer → List Event → Prop}
    (h : (x b).Meets (fun _ => Q) E) :
    ((Arena.lift x >>= fun _ => pure Answer.done) b).Meets (fun v c log => v = .done ∧ Q c log)
      fun f c log => ∃ g, f = .fault g ∧ E g c log := by
  refine Action.meets_then_pure (Action.meets_mapError ?_)
  exact h.mono (fun _ _ _ hc => ⟨rfl, hc⟩) fun g _ _ hg => ⟨g, rfl, hg⟩

theorem Arena.Seat.onBuffer_meets {a : Arena} {name : String} {m : Member} {e : Estate} {p : Pool}
    {α : Type} {x : Action Failure Buffer α} {Q : α → Buffer → List Event → Prop}
    {E : Failure → Buffer → List Event → Prop} (hs : a.Seat name m e p)
    (h : (x (a.bufferOf name m e p)).Meets Q E) :
    (onBuffer name x a).Meets
      (fun v a' log => ∃ c, a' = a.settle name m e.pool c ∧ Q v c log)
      fun f a' log => ∃ c, a' = a.settle name m e.pool c ∧ E f c log := by
  rw [onBuffer_of_seat hs]
  generalize x (a.bufferOf name m e p) = o at h ⊢
  rcases o with ⟨f | v, c, log⟩
  · exact ⟨c, rfl, h⟩
  · exact ⟨c, rfl, h⟩

end SharedBuffer
