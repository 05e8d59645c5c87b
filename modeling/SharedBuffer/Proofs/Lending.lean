import SharedBuffer.Proofs.Outcome
import SharedBuffer.Proofs.Validity

/-!
What pools lend and take back. A pool that parks only erased storages lends zeroed bytes of exactly
the kind and the sizes asked for, and another storage of the same content on a resize. The course
of a pool is told by the storages that it takes back; the count of reclaimed leases is their number.
-/

namespace SharedBuffer

namespace Storage

def shape (s : Storage) : StorageKind × Nat × Nat := (s.kind, s.capacity, s.maxCapacity)

theorem shape_eq_iff {s t : Storage} :
    s.shape = t.shape ↔ s.kind = t.kind ∧ s.capacity = t.capacity ∧ s.maxCapacity = t.maxCapacity := by
  simp only [shape, Prod.mk.injEq]

theorem Valid.of_shape {s t : Storage} (hs : s.Valid) (h : t.shape = s.shape) : t.Valid := by
  obtain ⟨-, hc, hm⟩ := shape_eq_iff.1 h
  have h1 := hs.capacity_le_max
  have h2 := hs.max_le_largest
  exact ⟨by omega, by omega⟩

theorem sound_checkKind (sys : System) (kind : StorageKind) (n : Nat) :
    Sound (checkKind sys kind n) := by
  cases kind with
  | heap =>
    simp only [checkKind]
    exact .ite (fun _ => sound_error trivial) (fun _ => sound_ok _)
  | direct =>
    simp only [checkKind]
    refine .ite (fun _ => sound_ok _) fun _ => ?_
    refine .ite (fun _ => sound_error trivial) fun _ => ?_
    exact .ite (fun _ => sound_ok _) (fun _ => sound_error trivial)

theorem sound_create (sys : System) (kind : StorageKind) (n m : Nat) :
    Sound (create sys kind n m) := by
  simp only [create]
  refine .ite (fun _ => sound_error trivial) fun _ => ?_
  split
  · next f hf => exact sound_error (sound_checkKind sys kind n f hf)
  · exact sound_ok _

theorem sound_resize (sys : System) (s : Storage) (n : Nat) : Sound (s.resize sys n) := by
  simp only [resize]
  refine .ite (fun _ => sound_error trivial) fun _ => ?_
  split
  · next f hf => exact sound_error (sound_checkKind sys s.kind n f hf)
  · exact sound_ok _

end Storage

theorem Bytes.splice_zeros (bs : Bytes) (n : Nat) : (zeros n).splice 0 (bs.take n) = bs.fit n := by
  simp only [splice, fit, zeros, List.take_zero, List.nil_append, List.length_take,
    List.drop_replicate, Nat.zero_add]
  congr 2
  omega

namespace FreeList

theorem mem_swapRemove {i : Nat} {xs : List Storage} {s : Storage} (h : s ∈ swapRemove i xs) :
    s ∈ xs := by
  simp only [swapRemove] at h
  split at h
  · simp at h
  · next last hlast =>
    rcases List.mem_or_eq_of_mem_set (List.dropLast_subset _ h) with h | h
    · exact h
    · rw [h]
      exact List.mem_of_getLast? hlast

theorem take?_eq_some {kind : StorageKind} {n m : Nat} {l rest : FreeList} {s : Storage}
    (h : take? kind n m l = some (s, rest)) :
    s ∈ l.parked ∧ s.shape = (kind, n, m) ∧ rest.slots = l.slots ∧
      ∀ t ∈ rest.parked, t ∈ l.parked := by
  simp only [take?] at h
  split at h
  · simp at h
  · next i hi =>
    split at h
    · simp at h
    · next t ht =>
      cases h
      obtain ⟨hlt, hfits, -⟩ := List.findIdx?_eq_some_iff_getElem.1 hi
      rw [List.getElem?_eq_getElem hlt, Option.some.injEq] at ht
      rw [ht] at hfits
      simp only [fits, Bool.and_eq_true, beq_iff_eq] at hfits
      refine ⟨ht ▸ List.getElem_mem hlt, ?_, rfl, fun t ht => mem_swapRemove ht⟩
      simp only [Storage.shape, hfits]

end FreeList

namespace Pool

def forgetFailures (p : Pool) : Pool := { p with ledger := { p.ledger with failedAcquisitions := 0 } }

theorem valid_withSlots (slots : Option Nat) (sys : System) : (withSlots slots sys).Valid := by
  intro l hl s hs
  cases slots with
  | none => cases hl
  | some n =>
    cases hl
    simp at hs

theorem system_withSlots (slots : Option Nat) (sys : System) : (withSlots slots sys).system = sys := by
  cases slots <;> rfl

theorem ofStrategy_eq_withSlots (s : PoolingStrategy) : ∃ slots, ofStrategy s = withSlots slots := by
  cases s with
  | unpooled => exact ⟨none, rfl⟩
  | pooled => exact ⟨some _, rfl⟩

variable {kind : StorageKind} {n m : Nat} {p q : Pool} {s t : Storage}

theorem Valid.of_freeList (hp : p.Valid) (h : q.freeList = p.freeList) : q.Valid := by
  intro l hl
  rw [h] at hl
  exact hp l hl

def noteFault (f : Fault) (p : Pool) : Pool :=
  if f.isPanic then p else { p with ledger := p.ledger.noteFailure }

theorem noteFault_spec (f : Fault) (p : Pool) :
    (p.noteFault f).system = p.system ∧ (p.noteFault f).freeList = p.freeList ∧
      (p.noteFault f).forgetFailures = p.forgetFailures ∧
      (p.noteFault f).ledger.reclaimedLeases = p.ledger.reclaimedLeases := by
  unfold noteFault
  split <;> exact ⟨rfl, rfl, rfl, rfl⟩

theorem lendFresh_cases (kind : StorageKind) (n m : Nat) (p : Pool) :
    (∃ s, Storage.create p.system kind n m = .ok s ∧
      lendFresh kind n m p = ⟨.ok s, { p with ledger := p.ledger.lendFresh n }, []⟩) ∨
    (∃ f, Storage.create p.system kind n m = .error f ∧
      lendFresh kind n m p = ⟨.error f, p.noteFault f, []⟩) := by
  cases hc : Storage.create p.system kind n m with
  | ok s => exact .inl ⟨s, rfl, by simp only [lendFresh, hc]⟩
  | error f => exact .inr ⟨f, rfl, by simp only [lendFresh, hc, noteFault]⟩

theorem lend_cases (kind : StorageKind) (n m : Nat) (p : Pool) :
    (lend kind n m p = lendFresh kind n m p) ∨
    ∃ l s rest, p.freeList = some l ∧ FreeList.take? kind n m l = some (s, rest) ∧
      lend kind n m p =
        ⟨.ok s, { p with freeList := some rest, ledger := (p.ledger.unpark n).lend },
          [.storageReused kind n]⟩ := by
  simp only [lend]
  split
  · exact .inl rfl
  · next s rest hfree =>
    obtain ⟨l, hl, htake⟩ := Option.bind_eq_some_iff.1 hfree
    exact .inr ⟨l, s, rest, hl, htake, rfl⟩

theorem events_lendFresh (kind : StorageKind) (n m : Nat) (p : Pool) :
    (lendFresh kind n m p).events = [] := by
  rcases lendFresh_cases kind n m p with ⟨s, -, hf⟩ | ⟨f, -, hf⟩ <;> rw [hf]

theorem lend_of_plain (hp : p.freeList = none) (kind : StorageKind) (n m : Nat) :
    lend kind n m p = lendFresh kind n m p := by
  rw [lend, hp]
  rfl

theorem lend_eq_ok (hp : p.Valid) (h : (lend kind n m p).result = .ok s) :
    s = ⟨kind, Bytes.zeros n, m⟩ := by
  rcases lend_cases kind n m p with hl | ⟨l, t, rest, hfree, htake, hl⟩
  · rw [hl] at h
    rcases lendFresh_cases kind n m p with ⟨t, hc, hf⟩ | ⟨f, hc, hf⟩
    · rw [hf] at h
      cases h
      exact (Storage.create_eq_ok hc).2
    · rw [hf] at h
      simp at h
  · rw [hl] at h
    cases h
    obtain ⟨hmem, hshape, -⟩ := FreeList.take?_eq_some htake
    obtain ⟨-, hzero⟩ := hp l hfree _ hmem
    simp only [Storage.shape, Prod.mk.injEq] at hshape
    obtain ⟨hk, hn, hm⟩ := hshape
    rw [hn] at hzero
    rcases s with ⟨k, bytes, m'⟩
    simp only at hk hm hzero
    rw [hk, hm, hzero]

theorem lend_eq_error {f : Fault} (h : (lend kind n m p).result = .error f) :
    f.Foreseen ∧ (lend kind n m p).state.forgetFailures = p.forgetFailures ∧
      (lend kind n m p).events = [] := by
  rcases lend_cases kind n m p with hl | ⟨l, t, rest, -, -, hl⟩
  · rw [hl] at h ⊢
    rcases lendFresh_cases kind n m p with ⟨t, hc, hf⟩ | ⟨g, hc, hf⟩
    · rw [hf] at h
      simp at h
    · rw [hf] at h ⊢
      cases h
      exact ⟨Storage.sound_create p.system kind n m _ hc, (noteFault_spec _ p).2.2.1, rfl⟩
  · rw [hl] at h
    simp at h

theorem valid_lend (hp : p.Valid) (kind : StorageKind) (n m : Nat) :
    (lend kind n m p).state.Valid := by
  rcases lend_cases kind n m p with hl | ⟨l, t, rest, hfree, htake, hl⟩
  · rw [hl]
    rcases lendFresh_cases kind n m p with ⟨t, -, hf⟩ | ⟨g, -, hf⟩
    · rw [hf]
      exact hp.of_freeList rfl
    · rw [hf]
      exact hp.of_freeList (noteFault_spec g p).2.1
  · rw [hl]
    intro l' hl' s hs
    cases hl'
    exact hp l hfree s ((FreeList.take?_eq_some htake).2.2.2 s hs)

theorem reclaimed_lend (kind : StorageKind) (n m : Nat) (p : Pool) :
    (lend kind n m p).state.ledger.reclaimedLeases = p.ledger.reclaimedLeases := by
  rcases lend_cases kind n m p with hl | ⟨l, t, rest, -, -, hl⟩
  · rw [hl]
    rcases lendFresh_cases kind n m p with ⟨t, -, hf⟩ | ⟨g, -, hf⟩
    · rw [hf]; rfl
    · rw [hf]; exact (noteFault_spec g p).2.2.2
  · rw [hl]; rfl

theorem shape_of_lend (h : (lend kind n m p).result = .ok s) : s.shape = (kind, n, m) := by
  rcases lend_cases kind n m p with hl | ⟨l, t, rest, -, htake, hl⟩
  · rw [hl] at h
    rcases lendFresh_cases kind n m p with ⟨t, hc, hf⟩ | ⟨f, -, hf⟩
    · rw [hf] at h
      cases h
      rw [(Storage.create_eq_ok hc).2, Storage.shape, Storage.capacity, Bytes.length_zeros]
    · rw [hf] at h
      simp at h
  · rw [hl] at h
    cases h
    exact (FreeList.take?_eq_some htake).2.1

theorem relend_cases (s : Storage) (n : Nat) (p : Pool) :
    (relend s n p = ⟨s.resize p.system n, p, []⟩) ∨
    n ≤ s.maxCapacity ∧ relend s n p =
      ⟨(lend s.kind n s.maxCapacity p).result >>= fun t => t.writeRange 0 (s.bytes.take n),
        (lend s.kind n s.maxCapacity p).state, (lend s.kind n s.maxCapacity p).events⟩ := by
  rw [relend, Action.current_bind]
  split
  · exact .inl rfl
  · next hslab =>
    simp only [not_or, Nat.not_lt] at hslab
    refine .inr ⟨hslab.2, ?_⟩
    rcases hl : lend s.kind n s.maxCapacity p with ⟨f | t, q, log⟩
    · rw [Action.bind_of_error hl]
      rfl
    · rw [Action.bind_of_ok hl]
      simp only [Action.ask, List.append_nil]
      rfl

/-- A storage that is lent has room for what it takes over. -/
theorem writeRange_of_lend (hs : min s.capacity n ≤ Word.largest)
    (ht : (lend s.kind n s.maxCapacity p).result = .ok t) :
    t.writeRange 0 (s.bytes.take n) = .ok { t with bytes := t.bytes.splice 0 (s.bytes.take n) } := by
  have hcap : t.capacity = n := (congrArg (·.2.1) (shape_of_lend ht) :)
  have hlen : (s.bytes.take n).length = min s.capacity n := by
    rw [List.length_take, Nat.min_comm, Storage.capacity]
  rw [Storage.writeRange, checkBounds, if_pos (by omega)]

theorem relend_eq_ok (hp : p.Valid) (h : (relend s n p).result = .ok t) :
    n ≤ s.maxCapacity ∧ t = s.refit n := by
  rcases relend_cases s n p with hr | ⟨hn, hr⟩
  · rw [hr] at h
    exact Storage.resize_eq_ok h
  · rw [hr] at h
    obtain ⟨u, hu, h⟩ := except_bind_eq_ok.1 h
    refine ⟨hn, ?_⟩
    rw [lend_eq_ok hp hu, Storage.writeRange] at h
    split at h
    · cases h
    · cases h
      simp only [Bytes.splice_zeros, Storage.refit]

theorem relend_eq_error (hs : min s.capacity n ≤ Word.largest) {f : Fault}
    (h : (relend s n p).result = .error f) :
    f.Foreseen ∧ (relend s n p).state.forgetFailures = p.forgetFailures ∧
      (relend s n p).events = [] := by
  rcases relend_cases s n p with hr | ⟨-, hr⟩
  · rw [hr] at h ⊢
    exact ⟨Storage.sound_resize p.system s n f h, rfl, rfl⟩
  · rw [hr] at h ⊢
    cases hl : (lend s.kind n s.maxCapacity p).result with
    | error g =>
      rw [hl] at h
      cases h
      exact lend_eq_error hl
    | ok t =>
      rw [hl] at h
      exact nomatch (writeRange_of_lend hs hl).symm.trans h

theorem relend_state (s : Storage) (n : Nat) (p : Pool) :
    (relend s n p).state = p ∨ (relend s n p).state = (lend s.kind n s.maxCapacity p).state := by
  rcases relend_cases s n p with hr | ⟨-, hr⟩
  · exact .inl (by rw [hr])
  · exact .inr (by rw [hr])

theorem result_takeBack (s : Storage) (p : Pool) : (takeBack s p).result = .ok () := by
  unfold takeBack
  dsimp only
  split
  · rfl
  · split <;> rfl

theorem valid_takeBack (hp : p.Valid) (s : Storage) : (takeBack s p).state.Valid := by
  unfold takeBack
  dsimp only
  split
  · exact hp.of_freeList rfl
  · next l hl =>
    split
    · exact hp.of_freeList rfl
    · next hroom =>
      intro l' hl' t ht
      cases hl'
      rcases List.mem_append.1 ht with ht | ht
      · exact hp l hl t ht
      · rw [List.mem_singleton.1 ht, Storage.capacity_erase]
        exact ⟨by omega, rfl⟩

theorem reclaimed_takeBack (s : Storage) (p : Pool) :
    (takeBack s p).state.ledger.reclaimedLeases = Word.addWrapping p.ledger.reclaimedLeases 1 := by
  unfold takeBack
  dsimp only
  split
  · rfl
  · split <;> rfl

theorem valid_shrink (hp : p.Valid) : (shrink p).state.Valid := by
  simp only [shrink]
  split
  · exact hp
  · intro l hl s hs
    cases hl
    simp at hs

theorem reclaimed_shrink (p : Pool) :
    (shrink p).state.ledger.reclaimedLeases = p.ledger.reclaimedLeases := by
  simp only [shrink]
  split <;> rfl

/-- One pool becomes the other by requests, and these are the storages handed back, in order. -/
inductive Serves : List Storage → Pool → Pool → Prop
  | refl (p : Pool) : Serves [] p p
  | lend {back p q} (h : Serves back p q) (kind : StorageKind) (n m : Nat) :
      Serves back p (Pool.lend kind n m q).state
  | takeBack {back p q} (h : Serves back p q) (s : Storage) :
      Serves (back ++ [s]) p (Pool.takeBack s q).state
  | shrink {back p q} (h : Serves back p q) : Serves back p (Pool.shrink q).state

namespace Serves

variable {back more : List Storage} {r : Pool}

theorem relend (h : Serves back p q) (s : Storage) (n : Nat) :
    Serves back p (Pool.relend s n q).state := by
  rcases relend_state s n q with hr | hr
  · rw [hr]
    exact h
  · rw [hr]
    exact h.lend _ _ _

theorem trans (h : Serves back p q) (h' : Serves more q r) : Serves (back ++ more) p r := by
  induction h' with
  | refl q => simpa only [List.append_nil] using h
  | lend prior kind n m ih => exact (ih h).lend kind n m
  | takeBack prior s ih => simpa only [List.append_assoc] using (ih h).takeBack s
  | shrink prior ih => exact (ih h).shrink

theorem valid (h : Serves back p q) (hp : p.Valid) : q.Valid := by
  induction h with
  | refl p => exact hp
  | lend prior kind n m ih => exact valid_lend (ih hp) kind n m
  | takeBack prior s ih => exact valid_takeBack (ih hp) s
  | shrink prior ih => exact valid_shrink (ih hp)

theorem reclaimed (h : Serves back p q) :
    q.ledger.reclaimedLeases = Word.countOn p.ledger.reclaimedLeases back.length := by
  induction h with
  | refl p => rfl
  | lend prior kind n m ih => rw [reclaimed_lend, ih]
  | takeBack prior s ih => rw [reclaimed_takeBack, ih, List.length_append]; rfl
  | shrink prior ih => rw [reclaimed_shrink, ih]

end Serves

structure Declines (p : Pool) (f : Fault) (q : Pool) : Prop where
  foreseen : f.Foreseen
  unmoved : q.forgetFailures = p.forgetFailures
  serves : Serves [] p q

theorem lend_meets (hp : p.Valid) (kind : StorageKind) (n m : Nat) :
    (lend kind n m p).Meets (fun s q _ => s = ⟨kind, Bytes.zeros n, m⟩ ∧ Serves [] p q)
      fun f q _ => p.Declines f q := by
  have hserves := (Serves.refl p).lend kind n m
  rcases ho : lend kind n m p with ⟨f | s, q, log⟩
  · rw [ho] at hserves
    obtain ⟨hf, hq, -⟩ := lend_eq_error (show (lend kind n m p).result = .error f by rw [ho])
    rw [ho] at hq
    exact ⟨hf, hq, hserves⟩
  · rw [ho] at hserves
    exact ⟨lend_eq_ok hp (by rw [ho]), hserves⟩

theorem relend_meets (hs : min s.capacity n ≤ Word.largest) (p : Pool) :
    (relend s n p).Meets (fun _ q _ => Serves [] p q) fun f q _ => p.Declines f q := by
  have hserves := (Serves.refl p).relend s n
  rcases ho : relend s n p with ⟨f | t, q, log⟩
  · rw [ho] at hserves
    obtain ⟨hf, hq, -⟩ := relend_eq_error hs (show (relend s n p).result = .error f by rw [ho])
    rw [ho] at hq
    exact ⟨hf, hq, hserves⟩
  · rw [ho] at hserves
    exact hserves

theorem result_shrink (p : Pool) : ∃ freed, (shrink p).result = .ok freed := by
  simp only [shrink]
  split
  · exact ⟨_, rfl⟩
  · exact ⟨_, rfl⟩

end Pool

end SharedBuffer
