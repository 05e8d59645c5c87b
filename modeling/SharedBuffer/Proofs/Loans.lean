import Mathlib.Algebra.GroupWithZero.Nat
import SharedBuffer.Proofs.Course

/-!
What a pool has on loan. Beside a pool that serves requests a book is kept: of the storages that it has
lent and not had back, by their shape, of the requests that failed, and of the most that was out at a
time. Main statements: as long as only what is on loan is handed back and everything stays in the word
range, the ledger of a slab pool is its book; the ledger of a plain pool misses exactly the storages
that were granted in place of others.
-/

namespace SharedBuffer

abbrev Loans : Type := List (StorageKind × Nat × Nat)

namespace Loans

def bytes (out : Loans) : Nat := (out.map fun x => x.2.1).sum

theorem bytes_cons (x : StorageKind × Nat × Nat) (out : Loans) :
    bytes (x :: out) = x.2.1 + bytes out := by
  simp only [bytes, List.map_cons, List.sum_cons]

theorem bytes_perm {out more : Loans} (h : out.Perm more) : bytes out = bytes more :=
  (h.map _).sum_nat

theorem bytes_erase {out : Loans} {x : StorageKind × Nat × Nat} (h : x ∈ out) :
    bytes out = x.2.1 + bytes (out.erase x) :=
  (bytes_perm (List.perm_cons_erase h)).trans (bytes_cons _ _)

theorem length_erase {out : Loans} {x : StorageKind × Nat × Nat} (h : x ∈ out) :
    out.length = (out.erase x).length + 1 :=
  (List.perm_cons_erase h).length_eq

end Loans

theorem set_perm {α : Type} {l : List α} {i : Nat} (h : i < l.length) (x : α) :
    (l.set i x).Perm (x :: (l.take i ++ l.drop (i + 1))) := by
  rw [List.set_eq_take_append_cons_drop, if_pos h]
  exact List.perm_middle

theorem perm_of_getElem? {α : Type} {l : List α} {i : Nat} {x : α} (h : l[i]? = some x) :
    l.Perm (x :: (l.take i ++ l.drop (i + 1))) := by
  obtain ⟨hi, rfl⟩ := List.getElem?_eq_some_iff.1 h
  have hset := set_perm hi l[i]
  rwa [List.set_getElem_self] at hset

theorem FreeList.perm_swapRemove {i : Nat} {xs : List Storage} {s : Storage} (h : xs[i]? = some s) :
    xs.Perm (s :: swapRemove i xs) := by
  rcases List.eq_nil_or_concat xs with rfl | ⟨ys, y, rfl⟩
  · simp at h
  rw [List.concat_eq_append] at h ⊢
  have hlast : swapRemove i (ys ++ [y]) = ((ys ++ [y]).set i y).dropLast := by
    rw [swapRemove, List.getLast?_concat]
  by_cases hi : i < ys.length
  · rw [List.getElem?_append_left hi] at h
    have hset := set_perm hi y
    rw [hlast, List.set_append_left _ _ hi, List.dropLast_concat]
    exact (List.perm_append_singleton y ys).trans
      (((perm_of_getElem? h).cons y).trans ((List.Perm.swap s y _).trans (hset.symm.cons s)))
  · have hend : i = ys.length := by
      have hlt := (List.getElem?_eq_some_iff.1 h).1
      rw [List.length_append, List.length_singleton] at hlt
      omega
    rw [hend, List.getElem?_concat_length, Option.some.injEq] at h
    rw [hlast, hend, List.set_append_right _ _ (Nat.le_refl _), Nat.sub_self, List.set_cons_zero,
      List.dropLast_concat, ← h]
    exact List.perm_append_singleton y ys

theorem FreeList.take?_perm {kind : StorageKind} {n m : Nat} {l rest : FreeList} {s : Storage}
    (h : take? kind n m l = some (s, rest)) : l.parked.Perm (s :: rest.parked) := by
  simp only [take?] at h
  split at h
  · simp at h
  · split at h
    · simp at h
    · next t ht =>
      cases h
      exact perm_swapRemove ht

namespace Pool

def parked (p : Pool) : List Storage := (p.freeList.map FreeList.parked).getD []

def parkedBytes (p : Pool) : Nat := (p.parked.map Storage.capacity).sum

inductive Request where
  | lend (kind : StorageKind) (capacity maxCapacity : Nat)
  | relend (s : Storage) (capacity : Nat)
  | takeBack (s : Storage)
  | shrink

/-- What an observer of the requests notes: what is on loan, what of that was granted in place of
another storage at any time, the failed requests of either kind, and the most bytes and the most leases
at a time. -/
structure Book where
  loans : Loans := []
  resized : Loans := []
  refused : Nat := 0
  unmet : Nat := 0
  peakBytes : Nat := 0
  peakLeases : Nat := 0

namespace Book

def borrow (s : Storage) (t : Book) : Book := { t with loans := s.shape :: t.loans }

def exchange (s : Storage) (t : Book) : Book :=
  { t with loans := s.shape :: t.loans, resized := s.shape :: t.resized }

def settle (s : Storage) (t : Book) : Book := { t with loans := t.loans.erase s.shape }

def close (p : Pool) (t : Book) : Book :=
  { t with
    peakBytes := max t.peakBytes (t.loans.bytes + p.parkedBytes)
    peakLeases := max t.peakLeases t.loans.length }

structure InRange (t : Book) : Prop where
  bytes : t.peakBytes ≤ Word.largest
  leases : t.peakLeases ≤ Word.largest

end Book

namespace Request

def serve (p : Pool) : Request → Pool
  | .lend kind n m => (Pool.lend kind n m p).state
  | .relend s n => (Pool.relend s n p).state
  | .takeBack s => (Pool.takeBack s p).state
  | .shrink => (Pool.shrink p).state

/-- A storage of another capacity counts as missed only if its holder could have had it. A panic is no
answer. -/
def note (p : Pool) (t : Book) : Request → Book
  | .lend kind n m =>
    match (Pool.lend kind n m p).result with
    | .ok s => t.borrow s
    | .error f => if f.isPanic then t else { t with refused := t.refused + 1 }
  | .relend s n =>
    match (Pool.relend s n p).result with
    | .ok u => t.exchange u
    | .error f => if f.isPanic ∨ s.maxCapacity < n then t else { t with unmet := t.unmet + 1 }
  | .takeBack s => t.settle s
  | .shrink => t

/-- Only what is on loan may be handed back, and no storage is larger than a word can say. -/
def Due (t : Book) : Request → Prop
  | .relend s n => min s.capacity n ≤ Word.largest
  | .takeBack s => s.shape ∈ t.loans
  | .lend .. | .shrink => True

end Request

instance Request.decidableDue (t : Book) : (r : Request) → Decidable (r.Due t)
  | .relend s n => inferInstanceAs (Decidable (min s.capacity n ≤ Word.largest))
  | .takeBack s => inferInstanceAs (Decidable (s.shape ∈ t.loans))
  | .lend .. | .shrink => inferInstanceAs (Decidable True)

structure Audit where
  pool : Pool
  book : Book := {}

namespace Audit

def serve (x : Audit) (r : Request) : Audit :=
  ⟨r.serve x.pool, (r.note x.pool x.book).close (r.serve x.pool)⟩

def serveAll (x : Audit) (rs : List Request) : Audit := rs.foldl serve x

def Due : Audit → List Request → Prop
  | _, [] => True
  | x, r :: rs => r.Due x.book ∧ Due (x.serve r) rs

instance decidableDue : (x : Audit) → (rs : List Request) → Decidable (x.Due rs)
  | _, [] => inferInstanceAs (Decidable True)
  | x, r :: rs =>
    have := decidableDue (x.serve r) rs
    inferInstanceAs (Decidable (_ ∧ _))

variable {x : Audit} {rs more : List Request}

theorem serveAll_append (x : Audit) (rs more : List Request) :
    x.serveAll (rs ++ more) = (x.serveAll rs).serveAll more := List.foldl_append

theorem due_append : x.Due (rs ++ more) ↔ x.Due rs ∧ (x.serveAll rs).Due more := by
  induction rs generalizing x with
  | nil => simp [Due, serveAll]
  | cons r rs ih => simp only [List.cons_append, Due, ih, and_assoc]; rfl

theorem peaks_note (p : Pool) (t : Book) (r : Request) :
    (r.note p t).peakBytes = t.peakBytes ∧ (r.note p t).peakLeases = t.peakLeases := by
  cases r with
  | lend kind n m =>
    simp only [Request.note]
    split
    · exact ⟨rfl, rfl⟩
    · split <;> exact ⟨rfl, rfl⟩
  | relend s n =>
    simp only [Request.note]
    split
    · exact ⟨rfl, rfl⟩
    · split <;> exact ⟨rfl, rfl⟩
  | _ => exact ⟨rfl, rfl⟩

theorem inRange_of_serve {r : Request} (h : (x.serve r).book.InRange) : x.book.InRange := by
  obtain ⟨hbytes, hleases⟩ := peaks_note x.pool x.book r
  exact ⟨Nat.le_trans (hbytes ▸ Nat.le_max_left _ _) h.bytes,
    Nat.le_trans (hleases ▸ Nat.le_max_left _ _) h.leases⟩

theorem inRange_of_serveAll (h : (x.serveAll rs).book.InRange) : x.book.InRange := by
  induction rs generalizing x with
  | nil => exact h
  | cons r rs ih => exact inRange_of_serve (ih h)

structure Within (x : Audit) : Prop where
  bytes : x.book.loans.bytes + x.pool.parkedBytes ≤ Word.largest
  leases : x.book.loans.length ≤ Word.largest

theorem within_serve {r : Request} (h : (x.serve r).book.InRange) : (x.serve r).Within :=
  ⟨Nat.le_trans (Nat.le_max_right _ _) h.bytes, Nat.le_trans (Nat.le_max_right _ _) h.leases⟩

end Audit

section Kind

variable {p : Pool}

def unused (p : Pool) : Pool :=
  { system := p.system, freeList := p.freeList.map fun l => { l with parked := [] } }

theorem unused_withSlots (slots : Option Nat) (sys : System) :
    (withSlots slots sys).unused = withSlots slots sys := by
  cases slots <;> rfl

theorem unused_lend (kind : StorageKind) (n m : Nat) (p : Pool) :
    (Pool.lend kind n m p).state.unused = p.unused := by
  rcases lend_cases kind n m p with hl | ⟨l, s, rest, hp, htake, hl⟩
  · rw [hl]
    rcases lendFresh_cases kind n m p with ⟨s, -, hf⟩ | ⟨f, -, hf⟩
    · rw [hf]
      rfl
    · obtain ⟨hsystem, hfree, -⟩ := noteFault_spec f p
      rw [hf, unused, unused, hsystem, hfree]
  · obtain ⟨-, -, hslots, -⟩ := FreeList.take?_eq_some htake
    rw [hl]
    simp only [unused, hp, Option.map_some, hslots]

theorem unused_serve (r : Request) (p : Pool) : (r.serve p).unused = p.unused := by
  cases r with
  | lend kind n m => exact unused_lend kind n m p
  | relend s n =>
    rcases relend_state s n p with hr | hr
    · rw [Request.serve, hr]
    · rw [Request.serve, hr]
      exact unused_lend _ _ _ p
  | takeBack s =>
    simp only [Request.serve, Pool.takeBack]
    split
    · next hp => simp only [unused, hp]
    · next hp =>
      split <;> simp only [unused, hp, Option.map_some]
  | shrink =>
    simp only [Request.serve, Pool.shrink]
    split
    · rfl
    · next hp => simp only [unused, hp, Option.map_some]

theorem unused_serveAll (x : Audit) (rs : List Request) :
    (x.serveAll rs).pool.unused = x.pool.unused := by
  induction rs generalizing x with
  | nil => rfl
  | cons r rs ih => exact (ih (x.serve r)).trans (unused_serve r x.pool)

end Kind

section Slab

variable {slots n m : Nat} {kind : StorageKind} {p q : Pool} {t : Book} {s u : Storage}

structure Balanced (slots : Nat) (p : Pool) (t : Book) : Prop where
  slab : p.freeList = some ⟨slots, p.parked⟩
  active : p.ledger.activeLeases = t.loans.length
  available : p.ledger.availableBytes = p.parkedBytes
  allocated : p.ledger.allocatedBytes = t.loans.bytes + p.parkedBytes
  failed : p.ledger.failedAcquisitions = Word.countOn 0 (t.refused + t.unmet)
  slots_le : p.parked.length ≤ slots
  erased : ∀ s ∈ p.parked, 0 < s.capacity ∧ s.bytes = Bytes.zeros s.capacity

theorem Balanced.congr (h : Balanced slots p t) {t' : Book} (hloans : t'.loans = t.loans)
    (hfailed : t'.refused + t'.unmet = t.refused + t.unmet) : Balanced slots p t' where
  slab := h.slab
  active := by rw [hloans, h.active]
  available := h.available
  allocated := by rw [hloans, h.allocated]
  failed := by rw [hfailed, h.failed]
  slots_le := h.slots_le
  erased := h.erased

theorem Balanced.valid (h : Balanced slots p t) : p.Valid := by
  intro l hl
  rw [h.slab] at hl
  cases hl
  exact h.erased

theorem parkedBytes_perm {l rest : FreeList} {sys : System} {g : Ledger} (hp : p.freeList = some l)
    (h : l.parked.Perm (s :: rest.parked)) :
    p.parkedBytes = s.capacity + parkedBytes ⟨sys, some rest, g⟩ := by
  have hsum := (h.map Storage.capacity).sum_nat
  rw [List.map_cons, List.sum_cons] at hsum
  simp only [parkedBytes, parked, hp, Option.map_some, Option.getD_some]
  exact hsum

theorem balanced_slab (slots : Nat) (sys : System) : Balanced slots (.slab slots sys) {} :=
  ⟨rfl, rfl, rfl, rfl, rfl, Nat.zero_le _, fun _ hs => (List.not_mem_nil hs).elim⟩

theorem Balanced.lend (h : Balanced slots p t) (hs : (Pool.lend kind n m p).result = .ok s)
    (hbytes : (t.borrow s).loans.bytes + (Pool.lend kind n m p).state.parkedBytes ≤ Word.largest)
    (hleases : (t.borrow s).loans.length ≤ Word.largest) :
    Balanced slots (Pool.lend kind n m p).state (t.borrow s) := by
  have hshape := shape_of_lend hs
  have hcap : s.shape.2.1 = n := by rw [hshape]
  have hactive : Word.addWrapping p.ledger.activeLeases 1 = (t.borrow s).loans.length := by
    rw [h.active]
    exact Word.addWrapping_of_le hleases
  rcases lend_cases kind n m p with hl | ⟨l, u, rest, hfree, htake, hl⟩
  · rcases lendFresh_cases kind n m p with ⟨u, -, hf⟩ | ⟨f, -, hf⟩
    · rw [hl, hf] at hbytes ⊢
      refine ⟨h.slab, hactive, h.available, ?_, h.failed, h.slots_le, h.erased⟩
      change Word.addWrapping p.ledger.allocatedBytes n = _
      change Loans.bytes (_ :: _) + p.parkedBytes ≤ _ at hbytes
      change _ = Loans.bytes (_ :: _) + p.parkedBytes
      rw [Loans.bytes_cons, hcap] at hbytes ⊢
      rw [h.allocated, Word.addWrapping_of_le (by omega)]
      omega
    · rw [hl, hf] at hs
      simp at hs
  · rw [hl] at hs ⊢
    cases hs
    -- A parked storage changes hands; what the pool has of the system stays the same.
    have hperm := FreeList.take?_perm htake
    obtain ⟨-, -, hslots, hrest⟩ := FreeList.take?_eq_some htake
    have hparked : p.parkedBytes = s.capacity + parkedBytes ⟨p.system, some rest, (p.ledger.unpark n).lend⟩ :=
      parkedBytes_perm hfree hperm
    have hslab := h.slab
    rw [hfree] at hslab
    cases hslab
    rw [show s.capacity = n from hcap] at hparked
    refine ⟨?_, hactive, ?_, ?_, h.failed, ?_, fun s hs => ?_⟩
    · exact congrArg some (show rest = ⟨slots, rest.parked⟩ by rw [← show rest.slots = slots from hslots])
    · change p.ledger.availableBytes - n = parkedBytes ⟨p.system, some rest, (p.ledger.unpark n).lend⟩
      rw [h.available, hparked]
      omega
    · change p.ledger.allocatedBytes =
        Loans.bytes (_ :: _) + parkedBytes ⟨p.system, some rest, (p.ledger.unpark n).lend⟩
      rw [h.allocated, hparked, Loans.bytes_cons, hcap]
      omega
    · have hlen := hperm.length_eq
      have hle := h.slots_le
      rw [List.length_cons] at hlen
      change rest.parked.length ≤ slots
      change p.parked.length = _ at hlen
      omega
    · exact h.erased s (hrest s hs)

theorem Balanced.noteFault (h : Balanced slots p t) (f : Fault) {t' : Book} (hloans : t'.loans = t.loans)
    (hfailed : t'.refused + t'.unmet = t.refused + t.unmet + if f.isPanic then 0 else 1) :
    Balanced slots (p.noteFault f) t' := by
  unfold Pool.noteFault
  split
  · next hpanic =>
    rw [if_pos hpanic] at hfailed
    exact h.congr hloans hfailed
  · next hpanic =>
    rw [if_neg hpanic] at hfailed
    refine ⟨h.slab, hloans ▸ h.active, h.available, hloans ▸ h.allocated, ?_, h.slots_le, h.erased⟩
    rw [hfailed]
    exact congrArg (Word.addWrapping · 1) h.failed

theorem Balanced.refuse (h : Balanced slots p t) {f : Fault}
    (hf : (Pool.lend kind n m p).result = .error f) {t' : Book} (hloans : t'.loans = t.loans)
    (hfailed : t'.refused + t'.unmet = t.refused + t.unmet + if f.isPanic then 0 else 1) :
    Balanced slots (Pool.lend kind n m p).state t' := by
  rcases lend_cases kind n m p with hl | ⟨l, u, rest, -, -, hl⟩
  · rcases lendFresh_cases kind n m p with ⟨u, -, hu⟩ | ⟨g, -, hg⟩
    · rw [hl, hu] at hf
      simp at hf
    · rw [hl, hg] at hf ⊢
      cases hf
      exact h.noteFault _ hloans hfailed
  · rw [hl] at hf
    simp at hf

theorem Balanced.takeBack (h : Balanced slots p t) (hs : s.shape ∈ t.loans)
    (hle : t.loans.bytes + p.parkedBytes ≤ Word.largest) :
    Balanced slots (Pool.takeBack s p).state (t.settle s) := by
  have hbytes : t.loans.bytes = s.capacity + (t.settle s).loans.bytes := Loans.bytes_erase hs
  have hlen : t.loans.length = (t.settle s).loans.length + 1 := Loans.length_erase hs
  have hactive : p.ledger.activeLeases - 1 = (t.settle s).loans.length := by
    rw [h.active, hlen]
    omega
  simp only [Pool.takeBack]
  rw [h.slab]
  dsimp only
  split
  · refine ⟨rfl, hactive, h.available, ?_, h.failed, h.slots_le, h.erased⟩
    change p.ledger.allocatedBytes - s.capacity = (t.settle s).loans.bytes + p.parkedBytes
    rw [h.allocated, hbytes]
    omega
  · next hroom =>
    simp only [FreeList.isFull, not_or, decide_eq_true_eq, Nat.not_le] at hroom
    obtain ⟨hfree, hpos⟩ := hroom
    -- Erased, it keeps its capacity, so that the free list grows by just that many bytes.
    have hpark : parkedBytes ⟨p.system, some ⟨slots, p.parked ++ [s.erase]⟩,
        p.ledger.takeBack.park s.capacity⟩ = p.parkedBytes + s.capacity := by
      simp only [parkedBytes, parked, Option.map_some, Option.getD_some, List.map_append,
        List.sum_append, List.map_cons, List.map_nil, List.sum_cons, List.sum_nil,
        Storage.capacity_erase, Nat.add_zero]
    refine ⟨rfl, hactive, ?_, ?_, h.failed, ?_, fun u hu => ?_⟩
    · rw [hpark]
      change Word.addWrapping p.ledger.availableBytes s.capacity = _
      rw [h.available, Word.addWrapping_of_le (by omega)]
    · rw [hpark]
      change p.ledger.allocatedBytes = _
      rw [h.allocated, hbytes]
      omega
    · change (p.parked ++ [s.erase]).length ≤ slots
      rw [List.length_append, List.length_singleton]
      exact hfree
    · rcases List.mem_append.1 hu with hu | hu
      · exact h.erased u hu
      · rw [List.mem_singleton.1 hu, Storage.capacity_erase]
        exact ⟨Nat.pos_of_ne_zero hpos, rfl⟩

theorem Balanced.shrink (h : Balanced slots p t) :
    (Pool.shrink p).result = .ok p.ledger.availableBytes ∧ (Pool.shrink p).state.parked = [] ∧
      Balanced slots (Pool.shrink p).state t := by
  have hfreed : (p.parked.map Storage.capacity).foldr (· + ·) 0 = p.parkedBytes := rfl
  simp only [Pool.shrink]
  rw [h.slab]
  dsimp only
  rw [hfreed]
  refine ⟨by rw [h.available], rfl, rfl, h.active, ?_, ?_, h.failed, Nat.zero_le _,
    fun s hs => (List.not_mem_nil hs).elim⟩
  · change p.ledger.availableBytes - p.parkedBytes = 0
    rw [h.available, Nat.sub_self]
  · change p.ledger.allocatedBytes - p.parkedBytes = t.loans.bytes + 0
    rw [h.allocated]
    omega

/-- A slab pool lends anew for a resize, unless the storage itself excludes the capacity. -/
theorem relend_of_slab {l : FreeList} (hp : p.freeList = some l)
    (hs : min s.capacity n ≤ Word.largest) (hn : n ≤ s.maxCapacity) :
    (Pool.relend s n p).state = (Pool.lend s.kind n s.maxCapacity p).state ∧
      ((∃ f, (Pool.lend s.kind n s.maxCapacity p).result = .error f ∧
          (Pool.relend s n p).result = .error f) ∨
        ∃ u v, (Pool.lend s.kind n s.maxCapacity p).result = .ok u ∧ v.shape = u.shape ∧
          (Pool.relend s n p).result = .ok v) := by
  have hslab : ¬(p.freeList.isNone = true ∨ s.maxCapacity < n) := by
    rw [hp, not_or]
    exact ⟨Bool.false_ne_true, Nat.not_lt.2 hn⟩
  rw [Pool.relend, Action.current_bind, if_neg hslab]
  rcases hl : Pool.lend s.kind n s.maxCapacity p with ⟨f | u, q, log⟩
  · rw [Action.bind_of_error hl]
    exact ⟨rfl, .inl ⟨f, rfl, rfl⟩⟩
  · have hu := Outcome.result_of_eq hl
    have hcap : u.capacity = n := congrArg (·.2.1) (shape_of_lend hu)
    rw [Action.bind_of_ok hl]
    refine ⟨rfl, .inr ⟨u, _, rfl, Storage.shape_splice ?_, writeRange_of_lend hs hu⟩⟩
    rw [List.length_take]
    omega

theorem relend_of_excluded (hn : s.maxCapacity < n) (p : Pool) :
    Pool.relend s n p = ⟨.error (.resizeAboveMax n s.maxCapacity), p, []⟩ := by
  rw [Pool.relend, Action.current_bind, if_pos (.inr hn)]
  exact Action.ask_of_error (by rw [Storage.resize, if_pos hn])

theorem Balanced.serve (h : Balanced slots p t) (r : Request) (hr : r.Due t)
    (hbefore : t.loans.bytes + p.parkedBytes ≤ Word.largest)
    (hbytes : (r.note p t).loans.bytes + (r.serve p).parkedBytes ≤ Word.largest)
    (hleases : (r.note p t).loans.length ≤ Word.largest) :
    Balanced slots (r.serve p) (r.note p t) := by
  cases r with
  | lend kind n m =>
    simp only [Request.note, Request.serve] at hbytes hleases ⊢
    cases hl : (Pool.lend kind n m p).result with
    | ok s =>
      rw [hl] at hbytes hleases
      exact h.lend hl hbytes hleases
    | error f =>
      dsimp only
      split
      · next hpanic => exact h.refuse hl rfl (by rw [if_pos hpanic]; rfl)
      · next hpanic => exact h.refuse hl rfl (by rw [if_neg hpanic]; exact Nat.add_right_comm _ _ _)
  | relend s n =>
    by_cases hn : n ≤ s.maxCapacity
    · obtain ⟨hstate, ⟨f, hf, hrelend⟩ | ⟨u, v, hu, hshape, hrelend⟩⟩ := relend_of_slab h.slab hr hn
      · simp only [Request.note, Request.serve, hrelend, hstate, Nat.not_lt.2 hn, or_false]
        split
        · next hpanic => exact h.refuse hf rfl (by rw [if_pos hpanic]; rfl)
        · next hpanic => exact h.refuse hf rfl (by rw [if_neg hpanic]; rfl)
      · simp only [Request.note, Request.serve, hrelend, hstate] at hbytes hleases ⊢
        have hloans : (t.exchange v).loans = (t.borrow u).loans := congrArg (· :: t.loans) hshape
        rw [hloans] at hbytes hleases
        exact (h.lend hu hbytes hleases).congr hloans rfl
    · simp only [Request.note, Request.serve, relend_of_excluded (Nat.lt_of_not_le hn),
        Nat.lt_of_not_le hn, or_true, if_true]
      exact h
  | takeBack s => exact h.takeBack hr hbefore
  | shrink => exact h.shrink.2.2

/-- As long as bytes and leases stay in the word range, the ledger of a slab pool agrees with its book. -/
theorem Balanced.serveAll {x : Audit} {rs : List Request} (h : Balanced slots x.pool x.book)
    (hx : x.Within) (hdue : x.Due rs) (hrange : (x.serveAll rs).book.InRange) :
    Balanced slots (x.serveAll rs).pool (x.serveAll rs).book := by
  induction rs generalizing x with
  | nil => exact h
  | cons r rs ih =>
    have hafter := Audit.within_serve (Audit.inRange_of_serveAll (x := x.serve r) hrange)
    have hserved := h.serve r hdue.1 hx.bytes hafter.bytes hafter.leases
    exact ih (hserved.congr rfl rfl) hafter hdue.2 hrange

end Slab

section Plain

variable {p : Pool} {t : Book} {x : Audit} {rs : List Request}

/-- The ledger of a plain pool knows of no storage that was granted in place of another, but takes it
back like any other. -/
structure Underbooked (p : Pool) (t : Book) : Prop where
  plain : p.freeList = none
  available : p.ledger.availableBytes = 0
  failed : p.ledger.failedAcquisitions = Word.countOn 0 t.refused
  active_le : p.ledger.activeLeases ≤ t.loans.length
  active_ge : t.loans.length ≤ p.ledger.activeLeases + t.resized.length
  allocated_le : p.ledger.allocatedBytes ≤ t.loans.bytes
  allocated_ge : t.loans.bytes ≤ p.ledger.allocatedBytes + t.resized.bytes

theorem Underbooked.congr (h : Underbooked p t) {t' : Book} (hloans : t'.loans = t.loans)
    (hresized : t'.resized = t.resized) (hrefused : t'.refused = t.refused) : Underbooked p t' := by
  refine ⟨h.plain, h.available, hrefused ▸ h.failed, ?_, ?_, ?_, ?_⟩ <;>
    simp only [hloans, hresized]
  · exact h.active_le
  · exact h.active_ge
  · exact h.allocated_le
  · exact h.allocated_ge

theorem relend_of_plain (hp : p.freeList = none) (s : Storage) (n : Nat) :
    Pool.relend s n p = ⟨s.resize p.system n, p, []⟩ := by
  rw [Pool.relend, Action.current_bind, if_pos (.inl (by rw [hp]; rfl))]
  rfl

theorem Underbooked.noteFault (h : Underbooked p t) (f : Fault) :
    Underbooked (p.noteFault f) (if f.isPanic then t else { t with refused := t.refused + 1 }) := by
  unfold Pool.noteFault
  split
  · exact h
  · exact ⟨h.plain, h.available, congrArg (Word.addWrapping · 1) h.failed, h.active_le, h.active_ge,
      h.allocated_le, h.allocated_ge⟩

theorem Underbooked.lend (h : Underbooked p t) (kind : StorageKind) (n m : Nat)
    (hbytes : ((Request.lend kind n m).note p t).loans.bytes ≤ Word.largest)
    (hleases : ((Request.lend kind n m).note p t).loans.length ≤ Word.largest) :
    Underbooked (Pool.lend kind n m p).state ((Request.lend kind n m).note p t) := by
  have hactive := h.active_ge
  have hactive' := h.active_le
  have hallocated := h.allocated_ge
  have hallocated' := h.allocated_le
  simp only [Request.note, lend_of_plain h.plain] at hbytes hleases ⊢
  rcases lendFresh_cases kind n m p with ⟨s, hs, hl⟩ | ⟨f, -, hl⟩
  · have hcap : s.shape.2.1 = n := by
      rw [(Storage.create_eq_ok hs).2]
      exact Bytes.length_zeros n
    rw [hl] at hbytes hleases ⊢
    simp only [Book.borrow, Loans.bytes_cons, hcap, List.length_cons] at hbytes hleases
    have hgranted : Word.addWrapping p.ledger.allocatedBytes n = p.ledger.allocatedBytes + n :=
      Word.addWrapping_of_le (by omega)
    have hlent : Word.addWrapping p.ledger.activeLeases 1 = p.ledger.activeLeases + 1 :=
      Word.addWrapping_of_le (by omega)
    refine ⟨h.plain, h.available, h.failed, ?_, ?_, ?_, ?_⟩
    · change Word.addWrapping p.ledger.activeLeases 1 ≤ t.loans.length + 1
      omega
    · change t.loans.length + 1 ≤ Word.addWrapping p.ledger.activeLeases 1 + t.resized.length
      omega
    · change Word.addWrapping p.ledger.allocatedBytes n ≤ Loans.bytes (s.shape :: t.loans)
      rw [hgranted, Loans.bytes_cons, hcap]
      omega
    · change Loans.bytes (s.shape :: t.loans) ≤
        Word.addWrapping p.ledger.allocatedBytes n + t.resized.bytes
      rw [hgranted, Loans.bytes_cons, hcap]
      omega
  · rw [hl]
    exact h.noteFault f

theorem Underbooked.relend (h : Underbooked p t) (s : Storage) (n : Nat) :
    Underbooked (Pool.relend s n p).state ((Request.relend s n).note p t) := by
  have hactive := h.active_ge
  have hallocated := h.allocated_ge
  have hallocated' := h.allocated_le
  simp only [Request.note, relend_of_plain h.plain]
  split
  · next u _ =>
    refine ⟨h.plain, h.available, h.failed, Nat.le_succ_of_le h.active_le, ?_, ?_, ?_⟩
    · change t.loans.length + 1 ≤ p.ledger.activeLeases + (t.resized.length + 1)
      omega
    · change p.ledger.allocatedBytes ≤ Loans.bytes (u.shape :: t.loans)
      rw [Loans.bytes_cons]
      omega
    · change Loans.bytes (u.shape :: t.loans) ≤
        p.ledger.allocatedBytes + Loans.bytes (u.shape :: t.resized)
      rw [Loans.bytes_cons, Loans.bytes_cons]
      omega
  · split
    · exact h
    · exact h.congr rfl rfl rfl

theorem Underbooked.takeBack (h : Underbooked p t) {s : Storage} (hs : s.shape ∈ t.loans) :
    Underbooked (Pool.takeBack s p).state (t.settle s) := by
  have hactive := h.active_ge
  have hactive' := h.active_le
  have hallocated := h.allocated_ge
  have hallocated' := h.allocated_le
  have hbytes : t.loans.bytes = s.capacity + Loans.bytes (t.loans.erase s.shape) := Loans.bytes_erase hs
  have hlen := Loans.length_erase hs
  simp only [Pool.takeBack, h.plain]
  refine ⟨rfl, h.available, h.failed, ?_, ?_, ?_, ?_⟩
  · change p.ledger.activeLeases - 1 ≤ (t.loans.erase s.shape).length
    omega
  · change (t.loans.erase s.shape).length ≤ p.ledger.activeLeases - 1 + t.resized.length
    omega
  · change p.ledger.allocatedBytes - s.capacity ≤ Loans.bytes (t.loans.erase s.shape)
    omega
  · change Loans.bytes (t.loans.erase s.shape) ≤ p.ledger.allocatedBytes - s.capacity + t.resized.bytes
    omega

theorem Underbooked.serve (h : Underbooked p t) (r : Request) (hr : r.Due t)
    (hbytes : (r.note p t).loans.bytes ≤ Word.largest)
    (hleases : (r.note p t).loans.length ≤ Word.largest) : Underbooked (r.serve p) (r.note p t) := by
  cases r with
  | lend kind n m => exact h.lend kind n m hbytes hleases
  | relend s n => exact h.relend s n
  | takeBack s => exact h.takeBack hr
  | shrink =>
    simp only [Request.note, Request.serve, Pool.shrink, h.plain]
    exact h

theorem underbooked_plain (sys : System) : Underbooked (.plain sys) {} :=
  ⟨rfl, rfl, rfl, Nat.le_refl 0, Nat.le_refl 0, Nat.le_refl 0, Nat.le_refl 0⟩

theorem Underbooked.serveAll (h : Underbooked x.pool x.book) (hdue : x.Due rs)
    (hrange : (x.serveAll rs).book.InRange) :
    Underbooked (x.serveAll rs).pool (x.serveAll rs).book := by
  induction rs generalizing x with
  | nil => exact h
  | cons r rs ih =>
    have hafter := Audit.within_serve (Audit.inRange_of_serveAll (x := x.serve r) hrange)
    have hserved := h.serve r hdue.1 (Nat.le_trans (Nat.le_add_right _ _) hafter.bytes) hafter.leases
    exact ih (hserved.congr rfl rfl rfl) hdue.2 hrange

structure Exact (p : Pool) (t : Book) : Prop where
  active : p.ledger.activeLeases = t.loans.length
  allocated : p.ledger.allocatedBytes = t.loans.bytes
  available : p.ledger.availableBytes = 0
  failed : p.ledger.failedAcquisitions = Word.countOn 0 (t.refused + t.unmet)

def ExactThroughout (x : Audit) (rs : List Request) : Prop :=
  ∀ past, past <+: rs → Exact (x.serveAll past).pool (x.serveAll past).book

theorem Underbooked.exact (h : Underbooked p t) (hresized : t.resized = []) (hunmet : t.unmet = 0) :
    Exact p t := by
  have hactive := h.active_ge
  have hallocated := h.allocated_ge
  rw [hresized] at hactive hallocated
  refine ⟨?_, ?_, h.available, by rw [h.failed, hunmet, Nat.add_zero]⟩
  · exact Nat.le_antisymm h.active_le hactive
  · exact Nat.le_antisymm h.allocated_le hallocated

theorem Request.before_note (r : Request) (hresized : (r.note p t).resized = [])
    (hunmet : (r.note p t).unmet = 0) : t.resized = [] ∧ t.unmet = 0 := by
  cases r with
  | lend kind n m =>
    simp only [note] at hresized hunmet
    split at hresized
    · next hl =>
      rw [hl] at hunmet
      exact ⟨hresized, hunmet⟩
    · next hl =>
      rw [hl] at hunmet
      dsimp only at hunmet
      split at hresized <;> split at hunmet <;> exact ⟨hresized, hunmet⟩
  | relend s n =>
    simp only [note] at hresized hunmet
    split at hresized
    · cases hresized
    · next hl =>
      rw [hl] at hunmet
      dsimp only at hunmet
      split at hunmet
      · next hn =>
        rw [if_pos hn] at hresized
        exact ⟨hresized, hunmet⟩
      · cases hunmet
  | _ => exact ⟨hresized, hunmet⟩

theorem Audit.before_serveAll (hresized : (x.serveAll rs).book.resized = [])
    (hunmet : (x.serveAll rs).book.unmet = 0) : x.book.resized = [] ∧ x.book.unmet = 0 := by
  induction rs generalizing x with
  | nil => exact ⟨hresized, hunmet⟩
  | cons r rs ih =>
    obtain ⟨hnone, hmet⟩ := ih (x := x.serve r) hresized hunmet
    exact r.before_note hnone hmet

/-- The first storage that is granted in place of another is missed at once, and so is the first
failure to grant one. -/
theorem Exact.serve (hplain : p.freeList = none) (h : Exact p t) (r : Request)
    (hafter : Exact (r.serve p) (r.note p t)) (hresized : t.resized = []) (hunmet : t.unmet = 0) :
    (r.note p t).resized = [] ∧ (r.note p t).unmet = 0 := by
  cases r with
  | lend kind n m =>
    simp only [Request.note]
    split
    · exact ⟨hresized, hunmet⟩
    · split <;> exact ⟨hresized, hunmet⟩
  | relend s n =>
    simp only [Request.serve, Request.note, relend_of_plain hplain] at hafter ⊢
    split at hafter
    · have hactive : p.ledger.activeLeases = t.loans.length + 1 := hafter.active
      have hactive' := h.active
      omega
    · split at hafter
      · next hn =>
        rw [if_pos hn]
        exact ⟨hresized, hunmet⟩
      · exact absurd (hafter.failed.symm.trans h.failed) (Word.countOn_succ_ne 0 _)
  | _ => exact ⟨hresized, hunmet⟩

theorem ExactThroughout.without_resize (hplain : x.pool.freeList = none) (h : ExactThroughout x rs)
    (hresized : x.book.resized = []) (hunmet : x.book.unmet = 0) :
    (x.serveAll rs).book.resized = [] ∧ (x.serveAll rs).book.unmet = 0 := by
  induction rs generalizing x with
  | nil => exact ⟨hresized, hunmet⟩
  | cons r rs ih =>
    have hnow : Exact (r.serve x.pool) (r.note x.pool x.book) := by
      obtain ⟨hactive, hallocated, havailable, hfailed⟩ := h [r] ⟨rs, rfl⟩
      exact ⟨hactive, hallocated, havailable, hfailed⟩
    -- A slip would show right after the request that makes it, since exactness is asked for at every point.
    obtain ⟨hnone, hmet⟩ := (h [] (List.nil_prefix)).serve hplain r hnow hresized hunmet
    have hkind : (x.serve r).pool.freeList = none := by
      have hunused := congrArg Pool.freeList (unused_serve r x.pool)
      rw [unused, unused, hplain] at hunused
      exact Option.map_eq_none_iff.1 hunused
    refine ih hkind (fun past hpast => ?_) hnone hmet
    exact h (r :: past) (List.cons_prefix_cons.2 ⟨rfl, hpast⟩)

/-- The ledger of a plain pool is exact throughout if and only if no storage was granted in place of
another and none that could have been was refused. -/
theorem exactThroughout_iff (hx : Underbooked x.pool x.book) (hresized : x.book.resized = [])
    (hunmet : x.book.unmet = 0) (hdue : x.Due rs) (hrange : (x.serveAll rs).book.InRange) :
    ExactThroughout x rs ↔ (x.serveAll rs).book.resized = [] ∧ (x.serveAll rs).book.unmet = 0 := by
  refine ⟨fun h => h.without_resize hx.plain hresized hunmet, fun hnone past hpast => ?_⟩
  obtain ⟨rest, rfl⟩ := hpast
  rw [Audit.serveAll_append] at hrange hnone
  obtain ⟨hbefore, hmet⟩ := Audit.before_serveAll hnone.1 hnone.2
  have hpast := hx.serveAll (Audit.due_append.1 hdue).1 (Audit.inRange_of_serveAll hrange)
  exact hpast.exact hbefore hmet

end Plain

end Pool

end SharedBuffer
