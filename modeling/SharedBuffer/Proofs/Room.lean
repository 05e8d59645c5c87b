import SharedBuffer.Proofs.Doubling
import SharedBuffer.Proofs.Refitting

/-!
Making room on demand. A request fits already, may not be met by growing, would have to grow beyond
the greatest capacity, or grows; what the request that fails and the one that answers instead do is
said for each of the four. Main statement: room is made exactly where the window has it or may grow
to it, and the window grows to the first doubled capacity that is large enough.
-/

namespace SharedBuffer

namespace Handle

inductive Demand (n : Nat) (h : Handle) : Prop
  | fits (hfits : n ≤ h.writable)
  | fixed (hmore : h.writable < n) (hfixed : h.canGrow = false)
  | beyond (hmore : h.writable < n) (hgrow : h.canGrow = true) (hmax : h.maxCapacity < h.writer + n)
  | grows (hgrows : h.Grows n)

variable {h : Handle} {n : Nat}

theorem demand (n : Nat) (h : Handle) : h.Demand n := by
  by_cases hfits : n ≤ h.writable
  · exact .fits hfits
  have hmore := Nat.lt_of_not_le hfits
  cases hgrow : h.canGrow with
  | false => exact .fixed hmore hgrow
  | true =>
    by_cases hmax : h.writer + n ≤ h.maxCapacity
    · exact .grows ⟨hmore, hgrow, hmax⟩
    · exact .beyond hmore hgrow (Nat.lt_of_not_le hmax)

theorem Valid.grown_eq (hv : h.Valid) (hg : h.Grows n) :
    ∃ k, Capacity.FirstDoubling (h.writer + n) (max 1 h.capacity) k ∧
      h.grown n = min h.maxCapacity (max 1 h.capacity * Nat.pow 2 k) := by
  obtain ⟨k, r, hk, hnext⟩ := Capacity.next_leadsTo h.capacity hg.le_max hv.max_le_largest
  rw [Capacity.next_of_le hg.le_max] at hnext
  exact ⟨k, hk.first, (Except.ok.inj hnext).trans hk.closed⟩

theorem Valid.grown_bounds (hv : h.Valid) (hg : h.Grows n) :
    h.writer + n ≤ h.grown n ∧ h.grown n ≤ h.maxCapacity ∧ h.capacity < h.grown n := by
  obtain ⟨k, hk, heq⟩ := hv.grown_eq hg
  have henough := hk.enough
  have hle := hg.le_max
  have hwriter := hv.cursor.writer_le
  have hmore := hg.more
  simp only [writable] at hmore
  simp only [writer] at hmore henough hle heq ⊢
  omega

end Handle

namespace Buffer

open SharedBuffer.Action (meets_bind current_bind ask_bind_of_ok ask_bind_of_error)

variable {b c : Buffer} {s : Storage} {n : Nat}

section Requests

variable (hmut : b.checkMutable = .ok ())
include hmut

theorem reserve_of_fixed (hmore : b.handle.writable < n) (hfixed : b.handle.canGrow = false) :
    ∃ f, f.kind? = some .capacityExceeded ∧ reserve n b = ⟨.error f, b, []⟩ := by
  have hgrowth : growthFor n b = .error (.growthDisabled b.handle.writer n b.handle.capacity) := by
    simp only [growthFor, hmut, bind, Except.bind, if_neg (Nat.not_le.2 hmore), hfixed,
      Bool.false_eq_true, if_false]
  exact ⟨_, rfl, ask_bind_of_error hgrowth⟩

theorem reserve_of_beyond (hmore : b.handle.writable < n) (hgrow : b.handle.canGrow = true)
    (hmax : b.handle.maxCapacity < b.handle.writer + n) :
    ∃ f, f.kind? = some .capacityExceeded ∧ reserve n b = ⟨.error f, b, []⟩ := by
  cases hadd : Word.add? b.handle.writer n with
  | none =>
    have hgrowth : growthFor n b = .error (.growthOverflow b.handle.writer n) := by
      simp only [growthFor, hmut, bind, Except.bind, if_neg (Nat.not_le.2 hmore), if_pos hgrow, hadd]
    exact ⟨_, rfl, ask_bind_of_error hgrowth⟩
  | some required =>
    obtain ⟨-, rfl⟩ := Word.add?_eq_some_iff.1 hadd
    have hgrowth : growthFor n b =
        .error (.requiredAboveMax (b.handle.writer + n) b.handle.maxCapacity) := by
      simp only [growthFor, hmut, bind, Except.bind, if_neg (Nat.not_le.2 hmore), if_pos hgrow, hadd,
        Capacity.next_of_lt hmax]
    exact ⟨_, rfl, ask_bind_of_error hgrowth⟩

theorem reserve_of_grows (hb : b.Valid) (hgrows : b.handle.Grows n) :
    reserve n b = resize (b.handle.grown n) b := by
  rw [reserve, ask_bind_of_ok (growthFor_of_grows hb hmut hgrows)]

end Requests

structure Roomier (n : Nat) (b c : Buffer) : Prop where
  cursor : c.handle.cursor = b.handle.cursor
  shown : ∃ bytes, b.read 0 b.handle.capacity = .ok bytes ∧ c.read 0 b.handle.capacity = .ok bytes
  room : n ≤ c.handle.writable
  fitted : n ≤ b.handle.writable → c.handle.capacity = b.handle.capacity
  grown : b.handle.writable < n → ∃ k,
    Capacity.FirstDoubling (b.handle.writer + n) (max 1 b.handle.capacity) k ∧
      c.handle.capacity = min b.handle.maxCapacity (max 1 b.handle.capacity * Nat.pow 2 k)

theorem roomier_self (hb : b.Valid) (live : 0 < b.group.count) (hfits : n ≤ b.handle.writable) :
    b.Roomier n b := by
  have hretains : b.Retains b.handle.capacity b := fun _ _ _ => rfl
  exact ⟨rfl, hretains.shown hb live (Nat.le_refl _), hfits, fun _ => rfl,
    fun hmore => absurd hfits (Nat.not_le.2 hmore)⟩

theorem roomier_of_grows (hb : b.Valid) (live : 0 < b.group.count) (hgrows : b.handle.Grows n)
    (hc : c.handle = { b.handle with capacity := b.handle.grown n })
    (hretains : b.Retains (min b.handle.capacity (b.handle.grown n)) c) : b.Roomier n c := by
  obtain ⟨henough, -, hmore⟩ := hb.handle.grown_bounds hgrows
  rw [Nat.min_eq_left (Nat.le_of_lt hmore)] at hretains
  refine ⟨by rw [hc], hretains.shown hb live (Nat.le_refl _), ?_, fun hfits => ?_, fun _ => ?_⟩
  · rw [hc]
    change n ≤ b.handle.grown n - b.handle.writer
    omega
  · exact absurd hfits (Nat.not_le.2 hgrows.more)
  · rw [hc]
    exact hb.handle.grown_eq hgrows

/-- If a request for `n` bytes comes to growing, the storage for it is there or can be had. -/
def Affords (n : Nat) (b : Buffer) : Prop :=
  0 < b.group.count → b.handle.readOnly = false → b.handle.Grows n → b.Houses (b.handle.grown n)

inductive Cramped (n : Nat) (b : Buffer) (f : Fault) : Prop
  | declined (htakes : ¬b.handle.Takes n) (hkind : f.kind? = some .capacityExceeded)
  | unhoused (hgrows : b.handle.Grows n) (hdenied : ¬b.Houses (b.handle.grown n))
      (hcause : Storage.checkKind b.pool.system b.group.kind (b.handle.grown n) = .error f)

theorem Cramped.kind_of_affords {f : Fault} (h : b.Cramped n f) (live : 0 < b.group.count)
    (hopen : b.handle.readOnly = false) (hafford : b.Affords n) :
    ¬b.handle.Takes n ∧ f.kind? = some .capacityExceeded := by
  cases h with
  | declined htakes hkind => exact ⟨htakes, hkind⟩
  | unhoused hgrows hdenied hcause => exact absurd (hafford live hopen hgrows) hdenied

theorem reserve_roomier (hb : b.Valid) (live : 0 < b.group.count) (hopen : b.handle.readOnly = false)
    (n : Nat) :
    (reserve n b).Meets (fun _ c _ => c.shared = b.shared ∧ b.handle.Takes n ∧ b.Roomier n c)
      fun f c _ => b.Cramped n f ∧ b.Unmoved c := by
  have hmut := (checkMutable_eq_ok_iff b).2 ⟨live, hopen⟩
  cases b.handle.demand n with
  | fits hfits =>
    rw [reserve_of_fits hmut hfits]
    exact ⟨rfl, .inl hfits, roomier_self hb live hfits⟩
  | fixed hmore hfixed =>
    obtain ⟨f, hf, hr⟩ := reserve_of_fixed hmut hmore hfixed
    rw [hr]
    refine ⟨.declined (fun htakes => ?_) hf, ⟨rfl, rfl⟩⟩
    rcases Handle.takes_iff.1 htakes with hfits | hgrows
    · omega
    · rw [hgrows.canGrow] at hfixed
      cases hfixed
  | beyond hmore hgrow hmax =>
    obtain ⟨f, hf, hr⟩ := reserve_of_beyond hmut hmore hgrow hmax
    rw [hr]
    refine ⟨.declined (fun htakes => ?_) hf, ⟨rfl, rfl⟩⟩
    rcases Handle.takes_iff.1 htakes with hfits | hgrows
    · omega
    · exact absurd hgrows.le_max (Nat.not_le.2 hmax)
  | grows hgrows =>
    obtain ⟨s, hs, -⟩ := hb.window live
    have hfree := not_slice_of_canGrow hgrows.canGrow
    have hmax := (hb.handle.grown_bounds hgrows).2.1
    rw [reserve_of_grows hmut hb hgrows]
    refine ((resize_refits hb hs hfree hmax).and (resize_retains hb hs hfree hmax)).mono ?_ ?_
    · rintro _ c log ⟨hrefit, hc, hretains⟩
      exact ⟨hrefit.shared, Handle.takes_iff.2 (.inr hgrows),
        roomier_of_grows hb live hgrows hc hretains⟩
    · rintro f c log ⟨⟨⟨hkind, hdenied⟩, hunmoved⟩, -⟩
      exact ⟨.unhoused hgrows hdenied hkind, hunmoved⟩

end Buffer

namespace Arena

variable {a : Arena} {name : String} {b : Buffer} {n : Nat}

/-- Room for `n` bytes is made exactly if there is room already or the window may grow so far, which
is told in the natural numbers, as long as the storage for it can be had. -/
theorem Reachable.reserve_exact (h : a.Reachable) (hb : a.buffer name = .ok b)
    (live : 0 < b.group.count) (hopen : b.handle.readOnly = false) (n : Nat)
    (hstorage : b.Affords n) :
    (((Command.change name (.reserve n)).run a).result = .ok .done ↔ b.handle.Takes n) ∧
      ((Command.change name (.reserve n)).run a).Meets
        (fun _ a' _ => ∃ c, a'.buffer name = .ok c ∧ b.Roomier n c)
        fun f _ _ => ∃ g, f = .fault g ∧ g.kind? = some .capacityExceeded := by
  obtain ⟨m, e, p, hs, rfl⟩ := seat_of_buffer h.valid hb
  have hmeets : ((Command.change name (.reserve n)).run a).Meets _ _ := hs.onBuffer_meets
    (Change.done_meets (Buffer.reserve_roomier (h.valid.buffer hs) live hopen n))
  rcases ho : (Command.change name (.reserve n)).run a with ⟨f | v, a', log⟩
  · rw [ho] at hmeets
    obtain ⟨c, -, g, rfl, hcramped, -⟩ := hmeets
    obtain ⟨hdenied, hkind⟩ := hcramped.kind_of_affords live hopen hstorage
    exact ⟨iff_of_false (fun hok => by cases hok) hdenied, g, rfl, hkind⟩
  · rw [ho] at hmeets
    obtain ⟨c, rfl, rfl, hshared, htakes, hroom⟩ := hmeets
    exact ⟨⟨fun _ => htakes, fun _ => rfl⟩, c, buffer_settle hs hshared, hroom⟩

def pinched : Arena := after {} [.make (.allocate 3 10) "root", .change "root" (.append [1, 2])]

theorem reachable_pinched : pinched.Reachable := ⟨_, _, by decide, rfl⟩

def pinchedRoot : Buffer :=
  ⟨.root 3 10 2 true, .holding ⟨.heap, [1, 2, 0], 10⟩, (Pool.lend .heap 3 10 (.plain {})).state, false⟩

theorem buffer_pinched : pinched.buffer "root" = .ok pinchedRoot := rfl

theorem affords_pinched (n : Nat) : pinchedRoot.Affords n := fun _ _ _ =>
  .inr (Storage.checkKind_heap (Nat.le_trans (Nat.min_le_right _ _) (by decide)))

/-- Room for six more bytes takes two doublings, of which the second would go beyond the bound. -/
theorem reserve_exact_pinched :
    ∃ b c, pinched.buffer "root" = .ok b ∧
      ((Command.change "root" (.reserve 6)).run pinched).result = .ok .done ∧
      ((Command.change "root" (.reserve 6)).run pinched).state.buffer "root" = .ok c ∧
      b.Roomier 6 c ∧ c.handle.capacity = 10 := by
  obtain ⟨hiff, hmeets⟩ :=
    reachable_pinched.reserve_exact buffer_pinched (by decide) rfl 6 (affords_pinched 6)
  have hok := hiff.2 (.inr ⟨rfl, by decide, by decide⟩)
  obtain ⟨c, hc, hroom⟩ := hmeets.of_ok hok
  refine ⟨_, c, buffer_pinched, hok, hc, hroom, ?_⟩
  obtain ⟨k, hk, hcapacity⟩ := hroom.grown (by decide)
  have henough : 8 ≤ 3 * Nat.pow 2 k := hk.enough
  refine hcapacity.trans ?_
  change min 10 (3 * Nat.pow 2 k) = 10
  rcases k with _ | _ | k
  · exact absurd henough (by decide)
  · exact absurd henough (by decide)
  · have hpos : 0 < Nat.pow 2 k := Nat.pow_pos (by decide)
    rw [Capacity.mul_pow_succ, Capacity.mul_pow_succ]
    omega

end Arena

end SharedBuffer
