import SharedBuffer.Proofs.Bookkeeping

/-!
What the statistics of a pool tell. Main statements: those of a slab pool tell exactly what is on loan,
what is parked and how many requests have failed, over every course of requests and in every run; those
of a plain pool do not know of the storages that were granted in place of others, nor of the requests
for them that failed.
-/

namespace SharedBuffer

open Pool (Audit)

namespace Pool

variable {slots : Nat} {p : Pool} {t : Book}

/-- The statistics of a slab pool agree with its book, and what it lends is as asked for. -/
structure Accurate (slots : Nat) (p : Pool) (t : Book) : Prop where
  active : p.statistics.ledger.activeLeases = t.loans.length
  available : p.statistics.ledger.availableBytes = p.parkedBytes
  allocated : p.statistics.ledger.allocatedBytes = t.loans.bytes + p.parkedBytes
  free : p.statistics.measure? "slab_free_slots" = some p.parked.length
  slots_le : p.parked.length ≤ slots
  failed : p.statistics.ledger.failedAcquisitions = Word.countOn 0 (t.refused + t.unmet)
  erased : ∀ s ∈ p.parked, 0 < s.capacity ∧ s.bytes = Bytes.zeros s.capacity
  lend : ∀ kind n m s, (Pool.lend kind n m p).result = .ok s → s = ⟨kind, Bytes.zeros n, m⟩
  relend : ∀ s n u, (Pool.relend s n p).result = .ok u →
    u = ⟨s.kind, s.bytes.take n ++ Bytes.zeros (n - s.capacity), s.maxCapacity⟩
  shrink : (Pool.shrink p).result = .ok p.parkedBytes ∧ (Pool.shrink p).state.parked = [] ∧
    (Pool.shrink p).state.statistics.ledger.availableBytes = 0 ∧
    (Pool.shrink p).state.statistics.ledger.allocatedBytes = t.loans.bytes

theorem Balanced.accurate (h : Balanced slots p t) : p.Accurate slots t where
  active := h.active
  available := h.available
  allocated := h.allocated
  free := by
    rw [statistics, h.slab]
    rfl
  slots_le := h.slots_le
  failed := h.failed
  erased := h.erased
  lend _ _ _ _ hs := lend_eq_ok h.valid hs
  relend _ _ _ hu := (relend_eq_ok h.valid hu).2
  shrink := by
    obtain ⟨hresult, hparked, hbalanced⟩ := h.shrink
    have hnone : (Pool.shrink p).state.parkedBytes = 0 := by rw [parkedBytes, hparked]; rfl
    refine ⟨h.available ▸ hresult, hparked, hbalanced.available.trans hnone, ?_⟩
    exact hbalanced.allocated.trans (by rw [hnone, Nat.add_zero])

theorem accurate_of_due (slots : Nat) (sys : System) {rs : List Request}
    (hdue : Audit.Due ⟨.slab slots sys, {}⟩ rs)
    (hrange : (Audit.serveAll ⟨.slab slots sys, {}⟩ rs).book.InRange) :
    (Audit.serveAll ⟨.slab slots sys, {}⟩ rs).pool.Accurate slots
      (Audit.serveAll ⟨.slab slots sys, {}⟩ rs).book := by
  have hnew : Audit.Within ⟨.slab slots sys, {}⟩ := ⟨Nat.zero_le _, Nat.zero_le _⟩
  exact ((balanced_slab slots sys).serveAll (x := ⟨.slab slots sys, {}⟩) hnew hdue hrange).accurate

end Pool

namespace Arena

variable {k : Nat} {a : Arena} {cs : List Command} {sys : System}

theorem Valid.lt_of_listed (ha : a.Valid) (h : a.Listed k) : k < a.pools.length := by
  rcases h with ⟨entry, hentry, rfl⟩ | ⟨entry, hentry, rfl⟩
  · exact ha.poolNames entry hentry
  · exact (ha.allocators entry hentry).1

theorem audited (hdeals : Pool.Deals ((after { system := sys } cs).poolAt k).unused []
    (requests k { system := sys } cs) ((after { system := sys } cs).poolAt k)
    ((after { system := sys } cs).held k ++ (leases k {} { system := sys } cs).loans)) :
    Audit.Due ⟨((after { system := sys } cs).poolAt k).unused, {}⟩ (requests k { system := sys } cs) ∧
      (audit k sys cs).pool = (after { system := sys } cs).poolAt k ∧
      (audit k sys cs).book.loans.Perm
        ((after { system := sys } cs).held k ++ (leases k {} { system := sys } cs).loans) :=
  hdeals {} (.refl _)

theorem audited_of_slab (hcs : ∀ c ∈ cs, c.Fits) (hrepays : Repays k {} { system := sys } cs)
    {l : FreeList} (hl : ((after { system := sys } cs).poolAt k).freeList = some l) :
    Pool.Deals ((after { system := sys } cs).poolAt k).unused [] (requests k { system := sys } cs)
      ((after { system := sys } cs).poolAt k)
      ((after { system := sys } cs).held k ++ (leases k {} { system := sys } cs).loans) := by
  have hk : k < (after { system := sys } cs).pools.length := by
    apply Nat.lt_of_not_le
    intro habsent
    rw [poolAt, List.getElem?_eq_none habsent] at hl
    cases hl
  refine ((backed_run sys hcs hrepays).lent hk).resolve_right fun hplain => ?_
  rw [Pool.unused, hl] at hplain
  cases hplain.1

end Arena

open Arena (after audit leases requests Repays)

/-- As long as only what is on loan is handed back and all bytes together stay in the word range, the
statistics of a slab pool tell exactly what it has on loan, what is parked and how many requests have
failed; what it lends is erased and exactly as asked for, and shrinking gives up exactly what is parked.
The pool of a run is what the requests of the run have made of a new one, and what it has on loan is
what groups hold and what was borrowed by hand. -/
theorem slab_ledger_exact :
    (∀ slots sys rs, Audit.Due ⟨.slab slots sys, {}⟩ rs →
      (Audit.serveAll ⟨.slab slots sys, {}⟩ rs).book.InRange →
      (Audit.serveAll ⟨.slab slots sys, {}⟩ rs).pool.Accurate slots
        (Audit.serveAll ⟨.slab slots sys, {}⟩ rs).book) ∧
    ∀ (sys : System) (cs : List Command), (∀ c ∈ cs, c.Fits) →
      ∀ k, Repays k {} { system := sys } cs →
      ∀ l, ((after { system := sys } cs).poolAt k).freeList = some l →
        (audit k sys cs).pool = (after { system := sys } cs).poolAt k ∧
        (audit k sys cs).book.loans.Perm
          ((after { system := sys } cs).held k ++ (leases k {} { system := sys } cs).loans) ∧
        ((audit k sys cs).book.InRange →
          ((after { system := sys } cs).poolAt k).Accurate l.slots (audit k sys cs).book) := by
  refine ⟨fun slots sys rs => Pool.accurate_of_due slots sys, fun sys cs hcs k hrepays l hl => ?_⟩
  obtain ⟨hdue, hpool, hloans⟩ := Arena.audited (Arena.audited_of_slab hcs hrepays hl)
  refine ⟨hpool, hloans, fun hrange => ?_⟩
  have hnew : ((after { system := sys } cs).poolAt k).unused =
      .slab l.slots ((after { system := sys } cs).poolAt k).system := by
    rw [Pool.unused, hl]
    rfl
  rw [audit, hnew] at hrange
  rw [hnew] at hdue
  rw [← hpool, audit, hnew]
  exact Pool.accurate_of_due l.slots _ hdue hrange

/-- A buffer of a slab pool grows, and a storage is borrowed by hand that is then the parked one. -/
def reused : List Command :=
  [.poolNew (some 2) "pool", .allocatorOnPool "pool" [] "allocator",
    .make (.request "allocator" (.bounded 4 16)) "root", .change "root" (.changeCapacity 8),
    .poolLend "pool" .heap 4 16 "first", .poolLend "pool" .heap 5 16 "second",
    .poolTakeBack "pool" "first"]

theorem slab_ledger_exact_reused :
    (Pool.lend .heap 4 16 (.slab 2 {})).state.Accurate 2
      { loans := [(.heap, 4, 16)], peakBytes := 4, peakLeases := 1 } ∧
    (audit 0 {} reused).book.loans.Perm [(.heap, 8, 16), (.heap, 5, 16)] ∧
    ((after {} reused).poolAt 0).Accurate 2 (audit 0 {} reused).book := by
  obtain ⟨-, hloans, haccurate⟩ :=
    slab_ledger_exact.2 {} reused (by decide) 0 (by decide) ⟨2, [⟨.heap, Bytes.zeros 4, 16⟩]⟩ (by decide)
  refine ⟨slab_ledger_exact.1 2 {} [.lend .heap 4 16] (by decide) ⟨by decide, by decide⟩, hloans, ?_⟩
  exact haccurate ⟨by decide, by decide⟩

/-- In every run what the pool of an allocator has on loan is what groups hold and what was borrowed by
hand. As long as all bytes together stay in the word range, the statistics of a plain pool have told
exactly that, and the failed requests, all along if and only if no storage was granted in place of
another and none that could have been was refused; otherwise they miss at most what was granted so. -/
theorem plain_ledger_exact_iff (sys : System) {cs : List Command} (hcs : ∀ c ∈ cs, c.Fits) {k : Nat}
    (hrepays : Repays k {} { system := sys } cs)
    (hp : ((after { system := sys } cs).poolAt k).strategy = .unpooled)
    (hlisted : (after { system := sys } cs).Listed k) :
    (audit k sys cs).pool = (after { system := sys } cs).poolAt k ∧
      (audit k sys cs).book.loans.Perm
        ((after { system := sys } cs).held k ++ (leases k {} { system := sys } cs).loans) ∧
      ((audit k sys cs).book.InRange →
        ((after { system := sys } cs).poolAt k).Underbooked (audit k sys cs).book ∧
        (Pool.ExactThroughout ⟨((after { system := sys } cs).poolAt k).unused, {}⟩
            (requests k { system := sys } cs) ↔
          (audit k sys cs).book.resized = [] ∧ (audit k sys cs).book.unmet = 0)) := by
  have hvalid : (after { system := sys } cs).Valid := Arena.Reachable.valid ⟨sys, cs, hcs, rfl⟩
  have hbacked := (Arena.backed_run sys hcs hrepays).lent (hvalid.lt_of_listed hlisted)
  obtain ⟨hdue, hpool, hloans⟩ := Arena.audited (hbacked.resolve_right fun hplain => hplain.2 hlisted)
  refine ⟨hpool, hloans, fun hrange => ?_⟩
  have hnew : ((after { system := sys } cs).poolAt k).unused =
      .plain ((after { system := sys } cs).poolAt k).system := by
    rw [Pool.strategy] at hp
    split at hp
    · next hnone =>
      rw [Pool.unused, hnone]
      rfl
    · cases hp
  have hstart : Pool.Underbooked ((after { system := sys } cs).poolAt k).unused {} := by
    rw [hnew]
    exact Pool.underbooked_plain _
  refine ⟨?_, Pool.exactThroughout_iff hstart rfl rfl hdue hrange⟩
  rw [← hpool]
  exact hstart.serveAll hdue hrange

def resized : List Command :=
  [.allocatorDefault "allocator", .make (.request "allocator" (.bounded 4 16)) "root",
    .change "root" (.changeCapacity 8)]

theorem listed_resized : (after {} resized).Listed 0 :=
  .inr ⟨("allocator", ⟨{}, 0⟩), by decide, rfl⟩

theorem plain_ledger_exact_iff_resized :
    (audit 0 {} resized).book.loans.Perm [(.heap, 8, 16)] ∧
      ((after {} resized).poolAt 0).Underbooked (audit 0 {} resized).book ∧
      ¬Pool.ExactThroughout ⟨((after {} resized).poolAt 0).unused, {}⟩ (requests 0 {} resized) := by
  obtain ⟨-, hloans, hbook⟩ :=
    plain_ledger_exact_iff {} (show ∀ c ∈ resized, c.Fits by decide) (k := 0) (by decide) (by decide)
      listed_resized
  obtain ⟨hunder, hexact⟩ := hbook ⟨by decide, by decide⟩
  exact ⟨hloans, hunder, fun hall => absurd (hexact.1 hall).1 (by decide)⟩

/-- The storage that the group holds is not among the leases. -/
theorem plain_ledger_misses_resized :
    (∀ c ∈ resized, c.Fits) ∧ Repays 0 {} {} resized ∧
      ((after {} resized).poolAt 0).strategy = .unpooled ∧ (after {} resized).Listed 0 ∧
      (after {} resized).held 0 ++ (leases 0 {} {} resized).loans = [(.heap, 8, 16)] ∧
      ((after {} resized).poolAt 0).statistics.ledger.activeLeases = 0 ∧
      ((after {} resized).poolAt 0).statistics.ledger.allocatedBytes = 0 :=
  ⟨by decide, by decide, by decide, listed_resized, by decide, by decide, by decide⟩

end SharedBuffer
