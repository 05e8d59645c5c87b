import SharedBuffer.Proofs.Scanning

/-!
Searching. Main statements: a pattern is found exactly where the window shows it, first at the least
index and last at the greatest, however far the range reaches; and the search for a byte is that for
the pattern of this one byte, forwards or backwards.
-/

namespace SharedBuffer

/-- One of the indices with the property that is at least as good as every other, or none if no
index has it. -/
def Picks (better : Nat → Nat → Prop) (P : Nat → Prop) : Option Nat → Prop
  | none => ∀ i, ¬P i
  | some i => P i ∧ ∀ j, P j → better i j

section Picks

variable {better : Nat → Nat → Prop} {P Q : Nat → Prop} {r : Option Nat}

theorem Picks.map {f : Nat → Nat} (h : Picks better P r) (hP : ∀ k, P k → Q (f k))
    (hQ : ∀ i, Q i → ∃ k, f k = i ∧ P k) (hf : ∀ i j, better i j → better (f i) (f j)) :
    Picks better Q (r.map f) := by
  cases r with
  | none =>
    intro i hi
    obtain ⟨k, -, hk⟩ := hQ i hi
    exact h k hk
  | some i =>
    refine ⟨hP i h.1, fun j hj => ?_⟩
    obtain ⟨k, rfl, hk⟩ := hQ j hj
    exact hf i k (h.2 k hk)

end Picks

namespace Bytes

variable {pattern bs : Bytes} {value byte : UInt8} {i k : Nat}

def OccursAt (pattern bs : Bytes) (i : Nat) : Prop := pattern <+: bs.drop i

theorem not_occursAt_nil (hp : pattern ≠ []) (i : Nat) : ¬OccursAt pattern [] i := by
  simp [OccursAt, hp]

theorem occursAt_cons_succ : OccursAt pattern (byte :: bs) (i + 1) ↔ OccursAt pattern bs i := Iff.rfl

theorem occursAt_iff_window (hp : pattern ≠ []) :
    OccursAt pattern bs k ↔
      k + pattern.length ≤ bs.length ∧ bs.window k pattern.length = pattern := by
  rw [OccursAt, List.prefix_iff_eq_take, window]
  have hpos := List.length_pos_iff.2 hp
  constructor
  · intro h
    have hlength := congrArg List.length h
    simp only [List.length_take, List.length_drop] at hlength
    exact ⟨by omega, h.symm⟩
  · exact fun h => h.2.symm

theorem picks_firstOccurrence (hp : pattern ≠ []) (bs : Bytes) :
    Picks (· ≤ ·) (OccursAt pattern bs) (firstOccurrence? pattern bs) := by
  induction bs with
  | nil =>
    rw [firstOccurrence?, if_neg (by simpa using hp)]
    exact not_occursAt_nil hp
  | cons byte bs ih =>
    rw [firstOccurrence?]
    split
    · next here => exact ⟨List.isPrefixOf_iff_prefix.1 here, fun j _ => Nat.zero_le j⟩
    · next here =>
      refine ih.map (fun k hk => occursAt_cons_succ.2 hk) (fun i hi => ?_) fun _ _ => Nat.succ_le_succ
      cases i with
      | zero => exact absurd (List.isPrefixOf_iff_prefix.2 hi) here
      | succ i => exact ⟨i, rfl, hi⟩

theorem picks_lastOccurrence (hp : pattern ≠ []) (bs : Bytes) :
    Picks (· ≥ ·) (OccursAt pattern bs) (lastOccurrence? pattern bs) := by
  induction bs with
  | nil =>
    rw [lastOccurrence?, if_neg (by simpa using hp)]
    exact not_occursAt_nil hp
  | cons byte bs ih =>
    rw [lastOccurrence?]
    split
    · next i hlater =>
      rw [hlater] at ih
      refine ⟨ih.1, fun j hj => ?_⟩
      cases j with
      | zero => exact Nat.zero_le _
      | succ j => exact Nat.succ_le_succ (ih.2 j hj)
    · next hlater =>
      rw [hlater] at ih
      -- Only the first byte is left for it to start at.
      have hzero : ∀ j, OccursAt pattern (byte :: bs) j → j = 0 := fun j hj => by
        cases j with
        | zero => rfl
        | succ j => exact absurd hj (ih j)
      split
      · next here =>
        exact ⟨List.isPrefixOf_iff_prefix.1 here, fun j hj => Nat.le_of_eq (hzero j hj)⟩
      · next here =>
        intro j hj
        cases hzero j hj
        exact here (List.isPrefixOf_iff_prefix.2 hj)

theorem firstOccurrence?_singleton (value : UInt8) (bs : Bytes) :
    firstOccurrence? [value] bs = bs.idxOf? value := by
  induction bs with
  | nil => rfl
  | cons byte bs ih =>
    by_cases h : byte = value
    · simp [firstOccurrence?, List.idxOf?_cons, h]
    · simp [firstOccurrence?, List.idxOf?_cons, ih, h, Ne.symm h]

theorem lastOccurrence?_singleton (value : UInt8) (bs : Bytes) :
    lastOccurrence? [value] bs = (bs.reverse.idxOf? value).map (bs.length - 1 - ·) := by
  induction bs with
  | nil => rfl
  | cons byte bs ih =>
    rw [lastOccurrence?, ih, List.reverse_cons, List.idxOf?, List.findIdx?_append, ← List.idxOf?]
    cases hfound : bs.reverse.idxOf? value with
    | none =>
      by_cases h : byte = value
      · simp [h]
      · simp [h, Ne.symm h]
    | some k =>
      obtain ⟨hk, -⟩ := List.idxOf?_eq_some_iff.1 hfound
      rw [List.length_reverse] at hk
      simp only [Option.map_some, Option.some_or, List.length_cons, Option.some.injEq]
      omega

end Bytes

namespace Buffer

variable {b : Buffer} {start stop : Nat} {pattern : Bytes}

structure Shows (b : Buffer) (start stop : Nat) (pattern : Bytes) (i : Nat) : Prop where
  start_le : start ≤ i
  le_stop : i + pattern.length ≤ min stop b.handle.capacity
  read : b.read i pattern.length = .ok pattern

section Haystack

variable (hb : b.Valid) (live : 0 < b.group.count)
include hb live

theorem haystack_eq (start stop : Nat) (hp : pattern ≠ []) :
    ∃ bytes, b.haystack start stop pattern = .ok bytes ∧
      (∀ k, Bytes.OccursAt pattern bytes k → b.Shows start stop pattern (start + k)) ∧
      ∀ i, b.Shows start stop pattern i → ∃ k, start + k = i ∧ Bytes.OccursAt pattern bytes k := by
  have hpos := List.length_pos_iff.2 hp
  have hempty : pattern.isEmpty = false := by simpa using hp
  obtain ⟨st, hst, hon⟩ := hb.window live
  simp only [haystack, hempty, Bool.false_eq_true, if_false, (checkLive_eq_ok_iff b).2 live, bind, Except.bind]
  split
  · next hshort =>
    refine ⟨[], rfl, fun k hk => absurd hk (Bytes.not_occursAt_nil hp k), fun i hi => ?_⟩
    have hstart := hi.start_le
    have hstop := hi.le_stop
    omega
  · next hlong =>
    have hin : start + (min stop b.handle.capacity - start) ≤ b.handle.capacity := by omega
    have hread := hb.read_of_le hst hin
    have hlength := length_of_read hread
    refine ⟨_, hread, fun k hk => ?_, fun i hi => ?_⟩
    · obtain ⟨hk, hsame⟩ := (Bytes.occursAt_iff_window hp).1 hk
      rw [hlength] at hk
      rw [Bytes.window_window _ hk] at hsame
      refine ⟨Nat.le_add_right _ _, by omega, ?_⟩
      rw [hb.read_of_le hst (by omega), ← Nat.add_assoc, hsame]
    · obtain ⟨k, rfl⟩ := Nat.exists_eq_add_of_le hi.start_le
      have hstop := hi.le_stop
      have hsame := hi.read
      rw [hb.read_of_le hst (by omega), Except.ok.injEq] at hsame
      refine ⟨k, rfl, (Bytes.occursAt_iff_window hp).2 ⟨by omega, ?_⟩⟩
      rw [Bytes.window_window _ (by omega), Nat.add_assoc, hsame]

theorem findFirst_picks (start stop : Nat) (hp : pattern ≠ []) :
    ∃ r, b.findFirst start stop pattern = .ok r ∧ Picks (· ≤ ·) (b.Shows start stop pattern) r := by
  obtain ⟨bytes, hbytes, hshows, honly⟩ := haystack_eq hb live start stop hp
  refine ⟨_, ?_, (Bytes.picks_firstOccurrence hp bytes).map hshows honly fun _ _ h =>
    Nat.add_le_add_left h start⟩
  rw [findFirst, hbytes]
  rfl

theorem findLast_picks (start stop : Nat) (hp : pattern ≠ []) :
    ∃ r, b.findLast start stop pattern = .ok r ∧ Picks (· ≥ ·) (b.Shows start stop pattern) r := by
  obtain ⟨bytes, hbytes, hshows, honly⟩ := haystack_eq hb live start stop hp
  refine ⟨_, ?_, (Bytes.picks_lastOccurrence hp bytes).map hshows honly fun _ _ h =>
    Nat.add_le_add_left h start⟩
  rw [findLast, hbytes]
  rfl

omit hb in
theorem haystack_singleton (start stop : Nat) (value : UInt8) :
    b.haystack start stop [value] =
      if min stop b.handle.capacity ≤ start then .ok []
      else b.read start (min stop b.handle.capacity - start) := by
  have hshort : ∀ n, n ≤ start ∨ n - start < 1 ↔ n ≤ start := by omega
  simp only [haystack, List.isEmpty_cons, Bool.false_eq_true, if_false,
    (checkLive_eq_ok_iff b).2 live, List.length_singleton, hshort, bind, Except.bind, pure, Except.pure]

theorem findByte_eq (start stop : Nat) (value : UInt8) :
    b.findByte start stop value =
      if start ≤ stop then b.findFirst start stop [value] else b.findLast stop start [value] := by
  by_cases hdir : start ≤ stop
  · simp only [findByte, findFirst, haystack_singleton live, (checkLive_eq_ok_iff b).2 live,
      Nat.min_eq_left hdir, Nat.max_eq_right hdir, if_pos hdir, bind, Except.bind]
    split
    · rfl
    · obtain ⟨bytes, hread, hscan⟩ :=
        scan_of_le hb live (i := start) (n := min stop b.handle.capacity - start) (by omega)
      simp [hread, hscan, Visit.placed, Direction.shown, Direction.place, Visit.stop_stopIn,
        Bytes.firstOccurrence?_singleton]
  · have hle : stop ≤ start := by omega
    simp only [findByte, findLast, haystack_singleton live, (checkLive_eq_ok_iff b).2 live,
      Nat.min_eq_right hle, Nat.max_eq_left hle, if_neg hdir, bind, Except.bind]
    split
    · rfl
    · obtain ⟨bytes, hread, hscan⟩ :=
        scan_of_le hb live (i := stop) (n := min start b.handle.capacity - stop) (by omega)
      have hlength := length_of_read hread
      simp only [hread, hscan, Visit.placed, Direction.shown, Direction.place, Visit.stop_stopIn,
        Bytes.lastOccurrence?_singleton, hlength]
      cases hfound : bytes.reverse.idxOf? value with
      | none => rfl
      | some k =>
        obtain ⟨hk, -⟩ := List.idxOf?_eq_some_iff.1 hfound
        rw [List.length_reverse, hlength] at hk
        simp only [Option.map_some]
        congr 2
        omega

end Haystack

end Buffer

namespace Arena

theorem Reachable.search_exact {a : Arena} {name : String} {b : Buffer} (h : a.Reachable)
    (hb : a.buffer name = .ok b) (live : 0 < b.group.count) (start stop : Nat) (value : UInt8)
    {pattern : Bytes} (hp : pattern ≠ []) :
    (∃ r, b.findFirst start stop pattern = .ok r ∧
      Picks (· ≤ ·) (b.Shows start stop pattern) r) ∧
    (∃ r, b.findLast start stop pattern = .ok r ∧
      Picks (· ≥ ·) (b.Shows start stop pattern) r) ∧
    b.findByte start stop value =
      if start ≤ stop then b.findFirst start stop [value] else b.findLast stop start [value] := by
  have hv := h.valid.of_buffer hb
  exact ⟨Buffer.findFirst_picks hv live start stop hp, Buffer.findLast_picks hv live start stop hp,
    Buffer.findByte_eq hv live start stop value⟩

/-- Two occurrences that overlap, in a range that reaches beyond the window. -/
theorem search_exact_adopted :
    ∃ b, (adopted [7, 7, 7, 8]).buffer "root" = .ok b ∧ b.findFirst 1 90 [7, 7] = .ok (some 1) ∧
      b.Shows 1 90 [7, 7] 1 ∧ b.findByte 90 1 7 = .ok (some 2) := by
  have hreach : (adopted [7, 7, 7, 8]).Reachable := reachable_adopted (by decide)
  obtain ⟨⟨r, hr, hpicks⟩, -, -⟩ :=
    hreach.search_exact (buffer_adopted _) Nat.zero_lt_one 1 90 7 (List.cons_ne_nil 7 [7])
  have hbyte := (hreach.search_exact (buffer_adopted _) Nat.zero_lt_one 90 1 7
    (List.cons_ne_nil 7 [])).2.2
  cases hr
  exact ⟨_, buffer_adopted _, rfl, hpicks.1, hbyte⟩

end Arena

end SharedBuffer
