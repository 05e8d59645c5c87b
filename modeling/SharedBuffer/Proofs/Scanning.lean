import SharedBuffer.Proofs.Commands
import SharedBuffer.Proofs.Contents

/-!
Scans by blocks against the scan of the bytes one by one. Main statements: however long the range is
and wherever a block ends, a processor is shown the bytes in order, each once, up to the first that it
rejects; several processors are shown every byte up to the first that all of them reject; and the
distance to a byte is that of its first occurrence.
-/

namespace SharedBuffer

namespace Visit

variable {σ : Type} {feed : Feed σ} {s : σ} {byte : UInt8} {bs us vs : Bytes} {k : Nat}

def stateAfter (feed : Feed σ) (s : σ) (bs : Bytes) : σ := bs.foldl (fun t b => (feed t b).2) s

def HaltsAt (feed : Feed σ) (s : σ) (bs : Bytes) (k : Nat) : Prop :=
  ∃ b, bs[k]? = some b ∧ (feed (stateAfter feed s (bs.take k)) b).1 = false

/-- The bytes were shown in order, each once, up to the first at which it is time to stop; the byte of
number `k` is the one at the index `place k`. -/
inductive OneByOne (stops : Nat → Prop) (after : Bytes → σ) (place : Nat → Nat) (bs : Bytes) :
    Visit σ → Prop
  | whole (go : ∀ k, ¬stops k) : OneByOne stops after place bs ⟨none, bs, after bs⟩
  | stopped {k : Nat} (stop : stops k) (first : ∀ j < k, ¬stops j) :
      OneByOne stops after place bs ⟨some (place k), bs.take (k + 1), after (bs.take (k + 1))⟩

def placed (place : Nat → Nat) (v : Visit σ) : Visit σ := { v with stop := v.stop.map place }

section OneByOne

theorem not_haltsAt_nil : ¬HaltsAt feed s [] k := by simp [HaltsAt]

theorem haltsAt_cons_zero : HaltsAt feed s (byte :: bs) 0 ↔ (feed s byte).1 = false := by
  simp [HaltsAt, stateAfter]

theorem haltsAt_cons_succ :
    HaltsAt feed s (byte :: bs) (k + 1) ↔ HaltsAt feed (feed s byte).2 bs k := by
  simp [HaltsAt, stateAfter]

theorem OneByOne.cons {v : Visit σ} (place : Nat → Nat) (go : (feed s byte).1 = true)
    (h : OneByOne (HaltsAt feed (feed s byte).2 bs) (stateAfter feed (feed s byte).2)
      (fun k => place (k + 1)) bs v) :
    OneByOne (HaltsAt feed s (byte :: bs)) (stateAfter feed s) place (byte :: bs)
      ⟨v.stop, byte :: v.seen, v.state⟩ := by
  have hfirst : ¬HaltsAt feed s (byte :: bs) 0 := by simp [haltsAt_cons_zero, go]
  cases h with
  | whole hrest =>
    refine .whole fun k => ?_
    cases k with
    | zero => exact hfirst
    | succ k => exact mt haltsAt_cons_succ.1 (hrest k)
  | stopped hstop hrest =>
    refine .stopped (haltsAt_cons_succ.2 hstop) fun j hj => ?_
    cases j with
    | zero => exact hfirst
    | succ j => exact mt haltsAt_cons_succ.1 (hrest j (Nat.lt_of_succ_lt_succ hj))

theorem oneByOne_ofBytes (feed : Feed σ) (s : σ) (place : Nat → Nat) (bs : Bytes) :
    OneByOne (HaltsAt feed s bs) (stateAfter feed s) place bs ((ofBytes feed s bs).placed place) := by
  induction bs generalizing s place with
  | nil => exact .whole fun _ => not_haltsAt_nil
  | cons byte bs ih =>
    rw [ofBytes]
    split
    · next go =>
      have hrest := (ih (feed s byte).2 fun k => place (k + 1)).cons place go
      simpa [placed, Function.comp_def] using hrest
    · next hstop =>
      have hfirst : HaltsAt feed s (byte :: bs) 0 := by simp [haltsAt_cons_zero, hstop]
      exact .stopped hfirst fun j hj => absurd hj (Nat.not_lt_zero j)

end OneByOne

section Blocks

/-- Where the first bytes have a byte to stop at, those after them are not looked at. -/
theorem ofBytes_append_of_stop (h : (ofBytes feed s us).stop = some k) (vs : Bytes) :
    ofBytes feed s (us ++ vs) = ofBytes feed s us := by
  induction us generalizing s k with
  | nil => simp [ofBytes] at h
  | cons byte us ih =>
    by_cases go : (feed s byte).1 = true
    · simp only [ofBytes, go, if_true, Option.map_eq_some_iff] at h
      obtain ⟨j, hj, -⟩ := h
      simp [ofBytes, go, ih hj]
    · simp [ofBytes, go]

theorem ofBytes_append_of_none (h : (ofBytes feed s us).stop = none) (vs : Bytes) :
    ofBytes feed s (us ++ vs) = (ofBytes feed s us).andThen
      ((ofBytes feed (ofBytes feed s us).state vs).placed (us.length + ·)) := by
  induction us generalizing s with
  | nil => simp [ofBytes, andThen, placed]
  | cons byte us ih =>
    by_cases go : (feed s byte).1 = true
    · simp only [ofBytes, go, if_true, Option.map_eq_none_iff] at h
      simp [ofBytes, go, ih h, andThen, placed, Function.comp_def, Nat.add_right_comm]
    · simp [ofBytes, go] at h

theorem stop_lt (h : (ofBytes feed s bs).stop = some k) : k < bs.length := by
  induction bs generalizing s k with
  | nil => simp [ofBytes] at h
  | cons byte bs ih =>
    by_cases go : (feed s byte).1 = true
    · simp only [ofBytes, go, if_true, Option.map_eq_some_iff] at h
      obtain ⟨j, hj, rfl⟩ := h
      exact Nat.succ_lt_succ (ih hj)
    · simp [ofBytes, go] at h
      simp [← h]

end Blocks

section Several

variable {ps : List σ}

theorem stateAfter_feedEach (ps : List σ) (bs : Bytes) :
    stateAfter (feedEach feed) ps bs = ps.map fun p => stateAfter feed p bs := by
  induction bs generalizing ps with
  | nil => simp [stateAfter]
  | cons byte bs ih =>
    change stateAfter (feedEach feed) (ps.map fun p => (feed p byte).2) bs = _
    rw [ih]
    simp [stateAfter, Function.comp_def]

theorem haltsAt_feedEach (hps : ps ≠ []) :
    HaltsAt (feedEach feed) ps bs k ↔ ∀ p ∈ ps, HaltsAt feed p bs k := by
  obtain ⟨p, rest, rfl⟩ := List.exists_cons_of_ne_nil hps
  cases hk : bs[k]? with
  | none => simp [HaltsAt, hk, forall_and]
  | some byte => simp [HaltsAt, hk, stateAfter_feedEach, feedEach]

end Several

theorem stop_stopIn (value : UInt8) (bs : Bytes) :
    (ofBytes Processor.feed (.stopIn [value]) bs).stop = bs.idxOf? value := by
  induction bs with
  | nil => rfl
  | cons byte bs ih =>
    by_cases hv : byte = value
    · simp [ofBytes, Processor.feed, List.idxOf?_cons, hv]
    · simp [ofBytes, Processor.feed, List.idxOf?_cons, hv, ih]

end Visit

namespace Buffer

open Visit (ofBytes placed OneByOne HaltsAt stateAfter)

variable {σ : Type} {b : Buffer} {st : Storage} {i n : Nat}

section Blocks

variable (hb : b.Valid) (hst : b.group.storage = some st)
include hb hst

theorem scanForward_eq (feed : Feed σ) (s : σ) (hin : i + n ≤ b.handle.capacity) :
    scanForward feed b s i n =
      .ok ((ofBytes feed s (st.bytes.window (b.handle.offset + i) n)).placed (i + ·)) := by
  fun_induction scanForward feed b s i n with
  | case1 s i => simp [Bytes.window, ofBytes, placed]
  | case2 s i n hn m f hread =>
    rw [hb.read_of_le hst (by omega)] at hread
    cases hread
  | case3 s i n hn m block hread v k hstop =>
    rw [hb.read_of_le hst (by omega)] at hread
    cases hread
    have hsplit := Bytes.window_add st.bytes (b.handle.offset + i) m (n - m)
    rw [Nat.add_sub_cancel' (Nat.min_le_left n scanBlock)] at hsplit
    rw [hsplit, Visit.ofBytes_append_of_stop hstop]
    simp [placed, v, hstop]
  | case4 s i n hn m block hread v hstop f hrest ih =>
    rw [ih (by omega)] at hrest
    cases hrest
  | case5 s i n hn m block hread v hstop w hrest ih =>
    have hlength := length_of_read hread
    rw [hb.read_of_le hst (by omega)] at hread
    cases hread
    rw [ih (by omega), Except.ok.injEq] at hrest
    have hsplit := Bytes.window_add st.bytes (b.handle.offset + i) m (n - m)
    rw [Nat.add_sub_cancel' (Nat.min_le_left n scanBlock)] at hsplit
    rw [hsplit, Visit.ofBytes_append_of_none hstop, ← hrest]
    simp [placed, Visit.andThen, v, hlength, Function.comp_def, Nat.add_assoc]

theorem scanBackward_eq (feed : Feed σ) (s : σ) (hin : i + n ≤ b.handle.capacity) :
    scanBackward feed b s i n =
      .ok ((ofBytes feed s (st.bytes.window (b.handle.offset + i) n).reverse).placed
        (i + n - 1 - ·)) := by
  fun_induction scanBackward feed b s i n with
  | case1 s => simp [Bytes.window, ofBytes, placed]
  | case2 s n hn m start f hread =>
    rw [hb.read_of_le hst (by omega)] at hread
    cases hread
  | case3 s n hn m start block hread v k hstop =>
    have hlength := length_of_read hread
    have hk := Visit.stop_lt hstop
    rw [hb.read_of_le hst (by omega)] at hread
    cases hread
    rw [List.length_reverse, hlength] at hk
    have hsplit := Bytes.window_add st.bytes (b.handle.offset + i) (n - m) m
    rw [Nat.sub_add_cancel (Nat.min_le_left n scanBlock), Nat.add_assoc] at hsplit
    have hindex : start + (m - 1 - k) = i + n - 1 - k := by omega
    rw [hsplit, List.reverse_append, Visit.ofBytes_append_of_stop hstop]
    simp [placed, v, hstop, hindex]
  | case4 s n hn m start block hread v hstop f hrest ih =>
    rw [ih (by omega)] at hrest
    cases hrest
  | case5 s n hn m start block hread v hstop w hrest ih =>
    have hlength := length_of_read hread
    rw [hb.read_of_le hst (by omega)] at hread
    cases hread
    rw [ih (by omega), Except.ok.injEq] at hrest
    have hsplit := Bytes.window_add st.bytes (b.handle.offset + i) (n - m) m
    rw [Nat.sub_add_cancel (Nat.min_le_left n scanBlock), Nat.add_assoc] at hsplit
    have hindex : ∀ k, i + (n - m) - 1 - k = i + n - 1 - (m + k) := by omega
    rw [hsplit, List.reverse_append, Visit.ofBytes_append_of_none hstop, ← hrest]
    simp [placed, Visit.andThen, v, hlength, Function.comp_def, hindex]

end Blocks

def Direction.shown (bytes : Bytes) : Direction → Bytes
  | .forward => bytes
  | .backward => bytes.reverse

def Direction.place (index length : Nat) : Direction → Nat → Nat
  | .forward => (index + ·)
  | .backward => (index + length - 1 - ·)

section Range

variable (hb : b.Valid) (live : 0 < b.group.count)
include hb live

theorem scan_of_le (hin : i + n ≤ b.handle.capacity) :
    ∃ bytes, b.read i n = .ok bytes ∧ ∀ (d : Direction) {σ : Type} (feed : Feed σ) (s : σ),
      scan d feed b s i n = .ok ((ofBytes feed s (d.shown bytes)).placed (d.place i n)) := by
  obtain ⟨st, hst, -⟩ := hb.window live
  refine ⟨_, hb.read_of_le hst hin, fun d σ feed s => ?_⟩
  cases d with
  | forward => exact scanForward_eq hb hst feed s hin
  | backward => exact scanBackward_eq hb hst feed s hin

omit hb in
theorem visitBytes_eq_scan (hcapacity : b.handle.capacity ≤ Word.largest)
    (hin : i + n ≤ b.handle.capacity) (d : Direction) (feed : Feed σ) (s : σ) :
    b.visitBytes d feed s i n = scan d feed b s i n := by
  simp only [visitBytes, (checkLive_eq_ok_iff b).2 live, (checkBounds_eq_ok_iff hcapacity).2 hin,
    bind, Except.bind]

end Range

structure Scanned (b : Buffer) (index length : Nat) (bytes : Bytes) : Prop where
  read : b.read index length = .ok bytes
  visit (d : Direction) {σ : Type} (feed : Feed σ) (s : σ) :
    ∃ v, b.visitBytes d feed s index length = .ok v ∧
      OneByOne (HaltsAt feed s (d.shown bytes)) (stateAfter feed s) (d.place index length)
        (d.shown bytes) v
  visitAll {σ : Type} (feed : Feed σ) (ps : List σ) : ps ≠ [] →
    ∃ v, b.visitAll feed ps index length = .ok v ∧
      OneByOne (fun k => ∀ p ∈ ps, HaltsAt feed p bytes k)
        (fun seen => ps.map fun p => stateAfter feed p seen) (index + ·) bytes v
  distanceIn (value : UInt8) : b.distanceIn index length value = .ok (bytes.idxOf? value)

theorem visitAll_of_ne_nil {ps : List σ} (hps : ps ≠ []) (feed : Feed σ) (i n : Nat) (b : Buffer) :
    b.visitAll feed ps i n = b.visitBytes .forward (feedEach feed) ps i n :=
  if_neg (by simpa using hps)

section Inside

variable (hb : b.Valid) (live : 0 < b.group.count)
include hb live

theorem scanned_of_le (hin : i + n ≤ b.handle.capacity) : ∃ bytes, b.Scanned i n bytes := by
  obtain ⟨bytes, hread, hscan⟩ := scan_of_le hb live hin
  have hvisit (d : Direction) {σ : Type} (feed : Feed σ) (s : σ) :=
    (visitBytes_eq_scan live hb.handle.capacity_le_largest hin d feed s).trans (hscan d feed s)
  refine ⟨bytes, hread, fun d σ feed s => ?_, fun feed ps hps => ?_, fun value => ?_⟩
  · exact ⟨_, hvisit d feed s, Visit.oneByOne_ofBytes feed s _ _⟩
  · have hone := Visit.oneByOne_ofBytes (feedEach feed) ps (i + ·) bytes
    have hstops : HaltsAt (feedEach feed) ps bytes = fun k => ∀ p ∈ ps, HaltsAt feed p bytes k :=
      funext fun k => propext (Visit.haltsAt_feedEach hps)
    rw [hstops, funext (Visit.stateAfter_feedEach ps)] at hone
    exact ⟨_, (visitAll_of_ne_nil hps feed i n b).trans (hvisit .forward _ ps), hone⟩
  · rw [distanceIn, hvisit .forward, ← Visit.stop_stopIn]
    simp [placed, Direction.shown, Direction.place, bind, Except.bind, pure, Except.pure,
      Function.comp_def]

theorem distanceTo_eq (value : UInt8) : b.distanceTo value = .ok (b.unread.idxOf? value) := by
  obtain ⟨bytes, hscan⟩ := scanned_of_le hb live (readable_le hb)
  rw [distanceTo, hscan.distanceIn, unread_of_content hscan.read]

end Inside

end Buffer

namespace Arena

def adopted (data : Bytes) : Arena := after {} [.make (.adopt data) "root"]

def adoptedRoot (data : Bytes) : Buffer :=
  ⟨.root data.length (max data.length defaultMaxCapacity) data.length true,
    .holding ⟨.heap, data, max data.length defaultMaxCapacity⟩, .plain {}, false⟩

theorem buffer_adopted (data : Bytes) : (adopted data).buffer "root" = .ok (adoptedRoot data) := rfl

theorem reachable_adopted {data : Bytes} (h : data.length ≤ Word.longest) :
    (adopted data).Reachable := ⟨_, _, by simpa [Command.Fits, Making.Fits] using h, rfl⟩

theorem unread_adoptedRoot {data : Bytes} (h : data.length ≤ Word.longest) :
    (adoptedRoot data).unread = data := by
  have hv := (reachable_adopted h).valid.of_buffer (buffer_adopted data)
  rw [Buffer.unread_eq hv rfl]
  exact Bytes.window_whole data

end Arena

end SharedBuffer
