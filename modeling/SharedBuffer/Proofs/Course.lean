import SharedBuffer.Buffer.Count
import SharedBuffer.Buffer.Index
import SharedBuffer.Buffer.Reserve
import SharedBuffer.Proofs.Lending

/-!
The elementary changes of a buffer, and courses of them. Whatever one operation does to a buffer is
a course; what a course can do to the handle, to the group and to the pool is proved here once.
Main statements: a course keeps a buffer valid, leaves what identifies the handle, moves the count
by what was gained and lost, shows the bytes that were written over the old ones, and hands to the
pool exactly the storages that the group gives up.
-/

namespace SharedBuffer

/-- What a course amounts to: the bytes written, by their place in the storage, the references
gained and lost, and the storages handed back to the pool. -/
structure Effect where
  written : Nat → Option UInt8 := fun _ => none
  gained : Nat := 0
  lost : Nat := 0
  back : List Storage := []

namespace Effect

def andThen (e f : Effect) : Effect :=
  ⟨fun p => (f.written p).or (e.written p), e.gained + f.gained, e.lost + f.lost, e.back ++ f.back⟩

theorem andThen_none (e : Effect) : e.andThen {} = e := by
  simp only [andThen, Option.none_or, Nat.add_zero, List.append_nil]

theorem none_andThen (e : Effect) : ({} : Effect).andThen e = e := by
  simp only [andThen, Option.or_none, Nat.zero_add, List.nil_append]

theorem andThen_assoc (e f g : Effect) : (e.andThen f).andThen g = e.andThen (f.andThen g) := by
  simp only [andThen, Option.or_assoc, Nat.add_assoc, List.append_assoc]

end Effect

def Bytes.laid (start : Nat) (data : Bytes) (p : Nat) : Option UInt8 :=
  if start ≤ p then data[p - start]? else none

namespace Bytes

theorem laid_nil (start : Nat) : laid start [] = fun _ => none := by
  funext p
  simp [laid]

theorem laid_append (start : Nat) (data more : Bytes) (p : Nat) :
    laid start (data ++ more) p = (laid (start + data.length) more p).or (laid start data p) := by
  simp only [laid]
  by_cases h : start ≤ p
  · rw [if_pos h, if_pos h, List.getElem?_append]
    by_cases h2 : p - start < data.length
    · rw [if_pos h2, if_neg (by omega), Option.none_or]
    · rw [if_neg h2, if_pos (by omega), List.getElem?_eq_none (l := data) (by omega),
        Option.or_none, Nat.sub_add_eq]
  · rw [if_neg h, if_neg h, if_neg (by omega), Option.none_or]

theorem laid_take {start n p : Nat} {data : Bytes} (hp : p < start + n) :
    laid start (data.take n) p = laid start data p := by
  simp only [laid]
  split
  · exact List.getElem?_take_of_lt (by omega)
  · rfl

theorem getElem?_splice_eq_laid {start : Nat} {data bs : Bytes}
    (h : start + data.length ≤ bs.length) (p : Nat) :
    (bs.splice start data)[p]? = (laid start data p).or bs[p]? := by
  rw [getElem?_splice h, laid]
  by_cases h1 : start ≤ p
  · by_cases h2 : p < start + data.length
    · rw [if_pos ⟨h1, h2⟩, if_pos h1, List.getElem?_eq_getElem (by omega), Option.some_or]
    · rw [if_neg (by omega), if_pos h1, List.getElem?_eq_none (l := data) (by omega),
        Option.none_or]
  · rw [if_neg (by omega), if_neg h1, Option.none_or]

theorem getElem?_fit {n p : Nat} {bs : Bytes} (hp : p < bs.length) (hn : p < n) :
    (bs.fit n)[p]? = bs[p]? := by
  rw [fit, List.getElem?_append_left (by rw [List.length_take]; omega), List.getElem?_take,
    if_pos hn]

end Bytes

/-- One elementary change, what it amounts to, and what it reports. -/
inductive Move : Effect → Buffer → Buffer → List Event → Prop
  | seek {b} (c : Cursor) (hc : c.Within b.handle.capacity) :
      Move {} b (b.moveCursor fun _ => c) []
  | expand {b} (value : Bool) : Move {} b (b.setAutoExpand value) []
  | write {b s} (hs : b.group.storage = some s) (hopen : b.handle.readOnly = false)
      (start : Nat) (data : Bytes) (lo : b.handle.offset ≤ start)
      (hi : start + data.length ≤ b.handle.offset + b.handle.capacity) :
      Move { written := Bytes.laid start data } b (b.patch start data s) []
  | resize {b s} (hs : b.group.storage = some s) (hopen : b.handle.readOnly = false)
      (hfree : b.handle.origin ≠ .slice) {n : Nat} (hn : n ≤ b.handle.maxCapacity) (c : Cursor)
      (hc : c.Within n) (hkeep : Buffer.needsReplacement n s b.shared = false) :
      Move {} b ((b.setCapacity n).moveCursor fun _ => c)
        [.capacityAdjusted b.handle.capacity n b.handle.maxCapacity b.shared false]
  | replace {b s} (hs : b.group.storage = some s) (hopen : b.handle.readOnly = false)
      (hfree : b.handle.origin ≠ .slice) {n : Nat} (hn : n ≤ b.handle.maxCapacity) (c : Cursor)
      (hc : c.Within n) (hneed : Buffer.needsReplacement n s b.shared = true) {t : Storage}
      (ht : (Pool.relend s n b.pool).result = .ok t) :
      Move { back := [s] } b
        (({ (b.setStorage t) with
            pool := (Pool.takeBack s (Pool.relend s n b.pool).state).state }.setCapacity
          n).moveCursor fun _ => c)
        ((Pool.relend s n b.pool).events ++
          ((Pool.takeBack s (Pool.relend s n b.pool).state).events ++
            [.capacityAdjusted b.handle.capacity n b.handle.maxCapacity b.shared true]))
  | retain {b} {n : Nat} (live : 0 < b.group.count) (hle : b.group.count + n ≤ Word.largest) :
      Move { gained := n } b (b.setCount (b.group.count + n)) []
  | release {b} {n : Nat} (hlt : n < b.group.count) :
      Move { lost := n } b (b.setCount (b.group.count - n)) []
  | finish {b s} (hs : b.group.storage = some s) :
      Move { lost := b.group.count, back := [s] } b
        { ((b.setCount 0).dropStorage) with pool := (Pool.takeBack s b.pool).state }
        (.deallocated b.group.kind s.capacity :: (Pool.takeBack s b.pool).events)
  | lend {b} (kind : StorageKind) (n m : Nat) :
      Move {} b { b with pool := (Pool.lend kind n m b.pool).state }
        (Pool.lend kind n m b.pool).events
  | relend {b} (s : Storage) (n : Nat) :
      Move {} b { b with pool := (Pool.relend s n b.pool).state } (Pool.relend s n b.pool).events
  | report {b} (count decrement : Nat) : Move {} b b [.releaseUnderflow count decrement]

/-- What no course changes: whose handle it is, where its window begins, how far it may grow, and
that a storage in the group is as large as it has to be for the other handles. -/
structure Buffer.Follows (b b' : Buffer) : Prop where
  shared : b'.shared = b.shared
  offset : b'.handle.offset = b.handle.offset
  maxCapacity : b'.handle.maxCapacity = b.handle.maxCapacity
  readOnly : b'.handle.readOnly = b.handle.readOnly
  origin : b'.handle.origin = b.handle.origin
  kind : b'.group.kind = b.group.kind
  storage : ∀ s', b'.group.storage = some s' → ∃ s, b.group.storage = some s ∧
    s'.maxCapacity = s.maxCapacity ∧ (b.shared = true → s.capacity ≤ s'.capacity)

namespace Buffer.Follows

variable {a b c : Buffer}

theorem of_storage_eq (shared : b.shared = a.shared) (offset : b.handle.offset = a.handle.offset)
    (maxCapacity : b.handle.maxCapacity = a.handle.maxCapacity)
    (readOnly : b.handle.readOnly = a.handle.readOnly) (origin : b.handle.origin = a.handle.origin)
    (kind : b.group.kind = a.group.kind) (storage : b.group.storage = a.group.storage) :
    a.Follows b where
  shared := shared
  offset := offset
  maxCapacity := maxCapacity
  readOnly := readOnly
  origin := origin
  kind := kind
  storage s hs := ⟨s, storage ▸ hs, rfl, fun _ => Nat.le_refl _⟩

theorem refl (b : Buffer) : b.Follows b := of_storage_eq rfl rfl rfl rfl rfl rfl rfl

theorem trans (h : a.Follows b) (h' : b.Follows c) : a.Follows c where
  shared := h'.shared.trans h.shared
  offset := h'.offset.trans h.offset
  maxCapacity := h'.maxCapacity.trans h.maxCapacity
  readOnly := h'.readOnly.trans h.readOnly
  origin := h'.origin.trans h.origin
  kind := h'.kind.trans h.kind
  storage := by
    intro s hs
    obtain ⟨t, ht, hmax, hcap⟩ := h'.storage s hs
    obtain ⟨u, hu, hmax', hcap'⟩ := h.storage t ht
    refine ⟨u, hu, hmax.trans hmax', fun hshared => ?_⟩
    exact Nat.le_trans (hcap' hshared) (hcap (h.shared.trans hshared))

end Buffer.Follows

theorem Buffer.capacity_of_needsReplacement {n : Nat} {s : Storage} {shared : Bool}
    (h : Buffer.needsReplacement n s shared = true) :
    n ≠ s.capacity ∧ (shared = true → s.capacity < n) := by
  simp only [needsReplacement, Bool.or_eq_true, decide_eq_true_eq, Bool.and_eq_true,
    Bool.not_eq_true'] at h
  refine ⟨by omega, fun hshared => ?_⟩
  rcases h with h | ⟨h, -⟩
  · exact h
  · rw [hshared] at h
    simp at h

theorem Buffer.le_of_not_needsReplacement {n : Nat} {s : Storage} {shared : Bool}
    (h : Buffer.needsReplacement n s shared = false) : n ≤ s.capacity := by
  simp only [needsReplacement, Bool.or_eq_false_iff, decide_eq_false_iff_not] at h
  omega

namespace Storage

variable {s : Storage} {start : Nat} {data : Bytes}

theorem shape_splice (h : start + data.length ≤ s.capacity) :
    ({ s with bytes := s.bytes.splice start data } : Storage).shape = s.shape := by
  simp only [shape, capacity, Bytes.length_splice (show start + data.length ≤ s.bytes.length from h)]

theorem valid_refit (hs : s.Valid) {n : Nat} (hn : n ≤ s.maxCapacity) : (s.refit n).Valid :=
  ⟨by rw [capacity_refit]; exact hn, hs.max_le_largest⟩

end Storage

namespace Move

variable {e : Effect} {b b' : Buffer} {log : List Event}

theorem follows (h : Move e b b' log) (hb : b.Valid) : b.Follows b' := by
  cases h with
  | seek c hc => exact .of_storage_eq rfl rfl rfl rfl rfl rfl rfl
  | expand value => exact .of_storage_eq rfl rfl rfl rfl rfl rfl rfl
  | @write _ s hs hopen start data lo hi =>
    have hw := (hb.on hs).window_le
    have hshape := Storage.shape_splice (s := s) (show start + data.length ≤ s.capacity by omega)
    refine ⟨rfl, rfl, rfl, rfl, rfl, rfl, fun s' hs' => ?_⟩
    cases hs'
    exact ⟨s, hs, rfl, fun _ => Nat.le_of_eq (Storage.shape_eq_iff.1 hshape).2.1.symm⟩
  | resize hs hopen hfree hn c hc hkeep => exact .of_storage_eq rfl rfl rfl rfl rfl rfl rfl
  | @replace _ s hs hopen hfree n hn c hc hneed t ht =>
    obtain ⟨-, rfl⟩ := Pool.relend_eq_ok hb.pool ht
    refine ⟨rfl, rfl, rfl, rfl, rfl, rfl, fun s' hs' => ?_⟩
    cases hs'
    refine ⟨s, hs, rfl, fun hshared => ?_⟩
    rw [Storage.capacity_refit]
    exact Nat.le_of_lt ((Buffer.capacity_of_needsReplacement hneed).2 hshared)
  | retain live hle => exact .of_storage_eq rfl rfl rfl rfl rfl rfl rfl
  | release hlt => exact .of_storage_eq rfl rfl rfl rfl rfl rfl rfl
  | finish hs => exact ⟨rfl, rfl, rfl, rfl, rfl, rfl, fun s' hs' => by cases hs'⟩
  | lend kind n m => exact .of_storage_eq rfl rfl rfl rfl rfl rfl rfl
  | relend s n => exact .of_storage_eq rfl rfl rfl rfl rfl rfl rfl
  | report count decrement => exact .refl b

theorem serves (h : Move e b b' log) : Pool.Serves e.back b.pool b'.pool := by
  cases h with
  | replace hs hopen hfree hn c hc hneed ht => exact ((Pool.Serves.refl b.pool).relend _ _).takeBack _
  | finish hs => exact (Pool.Serves.refl b.pool).takeBack _
  | lend kind n m => exact (Pool.Serves.refl b.pool).lend kind n m
  | relend s n => exact (Pool.Serves.refl b.pool).relend s n
  | _ => exact .refl b.pool

theorem count (h : Move e b b' log) : b'.group.count + e.lost = b.group.count + e.gained := by
  cases h with
  | release hlt => exact Nat.sub_add_cancel (Nat.le_of_lt hlt)
  | finish hs => exact Nat.zero_add _
  | _ => rfl

theorem valid (h : Move e b b' log) (hb : b.Valid) : b'.Valid := by
  have hpool := h.serves.valid hb.pool
  have hh := hb.handle
  have hg := hb.group
  cases h with
  | seek c hc =>
    refine ⟨⟨hc, hh.capacity_le_max, hh.max_le_largest, hh.slice_fixed, hh.offset_zero⟩, hg, hpool, ?_⟩
    intro live
    obtain ⟨s, hs, hon⟩ := hb.window live
    exact ⟨s, hs, hon.window_le, hon.max_eq⟩
  | expand value =>
    refine ⟨⟨hh.cursor, hh.capacity_le_max, hh.max_le_largest, hh.slice_fixed, hh.offset_zero⟩, hg,
      hpool, ?_⟩
    intro live
    obtain ⟨s, hs, hon⟩ := hb.window live
    exact ⟨s, hs, hon.window_le, hon.max_eq⟩
  | @write _ s hs hopen start data lo hi =>
    have hon := hb.on hs
    have hw := hon.window_le
    have hshape := Storage.shape_splice (s := s) (show start + data.length ≤ s.capacity by omega)
    obtain ⟨hkind, hcap, hmax⟩ := Storage.shape_eq_iff.1 hshape
    refine ⟨hh, ⟨hg.count_le, ?_, ?_⟩, hpool, ?_⟩
    · intro s' hs'
      cases hs'
      exact ⟨(hg.storage s hs).1.of_shape hshape, (hg.storage s hs).2⟩
    · intro s' hs'
      exact hg.live s hs
    · intro _
      refine ⟨_, rfl, ?_, hon.max_eq⟩
      change b.handle.offset + b.handle.capacity ≤ _
      rw [hcap]
      exact hon.window_le
  | @resize _ s hs hopen hfree n hn c hc hkeep =>
    refine ⟨⟨hc, hn, hh.max_le_largest, fun hslice => absurd hslice hfree, hh.offset_zero⟩, hg,
      hpool, ?_⟩
    intro live
    refine ⟨s, hs, ?_, (hb.on hs).max_eq⟩
    change b.handle.offset + n ≤ s.capacity
    have hle := Buffer.le_of_not_needsReplacement hkeep
    have h0 := hh.offset_zero hfree
    omega
  | @replace _ s hs hopen hfree n hn c hc hneed t ht =>
    obtain ⟨hmax, rfl⟩ := Pool.relend_eq_ok hb.pool ht
    refine ⟨⟨hc, hn, hh.max_le_largest, fun hslice => absurd hslice hfree, hh.offset_zero⟩,
      ⟨hg.count_le, ?_, ?_⟩, hpool, ?_⟩
    · intro s' hs'
      cases hs'
      exact ⟨Storage.valid_refit (hg.storage s hs).1 hmax, (hg.storage s hs).2⟩
    · intro s' hs'
      exact hg.live s hs
    · intro live
      refine ⟨_, rfl, ?_, (hb.on hs).max_eq⟩
      change b.handle.offset + n ≤ (s.refit n).capacity
      rw [Storage.capacity_refit, hh.offset_zero hfree]
      omega
  | retain live hle =>
    refine ⟨hh, ⟨hle, hg.storage, fun s hs => ?_⟩, hpool, fun _ => hb.window live⟩
    exact Nat.lt_of_lt_of_le live (Nat.le_add_right _ _)
  | @release _ n hlt =>
    have hle := hg.count_le
    refine ⟨hh, ⟨?_, hg.storage, fun s hs => Nat.sub_pos_of_lt hlt⟩, hpool, fun _ => ?_⟩
    · exact Nat.le_trans (Nat.sub_le _ _) hle
    · exact hb.window (Nat.zero_lt_of_lt hlt)
  | finish hs =>
    refine ⟨hh, ⟨Nat.zero_le _, ?_, ?_⟩, hpool, ?_⟩
    · intro s' hs'
      cases hs'
    · intro s' hs'
      cases hs'
    · intro live
      exact absurd live (Nat.lt_irrefl 0)
  | lend kind n m => exact ⟨hh, hg, hpool, hb.window⟩
  | relend s n => exact ⟨hh, hg, hpool, hb.window⟩
  | report count decrement => exact hb

theorem bytes (h : Move e b b' log) (hb : b.Valid) {s s' : Storage}
    (hs : b.group.storage = some s) (hs' : b'.group.storage = some s') {p : Nat}
    (hp : p < s.capacity) (hp' : p < s'.capacity) :
    s'.bytes[p]? = (e.written p).or s.bytes[p]? := by
  cases h with
  | @write _ t ht hopen start data lo hi =>
    rw [hs] at ht
    cases ht
    cases hs'
    have hw := (hb.on hs).window_le
    exact Bytes.getElem?_splice_eq_laid (show start + data.length ≤ s.bytes.length by
      simp only [Storage.capacity] at hw
      omega) p
  | @replace _ t ht' hopen hfree n hn c hc hneed u hu =>
    rw [hs] at ht'
    cases ht'
    obtain ⟨-, rfl⟩ := Pool.relend_eq_ok hb.pool hu
    cases hs'
    rw [Storage.capacity_refit] at hp'
    exact (Bytes.getElem?_fit hp hp').trans (Option.none_or).symm
  | finish ht => cases hs'
  | _ =>
    have heq : s' = s := by
      have := hs'.symm.trans hs
      exact Option.some.inj this
    rw [heq, Option.none_or]

theorem custody (h : Move e b b' log) (hb : b.Valid) :
    (e.back = [] ∧ b'.group.storage.map Storage.shape = b.group.storage.map Storage.shape) ∨
    ∃ s, e.back = [s] ∧ b.group.storage = some s ∧
      ∀ t, b'.group.storage = some t → t.capacity ≠ s.capacity := by
  cases h with
  | @write _ s hs hopen start data lo hi =>
    have hw := (hb.on hs).window_le
    refine .inl ⟨rfl, ?_⟩
    rw [hs]
    exact congrArg some (Storage.shape_splice (show start + data.length ≤ s.capacity by omega))
  | @replace _ s hs hopen hfree n hn c hc hneed t ht =>
    obtain ⟨-, rfl⟩ := Pool.relend_eq_ok hb.pool ht
    refine .inr ⟨s, rfl, hs, fun u hu => ?_⟩
    cases hu
    rw [Storage.capacity_refit]
    exact (Buffer.capacity_of_needsReplacement hneed).1
  | finish hs => exact .inr ⟨_, rfl, hs, fun u hu => by cases hu⟩
  | _ => exact .inl ⟨rfl, rfl⟩

end Move

/-- A sequence of elementary changes, what they amount to together, and what they report. -/
inductive Course : Effect → Buffer → Buffer → List Event → Prop
  | refl (b : Buffer) : Course {} b b []
  | step {e f : Effect} {b c d : Buffer} {log more : List Event} (prior : Course e b c log)
      (move : Move f c d more) : Course (e.andThen f) b d (log ++ more)

theorem Move.course {e : Effect} {b b' : Buffer} {log : List Event} (h : Move e b b' log) :
    Course e b b' log := by
  simpa only [Effect.none_andThen, List.nil_append] using (Course.refl b).step h

namespace Course

variable {e f : Effect} {b c d : Buffer} {log more : List Event}

theorem trans (h : Course e b c log) (h' : Course f c d more) :
    Course (e.andThen f) b d (log ++ more) := by
  induction h' with
  | refl c => simpa only [Effect.andThen_none, List.append_nil] using h
  | step prior move ih =>
    simpa only [Effect.andThen_assoc, List.append_assoc] using (ih h).step move

theorem valid (h : Course e b c log) (hb : b.Valid) : c.Valid := by
  induction h with
  | refl b => exact hb
  | step prior move ih => exact move.valid (ih hb)

theorem follows (h : Course e b c log) (hb : b.Valid) : b.Follows c := by
  induction h with
  | refl b => exact .refl b
  | step prior move ih => exact (ih hb).trans (move.follows (prior.valid hb))

theorem serves (h : Course e b c log) : Pool.Serves e.back b.pool c.pool := by
  induction h with
  | refl b => exact .refl b.pool
  | step prior move ih => exact ih.trans move.serves

theorem count (h : Course e b c log) : c.group.count + e.lost = b.group.count + e.gained := by
  induction h with
  | refl b => rfl
  | step prior move ih =>
    have hmove := move.count
    simp only [Effect.andThen]
    omega

theorem bytes (h : Course e b c log) (hb : b.Valid) (hshared : b.shared = true) {s t : Storage}
    (hs : b.group.storage = some s) (ht : c.group.storage = some t) {p : Nat}
    (hp : p < s.capacity) : t.bytes[p]? = (e.written p).or s.bytes[p]? := by
  induction h generalizing t with
  | refl b =>
    rw [hs] at ht
    cases ht
    exact (Option.none_or).symm
  | step prior move ih =>
    have hmid := prior.valid hb
    have hfollows := prior.follows hb
    obtain ⟨u, hu, -, hle⟩ := (move.follows hmid).storage t ht
    obtain ⟨s', hs', -, hle'⟩ := hfollows.storage u hu
    rw [hs] at hs'
    cases hs'
    have hpu : p < u.capacity := Nat.lt_of_lt_of_le hp (hle' hshared)
    have hpt : p < t.capacity := Nat.lt_of_lt_of_le hpu (hle (hfollows.shared.trans hshared))
    rw [move.bytes hmid hu ht hpu hpt, ih hb hshared hs hu, Effect.andThen, Option.or_assoc]

/-- A course that hands back at most one storage hands back the one that the group had, if it ends
with none or another, and none if it ends with the same. -/
theorem custody (h : Course e b c log) (hb : b.Valid) (hone : e.back.length ≤ 1) :
    (e.back = [] ∧ c.group.storage.map Storage.shape = b.group.storage.map Storage.shape) ∨
    ∃ s t, e.back = [s] ∧ b.group.storage = some t ∧ t.shape = s.shape ∧
      ∀ u, c.group.storage = some u → u.capacity ≠ s.capacity := by
  induction h with
  | refl b => exact .inl ⟨rfl, rfl⟩
  | @step e f b c d log more prior move ih =>
    simp only [Effect.andThen, List.length_append] at hone ⊢
    rcases ih hb (by omega) with ⟨hback, hsame⟩ | ⟨s, t, hback, ht, hshape, hother⟩
    · rcases move.custody (prior.valid hb) with ⟨hf, hkeep⟩ | ⟨s, hf, hs, hother⟩
      · exact .inl ⟨by rw [hback, hf]; rfl, hkeep.trans hsame⟩
      · rw [hs] at hsame
        obtain ⟨t, ht, hshape⟩ := Option.map_eq_some_iff.1 hsame.symm
        exact .inr ⟨s, t, by rw [hback, hf]; rfl, ht, hshape, hother⟩
    · rcases move.custody (prior.valid hb) with ⟨hf, hkeep⟩ | ⟨u, hf, hu, -⟩
      · refine .inr ⟨s, t, by rw [hback, hf]; rfl, ht, hshape, fun u hu => ?_⟩
        rw [hu] at hkeep
        obtain ⟨v, hv, hvu⟩ := Option.map_eq_some_iff.1 hkeep.symm
        rw [← (Storage.shape_eq_iff.1 hvu).2.1]
        exact hother v hv
      · simp only [hback, hf, List.length_cons, List.length_nil] at hone
        omega

end Course

end SharedBuffer
