import SharedBuffer.Proofs.Grants
import SharedBuffer.Proofs.Views

/-!
Chains of derivations. A slice of a slice begins where the starts add up to, however many there are
and whatever is done in between as long as both ends keep their names. Main statements: what each
derivation of a live handle makes, with the form that retains and the form that takes; and a byte of
a slice at the end of a chain is the byte of the first handle that lies behind it by all the starts.
-/

namespace SharedBuffer

structure Frame where
  offset : Nat
  capacity : Nat
  reader : Nat
  writer : Nat

namespace Handle

def frame (h : Handle) : Frame := ⟨h.offset, h.capacity, h.reader, h.writer⟩

def marks (h : Handle) : Nat × Nat := (h.cursor.markedReader, h.cursor.markedWriter)

end Handle

namespace Derivation

open SharedBuffer.Action (ask_bind_congr)

variable {b : Buffer} {d : Derivation} {g : Grant} {i n : Nat}

def retaining : Derivation → Option Derivation
  | .slice extent => some (.retainedSlice extent)
  | .duplicate => some .retainedDuplicate
  | .takeSlice n => some (.takeRetainedSlice n)
  | _ => none

def standing (b : Buffer) : Derivation → Option (Derivation × Nat)
  | .takeSlice n => some (.slice (.within b.handle.reader n), n)
  | .takeRetainedSlice n => some (.retainedSlice (.within b.handle.reader n), n)
  | _ => none

def start? (b : Buffer) : Derivation → Option Nat
  | .slice extent | .retainedSlice extent => some (place b extent).1
  | .takeSlice _ | .takeRetainedSlice _ => some b.handle.reader
  | _ => none

def mirrors : Derivation → Bool
  | .duplicate | .retainedDuplicate | .readOnlyView => true
  | _ => false

theorem grant_slice (hb : b.Valid) (live : 0 < b.group.count) (hin : i + n ≤ b.handle.capacity) :
    grant b (.slice (.within i n)) = .ok ⟨b.handle.slice i n, 0⟩ :=
  except_map_eq_ok.2 ⟨_, (Buffer.slice_eq_ok hb).2 ⟨live, hin, rfl⟩, rfl⟩

theorem grant_duplicate (live : 0 < b.group.count) :
    grant b .duplicate = .ok ⟨b.handle.duplicate, 0⟩ :=
  except_map_eq_ok.2 ⟨_, Buffer.duplicate_eq_ok.2 ⟨live, rfl⟩, rfl⟩

theorem grant_readOnlyView (live : 0 < b.group.count) :
    grant b .readOnlyView = .ok ⟨{ b.handle.duplicate with readOnly := true }, 0⟩ := by
  refine except_map_eq_ok.2 ⟨{ b.handle.duplicate with readOnly := true }, ?_, rfl⟩
  rw [Buffer.readOnlyView, Buffer.duplicate_eq_ok.2 ⟨live, rfl⟩]
  rfl

theorem grant_whole (hb : b.Valid) (live : 0 < b.group.count) (hroot : b.handle.origin ≠ .root) :
    ∃ s, b.group.storage = some s ∧ grant b .whole = .ok ⟨b.handle.whole s, 0⟩ := by
  obtain ⟨s, hs, -⟩ := hb.window live
  have hlive : b.checkLive = .ok () := (Buffer.checkLive_eq_ok_iff b).2 live
  refine ⟨s, hs, except_map_eq_ok.2 ⟨b.handle.whole s, ?_, rfl⟩⟩
  rw [Buffer.whole, if_neg hroot, hlive, Buffer.heldStorage_eq_ok.2 hs]
  rfl

theorem run_whole_of_root (hroot : b.handle.origin = .root) : run .whole b = run .duplicate b :=
  ask_bind_congr (g := Buffer.whole) (h := Buffer.duplicate) (if_pos hroot) _

theorem grant_of_standing {r : Derivation} (hb : b.Valid) (live : 0 < b.group.count)
    (hr : r.standing b = some (d, n)) (hn : n ≤ b.handle.readable) : ∃ k, d.grant b = .ok ⟨k, 0⟩ ∧
      r.grant b = .ok ⟨k, n⟩ := by
  have hin : b.handle.reader + n ≤ b.handle.capacity :=
    Nat.le_trans (Nat.add_le_add_left hn _) (Buffer.readable_le hb)
  have hslice := (Buffer.slice_eq_ok hb).2 ⟨live, hin, rfl⟩
  have hlive : b.checkLive = .ok () := (Buffer.checkLive_eq_ok_iff b).2 live
  have hread : b.handle.cursor.checkReadable n = .ok () := Cursor.checkReadable_eq_ok_iff.2 hn
  have hfront : b.cutFront n = .ok (b.handle.slice b.handle.reader n) := by
    rw [Buffer.cutFront, hlive, hread, hslice]
    rfl
  cases r with
  | takeSlice k | takeRetainedSlice k =>
    cases hr
    exact ⟨_, except_map_eq_ok.2 ⟨_, hslice, rfl⟩, except_map_eq_ok.2 ⟨_, hfront, rfl⟩⟩
  | _ => cases hr

theorem standing_cases {r : Derivation} (hr : r.standing b = some (d, n)) :
    r.copies = false ∧ r.effect = d.effect ∧ ∀ g, r.grant b = .ok g → n ≤ b.handle.readable := by
  cases r with
  | takeSlice k | takeRetainedSlice k =>
    cases hr
    refine ⟨rfl, rfl, fun g hg => ?_⟩
    obtain ⟨h, hh, -⟩ := except_map_eq_ok.1 hg
    obtain ⟨⟨⟩, -, hh⟩ := except_bind_eq_ok.1 hh
    obtain ⟨⟨⟩, hread, -⟩ := except_bind_eq_ok.1 hh
    exact Cursor.checkReadable_eq_ok_iff.1 hread
  | _ => cases hr

theorem grant_of_retaining {r : Derivation} (hr : d.retaining = some r) (b : Buffer) :
    r.grant b = d.grant b ∧ d.copies = false ∧ r.copies = false ∧ d.effect.gained = 0 ∧
      r.effect.gained = 1 := by
  cases d with
  | slice extent | duplicate | takeSlice n =>
    cases hr
    exact ⟨rfl, rfl, rfl, rfl, rfl⟩
  | _ => cases hr

theorem slice_of_start (hi : d.start? b = some i) (hg : d.grant b = .ok g) :
    ∃ n, b.slice i n = .ok g.handle := by
  cases d with
  | slice extent | retainedSlice extent =>
    cases hi
    obtain ⟨k, hk, rfl⟩ := except_map_eq_ok.1 hg
    exact ⟨_, hk⟩
  | takeSlice n | takeRetainedSlice n =>
    cases hi
    obtain ⟨k, hk, rfl⟩ := except_map_eq_ok.1 hg
    obtain ⟨⟨⟩, -, hk⟩ := except_bind_eq_ok.1 hk
    obtain ⟨⟨⟩, -, hk⟩ := except_bind_eq_ok.1 hk
    exact ⟨_, hk⟩
  | _ => cases hi

theorem copies_of_start (hi : d.start? b = some i) : d.copies = false := by
  cases d with
  | copy extent | takeCopy n => cases hi
  | _ => rfl

theorem grant_of_mirrors (hd : d.mirrors = true) (hg : d.grant b = .ok g) :
    g = ⟨{ b.handle.duplicate with readOnly := g.handle.readOnly }, 0⟩ := by
  cases d with
  | duplicate | retainedDuplicate =>
    obtain ⟨k, hk, rfl⟩ := except_map_eq_ok.1 hg
    obtain ⟨-, rfl⟩ := Buffer.duplicate_eq_ok.1 hk
    rfl
  | readOnlyView =>
    obtain ⟨k, hk, rfl⟩ := except_map_eq_ok.1 hg
    obtain ⟨h, hh, hk⟩ := except_bind_eq_ok.1 hk
    obtain ⟨-, rfl⟩ := Buffer.duplicate_eq_ok.1 hh
    cases hk
    rfl
  | _ => cases hd

theorem copies_of_mirrors (hd : d.mirrors = true) : d.copies = false := by
  cases d with
  | copy extent | takeCopy n => cases hd
  | _ => rfl

end Derivation

namespace Arena

open Table (find?)

variable {a : Arena} {root part target : String} {starts : List Nat} {reach : Nat}

/-- The handle of `part` was cut out of that of `root` by slices with these starts, one cut out of the
other, possibly with further handles on the same window in between; the window of `root` reached so
far when the first slice was cut. Both have kept their names since. -/
inductive Sliced (root : String) : Arena → String → List Nat → Nat → Prop
  | first {a : Arena} {b : Buffer} {d : Derivation} {i : Nat} {target : String} {v : Answer}
      (reachable : a.Reachable) (source : a.buffer root = .ok b) (cut : d.start? b = some i)
      (apart : target ≠ root) (made : ((Command.derive root d target).run a).result = .ok v) :
      Sliced root ((Command.derive root d target).run a).state target [i] b.handle.capacity
  | next {a : Arena} {b : Buffer} {d : Derivation} {i : Nat} {part target : String} {v : Answer}
      {starts : List Nat} {reach : Nat} (before : Sliced root a part starts reach)
      (source : a.buffer part = .ok b) (cut : d.start? b = some i) (apart : target ≠ root)
      (made : ((Command.derive part d target).run a).result = .ok v) :
      Sliced root ((Command.derive part d target).run a).state target (starts ++ [i]) reach
  | mirrored {a : Arena} {d : Derivation} {part target : String} {v : Answer} {starts : List Nat}
      {reach : Nat} (before : Sliced root a part starts reach) (same : d.mirrors = true)
      (apart : target ≠ root) (made : ((Command.derive part d target).run a).result = .ok v) :
      Sliced root ((Command.derive part d target).run a).state target starts reach
  | kept {a : Arena} {c : Command} {part : String} {starts : List Nat} {reach : Nat}
      (before : Sliced root a part starts reach) (fits : c.Fits)
      (rootNamed : root ∉ c.seats ∨ ∃ f, (c.run a).result = .error f)
      (partNamed : part ∉ c.seats ∨ ∃ f, (c.run a).result = .error f) :
      Sliced root (c.run a).state part starts reach

structure Inside (root part : Member) (start reach : Nat) : Prop where
  group : part.group = root.group
  offset : part.handle.offset = root.handle.offset + start
  origin : part.handle.origin = .slice
  reach : start + part.handle.maxCapacity ≤ reach

theorem Inside.persists {r r' p p' : Member} {start : Nat} (h : Inside r p start reach)
    (hr : r.Persists r') (hp : p.Persists p') : Inside r' p' start reach where
  group := hp.group.trans (h.group.trans hr.group.symm)
  offset := by rw [hp.offset, hr.offset, h.offset]
  origin := hp.origin.trans h.origin
  reach := by
    rw [hp.maxCapacity]
    exact h.reach

theorem inside_slice {r : Member} {i n : Nat} (hin : i + n ≤ r.handle.capacity) :
    Inside r ⟨r.group, r.handle.slice i n⟩ i r.handle.capacity :=
  ⟨rfl, rfl, rfl, hin⟩

theorem Inside.slice {r p : Member} {start i n : Nat} (h : Inside r p start reach)
    (hp : p.handle.Valid) (hin : i + n ≤ p.handle.capacity) :
    Inside r ⟨p.group, p.handle.slice i n⟩ (start + i) reach where
  group := h.group
  offset := by
    have hoffset := h.offset
    change p.handle.offset + i = _
    omega
  origin := rfl
  reach := by
    have hreach := h.reach
    have hmax := hp.capacity_le_max
    change start + i + n ≤ reach
    omega

theorem Inside.mirrored {r p : Member} {start : Nat} (h : Inside r p start reach) (readOnly : Bool) :
    Inside r ⟨p.group, { p.handle.duplicate with readOnly }⟩ start reach where
  group := h.group
  offset := h.offset
  origin := if_pos h.origin
  reach := h.reach

theorem Valid.made_of_ok (ha : a.Valid) {name : String} {m r : Member} {e : Estate} {p : Pool}
    {d : Derivation} {v : Answer} (hs : a.Seat name m e p) (hd : d.copies = false)
    (hr : find? root a.buffers = some r) (apart : target ≠ root)
    (hok : ((Command.derive name d target).run a).result = .ok v) :
    ∃ g r', d.grant (a.bufferOf name m e p) = .ok g ∧
      find? target ((Command.derive name d target).run a).state.buffers = some ⟨m.group, g.handle⟩ ∧
      find? root ((Command.derive name d target).run a).state.buffers = some r' ∧ r.Persists r' := by
  obtain ⟨-, room, g, hg⟩ := grant_of_ok ha hs hd hok
  obtain ⟨-, m', -, hm', -, -, hbuffers⟩ := yields_of_grant hs hg room target
  rw [hs.member] at hm'
  cases hm'
  obtain ⟨r', hr', hpersists⟩ := Command.stays (c := .derive name d target) ha trivial hr
    (.inl fun hseat => apart (List.mem_singleton.1 hseat).symm)
  refine ⟨g, r', hg, ?_, hr', hpersists⟩
  rw [hbuffers]
  exact Table.find?_put_self _ _ _

theorem Valid.slice_made (ha : a.Valid) {name : String} {m r : Member} {e : Estate} {p : Pool}
    {d : Derivation} {i : Nat} {v : Answer} (hs : a.Seat name m e p)
    (cut : d.start? (a.bufferOf name m e p) = some i) (hr : find? root a.buffers = some r)
    (apart : target ≠ root) (hok : ((Command.derive name d target).run a).result = .ok v) :
    ∃ n r', i + n ≤ m.handle.capacity ∧
      find? target ((Command.derive name d target).run a).state.buffers =
        some ⟨m.group, m.handle.slice i n⟩ ∧
      find? root ((Command.derive name d target).run a).state.buffers = some r' ∧ r.Persists r' := by
  obtain ⟨g, r', hg, hpart, hroot, hpersists⟩ :=
    ha.made_of_ok hs (Derivation.copies_of_start cut) hr apart hok
  obtain ⟨n, hslice⟩ := Derivation.slice_of_start cut hg
  obtain ⟨-, hin, hhandle⟩ := (Buffer.slice_eq_ok (ha.buffer hs)).1 hslice
  rw [hhandle] at hpart
  exact ⟨n, r', hin, hpart, hroot, hpersists⟩

theorem Sliced.inside (h : Sliced root a part starts reach) :
    a.Reachable ∧ ∃ r p, find? root a.buffers = some r ∧ find? part a.buffers = some p ∧
      Inside r p starts.sum reach := by
  -- On how the part was made. A derivation gives the part a new name and lets the root persist; any
  -- other command lets both persist, and what persists keeps its offset and its largest capacity.
  induction h with
  | first reachable source cut apart made =>
    obtain ⟨m, e, p, hs, rfl⟩ := seat_of_buffer reachable.valid source
    obtain ⟨n, r', hin, hpart, hroot, hpersists⟩ :=
      reachable.valid.slice_made hs cut hs.member apart made
    refine ⟨reachable.run trivial, r', _, hroot, hpart, ?_⟩
    rw [List.sum_singleton]
    exact (inside_slice hin).persists hpersists (Member.persists_refl _)
  | next before source cut apart made ih =>
    obtain ⟨reachable, r, p, hr, hp, hinside⟩ := ih
    obtain ⟨m, e, q, hs, rfl⟩ := seat_of_buffer reachable.valid source
    obtain rfl : p = m := Option.some.inj (hp.symm.trans hs.member)
    obtain ⟨n, r', hin, hpart, hroot, hpersists⟩ := reachable.valid.slice_made hs cut hr apart made
    have hvalid := (reachable.valid.buffer hs).handle
    refine ⟨reachable.run trivial, r', _, hroot, hpart, ?_⟩
    rw [List.sum_append, List.sum_singleton]
    exact (hinside.slice hvalid hin).persists hpersists (Member.persists_refl _)
  | mirrored before same apart made ih =>
    obtain ⟨reachable, r, p, hr, hp, hinside⟩ := ih
    obtain ⟨e, q, hs⟩ := reachable.valid.seat hp
    have hd := Derivation.copies_of_mirrors same
    obtain ⟨g, r', hg, hpart, hroot, hpersists⟩ := reachable.valid.made_of_ok hs hd hr apart made
    rw [Derivation.grant_of_mirrors same hg] at hpart
    exact ⟨reachable.run trivial, r', _, hroot, hpart,
      (hinside.mirrored _).persists hpersists (Member.persists_refl _)⟩
  | kept before fits rootNamed partNamed ih =>
    obtain ⟨reachable, r, p, hr, hp, hinside⟩ := ih
    obtain ⟨r', hr', hroot⟩ := Command.stays reachable.valid fits hr rootNamed
    obtain ⟨p', hp', hpart⟩ := Command.stays reachable.valid fits hp partNamed
    exact ⟨reachable.run fits, r', p', hr', hp', hinside.persists hroot hpart⟩

theorem Valid.read_inside (ha : a.Valid) {r p : Member} {start : Nat}
    (hr : find? root a.buffers = some r) (hp : find? part a.buffers = some p)
    (h : Inside r p start reach) :
    ∃ b c, a.buffer root = .ok b ∧ a.buffer part = .ok c ∧
      c.handle.offset = b.handle.offset + start ∧ start + c.handle.capacity ≤ reach ∧
      (0 < b.group.count → ∀ j n, j + n ≤ c.handle.capacity → start + j + n ≤ b.handle.capacity →
        ∃ bytes, c.read j n = .ok bytes ∧ b.read (start + j) n = .ok bytes) := by
  obtain ⟨e, q, hs⟩ := ha.seat hr
  obtain ⟨e', q', hs'⟩ := ha.seat hp
  -- One group, so one estate: the two seats differ in the handle only.
  have hestate := hs'.estate
  rw [h.group, hs.estate] at hestate
  cases hestate
  have hpart := ha.buffer hs'
  have hfixed := hpart.handle.slice_fixed h.origin
  have hreach := h.reach
  refine ⟨_, _, buffer_of_seat hs, buffer_of_seat hs', h.offset, ?_, fun live j n hin hout => ?_⟩
  · change start + p.handle.capacity ≤ reach
    change p.handle.capacity = p.handle.maxCapacity at hfixed
    omega
  · obtain ⟨s, hstorage, -⟩ := (ha.buffer hs).window live
    have hplace : r.handle.offset + (start + j) = p.handle.offset + j := by
      rw [h.offset, Nat.add_assoc]
    refine ⟨_, hpart.read_of_le hstorage hin, ?_⟩
    refine ((ha.buffer hs).read_of_le hstorage (by omega)).trans ?_
    exact congrArg (fun k => Except.ok (s.bytes.window k n)) hplace

section Laws

variable {b : Buffer} {name : String} {m : Member} {e : Estate} {p : Pool} {d r : Derivation}

/-- What each derivation of a live handle comes to. -/
structure Composes (a : Arena) (name : String) (b : Buffer) : Prop where
  slice : ∀ i n target, if i + n ≤ b.handle.capacity then
      ∃ k, a.Yields name (.slice (.within i n)) target k 0 0 ∧
        k.frame = ⟨b.handle.offset + i, n, 0, n⟩
    else ∃ f, a.Declines name (.slice (.within i n)) target f
  nested : ∀ i n j k mid target, i + n ≤ b.handle.capacity → j + k ≤ n → ∃ made : Member,
    find? target (after a [.derive name (.slice (.within i n)) mid,
      .derive mid (.slice (.within j k)) target]).buffers = some made ∧
    find? target (after a [.derive name (.slice (.within (i + j) k)) target]).buffers = some made ∧
    made.handle.frame = ⟨b.handle.offset + (i + j), k, 0, k⟩
  mirrored : ∀ d target, d = .duplicate ∨ d = .readOnlyView → ∃ k, a.Yields name d target k 0 0 ∧
    k.frame = b.handle.frame ∧ k.marks = (b.handle.reader, b.handle.writer)
  whole : ∀ target, b.handle.origin ≠ .root → ∃ s k, b.group.storage = some s ∧
    a.Yields name .whole target k 0 0 ∧ k.frame = ⟨0, s.capacity, 0, s.capacity⟩
  root : ∀ target, b.handle.origin = .root →
    (Command.derive name .whole target).run a = (Command.derive name .duplicate target).run a
  retaining : ∀ d r target, d.retaining = some r →
    (∃ k taken, a.Yields name d target k 0 taken ∧
      if b.group.count < Word.largest then a.Yields name r target k 1 taken
      else a.Declines name r target (.retainOverflow Word.largest 1)) ∨
    ∃ f, a.Declines name d target f ∧ a.Declines name r target f
  taking : ∀ r d n target, r.standing b = some (d, n) → target ≠ name →
    if n ≤ b.handle.readable ∧ b.group.count + r.effect.gained ≤ Word.largest then
      ∃ k, a.Yields name d target k r.effect.gained 0 ∧ a.Yields name r target k r.effect.gained n ∧
        (Command.change name (.skip n)).run ((Command.derive name d target).run a).state =
          ⟨.ok .done, ((Command.derive name r target).run a).state, []⟩
    else ∃ f, a.Declines name r target f

theorem yields_or_declines (ha : a.Valid) (hs : a.Seat name m e p) (live : 0 < e.group.count)
    (hd : d.copies = false) (target : String) :
    (∃ g, d.grant (a.bufferOf name m e p) = .ok g ∧
      if e.group.count + d.effect.gained ≤ Word.largest then
        a.Yields name d target g.handle d.effect.gained g.taken
      else a.Declines name d target (.retainOverflow e.group.count 1)) ∨
    ∃ f, d.grant (a.bufferOf name m e p) = .error f ∧ a.Declines name d target f := by
  cases hg : d.grant (a.bufferOf name m e p) with
  | error f => exact .inr ⟨f, rfl, declines_of_rejects hs (Derivation.rejects_of_refusal live hd hg) target⟩
  | ok g =>
    refine .inl ⟨g, rfl, ?_⟩
    split
    · next room => exact yields_of_grant hs hg room target
    · next full =>
      have hrejects := Derivation.rejects_of_full (ha.buffer hs).group hg (Nat.lt_of_not_le full)
      exact declines_of_rejects hs hrejects target

theorem Yields.seat {k : Handle} {gained taken : Nat} (h : a.Yields name d target k gained taken)
    (ha : a.Valid) (hs : a.Seat name m e p) :
    ∃ e' p', ((Command.derive name d target).run a).state.Seat target ⟨m.group, k⟩ e' p' ∧
      e'.group.count = e.group.count + gained := by
  obtain ⟨m', e', hm', he', hgroup, hbuffers⟩ := h.shared
  rw [hs.member] at hm'
  cases hm'
  rw [hs.estate] at he'
  cases he'
  obtain ⟨x, hdoes, -⟩ := ha.step (c := .derive name d target) trivial
  have hmember : find? target ((Command.derive name d target).run a).state.buffers =
      some ⟨m.group, k⟩ := by
    rw [hbuffers]
    exact Table.find?_put_self _ _ _
  obtain ⟨e₁, p₁, hs₁⟩ := (hdoes.valid ha).seat hmember
  refine ⟨e₁, p₁, hs₁, ?_⟩
  have hestate := hs₁.estate
  rw [hgroup] at hestate
  cases hestate
  rfl

theorem yields_slice (ha : a.Valid) (hs : a.Seat name m e p) (live : 0 < e.group.count) {i n : Nat}
    (hin : i + n ≤ m.handle.capacity) (target : String) :
    a.Yields name (.slice (.within i n)) target (m.handle.slice i n) 0 0 :=
  yields_of_grant hs (Derivation.grant_slice (ha.buffer hs) live hin) (ha.buffer hs).group.count_le target

theorem nested_slices (ha : a.Valid) (hs : a.Seat name m e p) (live : 0 < e.group.count)
    {i n j k : Nat} (hin : i + n ≤ m.handle.capacity) (hpart : j + k ≤ n) (mid target : String) :
    find? target (after a [.derive name (.slice (.within i n)) mid,
      .derive mid (.slice (.within j k)) target]).buffers =
        some ⟨m.group, m.handle.slice (i + j) k⟩ ∧
    find? target (after a [.derive name (.slice (.within (i + j) k)) target]).buffers =
        some ⟨m.group, m.handle.slice (i + j) k⟩ := by
  obtain ⟨x, hdoes, -⟩ := ha.step (c := .derive name (.slice (.within i n)) mid) trivial
  have hvalid := hdoes.valid ha
  obtain ⟨e₁, p₁, hs₁, hcount⟩ := (yields_slice ha hs live hin mid).seat ha hs
  have live₁ : 0 < e₁.group.count := hcount ▸ live
  obtain ⟨e₂, p₂, hs₂, -⟩ := (yields_slice hvalid hs₁ live₁ hpart target).seat hvalid hs₁
  obtain ⟨e₃, p₃, hs₃, -⟩ :=
    (yields_slice ha hs live (show i + j + k ≤ m.handle.capacity by omega) target).seat ha hs
  refine ⟨?_, hs₃.member⟩
  rw [← Handle.slice_slice m.handle i n j k]
  exact hs₂.member

theorem run_of_same_run (hs : a.Seat name m e p)
    (h : d.run (a.bufferOf name m e p) = r.run (a.bufferOf name m e p)) (target : String) :
    (Command.derive name d target).run a = (Command.derive name r target).run a := by
  have hsame : onBuffer name (lift d.run) a = onBuffer name (lift r.run) a := by
    rw [onBuffer_of_seat hs, onBuffer_of_seat hs, lift, lift, Action.mapError, Action.mapError, h]
  change Action.bind _ _ a = Action.bind _ _ a
  rw [Action.bind, Action.bind, hsame]

theorem retaining_form (ha : a.Valid) (hs : a.Seat name m e p) (live : 0 < e.group.count)
    (hr : d.retaining = some r) (target : String) :
    (∃ k taken, a.Yields name d target k 0 taken ∧
      if e.group.count < Word.largest then a.Yields name r target k 1 taken
      else a.Declines name r target (.retainOverflow Word.largest 1)) ∨
    ∃ f, a.Declines name d target f ∧ a.Declines name r target f := by
  obtain ⟨hgrant, hd, hrd, hplain, hmore⟩ := Derivation.grant_of_retaining hr (a.bufferOf name m e p)
  have hle : e.group.count ≤ Word.largest := (ha.buffer hs).group.count_le
  cases hg : d.grant (a.bufferOf name m e p) with
  | error f =>
    have hboth := hgrant.trans hg
    exact .inr ⟨f, declines_of_rejects hs (Derivation.rejects_of_refusal live hd hg) target,
      declines_of_rejects hs (Derivation.rejects_of_refusal live hrd hboth) target⟩
  | ok g =>
    have hboth := hgrant.trans hg
    have hyields := yields_of_grant hs hg (hplain ▸ hle) target
    rw [hplain] at hyields
    refine .inl ⟨g.handle, g.taken, hyields, ?_⟩
    split
    · next room =>
      have hretained := yields_of_grant hs hboth (hmore ▸ room) target
      rwa [hmore] at hretained
    · next full =>
      have hfull : e.group.count = Word.largest := Nat.le_antisymm hle (Nat.le_of_not_lt full)
      have hrejects := Derivation.rejects_of_full (ha.buffer hs).group hboth
        (show Word.largest < e.group.count + r.effect.gained by omega)
      exact hfull ▸ declines_of_rejects hs hrejects target

theorem taking_form (ha : a.Valid) (hs : a.Seat name m e p) (live : 0 < e.group.count) {n : Nat}
    (hr : r.standing (a.bufferOf name m e p) = some (d, n)) (hne : target ≠ name) :
    if n ≤ m.handle.readable ∧ e.group.count + r.effect.gained ≤ Word.largest then
      ∃ k, a.Yields name d target k r.effect.gained 0 ∧ a.Yields name r target k r.effect.gained n ∧
        (Command.change name (.skip n)).run ((Command.derive name d target).run a).state =
          ⟨.ok .done, ((Command.derive name r target).run a).state, []⟩
    else ∃ f, a.Declines name r target f := by
  obtain ⟨hd, heffect, hreadable⟩ := Derivation.standing_cases hr
  split
  · next hfits =>
    obtain ⟨hn, room⟩ := hfits
    obtain ⟨k, hplain, htaken⟩ := Derivation.grant_of_standing (ha.buffer hs) live hr hn
    have hgained : r.effect.gained = d.effect.gained := congrArg Effect.gained heffect
    have hyields := yields_of_grant hs hplain (hgained ▸ room) target
    rw [← hgained] at hyields
    exact ⟨k, hyields, yields_of_grant hs htaken room target,
      run_skip_of_taken ha hs hne hplain htaken hgained (hgained ▸ room) live hn⟩
  · next hout =>
    rcases yields_or_declines ha hs live hd target with ⟨g, hg, hcases⟩ | ⟨f, -, hf⟩
    · have full : ¬e.group.count + r.effect.gained ≤ Word.largest :=
        fun room => hout ⟨hreadable g hg, room⟩
      rw [if_neg full] at hcases
      exact ⟨_, hcases⟩
    · exact ⟨f, hf⟩

theorem composes (ha : a.Valid) (hs : a.Seat name m e p) (live : 0 < e.group.count) :
    a.Composes name (a.bufferOf name m e p) where
  slice i n target := by
    split
    · next hin => exact ⟨_, yields_slice ha hs live hin target, rfl⟩
    · next hout =>
      rcases yields_or_declines ha hs live (d := .slice (.within i n)) rfl target with
        ⟨g, hg, -⟩ | ⟨f, -, hf⟩
      · obtain ⟨k, hk, -⟩ := except_map_eq_ok.1 hg
        exact absurd ((Buffer.slice_eq_ok (ha.buffer hs)).1 hk).2.1 hout
      · exact ⟨f, hf⟩
  nested i n j k mid target hin hpart := by
    obtain ⟨hnested, hdirect⟩ := nested_slices ha hs live hin hpart mid target
    exact ⟨_, hnested, hdirect, rfl⟩
  mirrored d target hd := by
    have room := (ha.buffer hs).group.count_le
    rcases hd with rfl | rfl
    · exact ⟨_, yields_of_grant hs (Derivation.grant_duplicate live) room target, rfl, rfl⟩
    · exact ⟨_, yields_of_grant hs (Derivation.grant_readOnlyView live) room target, rfl, rfl⟩
  whole target hroot := by
    obtain ⟨s, hstorage, hg⟩ := Derivation.grant_whole (ha.buffer hs) live hroot
    exact ⟨s, _, hstorage, yields_of_grant hs hg (ha.buffer hs).group.count_le target, rfl⟩
  root target hroot := run_of_same_run hs (Derivation.run_whole_of_root hroot) target
  retaining d r target hr := retaining_form ha hs live hr target
  taking r d n target hr hne := taking_form ha hs live hr hne

end Laws

/-- Every derivation of a live handle makes the window that its form says, adds the one reference that
its form retains, or none, and takes from its source by skipping; what would leave the window, take
more than is readable or retain beyond the range of the count fails and changes nothing. So the bytes
of a slice at the end of a chain are those of the first handle behind all the starts together, and
they are so whatever is done as long as both keep their names, where both windows show them. -/
theorem Reachable.derivations_compose {name : String} {b : Buffer} (h : a.Reachable)
    (hb : a.buffer name = .ok b) (live : 0 < b.group.count) :
    a.Composes name b ∧
    ∀ c part starts reach, Sliced name c part starts reach →
      ∃ r p, c.buffer name = .ok r ∧ c.buffer part = .ok p ∧
        p.handle.offset = r.handle.offset + starts.sum ∧
        starts.sum + p.handle.capacity ≤ reach ∧
        (0 < r.group.count → ∀ j n, j + n ≤ p.handle.capacity →
          starts.sum + j + n ≤ r.handle.capacity →
            ∃ bytes, p.read j n = .ok bytes ∧ r.read (starts.sum + j) n = .ok bytes) := by
  obtain ⟨m, e, q, hs, rfl⟩ := seat_of_buffer h.valid hb
  refine ⟨composes h.valid hs live, fun c part starts reach hsliced => ?_⟩
  obtain ⟨reachable, r, p, hr, hp, hinside⟩ := hsliced.inside
  exact reachable.valid.read_inside hr hp hinside

def uncut : Arena :=
  after {} [.make (.allocate 8 16) "root", .change "root" (.append [1, 2, 3, 4, 5, 6])]

def firstCut : Command := .derive "root" (.slice (.within 1 5)) "part"

def secondCut : Command := .derive "part" (.retainedSlice (.within 2 3)) "inner"

def pieced : Arena :=
  after uncut [firstCut, secondCut, .change "root" (.changeCapacity 16),
    .change "root" (.setBytes 4 [40])]

theorem reachable_uncut : uncut.Reachable := ⟨_, _, by decide, rfl⟩

theorem sliced_pieced : Sliced "root" pieced "inner" [1, 2] 8 := by
  obtain ⟨b, hb, hcapacity⟩ : ∃ b, uncut.buffer "root" = .ok b ∧ b.handle.capacity = 8 := ⟨_, rfl, rfl⟩
  obtain ⟨c, hc⟩ : ∃ c, (after uncut [firstCut]).buffer "part" = .ok c := ⟨_, rfl⟩
  have hpart : Sliced "root" (after uncut [firstCut]) "part" [1] 8 := by
    rw [← hcapacity]
    exact .first (d := .slice (.within 1 5)) reachable_uncut hb rfl (by decide) rfl
  have hinner : Sliced "root" (after uncut [firstCut, secondCut]) "inner" ([1] ++ [2]) 8 :=
    .next (d := .retainedSlice (.within 2 3)) hpart hc rfl (by decide) rfl
  have hgrown : Sliced "root" (after uncut [firstCut, secondCut,
      .change "root" (.changeCapacity 16)]) "inner" [1, 2] 8 :=
    hinner.kept trivial (.inl List.not_mem_nil) (.inl List.not_mem_nil)
  exact hgrown.kept trivial (.inl List.not_mem_nil) (.inl List.not_mem_nil)

/-- The second byte of the inner part is the fifth of the buffer, which is the new one. -/
theorem derivations_compose_pieced :
    (∃ k, uncut.Yields "root" (.slice (.within 1 5)) "part" k 0 0 ∧ k.frame = ⟨1, 5, 0, 5⟩) ∧
    ∃ r p, pieced.buffer "root" = .ok r ∧ pieced.buffer "inner" = .ok p ∧
      r.handle.capacity = 16 ∧ p.handle.offset = 3 ∧ p.handle.capacity = 3 ∧
      p.read 1 1 = .ok [40] ∧ r.read 4 1 = .ok [40] := by
  obtain ⟨b, hb, live, hcapacity, hoffset⟩ : ∃ b, uncut.buffer "root" = .ok b ∧ 0 < b.group.count ∧
      b.handle.capacity = 8 ∧ b.handle.offset = 0 := ⟨_, rfl, by decide, rfl, rfl⟩
  obtain ⟨hcomposes, hchains⟩ := reachable_uncut.derivations_compose hb live
  refine ⟨?_, ?_⟩
  · have hslice := hcomposes.slice 1 5 "part"
    rw [hcapacity, if_pos (by decide), hoffset] at hslice
    exact hslice
  · obtain ⟨r, p, hr, hp, hcount, hroot, hoffset, hpart, hread⟩ : ∃ r p,
        pieced.buffer "root" = .ok r ∧ pieced.buffer "inner" = .ok p ∧ r.group.count = 2 ∧
          r.handle.capacity = 16 ∧ p.handle.offset = 3 ∧ p.handle.capacity = 3 ∧
          p.read 1 1 = .ok [40] := ⟨_, _, rfl, rfl, rfl, rfl, rfl, rfl, rfl⟩
    obtain ⟨r', p', hr', hp', -, -, hbytes⟩ := hchains _ _ _ _ sliced_pieced
    obtain rfl : r = r' := Except.ok.inj (hr.symm.trans hr')
    obtain rfl : p = p' := Except.ok.inj (hp.symm.trans hp')
    obtain ⟨bytes, hinner, houter⟩ := hbytes (hcount ▸ by decide) 1 1 (hpart ▸ by decide)
      (hroot ▸ by decide)
    obtain rfl : bytes = [40] := Except.ok.inj (hinner.symm.trans hread)
    exact ⟨r, p, hr, hp, hroot, hoffset, hpart, hread, houter⟩

def saturated : Arena :=
  after {} [.make (.allocate 4 8) "root", .change "root" (.retain (Word.largest - 1))]

def blank : Arena := after {} [.make (.allocate 4 8) "root"]

/-- With the count at its greatest value a duplicate is made, but none that retains first. And what
retains and takes does nothing where too little is readable, while a slice that retains can be made
there: to skip then comes too late for the count. -/
theorem retaining_forms_part :
    saturated.Reachable ∧
    ((Command.derive "root" .duplicate "view").run saturated).result = .ok .done ∧
    (Command.derive "root" .retainedDuplicate "view").run saturated =
      ⟨.error (.fault (.retainOverflow Word.largest 1)), saturated, []⟩ ∧
    blank.Reachable ∧
    (Command.derive "root" (.takeRetainedSlice 2) "view").run blank =
      ⟨.error (.fault (.notReadable 0 2 0)), blank, []⟩ ∧
    (replies blank [.derive "root" (.retainedSlice (.within 0 2)) "view",
      .change "root" (.skip 2)]).map Prod.fst = [.ok .done, .error (.fault (.notReadable 0 2 0))] ∧
    (after blank [.derive "root" (.retainedSlice (.within 0 2)) "view",
      .change "root" (.skip 2)]).references 0 = blank.references 0 + 1 :=
  ⟨⟨_, _, by decide, rfl⟩, rfl, rfl, ⟨_, _, by decide, rfl⟩, rfl, rfl, rfl⟩

end Arena

end SharedBuffer
