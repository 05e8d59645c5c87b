import SharedBuffer.Proofs.Agreement

/-!
What an append leaves, in full: the window has grown as far as it had to, the bytes stand behind those
that were there, and the writer index behind them. Main statements: an append succeeds and leaves just
this where the bytes are taken and the storage can be had; and it does not matter for the capacity
whether room is made at once or bit by bit.
-/

namespace SharedBuffer

namespace Handle

def fitted (n : Nat) (h : Handle) : Nat := if n ≤ h.writable then h.capacity else h.grown n

def lengthened (capacity n : Nat) (h : Handle) : Handle :=
  { h with capacity, cursor := h.cursor.advanceWriter n }

variable {h : Handle} {k m n : Nat}

theorem fitted_of_fits (hfits : n ≤ h.writable) : h.fitted n = h.capacity := if_pos hfits

theorem fitted_of_grows (hgrows : h.Grows n) : h.fitted n = h.grown n :=
  if_neg (Nat.not_le.2 hgrows.more)

theorem lengthened_lengthened (h : Handle) (k k' m n : Nat) :
    (h.lengthened k m).lengthened k' n = h.lengthened k' (m + n) := by
  simp only [lengthened, Cursor.advanceWriter, Nat.add_assoc]

theorem Takes.writer_le_fitted (hv : h.Valid) (ht : h.Takes n) : h.writer + n ≤ h.fitted n := by
  have hwriter := hv.cursor.writer_le
  rcases takes_iff.1 ht with hfits | hgrows
  · rw [fitted_of_fits hfits]
    simp only [writable, writer] at hfits hwriter ⊢
    omega
  · rw [fitted_of_grows hgrows]
    exact (hv.grown_bounds hgrows).1

theorem Takes.rest (ht : h.Takes (m + n)) : (h.lengthened (h.fitted m) m).Takes n := by
  rcases ht with hfits | ⟨hauto, hfree, hmax⟩
  · have hfirst : m ≤ h.writable := by omega
    refine .inl ?_
    rw [fitted_of_fits hfirst]
    simp only [writable, writer] at hfits
    simp only [lengthened, writable, writer, Cursor.advanceWriter]
    omega
  · refine .inr ⟨hauto, hfree, ?_⟩
    change h.writer + m + n ≤ h.maxCapacity
    rwa [Nat.add_assoc]

/-- Room for some bytes and then for more comes to the same capacity as room for all of them. -/
theorem Valid.fitted_lengthened (hv : h.Valid) (ht : h.Takes (m + n)) :
    (h.lengthened (h.fitted m) m).fitted n = h.fitted (m + n) := by
  have hwriter : h.writer ≤ h.capacity := hv.cursor.writer_le
  have hplace : h.writer + m + n = h.writer + (m + n) := Nat.add_assoc _ _ _
  have hnext : (h.lengthened (h.fitted m) m).fitted n =
      if n ≤ h.fitted m - (h.writer + m) then h.fitted m
      else min (Capacity.doubled (h.writer + m + n) (max (h.fitted m) 1)) h.maxCapacity := rfl
  rw [hnext, hplace]
  rcases takes_iff.1 (ht.mono (Nat.le_add_right m n)) with hfirst | hgrows
  · have hsame : n ≤ h.capacity - (h.writer + m) ↔ m + n ≤ h.writable := by
      simp only [writable] at hfirst ⊢
      omega
    rw [fitted_of_fits hfirst]
    exact ite_congr (propext hsame) (fun _ => rfl) (fun _ => rfl)
  · have hall : h.Grows (m + n) := (takes_iff.1 ht).resolve_left (by
      have := hgrows.more
      omega)
    have hsame : n ≤ h.grown m - (h.writer + m) ↔ h.writer + (m + n) ≤ h.grown m := by
      have := (hv.grown_bounds hgrows).1
      omega
    rw [fitted_of_grows hgrows, fitted_of_grows hall]
    refine (ite_congr (propext hsame) (fun _ => rfl) (fun _ => rfl)).trans ?_
    exact Capacity.bounded_bounded (Nat.add_le_add_left (Nat.le_add_right m n) _) hall.le_max
      (Nat.lt_of_lt_of_le Nat.zero_lt_one (Nat.le_max_right _ _))

end Handle

namespace Buffer

variable {b c d : Buffer} {s : Storage} {capacity n : Nat} {data more : Bytes}

structure SameGroup (b c : Buffer) : Prop where
  count : c.group.count = b.group.count
  kind : c.group.kind = b.group.kind
  shared : c.shared = b.shared
  system : c.pool.system = b.pool.system
  held : b.shared = true → ∀ s, b.group.storage = some s →
    ∃ t, c.group.storage = some t ∧ s.capacity ≤ t.capacity

theorem SameGroup.refl (b : Buffer) : b.SameGroup b :=
  ⟨rfl, rfl, rfl, rfl, fun _ s hs => ⟨s, hs, Nat.le_refl _⟩⟩

theorem SameGroup.trans (h : b.SameGroup c) (h' : c.SameGroup d) : b.SameGroup d where
  count := h'.count.trans h.count
  kind := h'.kind.trans h.kind
  shared := h'.shared.trans h.shared
  system := h'.system.trans h.system
  held hshared s hs := by
    obtain ⟨t, ht, hst⟩ := h.held hshared s hs
    obtain ⟨u, hu, htu⟩ := h'.held (h.shared.trans hshared) t ht
    exact ⟨u, hu, Nat.le_trans hst htu⟩

theorem SameGroup.houses (h : b.SameGroup c) (hn : b.Houses n) : c.Houses n := by
  rcases hn with ⟨hshared, s, hs, hle⟩ | hkind
  · obtain ⟨t, ht, hst⟩ := h.held hshared s hs
    exact .inl ⟨h.shared.trans hshared, t, ht, Nat.le_trans hle hst⟩
  · rw [← h.system, ← h.kind] at hkind
    exact .inr hkind

theorem Refitted.sameGroup (h : b.Refitted n s c) (hs : b.group.storage = some s)
    (hsystem : c.pool.system = b.pool.system) : b.SameGroup c where
  count := by rw [h.group]
  kind := by rw [h.group]
  shared := h.shared
  system := hsystem
  held hshared t ht := by
    cases hs.symm.trans ht
    refine ⟨s.refit (b.extent n s), by rw [h.group], ?_⟩
    rw [Storage.capacity_refit, extent, if_pos hshared]
    exact Nat.le_max_left _ _

structure Widened (n : Nat) (b c : Buffer) : Prop where
  handle : c.handle = { b.handle with capacity := b.handle.fitted n }
  group : b.SameGroup c
  valid : c.Valid
  retains : b.Retains b.handle.capacity c

structure Lengthened (capacity : Nat) (data : Bytes) (b c : Buffer) : Prop where
  handle : c.handle = b.handle.lengthened capacity data.length
  group : b.SameGroup c
  valid : c.Valid
  written : ∃ bytes, b.read 0 b.handle.writer = .ok bytes ∧
    c.read 0 c.handle.writer = .ok (bytes ++ data)

theorem lengthened_self (hb : b.Valid) (live : 0 < b.group.count) :
    b.Lengthened (b.handle.fitted 0) [] b := by
  rw [Handle.fitted_of_fits (Nat.zero_le _)]
  obtain ⟨s, hs, -⟩ := hb.window live
  have hwriter := writer_le hb
  have hread := hb.read_of_le hs (i := 0) (n := b.handle.writer) (by omega)
  refine ⟨rfl, .refl b, hb, _, hread, ?_⟩
  rw [List.append_nil]
  exact hread

theorem Lengthened.read {k : Nat} {old : Bytes} (h : b.Lengthened k data c)
    (hold : b.read 0 b.handle.writer = .ok old) :
    c.read 0 c.handle.writer = .ok (old ++ data) := by
  obtain ⟨bytes, hbytes, hall⟩ := h.written
  cases hbytes.symm.trans hold
  exact hall

theorem Valid.unread_eq_drop (hb : b.Valid) {bytes : Bytes}
    (h : b.read 0 b.handle.writer = .ok bytes) : b.unread = bytes.drop b.handle.reader := by
  obtain ⟨live, -, s, hs, -, rfl⟩ := read_eq_ok h
  rw [unread_eq hb hs, Bytes.drop_window, Nat.add_zero]
  rfl

theorem Lengthened.unread {k : Nat} (h : b.Lengthened k data c) (hb : b.Valid) :
    c.unread = b.unread ++ data := by
  obtain ⟨bytes, hbytes, hall⟩ := h.written
  have hreader : c.handle.reader = b.handle.reader := by rw [h.handle]; rfl
  have horder : b.handle.reader ≤ bytes.length := by
    rw [length_of_read hbytes]
    exact hb.handle.cursor.reader_le_writer
  rw [h.valid.unread_eq_drop hall, hb.unread_eq_drop hbytes, hreader,
    List.drop_append_of_le_length horder]

theorem Lengthened.trans {k k' : Nat} (h : b.Lengthened k data c) (h' : c.Lengthened k' more d) :
    b.Lengthened k' (data ++ more) d := by
  obtain ⟨bytes, hbytes, hfirst⟩ := h.written
  refine ⟨?_, h.group.trans h'.group, h'.valid, bytes, hbytes, ?_⟩
  · rw [h'.handle, h.handle, Handle.lengthened_lengthened, List.length_append]
  · rw [← List.append_assoc]
    exact h'.read hfirst

theorem lengthened_appended (hb : b.Valid) (hs : b.group.storage = some s)
    (hopen : b.handle.readOnly = false)
    (hroom : b.handle.cursor.writer + data.length ≤ b.handle.capacity) :
    b.Lengthened b.handle.capacity data (b.appended data s) := by
  have hafter := (course_appended hb hs hopen hroom).valid hb
  have hwindow := (hb.on hs).window_le
  have hfit : b.front + data.length ≤ s.bytes.length := by
    simp only [front]
    simp only [Storage.capacity] at hwindow
    omega
  have hold := hb.read_of_le hs (i := 0) (n := b.handle.writer) (by
    simp only [Handle.writer]
    omega)
  have hnew := hafter.read_of_le (s := { s with bytes := s.bytes.splice b.front data }) rfl (i := 0)
    (n := b.handle.writer + data.length) (by
      change 0 + (b.handle.cursor.writer + data.length) ≤ b.handle.capacity
      omega)
  have hgroup : b.SameGroup (b.appended data s) := by
    refine ⟨rfl, rfl, rfl, rfl, fun _ t ht => ?_⟩
    cases hs.symm.trans ht
    exact ⟨_, rfl, Nat.le_of_eq (Bytes.length_splice hfit).symm⟩
  refine ⟨rfl, hgroup, hafter, _, hold, hnew.trans ?_⟩
  have hplace : (b.appended data s).handle.offset + 0 + b.handle.writer = b.front := rfl
  rw [Bytes.window_add, hplace, Bytes.window_splice hfit,
    Bytes.window_splice_outside hfit (Or.inl (Nat.le_of_eq hplace))]
  rfl

theorem Widened.lengthened (hb : b.Valid) (h : b.Widened n c)
    (h' : c.Lengthened c.handle.capacity data d) :
    b.Lengthened (b.handle.fitted n) data d := by
  obtain ⟨bytes, hbytes, hall⟩ := h'.written
  have hsame : c.handle.writer = b.handle.writer := by rw [h.handle]; rfl
  have hwriter := writer_le hb
  rw [hsame, h.retains 0 b.handle.writer (by omega)] at hbytes
  refine ⟨?_, h.group.trans h'.group, h'.valid, bytes, hbytes, hall⟩
  rw [h'.handle, h.handle]
  rfl

/-- Room for `n` more bytes can be had: they are taken, and so is the storage to grow into. -/
structure Ready (n : Nat) (b : Buffer) : Prop where
  valid : b.Valid
  live : 0 < b.group.count
  writable : b.handle.readOnly = false
  takes : b.handle.Takes n
  housed : b.handle.Grows n → b.Houses (b.handle.grown n)

theorem Ready.first {m : Nat} (h : b.Ready (m + n)) (hafford : b.Affords m) : b.Ready m :=
  ⟨h.valid, h.live, h.writable, h.takes.mono (Nat.le_add_right m n), hafford h.live h.writable⟩

theorem Lengthened.fitted (hc : b.Lengthened (b.handle.fitted data.length) data c) (hb : b.Valid)
    (htakes : b.handle.Takes (data.length + n)) :
    c.handle.fitted n = b.handle.fitted (data.length + n) := by
  rw [hc.handle, hb.handle.fitted_lengthened htakes]

/-- The first bytes written, the rest grows into a storage that all of them would have grown into. -/
theorem Lengthened.houses (hc : b.Lengthened (b.handle.fitted data.length) data c) (hb : b.Valid)
    (htakes : b.handle.Takes (data.length + n))
    (hhoused : b.handle.Grows (data.length + n) → b.Houses (b.handle.grown (data.length + n)))
    (hgrows : c.handle.Grows n) : c.Houses (c.handle.grown n) := by
  have hfitted := hc.fitted hb htakes
  rw [Handle.fitted_of_grows hgrows] at hfitted
  rw [hfitted]
  rcases Handle.takes_iff.1 htakes with hfits | hall
  · have hroom : data.length ≤ b.handle.writable := by omega
    have hmore := hgrows.more
    rw [hc.handle, Handle.fitted_of_fits hroom] at hmore
    simp only [Handle.lengthened, Handle.writable, Handle.writer, Cursor.advanceWriter] at hfits hmore
    omega
  · rw [Handle.fitted_of_grows hall]
    exact hc.group.houses (hhoused hall)

theorem Ready.rest (h : b.Ready (data.length + n))
    (hc : b.Lengthened (b.handle.fitted data.length) data c) :
    c.Ready n ∧ c.handle.fitted n = b.handle.fitted (data.length + n) := by
  refine ⟨⟨hc.valid, ?_, ?_, ?_, hc.houses h.valid h.takes h.housed⟩, hc.fitted h.valid h.takes⟩
  · rw [hc.group.count]
    exact h.live
  · rw [hc.handle]
    exact h.writable
  · rw [hc.handle]
    exact h.takes.rest

theorem Ready.reserve (h : b.Ready n) : ∃ c log, reserve n b = ⟨.ok (), c, log⟩ ∧ b.Widened n c := by
  have hb := h.valid
  have hmut := (checkMutable_eq_ok_iff b).2 ⟨h.live, h.writable⟩
  rcases Handle.takes_iff.1 h.takes with hfits | hgrows
  · refine ⟨b, [], reserve_of_fits hmut hfits, ?_, .refl b, hb, fun _ _ _ => rfl⟩
    rw [Handle.fitted_of_fits hfits]
  · obtain ⟨s, hs, -⟩ := hb.window h.live
    have hfree := not_slice_of_canGrow hgrows.canGrow
    obtain ⟨-, hmax, hmore⟩ := hb.handle.grown_bounds hgrows
    have hmeets := (resize_refits hb hs hfree hmax).and (resize_retains hb hs hfree hmax)
    have hvalid := reserve_meets hb n
    rw [← reserve_of_grows hmut hb hgrows] at hmeets
    rcases ho : Buffer.reserve n b with ⟨f | ⟨⟩, c, log⟩
    · rw [ho] at hmeets
      exact absurd (h.housed hgrows) hmeets.1.1.2
    · rw [ho] at hmeets hvalid
      obtain ⟨hrefit, hhandle, hretains⟩ := hmeets
      rw [Nat.min_eq_left (Nat.le_of_lt hmore)] at hretains
      obtain ⟨back, -, hdoes⟩ := hvalid.does
      have hgroup := hrefit.sameGroup hs hdoes.serves.system
      refine ⟨c, log, rfl, ?_, hgroup, hdoes.valid hb, hretains⟩
      rw [hhandle, Handle.fitted_of_grows hgrows]

theorem Widened.append (h : b.Widened n c) (hb : b.Ready n) (hdata : data.length ≤ n) :
    ∃ d, c.appendInPlace data = .ok d ∧ Buffer.append data c = ⟨.ok (), d, []⟩ ∧
      b.Lengthened (b.handle.fitted n) data d := by
  obtain ⟨s, hs, -⟩ := h.valid.window (by rw [h.group.count]; exact hb.live)
  have hopen : c.handle.readOnly = false := by rw [h.handle]; exact hb.writable
  have henough := hb.takes.writer_le_fitted hb.valid.handle
  have hroom : c.handle.cursor.writer + data.length ≤ c.handle.capacity := by
    rw [h.handle]
    change b.handle.writer + data.length ≤ b.handle.fitted n
    omega
  exact ⟨_, appendInPlace_of_room h.valid hs hopen hroom, append_of_room h.valid hs hopen hroom,
    h.lengthened hb.valid (lengthened_appended h.valid hs hopen hroom)⟩

theorem Ready.append (h : b.Ready data.length) :
    ∃ c log, append data b = ⟨.ok (), c, log⟩ ∧
      b.Lengthened (b.handle.fitted data.length) data c := by
  obtain ⟨c, log, hreserve, hwide⟩ := h.reserve
  obtain ⟨d, hput, -, hlong⟩ := hwide.append h (Nat.le_refl data.length)
  exact ⟨d, log ++ [], Action.bind_eq_ok hreserve (Action.update_of_ok hput), hlong⟩

theorem ready_of_reserve {log : List Event} (hb : b.Valid) (hp : b.pool.Orderly)
    (hgranted : ∀ s, b.group.storage = some s → s.Granted b.pool.system)
    (h : reserve n b = ⟨.ok (), c, log⟩) : b.Ready n := by
  have hreserved := reserve_meets hb n
  rw [h] at hreserved
  have live := hreserved.live
  have hopen := hreserved.writable
  have hroom := reserve_roomier hb live hopen n
  rw [h] at hroom
  refine ⟨hb, live, hopen, hroom.2.1, fun hgrows => ?_⟩
  obtain ⟨s, hs, -⟩ := hb.window live
  rw [reserve_of_grows ((checkMutable_eq_ok_iff b).2 ⟨live, hopen⟩) hb hgrows] at h
  exact houses_of_resize hb hp hs (hgranted s hs) h

end Buffer

namespace Arena

variable {a : Arena} {name : String} {b c : Buffer}

theorem run_of_ok (ha : a.Valid) (hb : a.buffer name = .ok b) {α : Type} {x : Action Fault Buffer α}
    {v : α} {log : List Event} (h : x b = ⟨.ok v, c, log⟩) (hshared : c.shared = b.shared)
    (f : α → Answer) :
    ∃ a', onBuffer name (f <$> lift x) a = ⟨.ok (f v), a', log⟩ ∧ a'.buffer name = .ok c := by
  obtain ⟨m, e, p, hs, rfl⟩ := seat_of_buffer ha hb
  have hrun := onBuffer_map hs x f
  rw [h] at hrun
  exact ⟨_, hrun, buffer_settle hs hshared⟩

end Arena

end SharedBuffer
