import SharedBuffer.Proofs.Contents
import SharedBuffer.Proofs.Refusal
import SharedBuffer.Proofs.Scalars

/-!
Scalars through a buffer. What one write leaves to be read is what was there, followed by the bytes of
the scalar, wherever the storage had to grow; one read takes the bytes of its scalar from the front
and leaves the rest. Main statement: a sequence of scalars that a handle accepts is read back in
order, to the last byte; and a scalar set at an index is got from there, with all other bytes as they
were.
-/

namespace SharedBuffer

structure Trip where
  written : Scalar
  type : ScalarType
  back : Scalar
  sound : written.ReadAs type back

namespace Trip

def bytes (t : Trip) : Bytes := Buffer.bytesOf t.written

theorem length_bytes (t : Trip) : t.bytes.length = t.type.width := t.sound.length

theorem read_bytes (t : Trip) : t.type.read t.bytes = t.back := t.sound.read t.sound.laid

def write (name : String) (t : Trip) : Command := .change name (.writeScalar t.written)

def read (name : String) (t : Trip) : Command := .change name (.readScalar t.type)

def set (name : String) (index : Nat) (t : Trip) : Command := .change name (.setScalar index t.written)

def get (name : String) (index : Nat) (t : Trip) : Command := .ask name (.getScalar t.type index)

end Trip

namespace Buffer

variable {b c : Buffer} {t : Trip} {rest : Bytes}

theorem writeScalar_meets (hb : b.Valid) (t : Trip) :
    (writeScalar t.written b).Meets
      (fun _ c log => b.Appended t.bytes c log ∧ c.unread = b.unread ++ t.bytes) fun _ _ _ => True := by
  have hask := Action.ask_bind_of_ok (g := fun _ => t.written.bytes) (f := append) (s := b) t.sound.laid
  rw [writeScalar, hask]
  exact ((append_meets hb t.bytes).and (append_unread hb t.bytes)).imp_error fun _ _ _ _ => trivial

theorem readScalar_of_unread (hb : b.Valid) (live : 0 < b.group.count)
    (hunread : b.unread = t.bytes ++ rest) :
    readScalar t.type b = ⟨.ok t.back, b.moveCursor (Cursor.advanceReader t.bytes.length), []⟩ ∧
      (b.moveCursor (Cursor.advanceReader t.bytes.length)).unread = rest := by
  have hlength := hb.length_unread live
  rw [hunread, List.length_append] at hlength
  have hle : t.bytes.length ≤ b.handle.readable := by omega
  have hpeek := peek_of_readable hb live hle
  rw [hunread, List.take_left, t.length_bytes] at hpeek
  refine ⟨?_, ?_⟩
  · rw [readScalar, Action.bind_of_ok (consume_of_peek hpeek), t.read_bytes, t.length_bytes]
    rfl
  · rw [unread_advance hb live hle, hunread, List.drop_left]

section Place

variable {s : Storage} {index : Nat}

theorem setScalar_of_le (hb : b.Valid) (hopen : b.handle.readOnly = false)
    (hs : b.group.storage = some s) (hin : index + t.type.width ≤ b.handle.capacity) :
    b.setScalar index t.written = .ok (b.patch (b.handle.offset + index) t.bytes s) := by
  rw [← t.length_bytes] at hin
  have hwrite := hb.overwrite_of_le hopen hs hin t.bytes
  rw [List.take_length] at hwrite
  simp only [setScalar, t.sound.laid, bind, Except.bind]
  exact hwrite

theorem getScalar_patch (hb : b.Valid) (hs : b.group.storage = some s)
    (hin : index + t.type.width ≤ b.handle.capacity)
    (hc : (b.patch (b.handle.offset + index) t.bytes s).Valid) :
    (b.patch (b.handle.offset + index) t.bytes s).getScalar t.type index = .ok t.back := by
  rw [← t.length_bytes] at hin
  have hwindow := (hb.on hs).window_le
  have hfit : b.handle.offset + index + t.bytes.length ≤ s.bytes.length := by
    simp only [Storage.capacity] at hwindow
    omega
  have hread : (b.patch (b.handle.offset + index) t.bytes s).read index t.bytes.length = .ok t.bytes :=
    (hc.read_of_le rfl hin).trans (congrArg Except.ok (Bytes.window_splice hfit))
  rw [getScalar, ← t.length_bytes, hread]
  exact congrArg Except.ok t.read_bytes

end Place

end Buffer

namespace Arena

open Table (find?)

variable {a : Arena} {name : String} {b : Buffer} {m : Member} {e : Estate} {p : Pool} {t : Trip}
  {index : Nat}

section Stream

theorem Reachable.write_step (h : a.Reachable) (hb : a.buffer name = .ok b) (t : Trip)
    (hok : ((t.write name).run a).result = .ok .done) :
    ∃ c, ((t.write name).run a).state.buffer name = .ok c ∧ 0 < c.group.count ∧
      c.unread = b.unread ++ t.bytes ∧ c.handle.cursor = b.handle.cursor.advanceWriter t.bytes.length := by
  obtain ⟨m, e, p, hs, rfl⟩ := seat_of_buffer h.valid hb
  have hrun : (t.write name).run a = _ := onBuffer_of_seat hs (Change.writeScalar t.written).run
  have hmeets : ((Change.writeScalar t.written).run (a.bufferOf name m e p)).Meets
      (fun _ c log => (a.bufferOf name m e p).Appended t.bytes c log ∧
        c.unread = (a.bufferOf name m e p).unread ++ t.bytes) fun _ _ _ => True :=
    Action.meets_then_pure (Action.meets_mapError (Buffer.writeScalar_meets (h.valid.buffer hs) t))
  rw [hrun] at hok ⊢
  obtain ⟨happended, hunread⟩ := hmeets.of_ok hok
  exact ⟨_, buffer_of_seat (seat_settle hs _), happended.does.live rfl happended.live, hunread,
    happended.cursor⟩

theorem Reachable.read_step (h : a.Reachable) (hb : a.buffer name = .ok b) (live : 0 < b.group.count)
    {rest : Bytes} (hunread : b.unread = t.bytes ++ rest) :
    ((t.read name).run a).result = .ok (.scalar t.back) ∧
      ((t.read name).run a).state.buffer name =
        .ok (b.moveCursor (Cursor.advanceReader t.bytes.length)) ∧
      (b.moveCursor (Cursor.advanceReader t.bytes.length)).unread = rest := by
  obtain ⟨m, e, p, hs, rfl⟩ := seat_of_buffer h.valid hb
  obtain ⟨hread, hrest⟩ := Buffer.readScalar_of_unread (h.valid.buffer hs) live hunread
  have hchange : (Change.readScalar t.type).run (a.bufferOf name m e p) =
      ⟨.ok (.scalar t.back),
        (a.bufferOf name m e p).moveCursor (Cursor.advanceReader t.bytes.length), []⟩ :=
    Action.bind_of_ok (lift_of_ok hread)
  have hrun : (t.read name).run a = _ := onBuffer_of_seat hs (Change.readScalar t.type).run
  rw [hrun, hchange]
  exact ⟨rfl, buffer_settle hs rfl, hrest⟩

theorem Reachable.write_run (h : a.Reachable) (hb : a.buffer name = .ok b) (live : 0 < b.group.count)
    {trips : List Trip} (hok : ∀ r ∈ replies a (trips.map (Trip.write name)), r.1 = .ok .done) :
    (after a (trips.map (Trip.write name))).Reachable ∧
      ∃ c, (after a (trips.map (Trip.write name))).buffer name = .ok c ∧ 0 < c.group.count ∧
        c.unread = b.unread ++ trips.flatMap Trip.bytes ∧
        c.handle.cursor = b.handle.cursor.advanceWriter (trips.flatMap Trip.bytes).length := by
  induction trips generalizing a b with
  | nil => exact ⟨h, b, hb, live, (List.append_nil _).symm, rfl⟩
  | cons t trips ih =>
    obtain ⟨c, hc, hlive, hunread, hcursor⟩ := h.write_step hb t (hok _ List.mem_cons_self)
    have hnext : ((t.write name).run a).state.Reachable := h.run trivial
    obtain ⟨hreach, d, hd, hdlive, hall, hmoved⟩ :=
      ih hnext hc hlive fun r hr => hok r (List.mem_cons_of_mem _ hr)
    refine ⟨hreach, d, hd, hdlive, ?_, ?_⟩
    · rw [hall, hunread, List.append_assoc, List.flatMap_cons]
    · rw [hmoved, hcursor, List.flatMap_cons, List.length_append]
      simp only [Cursor.advanceWriter, Nat.add_assoc]

theorem Reachable.read_run (h : a.Reachable) (hb : a.buffer name = .ok b) (live : 0 < b.group.count)
    {trips : List Trip} {rest : Bytes} (hunread : b.unread = trips.flatMap Trip.bytes ++ rest) :
    (replies a (trips.map (Trip.read name))).map Prod.fst = trips.map (fun t => .ok (.scalar t.back)) ∧
      (after a (trips.map (Trip.read name))).Reachable ∧
      (after a (trips.map (Trip.read name))).buffer name =
        .ok (b.moveCursor (Cursor.advanceReader (trips.flatMap Trip.bytes).length)) ∧
      (b.moveCursor (Cursor.advanceReader (trips.flatMap Trip.bytes).length)).unread = rest := by
  induction trips generalizing a b with
  | nil => exact ⟨rfl, h, hb, hunread⟩
  | cons t trips ih =>
    rw [List.flatMap_cons, List.append_assoc] at hunread
    obtain ⟨hresult, hc, hrest⟩ := h.read_step hb live hunread
    have hnext : ((t.read name).run a).state.Reachable := h.run trivial
    obtain ⟨hresults, hreach, hd, hlast⟩ := ih hnext hc live hrest
    have hmoved : (b.moveCursor (Cursor.advanceReader t.bytes.length)).moveCursor
        (Cursor.advanceReader (trips.flatMap Trip.bytes).length) =
        b.moveCursor (Cursor.advanceReader ((t :: trips).flatMap Trip.bytes).length) := by
      rw [List.flatMap_cons, List.length_append]
      simp only [Buffer.moveCursor, Handle.moveCursor, Cursor.advanceReader, Nat.add_assoc]
    rw [hmoved] at hd hlast
    exact ⟨List.cons_eq_cons.2 ⟨hresult, hresults⟩, hreach, hd, hlast⟩

end Stream

section Place

structure Overwritten (name : String) (index : Nat) (data : Bytes) (a a' : Arena) : Prop where
  place : ∃ m e s t, find? name a.buffers = some m ∧ a.groups[m.group]? = some e ∧
    e.group.storage = some s ∧ t = { s with bytes := t.bytes } ∧
    (∀ j, t.bytes[j]? =
      if m.handle.offset + index ≤ j ∧ j < m.handle.offset + index + data.length then
        data[j - (m.handle.offset + index)]?
      else s.bytes[j]?) ∧
    a' = { a with groups := a.groups.set m.group { e with group.storage := some t } }

theorem settle_patch (hs : a.Seat name m e p) (start : Nat) (data : Bytes) (s : Storage) :
    a.settle name m e.pool ((a.bufferOf name m e p).patch start data s) =
      { a with
        groups := a.groups.set m.group
          { e with group.storage := some { s with bytes := s.bytes.splice start data } } } := by
  have hpools : a.pools.set e.pool p = a.pools := set_of_getElem? hs.pool
  have hbuffers : Table.put name ⟨m.group, m.handle⟩ a.buffers = a.buffers := Table.put_of_find? hs.member
  simp only [settle, restore, bufferOf, Buffer.patch, Buffer.setStorage, hpools, hbuffers]

theorem overwritten_settle (ha : a.Valid) (hs : a.Seat name m e p) {s : Storage}
    (hstorage : e.group.storage = some s) {data : Bytes} (hin : index + data.length ≤ m.handle.capacity) :
    Overwritten name index data a
      (a.settle name m e.pool ((a.bufferOf name m e p).patch (m.handle.offset + index) data s)) := by
  have hwindow : m.handle.offset + m.handle.capacity ≤ s.capacity :=
    ((ha.buffer hs).on hstorage).window_le
  have hfit : m.handle.offset + index + data.length ≤ s.bytes.length := by
    simp only [Storage.capacity] at hwindow
    omega
  exact ⟨m, e, s, _, hs.member, hs.estate, hstorage, rfl, Bytes.getElem?_splice hfit,
    settle_patch hs _ data s⟩

theorem run_ask (hs : a.Seat name m e p) {q : Query} {v : Answer}
    (hv : q.answer (a.bufferOf name m e p) = .ok v) : (Command.ask name q).run a = ⟨.ok v, a, []⟩ :=
  onBuffer_ask_of_ok hs hv

theorem run_update (hs : a.Seat name m e p) {f : Buffer → Except Fault Buffer} {c : Change}
    (hc : c.run = Change.update f) (hb : f (a.bufferOf name m e p) = .ok b) :
    (Command.change name c).run a = ⟨.ok .done, a.settle name m e.pool b, []⟩ := by
  have hchange : Change.update f (a.bufferOf name m e p) = ⟨.ok .done, b, []⟩ :=
    Action.bind_of_ok (lift_of_ok (Action.update_of_ok hb))
  change onBuffer name c.run a = _
  rw [hc, onBuffer_of_seat hs, hchange]

theorem Reachable.set_step (h : a.Reachable) (hb : a.buffer name = .ok b) (live : 0 < b.group.count)
    (hopen : b.handle.readOnly = false) (t : Trip) (hin : index + t.type.width ≤ b.handle.capacity) :
    ∃ a', (t.set name index).run a = ⟨.ok .done, a', []⟩ ∧ Overwritten name index t.bytes a a' ∧
      (t.get name index).run a' = ⟨.ok (.scalar t.back), a', []⟩ := by
  obtain ⟨m, e, p, hs, rfl⟩ := seat_of_buffer h.valid hb
  have hv := h.valid.buffer hs
  obtain ⟨s, hstorage, -⟩ := hv.window live
  have hrun : (t.set name index).run a = _ :=
    run_update hs rfl (Buffer.setScalar_of_le hv hopen hstorage hin)
  have hnext : ((t.set name index).run a).state.Reachable := h.run trivial
  rw [hrun] at hnext
  refine ⟨_, hrun, overwritten_settle h.valid hs hstorage (t.length_bytes.symm ▸ hin), ?_⟩
  obtain ⟨m', e', p', hs', hsame⟩ := seat_of_buffer hnext.valid (buffer_settle hs rfl)
  have hget := Buffer.getScalar_patch hv hstorage hin (hsame ▸ hnext.valid.buffer hs')
  refine run_ask hs' ?_
  rw [← hsame]
  exact congrArg (Answer.scalar <$> ·) hget

theorem rejects_wide (hs : a.Seat name m e p) {c : Char} (hc : 0x10000 ≤ c.toNat) (index : Nat) :
    (Command.change name (.writeScalar (.char c))).run a = ⟨.error (.fault (.wideChar c)), a, []⟩ ∧
      (Command.change name (.setScalar index (.char c))).run a =
        ⟨.error (.fault (.wideChar c)), a, []⟩ := by
  have hbytes := Scalar.bytes_wide hc
  have hset : (a.bufferOf name m e p).setScalar index (.char c) = .error (.wideChar c) := by
    rw [Buffer.setScalar, hbytes]
    rfl
  have hwrite : (Buffer.writeScalar (.char c)).Rejects (a.bufferOf name m e p) (.wideChar c) :=
    (Action.rejects_ask (g := fun _ => (Scalar.char c).bytes) hbytes).bind _
  exact ⟨rejects_onBuffer hs ((Change.rejects_lift hwrite).bind _),
    rejects_onBuffer hs (Change.rejects_update_of_error hset)⟩

theorem get_surrogate (hs : a.Seat name m e p) {bs : Bytes} (hlow : 0xD800 ≤ bs.toNat)
    (hhigh : bs.toNat ≤ 0xDFFF) (hread : (a.bufferOf name m e p).read index 2 = .ok bs) :
    (Command.ask name (.getScalar .char index)).run a = ⟨.ok (.scalar (.char '\uFFFD')), a, []⟩ := by
  have hget : (a.bufferOf name m e p).getScalar .char index = .ok (.char '\uFFFD') := by
    rw [Buffer.getScalar, show ScalarType.char.width = 2 from rfl, hread]
    exact congrArg Except.ok (ScalarType.read_surrogate hlow hhigh)
  exact run_ask hs (congrArg (Answer.scalar <$> ·) hget)

theorem read_surrogate (hs : a.Seat name m e p) {bs : Bytes} (hlow : 0xD800 ≤ bs.toNat)
    (hhigh : bs.toNat ≤ 0xDFFF) (hpeek : (a.bufferOf name m e p).peek 2 = .ok bs) :
    ((Command.change name (.readScalar .char)).run a).result = .ok (.scalar (.char '\uFFFD')) := by
  have hrun := onBuffer_of_seat hs (Change.readScalar .char).run
  have hread : Buffer.readScalar .char (a.bufferOf name m e p) = ⟨.ok (ScalarType.char.read bs),
      (a.bufferOf name m e p).moveCursor (Cursor.advanceReader 2), []⟩ :=
    Action.bind_of_ok (Buffer.consume_of_peek hpeek)
  have hchange : (Change.readScalar .char).run (a.bufferOf name m e p) =
      ⟨.ok (.scalar (ScalarType.char.read bs)),
        (a.bufferOf name m e p).moveCursor (Cursor.advanceReader 2), []⟩ :=
    Action.bind_of_ok (lift_of_ok hread)
  rw [hchange, ScalarType.read_surrogate hlow hhigh] at hrun
  exact congrArg Outcome.result hrun

end Place

structure Recovers (name : String) (a : Arena) (b : Buffer) (trips : List Trip) : Prop where
  answers : (replies (after a (trips.map (Trip.write name))) (trips.map (Trip.read name))).map Prod.fst =
    trips.map fun t => .ok (.scalar t.back)
  bytes : ∃ full drained, (after a (trips.map (Trip.write name))).buffer name = .ok full ∧
    full.content = .ok (trips.flatMap Trip.bytes) ∧
    full.handle.cursor = b.handle.cursor.advanceWriter (trips.flatMap Trip.bytes).length ∧
    (after (after a (trips.map (Trip.write name))) (trips.map (Trip.read name))).buffer name =
      .ok drained ∧
    drained = full.moveCursor (Cursor.advanceReader (trips.flatMap Trip.bytes).length) ∧
    drained.content = .ok []

theorem Reachable.recovers (h : a.Reachable) (hb : a.buffer name = .ok b) (hempty : b.content = .ok [])
    {trips : List Trip} (hok : ∀ r ∈ replies a (trips.map (Trip.write name)), r.1 = .ok .done) :
    Recovers name a b trips := by
  have live : 0 < b.group.count := (Buffer.read_eq_ok hempty).1
  obtain ⟨hreach, full, hfull, hlive, hunread, hcursor⟩ := h.write_run hb live hok
  rw [Buffer.unread_of_content hempty, List.nil_append] at hunread
  have hwhole : full.unread = trips.flatMap Trip.bytes ++ [] := by rw [hunread, List.append_nil]
  obtain ⟨hanswers, hdone, hdrained, hrest⟩ := hreach.read_run hfull hlive hwhole
  refine ⟨hanswers, full, _, hfull, ?_, hcursor, hdrained, rfl, ?_⟩
  · rw [← hunread]
    exact (hreach.valid.of_buffer hfull).content_eq hlive
  · rw [← hrest]
    exact (hdone.valid.of_buffer hdrained).content_eq hlive

/-- Every sequence of scalars that an empty handle accepts is read back as it was written, and nothing
is left over. The same holds of a scalar that is set at an index, where it changes no byte but its own.
An integer of three bytes comes back as its low bits, signed or not. Characters of two units are refused
without a trace, and half of one is read as the replacement character. -/
theorem Reachable.scalars_round_trip (h : a.Reachable) (hb : a.buffer name = .ok b) :
    (b.content = .ok [] → ∀ trips : List Trip,
      (∀ r ∈ replies a (trips.map (Trip.write name)), r.1 = .ok .done) → Recovers name a b trips) ∧
    (0 < b.group.count → b.handle.readOnly = false → ∀ (t : Trip) (index : Nat),
      index + t.type.width ≤ b.handle.capacity →
      ∃ a', (t.set name index).run a = ⟨.ok .done, a', []⟩ ∧ Overwritten name index t.bytes a a' ∧
        (t.get name index).run a' = ⟨.ok (.scalar t.back), a', []⟩) ∧
    (∀ v : Int, v.bmod (2 ^ 24) = v ↔ -2 ^ 23 ≤ v ∧ v < 2 ^ 23) ∧
    (∀ type value single double,
      Buffer.bytesOf (.int type .little value) = (Buffer.bytesOf (.int type .big value)).reverse ∧
      Buffer.bytesOf (.float32 .little single) = (Buffer.bytesOf (.float32 .big single)).reverse ∧
      Buffer.bytesOf (.float64 .little double) = (Buffer.bytesOf (.float64 .big double)).reverse) ∧
    (∀ (c : Char) (index : Nat), 0x10000 ≤ c.toNat →
      (Command.change name (.writeScalar (.char c))).run a = ⟨.error (.fault (.wideChar c)), a, []⟩ ∧
      (Command.change name (.setScalar index (.char c))).run a =
        ⟨.error (.fault (.wideChar c)), a, []⟩) ∧
    ∀ bs : Bytes, 0xD800 ≤ bs.toNat → bs.toNat ≤ 0xDFFF →
      (∀ index, b.read index 2 = .ok bs →
        (Command.ask name (.getScalar .char index)).run a = ⟨.ok (.scalar (.char '\uFFFD')), a, []⟩) ∧
      (b.peek 2 = .ok bs →
        ((Command.change name (.readScalar .char)).run a).result = .ok (.scalar (.char '\uFFFD'))) := by
  obtain ⟨m, e, p, hs, hseat⟩ := seat_of_buffer h.valid hb
  refine ⟨fun hempty trips hok => h.recovers hb hempty hok,
    fun live hopen t index hin => h.set_step hb live hopen t hin, fun v => ?_,
    Scalar.bytesOf_little, fun c index hc => rejects_wide hs hc index, fun bs hlow hhigh => ?_⟩
  · have hsame := bmod_eq_self_iff (m := 2 ^ 24) (by omega) (by omega) (v := v)
    omega
  · rw [hseat]
    exact ⟨fun index hread => get_surrogate hs hlow hhigh hread,
      fun hpeek => read_surrogate hs hlow hhigh hpeek⟩

def emptied : Arena :=
  after {} [.make (.allocate 4 64) "stream", .change "stream" (.append [1, 2, 3]),
    .change "stream" (.consume 3)]

/-- One of each kind, which take eight times the room that there is; the last three write integers that
three bytes do not hold. -/
def mixed : List Trip :=
  [⟨.bool true, .bool, .bool true, .exact trivial⟩,
    ⟨.int .i8 .big (-5), .int .i8 .big, .int .i8 .big (-5), .exact (by decide)⟩,
    ⟨.char 'é', .char, .char 'é', .exact (by decide)⟩,
    ⟨.int .u16 .little 0xFEDC, .int .u16 .little, .int .u16 .little 0xFEDC, .exact (by decide)⟩,
    ⟨.int .i64 .little (-2), .int .i64 .little, .int .i64 .little (-2), .exact (by decide)⟩,
    ⟨.float32 .big 0x7FC00001, .float32 .big, .float32 .big 0x7FC00001, .exact trivial⟩,
    ⟨.float64 .little 1, .float64 .little, .float64 .little 1, .exact trivial⟩,
    ⟨.int .i24 .big 0xFFFFFF, .int .i24 .big, .int .i24 .big (-1), .medium (by decide)⟩,
    ⟨.int .i24 .little 0x1FFFFFF, .int .u24 .little, .int .u24 .little 0xFFFFFF,
      .unsignedMedium (by decide)⟩,
    ⟨.int .i24 .big 0x1800000, .int .i24 .big, .int .i24 .big (-0x800000), .medium (by decide)⟩]

def unsigned : Trip :=
  ⟨.int .i24 .little (-2), .int .u24 .little, .int .u24 .little 0xFFFFFE, .unsignedMedium (by decide)⟩

theorem scalars_round_trip_mixed :
    (replies (after emptied (mixed.map (Trip.write "stream")))
        (mixed.map (Trip.read "stream"))).map Prod.fst = mixed.map (fun t => .ok (.scalar t.back)) ∧
      (∃ a', (unsigned.set "stream" 1).run emptied = ⟨.ok .done, a', []⟩ ∧
        (unsigned.get "stream" 1).run a' = ⟨.ok (.scalar (.int .u24 .little 0xFFFFFE)), a', []⟩) ∧
      (Command.change "stream" (.writeScalar (.char '𝄞'))).run emptied =
        ⟨.error (.fault (.wideChar '𝄞')), emptied, []⟩ := by
  have hreach : emptied.Reachable := ⟨_, _, by decide, rfl⟩
  have hb : emptied.buffer "stream" = .ok ⟨⟨0, 4, 64, ⟨3, 3, 0, 0⟩, true, false, .root⟩,
      .holding ⟨.heap, [1, 2, 3, 0], 64⟩, (Pool.lend .heap 4 64 (.plain {})).state, false⟩ := rfl
  have haccepted : ∀ r ∈ replies emptied (mixed.map (Trip.write "stream")), r.1.toOption = some .done := by
    decide +kernel
  have hok : ∀ r ∈ replies emptied (mixed.map (Trip.write "stream")), r.1 = .ok .done := by
    intro r hr
    have hdone := haccepted r hr
    rcases r with ⟨f | v, log⟩
    · cases hdone
    · exact congrArg Except.ok (Option.some.inj hdone)
  obtain ⟨hstream, hplace, -, -, hwide, -⟩ := hreach.scalars_round_trip hb
  obtain ⟨a', hset, -, hget⟩ := hplace (by decide) rfl unsigned 1 (by decide)
  exact ⟨(hstream rfl mixed hok).answers, ⟨a', hset, hget⟩, (hwide '𝄞' 0 (by decide)).1⟩

end Arena

end SharedBuffer
