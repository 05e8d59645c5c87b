import SharedBuffer.Proofs.Chunking
import SharedBuffer.Proofs.Lines

/-!
A buffer as a stream. Main statement: a write fills exactly the room that there is or that can be made,
takes no more, and does not fail; reads hand out the readable bytes in order, and the first that brings
nothing comes when all have been handed out.
-/

namespace SharedBuffer

namespace Buffer

variable {b c d : Buffer} {n : Nat} {data : Bytes} {log : List Event}

theorem takes_of_le_room {h : Handle} (hv : h.Valid) (hn : n ≤ room h) : h.Takes n := by
  rw [room] at hn
  split at hn
  · next hexpand =>
    by_cases horigin : h.origin = .slice
    · have hfixed := hv.slice_fixed horigin
      rw [Handle.maxWritable, ← hfixed] at hn
      exact .inl hn
    · by_cases hfits : n ≤ h.writable
      · exact .inl hfits
      · simp only [Handle.maxWritable, Handle.writable] at hn hfits
        exact .inr ⟨hexpand, horigin, by omega⟩
  · exact .inl hn

theorem ready_of_affords (hb : b.Valid) (live : 0 < b.group.count) (hopen : b.handle.readOnly = false)
    (hn : n ≤ room b.handle) (hafford : b.Affords n) : b.Ready n :=
  ⟨hb, live, hopen, takes_of_le_room hb.handle hn, hafford live hopen⟩

theorem Ready.writeSome (h : b.Ready (min data.length (room b.handle))) :
    ∃ c log, writeSome data b = ⟨.ok (min data.length (room b.handle)), c, log⟩ ∧
      b.Lengthened (b.handle.fitted (min data.length (room b.handle)))
        (data.take (min data.length (room b.handle))) c := by
  rcases Nat.eq_zero_or_pos (min data.length (room b.handle)) with hzero | hpos
  · refine ⟨b, [], by rw [writeSome_of_idle hzero, hzero], ?_⟩
    rw [hzero, List.take_zero]
    exact lengthened_self h.valid h.live
  · have hlen : (data.take (min data.length (room b.handle))).length =
        min data.length (room b.handle) := List.length_take_of_le (Nat.min_le_left _ _)
    rw [writeSome_eq hpos]
    rw [← hlen] at h
    obtain ⟨c, log, hc, hlong⟩ := h.append
    rw [hlen] at hlong
    exact ⟨c, log ++ [], Action.bind_eq_ok (Action.mapError_of_ok hc _) rfl, hlong⟩

theorem Ready.writeAll (h : b.Ready (min data.length (room b.handle))) :
    ∃ c log, writeAll data b =
        ⟨if data.length ≤ room b.handle then .ok () else .error .nothingWritten, c, log⟩ ∧
      b.Lengthened (b.handle.fitted (min data.length (room b.handle)))
        (data.take (min data.length (room b.handle))) c := by
  obtain ⟨c, log, hc, hlong⟩ := h.writeSome
  by_cases hdata : data = []
  · have hlen : data.length = 0 := by rw [hdata]; rfl
    rw [hlen, Nat.zero_min] at hlong ⊢
    rw [hdata, writeAll_nil, if_pos (Nat.zero_le _)]
    exact ⟨b, [], rfl, lengthened_self h.valid h.live⟩
  have hmeets := writeSome_meets h.valid data
  rw [hc] at hmeets
  obtain ⟨-, ⟨hzero, hsame, -⟩ | ⟨hsome, happ⟩⟩ := hmeets
  · have hpos := List.length_pos_iff.2 hdata
    change c = b at hsame
    rw [hsame] at hlong
    rw [writeAll_of_idle hdata hzero, if_neg (by omega)]
    exact ⟨b, [], rfl, hlong⟩
  · rw [writeAll_eq hdata, Action.bind_of_ok hc, if_neg hsome, writeAll_rest h.valid rfl happ]
    exact ⟨_, _, rfl, hlong⟩

theorem readSome_eq (hb : b.Valid) (live : 0 < b.group.count) (n : Nat) :
    readSome n b = ⟨.ok (b.unread.take n),
      b.moveCursor (Cursor.advanceReader (min n b.handle.readable)), []⟩ := by
  have hpeek := peek_of_readable hb live (Nat.min_le_right n b.handle.readable)
  rw [← hb.length_unread live, ← List.take_take, List.take_length, hb.length_unread live] at hpeek
  simp only [readSome]
  rw [Action.current_bind]
  exact Action.mapError_of_ok (consume_of_peek hpeek) _

end Buffer

def dealt : List Nat → Bytes → List Bytes
  | [], _ => []
  | n :: ns, bytes => bytes.take n :: dealt ns (bytes.drop n)

theorem flatten_dealt (ns : List Nat) (bytes : Bytes) : (dealt ns bytes).flatten = bytes.take ns.sum := by
  induction ns generalizing bytes with
  | nil => rfl
  | cons n ns ih =>
    rw [dealt, List.flatten_cons, ih, List.sum_cons, List.take_add]

theorem flatten_dealt_of_nil {ns : List Nat} {bytes : Bytes} (hns : ∀ n ∈ ns, 0 < n)
    (h : [] ∈ dealt ns bytes) : (dealt ns bytes).flatten = bytes := by
  induction ns generalizing bytes with
  | nil => cases h
  | cons n ns ih =>
    obtain ⟨hn, hns⟩ := List.forall_mem_cons.1 hns
    rcases List.mem_cons.1 h with hnil | hlater
    · have hempty : bytes = [] := (List.take_eq_nil_iff.1 hnil.symm).resolve_left (Nat.ne_of_gt hn)
      rw [flatten_dealt, hempty, List.take_nil]
    · rw [dealt, List.flatten_cons, ih hns hlater, List.take_append_drop]

namespace Arena

variable {a : Arena} {name : String} {b c : Buffer} {data : Bytes} {log : List Event}

theorem run_change (ha : a.Valid) (hb : a.buffer name = .ok b) {x : Change}
    {r : Except Failure Answer} (h : x.run b = ⟨r, c, log⟩) (hshared : c.shared = b.shared) :
    ∃ a', (Command.change name x).run a = ⟨r, a', log⟩ ∧ a'.buffer name = .ok c := by
  obtain ⟨m, e, p, hs, rfl⟩ := seat_of_buffer ha hb
  have hrun : (Command.change name x).run a = _ := onBuffer_of_seat hs x.run
  rw [h] at hrun
  exact ⟨_, hrun, buffer_settle hs hshared⟩

def Writes (name : String) (b : Buffer) (n : Nat) (data : Bytes) (x : Except Failure Answer)
    (o : Outcome Failure Arena Answer) : Prop :=
  o.result = x ∧ ∃ c, o.state.buffer name = .ok c ∧
    b.Lengthened (b.handle.fitted n) (data.take n) c

def readSome (name : String) (n : Nat) : Command := .change name (.readSome n)

theorem Reachable.run_readSome (h : a.Reachable) (hb : a.buffer name = .ok b)
    (live : 0 < b.group.count) (n : Nat) :
    (readSome name n).run a =
      ⟨.ok (.bytes (b.unread.take n)), a.advanced name (min n b.handle.readable), []⟩ := by
  obtain ⟨m, e, p, hs, rfl⟩ := seat_of_buffer h.valid hb
  have hread := Buffer.readSome_eq (h.valid.buffer hs) live n
  have hchange : (Change.readSome n).run (a.bufferOf name m e p) =
      ⟨.ok (.bytes ((a.bufferOf name m e p).unread.take n)), _, []⟩ :=
    Action.map_of_ok _ (Action.mapError_of_ok hread _)
  have hrun : (readSome name n).run a = _ := onBuffer_of_seat hs (Change.readSome n).run
  rwa [hchange, settle_advanced hs] at hrun

theorem Reachable.buffer_advanced (h : a.Reachable) (hb : a.buffer name = .ok b)
    (live : 0 < b.group.count) (n : Nat) :
    ∃ c, (a.advanced name (min n b.handle.readable)).buffer name = .ok c ∧ 0 < c.group.count ∧
      c.unread = b.unread.drop n := by
  obtain ⟨m, e, p, hs, rfl⟩ := seat_of_buffer h.valid hb
  have hv := h.valid.buffer hs
  have hrest := Buffer.unread_advance hv live (Nat.min_le_right n (a.bufferOf name m e p).handle.readable)
  refine ⟨(a.bufferOf name m e p).moveCursor (Cursor.advanceReader _), ?_, live, hrest.trans ?_⟩
  · rw [← settle_advanced hs]
    exact buffer_settle hs rfl
  · rw [← hv.length_unread live]
    rcases Nat.le_total n (a.bufferOf name m e p).unread.length with hle | hge
    · rw [Nat.min_eq_left hle]
    · rw [Nat.min_eq_right hge, List.drop_length, List.drop_eq_nil_of_le hge]

theorem Reachable.replies_readSome (h : a.Reachable) (hb : a.buffer name = .ok b)
    (live : 0 < b.group.count) (ns : List Nat) :
    replies a (ns.map (readSome name)) =
      (dealt ns b.unread).map fun piece => (.ok (.bytes piece), []) := by
  induction ns generalizing a b with
  | nil => rfl
  | cons n ns ih =>
    have hrun := h.run_readSome hb live n
    have hreach : ((readSome name n).run a).state.Reachable := h.run trivial
    obtain ⟨c, hc, hlive, hrest⟩ := h.buffer_advanced hb live n
    rw [hrun] at hreach
    rw [List.map_cons, replies, hrun, ih hreach hc hlive, hrest]
    rfl

/-- A write takes what there is room for, and writing all succeeds if that is all; reads hand out the
readable bytes from the front, and bring nothing when there are none. -/
theorem Reachable.fills_room (h : a.Reachable) (hb : a.buffer name = .ok b)
    (live : 0 < b.group.count) :
    (b.handle.readOnly = false → ∀ (data : Bytes) (n : Nat),
      n = min data.length (Buffer.room b.handle) → b.Affords n →
        Writes name b n data (.ok (.number n)) ((Command.change name (.writeSome data)).run a) ∧
        Writes name b n data
          (if data.length ≤ Buffer.room b.handle then .ok .done else .error (.stream .nothingWritten))
          ((Command.change name (.writeAll data)).run a)) ∧
      (∀ n, (readSome name n).run a =
        ⟨.ok (.bytes (b.unread.take n)), a.advanced name (min n b.handle.readable), []⟩) ∧
      ∀ ns : List Nat, (∀ n ∈ ns, 0 < n) →
        ∃ pieces : List Bytes, replies a (ns.map (readSome name)) =
            pieces.map (fun piece => (.ok (.bytes piece), [])) ∧
          pieces.flatten <+: b.unread ∧ ([] ∈ pieces → pieces.flatten = b.unread) := by
  refine ⟨fun hopen data n hn hafford => ?_, h.run_readSome hb live, fun ns hns => ?_⟩
  · cases hn
    have hready := Buffer.ready_of_affords (h.valid.of_buffer hb) live hopen (Nat.min_le_right _ _)
      hafford
    obtain ⟨c, log, hc, hsome⟩ := hready.writeSome
    obtain ⟨d, more, hd, hall⟩ := hready.writeAll
    have hfirst : (Change.writeSome data).run b = ⟨.ok (.number _), c, log⟩ :=
      Action.map_of_ok _ (Action.mapError_of_ok hc _)
    have hsecond : (Change.writeAll data).run b = ⟨if data.length ≤ Buffer.room b.handle then .ok .done
        else .error (.stream .nothingWritten), d, more⟩ := by
      by_cases hfits : data.length ≤ Buffer.room b.handle
      · rw [if_pos hfits] at hd ⊢
        exact Action.map_of_ok (fun _ => Answer.done) (Action.mapError_of_ok hd _)
      · rw [if_neg hfits] at hd ⊢
        exact Action.bind_of_error (by rw [Action.mapError, hd])
    obtain ⟨a₁, hrun₁, hbuffer₁⟩ := run_change h.valid hb hfirst hsome.group.shared
    obtain ⟨a₂, hrun₂, hbuffer₂⟩ := run_change h.valid hb hsecond hall.group.shared
    rw [hrun₁, hrun₂]
    exact ⟨⟨rfl, c, hbuffer₁, hsome⟩, rfl, d, hbuffer₂, hall⟩
  · refine ⟨_, h.replies_readSome hb live ns, ?_, flatten_dealt_of_nil hns⟩
    rw [flatten_dealt]
    exact List.take_prefix _ _

theorem fills_room_pinched :
    ∃ b c d, pinched.buffer "root" = .ok b ∧ Buffer.room b.handle = 8 ∧
      ((Command.change "root" (.writeSome [1, 2, 3])).run pinched).result = .ok (.number 3) ∧
      ((Command.change "root" (.writeSome [1, 2, 3])).run pinched).state.buffer "root" = .ok c ∧
      c.read 0 5 = .ok [1, 2, 1, 2, 3] ∧
      ((Command.change "root" (.writeAll (List.replicate 9 7))).run pinched).result =
        .error (.stream .nothingWritten) ∧
      ((Command.change "root" (.writeAll (List.replicate 9 7))).run pinched).state.buffer "root" = .ok d ∧
      d.read 0 10 = .ok ([1, 2] ++ List.replicate 8 7) := by
  obtain ⟨hwrites, -⟩ := reachable_pinched.fills_room buffer_pinched (by decide)
  obtain ⟨⟨hfirst, c, hc, hshort⟩, -⟩ := hwrites rfl [1, 2, 3] 3 rfl (affords_pinched 3)
  obtain ⟨-, hsecond, d, hd, hlong⟩ := hwrites rfl (List.replicate 9 7) 8 rfl (affords_pinched 8)
  refine ⟨_, c, d, buffer_pinched, rfl, hfirst, hc, ?_, hsecond, hd, ?_⟩
  · have hread := hshort.read rfl
    rw [hshort.handle] at hread
    exact hread
  · have hread := hlong.read rfl
    rw [hlong.handle] at hread
    exact hread

end Arena

end SharedBuffer
