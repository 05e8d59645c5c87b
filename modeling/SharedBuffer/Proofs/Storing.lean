import SharedBuffer.Proofs.Loading
import SharedBuffer.Proofs.Uptake

/-!
Storing to a sink, whatever it does. Main statement: what the sink takes are the first of the readable
bytes, each once and in order, and the reader is behind them whether the sink takes all, takes no more
or breaks. What a sink has kept of a buffer gives the same readable bytes when it is loaded again.
-/

namespace SharedBuffer

namespace Buffer

variable {σ τ : Type} {b c d : Buffer} {n : Nat} {data : Bytes}

theorem nextBlock_eq (hb : b.Valid) (live : 0 < b.group.count) :
    b.nextBlock = .ok (b.unread.take Stream.blockSize) := by
  have hpeek := peek_of_readable hb live (Nat.min_le_left b.handle.readable Stream.blockSize)
  have hread := (peek_eq_ok hpeek).2
  rw [← hb.length_unread live, Nat.min_comm, ← List.take_take, List.take_length] at hread
  rw [nextBlock, ← hb.length_unread live, Nat.min_comm]
  exact hread

def stored (offers : List Stream.Offer) (t : τ) : Except (Fault × τ) (Nat × τ) :=
  match Stream.failure offers with
  | some reason => .error (.stream reason, t)
  | none => .ok ((Stream.taken offers).length, t)

theorem further_stored {offers : List Stream.Offer} {t : τ} {o : Stream.Offer} {log : List Event}
    (h : o.response = .took n) (hlen : o.taken.length = n) :
    further n ⟨stored offers t, c, log⟩ = ⟨stored (o :: offers) t, c, log⟩ := by
  obtain ⟨bytes, response⟩ := o
  cases h
  have hfailure : Stream.failure (⟨bytes, .took n⟩ :: offers) = Stream.failure offers := rfl
  rw [further, stored, stored, hfailure, Stream.taken_cons, List.length_append, hlen]
  cases Stream.failure offers <;> rfl

theorem storeRest_offers (w : Stream.Writer σ) (s : σ) (hb : b.Valid) (live : 0 < b.group.count)
    (honest : w.Honest s) :
    ∃ offers left t, w.Hears s offers t ∧ Stream.Offers b.unread offers left ∧
      storeRest w s b =
        ⟨stored offers t, b.moveCursor (Cursor.advanceReader (Stream.taken offers).length), []⟩ := by
  have hsome {b : Buffer} (hb : b.Valid) (live : 0 < b.group.count)
      (hreadable : ¬b.handle.readable = 0) : b.unread ≠ [] := by
    rw [← hb.length_unread live] at hreadable
    exact mt List.length_eq_zero_iff.2 hreadable
  fun_induction storeRest w s b with
  | case1 s b hnone =>
    refine ⟨[], [], s, .nil, ?_, rfl⟩
    rw [unread_empty hnone]
    exact .exhausted
  | case2 s b hreadable f hblock => cases hblock.symm.trans (nextBlock_eq hb live)
  | case3 s b hreadable offer hblock t hw ih =>
    cases hblock.symm.trans (nextBlock_eq hb live)
    obtain ⟨offers, left, u, hhears, hoffers, hstore⟩ := ih hb live (honest.next hw)
    exact ⟨_, left, u, .cons hw hhears, .again (hsome hb live hreadable) hoffers, hstore⟩
  | case4 s b hreadable offer hblock reason t hw =>
    cases hblock.symm.trans (nextBlock_eq hb live)
    exact ⟨_, _, t, .cons hw .nil, .broken (hsome hb live hreadable), rfl⟩
  | case5 s b hreadable offer hblock t hw =>
    cases hblock.symm.trans (nextBlock_eq hb live)
    exact ⟨_, _, t, .cons hw .nil, .declined (hsome hb live hreadable), rfl⟩
  -- An honest sink takes no more than is readable, so that the skip does not fail.
  | case6 s b hreadable offer hblock n t hw hn f hs =>
    cases hblock.symm.trans (nextBlock_eq hb live)
    have hfits : n ≤ (b.unread.take Stream.blockSize).length := honest.count_le hw
    have hle : n ≤ b.handle.cursor.readable := by
      rw [List.length_take, hb.length_unread live] at hfits
      exact Nat.le_trans hfits (Nat.min_le_right _ _)
    cases (skip_of_le live hle).symm.trans hs
  | case7 s b hreadable offer hblock n t hw hn c hs ih =>
    cases hblock.symm.trans (nextBlock_eq hb live)
    have hfits : n ≤ (b.unread.take Stream.blockSize).length := honest.count_le hw
    obtain ⟨-, hle, rfl⟩ := skip_eq_ok hs
    have hmoved := (course_seek (hb.handle.cursor.advanceReader hle)).valid hb
    obtain ⟨offers, left, u, hhears, hoffers, hstore⟩ := ih hmoved live (honest.next hw)
    rw [unread_advance hb live hle] at hoffers
    have hfirst := Stream.Offers.taken_block hfits
    have hlen : (Stream.Offer.taken ⟨b.unread.take Stream.blockSize, .took n⟩).length = n := by
      rw [hfirst, List.length_take, hb.length_unread live]
      exact Nat.min_eq_left hle
    refine ⟨_, left, u, .cons hw hhears,
      .onward (hsome hb live hreadable) (Nat.pos_of_ne_zero hn) hfits hoffers, ?_⟩
    rw [hstore, further_stored rfl hlen, advance_advance, Stream.taken_cons, List.length_append, hlen]

structure Stores (w : Stream.Writer σ) (s : σ) (b : Buffer) (offers : List Stream.Offer) (t : σ)
    (o : Outcome (Fault × σ) Buffer (Nat × σ)) : Prop where
  hears : w.Hears s offers t
  offered : ∀ before offer after, offers = before ++ offer :: after →
    offer.bytes = (b.unread.drop (Stream.taken before).length).take Stream.blockSize ∧
      0 < offer.bytes.length ∧ offer.bytes.length ≤ Stream.blockSize
  starts : Stream.taken offers <+: b.unread
  state : o.state = b.moveCursor (Cursor.advanceReader (Stream.taken offers).length)
  rest : o.state.content = .ok (b.unread.drop (Stream.taken offers).length)
  events : o.events = []
  ended : Stream.taken offers = b.unread ∨ Stream.Declined offers ∨
    ∃ reason, Stream.failure offers = some reason
  complete : Stream.taken offers = b.unread ∨ Stream.Declined offers →
    o.result = .ok ((Stream.taken offers).length, t)
  broken : ∀ reason, Stream.failure offers = some reason → ∃ f : Fault,
    f.kind? = some .io ∧ f.cause? = some reason ∧ o.result = .error (f, t)

theorem storeTo_stores (w : Stream.Writer σ) (s : σ) (hb : b.Valid) (live : 0 < b.group.count)
    (honest : w.Honest s) : ∃ offers t, b.Stores w s offers t (storeTo w s b) := by
  obtain ⟨offers, left, t, hhears, hoffers, hstore⟩ := storeRest_offers w s hb live honest
  have hall := hoffers.taken_append
  have hleft : left = b.unread.drop (Stream.taken offers).length := by rw [← hall, List.drop_left]
  have hnone : Stream.taken offers = b.unread → left = [] := by
    intro heq
    rw [hleft, heq, List.drop_length]
  have hle : (Stream.taken offers).length ≤ b.handle.readable := by
    rw [← hb.length_unread live, ← hall, List.length_append]
    exact Nat.le_add_right _ _
  have hmoved := (course_seek (hb.handle.cursor.advanceReader hle)).valid hb
  rw [storeTo_eq live, hstore]
  refine ⟨offers, t, hhears, ?_, ⟨left, hall⟩, rfl, ?_, rfl, ?_, ?_, ?_⟩
  · intro before offer after heq
    rw [heq] at hoffers
    exact hoffers.bytes_eq
  · rw [← unread_advance hb live hle]
    exact hmoved.content_eq live
  · refine hoffers.ended.imp_left fun hnil => ?_
    rw [← hall, hnil, List.append_nil]
  · intro hend
    rw [stored, hoffers.failure_eq_none (hend.imp_left hnone)]
  · intro reason hreason
    exact ⟨.stream reason, rfl, rfl, by rw [stored, hreason]⟩

structure Refilled (bytes : Bytes) (o : Outcome (Broken × τ) Buffer (Transferred × τ)) : Prop where
  result : ∃ asked rest, o.result = .ok (⟨bytes.length, asked, bytes⟩, rest)
  content : o.state.content = .ok bytes

theorem Loads.refilled {r : Stream.Reader τ} {s : τ} {capacity : Nat} {log : List Event}
    {o : Outcome (Broken × τ) Buffer (Transferred × τ)} (h : Loads r n s capacity log c o)
    (hc : c.Valid) (live : 0 < c.group.count) (hempty : c.handle.readable = 0)
    (hdelivers : Stream.Delivers r s data (some .ended)) (hle : data.length ≤ n) :
    Refilled data o := by
  have hfirst := h.first data _ hdelivers (.inr nofun)
  have hbytes : (Stream.deliver r n s).bytes = data :=
    hfirst.bytes.trans (List.take_of_length_le hle)
  have hunread := h.appended.unread hc
  rw [unread_empty hempty, hbytes, List.nil_append] at hunread
  have hresult := h.complete (by rw [hfirst.failure]; exact ite_self _)
  rw [hbytes] at hresult
  refine ⟨⟨_, _, hresult⟩, ?_⟩
  · rw [h.appended.valid.content_eq (by rw [h.appended.group.count]; exact live), hunread]

end Buffer

namespace Arena

variable {σ : Type} {a : Arena} {name : String} {b : Buffer}

/-- Whatever an honest sink does, what it takes are the first readable bytes, once each, and no others
leave the buffer. If it took them all and kept them, an empty buffer with room that is loaded with
what it has kept holds them again. -/
theorem Reachable.stores_once_in_order (h : a.Reachable) (hb : a.buffer name = .ok b)
    (live : 0 < b.group.count) (w : Stream.Writer σ) (s : σ) (honest : w.Honest s) :
    ∃ offers t, b.Stores w s offers t (Buffer.storeTo w s b) ∧
      ∀ kept, w.Keeps kept s → kept s = [] → Stream.taken offers = b.unread →
        ∀ {τ : Type} (r : Stream.Reader τ) (u : τ), Stream.Delivers r u (kept t) (some .ended) →
          ∀ (a' : Arena) other c, a'.Reachable → a'.buffer other = .ok c → 0 < c.group.count →
            c.handle.readOnly = false → c.handle.readable = 0 →
            (b.unread.length ≤ c.handle.writable → Buffer.Refilled b.unread (Buffer.load r u c)) ∧
              ∀ d log, Buffer.reserve b.unread.length c = ⟨.ok (), d, log⟩ →
                Buffer.Refilled b.unread (Buffer.loadLength b.unread.length r u c) := by
  obtain ⟨offers, t, hstores⟩ := Buffer.storeTo_stores w s (h.valid.of_buffer hb) live honest
  refine ⟨offers, t, hstores, ?_⟩
  intro kept hkeeps hnil hall τ r u hdelivers a' other c ha' hc clive hopen hempty
  rw [hkeeps offers t hstores.hears, hnil, List.nil_append, hall] at hdelivers
  have hcv := ha'.valid.of_buffer hc
  obtain ⟨hp, hgranted⟩ := ha'.buffer_orderly hc
  have hmut := (Buffer.checkMutable_eq_ok_iff c).2 ⟨clive, hopen⟩
  have hloads : ∀ n d log, Buffer.reserve n c = ⟨.ok (), d, log⟩ →
      Buffer.Loads r n u d.handle.capacity log c (Buffer.loadLength n r u c) :=
    fun n d log hreserve =>
      (Buffer.ready_of_reserve hcv hp hgranted hreserve).loads hreserve r u
  constructor
  · intro hroom
    rw [Buffer.load_eq_loadLength hmut]
    exact (hloads _ _ _ (Buffer.reserve_of_fits hmut (Nat.le_refl _))).refilled hcv clive hempty
      hdelivers hroom
  · intro d log hreserve
    exact (hloads _ _ _ hreserve).refilled hcv clive hempty hdelivers (Nat.le_refl _)

def hesitant : List Stream.Acceptance := [.upTo 2, .interrupted, .upTo 1, .broken "disk full"]

def stocked : Arena := after {} [.make (.adopt [1, 2, 3, 4]) "root"]

def stockedRoot : Buffer :=
  ⟨.root 4 defaultMaxCapacity 4 true, .holding ⟨.heap, [1, 2, 3, 4], defaultMaxCapacity⟩, .plain {}, false⟩

theorem stores_once_in_order_hesitant :
    ∃ offers t, stockedRoot.Stores Stream.Sink.writer (.ofScript hesitant) offers t
        (Buffer.storeTo Stream.Sink.writer (.ofScript hesitant) stockedRoot) ∧
      Stream.taken offers = [1, 2, 3] := by
  have hreach : stocked.Reachable := ⟨_, _, by decide, rfl⟩
  have hb : stocked.buffer "root" = .ok stockedRoot := rfl
  have honest : Stream.Sink.writer.Honest (.ofScript hesitant) :=
    fun offers t hhears => (Stream.Sink.faithful hhears (by simp [Stream.Sink.ofScript, hesitant])).1
  obtain ⟨offers, t, hstores, -⟩ := hreach.stores_once_in_order hb (by decide) _ _ honest
  refine ⟨offers, t, hstores, ?_⟩
  have hreader : (Buffer.storeTo Stream.Sink.writer (.ofScript hesitant) stockedRoot).state.handle.reader =
      3 := by cbv
  have hlen : (Stream.taken offers).length = 3 := by
    rw [hstores.state] at hreader
    exact (Nat.zero_add _).symm.trans hreader
  have hunread : stockedRoot.unread = [1, 2, 3, 4] := rfl
  rw [List.prefix_iff_eq_take.1 hstores.starts, hlen, hunread]
  rfl

example : (Buffer.store hesitant stockedRoot).result =
    .error ⟨.stream "disk full", [4, 2, 2, 1], [1, 2, 3]⟩ := by cbv

end Arena

end SharedBuffer
