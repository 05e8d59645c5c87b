import SharedBuffer.Proofs.Serving

/-!
The readable region of a handle as a queue of bytes. Writes at the writer index join it at the back,
reads at the reader index take from the front, a smaller capacity cuts it off, and whatever makes
room, moves bytes or replaces the storage leaves it alone. Main statement: a run of such changes is
answered throughout as by a queue, and what each change leaves is what the next one finds.
-/

namespace SharedBuffer

namespace Change

/-- The changes at the indexes, as requests to a queue. A scalar without a form in bytes is never
written. -/
def request? : Change → Option Queue.Request
  | .append data => some (.push data)
  | .appendZero n => some (.push (Bytes.zeros n))
  | .writeScalar value =>
    match value.bytes with
    | .ok bytes => some (.push bytes)
    | .error f => some (.invalid f)
  | .writeString text charset => some (.push (charset.encode text))
  | .writeLine text => some (.push (Charset.utf8.encode text ++ [10]))
  | .consume n | .skip n | .readString n _ => some (.pop n)
  | .readScalar type => some (.pop type.width)
  | .changeCapacity n => some (.truncate n)
  | .clear => some .clear
  | .reserve n => some (.room n)
  | .tryReserve _ | .compact | .compactLazily => some .arrange
  | .setAutoExpand _ | .markReader | .markWriter => some .note
  | _ => none

def asked (h : Handle) : Change → Nat
  | .append data => data.length
  | .appendZero n | .reserve n | .tryReserve n => n
  | .writeScalar value => (Buffer.bytesOf value).length
  | .writeString text charset =>
    Buffer.encodedRoom (charset.worstLength text) (charset.encode text).length h
  | .writeLine text =>
    Buffer.encodedRoom (Word.addSaturating (Charset.utf8.worstLength text) 1)
      (Charset.utf8.encode text ++ [10]).length h
  | _ => 0

def reach (h : Handle) : Change → Nat
  | .changeCapacity n => n
  | c => h.fitted (c.asked h)

def Tells (q : Bytes) : Change → Answer → Prop
  | .consume n, v => v = .bytes (q.take n)
  | .readString n charset, v => v = .text (charset.decode (q.take n))
  | .readScalar type, v => v = .scalar (type.read (q.take type.width))
  | .writeString text charset, v => v = .number (charset.encode text).length
  | .writeLine text, v => v = .number (Charset.utf8.encode text ++ [10]).length
  | .tryReserve _, v => ∃ r, v = .reservation r
  | _, v => v = .done

end Change

namespace Queue

/-- A change is answered as by the queue `q` behind the handle of the buffer, which it leaves as the last
argument says. -/
inductive Answers (b : Buffer) (q : Bytes) (c : Change) : Except Failure Answer → Bytes → Prop
  | served {r : Request} {v : Answer} (asks : c.request? = some r) (granted : r.Granted b.handle q)
      (told : c.Tells q v) : Answers b q c (.ok v) (r.next b.handle q)
  | failed {r : Request} {f : Fault} (asks : c.request? = some r)
      (fails : r.Fails b q (c.reach b.handle) f) : Answers b q c (.error (.fault f)) q

end Queue

open Queue (Answers Request)

namespace Buffer

variable {b : Buffer} {α β : Type} {r : Request} {reach : Nat} {told : α → Prop}

def Fulfils (y : Action Failure Buffer Answer) (r : Request) (reach : Nat) (told : Answer → Prop)
    (b : Buffer) : Prop :=
  (y b).Meets
    (fun v c _ => r.Granted b.handle b.unread ∧ told v ∧ c.unread = r.next b.handle b.unread)
    fun x c _ => ∃ f, x = .fault f ∧ r.Fails b b.unread reach f ∧ c.unread = b.unread

theorem Serves.answer {x : Action Fault Buffer α} (h : Serves x r reach told b) {f : α → Answer}
    {told' : Answer → Prop} (hf : ∀ v, told v → told' (f v)) :
    Fulfils (f <$> Arena.lift x) r reach told' b := by
  refine Action.meets_map (Action.meets_mapError (h.mono ?_ ?_))
  · rintro v c log ⟨hgranted, htold, hnext⟩
    exact ⟨hgranted, hf v htold, hnext⟩
  · rintro f c log ⟨hfails, hunread⟩
    exact ⟨f, rfl, hfails, hunread⟩

theorem Serves.done {x : Action Fault Buffer α} (h : Serves x r reach told b) :
    Fulfils (Arena.lift x >>= fun _ => pure Answer.done) r reach (· = .done) b :=
  h.answer fun _ _ => rfl

theorem Serves.decoded {x : Action Fault Buffer α} (h : Serves x r reach told b) {g : α → β}
    {f : β → Answer} {told' : Answer → Prop} (hf : ∀ v, told v → told' (f (g v))) :
    Fulfils (f <$> Arena.lift (x >>= fun v => pure (g v))) r reach told' b := by
  have hmapped : Serves (g <$> x) r reach (fun w => told' (f w)) b :=
    Action.meets_map (h.imp fun v _ _ hv => ⟨hv.1, hf v hv.2.1, hv.2.2⟩)
  exact hmapped.answer fun _ hw => hw

end Buffer

namespace Change

variable {b : Buffer}

theorem setting_meets {f : Buffer → Buffer} (h : (f b).unread = b.unread) (reach : Nat) :
    Buffer.Fulfils (Action.modify f >>= fun _ => pure Answer.done) .note reach (· = .done) b :=
  ⟨trivial, rfl, h⟩

/-- Every change at the indexes meets the request that it is, or fails as the request may. -/
theorem run_meets_request (hb : b.Valid) (live : 0 < b.group.count) {c : Change} (hc : c.Fits)
    {r : Request} (hr : c.request? = some r) :
    Buffer.Fulfils c.run r (c.reach b.handle) (c.Tells b.unread) b := by
  cases c with
  | append data => cases hr; exact (Buffer.append_serves hb live data).done
  | appendZero n =>
    cases hr
    have happend := Buffer.append_serves hb live (Bytes.zeros n)
    rw [Bytes.length_zeros] at happend
    rw [run, Buffer.appendZero_eq]
    exact happend.done
  | writeScalar value =>
    simp only [request?] at hr
    cases hbytes : value.bytes with
    | ok bytes =>
      rw [hbytes] at hr
      cases hr
      have hlength : (Buffer.bytesOf value).length = bytes.length := by rw [Buffer.bytesOf, hbytes]
      have hwrites := Buffer.writeScalar_serves hb live hbytes
      rw [← hlength] at hwrites
      exact hwrites.done
    | error f =>
      rw [hbytes] at hr
      cases hr
      exact (Buffer.writeScalar_serves_invalid hbytes _).done
  | writeString text charset =>
    cases hr
    exact (Buffer.appendEncoded_serves hb live (charset.length_encode_le_worst hc)).answer
      fun _ hn => congrArg Answer.number hn
  | writeLine text =>
    cases hr
    exact (Buffer.appendEncoded_serves hb live (Charset.length_line_le_worst hc)).answer
      fun _ hn => congrArg Answer.number hn
  | consume n =>
    cases hr
    exact (Buffer.consume_serves hb live n _).answer fun _ hbytes => congrArg Answer.bytes hbytes
  | skip n => cases hr; exact (Buffer.skip_serves hb live n _).done
  | readString n charset =>
    cases hr
    exact (Buffer.consume_serves hb live n _).decoded fun _ hbytes =>
      congrArg (fun bs => Answer.text (charset.decode bs)) hbytes
  | readScalar type =>
    cases hr
    exact (Buffer.consume_serves hb live _ _).decoded fun _ hbytes =>
      congrArg (fun bs => Answer.scalar (type.read bs)) hbytes
  | changeCapacity n => cases hr; exact (Buffer.changeCapacity_serves hb live n).done
  | clear => cases hr; exact ⟨trivial, rfl, Buffer.unread_empty (Nat.sub_self 0)⟩
  | reserve n => cases hr; exact (Buffer.reserve_serves hb live n).done
  | tryReserve n =>
    cases hr
    exact (Buffer.tryReserve_serves hb live n).answer fun o _ => ⟨o, rfl⟩
  | compact => cases hr; exact (Buffer.compact_serves hb live _).done
  | compactLazily => cases hr; exact (Buffer.compactLazily_serves hb live _).done
  | setAutoExpand value => cases hr; exact setting_meets rfl _
  | markReader => cases hr; exact setting_meets rfl _
  | markWriter => cases hr; exact setting_meets rfl _
  | _ => cases hr

theorem answers_of_meets {c : Change} {r : Request} (hr : c.request? = some r)
    (h : Buffer.Fulfils c.run r (c.reach b.handle) (c.Tells b.unread) b) :
    Answers b b.unread c (c.run b).result (c.run b).state.unread := by
  rw [Buffer.Fulfils] at h
  generalize c.run b = o at h
  rcases o with ⟨x | v, d, log⟩
  · obtain ⟨f, rfl, hfails, hunread⟩ := h
    rw [hunread]
    exact .failed hr hfails
  · obtain ⟨hgranted, htold, hunread⟩ := h
    rw [hunread]
    exact .served hr hgranted htold

theorem lost_of_request {c : Change} {r : Request} (hr : c.request? = some r) : c.lost = 0 := by
  cases c with
  | release n => cases hr
  | _ => rfl

theorem run_live (hb : b.Valid) {c : Change} (hc : c.Fits) (hlost : c.lost = 0)
    (live : 0 < b.group.count) : 0 < (c.run b).state.group.count := by
  have hnone := (c.counts_effect b).2.trans hlost
  have hmeets := c.run_meets hb hc
  generalize c.run b = o at hmeets ⊢
  rcases o with ⟨f | v, d, log⟩
  · obtain ⟨written, hdoes⟩ := hmeets.does
    exact hdoes.live rfl live
  · exact hmeets.live hnone live

end Change

namespace Arena

open Table (find? put)

variable {a : Arena} {name : String} {m : Member} {e : Estate} {p : Pool} {b : Buffer}

inductive Queues (name : String) : Arena → Bytes → List Change → Prop
  | done {a b q} (held : a.buffer name = .ok b) (content : b.content = .ok q) : Queues name a q []
  | step {a b q c q' cs} (held : a.buffer name = .ok b) (content : b.content = .ok q)
      (answers : Answers b q c ((Command.change name c).run a).result q')
      (rest : Queues name ((Command.change name c).run a).state q' cs) : Queues name a q (c :: cs)

theorem Reachable.queue_step (h : a.Reachable) (hb : a.buffer name = .ok b) (live : 0 < b.group.count)
    {c : Change} (hc : c.Fits) {r : Request} (hr : c.request? = some r) :
    ∃ d, ((Command.change name c).run a).state.buffer name = .ok d ∧ 0 < d.group.count ∧
      Answers b b.unread c ((Command.change name c).run a).result d.unread := by
  obtain ⟨m, e, p, hs, rfl⟩ := seat_of_buffer h.valid hb
  have hv := h.valid.buffer hs
  have hrun : (Command.change name c).run a = _ := onBuffer_of_seat hs c.run
  have hlive := Change.run_live hv hc (Change.lost_of_request hr) live
  rw [hrun]
  have hd := buffer_of_seat (seat_settle hs (c.run (a.bufferOf name m e p)).state)
  exact ⟨_, hd, hlive, Change.answers_of_meets hr (Change.run_meets_request hv live hc hr)⟩

/-- A handle that is not released is a queue of bytes to every run of changes at its indexes. A write
is done if the handle is not read-only and has or may get the room, a read if so many bytes are there.
What fails says why, which is that it is not one of these or that no storage can be had to grow into,
and leaves the queue as it was. -/
theorem Reachable.refines_queue (h : a.Reachable) (hb : a.buffer name = .ok b)
    (live : 0 < b.group.count) {cs : List Change} (hcs : ∀ c ∈ cs, c.Fits ∧ c.request?.isSome) :
    ∃ q, b.content = .ok q ∧ Queues name a q cs := by
  refine ⟨_, (h.valid.of_buffer hb).content_eq live, ?_⟩
  induction cs generalizing a b with
  | nil => exact .done hb ((h.valid.of_buffer hb).content_eq live)
  | cons c cs ih =>
    obtain ⟨hfits, hrequest⟩ := hcs c List.mem_cons_self
    obtain ⟨r, hr⟩ := Option.isSome_iff_exists.1 hrequest
    obtain ⟨d, hd, hlive, hanswers⟩ := h.queue_step hb live hfits hr
    have hrest := ih (h.run (c := .change name c) hfits) hd hlive
      fun d hd => hcs d (List.mem_cons_of_mem _ hd)
    exact .step hb ((h.valid.of_buffer hb).content_eq live) hanswers hrest

def fresh : Arena := after {} [.make (.allocate 4 12) "queue"]

def traffic : List Change :=
  [.append [1, 2, 3, 4, 5, 6], .consume 4, .writeScalar (.int .u16 .little 0x0807), .compact,
    .appendZero 20, .changeCapacity 3, .skip 4, .writeLine ['h', 'i'], .readScalar (.int .u24 .big),
    .compactLazily, .clear]

theorem refines_queue_traffic : Queues "queue" fresh [] traffic := by
  have hreach : fresh.Reachable := ⟨_, _, by decide, rfl⟩
  have hb : fresh.buffer "queue" = .ok ⟨.root 4 12 0 true, .holding ⟨.heap, [0, 0, 0, 0], 12⟩,
      (Pool.lend .heap 4 12 (.plain {})).state, false⟩ := rfl
  have hrequests : ∀ c ∈ traffic, c.Fits ∧ c.request?.isSome := by decide
  obtain ⟨q, hq, hrun⟩ := hreach.refines_queue hb (by decide) hrequests
  have hempty : q = [] := (Except.ok.inj hq).symm
  rwa [hempty] at hrun

def frozen : Arena :=
  after {} [.make (.allocate 4 8) "root", .change "root" (.append [1]),
    .derive "root" .readOnlyView "view", .drop "root"]

/-- Room alone does not make a write succeed: the only handle of a group may be read-only. -/
theorem frozen_takes_nothing :
    frozen.Reachable ∧ ∃ b, frozen.buffer "view" = .ok b ∧ b.shared = false ∧ 0 < b.group.count ∧
      (∀ n ≤ b.handle.maxCapacity,
        Storage.checkKind b.pool.system b.group.kind n = .ok ()) ∧ ([7] : Bytes).length ≤ b.handle.writable ∧
      ((Command.change "view" (.append [7])).run frozen).result = .error (.fault .readOnly) :=
  ⟨⟨_, _, by decide, rfl⟩, _, rfl, rfl, by decide,
    fun _ hn => Storage.checkKind_heap (Nat.le_trans hn (by decide)), by decide, rfl⟩

end Arena

end SharedBuffer
