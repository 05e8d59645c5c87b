import SharedBuffer.Proofs.Chunking

/-!
Loading from a source, whatever it does. Main statement: where room for the bytes can be made, loading
appends the first of what the source has, as many as were wanted, and takes no more; it fails only if
the source breaks before, and keeps what has come until then. Neither the sizes in which the bytes come
nor the interruptions between them matter.
-/

namespace SharedBuffer

namespace Buffer

variable {σ : Type} {b c d : Buffer} {n : Nat} {chunks : List Bytes} {log : List Event}

theorem Widened.forM_append (h : b.Widened n d) (hb : b.Ready n) (hlen : chunks.flatten.length ≤ n) :
    ∃ c, chunks.forM Buffer.append d = ⟨.ok (), c, []⟩ ∧
      b.Lengthened (b.handle.fitted n) chunks.flatten c := by
  have hsome := h.ready hb hlen
  have hfits := Nat.le_trans hlen (h.fits hb)
  have henough := hb.takes.writer_le_fitted hb.valid.handle
  have hroom : d.handle.cursor.writer + chunks.flatten.length ≤ d.handle.capacity := by
    rw [h.handle]
    change b.handle.writer + chunks.flatten.length ≤ b.handle.fitted n
    omega
  obtain ⟨c, log, hc, hlong⟩ := hsome.forM_append fun _ hm => affords_of_fits hfits hm
  obtain ⟨c', hquiet, -⟩ := forM_append_of_room chunks hsome.valid hsome.live hsome.writable hroom
  cases hc.symm.trans hquiet
  rw [Handle.fitted_of_fits hfits] at hlong
  exact ⟨c, hquiet, h.lengthened hb.valid hlong⟩

/-- How a transfer of `n` bytes from the source ends. What comes is what `deliver` says that the source
brings when it is asked block by block, which are the first of its bytes. -/
structure Loads (r : Stream.Reader σ) (n : Nat) (s : σ) (capacity : Nat) (log : List Event) (b : Buffer)
    (o : Outcome (Broken × σ) Buffer (Transferred × σ)) : Prop where
  appended : b.Lengthened capacity (Stream.deliver r n s).bytes o.state
  events : o.events = log
  requests : Stream.Requests n (Stream.deliver r n s).requests
  first : ∀ content close, Stream.Delivers r s content close →
    (n ≤ content.length ∨ close ≠ none) → (Stream.deliver r n s).First r n content close
  complete : (Stream.deliver r n s).failure = none →
    o.result = .ok (⟨(Stream.deliver r n s).bytes.length, (Stream.deliver r n s).asked,
      (Stream.deliver r n s).bytes⟩, (Stream.deliver r n s).rest)
  broken : ∀ reason, (Stream.deliver r n s).failure = some reason → ∃ f : Fault,
    f.kind? = some .io ∧ f.cause? = some reason ∧
      o.result = .error (⟨f, (Stream.deliver r n s).asked, (Stream.deliver r n s).bytes⟩,
        (Stream.deliver r n s).rest)

theorem loads_of_loaded {capacity : Nat} {r : Stream.Reader σ} {s : σ}
    (h : b.Lengthened capacity (Stream.deliver r n s).bytes c) :
    Loads r n s capacity log b ⟨loaded (Stream.deliver r n s), c, log⟩ where
  appended := h
  events := rfl
  requests := Stream.requests_deliver r n s
  first _ _ hdelivers hknown := Stream.first_deliver r n s hdelivers hknown
  complete hnone := by rw [loaded, hnone]
  broken reason hsome := ⟨.stream reason, rfl, rfl, by rw [loaded, hsome]⟩

theorem Ready.loads (hb : b.Ready n) (h : Buffer.reserve n b = ⟨.ok (), d, log⟩)
    (r : Stream.Reader σ) (s : σ) : Loads r n s d.handle.capacity log b (loadLength n r s b) := by
  obtain ⟨d', log', hd, hwide⟩ := hb.reserve
  cases hd.symm.trans h
  have hlen := Stream.length_deliver_le r n s
  rw [← Stream.Delivery.flatten_pieces] at hlen
  obtain ⟨c, hc, hlong⟩ := hwide.forM_append hb hlen
  rw [Stream.Delivery.flatten_pieces] at hlong
  have hload : loadLength n r s b = ⟨loaded (Stream.deliver r n s), c, log⟩ := by
    rw [loadLength, Action.bind_of_ok (Action.mapError_of_ok h _), loadUpTo_of_forM r n s hc,
      List.append_nil]
  have hcapacity : d.handle.capacity = b.handle.fitted n := by rw [hwide.handle]
  rw [hload, hcapacity]
  exact loads_of_loaded hlong

theorem load_eq_loadLength (hmut : b.checkMutable = .ok ()) (r : Stream.Reader σ) (s : σ) :
    load r s b = loadLength b.handle.writable r s b := by
  have hfits := reserve_of_fits hmut (Nat.le_refl b.handle.writable)
  simp only [load, loadLength]
  rw [Action.current_bind, Action.bind_of_ok (Action.mapError_of_ok (Action.ask_of_ok hmut) _),
    Action.bind_of_ok (Action.mapError_of_ok hfits _)]

end Buffer

namespace Arena

variable {σ : Type} {a : Arena} {name : String} {b : Buffer}

/-- Whatever a source does, what is loaded from it are its first bytes, in the room that is made for
them beforehand. A source that ends or breaks early is reported, and what has come is kept. -/
theorem Reachable.loads_first_bytes (h : a.Reachable) (hb : a.buffer name = .ok b)
    (live : 0 < b.group.count) (hopen : b.handle.readOnly = false) (r : Stream.Reader σ) (s : σ) :
    (∀ n d log, Buffer.reserve n b = ⟨.ok (), d, log⟩ →
      Buffer.Loads r n s d.handle.capacity log b (Buffer.loadLength n r s b)) ∧
      Buffer.Loads r b.handle.writable s b.handle.capacity [] b (Buffer.load r s b) := by
  have hbv := h.valid.of_buffer hb
  obtain ⟨hp, hgranted⟩ := h.buffer_orderly hb
  have hall : ∀ n d log, Buffer.reserve n b = ⟨.ok (), d, log⟩ →
      Buffer.Loads r n s d.handle.capacity log b (Buffer.loadLength n r s b) := by
    intro n d log hreserve
    exact (Buffer.ready_of_reserve hbv hp hgranted hreserve).loads hreserve r s
  have hmut := (Buffer.checkMutable_eq_ok_iff b).2 ⟨live, hopen⟩
  refine ⟨hall, ?_⟩
  rw [Buffer.load_eq_loadLength hmut]
  exact hall _ _ _ (Buffer.reserve_of_fits hmut (Nat.le_refl _))

def faltering : List Stream.Supply :=
  [.chunk [1], .interrupted, .chunk [2], .broken "connection reset"]

theorem loads_first_bytes_faltering :
    let o := Buffer.loadLength 3 Stream.Source.reader (.ofScript faltering) bareRoot
    o.state.handle.writer = 2 ∧ o.state.read 0 2 = .ok [1, 2] ∧
      ∃ f : Fault, f.kind? = some .io ∧ f.cause? = some "connection reset" ∧
        ∃ asked rest, o.result = .error (⟨f, asked, [1, 2]⟩, rest) := by
  intro o
  have hreach : bare.Reachable := ⟨_, _, by decide, rfl⟩
  have hb : bare.buffer "root" = .ok bareRoot := rfl
  have hready : bareRoot.Ready 3 :=
    ⟨hreach.valid.of_buffer hb, by decide, rfl, .inr ⟨rfl, by decide, by decide⟩,
      affords_bareRoot 3 (by decide) rfl⟩
  obtain ⟨d, log, hreserve, -⟩ := hready.reserve
  have hloads := (hreach.loads_first_bytes hb (by decide) rfl Stream.Source.reader
    (.ofScript faltering)).1 3 d log hreserve
  have hfirst := hloads.first _ _ (Stream.delivers_script faltering) (.inr nofun)
  have hbytes : (Stream.deliver Stream.Source.reader 3 (.ofScript faltering)).bytes = [1, 2] :=
    hfirst.bytes
  have hwriter : o.state.handle.writer = 2 := by
    rw [hloads.appended.handle, hbytes]
    rfl
  obtain ⟨f, hkind, hcause, hresult⟩ := hloads.broken "connection reset" hfirst.failure
  have hempty : bareRoot.read 0 bareRoot.handle.writer = .ok [] := rfl
  have hread := hloads.appended.read hempty
  rw [hbytes] at hread hresult
  rw [← hwriter]
  exact ⟨rfl, hread, f, hkind, hcause, _, _, hresult⟩

end Arena

end SharedBuffer
