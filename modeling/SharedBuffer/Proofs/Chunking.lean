import SharedBuffer.Proofs.Lengthening

/-!
Bytes written at once, chunk by chunk, and from a source that hands them out in chunks. Main statement:
where the bytes can be written at once, all three succeed and leave the same handle and the same
written bytes; where they cannot, the source is refused for the same cause, before any of it is read.
-/

namespace SharedBuffer

namespace Buffer

variable {b c d : Buffer} {n : Nat} {data : Bytes} {chunks : List Bytes} {f : Fault} {log : List Event}

theorem affords_rest (h : ∀ m ≤ data.length + n, b.Affords m) (hb : b.Ready (data.length + n))
    (hc : b.Lengthened (b.handle.fitted data.length) data c) : ∀ m ≤ n, c.Affords m := by
  intro m hm _ _
  have hle : data.length + m ≤ data.length + n := Nat.add_le_add_left hm _
  exact hc.houses hb.valid (hb.takes.mono hle) (h _ hle hb.live hb.writable)

theorem Ready.forM_append (h : b.Ready chunks.flatten.length)
    (hparts : ∀ m ≤ chunks.flatten.length, b.Affords m) :
    ∃ c log, chunks.forM Buffer.append b = ⟨.ok (), c, log⟩ ∧
      b.Lengthened (b.handle.fitted chunks.flatten.length) chunks.flatten c := by
  induction chunks generalizing b with
  | nil => exact ⟨b, [], rfl, lengthened_self h.valid h.live⟩
  | cons chunk chunks ih =>
    rw [List.flatten_cons, List.length_append] at h hparts ⊢
    obtain ⟨c, log, hc, hfirst⟩ := (h.first (hparts _ (Nat.le_add_right _ _))).append
    obtain ⟨hready, hfitted⟩ := h.rest hfirst
    obtain ⟨d, more, hd, hrest⟩ := ih hready (affords_rest hparts h hfirst)
    rw [hfitted] at hrest
    have hall : (Buffer.append chunk >>= fun _ => chunks.forM Buffer.append) b =
        ⟨.ok (), d, log ++ more⟩ := Action.bind_eq_ok hc hd
    exact ⟨d, log ++ more, hall, hfirst.trans hrest⟩

theorem Widened.fits (h : b.Widened n c) (hb : b.Ready n) : n ≤ c.handle.writable := by
  have henough := hb.takes.writer_le_fitted hb.valid.handle
  rw [h.handle]
  change n ≤ b.handle.fitted n - b.handle.writer
  omega

theorem Widened.ready {m : Nat} (h : b.Widened n c) (hb : b.Ready n) (hm : m ≤ n) : c.Ready m := by
  have hfits := Nat.le_trans hm (h.fits hb)
  refine ⟨h.valid, ?_, ?_, .inl hfits, fun hgrows => absurd hfits (Nat.not_le.2 hgrows.more)⟩
  · rw [h.group.count]
    exact hb.live
  · rw [h.handle]
    exact hb.writable

theorem affords_of_fits (h : n ≤ b.handle.writable) {m : Nat} (hm : m ≤ n) : b.Affords m :=
  affords_of_not_grows fun hgrows => absurd (Nat.le_trans hm h) (Nat.not_le.2 hgrows.more)

theorem Ready.appendAll (h : b.Ready chunks.flatten.length) :
    ∃ c log, appendAll chunks b = ⟨.ok chunks.flatten.length, c, log⟩ ∧
      b.Lengthened (b.handle.fitted chunks.flatten.length) chunks.flatten c := by
  obtain ⟨c, log, hreserve, hwide⟩ := h.reserve
  have hfits := hwide.fits h
  obtain ⟨d, more, hd, hlong⟩ :=
    (hwide.ready h (Nat.le_refl _)).forM_append fun _ hm => affords_of_fits hfits hm
  rw [Handle.fitted_of_fits hfits] at hlong
  exact ⟨d, log ++ more, Action.bind_eq_ok hreserve (Action.map_of_ok (fun _ => chunks.flatten.length) hd),
    hwide.lengthened h.valid hlong⟩

theorem reserve_of_append_error (hb : b.Valid) (h : append data b = ⟨.error f, c, log⟩) :
    reserve data.length b = ⟨.error f, c, log⟩ := by
  have hmeets := reserve_meets hb data.length
  rcases ho : reserve data.length b with ⟨g | ⟨⟩, d, more⟩
  · rw [append, Action.bind_of_error ho] at h
    exact h
  · rw [ho] at hmeets
    obtain ⟨s, hput, -⟩ := hmeets.ready hb (Nat.le_refl _)
    rw [append, Action.bind_of_ok ho, Action.update_of_ok hput] at h
    cases h

theorem ready_of_append {u : Unit} (hb : b.Valid) (hp : b.pool.Orderly)
    (hgranted : ∀ s, b.group.storage = some s → s.Granted b.pool.system)
    (h : append data b = ⟨.ok u, c, log⟩) : b.Ready data.length := by
  rcases ho : reserve data.length b with ⟨g | ⟨⟩, d, more⟩
  · rw [append, Action.bind_of_error ho] at h
    cases h
  · exact ready_of_reserve hb hp hgranted ho

theorem unmoved_of_reserve_error (hb : b.Valid) (hp : b.pool.Orderly)
    (hgranted : ∀ s, b.group.storage = some s → s.Granted b.pool.system) (hafford : b.Affords n)
    (h : reserve n b = ⟨.error f, c, log⟩) : c = b := by
  have hends := requests_end hb hp hgranted n
  rw [h] at hends
  generalize tryReserve n b = soft at hends
  cases hends with
  | barred hbarred hkind => rfl
  | fixed hmore hfixed hkind => rfl
  | beyond hgrow hmax hkind => rfl
  | refused live hopen hgrows hdenied hcause => exact absurd (hafford live hopen hgrows) hdenied

structure Matches (b c : Buffer) : Prop where
  handle : c.handle = b.handle
  written : c.read 0 c.handle.writer = b.read 0 b.handle.writer

theorem Lengthened.matches {capacity : Nat} (hc : b.Lengthened capacity data c)
    (hd : b.Lengthened capacity data d) : c.Matches d := by
  obtain ⟨old, hold, hall⟩ := hc.written
  exact ⟨hd.handle.trans hc.handle.symm, (hd.read hold).trans hall.symm⟩

end Buffer

namespace Arena

variable {a : Arena} {name : String} {b : Buffer} {chunks : List Bytes}

theorem Reachable.ready_of_append (h : a.Reachable) (hb : a.buffer name = .ok b) {data : Bytes}
    (hok : ((Command.change name (.append data)).run a).result = .ok .done) :
    b.Ready data.length := by
  have hbv := h.valid.of_buffer hb
  obtain ⟨hp, hgranted⟩ := h.buffer_orderly hb
  obtain ⟨m, e, p, hs, rfl⟩ := seat_of_buffer h.valid hb
  have hrun : (Command.change name (.append data)).run a = _ :=
    onBuffer_map hs (Buffer.append data) fun _ => Answer.done
  rcases ho : Buffer.append data (a.bufferOf name m e p) with ⟨f | u, c, log⟩
  · rw [hrun, ho] at hok
    cases hok
  · exact Buffer.ready_of_append hbv hp hgranted ho

def piecewise (name : String) (chunks : List Bytes) : List Command :=
  chunks.map fun chunk => .change name (.append chunk)

theorem Reachable.piecewise_lengthens (h : a.Reachable) (hb : a.buffer name = .ok b)
    (hready : b.Ready chunks.flatten.length)
    (hparts : ∀ m ≤ chunks.flatten.length, b.Affords m) :
    (∀ r ∈ replies a (piecewise name chunks), r.1 = .ok .done) ∧
      ∃ c, (after a (piecewise name chunks)).buffer name = .ok c ∧
        b.Lengthened (b.handle.fitted chunks.flatten.length) chunks.flatten c := by
  induction chunks generalizing a b with
  | nil =>
    exact ⟨fun r hr => absurd hr List.not_mem_nil, b, hb,
      Buffer.lengthened_self hready.valid hready.live⟩
  | cons chunk chunks ih =>
    rw [List.flatten_cons, List.length_append] at hready hparts ⊢
    obtain ⟨c, log, hc, hfirst⟩ := (hready.first (hparts _ (Nat.le_add_right _ _))).append
    -- Room for the first chunk and then for the others comes to the capacity that all of them ask for.
    obtain ⟨hrest, hfitted⟩ := hready.rest hfirst
    obtain ⟨a', hrun, hbuffer⟩ := run_of_ok h.valid hb hc hfirst.group.shared fun _ => .done
    have hrun : (Command.change name (.append chunk)).run a = _ := hrun
    have hstate : ((Command.change name (.append chunk)).run a).state = a' := by rw [hrun]
    have hnext : a'.Reachable := hstate ▸ h.run (c := .change name (.append chunk)) trivial
    obtain ⟨hreplies, d, hd, hmore⟩ := ih hnext hbuffer hrest (Buffer.affords_rest hparts hready hfirst)
    rw [hfitted] at hmore
    refine ⟨?_, d, ?_, hfirst.trans hmore⟩
    · rw [piecewise, List.map_cons, replies, hstate]
      intro r hr
      rcases List.mem_cons.1 hr with rfl | hr
      · rw [hrun]
      · exact hreplies r hr
    · rw [piecewise, List.map_cons, after, List.foldl_cons, hstate]
      exact hd

theorem Reachable.whole_written (h : a.Reachable) (hb : a.buffer name = .ok b) {source : List Bytes}
    (hsource : source.flatten = chunks.flatten) (hready : b.Ready chunks.flatten.length) :
    ((Command.change name (.appendAll source)).run a).result =
        .ok (.number chunks.flatten.length) ∧
      ∃ u w, ((Command.change name (.append chunks.flatten)).run a).state.buffer name = .ok u ∧
        ((Command.change name (.appendAll source)).run a).state.buffer name = .ok w ∧
        b.Lengthened (b.handle.fitted chunks.flatten.length) chunks.flatten u ∧
        b.Lengthened (b.handle.fitted chunks.flatten.length) chunks.flatten w := by
  obtain ⟨u, _, hu, hwhole⟩ := hready.append
  obtain ⟨a₁, hrun₁, hbuffer₁⟩ := run_of_ok h.valid hb hu hwhole.group.shared fun _ => Answer.done
  rw [← hsource] at hready
  obtain ⟨w, _, hw, hall⟩ := hready.appendAll
  obtain ⟨a₂, hrun₂, hbuffer₂⟩ := run_of_ok h.valid hb hw hall.group.shared Answer.number
  have hrun₁ : (Command.change name (.append chunks.flatten)).run a = _ := hrun₁
  have hrun₂ : (Command.change name (.appendAll source)).run a = _ := hrun₂
  rw [hsource] at hrun₂ hall
  rw [hrun₁, hrun₂]
  exact ⟨rfl, u, w, hbuffer₁, hbuffer₂, hwhole, hall⟩

theorem Reachable.source_refused (h : a.Reachable) (hb : a.buffer name = .ok b) {source : List Bytes}
    (hsource : source.flatten = chunks.flatten) {f : Failure}
    (hf : ((Command.change name (.append chunks.flatten)).run a).result = .error f) :
    ((Command.change name (.appendAll source)).run a).result = .error f ∧
      ((Command.change name (.appendAll source)).run a).state.forgetFailures = a.forgetFailures ∧
      (b.Affords chunks.flatten.length →
        ((Command.change name (.appendAll source)).run a).state = a) := by
  have hbv := h.valid.of_buffer hb
  obtain ⟨hp, hgranted⟩ := h.buffer_orderly hb
  obtain ⟨m, e, p, hs, rfl⟩ := seat_of_buffer h.valid hb
  have hmeets := Command.run_meets h.valid (c := .change name (.append chunks.flatten)) trivial
  have hwhole : (Command.change name (.append chunks.flatten)).run a = _ :=
    onBuffer_map hs (Buffer.append chunks.flatten) fun _ => Answer.done
  have hstreamed : (Command.change name (.appendAll source)).run a = _ :=
    onBuffer_map hs (Buffer.appendAll source) Answer.number
  rcases ho : Buffer.append chunks.flatten (a.bufferOf name m e p) with ⟨fault | ⟨⟩, c, log⟩
  · have hreserve := Buffer.reserve_of_append_error hbv ho
    have hrefused : Buffer.appendAll source (a.bufferOf name m e p) = ⟨.error fault, c, log⟩ :=
      Action.bind_of_error (by rw [hsource, hreserve])
    rw [ho] at hwhole
    rw [hwhole] at hf hmeets
    cases hf
    rw [hstreamed, hrefused]
    refine ⟨rfl, hmeets.unmoved fun hstream => hstream, fun hafford => ?_⟩
    cases Buffer.unmoved_of_reserve_error hbv hp hgranted hafford hreserve
    exact settle_self hs
  · rw [hwhole, ho] at hf
    cases hf

/-- What can be written at once can be written from a source that hands out the chunks that are not
empty, and chunk by chunk as long as the storages on the way can be had; all leave the same handle and
the same written bytes. What cannot is refused to the source for the same cause, and nothing has
happened but that a pool may have noted a failure, which it does only where storage cannot be had. -/
theorem Reachable.chunks_alike (h : a.Reachable) (hb : a.buffer name = .ok b) (chunks : List Bytes) :
    let whole := (Command.change name (.append chunks.flatten)).run a
    let source := chunks.filter fun chunk => !chunk.isEmpty
    let streamed := (Command.change name (.appendAll source)).run a
    (whole.result = .ok .done →
      streamed.result = .ok (.number chunks.flatten.length) ∧
        ∃ u w, whole.state.buffer name = .ok u ∧ streamed.state.buffer name = .ok w ∧
          (∃ old, b.read 0 b.handle.writer = .ok old ∧
            u.read 0 u.handle.writer = .ok (old ++ chunks.flatten)) ∧
          u.Matches w ∧
          ((∀ m ≤ chunks.flatten.length, b.Affords m) →
            (∀ r ∈ replies a (piecewise name chunks), r.1 = .ok .done) ∧
              ∃ v, (after a (piecewise name chunks)).buffer name = .ok v ∧ u.Matches v)) ∧
      ∀ f, whole.result = .error f → streamed.result = .error f ∧
        streamed.state.forgetFailures = a.forgetFailures ∧
        (b.Affords chunks.flatten.length → streamed.state = a) := by
  intro whole source streamed
  have hsource : source.flatten = chunks.flatten := List.flatten_filter_not_isEmpty
  refine ⟨fun hok => ?_, fun f hf => h.source_refused hb hsource hf⟩
  have hready := h.ready_of_append hb hok
  obtain ⟨htotal, u, w, hu, hw, hwhole, hall⟩ := h.whole_written hb hsource hready
  refine ⟨htotal, u, w, hu, hw, hwhole.written, hwhole.matches hall, fun hparts => ?_⟩
  obtain ⟨hreplies, v, hv, hpieces⟩ := h.piecewise_lengthens hb hready hparts
  exact ⟨hreplies, v, hv, hwhole.matches hpieces⟩

def bare : Arena := after {} [.make (.allocate 0 3) "root"]

def bareRoot : Buffer :=
  ⟨.root 0 3 0 true, .holding ⟨.heap, [], 3⟩, (Pool.lend .heap 0 3 (.plain {})).state, false⟩

theorem affords_bareRoot (n : Nat) : bareRoot.Affords n := fun _ _ _ =>
  .inr (Storage.checkKind_heap (Nat.le_trans (Nat.min_le_right _ _) (by decide)))

theorem chunks_alike_bare :
    ∃ u v, ((Command.change "root" (.append [1, 2, 3])).run bare).state.buffer "root" = .ok u ∧
      (after bare (piecewise "root" [[1, 2], [], [3]])).buffer "root" = .ok v ∧
      v.handle = u.handle ∧ v.read 0 v.handle.writer = .ok [1, 2, 3] := by
  have hreach : bare.Reachable := ⟨_, _, by decide, rfl⟩
  have hb : bare.buffer "root" = .ok bareRoot := rfl
  have hready : bareRoot.Ready ([1, 2, 3] : Bytes).length :=
    ⟨hreach.valid.of_buffer hb, by decide, rfl, .inr ⟨rfl, by decide, by decide⟩,
      affords_bareRoot _ (by decide) rfl⟩
  obtain ⟨c, _, hc, hlong⟩ := hready.append
  obtain ⟨a', hrun, -⟩ := run_of_ok hreach.valid hb hc hlong.group.shared fun _ => Answer.done
  obtain ⟨hwritten, -⟩ := hreach.chunks_alike hb [[1, 2], [], [3]]
  obtain ⟨-, u, w, hu, -, ⟨old, hold, hread⟩, -, hpieces⟩ := hwritten (congrArg Outcome.result hrun)
  obtain ⟨-, v, hv, hsame⟩ := hpieces fun m _ => affords_bareRoot m
  cases hold
  exact ⟨u, v, hu, hv, hsame.handle, hsame.written.trans hread⟩

end Arena

end SharedBuffer
