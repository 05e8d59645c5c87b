import SharedBuffer.Proofs.Delivery
import SharedBuffer.Proofs.Reading

/-!
Transfers between buffers and streams. A source brings no more than it is asked for and a sink
moves on by no more than it is offered, so that the buffer can append what has come and skip what
has gone. A transfer is refused before it has begun, or the stream fails and what was transferred
stays.
-/

namespace SharedBuffer

namespace Buffer

open SharedBuffer.Action (meets_bind meets_ask_bind meets_map meets_mapError ask_bind_of_ok current_bind
  modify_bind)

variable {σ : Type} {b c d : Buffer} {e : Effect} {log : List Event} {n : Nat} {data : Bytes}

inductive Breaks (b : Buffer) (e : Effect) (cause : Fault → Prop) (f : Fault) (b' : Buffer)
    (log : List Event) : Prop
  | refused (h : b.Refuses f b' log)
  | stopped (h : cause f) (does : b.Does e b' log)

section Load

def loaded (v : Stream.Delivery σ) : Except (Broken × σ) (Transferred × σ) :=
  match v.failure with
  | some reason => .error (⟨.stream reason, v.asked, v.bytes⟩, v.rest)
  | none => .ok (⟨v.bytes.length, v.asked, v.bytes⟩, v.rest)

theorem behind_of_loaded {x : Action (Broken × σ) Buffer (Transferred × σ)} {v : Stream.Delivery σ}
    {piece : Bytes} (h : x b = ⟨loaded v, c, log⟩) :
    behind n piece x b = ⟨loaded (v.behind n piece), c, log⟩ := by
  rw [loaded] at h
  rw [behind, loaded, Stream.Delivery.failure_behind]
  cases hv : v.failure with
  | some reason =>
    rw [hv] at h
    rw [Action.mapError, Action.bind_of_error h]
    rfl
  | none =>
    rw [hv] at h
    rw [Action.mapError, Action.bind_of_ok h, Stream.Delivery.bytes_behind, List.length_append]
    simp only [Action.pure_apply, List.append_nil, Stream.Delivery.asked_behind,
      Stream.Delivery.rest_behind]

theorem loadUpTo_of_forM (r : Stream.Reader σ) (n : Nat) (s : σ)
    (h : (Stream.deliver r n s).pieces.forM append b = ⟨.ok (), c, log⟩) :
    loadUpTo r n s b = ⟨loaded (Stream.deliver r n s), c, log⟩ := by
  fun_induction loadUpTo r n s generalizing b log with
  | case1 s =>
    rw [Stream.deliver_zero] at h ⊢
    cases h
    rfl
  | case2 n s hn asked t =>
    rename_i hr ih
    rw [Stream.deliver_interrupted hn hr] at h ⊢
    exact behind_of_loaded (ih h)
  | case3 n s hn asked reason t =>
    rename_i hr
    rw [Stream.deliver_broken hn hr] at h ⊢
    cases h
    rfl
  | case4 n s hn asked t =>
    rename_i hr
    rw [Stream.deliver_ended hn hr] at h ⊢
    cases h
    rfl
  | case5 n s hn asked piece t =>
    rename_i hr hsome ih
    rw [Stream.deliver_piece hn hr hsome] at h ⊢
    rw [Stream.Delivery.pieces_behind hsome] at h
    -- The loop appends before it asks again, just as the pieces are appended in order.
    change (append piece >>= fun _ => (Stream.deliver r (n - piece.length) t).pieces.forM append) b =
      _ at h
    obtain ⟨⟨⟩, d, first, more, ho, hrest, rfl⟩ := Action.exists_of_bind_eq_ok h
    apply behind_of_loaded
    rw [Action.bind_of_ok (Action.mapError_of_ok ho _), ih hrest]

theorem loadUpTo_of_room (hb : b.Valid) (live : 0 < b.group.count)
    (hopen : b.handle.readOnly = false)
    (hroom : b.handle.cursor.writer + n ≤ b.handle.capacity) (r : Stream.Reader σ) (s : σ) :
    ∃ c, Course (.write b.front (Stream.deliver r n s).bytes) b c [] ∧
      loadUpTo r n s b = ⟨loaded (Stream.deliver r n s), c, []⟩ := by
  have hlen := Stream.length_deliver_le r n s
  obtain ⟨c, hc, hcourse⟩ := forM_append_of_room (Stream.deliver r n s).pieces hb live hopen
    (by rw [Stream.Delivery.flatten_pieces]; omega)
  rw [Stream.Delivery.flatten_pieces] at hcourse
  exact ⟨c, hcourse, loadUpTo_of_forM r n s hc⟩

theorem loadUpTo_meets {b' : Buffer} (hb : b.Valid) (hres : b.Reserved n b' log)
    (r : Stream.Reader σ) (s : σ) :
    (loadUpTo r n s b').Meets
      (fun _ c more => b.Does (.write b.front (Stream.deliver r n s).bytes) c (log ++ more))
      (fun x c more => b.Breaks (.write b.front (Stream.deliver r n s).bytes)
        (fun f => ∃ reason, f = .stream reason ∧
          (Stream.deliver r n s).failure = some reason) x.1.fault c (log ++ more)) := by
  have hfollows := hres.does.follows hb
  obtain ⟨c, hcourse, hload⟩ := loadUpTo_of_room (hres.does.valid hb)
    (hres.does.live rfl hres.live) (hfollows.readOnly.trans hres.writable) hres.room r s
  have hfront : b'.front = b.front := by
    rw [front, front, hfollows.offset, hres.cursor]
  rw [hfront] at hcourse
  have hdoes := hres.does.then (f := .write b.front (Stream.deliver r n s).bytes) hcourse
  rw [Effect.none_andThen] at hdoes
  rw [hload, loaded]
  cases hfail : (Stream.deliver r n s).failure with
  | none => exact hdoes
  | some reason => exact .stopped ⟨reason, rfl, rfl⟩ hdoes

theorem loadLength_meets (hb : b.Valid) (n : Nat) (r : Stream.Reader σ) (s : σ) :
    (loadLength n r s b).Meets
      (fun _ => b.Does (.write b.front (Stream.deliver r n s).bytes))
      (fun x => b.Breaks (.write b.front (Stream.deliver r n s).bytes)
        (fun f => ∃ reason, f = .stream reason ∧
          (Stream.deliver r n s).failure = some reason) x.1.fault) := by
  refine meets_bind (meets_mapError ((reserve_meets hb n).mono ?_ ?_))
  · intro _ b' log hres
    exact loadUpTo_meets hb hres r s
  · intro f b' log href
    exact .refused href

theorem reserved_writable (hb : b.Valid) (live : 0 < b.group.count)
    (hopen : b.handle.readOnly = false) : b.Reserved b.handle.writable b [] := by
  have hwriter := hb.handle.cursor.writer_le
  refine ⟨does_refl b, rfl, rfl, ?_, live, hopen, fun _ => ⟨rfl, rfl⟩⟩
  simp only [Handle.writable, Handle.writer]
  omega

theorem load_meets (hb : b.Valid) (r : Stream.Reader σ) (s : σ) :
    (load r s b).Meets
      (fun _ => b.Does (.write b.front (Stream.deliver r b.handle.writable s).bytes))
      (fun x => b.Breaks (.write b.front (Stream.deliver r b.handle.writable s).bytes)
        (fun f => ∃ reason, f = .stream reason ∧
          (Stream.deliver r b.handle.writable s).failure = some reason) x.1.fault) := by
  simp only [load]
  rw [current_bind]
  refine meets_bind (meets_mapError (Action.meets_ask ?_ ?_))
  · intro _ hmut
    obtain ⟨live, hopen⟩ := (checkMutable_eq_ok_iff b).1 hmut
    exact loadUpTo_meets hb (reserved_writable hb live hopen) r s
  · intro f hf
    exact .refused (refuses_of_sound b.sound_checkMutable f hf)

theorem loadFile_meets (hb : b.Valid) (content : Option Bytes) :
    (loadFile content b).Meets
      (fun _ => b.Does (.write b.front (content.getD [])))
      (fun x => b.Refuses x.fault) := by
  cases content with
  | none => exact refuses_self trivial
  | some bytes =>
    have hmeets := loadLength_meets hb bytes.length Stream.Source.reader (.ofScript [.chunk bytes])
    have hfirst := Stream.first_deliver_chunk bytes
    rw [hfirst.bytes, hfirst.failure, List.take_length, if_pos (Nat.le_refl _)] at hmeets
    refine meets_map (meets_mapError (hmeets.imp_error ?_))
    intro x b' log hend
    rcases hend with h | ⟨⟨reason, -, hfail⟩, -⟩
    · exact h
    · simp at hfail

end Load

section Store

def SinkFails (f : Fault) : Prop :=
  (∃ reason, f = .stream reason) ∨ ∃ reader n writer, f = .notReadable reader n writer

theorem storeRest_eq (w : Stream.Writer σ) (s : σ) (b : Buffer) :
    storeRest w s b =
      if b.handle.readable = 0 then ⟨.ok (0, s), b, []⟩
      else
        match b.nextBlock with
        | .error f => ⟨.error (f, s), b, []⟩
        | .ok offer =>
          match w.write offer s with
          | (.interrupted, t) => storeRest w t b
          | (.broken reason, t) => ⟨.error (.stream reason, t), b, []⟩
          | (.took n, t) =>
            if n = 0 then ⟨.ok (0, t), b, []⟩
            else
              match b.skip n with
              | .error f => ⟨.error (f, t), b, []⟩
              | .ok c => further n (storeRest w t c) := by
  rw [storeRest]
  split
  · rfl
  split
  · next hblock => rw [hblock]
  next hblock =>
  rw [hblock]
  dsimp only
  split
  · next hw => rw [hw]
  · next hw => rw [hw]
  next hw =>
  rw [hw]
  dsimp only
  split
  · rfl
  split
  · next hs => rw [hs]
  · next hs => rw [hs]

theorem advance_advance (m n : Nat) (b : Buffer) :
    (b.moveCursor (Cursor.advanceReader m)).moveCursor (Cursor.advanceReader n) =
      b.moveCursor (Cursor.advanceReader (m + n)) := by
  simp only [moveCursor, Handle.moveCursor, Cursor.advanceReader, Nat.add_assoc]

theorem storeRest_seeks (w : Stream.Writer σ) (s : σ) (b : Buffer) :
    ∃ n ≤ b.handle.cursor.readable, (storeRest w s b).state = b.moveCursor (Cursor.advanceReader n) ∧
      (storeRest w s b).events = [] := by
  fun_induction storeRest w s b with
  | case3 s b hreadable offer hb t hw ih => exact ih
  | case7 s b hreadable offer hb n t hw hn c hs ih =>
    obtain ⟨-, hle, rfl⟩ := skip_eq_ok hs
    obtain ⟨m, hm, hstate, hevents⟩ := ih
    refine ⟨n + m, ?_, hstate.trans (advance_advance n m b), hevents⟩
    simp only [moveCursor, Handle.moveCursor, Cursor.readable, Cursor.advanceReader] at hm hle ⊢
    omega
  | _ => exact ⟨0, Nat.zero_le _, rfl, rfl⟩

theorem exists_nextBlock (hb : b.Valid) (live : 0 < b.group.count) :
    ∃ offer, b.nextBlock = .ok offer := by
  obtain ⟨s, hs, -⟩ := hb.window live
  have hwriter := hb.handle.cursor.writer_le
  have horder := hb.handle.cursor.reader_le_writer
  refine ⟨_, hb.read_of_le hs ?_⟩
  simp only [Handle.reader, Handle.readable, Cursor.readable]
  omega

theorem storeRest_fails (w : Stream.Writer σ) (s : σ) (hb : b.Valid) (live : 0 < b.group.count) :
    ∀ x, (storeRest w s b).result = .error x → SinkFails x.1 := by
  intro x hx
  fun_induction storeRest w s b with
  | case1 => cases hx
  | case2 s b hreadable f hblock =>
    obtain ⟨offer, hoffer⟩ := exists_nextBlock hb live
    cases hblock.symm.trans hoffer
  | case3 s b hreadable offer hblock t hw ih => exact ih hb live hx
  | case4 s b hreadable offer hblock reason t =>
    cases hx
    exact .inl ⟨reason, rfl⟩
  | case5 => cases hx
  | case6 s b hreadable offer hblock n t hw hn f hs =>
    cases hx
    by_cases hle : n ≤ b.handle.cursor.readable
    · cases (skip_of_le live hle).symm.trans hs
    · cases (skip_of_lt live (Nat.lt_of_not_le hle)).symm.trans hs
      exact .inr ⟨_, _, _, rfl⟩
  | case7 s b hreadable offer hblock n t hw hn c hs ih =>
    obtain ⟨-, hle, rfl⟩ := skip_eq_ok hs
    have hmoved := (course_seek (hb.handle.cursor.advanceReader hle)).valid hb
    simp only [further] at hx
    cases hrest : (storeRest w t (b.moveCursor (Cursor.advanceReader n))).result with
    | error y =>
      rw [hrest] at hx
      cases hx
      exact ih hmoved live hrest
    | ok v =>
      rw [hrest] at hx
      cases hx

theorem storeTo_eq (live : 0 < b.group.count) (w : Stream.Writer σ) (s : σ) :
    storeTo w s b = storeRest w s b := by
  have hlive := (checkLive_eq_ok_iff b).2 live
  exact Action.bind_of_ok (Action.mapError_of_ok (Action.ask_of_ok hlive) _)

theorem storeRest_meets (hb : b.Valid) (live : 0 < b.group.count) (w : Stream.Writer σ) (s : σ) :
    (storeRest w s b).Meets (fun _ => b.Does {}) (fun x c log => SinkFails x.1 ∧ b.Does {} c log) := by
  obtain ⟨n, hn, hstate, hevents⟩ := storeRest_seeks w s b
  have hdoes : b.Does {} (storeRest w s b).state (storeRest w s b).events := by
    rw [hstate, hevents]
    exact .of_quiet (course_seek (hb.handle.cursor.advanceReader hn)) rfl
  have hfails := storeRest_fails w s hb live
  generalize storeRest w s b = o at hdoes hfails ⊢
  rcases o with ⟨x | v, c, log⟩
  · exact ⟨hfails x rfl, hdoes⟩
  · exact hdoes

theorem storeTo_meets (hb : b.Valid) (w : Stream.Writer σ) (s : σ) :
    (storeTo w s b).Meets (fun _ => b.Does {}) (fun x => b.Breaks {} SinkFails x.1) := by
  refine meets_bind (meets_mapError (Action.meets_ask ?_ ?_))
  · intro _ hlive
    have live := (checkLive_eq_ok_iff b).1 hlive
    exact (storeRest_meets hb live w s).imp_error fun x c log h => .stopped h.1 h.2
  · intro f hf
    exact .refused (refuses_of_sound b.sound_checkLive f hf)

theorem store_meets (hb : b.Valid) (script : List Stream.Acceptance) :
    (store script b).Meets (fun _ => b.Does {}) (fun x => b.Breaks {} SinkFails x.fault) :=
  meets_map (meets_mapError (storeTo_meets hb _ _))

theorem storeRest_idle (s : Stream.Sink) (hidle : s.script = []) (hb : b.Valid)
    (live : 0 < b.group.count) : ∃ v, (storeRest Stream.Sink.writer s b).result = .ok v := by
  have hwrite := Stream.Sink.write_idle hidle
  fun_induction storeRest Stream.Sink.writer s b with
  | case1 => exact ⟨_, rfl⟩
  | case2 s b hreadable f hblock =>
    obtain ⟨offer, hoffer⟩ := exists_nextBlock hb live
    cases hblock.symm.trans hoffer
  | case3 s b hreadable offer hblock t hw => cases hw.symm.trans (hwrite offer)
  | case4 s b hreadable offer hblock reason t hw => cases hw.symm.trans (hwrite offer)
  | case5 => exact ⟨_, rfl⟩
  | case6 s b hreadable offer hblock n t hw hn f hs =>
    cases hw.symm.trans (hwrite offer)
    have hlen : offer.length ≤ b.handle.cursor.readable := by
      rw [length_of_read hblock]
      exact Nat.min_le_left _ _
    cases (skip_of_le live hlen).symm.trans hs
  | case7 s b hreadable offer hblock n t hw hn c hs ih =>
    cases hw.symm.trans (hwrite offer)
    obtain ⟨-, hle, rfl⟩ := skip_eq_ok hs
    have hmoved := (course_seek (hb.handle.cursor.advanceReader hle)).valid hb
    obtain ⟨v, hv⟩ := ih rfl hmoved live (Stream.Sink.write_idle rfl)
    exact ⟨_, by rw [further, hv]; rfl⟩

theorem storeFile_meets (hb : b.Valid) (reachable : Bool) :
    (storeFile reachable b).Meets (fun _ => b.Does {}) (fun x => b.Refuses x.fault) := by
  cases reachable with
  | false => exact refuses_self trivial
  | true =>
    refine meets_map (meets_mapError (meets_bind (meets_mapError (Action.meets_ask ?_ ?_))))
    · intro _ hlive
      have live := (checkLive_eq_ok_iff b).1 hlive
      obtain ⟨v, hv⟩ := storeRest_idle (.ofScript []) rfl hb live
      rw [Outcome.Meets, hv]
      exact (storeRest_meets hb live _ _).of_ok hv
    · exact refuses_of_sound b.sound_checkLive

end Store

section Endpoint

theorem readSome_meets (hb : b.Valid) (n : Nat) :
    (readSome n b).Meets (fun _ => b.Does {})
      (fun x b' log => ∃ f, x = .buffer f ∧ b.Refuses f b' log) := by
  simp only [readSome]
  rw [current_bind]
  exact meets_mapError ((consume_performs hb _).imp_error fun f _ _ h => ⟨f, rfl, h⟩)

theorem readRest_meets (hb : b.Valid) :
    (readRest b).Meets (fun _ => b.Does {})
      (fun x b' log => ∃ f, x = .buffer f ∧ b.Refuses f b' log) := by
  simp only [readRest]
  rw [current_bind]
  exact readSome_meets hb _

theorem writeSome_of_idle (hnone : min data.length (room b.handle) = 0) :
    writeSome data b = ⟨.ok 0, b, []⟩ := by
  simp only [writeSome]
  rw [current_bind, hnone]
  rfl

theorem writeSome_eq (hroom : 0 < min data.length (room b.handle)) :
    writeSome data b = (Action.mapError StreamFault.buffer
      (append (data.take (min data.length (room b.handle)))) >>= fun _ =>
        pure (min data.length (room b.handle))) b := by
  simp only [writeSome]
  rw [current_bind]
  exact congrFun (if_neg (Nat.ne_of_gt hroom)) b

theorem writeSome_meets (hb : b.Valid) (data : Bytes) :
    (writeSome data b).Meets
      (fun n b' log => n = min data.length (room b.handle) ∧
        ((n = 0 ∧ b' = b ∧ log = []) ∨ (n ≠ 0 ∧ b.Appended (data.take n) b' log)))
      (fun x b' log => ∃ f, x = .buffer f ∧ b.Refuses f b' log) := by
  by_cases hzero : min data.length (room b.handle) = 0
  · simp only [writeSome]
    rw [current_bind, hzero]
    exact ⟨rfl, .inl ⟨rfl, rfl, rfl⟩⟩
  · rw [writeSome_eq (Nat.pos_of_ne_zero hzero)]
    refine Action.meets_then_pure (meets_mapError ((append_meets hb _).mono ?_ ?_))
    · intro _ b' log happ
      exact ⟨rfl, .inr ⟨hzero, happ⟩⟩
    · intro f b' log href
      exact ⟨f, rfl, href⟩

theorem writeSome_does (hb : b.Valid) (data : Bytes) :
    (writeSome data b).Meets (fun _ => b.Does (.write b.front (data.take (room b.handle))))
      (fun x b' log => ∃ f, x = .buffer f ∧ b.Refuses f b' log) := by
  apply (writeSome_meets hb data).imp
  have htake : data.take (min data.length (room b.handle)) = data.take (room b.handle) := by
    rw [Nat.min_comm, ← List.take_take, List.take_length]
  intro n b' log hsome
  obtain ⟨hn, ⟨hzero, rfl, rfl⟩ | ⟨-, happ⟩⟩ := hsome
  · rw [← htake, ← hn, hzero, List.take_zero, Effect.write_nil]
    exact does_refl _
  · rw [← htake, ← hn]
    exact happ.does

theorem room_of_appended {b' : Buffer} (hb : b.Valid) (hn : n = room b.handle)
    (hlen : (data.take n).length = n) (happ : b.Appended (data.take n) b' log) :
    room b'.handle = 0 := by
  have hfollows := happ.does.follows hb
  have hwriter : b'.handle.writer = b.handle.writer + n := by
    have hcursor := congrArg Cursor.writer happ.cursor
    rwa [Cursor.advanceWriter, hlen] at hcursor
  unfold room Handle.maxWritable Handle.writable at hn ⊢
  rw [happ.autoExpand, hwriter, hfollows.maxCapacity]
  cases hexpand : b.handle.autoExpand with
  | true =>
    rw [hexpand] at hn
    simp only [if_true] at hn ⊢
    omega
  | false =>
    rw [hexpand] at hn
    simp only [Bool.false_eq_true, if_false] at hn ⊢
    rw [happ.same (by rw [hlen, Handle.writable]; omega)]
    omega

theorem writeAll_nil : writeAll [] = pure () := by
  rw [writeAll]
  exact dif_pos rfl

theorem writeAll_eq (hdata : data ≠ []) :
    writeAll data = writeSome data >>= fun n =>
      if n = 0 then Action.fail .nothingWritten else writeAll (data.drop n) := by
  funext b
  rw [writeAll]
  apply (congrFun (dif_neg hdata) b).trans
  dsimp only
  rcases ho : writeSome data b with ⟨f | n, b', log⟩
  · rw [Action.bind_of_error ho]
  · rw [Action.bind_of_ok ho]
    by_cases hn : n = 0
    · apply (dif_pos hn).trans
      rw [if_pos hn]
      exact congrArg (Outcome.mk _ b') (List.append_nil log).symm
    · apply (dif_neg hn).trans
      rw [if_neg hn]

theorem writeAll_of_idle (hdata : data ≠ []) (hnone : min data.length (room b.handle) = 0) :
    writeAll data b = ⟨.error .nothingWritten, b, []⟩ := by
  rw [writeAll_eq hdata, Action.bind_of_ok (writeSome_of_idle hnone)]
  rfl

/-- After one step nothing is left to be written, or there is no room for what is left. -/
theorem writeAll_rest (hb : b.Valid) (hn : n = min data.length (room b.handle))
    (happ : b.Appended (data.take n) c log) :
    writeAll (data.drop n) c =
      ⟨if data.length ≤ room b.handle then .ok () else .error .nothingWritten, c, []⟩ := by
  by_cases hfits : data.length ≤ room b.handle
  · have hall : n = data.length := by omega
    rw [if_pos hfits, hall, List.drop_length, writeAll_nil]
    rfl
  · have hfull : n = room b.handle := by omega
    have hrest : data.drop n ≠ [] := by
      rw [Ne, List.drop_eq_nil_iff]
      omega
    have hnone := room_of_appended hb hfull (by rw [List.length_take]; omega) happ
    rw [if_neg hfits, writeAll_of_idle hrest (by rw [hnone, Nat.min_zero])]

theorem writeAll_meets (hb : b.Valid) (data : Bytes) :
    (writeAll data b).Meets (fun _ => b.Does (.write b.front data))
      (fun x b' log => (∃ f, x = .buffer f ∧ b.Refuses f b' log) ∨
        x = .nothingWritten ∧ b.Does (.write b.front (data.take (room b.handle))) b' log) := by
  by_cases hdata : data = []
  · rw [hdata, writeAll_nil, Effect.write_nil]
    exact does_refl b
  rw [writeAll_eq hdata]
  refine meets_bind ((writeSome_meets hb data).mono ?_ fun _ _ _ h => .inl h)
  have hlen := List.length_pos_iff.2 hdata
  intro n b' log hfirst
  obtain ⟨hn, ⟨hzero, hb', hlog⟩ | ⟨hsome, happ⟩⟩ := hfirst
  · have hroom : room b.handle = 0 := by omega
    rw [if_pos hzero, hroom, List.take_zero, Effect.write_nil, hb', hlog]
    exact .inr ⟨rfl, does_refl b⟩
  rw [if_neg hsome, writeAll_rest hb hn happ]
  by_cases hfits : data.length ≤ room b.handle
  · have hall : n = data.length := by omega
    have hdoes := happ.does
    rw [hall, List.take_length] at hdoes
    rw [if_pos hfits]
    change b.Does _ b' (log ++ [])
    rwa [List.append_nil]
  · have hfull : n = room b.handle := by omega
    rw [if_neg hfits]
    refine .inr ⟨rfl, ?_⟩
    rw [List.append_nil, ← hfull]
    exact happ.does

end Endpoint

end Buffer

end SharedBuffer
