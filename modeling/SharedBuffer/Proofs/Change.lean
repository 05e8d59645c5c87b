import SharedBuffer.Proofs.Counting
import SharedBuffer.Proofs.Streaming

/-!
What each change of a buffer amounts to. Main statement: a change that succeeds has exactly its
effect; one that fails leaves the buffer, apart from the transfers whose stream fails, which keep
what was transferred.
-/

namespace SharedBuffer

namespace Failure

def cause? : Failure → Option Fault
  | .fault f | .loading f _ | .storing f _ _ | .stream (.buffer f) => some f
  | _ => none

def Foreseen (f : Failure) : Prop := ∀ g, f.cause? = some g → g.Foreseen

/-- Failures of a stream in the middle of a transfer: a source or a sink breaks, a sink claims to
have taken more than it was offered, or a buffer as a stream takes no more. -/
def OfStream : Failure → Prop
  | .loading (.stream _) _ | .storing (.stream _) .. | .storing (.notReadable ..) .. => True
  | .stream .nothingWritten => True
  | _ => False

end Failure

namespace Buffer

structure Fails (b : Buffer) (f : Failure) (b' : Buffer) (log : List Event) : Prop where
  foreseen : f.Foreseen
  unmoved : ¬f.OfStream → b.Unmoved b'
  does : ∃ written, b.Does { written } b' log

variable {b b' : Buffer} {e : Effect} {f : Fault} {g : Failure} {log : List Event}

theorem Refuses.fails (h : b.Refuses f b' log) (hg : g.cause? = some f) : b.Fails g b' log where
  foreseen k hk := by
    rw [hg] at hk
    cases hk
    exact h.foreseen
  unmoved _ := h.unmoved
  does := ⟨_, .of_quiet h.course rfl⟩

theorem Breaks.fails {cause : Fault → Prop} {start : Nat} {data : Bytes}
    (h : b.Breaks (.write start data) cause f b' log) (hg : g.cause? = some f)
    (hcause : cause f → f.Foreseen ∧ g.OfStream) : b.Fails g b' log := by
  rcases h with h | ⟨hf, hdoes⟩
  · exact h.fails hg
  · obtain ⟨hforeseen, hstream⟩ := hcause hf
    refine ⟨fun k hk => ?_, fun hnot => absurd hstream hnot, _, hdoes⟩
    rw [hg] at hk
    cases hk
    exact hforeseen

theorem Breaks.loading {x : Broken} {start : Nat} {data : Bytes} {failure : Option String}
    (h : b.Breaks (.write start data) (fun f => ∃ reason, f = .stream reason ∧ failure = some reason)
      x.fault b' log) : b.Fails (.loading x.fault x.asked) b' log := by
  apply h.fails rfl
  intro hcause
  obtain ⟨reason, hfault, -⟩ := hcause
  rw [hfault]
  exact ⟨trivial, trivial⟩

theorem Breaks.storing {x : Broken} (h : b.Breaks {} SinkFails x.fault b' log) :
    b.Fails (.storing x.fault x.asked x.taken) b' log := by
  rw [← Effect.write_nil 0] at h
  apply h.fails rfl
  intro hcause
  rcases hcause with ⟨reason, hfault⟩ | ⟨reader, n, writer, hfault⟩
  · rw [hfault]
    exact ⟨trivial, trivial⟩
  · rw [hfault]
    exact ⟨trivial, trivial⟩

theorem stream_fails {x : StreamFault} (h : ∃ f, x = .buffer f ∧ b.Refuses f b' log) :
    b.Fails (.stream x) b' log := by
  obtain ⟨f, rfl, hrefused⟩ := h
  exact hrefused.fails rfl

theorem meets_report {ε α β : Type} {x : Action ε Buffer α} {report : ε → Failure} {f : α → β}
    {E : ε → Buffer → List Event → Prop} (h : (x b).Meets (fun _ => b.Does e) E)
    (hE : ∀ failure c log, E failure c log → b.Fails (report failure) c log) :
    ((f <$> Action.mapError report x) b).Meets (fun _ => b.Does e) b.Fails :=
  Action.meets_map (Action.meets_mapError (h.imp_error hE))

theorem Performs.lift {α : Type} {x : Action Fault Buffer α} (h : Performs x e b) :
    ((Arena.lift x) b).Meets (fun _ => b.Does e) b.Fails :=
  Action.meets_mapError (h.imp_error fun _ _ _ hr => hr.fails rfl)

theorem Performs.change {f : Buffer → Except Fault Buffer} (h : Performs (Action.update f) e b) :
    ((Change.update f) b).Meets (fun _ => b.Does e) b.Fails :=
  Action.meets_then_pure h.lift

end Buffer

namespace Change

open SharedBuffer.Action (meets_map meets_then_pure meets_mapError current_bind)
open Buffer (does_refl)

/-- The bytes that a change writes, by their place in the storage, and the references that it
adds or gives up. -/
def effect (b : Buffer) : Change → Effect
  | .compact => b.compaction
  | .compactLazily => b.lazyCompaction
  | .setBytes index data => .write (b.handle.offset + index) data
  | .setZero index length => .write (b.handle.offset + index) (Bytes.zeros length)
  | .append data => .write b.front data
  | .appendZero n => .write b.front (Bytes.zeros n)
  | .appendAll chunks => .write b.front chunks.flatten
  | .overwriteArray data => .write b.handle.offset (data.take b.handle.capacity)
  | .overwriteWritable data => .write b.front (data.take b.handle.writable)
  | .retain n => { gained := n }
  | .release n => { lost := n }
  | .setScalar index value => .write (b.handle.offset + index) (Buffer.bytesOf value)
  | .writeScalar value => .write b.front (Buffer.bytesOf value)
  | .setString index text charset => .write (b.handle.offset + index) (charset.encode text)
  | .writeString text charset => .write b.front (charset.encode text)
  | .writeLine text => .write b.front (Charset.utf8.encode text ++ [10])
  | .load script =>
    .write b.front (Stream.deliver Stream.Source.reader b.handle.writable (.ofScript script)).bytes
  | .loadLength n script =>
    .write b.front (Stream.deliver Stream.Source.reader n (.ofScript script)).bytes
  | .loadFile content => .write b.front (content.getD [])
  | .writeSome data => .write b.front (data.take (Buffer.room b.handle))
  | .writeAll data => .write b.front data
  | _ => {}

def gained : Change → Nat
  | .retain n => n
  | _ => 0

def lost : Change → Nat
  | .release n => n
  | _ => 0

variable {b : Buffer}

theorem counts_effect (b : Buffer) (c : Change) :
    (c.effect b).gained = c.gained ∧ (c.effect b).lost = c.lost := by
  have hcompaction : b.compaction.gained = 0 ∧ b.compaction.lost = 0 := by
    simp only [Buffer.compaction]
    split <;> exact ⟨rfl, rfl⟩
  cases c with
  | compact => exact hcompaction
  | compactLazily =>
    simp only [effect, Buffer.lazyCompaction]
    split
    · exact hcompaction
    · exact ⟨rfl, rfl⟩
  | _ => exact ⟨rfl, rfl⟩

theorem move_meets {f : Cursor → Cursor} (hf : (f b.handle.cursor).Within b.handle.capacity) :
    ((move f) b).Meets (fun _ => b.Does {}) b.Fails :=
  .of_quiet (Buffer.course_seek hf) rfl

/-- Every change either has its effect or fails without one. -/
theorem run_meets (hb : b.Valid) (c : Change) (hc : c.Fits) :
    (c.run b).Meets (fun _ => b.Does (c.effect b)) b.Fails := by
  have hcursor := hb.handle.cursor
  cases c with
  | setAutoExpand value => exact .of_quiet (Move.expand value).course rfl
  | clear => exact move_meets hcursor.clear
  | markReader => exact move_meets hcursor.markReader
  | markWriter => exact move_meets hcursor.markWriter
  | resetReader => exact (Buffer.setIndexes_performs hb _ _).change
  | resetWriter => exact (Buffer.setIndexes_performs hb _ _).change
  | setReader index => exact (Buffer.setIndexes_performs hb _ _).change
  | setWriter index => exact (Buffer.setIndexes_performs hb _ _).change
  | setIndexes reader writer => exact (Buffer.setIndexes_performs hb _ _).change
  | skip n => exact (Buffer.skip_performs hb n).change
  | reserve n => exact meets_then_pure (Buffer.reserve_performs hb n).lift
  | tryReserve n => exact meets_map (Buffer.tryReserve_performs hb n).lift
  | changeCapacity n => exact meets_then_pure (Buffer.changeCapacity_performs hb n).lift
  | compact => exact (Buffer.compact_performs hb).change
  | compactLazily => exact (Buffer.compactLazily_performs hb).change
  | consume n => exact meets_map (Buffer.consume_performs hb n).lift
  | consumeInto n room => exact meets_map (Buffer.consumeInto_performs hb n room).lift
  | setBytes index data => exact (Buffer.write_performs hb index data).change
  | setZero index length => exact (Buffer.setZero_performs hb index length).change
  | append data => exact meets_then_pure (Buffer.append_performs hb data).lift
  | appendZero n =>
    rw [run, Buffer.appendZero_eq]
    exact meets_then_pure (Buffer.append_performs hb (Bytes.zeros n)).lift
  | appendAll chunks => exact meets_map (Buffer.appendAll_performs hb chunks).lift
  | overwriteArray data =>
    rw [run, current_bind]
    exact meets_then_pure (Buffer.overwriteArray_performs hb data).lift
  | overwriteWritable data =>
    rw [run, current_bind]
    exact meets_then_pure (Buffer.overwriteWritable_performs hb data).lift
  | retain n => exact (Buffer.retain_performs n b).change
  | release n => exact meets_map (Buffer.release_performs hb n).lift
  | setScalar index value => exact (Buffer.setScalar_performs hb index value).change
  | readScalar type => exact meets_map (meets_mapError (meets_map
      ((Buffer.consume_performs hb _).imp_error fun _ _ _ h => h.fails rfl)))
  | writeScalar value => exact meets_then_pure (Buffer.writeScalar_performs hb value).lift
  | setString index text charset =>
    exact meets_then_pure (Buffer.write_performs hb index (charset.encode text)).lift
  | readString n charset => exact meets_map (meets_mapError (meets_map
      ((Buffer.consume_performs hb _).imp_error fun _ _ _ h => h.fails rfl)))
  | writeString text charset => exact meets_map (Buffer.writeString_performs hb charset hc).lift
  | writeLine text => exact meets_map (Buffer.writeLine_performs hb hc).lift
  | readLine => exact meets_map (Buffer.readLine_performs hb).lift
  | load script => exact Buffer.meets_report (Buffer.load_meets hb _ _) fun _ _ _ h => h.loading
  | loadLength n script =>
    exact Buffer.meets_report (Buffer.loadLength_meets hb n _ _) fun _ _ _ h => h.loading
  | loadFile content =>
    exact Buffer.meets_report (Buffer.loadFile_meets hb content) fun _ _ _ h => h.fails rfl
  | store script => exact Buffer.meets_report (Buffer.store_meets hb script) fun _ _ _ h => h.storing
  | storeFile reachable =>
    exact Buffer.meets_report (Buffer.storeFile_meets hb reachable) fun _ _ _ h => h.fails rfl
  | readSome n =>
    exact Buffer.meets_report (Buffer.readSome_meets hb n) fun _ _ _ h => Buffer.stream_fails h
  | readRest => exact Buffer.meets_report (Buffer.readRest_meets hb) fun _ _ _ h => Buffer.stream_fails h
  | writeSome data =>
    exact Buffer.meets_report (Buffer.writeSome_does hb data) fun _ _ _ h => Buffer.stream_fails h
  | writeAll data =>
    apply Buffer.meets_report (Buffer.writeAll_meets hb data)
    intro x b' log hend
    rcases hend with h | ⟨rfl, h⟩
    · exact Buffer.stream_fails h
    · refine ⟨fun k hk => ?_, fun hnot => absurd trivial hnot, _, h⟩
      cases hk
  | flush => exact does_refl b

end Change

end SharedBuffer
