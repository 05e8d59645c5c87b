import SharedBuffer.Proofs.Commands

/-!
Windows and indexes of every handle in every reachable arena. Main statement: the indexes are in
order within the window, the window is within the storage as long as there is one, sums and
differences of them stay words, and no window ever loses its storage.
-/

namespace SharedBuffer

structure Handle.InBounds (h : Handle) (g : Group) : Prop where
  reader_le_writer : h.reader ≤ h.writer
  writer_le_capacity : h.writer ≤ h.capacity
  capacity_le_max : h.capacity ≤ h.maxCapacity
  max_le_largest : h.maxCapacity ≤ Word.largest
  slice : h.origin = .slice → h.capacity = h.maxCapacity
  offset : h.origin ≠ .slice → h.offset = 0
  window : 0 < g.count → ∃ s, g.storage = some s ∧ h.offset + h.capacity ≤ s.capacity ∧
    s.capacity ≤ s.maxCapacity ∧ s.maxCapacity ≤ Word.largest ∧
    (h.origin ≠ .slice → h.maxCapacity = s.maxCapacity)

namespace Handle.InBounds

variable {h : Handle} {g : Group}

theorem differences (hin : h.InBounds g) : h.reader + h.readable = h.writer ∧
    h.writer + h.writable = h.capacity ∧ h.writer + h.maxWritable = h.maxCapacity := by
  have h1 := hin.reader_le_writer
  have h2 := hin.writer_le_capacity
  have h3 := hin.capacity_le_max
  simp only [reader, writer] at h1 h2
  simp only [readable, writable, maxWritable, reader, writer, Cursor.readable]
  omega

theorem places (hin : h.InBounds g) (live : 0 < g.count) {index length : Nat}
    (hrange : index + length ≤ h.capacity) : h.offset + index + length ≤ Word.largest := by
  obtain ⟨s, -, hwindow, hmax, hword, -⟩ := hin.window live
  omega

end Handle.InBounds

namespace Arena

open Table (find?)

variable {a : Arena}

theorem Valid.inBounds (ha : a.Valid) {name : String} {m : Member}
    (hm : find? name a.buffers = some m) :
    ∃ e, a.groups[m.group]? = some e ∧ m.handle.InBounds e.group := by
  obtain ⟨e, he, hhandle, hwindow⟩ := ha.members _ (Table.mem_of_find? hm)
  have hgroup := (ha.estates e (List.mem_of_getElem? he)).2
  refine ⟨e, he, hhandle.cursor.reader_le_writer, hhandle.cursor.writer_le,
    hhandle.capacity_le_max, hhandle.max_le_largest, hhandle.slice_fixed, hhandle.offset_zero, ?_⟩
  intro live
  obtain ⟨s, hs, hon⟩ := hwindow live
  have hstorage := (hgroup.storage s hs).1
  exact ⟨s, hs, hon.window_le, hstorage.capacity_le_max, hstorage.max_le_largest, hon.max_eq⟩

theorem foreseen_of_error (ha : a.Valid) {c : Command} (hc : c.Fits) {f : Failure}
    (hf : (c.run a).result = .error f) : f.Foreseen :=
  ((Command.run_meets ha hc).of_error hf).foreseen

/-- Every handle is in bounds, with all sums and differences of its indexes in the word range; it
keeps its group, its offset, its greatest capacity and its origin as long as it has its name; and no
command meets a window that lies outside its storage. -/
theorem Reachable.windows_in_bounds (h : a.Reachable) :
    (∀ name m, find? name a.buffers = some m → ∃ e, a.groups[m.group]? = some e ∧
      m.handle.InBounds e.group ∧
      (m.handle.reader + m.handle.readable = m.handle.writer ∧
        m.handle.writer + m.handle.writable = m.handle.capacity ∧
        m.handle.writer + m.handle.maxWritable = m.handle.maxCapacity) ∧
      (0 < e.group.count → ∀ index length, index + length ≤ m.handle.capacity →
        m.handle.offset + index + length ≤ Word.largest)) ∧
    ∀ c : Command, c.Fits →
      (∀ name m, find? name a.buffers = some m → name ∉ c.seats →
        ∃ m', find? name (c.run a).state.buffers = some m' ∧ m.Persists m') ∧
      ∀ f, (c.run a).result = .error f → ∀ start length capacity,
        f.cause? ≠ some (.windowDetached start length capacity) := by
  have ha := h.valid
  refine ⟨fun name m hm => ?_, fun c hc => ⟨fun name m hm hseat => ?_, ?_⟩⟩
  · obtain ⟨e, he, hin⟩ := ha.inBounds hm
    exact ⟨e, he, hin, hin.differences, fun live index length => hin.places live⟩
  · obtain ⟨x, hdoes, hseats⟩ := ha.step hc
    obtain ⟨ended, -, -, hcourse⟩ := hdoes.course
    exact hcourse.stays ha hm fun hname => hseat (hseats hname)
  · intro f hf start length capacity hcause
    exact foreseen_of_error ha hc hf _ hcause

def sliced : Arena :=
  after {} [.make (.allocate 4 16) "whole", .derive "whole" (.slice (.within 1 2)) "part",
    .change "whole" (.changeCapacity 8), .change "whole" (.append [1, 2, 3, 4, 5, 6])]

theorem reachable_sliced : sliced.Reachable := ⟨_, _, by decide, rfl⟩

theorem windows_in_bounds_sliced :
    ((Handle.root 4 16 0 true).slice 1 2).InBounds
      ⟨.heap, 1, some ⟨.heap, [1, 2, 3, 4, 5, 6, 0, 0], 16⟩⟩ := by
  obtain ⟨e, he, hin, -⟩ := reachable_sliced.windows_in_bounds.1 "part"
    ⟨0, (Handle.root 4 16 0 true).slice 1 2⟩ (by decide)
  have hgroup : sliced.groups[0]? =
      some ⟨0, .heap, 1, some ⟨.heap, [1, 2, 3, 4, 5, 6, 0, 0], 16⟩⟩ := by decide
  rw [hgroup] at he
  cases he
  exact hin

end Arena

end SharedBuffer
