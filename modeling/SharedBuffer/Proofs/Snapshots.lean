import SharedBuffer.Proofs.Adjusting
import SharedBuffer.Proofs.Chunking
import SharedBuffer.Proofs.Lines
import SharedBuffer.Proofs.RoundTrip

/-!
Transfers between two handles, which may see the same bytes. Main statement: what arrives is what the
source had before, also where the two overlap and where the storage of both is replaced on the way; a
transfer succeeds just when both handles allow it, and otherwise leaves the arena as it is.
-/

namespace SharedBuffer

namespace Buffer

variable {b o c : Buffer} {i j n : Nat} {data : Bytes}

def Overlaid (start : Nat) (data : Bytes) (b c : Buffer) : Prop :=
  ∃ s t, b.group.storage = some s ∧ c.group.storage = some t ∧
    ∀ p < s.capacity, b.shared = true ∨ p < b.handle.offset + b.handle.capacity →
      t.bytes[p]? = (Bytes.laid start data p).or s.bytes[p]?

theorem overlaid_appended {s : Storage} (hb : b.Valid) (hs : b.group.storage = some s)
    (hroom : b.handle.cursor.writer + data.length ≤ b.handle.capacity) :
    b.Overlaid b.front data (b.appended data s) := by
  have hwindow := (hb.on hs).window_le
  have hfit : b.front + data.length ≤ s.bytes.length := by
    simp only [front, Storage.capacity] at hwindow ⊢
    omega
  exact ⟨s, _, hs, rfl, fun p _ _ => Bytes.getElem?_splice_eq_laid hfit p⟩

theorem overlaid_of_carries {s t : Storage} {start : Nat} (hs : b.group.storage = some s)
    (ht : c.group.storage = some t) (hoffset : b.handle.offset = 0)
    (hmore : b.handle.capacity ≤ c.handle.capacity)
    (hcarries : s.Carries (b.extent c.handle.capacity s) (Bytes.laid start data) t) :
    b.Overlaid start data c := by
  refine ⟨s, t, hs, ht, fun p hp hseen => hcarries.kept p hp ?_⟩
  simp only [extent]
  split
  · omega
  · next halone =>
    have hin := hseen.resolve_left halone
    omega

theorem Ready.append_overlaid (h : b.Ready data.length) :
    ∃ c log, Buffer.append data b = ⟨.ok (), c, log⟩ ∧
      b.Lengthened (b.handle.fitted data.length) data c ∧ b.Overlaid b.front data c := by
  obtain ⟨c, log, hc, hlong⟩ := h.append
  refine ⟨c, log, hc, hlong, ?_⟩
  rcases Handle.takes_iff.1 h.takes with hfits | hgrows
  · obtain ⟨s, hs, -⟩ := h.valid.window h.live
    have hwriter := writer_le h.valid
    have hroom : b.handle.cursor.writer + data.length ≤ b.handle.capacity := by
      simp only [Handle.writable, Handle.writer] at hfits hwriter
      omega
    cases (append_of_room h.valid hs h.writable hroom).symm.trans hc
    exact overlaid_appended h.valid hs hroom
  · have hmore := (h.valid.handle.grown_bounds hgrows).2.2
    have hcapacity : c.handle.capacity = b.handle.grown data.length := by
      rw [hlong.handle, Handle.fitted_of_grows hgrows]
      rfl
    have hgrown : c.handle.capacity ≠ b.handle.capacity := by omega
    have honce := adjusts_append data b
    have hdoes := append_performs h.valid data
    rw [Performs, hc] at hdoes
    rw [hc] at honce
    obtain ⟨s, t, hs, ht, hcarries, -⟩ := hdoes.carries h.valid h.live rfl honce hgrown
    have hfree := not_slice_of_canGrow hgrows.canGrow
    exact overlaid_of_carries hs ht (h.valid.handle.offset_zero hfree) (by omega) hcarries

theorem copyOver_of_le (hb : b.Valid) (live : 0 < b.group.count) (ho : o.Valid)
    (hlive : 0 < o.group.count) (hin : i + n ≤ b.handle.capacity) (hopen : o.handle.readOnly = false)
    (hroom : j + n ≤ o.handle.capacity) :
    ∃ s bytes, o.group.storage = some s ∧ b.read i n = .ok bytes ∧
      copyOver b i j n o = .ok (o.patch (o.handle.offset + j) bytes s) := by
  obtain ⟨r, hr, -⟩ := hb.window live
  obtain ⟨s, hs, -⟩ := ho.window hlive
  have hread := hb.read_of_le hr hin
  have hlen := length_of_read hread
  have hmut := (checkMutable_eq_ok_iff o).2 ⟨hlive, hopen⟩
  have hbounds : checkBounds j n o.handle.capacity = .ok () :=
    (checkBounds_eq_ok_iff ho.handle.capacity_le_largest).2 hroom
  have hwrite := ho.overwrite_of_le hopen hs (hlen ▸ hroom) (r.bytes.window (b.handle.offset + i) n)
  rw [List.take_length] at hwrite
  refine ⟨s, _, hs, hread, ?_⟩
  simp only [copyOver, hmut, hbounds, hread, bind, Except.bind]
  exact hwrite

theorem copyOver_ok_bounds (hc : copyOver b i j n o = .ok c) :
    i + n ≤ b.handle.capacity ∧ o.handle.readOnly = false ∧ j + n ≤ o.handle.capacity := by
  obtain ⟨bytes, hread, hwrite⟩ := copyOver_eq_ok hc
  obtain ⟨-, hopen, hroom, -⟩ := overwrite_eq_ok hwrite
  rw [length_of_read hread] at hroom
  exact ⟨(read_eq_ok hread).2.1, hopen, hroom⟩

end Buffer

namespace Arena

open Table (find? put)

variable {a a' : Arena} {source dest name : String} {m ms md : Member} {e es ed : Estate}
  {p ps pd : Pool} {b o c : Buffer} {data : Bytes} {i j n : Nat} {f : Fault} {log : List Event}

def groupOf (name : String) (a : Arena) : Option Nat := (find? name a.buffers).map Member.group

def heldAt (g p : Nat) (a : Arena) : Option UInt8 := (a.storageAt g).bind fun s => s.bytes[p]?

/-- Of the bytes that were in the window of some handle, those of one group have been laid over from a
place on, and all others are as they were. -/
def Overlaid (dest : String) (start : Nat) (data : Bytes) (a a' : Arena) : Prop :=
  ∀ name m, find? name a.buffers = some m → ∀ k < m.handle.capacity,
    a'.heldAt m.group (m.handle.offset + k) =
      (if a.groupOf dest = some m.group then Bytes.laid start data (m.handle.offset + k)
        else none).or (a.heldAt m.group (m.handle.offset + k))

structure Poured (source dest : String) (data : Bytes) (b o : Buffer) (a a' : Arena) : Prop where
  read : ∃ c, a'.buffer source = .ok c ∧
    c.handle = b.handle.moveCursor (Cursor.advanceReader data.length)
  written : ∃ c, a'.buffer dest = .ok c ∧ o.Lengthened (o.handle.fitted data.length) data c
  others : ∀ name, name ≠ source → name ≠ dest → find? name a'.buffers = find? name a.buffers
  bytes : a.Overlaid dest o.front data a'

theorem isShared_seatAt (hm : find? name a.buffers = some m) (k : Handle) (other : String) (g : Nat) :
    (a.seatAt name ⟨m.group, k⟩).isShared other g = a.isShared other g :=
  Table.any_put_of_find? hm rfl

/-- Every byte of a window lies in the storage of its group, and either its handle is the one whose
buffer it is, or the buffer is shared. -/
theorem Valid.seen (ha : a.Valid) (hs : a.Seat dest md ed pd) {s : Storage}
    (hstorage : ed.group.storage = some s) (hm : find? name a.buffers = some m)
    (hgroup : m.group = md.group) {k : Nat} (hk : k < m.handle.capacity) :
    m.handle.offset + k < s.capacity ∧ ((a.bufferOf dest md ed pd).shared = true ∨
      m.handle.offset + k < md.handle.offset + md.handle.capacity) := by
  obtain ⟨e, p, hs'⟩ := ha.seat hm
  have hestate := hs'.estate
  rw [hgroup, hs.estate] at hestate
  cases hestate
  have hwindow := ((ha.buffer hs').on hstorage).window_le
  refine ⟨Nat.lt_of_lt_of_le (Nat.add_lt_add_left hk _) hwindow, ?_⟩
  by_cases hname : name = dest
  · have hsame := hs.member
    rw [← hname, hm] at hsame
    cases hsame
    exact .inr (Nat.add_lt_add_left hk _)
  · have hother := isShared_of_mem (Table.mem_of_find? hm) hname
    rw [hgroup] at hother
    exact .inl hother

theorem overlaid_settle (ha : a.Valid) (hs : a.Seat dest md ed pd) {start : Nat}
    (hover : (a.bufferOf dest md ed pd).Overlaid start data c) :
    a.Overlaid dest start data (a.settle dest md ed.pool c) := by
  intro name m hm k hk
  have hgroupOf : a.groupOf dest = some md.group := by rw [groupOf, hs.member, Option.map_some]
  simp only [hgroupOf, Option.some.injEq]
  by_cases hgroup : m.group = md.group
  · obtain ⟨s, t, hstorage, ht, hbytes⟩ := hover
    obtain ⟨hin, hseen⟩ := ha.seen hs hstorage hm hgroup hk
    rw [if_pos hgroup.symm, hgroup, heldAt, heldAt, storageAt_of_some (groups_settle_self hs c),
      storageAt_of_some hs.estate]
    change Option.bind c.group.storage _ = Option.or _ (Option.bind ed.group.storage _)
    have hstorage : ed.group.storage = some s := hstorage
    rw [ht, hstorage]
    exact hbytes _ hin hseen
  · have hne : md.group ≠ m.group := fun h => hgroup h.symm
    rw [if_neg hne, Option.none_or, heldAt, heldAt, storageAt_congr (groups_settle_ne hne _ c)]

theorem pour_of_append (ha : a.Valid) (hs : a.Seat source ms es ps) (ho : a.Seat dest md ed pd)
    (hne : source ≠ dest) (hpeek : (a.bufferOf source ms es ps).peek n = .ok data)
    (happend : Buffer.append data (a.bufferOf dest md ed pd) = ⟨.ok (), c, log⟩) :
    (pour source dest n a).result = .ok () ∧
      (pour source dest n a).state = (a.settle dest md ed.pool c).advanced source n ∧
      ∃ e p, (a.settle dest md ed.pool c).Seat source ms e p := by
  have hwrite : onBuffer dest (lift (Buffer.append data)) a =
      ⟨.ok (), a.settle dest md ed.pool c, log⟩ := by
    rw [onBuffer_of_seat ho, lift_of_ok happend]
  have hdoes : (onBuffer dest (lift (Buffer.append data)) a).Meets _ _ :=
    onBuffer_does ha fun o ho => (Buffer.append_performs ho data).lift
  rw [hwrite] at hdoes
  have hmember : find? source (a.settle dest md ed.pool c).buffers = some ms :=
    (Table.find?_put_of_ne (Ne.symm hne) _ _).trans hs.member
  obtain ⟨e, p, hs'⟩ := (hdoes.valid ha).seat hmember
  rw [pour, Action.bind_of_ok (onBuffer_ask_of_ok hs hpeek), Action.bind_of_ok hwrite, onBuffer_of_seat hs']
  exact ⟨rfl, settle_advanced hs' n, e, p, hs'⟩

theorem Seat.seatAt (hs : a.Seat name m e p) (hne : source ≠ name) (u : Member) :
    (a.seatAt source u).Seat name m e p :=
  ⟨(Table.find?_put_of_ne hne _ _).trans hs.member, hs.estate, hs.pool⟩

theorem poured_of_settle (ho : a.Seat dest md ed pd) (hne : source ≠ dest)
    (hs : (a.settle dest md ed.pool c).Seat source ms e p)
    (hhandle : b.handle = ms.handle)
    (hlong : (a.bufferOf dest md ed pd).Lengthened (md.handle.fitted data.length) data c)
    (hover : a.Overlaid dest (a.bufferOf dest md ed pd).front data (a.settle dest md ed.pool c)) :
    Poured source dest data b (a.bufferOf dest md ed pd) a
      ((a.settle dest md ed.pool c).advanced source data.length) := by
  refine ⟨⟨((a.settle dest md ed.pool c).bufferOf source ms e p).moveCursor
    (Cursor.advanceReader data.length), ?_, ?_⟩, ⟨c, ?_, hlong⟩, fun name hsource hdest => ?_, ?_⟩
  · rw [← settle_advanced hs]
    exact buffer_settle hs rfl
  · rw [hhandle]
    rfl
  · rw [advanced_of_member hs.member, buffer_of_seat ((seat_settle ho c).seatAt hne _), bufferOf,
      isShared_seatAt hs.member, isShared_settle]
    change Except.ok { c with shared := (a.bufferOf dest md ed pd).shared } = _
    rw [← hlong.group.shared]
  · rw [advanced_of_member hs.member]
    exact (Table.find?_put_of_ne (Ne.symm hsource) _ _).trans
      (Table.find?_put_of_ne (Ne.symm hdest) _ _)
  · rw [advanced_of_member hs.member]
    exact hover

/-- A request succeeds just when it may, and then does what is said of it; otherwise it is refused and
leaves nothing but the note of a pool that storage was not to be had. -/
structure Settles {α : Type} (v : α) (may : Prop) (done : Arena → Prop) (a : Arena)
    (o : Outcome Failure Arena α) : Prop where
  granted : may → o.result = .ok v ∧ done o.state
  refused : ¬may → (∃ f, o.result = .error (.fault f)) ∧ o.state.forgetFailures = a.forgetFailures

theorem Settles.then_done {may : Prop} {done : Arena → Prop} {x : Action Failure Arena Unit}
    (h : Settles () may done a (x a)) :
    Settles .done may done a ((x >>= fun _ => pure Answer.done) a) := by
  rcases ho : x a with ⟨f | ⟨⟩, a', log⟩
  · rw [ho] at h
    rw [Action.bind_of_error ho]
    refine ⟨fun hmay => (nomatch (h.granted hmay).1), fun hmay => ?_⟩
    obtain ⟨⟨g, hg⟩, hsame⟩ := h.refused hmay
    cases hg
    exact ⟨⟨g, rfl⟩, hsame⟩
  · rw [ho] at h
    rw [Action.bind_of_ok ho]
    refine ⟨fun hmay => ⟨rfl, (h.granted hmay).2⟩, fun hmay => ?_⟩
    obtain ⟨⟨f, hf⟩, -⟩ := h.refused hmay
    cases hf

theorem copyBetween_settles (ha : a.Valid) (hs : a.Seat source ms es ps) (ho : a.Seat dest md ed pd)
    (live : 0 < es.group.count) (hlive : 0 < ed.group.count) (i j n : Nat) :
    Settles ()
      (i + n ≤ ms.handle.capacity ∧ md.handle.readOnly = false ∧ j + n ≤ md.handle.capacity)
      (fun a' => ∃ bytes, (a.bufferOf source ms es ps).read i n = .ok bytes ∧
        Overwritten dest j bytes a a') a (copyBetween source dest i j n a) := by
  have hv := ha.buffer hs
  have hw := ha.buffer ho
  refine ⟨fun ⟨hin, hopen, hroom⟩ => ?_, fun hmay => ?_⟩
  · obtain ⟨s, bytes, hstorage, hread, hcopy⟩ :=
      Buffer.copyOver_of_le hv live hw hlive hin hopen hroom
    have hlen := Buffer.length_of_read hread
    rw [copyBetween, Action.ask_bind_of_ok (buffer_of_seat hs), onBuffer_of_seat ho,
      lift_of_ok (Action.update_of_ok hcopy)]
    exact ⟨rfl, bytes, hread, overwritten_settle ha ho hstorage (hlen ▸ hroom)⟩
  · cases hcopy : Buffer.copyOver (a.bufferOf source ms es ps) i j n (a.bufferOf dest md ed pd) with
    | error f =>
      rw [rejects_copyBetween hs ho hcopy]
      exact ⟨⟨f, rfl⟩, rfl⟩
    | ok c => exact absurd (Buffer.copyOver_ok_bounds hcopy) hmay

theorem forgetFailures_settle (hs : a.Seat name m e p) (h : (a.bufferOf name m e p).Unmoved b) :
    (a.settle name m e.pool b).forgetFailures = a.forgetFailures := by
  rw [settle_of_same hs h.same]
  exact forgetFailures_setPool hs.pool h.pool

theorem pour_refused (ha : a.Valid) (hs : a.Seat source ms es ps) (ho : a.Seat dest md ed pd)
    (hpool : pd.Orderly) (hgranted : ∀ s, ed.group.storage = some s → s.Granted pd.system)
    (hmay : ¬(n ≤ ms.handle.readable ∧ (a.bufferOf dest md ed pd).Ready n)) :
    (∃ f, (pour source dest n a).result = .error (.fault f)) ∧
      (pour source dest n a).state.forgetFailures = a.forgetFailures := by
  cases hpeek : (a.bufferOf source ms es ps).peek n with
  | error f =>
    rw [rejects_pour_from hs hpeek dest]
    exact ⟨⟨f, rfl⟩, rfl⟩
  | ok bytes =>
    obtain ⟨hn, hread⟩ := Buffer.peek_eq_ok hpeek
    have hlen := Buffer.length_of_read hread
    have happend := onBuffer_of_seat ho (lift (Buffer.append bytes))
    have hrefuses := Buffer.append_meets (ha.buffer ho) bytes
    rcases hr : Buffer.append bytes (a.bufferOf dest md ed pd) with ⟨f | ⟨⟩, c, log⟩
    · have hlift : lift (Buffer.append bytes) (a.bufferOf dest md ed pd) =
          ⟨.error (.fault f), c, log⟩ := by rw [lift, Action.mapError, hr]
      rw [hlift] at happend
      rw [hr] at hrefuses
      rw [pour, Action.bind_of_ok (onBuffer_ask_of_ok hs hpeek), Action.bind_of_error happend]
      exact ⟨⟨f, rfl⟩, forgetFailures_settle ho hrefuses.unmoved⟩
    · have hready := Buffer.ready_of_append (ha.buffer ho) hpool hgranted hr
      rw [hlen] at hready
      exact absurd ⟨hn, hready⟩ hmay

theorem pour_settles (h : a.Reachable) (hs : a.Seat source ms es ps) (ho : a.Seat dest md ed pd)
    (hne : source ≠ dest) (live : 0 < es.group.count) (hlive : 0 < ed.group.count) (n : Nat) :
    Settles ()
      (n ≤ ms.handle.readable ∧ md.handle.readOnly = false ∧ md.handle.Takes n ∧
        (a.bufferOf dest md ed pd).Affords n)
      (Poured source dest ((a.bufferOf source ms es ps).unread.take n) (a.bufferOf source ms es ps)
        (a.bufferOf dest md ed pd) a) a (pour source dest n a) := by
  have hv := h.valid.buffer hs
  have hw := h.valid.buffer ho
  refine ⟨fun ⟨hn, hopen, htakes, hafford⟩ => ?_, fun hmay => ?_⟩
  · have hpeek := Buffer.peek_of_readable hv live hn
    have hlen := Buffer.length_of_read (Buffer.peek_eq_ok hpeek).2
    have hready : (a.bufferOf dest md ed pd).Ready
        ((a.bufferOf source ms es ps).unread.take n).length :=
      hlen.symm ▸ ⟨hw, hlive, hopen, htakes, hafford hlive hopen⟩
    obtain ⟨c, log, happend, hlong, hover⟩ := hready.append_overlaid
    obtain ⟨hok, hstate, e, p, hs'⟩ := pour_of_append h.valid hs ho hne hpeek happend
    have hpoured := poured_of_settle (b := a.bufferOf source ms es ps) ho hne hs' rfl hlong
      (overlaid_settle h.valid ho hover)
    rw [hlen, ← hstate] at hpoured
    exact ⟨hok, hpoured⟩
  · obtain ⟨hpool, hgranted⟩ := h.buffer_orderly (buffer_of_seat ho)
    refine pour_refused h.valid hs ho hpool hgranted fun ⟨hn, hready⟩ => hmay ?_
    exact ⟨hn, hready.writable, hready.takes, fun _ _ => hready.housed⟩

theorem run_exchange (hb : a.buffer name = .ok b) (ho : a.buffer dest = .ok o) (hne : name ≠ dest)
    (x : Exchange) : (Command.exchange name dest x).run a = x.answer name dest a := by
  change x.run name dest a = _
  rw [Exchange.run, Action.ask_bind_of_ok ho, Action.ask_bind_of_ok hb,
    if_neg fun hsame => hne hsame.1]

/-- A transfer between two handles takes what the source shows when it begins, whatever the windows of
the two have in common, and changes no other byte that a handle shows. -/
theorem Reachable.transfers_snapshot (h : a.Reachable) (hne : source ≠ dest)
    (hb : a.buffer source = .ok b) (ho : a.buffer dest = .ok o) (live : 0 < b.group.count)
    (hlive : 0 < o.group.count) (i j n : Nat) :
    (∀ c ∈ [Command.exchange source dest (.getBytesTo i j n),
        .exchange dest source (.setBytesFrom j i n)],
      Settles .done
        (i + n ≤ b.handle.capacity ∧ o.handle.readOnly = false ∧ j + n ≤ o.handle.capacity)
        (fun a' => ∃ bytes, b.read i n = .ok bytes ∧ Overwritten dest j bytes a a') a (c.run a)) ∧
      ∀ c ∈ [Command.exchange source dest (.readInto n), .exchange dest source (.writeFrom n)],
        Settles .done
          (n ≤ b.handle.readable ∧ o.handle.readOnly = false ∧ o.handle.Takes n ∧ o.Affords n)
          (Poured source dest (b.unread.take n) b o a) a (c.run a) := by
  have hrun := run_exchange hb ho hne
  have hback := run_exchange ho hb (Ne.symm hne)
  obtain ⟨ms, es, ps, hs, rfl⟩ := seat_of_buffer h.valid hb
  obtain ⟨md, ed, pd, hd, rfl⟩ := seat_of_buffer h.valid ho
  have hcopy := (copyBetween_settles h.valid hs hd live hlive i j n).then_done
  have hpour := (pour_settles h hs hd hne live hlive n).then_done
  refine ⟨fun c hc => ?_, fun c hc => ?_⟩
  · simp only [List.mem_cons, List.not_mem_nil, or_false] at hc
    rcases hc with rfl | rfl
    · rw [hrun]
      exact hcopy
    · rw [hback]
      exact hcopy
  · simp only [List.mem_cons, List.not_mem_nil, or_false] at hc
    rcases hc with rfl | rfl
    · rw [hrun]
      exact hpour
    · rw [hback]
      exact hpour

def twins : Arena :=
  after {} [.make (.allocate 4 12) "left", .change "left" (.append [1, 2, 3]),
    .derive "left" .duplicate "right"]

/-- The copy overlaps what it was taken from, and the append replaces the storage that is read. -/
theorem transfers_snapshot_twins :
    ∃ b o, twins.buffer "left" = .ok b ∧ twins.buffer "right" = .ok o ∧
      ((Command.exchange "left" "right" (.getBytesTo 0 1 3)).run twins).result = .ok .done ∧
      Overwritten "right" 1 [1, 2, 3] twins
        ((Command.exchange "left" "right" (.getBytesTo 0 1 3)).run twins).state ∧
      ((Command.exchange "left" "right" (.readInto 3)).run twins).result = .ok .done ∧
      Poured "left" "right" [1, 2, 3] b o twins
        ((Command.exchange "left" "right" (.readInto 3)).run twins).state := by
  have hreach : twins.Reachable := ⟨_, _, by decide, rfl⟩
  obtain ⟨b, hb, hread, hwindow, hreadable, hunread, live⟩ : ∃ b, twins.buffer "left" = .ok b ∧
      b.read 0 3 = .ok [1, 2, 3] ∧ b.handle.capacity = 4 ∧ b.handle.readable = 3 ∧
      b.unread.take 3 = [1, 2, 3] ∧ 0 < b.group.count := ⟨_, rfl, rfl, rfl, rfl, rfl, by decide⟩
  obtain ⟨o, ho, hopen, hroom, htakes, hafford, hlive⟩ : ∃ o, twins.buffer "right" = .ok o ∧
      o.handle.readOnly = false ∧ o.handle.capacity = 4 ∧ o.handle.Takes 3 ∧
      o.Affords 3 ∧ 0 < o.group.count :=
    ⟨_, rfl, rfl, rfl, .inr (by decide), fun _ _ _ =>
      .inr (Storage.checkKind_heap (Nat.le_trans (Nat.min_le_right _ _) (by decide))), by decide⟩
  obtain ⟨hcopies, hpours⟩ := hreach.transfers_snapshot (show "left" ≠ "right" by decide) hb ho live
    hlive 0 1 3
  obtain ⟨hcopied, bytes, hbytes, hover⟩ := (hcopies _ List.mem_cons_self).granted
    ⟨by omega, hopen, by omega⟩
  obtain ⟨hpoured, hpour⟩ := (hpours _ List.mem_cons_self).granted
    ⟨by omega, hopen, htakes, hafford⟩
  cases hread.symm.trans hbytes
  rw [hunread] at hpour
  exact ⟨b, o, hb, ho, hcopied, hover, hpoured, hpour⟩

example :
    ((Command.exchange "left" "right" (.readInto 3)).run twins).state.storageAt 0 =
      some ⟨.heap, [1, 2, 3, 1, 2, 3, 0, 0], 12⟩ := by decide +kernel

end Arena

end SharedBuffer
