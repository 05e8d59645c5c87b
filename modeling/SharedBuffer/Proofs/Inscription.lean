import SharedBuffer.Proofs.Adjusting
import SharedBuffer.Proofs.Lengthening

/-!
Writing text. The room that is made beforehand is for the worst that a text of its length may come to;
it is made only where the window may grow so far, and what is written are the encoded bytes. Main
statement: text is written exactly where its encoded bytes are taken, and the window is then as large as
the request for the worst length would make it, if that may be, and otherwise as the request for the
real length would.
-/

namespace SharedBuffer

namespace Handle

def Allots (worst : Nat) (h : Handle) : Prop :=
  h.autoExpand = true ∧ h.writable < worst ∧ worst ≤ h.maxWritable

instance (worst : Nat) (h : Handle) : Decidable (h.Allots worst) :=
  inferInstanceAs (Decidable (_ ∧ _ ∧ _))

def textRoom (worst length : Nat) (h : Handle) : Nat := if h.Allots worst then worst else length

end Handle

namespace Buffer

open SharedBuffer.Action (current_bind ask_bind_of_ok)

variable {b : Buffer} {worst n : Nat} {bytes : Bytes}

section Encoded

variable (hmut : b.checkMutable = .ok ())
include hmut

theorem appendEncoded_of_wants (h : wantsReserve worst b.handle = true) :
    appendEncoded worst bytes b =
      (reserve worst >>= fun _ => append bytes >>= fun _ => pure bytes.length) b := by
  rw [appendEncoded, current_bind, ask_bind_of_ok hmut, if_pos h]

theorem appendEncoded_of_not_wants (h : wantsReserve worst b.handle = false) :
    appendEncoded worst bytes b = (append bytes >>= fun _ => pure bytes.length) b := by
  rw [appendEncoded, current_bind, ask_bind_of_ok hmut, h]
  rfl

theorem reserve_of_not_takes (h : ¬b.handle.Takes n) :
    ∃ f, f.kind? = some .capacityExceeded ∧ reserve n b = ⟨.error f, b, []⟩ := by
  cases b.handle.demand n with
  | fits hfits => exact absurd (.inl hfits) h
  | fixed hmore hfixed => exact reserve_of_fixed hmut hmore hfixed
  | beyond hmore hgrow hmax => exact reserve_of_beyond hmut hmore hgrow hmax
  | grows hgrows => exact absurd (Handle.takes_iff.2 (.inr hgrows)) h

theorem appendEncoded_of_not_takes (hb : b.Valid) (hworst : bytes.length ≤ worst)
    (h : ¬b.handle.Takes bytes.length) :
    ∃ f, f.kind? = some .capacityExceeded ∧ appendEncoded worst bytes b = ⟨.error f, b, []⟩ := by
  obtain ⟨f, hkind, hreserve⟩ := reserve_of_not_takes hmut h
  have hwants : wantsReserve worst b.handle = false := by
    rw [← Bool.not_eq_true]
    exact fun hwants => h ((takes_of_wantsReserve hb hwants).mono hworst)
  have happend : append bytes b = ⟨.error f, b, []⟩ := Action.bind_of_error hreserve
  exact ⟨f, hkind, (appendEncoded_of_not_wants hmut hwants).trans (Action.bind_of_error happend)⟩

end Encoded

theorem Ready.appendEncoded_worst (h : b.Ready worst) (hworst : bytes.length ≤ worst)
    (hwants : wantsReserve worst b.handle = true) :
    ∃ c log, appendEncoded worst bytes b = ⟨.ok bytes.length, c, log⟩ ∧
      b.Lengthened (b.handle.fitted worst) bytes c := by
  have hmut := (checkMutable_eq_ok_iff b).2 ⟨h.live, h.writable⟩
  obtain ⟨c, log, hreserve, hwide⟩ := h.reserve
  obtain ⟨d, -, happend, hlong⟩ := hwide.append h hworst
  have hput : (Buffer.append bytes >>= fun _ => pure bytes.length) c =
      ⟨.ok bytes.length, d, []⟩ := Action.map_of_ok (fun _ => bytes.length) happend
  exact ⟨d, log ++ [], (appendEncoded_of_wants hmut hwants).trans (Action.bind_eq_ok hreserve hput),
    hlong⟩

theorem Ready.appendEncoded_real (h : b.Ready bytes.length)
    (hwants : wantsReserve worst b.handle = false) :
    ∃ c log, appendEncoded worst bytes b = ⟨.ok bytes.length, c, log⟩ ∧
      b.Lengthened (b.handle.fitted bytes.length) bytes c := by
  have hmut := (checkMutable_eq_ok_iff b).2 ⟨h.live, h.writable⟩
  obtain ⟨c, log, happend, hlong⟩ := h.append
  have hall := Action.map_of_ok (fun _ => bytes.length) happend
  exact ⟨c, log, (appendEncoded_of_not_wants hmut hwants).trans hall, hlong⟩

theorem Houses.le_longest (h : b.Houses n)
    (hgranted : ∀ s, b.group.storage = some s → s.Granted b.pool.system) : n ≤ Word.longest := by
  rcases h with ⟨-, s, hs, hle⟩ | hkind
  · exact Nat.le_trans hle (hgranted s hs).capacity_le_longest
  · exact Storage.le_longest_of_checkKind hkind

/-- The worst length is held at the greatest word; for so many bytes there is never room. -/
theorem wantsReserve_iff (hb : b.Valid) (live : 0 < b.group.count) (hopen : b.handle.readOnly = false)
    (hgranted : ∀ s, b.group.storage = some s → s.Granted b.pool.system)
    (hstorage : b.Affords (min worst Word.largest)) :
    wantsReserve (min worst Word.largest) b.handle = true ↔ b.handle.Allots worst := by
  have hmax := hb.handle.max_le_largest
  by_cases hword : worst ≤ Word.largest
  · rw [Nat.min_eq_left hword]
    simp only [wantsReserve, Bool.and_eq_true, decide_eq_true_eq, and_assoc, Handle.Allots]
  · rw [Nat.min_eq_right (by omega)] at hstorage ⊢
    refine iff_of_false (fun hwants => ?_) fun hallots => ?_
    · have htakes := takes_of_wantsReserve hb hwants
      simp only [wantsReserve, Bool.and_eq_true, decide_eq_true_eq] at hwants
      have hgrows := (Handle.takes_iff.1 htakes).resolve_left (Nat.not_le.2 hwants.1.2)
      have hlarge := (hb.handle.grown_bounds hgrows).1
      have hsmall := (hstorage live hopen hgrows).le_longest hgranted
      have hlongest : Word.longest < Word.largest := by decide
      omega
    · have hle := hallots.2.2
      simp only [Handle.maxWritable] at hle
      omega

theorem appendEncoded_lengthens (hb : b.Valid) (live : 0 < b.group.count)
    (hopen : b.handle.readOnly = false)
    (hgranted : ∀ s, b.group.storage = some s → s.Granted b.pool.system)
    (hlength : bytes.length ≤ min worst Word.largest) (hreal : b.Affords bytes.length)
    (hworst : b.Affords (min worst Word.largest)) (htakes : b.handle.Takes bytes.length) :
    b.Ready (b.handle.textRoom worst bytes.length) ∧
      ∃ c log, appendEncoded (min worst Word.largest) bytes b = ⟨.ok bytes.length, c, log⟩ ∧
        b.Lengthened (b.handle.fitted (b.handle.textRoom worst bytes.length)) bytes c := by
  have hwants := wantsReserve_iff hb live hopen hgranted hworst
  by_cases hallots : b.handle.Allots worst
  · have hmax := hb.handle.max_le_largest
    have hle := hallots.2.2
    simp only [Handle.maxWritable] at hle
    have hword : min worst Word.largest = worst := Nat.min_eq_left (by omega)
    rw [hword] at hwants hworst hlength ⊢
    have hready : b.Ready worst :=
      ⟨hb, live, hopen, takes_of_wantsReserve hb (hwants.2 hallots), hworst live hopen⟩
    rw [Handle.textRoom, if_pos hallots]
    exact ⟨hready, hready.appendEncoded_worst hlength (hwants.2 hallots)⟩
  · have hready : b.Ready bytes.length := ⟨hb, live, hopen, htakes, hreal live hopen⟩
    have hnot := Bool.eq_false_iff.2 (mt hwants.1 hallots)
    rw [Handle.textRoom, if_neg hallots]
    exact ⟨hready, hready.appendEncoded_real hnot⟩

end Buffer

namespace Change

open Text (Utf16.units)

inductive Inscribes : Change → Bytes → Nat → Prop
  | text (text : List Char) (charset : Charset) :
    Inscribes (.writeString text charset) (charset.encode text)
      ((Utf16.units text).length * charset.maxBytesPerUnit)
  | line (text : List Char) :
    Inscribes (.writeLine text) (Charset.utf8.encode text ++ [10])
      ((Utf16.units text).length * Charset.utf8.maxBytesPerUnit + 1)

variable {c : Change} {bytes : Bytes} {worst : Nat}

theorem Inscribes.length_le (h : c.Inscribes bytes worst) : bytes.length ≤ worst := by
  cases h with
  | text text charset => exact charset.length_encode_le text
  | line text =>
    rw [List.length_append, List.length_singleton]
    exact Nat.succ_le_succ (Charset.utf8.length_encode_le text)

theorem Inscribes.run_eq (h : c.Inscribes bytes worst) :
    c.run = Answer.number <$> Arena.lift (Buffer.appendEncoded (min worst Word.largest) bytes) := by
  cases h with
  | text text charset => rfl
  | line text =>
    have hworst : Word.addSaturating (Charset.utf8.worstLength text) 1 =
        min ((Utf16.units text).length * Charset.utf8.maxBytesPerUnit + 1) Word.largest := by
      simp only [Word.addSaturating, Charset.worstLength, Word.mulSaturating]
      omega
    rw [← hworst]
    rfl

theorem Inscribes.length_le_worst (h : c.Inscribes bytes worst) (hfits : c.Fits) :
    bytes.length ≤ min worst Word.largest := by
  refine Nat.le_min.2 ⟨h.length_le, ?_⟩
  cases h with
  | text text charset =>
    exact Nat.le_trans (charset.length_encode_le_worst hfits) (Nat.min_le_right _ _)
  | line text => exact Nat.le_trans (Charset.length_line_le_worst hfits) (Nat.min_le_right _ _)

end Change

namespace Arena

variable {a : Arena} {name : String} {b : Buffer} {c : Change} {bytes : Bytes} {worst : Nat}

/-- Text is written exactly where its encoded bytes are taken, as long as the storage can be had. It is
then appended as it is, with at most one change of the capacity, which becomes what a request for the
room of the text makes it. A text that is not taken leaves everything as it was. -/
theorem Reachable.text_written (h : a.Reachable) (hb : a.buffer name = .ok b)
    (live : 0 < b.group.count) (hopen : b.handle.readOnly = false) (hc : c.Inscribes bytes worst)
    (hfits : c.Fits) (hreal : b.Affords bytes.length)
    (hworst : b.Affords (min worst Word.largest)) :
    let written := (Command.change name c).run a
    let reserved := (Command.change name (.reserve (b.handle.textRoom worst bytes.length))).run a
    bytes.length ≤ worst ∧
      (written.result = .ok (.number bytes.length) ↔ b.handle.Takes bytes.length) ∧
      (b.handle.Takes bytes.length → adjustments written.events ≤ 1 ∧
        ∃ d e, reserved.result = .ok .done ∧ reserved.state.buffer name = .ok d ∧
          written.state.buffer name = .ok e ∧ b.Lengthened d.handle.capacity bytes e) ∧
      (¬b.handle.Takes bytes.length →
        ∃ f, f.kind? = some .capacityExceeded ∧ written = ⟨.error (.fault f), a, []⟩) := by
  intro written reserved
  have hbv := h.valid.of_buffer hb
  obtain ⟨-, hgranted⟩ := h.buffer_orderly hb
  have hlength := hc.length_le_worst hfits
  have hrun : written = onBuffer name (Answer.number <$> lift
      (Buffer.appendEncoded (min worst Word.largest) bytes)) a := by rw [← hc.run_eq]; rfl
  obtain ⟨m, e, p, hs, hseat⟩ := seat_of_buffer h.valid hb
  by_cases htakes : b.handle.Takes bytes.length
  · obtain ⟨hready, u, log, hu, hlong⟩ :=
      Buffer.appendEncoded_lengthens hbv live hopen hgranted hlength hreal hworst htakes
    obtain ⟨a₁, hwritten, hbuffer⟩ := run_of_ok h.valid hb hu hlong.group.shared Answer.number
    obtain ⟨d, more, hd, hwide⟩ := hready.reserve
    obtain ⟨a₂, hreserved, hroom⟩ := run_of_ok h.valid hb hd hwide.group.shared fun _ => Answer.done
    have hreserved : reserved = _ := hreserved
    have honce : adjustments written.events ≤ 1 := by
      have hevents : written = _ := onBuffer_of_seat hs c.run
      rw [hevents, ← hseat]
      exact c.adjusts_once hbv hfits
    rw [hwritten] at hrun
    refine ⟨hc.length_le, iff_of_true (by rw [hrun]) htakes, fun _ => ⟨honce, ?_⟩,
      fun hnot => absurd htakes hnot⟩
    rw [hrun, hreserved]
    refine ⟨d, u, rfl, hroom, hbuffer, ?_⟩
    rw [hwide.handle]
    exact hlong
  · have hmut := (Buffer.checkMutable_eq_ok_iff b).2 ⟨live, hopen⟩
    obtain ⟨f, hkind, hrefused⟩ := Buffer.appendEncoded_of_not_takes hmut hbv hlength htakes
    rw [onBuffer_map hs, ← hseat, hrefused] at hrun
    have hwritten : written = ⟨.error (.fault f), a, []⟩ := by
      rw [hrun, hseat]
      exact congrArg (Outcome.mk _ · []) (settle_self hs)
    refine ⟨hc.length_le, iff_of_false (fun hok => ?_) htakes, fun h => absurd h htakes,
      fun _ => ⟨f, hkind, hwritten⟩⟩
    rw [hwritten] at hok
    cases hok

def ruled : Arena := after {} [.make (.allocate 4 64) "root"]

/-- The text fits, and yet room is made for the six bytes that it could have come to. -/
theorem text_written_ruled :
    ((Command.change "root" (.writeString ['a', '€'] .utf8)).run ruled).result = .ok (.number 4) ∧
      ∃ b d e, ruled.buffer "root" = .ok b ∧
        ((Command.change "root" (.reserve 6)).run ruled).state.buffer "root" = .ok d ∧
        ((Command.change "root" (.writeString ['a', '€'] .utf8)).run ruled).state.buffer "root" =
          .ok e ∧ b.Lengthened d.handle.capacity [97, 226, 130, 172] e := by
  have hreach : ruled.Reachable := ⟨_, _, by decide, rfl⟩
  have hb : ruled.buffer "root" = .ok ⟨.root 4 64 0 true, .holding ⟨.heap, [0, 0, 0, 0], 64⟩,
    (Pool.lend .heap 4 64 (.plain {})).state, false⟩ := rfl
  have hstorage : ∀ n, Buffer.Affords n ⟨.root 4 64 0 true,
      .holding ⟨.heap, [0, 0, 0, 0], 64⟩, (Pool.lend .heap 4 64 (.plain {})).state, false⟩ :=
    fun _ _ _ _ => .inr (Storage.checkKind_heap (Nat.le_trans (Nat.min_le_right _ _) (by decide)))
  obtain ⟨-, hiff, htaken, -⟩ := hreach.text_written hb (by decide) rfl
    (.text ['a', '€'] .utf8) (by decide) (hstorage _) (hstorage _)
  have htakes : (Handle.root 4 64 0 true).Takes (Charset.utf8.encode ['a', '€']).length :=
    .inl (by decide)
  obtain ⟨-, d, e, -, hd, he, hlong⟩ := htaken htakes
  exact ⟨hiff.2 htakes, _, d, e, hb, hd, he, hlong⟩

end Arena

end SharedBuffer
