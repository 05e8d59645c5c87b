import SharedBuffer.Proofs.Cuts
import SharedBuffer.Proofs.Grants
import SharedBuffer.Proofs.Scanning

/-!
Lines. Main statement: reading line by line takes the decoded text apart at its line feeds, each line
without the carriage return at its end, and moves nothing but the reader; so that lines which were
written come back as they were.
-/

namespace SharedBuffer

def stripReturn (line : List Char) : List Char :=
  if line.getLast? = some '\r' then line.dropLast else line

namespace Bytes

variable {byte : UInt8} {us : Bytes}

theorem idxOf?_cut (hus : byte ∉ us) (vs : Bytes) :
    (us ++ byte :: vs).idxOf? byte = some us.length := by
  rw [List.idxOf?, List.findIdx?_append, ← List.idxOf?, List.idxOf?_eq_none_iff.2 hus]
  simp [List.idxOf?_cons]

theorem length_splitOn (byte : UInt8) (bs : Bytes) :
    (bs.splitOn byte).length = bs.count byte + 1 := by
  induction bs using Bytes.cut_induction byte with
  | last bs hbs => rw [List.splitOn_eq_singleton hbs, List.count_eq_zero_of_not_mem hbs]; rfl
  | next us vs hus ih =>
    rw [List.splitOn_append_cons_self_of_not_mem hus, List.length_cons, ih, List.count_append,
      List.count_eq_zero_of_not_mem hus, List.count_cons_self, Nat.zero_add]

end Bytes

namespace Text.Utf8

theorem decode_trimReturn (line : Bytes) :
    decode (Buffer.trimReturn line) = stripReturn (decode line) := by
  rw [Buffer.trimReturn, stripReturn]
  split
  · next h =>
    obtain ⟨front, rfl⟩ := List.getLast?_eq_some_iff.1 h
    have hcut : decode (front ++ [13]) = decode front ++ ['\r'] :=
      decode_append_ascii front [] (by decide)
    rw [hcut, List.getLast?_concat, if_pos rfl, List.dropLast_concat, List.dropLast_concat]
  · next h =>
    have hlast : (decode line).getLast? ≠ some '\r' := fun hlast =>
      h (getLast?_of_decodeFrom sane_ground hlast (by decide) (by decide))
    rw [if_neg hlast]

end Text.Utf8

namespace Charset

theorem splitOn_decode (bytes : Bytes) :
    (utf8.decode bytes).splitOn '\n' = (bytes.splitOn 10).map utf8.decode :=
  Text.Utf8.splitOn_decode (b := 10) (by decide) (by decide) bytes

def line (text : List Char) : Bytes := utf8.encode text ++ [10]

theorem not_mem_encode {text : List Char} (h : '\n' ∉ text) : 10 ∉ utf8.encode text := fun hmem =>
  h (Text.Utf8.decode_encode text ▸ (Text.Utf8.mem_decode_iff (by decide) (by decide)).2 hmem)

theorem splitOn_lines {texts : List (List Char)} (h : ∀ text ∈ texts, '\n' ∉ text) :
    (texts.flatMap line).splitOn 10 = texts.map utf8.encode ++ [[]] := by
  induction texts with
  | nil => rfl
  | cons text texts ih =>
    have hfirst := not_mem_encode (h text List.mem_cons_self)
    rw [List.flatMap_cons, line, List.append_assoc, List.singleton_append,
      List.splitOn_append_cons_self_of_not_mem hfirst, ih fun t ht => h t (List.mem_cons_of_mem _ ht)]
    rfl

end Charset

namespace Buffer

variable {b : Buffer} {us vs : Bytes}

section ReadLine

variable (hb : b.Valid) (live : 0 < b.group.count)
include hb live

theorem readLine_of_cut (hcut : b.unread = us ++ 10 :: vs) (hus : 10 ∉ us) :
    readLine b = ⟨.ok (some (stripReturn (Charset.utf8.decode us))),
        b.moveCursor (Cursor.advanceReader (us.length + 1)), []⟩ ∧
      (b.moveCursor (Cursor.advanceReader (us.length + 1))).unread = vs := by
  have hlength := hb.length_unread live
  rw [hcut, List.length_append, List.length_cons] at hlength
  have hfound : b.distanceTo 10 = .ok (some us.length) := by
    rw [distanceTo_eq hb live, hcut, Bytes.idxOf?_cut hus]
  have hpeek := peek_of_readable hb live (n := us.length) (by omega)
  rw [hcut, List.take_left] at hpeek
  have hone : 1 ≤ (b.handle.cursor.advanceReader us.length).readable := by
    simp only [Handle.readable, Cursor.readable, Cursor.advanceReader] at hlength ⊢
    omega
  have hskip := skip_of_le (b := b.moveCursor (Cursor.advanceReader us.length)) live hone
  have hline : Charset.utf8.decode (trimReturn us) = stripReturn (Charset.utf8.decode us) :=
    Text.Utf8.decode_trimReturn us
  refine ⟨?_, ?_⟩
  · rw [readLine, Action.ask_bind_of_ok hfound]
    change (consume us.length >>= fun line => Action.update (skip 1) >>= fun _ =>
      pure (some (Charset.utf8.decode (trimReturn line)))) b = _
    rw [Action.bind_of_ok (consume_of_peek hpeek), Action.bind_of_ok (Action.update_of_ok hskip), hline]
    rfl
  · have hle : us.length + 1 ≤ b.handle.readable := by omega
    rw [unread_advance hb live hle, hcut]
    simp

theorem readLine_of_not_mem (hnone : 10 ∉ b.unread) : readLine b = ⟨.ok none, b, []⟩ := by
  have hfound : b.distanceTo 10 = .ok none := by
    rw [distanceTo_eq hb live, List.idxOf?_eq_none_iff.2 hnone]
  rw [readLine, Action.ask_bind_of_ok hfound]
  rfl

end ReadLine

open SharedBuffer.Action (meets_bind meets_ask_bind meets_then_pure current_bind)

theorem appendEncoded_unread {worst : Nat} {bytes : Bytes} (hb : b.Valid)
    (hworst : bytes.length ≤ worst) :
    (appendEncoded worst bytes b).Meets (fun _ c _ => c.unread = b.unread ++ bytes)
      fun _ _ _ => True := by
  rw [appendEncoded, current_bind]
  refine meets_ask_bind (fun _ _ => ?_) fun _ _ => trivial
  split
  · apply meets_bind
    refine ((reserve_meets hb worst).and (reserve_unread hb worst)).mono ?_ fun _ _ _ _ => trivial
    rintro _ d log ⟨hres, hunread⟩
    obtain ⟨s, -, hput, hnext⟩ := hres.ready hb hworst
    change ((append bytes >>= fun _ => pure bytes.length) d).Meets _ _
    rw [Action.bind_of_ok hput]
    exact hnext.trans (by rw [hunread])
  · exact meets_then_pure ((append_unread hb bytes).imp_error fun _ _ _ _ => trivial)

end Buffer

namespace Arena

open Charset (line splitOn_decode splitOn_lines)
open Table (find? put)

variable {a : Arena} {name : String} {b : Buffer} {m : Member} {e : Estate} {p : Pool}

def advanced (name : String) (n : Nat) (a : Arena) : Arena :=
  match find? name a.buffers with
  | none => a
  | some m => a.seatAt name ⟨m.group, m.handle.moveCursor (Cursor.advanceReader n)⟩

theorem advanced_of_member (hm : find? name a.buffers = some m) (n : Nat) :
    a.advanced name n = a.seatAt name ⟨m.group, m.handle.moveCursor (Cursor.advanceReader n)⟩ := by
  rw [advanced, hm]

theorem advanced_zero (hm : find? name a.buffers = some m) : a.advanced name 0 = a := by
  rw [advanced_of_member hm, seatAt]
  exact congrArg (fun t => { a with buffers := t }) (Table.put_of_find? hm)

theorem advanced_advanced (hm : find? name a.buffers = some m) (n k : Nat) :
    (a.advanced name n).advanced name k = a.advanced name (n + k) := by
  rw [advanced_of_member hm, advanced_of_member hm, advanced_of_member (Table.find?_put_self _ _ _)]
  simp only [seatAt, Table.put_put, Handle.moveCursor, Cursor.advanceReader, Nat.add_assoc]

theorem settle_advanced (hs : a.Seat name m e p) (n : Nat) :
    a.settle name m e.pool ((a.bufferOf name m e p).moveCursor (Cursor.advanceReader n)) =
      a.advanced name n := by
  rw [settle_moveCursor, settle_self hs, advanced_of_member hs.member]
  rfl

def readLine (name : String) : Command := .change name .readLine

def writeLine (name : String) (text : List Char) : Command := .change name (.writeLine text)

section Reading

variable {us vs : Bytes}

theorem Reachable.readLine_of_cut (h : a.Reachable) (hb : a.buffer name = .ok b)
    (live : 0 < b.group.count) (hcut : b.unread = us ++ 10 :: vs) (hus : 10 ∉ us) :
    (readLine name).run a = ⟨.ok (.line (some (stripReturn (Charset.utf8.decode us)))),
        a.advanced name (us.length + 1), []⟩ ∧
      ∃ c, (a.advanced name (us.length + 1)).buffer name = .ok c ∧ 0 < c.group.count ∧
        c.unread = vs := by
  obtain ⟨m, e, p, hs, rfl⟩ := seat_of_buffer h.valid hb
  obtain ⟨hread, hrest⟩ := Buffer.readLine_of_cut (h.valid.buffer hs) live hcut hus
  have hchange : Change.readLine.run (a.bufferOf name m e p) =
      ⟨.ok (.line (some (stripReturn (Charset.utf8.decode us)))), _, []⟩ :=
    Action.map_of_ok _ (lift_of_ok hread)
  have hrun : (readLine name).run a = _ := onBuffer_of_seat hs Change.readLine.run
  rw [hchange, settle_advanced hs] at hrun
  have hmoved : (a.advanced name (us.length + 1)).buffer name =
      .ok ((a.bufferOf name m e p).moveCursor (Cursor.advanceReader (us.length + 1))) := by
    rw [← settle_advanced hs]
    exact buffer_settle hs rfl
  exact ⟨hrun, _, hmoved, live, hrest⟩

theorem Reachable.readLine_of_not_mem (h : a.Reachable) (hb : a.buffer name = .ok b)
    (live : 0 < b.group.count) (hnone : 10 ∉ b.unread) :
    (readLine name).run a = ⟨.ok (.line none), a, []⟩ := by
  obtain ⟨m, e, p, hs, rfl⟩ := seat_of_buffer h.valid hb
  have hread := Buffer.readLine_of_not_mem (h.valid.buffer hs) live hnone
  have hchange : Change.readLine.run (a.bufferOf name m e p) = ⟨.ok (.line none), _, []⟩ :=
    Action.map_of_ok _ (lift_of_ok hread)
  have hrun : (readLine name).run a = _ := onBuffer_of_seat hs Change.readLine.run
  rwa [hchange, settle_self hs] at hrun

/-- The bytes that a handle has to be read are read line by line; what is behind the last line feed
stays. -/
structure ReadByLines (name : String) (a : Arena) (bytes : Bytes) : Prop where
  answers : replies a (List.replicate (bytes.count 10) (readLine name)) =
    (((Charset.utf8.decode bytes).splitOn '\n').take (bytes.count 10)).map
      fun line => (.ok (.line (some (stripReturn line))), [])
  states : ∀ k ≤ bytes.count 10, after a (List.replicate k (readLine name)) =
    a.advanced name (((bytes.splitOn 10).take k).map (·.length + 1)).sum
  last : (readLine name).run (after a (List.replicate (bytes.count 10) (readLine name))) =
    ⟨.ok (.line none), after a (List.replicate (bytes.count 10) (readLine name)), []⟩
  rest : ∃ c, (after a (List.replicate (bytes.count 10) (readLine name))).buffer name = .ok c ∧
    (bytes.splitOn 10).getLast? = some c.unread

theorem Reachable.readByLines (h : a.Reachable) (hb : a.buffer name = .ok b)
    (live : 0 < b.group.count) : ReadByLines name a b.unread := by
  generalize hbytes : b.unread = bytes
  -- One line a step: what is left behind its end is read in the arena that reading it has left.
  induction bytes using Bytes.cut_induction 10 generalizing a b with
  | last bytes hnone =>
    obtain ⟨m, e, p, hs, -⟩ := seat_of_buffer h.valid hb
    have hzero : bytes.count 10 = 0 := List.count_eq_zero_of_not_mem hnone
    refine ⟨?_, fun k hk => ?_, ?_, ?_⟩
    · rw [hzero]
      rfl
    · rw [hzero, Nat.le_zero] at hk
      rw [hk]
      exact (advanced_zero hs.member).symm
    · rw [hzero]
      exact h.readLine_of_not_mem hb live (hbytes ▸ hnone)
    · rw [hzero, List.splitOn_eq_singleton hnone, ← hbytes]
      exact ⟨b, hb, rfl⟩
  | next us vs hus ih =>
    obtain ⟨m, e, p, hs, -⟩ := seat_of_buffer h.valid hb
    obtain ⟨hrun, c, hc, hlive, hrest⟩ := h.readLine_of_cut hb live hbytes hus
    have hreach : ((readLine name).run a).state.Reachable := h.run trivial
    rw [hrun] at hreach
    have hvs := ih hreach hc hlive hrest
    have hcount : (us ++ 10 :: vs).count 10 = vs.count 10 + 1 := by
      rw [List.count_append, List.count_eq_zero_of_not_mem hus, List.count_cons_self, Nat.zero_add]
    have hpieces := List.splitOn_append_cons_self_of_not_mem hus vs
    have hafter (k : Nat) : after a (List.replicate (k + 1) (readLine name)) =
        after (a.advanced name (us.length + 1)) (List.replicate k (readLine name)) := by
      rw [List.replicate_succ, after, List.foldl_cons, hrun]
      rfl
    refine ⟨?_, fun k hk => ?_, ?_, ?_⟩
    · rw [hcount, List.replicate_succ, replies, hrun, hvs.answers, splitOn_decode, splitOn_decode,
        hpieces, List.map_cons, List.take_succ_cons, List.map_cons]
    · cases k with
      | zero => exact (advanced_zero hs.member).symm
      | succ k =>
        rw [hafter, hvs.states k (by omega), advanced_advanced hs.member, hpieces,
          List.take_succ_cons, List.map_cons, List.sum_cons]
    · rw [hcount, hafter]
      exact hvs.last
    · obtain ⟨d, hd, hlast⟩ := hvs.rest
      rw [hcount, hafter, hpieces, List.getLast?_cons, hlast]
      exact ⟨d, hd, rfl⟩

end Reading

section Writing

variable {texts : List (List Char)}

theorem Reachable.write_line (h : a.Reachable) (hb : a.buffer name = .ok b) (live : 0 < b.group.count)
    {text : List Char} (hfits : (Change.writeLine text).Fits) {v : Answer}
    (hok : ((writeLine name text).run a).result = .ok v) :
    ∃ c, ((writeLine name text).run a).state.buffer name = .ok c ∧ 0 < c.group.count ∧
      c.unread = b.unread ++ line text := by
  obtain ⟨m, e, p, hs, rfl⟩ := seat_of_buffer h.valid hb
  have hv := h.valid.buffer hs
  have hrun : (writeLine name text).run a = _ := onBuffer_of_seat hs (Change.writeLine text).run
  have hwritten : ((Change.writeLine text).run (a.bufferOf name m e p)).Meets
      (fun _ c _ => c.unread = (a.bufferOf name m e p).unread ++ line text) fun _ _ _ => True :=
    Action.meets_map (Action.meets_mapError
      (Buffer.appendEncoded_unread hv (Charset.length_line_le_worst hfits)))
  rw [hrun] at hok ⊢
  obtain ⟨hdoes, hunread⟩ := (((Change.writeLine text).run_meets hv hfits).and hwritten).of_ok hok
  exact ⟨_, buffer_of_seat (seat_settle hs _), hdoes.live rfl live, hunread⟩

theorem Reachable.write_lines (h : a.Reachable) (hb : a.buffer name = .ok b) (live : 0 < b.group.count)
    (hfits : ∀ text ∈ texts, (Change.writeLine text).Fits)
    (hok : ∀ r ∈ replies a (texts.map (writeLine name)), ∃ v, r.1 = .ok v) :
    (after a (texts.map (writeLine name))).Reachable ∧
      ∃ c, (after a (texts.map (writeLine name))).buffer name = .ok c ∧ 0 < c.group.count ∧
        c.unread = b.unread ++ texts.flatMap line := by
  induction texts generalizing a b with
  | nil => exact ⟨h, b, hb, live, (List.append_nil _).symm⟩
  | cons text texts ih =>
    obtain ⟨v, hv⟩ := hok _ List.mem_cons_self
    obtain ⟨c, hc, hlive, hunread⟩ := h.write_line hb live (hfits text List.mem_cons_self) hv
    have hnext : ((writeLine name text).run a).state.Reachable :=
      h.run (c := writeLine name text) (hfits text List.mem_cons_self)
    obtain ⟨hreach, d, hd, hdlive, hall⟩ := ih hnext hc hlive
      (fun t ht => hfits t (List.mem_cons_of_mem _ ht)) fun r hr => hok r (List.mem_cons_of_mem _ hr)
    refine ⟨hreach, d, hd, hdlive, ?_⟩
    rw [hall, hunread, List.append_assoc, List.flatMap_cons]

end Writing

theorem Reachable.lines_read (h : a.Reachable) (hb : a.buffer name = .ok b) (live : 0 < b.group.count) :
    (Charset.utf8.decode b.unread).splitOn '\n' =
        (b.unread.splitOn 10).map Charset.utf8.decode ∧
      ReadByLines name a b.unread ∧
      (b.unread = [] → ∀ texts : List (List Char),
        (∀ text ∈ texts, '\n' ∉ text ∧ text.getLast? ≠ some '\r' ∧ (Change.writeLine text).Fits) →
        (∀ r ∈ replies a (texts.map (writeLine name)), ∃ v, r.1 = .ok v) →
        replies (after a (texts.map (writeLine name)))
            (List.replicate texts.length (readLine name)) =
          texts.map fun text => (.ok (.line (some text)), [])) := by
  refine ⟨splitOn_decode _, h.readByLines hb live, fun hempty texts htexts hok => ?_⟩
  obtain ⟨hreach, c, hc, hlive, hunread⟩ := h.write_lines hb live (fun t ht => (htexts t ht).2.2) hok
  have hanswers := (hreach.readByLines hc hlive).answers
  have hpieces := splitOn_lines fun t ht => (htexts t ht).1
  rw [hempty, List.nil_append] at hunread
  have hcount : (texts.flatMap line).count 10 = texts.length := by
    have hlength := Bytes.length_splitOn 10 (texts.flatMap line)
    rw [hpieces, List.length_append, List.length_map] at hlength
    exact (Nat.succ.inj hlength).symm
  rw [hunread, splitOn_decode, hpieces, hcount] at hanswers
  have hround (text : List Char) : Charset.utf8.decode (Charset.utf8.encode text) = text :=
    Text.Utf8.decode_encode text
  have htaken : ((texts.map Charset.utf8.encode ++ [[]]).map Charset.utf8.decode).take texts.length =
      texts := by
    simp [Function.comp_def, hround]
  rw [hanswers, htaken]
  refine List.map_congr_left fun text ht => ?_
  rw [stripReturn, if_neg (htexts text ht).2.1]

/-- Lines that end in one or two carriage returns, a character cut off by a line feed, an empty line,
and a last line without an end. -/
def scrawled : Bytes := [97, 13, 13, 10, 226, 130, 10, 13, 10, 10, 98]

theorem lines_read_scrawled :
    replies (adopted scrawled) (List.replicate 4 (readLine "root")) =
        [(.ok (.line (some ['a', '\r'])), []), (.ok (.line (some ['\uFFFD'])), []),
          (.ok (.line (some [])), []), (.ok (.line (some [])), [])] ∧
      after (adopted scrawled) (List.replicate 4 (readLine "root")) =
        (adopted scrawled).advanced "root" 10 ∧
      replies (after (adopted []) ([['h', 'é'], [], ['\r', 'x']].map (writeLine "root")))
          (List.replicate 3 (readLine "root")) =
        [(.ok (.line (some ['h', 'é'])), []), (.ok (.line (some [])), []),
          (.ok (.line (some ['\r', 'x'])), [])] := by
  have hfits : scrawled.length ≤ Word.longest := by decide
  obtain ⟨-, hread, -⟩ := (reachable_adopted hfits).lines_read (buffer_adopted _) Nat.zero_lt_one
  rw [unread_adoptedRoot hfits] at hread
  have haccepted : ∀ r ∈ replies (adopted []) ([['h', 'é'], [], ['\r', 'x']].map (writeLine "root")),
      r.1.toOption.isSome := by
    decide +kernel
  have hok : ∀ r ∈ replies (adopted []) ([['h', 'é'], [], ['\r', 'x']].map (writeLine "root")),
      ∃ v, r.1 = .ok v := fun r hr => by
    have hsome := haccepted r hr
    rcases r with ⟨f | v, log⟩
    · cases hsome
    · exact ⟨v, rfl⟩
  have hempty : ([] : Bytes).length ≤ Word.longest := by decide
  obtain ⟨-, -, hback⟩ := (reachable_adopted hempty).lines_read (buffer_adopted _) Nat.zero_lt_one
  exact ⟨hread.answers, hread.states 4 (by decide),
    hback (unread_adoptedRoot hempty) _ (by decide) hok⟩

end Arena

end SharedBuffer
