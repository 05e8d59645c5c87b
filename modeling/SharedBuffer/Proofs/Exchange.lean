import SharedBuffer.Proofs.Tenancy

/-!
Transfers between two buffers, which may belong to one group. Main statement: a transfer lays the
bytes of the one into the other as a whole, or is refused and leaves both.
-/

namespace SharedBuffer

namespace Buffer

variable {b o dest source : Buffer} {i j n : Nat}

theorem sound_compareContent (hb : b.Valid) (ho : o.Valid) : Sound (b.compareContent o) := by
  rw [compareContent, content]
  apply (ho.sound_read _ _).bind
  intro _ _
  exact (hb.sound_read _ _).bind fun _ _ => sound_ok _

theorem sound_sameContent (hb : b.Valid) (ho : o.Valid) : Sound (b.sameContent o) := by
  simp only [sameContent]
  refine .ite (fun _ => ?_) fun _ => sound_ok _
  exact (sound_compareContent hb ho).bind fun _ _ => sound_ok _

theorem sound_copyOver (hs : source.Valid) (hd : dest.Valid) (i j n : Nat) :
    Sound (copyOver source i j n dest) := by
  simp only [copyOver]
  apply (sound_checkMutable dest).bind
  intro _ _
  apply (sound_checkBounds _ _ _).bind
  intro _ _
  exact (hs.sound_read i n).bind fun bytes _ => hd.sound_overwrite j _ bytes

theorem copyOver_eq_ok {c : Buffer} (h : copyOver source i j n dest = .ok c) :
    ∃ bytes, source.read i n = .ok bytes ∧ dest.write j bytes = .ok c := by
  simp only [copyOver] at h
  obtain ⟨⟨⟩, -, h⟩ := except_bind_eq_ok.1 h
  obtain ⟨⟨⟩, -, h⟩ := except_bind_eq_ok.1 h
  exact except_bind_eq_ok.1 h

end Buffer

namespace Arena

open Table (find? put)
open SharedBuffer.Action (meets_bind meets_ask_bind meets_ask meets_map meets_then_pure meets_mapError)

variable {a a' : Arena} {name other source dest : String} {m ms md : Member} {e es ed : Estate}
  {p ps pd : Pool} {b : Buffer} {x : Account} {f : Failure}

def shown (name : String) (f : Buffer → Except Fault Bytes) (a : Arena) : Bytes :=
  match (a.buffer? name).map f with
  | some (.ok bytes) => bytes
  | _ => []

def entry (name : String) (f : Buffer → Effect) (a : Arena) : Account :=
  match find? name a.buffers, a.buffer? name with
  | some m, some b => .use name m.group (f b)
  | _, _ => {}

theorem Seat.buffer? (hs : a.Seat name m e p) : a.buffer? name = some (a.bufferOf name m e p) := by
  rw [Arena.buffer?, hs.member, Option.bind_some, hs.assemble]
  rfl

theorem seat_of_buffer (ha : a.Valid) (h : a.buffer name = .ok b) :
    ∃ m e p, a.Seat name m e p ∧ b = a.bufferOf name m e p := by
  cases hm : find? name a.buffers with
  | none =>
    have hnone : a.buffer? name = none := by rw [Arena.buffer?, hm, Option.bind_none]
    rw [buffer, hnone] at h
    simp at h
  | some m =>
    obtain ⟨e, p, hs⟩ := ha.seat hm
    rw [buffer, hs.buffer?] at h
    cases h
    exact ⟨m, e, p, hs, rfl⟩

theorem Valid.of_buffer (ha : a.Valid) (h : a.buffer name = .ok b) : b.Valid := by
  obtain ⟨m, e, p, hs, rfl⟩ := seat_of_buffer ha h
  exact ha.buffer hs

theorem foreseen_buffer (h : a.buffer name = .error f) : f.Foreseen := by
  simp only [buffer] at h
  split at h
  · cases h
    exact foreseen_of_none rfl
  · simp at h

theorem entry_of_seat (hs : a.Seat name m e p) (g : Buffer → Effect) :
    a.entry name g = .use name m.group (g (a.bufferOf name m e p)) := by
  rw [entry, hs.member, hs.buffer?]

theorem shown_of_seat (hs : a.Seat name m e p) {g : Buffer → Except Fault Bytes} {bytes : Bytes}
    (h : g (a.bufferOf name m e p) = .ok bytes) : a.shown name g = bytes := by
  rw [shown, hs.buffer?, Option.map_some, h]

theorem eq_of_used {g : Buffer → Effect} {user : String} (h : user ∈ (a.entry name g).used) :
    user = name := by
  simp only [entry] at h
  split at h
  · exact List.mem_singleton.1 h
  · simp at h

theorem seated_entry (name : String) (g : Buffer → Effect) (a : Arena) :
    (a.entry name g).seated = [] := by
  simp only [entry]
  split <;> rfl

theorem back_entry {g : Buffer → Effect} (name : String) (a : Arena) : (a.entry name g).back = [] := by
  simp only [entry]
  split <;> rfl

theorem gained_entry {f : Buffer → Effect} (h : ∀ b, (f b).gained = 0) (name : String) (a : Arena)
    (g : Nat) : (a.entry name f).gained g = 0 := by
  simp only [entry]
  split
  · simp only [Account.use, h, ite_self]
  · rfl

theorem lost_entry {f : Buffer → Effect} (h : ∀ b, (f b).lost = 0) (name : String) (a : Arena)
    (g : Nat) : (a.entry name f).lost g = 0 := by
  simp only [entry]
  split
  · simp only [Account.use, h, ite_self]
  · rfl

theorem Does.member (h : a.Does x a') (ha : a.Valid) (hm : find? name a.buffers = some m)
    (hused : name ∉ x.used) (hseated : name ∉ x.seated) : find? name a'.buffers = some m := by
  obtain ⟨ended, -, -, hcourse⟩ := h.course
  exact (hcourse.isolated ha hm hused hseated).1

theorem use_none (name : String) (g : Nat) : Account.use name g {} = { used := [name] } := by
  simp only [Account.use, ite_self]

theorem onBuffer_does (ha : a.Valid) {α : Type} {x : Action Failure Buffer α} {g : Buffer → Effect}
    (h : ∀ b, b.Valid → (x b).Meets (fun _ => b.Does (g b)) b.Fails) :
    (onBuffer name x a).Meets (fun _ a' _ => a.Does (a.entry name g) a') fun f a' _ => a.Fails f a' := by
  apply onBuffer_meets ha
  intro m e p hs
  apply (h _ (ha.buffer hs)).imp
  intro _ c log hdoes
  rw [entry_of_seat hs]
  exact does_settle ha hs hdoes

theorem onBuffer_ask_meets (ha : a.Valid) {α : Type} {g : Buffer → Except Fault α}
    (hg : ∀ b, b.Valid → Sound (g b)) :
    (onBuffer name (lift (Action.ask g)) a).Meets
      (fun v a' _ => a' = a ∧ ∃ m e p, a.Seat name m e p ∧ g (a.bufferOf name m e p) = .ok v)
      fun f a' _ => a.Fails f a' := by
  apply onBuffer_meets ha
  intro m e p hs
  refine meets_mapError (meets_ask (fun v hv => ?_) fun f hf => ?_)
  · exact ⟨settle_self hs, m, e, p, hs, hv⟩
  · exact (Buffer.refuses_self (hg _ (ha.buffer hs) f hf)).fails rfl

section Transfer

theorem copyBetween_meets (ha : a.Valid) (hs : a.Seat source ms es ps) (i j n : Nat) :
    (copyBetween source dest i j n a).Meets
      (fun _ a' _ => a.Does
        (a.entry dest fun o => .write (o.handle.offset + j) (a.shown source (Buffer.read i n))) a')
      fun f a' _ => a.Fails f a' := by
  refine meets_ask_bind (fun b hb => ?_) fun f hf => fails_self (foreseen_buffer hf)
  have hsource : b = a.bufferOf source ms es ps := by
    rw [buffer, hs.buffer?] at hb
    cases hb
    rfl
  rw [hsource]
  apply onBuffer_does ha
  intro o ho
  refine Buffer.Performs.lift (Buffer.performs_update ?_ ?_ rfl)
  · exact Buffer.sound_copyOver (ha.buffer hs) ho i j n
  · intro c hc
    obtain ⟨bytes, hread, hwrite⟩ := Buffer.copyOver_eq_ok hc
    rw [shown_of_seat hs hread]
    exact Buffer.course_write hwrite

/-- Once the bytes are in the other buffer, nothing can keep the reader from moving behind them. -/
theorem advance_course {c : Arena} (hc : c.Valid) (hm : find? source c.buffers = some m) {n : Nat}
    (hn : n ≤ m.handle.cursor.readable) :
    ∃ c' log, onBuffer source (lift (Action.modify (Buffer.moveCursor (Cursor.advanceReader n)))) c =
      ⟨.ok (), c', log⟩ ∧ Course { used := [source] } c c' ∧ (c.Tidy → c'.Tidy) := by
  obtain ⟨e, p, hs⟩ := hc.seat hm
  have hseek : SharedBuffer.Course {} (c.bufferOf source m e p)
      ((c.bufferOf source m e p).moveCursor (Cursor.advanceReader n)) [] :=
    Buffer.course_seek ((hc.buffer hs).handle.cursor.advanceReader hn)
  refine ⟨_, _, onBuffer_of_seat hs _, ?_, tidy_settle hc hs _⟩
  have hdeed := (Deed.use hs hseek).course
  rwa [use_none] at hdeed

/-- The bytes are laid behind the writer index of the one; only then does the reader of the other
move. -/
theorem pour_meets (ha : a.Valid) (hne : source ≠ dest) (n : Nat) :
    (pour source dest n a).Meets
      (fun _ a' _ => a.Does ((a.entry dest fun o => .write o.front (a.shown source (Buffer.peek n))).andThen
        { used := [source] }) a')
      fun f a' _ => a.Fails f a' := by
  apply meets_bind
  apply (onBuffer_ask_meets ha fun b hb => hb.sound_peek n).imp
  intro bytes _ log h
  obtain ⟨rfl, m, e, p, hs', hpeek⟩ := h
  rw [shown_of_seat hs' hpeek]
  apply meets_bind
  apply (onBuffer_does ha fun o ho => (Buffer.append_performs ho bytes).lift).imp
  intro _ c log' hdoes
  have hstay : find? source c.buffers = some m :=
    hdoes.member ha hs'.member (fun h => hne (eq_of_used h))
      (by rw [seated_entry]; exact List.not_mem_nil)
  obtain ⟨c', log'', hadvance, hcourse, htidy⟩ :=
    advance_course (hdoes.valid ha) hstay (Buffer.peek_eq_ok hpeek).1
  rw [hadvance]
  exact hdoes.then (y := { used := [source] }) hcourse htidy

end Transfer

end Arena

namespace Exchange

open Arena (Account seat_of_buffer foreseen_buffer fails_self foreseen_of_none foreseen_fault does_refl)
open SharedBuffer.Action (meets_ask_bind meets_ask meets_map meets_then_pure meets_mapError)

variable {a : Arena} {name other : String}

def account (name other : String) (a : Arena) : Exchange → Account
  | .getBytesTo index otherIndex length =>
    a.entry other fun o => .write (o.handle.offset + otherIndex) (a.shown name (Buffer.read index length))
  | .setBytesFrom index otherIndex length =>
    a.entry name fun b =>
      .write (b.handle.offset + index) (a.shown other (Buffer.read otherIndex length))
  | .readInto n =>
    (a.entry other fun o => .write o.front (a.shown name (Buffer.peek n))).andThen { used := [name] }
  | .writeFrom n =>
    (a.entry name fun b => .write b.front (a.shown other (Buffer.peek n))).andThen
      { used := [other] }
  | .equals | .compare => {}

theorem seated_account (name other : String) (a : Arena) (x : Exchange) :
    (x.account name other a).seated = [] := by
  cases x with
  | equals => rfl
  | compare => rfl
  | readInto n => rw [account, Account.andThen, Arena.seated_entry, List.append_nil]
  | writeFrom n => rw [account, Account.andThen, Arena.seated_entry, List.append_nil]
  | _ => exact Arena.seated_entry _ _ a

theorem back_account (name other : String) (a : Arena) (x : Exchange) :
    (x.account name other a).back = [] := by
  cases x with
  | equals => rfl
  | compare => rfl
  | readInto n => exact (List.append_nil _).trans (Arena.back_entry _ a)
  | writeFrom n => exact (List.append_nil _).trans (Arena.back_entry _ a)
  | _ => exact Arena.back_entry _ a

theorem counts_account (name other : String) (a : Arena) (x : Exchange) (g : Nat) :
    (x.account name other a).gained g = 0 ∧ (x.account name other a).lost g = 0 := by
  cases x with
  | equals => exact ⟨rfl, rfl⟩
  | compare => exact ⟨rfl, rfl⟩
  | _ => exact ⟨Arena.gained_entry (fun _ => rfl) _ a g, Arena.lost_entry (fun _ => rfl) _ a g⟩

theorem used_account (name other : String) (a : Arena) (x : Exchange) :
    ∀ user ∈ (x.account name other a).used, user ∈ [name, other] := by
  intro user huser
  simp only [List.mem_cons, List.not_mem_nil, or_false]
  cases x with
  | equals => cases huser
  | compare => cases huser
  | readInto n =>
    rcases List.mem_append.1 huser with h | h
    · exact .inr (Arena.eq_of_used h)
    · exact .inl (List.mem_singleton.1 h)
  | writeFrom n =>
    rcases List.mem_append.1 huser with h | h
    · exact .inl (Arena.eq_of_used h)
    · exact .inr (List.mem_singleton.1 h)
  | getBytesTo index otherIndex length => exact .inr (Arena.eq_of_used huser)
  | setBytesFrom index otherIndex length => exact .inl (Arena.eq_of_used huser)

theorem question_meets (ha : a.Valid) {α β : Type} {g : Buffer → Buffer → Except Fault α}
    (f : α → β) (hg : ∀ {b o : Buffer}, b.Valid → o.Valid → Sound (g b o)) :
    Outcome.Meets
      ((do
        let o ← Action.ask (Arena.buffer other)
        let b ← Action.ask (Arena.buffer name)
        f <$> Arena.lift (Action.ask fun _ => g b o) : Action Failure Arena β) a)
      (fun _ a' _ => a.Does {} a') fun f a' _ => a.Fails f a' := by
  apply meets_ask_bind
  · intro o ho
    obtain ⟨mo, eo, po, hso, rfl⟩ := seat_of_buffer ha ho
    apply meets_ask_bind
    · intro b hb
      obtain ⟨m, e, p, hs, rfl⟩ := seat_of_buffer ha hb
      apply meets_map
      apply meets_mapError
      apply meets_ask
      · intro _ _
        exact does_refl a
      · intro fault hfault
        exact fails_self (foreseen_fault (hg (ha.buffer hs) (ha.buffer hso) fault hfault))
    · intro failure hfailure
      exact fails_self (foreseen_buffer hfailure)
  · intro failure hfailure
    exact fails_self (foreseen_buffer hfailure)

theorem run_meets (ha : a.Valid) (x : Exchange) :
    (x.run name other a).Meets (fun _ a' _ => a.Does (x.account name other a) a')
      fun f a' _ => a.Fails f a' := by
  refine meets_ask_bind (fun o ho => ?_) fun f hf => fails_self (foreseen_buffer hf)
  refine meets_ask_bind (fun b hb => ?_) fun f hf => fails_self (foreseen_buffer hf)
  obtain ⟨mo, eo, po, hso, rfl⟩ := seat_of_buffer ha ho
  obtain ⟨m, e, p, hs, rfl⟩ := seat_of_buffer ha hb
  by_cases hsame : name = other ∧ (!x.compares) = true
  · rw [if_pos hsame]
    exact fails_self (foreseen_of_none rfl)
  rw [if_neg hsame]
  cases x with
  | getBytesTo index otherIndex length =>
    exact meets_then_pure (Arena.copyBetween_meets ha hs index otherIndex length)
  | setBytesFrom index otherIndex length =>
    exact meets_then_pure (Arena.copyBetween_meets ha hso otherIndex index length)
  | readInto n => exact meets_then_pure (Arena.pour_meets ha (fun h => hsame ⟨h, rfl⟩) n)
  | writeFrom n => exact meets_then_pure (Arena.pour_meets ha (fun h => hsame ⟨h.symm, rfl⟩) n)
  | equals => exact question_meets ha _ Buffer.sound_sameContent
  | compare => exact question_meets ha _ Buffer.sound_compareContent

end Exchange

end SharedBuffer
