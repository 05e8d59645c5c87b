import SharedBuffer.Proofs.Lengthening

/-!
The operations at the indexes of a buffer as requests to a queue of bytes. What a request asks, when it
is met, what it leaves and what is told if it is refused stands here once for all operations that make
it. Main statement: each operation meets its request, or refuses it as the request says, or the storage
for the window that it would need cannot be had; what fails leaves the queue as it was.
-/

namespace SharedBuffer

namespace Queue

inductive Request where
  | push (data : Bytes)
  | pop (n : Nat)
  | truncate (capacity : Nat)
  | clear
  | room (n : Nat)
  | arrange
  | note
  | invalid (cause : Fault)
  deriving DecidableEq

namespace Request

def Granted (h : Handle) (q : Bytes) : Request → Prop
  | push data => h.readOnly = false ∧ h.Takes data.length
  | pop n => n ≤ q.length
  | truncate capacity => h.readOnly = false ∧ h.origin ≠ .slice ∧ capacity ≤ h.maxCapacity
  | room n => h.readOnly = false ∧ h.Takes n
  | arrange => h.readOnly = false
  | clear | note => True
  | invalid _ => False

def next (h : Handle) (q : Bytes) : Request → Bytes
  | push data => q ++ data
  | pop n => q.drop n
  | truncate capacity => q.take (min h.writer capacity - min h.reader capacity)
  | clear => []
  | room _ | arrange | note | invalid _ => q

def alters : Request → Bool
  | push _ | truncate _ | room _ | arrange => true
  | pop _ | clear | note | invalid _ => false

/-- What is told when a request is not met. That a handle is read-only comes before all else. -/
def Refusal (h : Handle) (f : Fault) : Request → Prop
  | push _ | room _ => if h.readOnly then f = .readOnly else f.kind? = some .capacityExceeded
  | pop n => f = .notReadable h.reader n h.writer
  | truncate capacity =>
    if h.readOnly then f = .readOnly
    else if h.origin = .slice then f = .sliceFixed
    else f = .resizeAboveMax capacity h.maxCapacity
  | arrange => f = .readOnly
  | clear | note => False
  | invalid cause => f = cause

/-- Why a request fails that would bring the window of the buffer to the capacity `reach`: it is one that
is not met, or the storage for that window cannot be had. -/
inductive Fails (b : Buffer) (q : Bytes) (reach : Nat) (r : Request) (f : Fault) : Prop
  | refused (denied : ¬r.Granted b.handle q) (cause : r.Refusal b.handle f)
  | unhoused (granted : r.Granted b.handle q) (denied : ¬b.Houses reach)
      (cause : Storage.checkKind b.pool.system b.group.kind reach = .error f)

variable {b : Buffer} {q data : Bytes} {reach n : Nat} {f : Fault}

theorem Fails.push (h : (room data.length).Fails b q reach f) : (push data).Fails b q reach f := by
  cases h with
  | refused denied cause => exact .refused denied cause
  | unhoused granted denied cause => exact .unhoused granted denied cause

theorem fails_of_readOnly {r : Request} (hr : r.alters = true) (h : b.handle.readOnly = true) :
    r.Fails b q reach .readOnly := by
  cases r with
  | push data | room n | truncate n =>
    exact .refused (fun hgranted => Bool.false_ne_true (hgranted.1.symm.trans h))
      ((if_pos h).mpr rfl)
  | arrange => exact .refused (fun hopen => Bool.false_ne_true (Eq.trans (Eq.symm hopen) h)) rfl
  | _ => cases hr

end Request

end Queue

namespace Buffer

open Queue (Request)
open SharedBuffer.Action (meets_bind meets_ask_bind meets_update meets_then_pure current_bind)

variable {b c : Buffer} {n reach worst : Nat} {f : Fault} {data bytes : Bytes}

/-- The action meets the request, answering as `told`, or fails as the request may; then the same is left
to be read. -/
def Serves {α : Type} (x : Action Fault Buffer α) (r : Request) (reach : Nat) (told : α → Prop)
    (b : Buffer) : Prop :=
  (x b).Meets
    (fun v c _ => r.Granted b.handle b.unread ∧ told v ∧ c.unread = r.next b.handle b.unread)
    fun f c _ => r.Fails b b.unread reach f ∧ c.unread = b.unread

theorem readOnly_of_checkMutable (live : 0 < b.group.count) (h : b.checkMutable = .error f) :
    b.handle.readOnly = true ∧ f = .readOnly := by
  rw [checkMutable, (checkLive_eq_ok_iff b).2 live] at h
  cases hopen : b.handle.readOnly with
  | false =>
    rw [hopen] at h
    cases h
  | true =>
    rw [hopen] at h
    cases h
    exact ⟨rfl, rfl⟩

theorem serves_of_rejects {α : Type} {x : Action Fault Buffer α} {r : Request} {told : α → Prop}
    (live : 0 < b.group.count) (hmut : b.checkMutable = .error f) (hr : r.alters = true)
    (hx : x.Rejects b f) (reach : Nat) : Serves x r reach told b := by
  obtain ⟨hreadOnly, rfl⟩ := readOnly_of_checkMutable live hmut
  rw [Serves, hx]
  exact ⟨Request.fails_of_readOnly hr hreadOnly, rfl⟩

section Room

def encodedRoom (worst length : Nat) (h : Handle) : Nat :=
  if wantsReserve worst h then worst else length

theorem Cramped.fails {q : Bytes} (h : b.Cramped n f) (hopen : b.handle.readOnly = false) :
    (Request.room n).Fails b q (b.handle.fitted n) f := by
  cases h with
  | declined htakes hkind =>
    refine .refused (fun hgranted => htakes hgranted.2) ?_
    rw [Request.Refusal, hopen]
    exact hkind
  | unhoused hgrows hdenied hcause =>
    rw [← Handle.fitted_of_grows hgrows] at hdenied hcause
    exact .unhoused ⟨hopen, Handle.takes_iff.2 (.inr hgrows)⟩ hdenied hcause

theorem reserve_serves (hb : b.Valid) (live : 0 < b.group.count) (n : Nat) :
    Serves (reserve n) (.room n) (b.handle.fitted n) (fun _ => True) b := by
  cases hmut : b.checkMutable with
  | error f => exact serves_of_rejects live hmut rfl (rejects_reserve hmut n) _
  | ok _ =>
    obtain ⟨-, hopen⟩ := (checkMutable_eq_ok_iff b).1 hmut
    refine ((reserve_roomier hb live hopen n).and (reserve_unread hb n)).mono ?_ ?_
    · rintro _ c log ⟨⟨-, htakes, -⟩, hunread⟩
      exact ⟨⟨hopen, htakes⟩, trivial, hunread⟩
    · rintro f c log ⟨⟨hcramped, -⟩, hunread⟩
      exact ⟨hcramped.fails hopen, hunread⟩

theorem append_serves (hb : b.Valid) (live : 0 < b.group.count) (data : Bytes) :
    Serves (append data) (.push data) (b.handle.fitted data.length) (fun _ => True) b := by
  apply meets_bind
  refine ((reserve_meets hb data.length).and (reserve_serves hb live data.length)).mono ?_ ?_
  · rintro _ d log ⟨hres, hgranted, -, hunread⟩
    obtain ⟨s, hput, -, hnext⟩ := hres.ready hb (Nat.le_refl _)
    rw [Action.update_of_ok hput]
    exact ⟨hgranted, trivial, hnext.trans (congrArg (· ++ data) hunread)⟩
  · rintro f d log ⟨-, hfails, hunread⟩
    exact ⟨hfails.push, hunread⟩

theorem appendEncoded_serves (hb : b.Valid) (live : 0 < b.group.count) (hworst : bytes.length ≤ worst) :
    Serves (appendEncoded worst bytes) (.push bytes)
      (b.handle.fitted (encodedRoom worst bytes.length b.handle)) (fun n => n = bytes.length) b := by
  cases hmut : b.checkMutable with
  | error f => exact serves_of_rejects live hmut rfl (rejects_appendEncoded hmut worst bytes) _
  | ok _ =>
    obtain ⟨-, hopen⟩ := (checkMutable_eq_ok_iff b).1 hmut
    simp only [appendEncoded, Serves, encodedRoom]
    rw [current_bind, Action.ask_bind_of_ok hmut]
    split
    · next hwants =>
      have htakes := takes_of_wantsReserve hb hwants
      apply meets_bind
      refine ((reserve_meets hb worst).and (reserve_serves hb live worst)).mono ?_ ?_
      · rintro _ d log ⟨hres, -, -, hunread⟩
        obtain ⟨s, -, hput, hnext⟩ := hres.ready hb hworst
        change ((append bytes >>= fun _ => pure bytes.length) d).Meets _ _
        rw [Action.bind_of_ok hput]
        exact ⟨⟨hopen, htakes.mono hworst⟩, rfl, hnext.trans (congrArg (· ++ bytes) hunread)⟩
      · -- The room for the worst is within the bound, so that only its storage can be wanting.
        rintro f d log ⟨-, hfails, hunread⟩
        cases hfails with
        | refused denied cause => exact absurd ⟨hopen, htakes⟩ denied
        | unhoused granted denied cause =>
          exact ⟨.unhoused ⟨hopen, htakes.mono hworst⟩ denied cause, hunread⟩
    · exact meets_then_pure ((append_serves hb live bytes).imp fun _ _ _ h => ⟨h.1, rfl, h.2.2⟩)

theorem writeScalar_serves (hb : b.Valid) (live : 0 < b.group.count) {value : Scalar}
    (h : value.bytes = .ok bytes) :
    Serves (writeScalar value) (.push bytes) (b.handle.fitted bytes.length) (fun _ => True) b := by
  have hask := Action.ask_bind_of_ok (g := fun _ => value.bytes) (f := append) (s := b) h
  have happend := append_serves hb live bytes
  rw [Serves, ← hask] at happend
  exact happend

theorem writeScalar_serves_invalid {value : Scalar} (h : value.bytes = .error f) (reach : Nat) :
    Serves (writeScalar value) (.invalid f) reach (fun _ => True) b := by
  have hask := Action.ask_bind_of_error (g := fun _ => value.bytes) (f := append) (s := b) h
  rw [Serves, writeScalar, hask]
  exact ⟨.refused not_false rfl, rfl⟩

theorem tryReserve_serves (hb : b.Valid) (live : 0 < b.group.count) (n : Nat) :
    Serves (tryReserve n) .arrange (b.handle.fitted n) (fun _ => True) b := by
  cases hmut : b.checkMutable with
  | error f => exact serves_of_rejects live hmut rfl (rejects_tryReserve hmut n) _
  | ok _ =>
    obtain ⟨-, hopen⟩ := (checkMutable_eq_ok_iff b).1 hmut
    rw [Serves]
    cases b.handle.demand n with
    | fits hfits =>
      rw [tryReserve_of_fits hmut hfits]
      exact ⟨hopen, trivial, rfl⟩
    | fixed hmore hfixed =>
      rw [tryReserve_of_fixed hmut hmore hfixed]
      exact ⟨hopen, trivial, rfl⟩
    | beyond hmore hgrow hmax =>
      rw [tryReserve_of_beyond hmut hmore hgrow hmax]
      exact ⟨hopen, trivial, rfl⟩
    | grows hgrows =>
      rw [tryReserve_of_grows hmut hgrows]
      refine Action.meets_map ((reserve_serves hb live n).mono ?_ ?_)
      · rintro _ c log ⟨-, -, hunread⟩
        exact ⟨hopen, trivial, hunread⟩
      · rintro f c log ⟨hfails, hunread⟩
        cases hfails with
        | refused denied cause =>
          exact absurd ⟨hopen, Handle.takes_iff.2 (.inr hgrows)⟩ denied
        | unhoused granted denied cause => exact ⟨.unhoused hopen denied cause, hunread⟩

theorem fails_of_checkCapacity (live : 0 < b.group.count) (h : b.checkCapacity n = .error f)
    (reach : Nat) : (Request.truncate n).Fails b b.unread reach f := by
  cases hmut : b.checkMutable with
  | error g =>
    obtain ⟨hreadOnly, rfl⟩ := readOnly_of_checkMutable live hmut
    rw [checkCapacity, hmut] at h
    cases h
    exact Request.fails_of_readOnly rfl hreadOnly
  | ok _ =>
    obtain ⟨-, hopen⟩ := (checkMutable_eq_ok_iff b).1 hmut
    have hdenied : ¬(Request.truncate n).Granted b.handle b.unread := by
      rintro ⟨-, hfree, hmax⟩
      rw [checkCapacity_eq_ok_iff.2 ⟨hmut, hfree, hmax⟩] at h
      cases h
    refine .refused hdenied ?_
    simp only [checkCapacity, hmut, bind, Except.bind] at h
    simp only [Request.Refusal, hopen, Bool.false_eq_true, if_false]
    split at h
    · next hslice =>
      cases h
      rw [if_pos hslice]
    · next hfree =>
      rw [if_neg hfree]
      split at h
      · cases h
        rfl
      · cases h

theorem changeCapacity_serves (hb : b.Valid) (live : 0 < b.group.count) (n : Nat) :
    Serves (changeCapacity n) (.truncate n) n (fun _ => True) b := by
  simp only [changeCapacity, Serves]
  rw [current_bind]
  refine meets_ask_bind (fun _ hcheck => ?_) fun f hf => ⟨fails_of_checkCapacity live hf n, rfl⟩
  obtain ⟨hmut, hfree, hmax⟩ := checkCapacity_eq_ok_iff.1 hcheck
  obtain ⟨s, hs, -⟩ := hb.window live
  have hgranted : (Request.truncate n).Granted b.handle b.unread :=
    ⟨((checkMutable_eq_ok_iff b).1 hmut).2, hfree, hmax⟩
  split
  · next hsame =>
    refine ⟨hgranted, trivial, ?_⟩
    have hwriter := writer_le hb
    have horder := hb.handle.cursor.reader_le_writer
    have hall : min b.handle.writer n - min b.handle.reader n = b.handle.readable := by
      simp only [Handle.readable, Cursor.readable, Handle.reader, Handle.writer] at hwriter ⊢
      omega
    rw [Request.next, hall]
    exact (take_readable hb live).symm
  · apply meets_bind
    refine ((resize_refits hb hs hfree hmax).and (resize_retains hb hs hfree hmax)).mono ?_ ?_
    · rintro _ c log ⟨-, hhandle, hretains⟩
      exact ⟨hgranted, trivial, unread_truncated hb live hhandle hretains⟩
    · rintro f c log ⟨⟨⟨hcause, hdenied⟩, hunmoved⟩, -⟩
      exact ⟨.unhoused hgranted hdenied hcause, hunmoved.unread⟩

end Room

section Front

theorem granted_pop (hb : b.Valid) (live : 0 < b.group.count) (hn : n ≤ b.handle.readable) :
    (Request.pop n).Granted b.handle b.unread :=
  Nat.le_trans hn (Nat.le_of_eq (hb.length_unread live).symm)

theorem fails_of_checkReadable (hb : b.Valid) (live : 0 < b.group.count)
    (hless : b.handle.readable < n) (reach : Nat) :
    (Request.pop n).Fails b b.unread reach (.notReadable b.handle.reader n b.handle.writer) := by
  refine .refused (fun hgranted => ?_) rfl
  rw [Request.Granted, hb.length_unread live] at hgranted
  omega

theorem consume_serves (hb : b.Valid) (live : 0 < b.group.count) (n reach : Nat) :
    Serves (consume n) (.pop n) reach (fun bytes => bytes = b.unread.take n) b := by
  have hlive : b.checkLive = .ok () := (checkLive_eq_ok_iff b).2 live
  by_cases hn : n ≤ b.handle.readable
  · rw [Serves, consume_of_peek (peek_of_readable hb live hn)]
    exact ⟨granted_pop hb live hn, rfl, unread_advance hb live hn⟩
  · have hread : b.handle.cursor.checkReadable n =
        .error (.notReadable b.handle.reader n b.handle.writer) := if_neg hn
    have hpeek : b.peek n = .error (.notReadable b.handle.reader n b.handle.writer) := by
      simp only [peek, hlive, hread, bind, Except.bind]
    rw [Serves, consume, Action.ask_bind_of_error hpeek]
    exact ⟨fails_of_checkReadable hb live (Nat.lt_of_not_le hn) reach, rfl⟩

theorem skip_serves (hb : b.Valid) (live : 0 < b.group.count) (n reach : Nat) :
    Serves (Action.update (skip n)) (.pop n) reach (fun _ => True) b := by
  by_cases hn : n ≤ b.handle.readable
  · rw [Serves, Action.update_of_ok (skip_of_le live hn)]
    exact ⟨granted_pop hb live hn, trivial, unread_advance hb live hn⟩
  · rw [Serves, Action.update_of_error (skip_of_lt live (Nat.lt_of_not_le hn))]
    exact ⟨fails_of_checkReadable hb live (Nat.lt_of_not_le hn) reach, rfl⟩

theorem arrange_serves {g : Buffer → Except Fault Buffer} (live : 0 < b.group.count)
    (hopen : b.handle.readOnly = false → ∃ c, g b = .ok c ∧ c.unread = b.unread)
    (hshut : ∀ f, b.checkMutable = .error f → g b = .error f) (reach : Nat) :
    Serves (Action.update g) .arrange reach (fun _ => True) b := by
  cases hmut : b.checkMutable with
  | error f => exact serves_of_rejects live hmut rfl (Action.update_of_error (hshut f hmut)) reach
  | ok _ =>
    obtain ⟨-, hwritable⟩ := (checkMutable_eq_ok_iff b).1 hmut
    obtain ⟨c, hc, hunread⟩ := hopen hwritable
    rw [Serves, Action.update_of_ok hc]
    exact ⟨hwritable, trivial, hunread⟩

theorem compact_serves (hb : b.Valid) (live : 0 < b.group.count) (reach : Nat) :
    Serves (Action.update compact) .arrange reach (fun _ => True) b :=
  arrange_serves live (compact_of_open hb live)
    (fun f h => by simp only [compact, h, bind, Except.bind]) reach

theorem compactLazily_serves (hb : b.Valid) (live : 0 < b.group.count) (reach : Nat) :
    Serves (Action.update compactLazily) .arrange reach (fun _ => True) b :=
  arrange_serves live (compactLazily_of_open hb live)
    (fun f h => by simp only [compactLazily, h, bind, Except.bind]) reach

end Front

end Buffer

end SharedBuffer
