import SharedBuffer.Proofs.Discretion

/-!
A storage that has been used before is as good as a new one. Main statements: a pool with any past
answers like a pool that has parked nothing, and buffers that differ in the pool alone do the same
under every discreet action and under every copy.
-/

namespace SharedBuffer

open SharedBuffer.Action (Agrees Preserves preserves_update)

structure Storage.Granted (sys : System) (s : Storage) : Prop where
  capacity_le_max : s.capacity ≤ s.maxCapacity
  kind : Storage.checkKind sys s.kind s.capacity = .ok ()

namespace Storage

variable {sys : System} {s t : Storage} {kind : StorageKind} {n m : Nat}

theorem Granted.of_shape (hs : s.Granted sys) (h : t.shape = s.shape) : t.Granted sys := by
  obtain ⟨hkind, hcap, hmax⟩ := shape_eq_iff.1 h
  refine ⟨?_, ?_⟩
  · rw [hcap, hmax]
    exact hs.capacity_le_max
  · rw [hkind, hcap]
    exact hs.kind

theorem granted_heap {bytes : Bytes} (h : bytes.length ≤ m) (hlen : bytes.length ≤ Word.longest)
    (sys : System) : Granted sys ⟨.heap, bytes, m⟩ :=
  ⟨h, checkKind_heap hlen⟩

theorem le_longest_of_checkKind (h : checkKind sys kind n = .ok ()) : n ≤ Word.longest := by
  have hlimit : directLimit ≤ Word.longest := by decide
  cases kind with
  | heap =>
    simp only [checkKind] at h
    split at h
    · cases h
    · omega
  | direct =>
    simp only [checkKind] at h
    split at h
    · omega
    · split at h
      · cases h
      · omega

theorem Granted.capacity_le_longest (hs : s.Granted sys) : s.capacity ≤ Word.longest :=
  le_longest_of_checkKind hs.kind

theorem Granted.min_le_largest (hs : s.Granted sys) (n : Nat) : min s.capacity n ≤ Word.largest :=
  Nat.le_trans (Nat.min_le_left _ _) (Nat.le_trans hs.capacity_le_longest (by decide))

theorem granted_create (h : create sys kind n m = .ok s) : s.Granted sys := by
  obtain ⟨hle, rfl⟩ := create_eq_ok h
  rw [create, if_neg (by omega)] at h
  have hcap : capacity ⟨kind, Bytes.zeros n, m⟩ = n := Bytes.length_zeros n
  refine ⟨by rwa [hcap], ?_⟩
  rw [hcap]
  split at h
  · cases h
  · next hkind => exact hkind

theorem granted_resize (h : s.resize sys n = .ok t) : t.Granted sys := by
  obtain ⟨hle, rfl⟩ := resize_eq_ok h
  rw [resize, if_neg (by omega)] at h
  refine ⟨?_, ?_⟩
  · rw [capacity_refit]
    exact hle
  · rw [capacity_refit]
    split at h
    · cases h
    · next hkind => exact hkind

theorem Granted.create (hs : s.Granted sys) : create sys s.kind s.capacity s.maxCapacity =
    .ok ⟨s.kind, Bytes.zeros s.capacity, s.maxCapacity⟩ := by
  have hle := hs.capacity_le_max
  rw [Storage.create, if_neg (by omega), hs.kind]

theorem granted_adopt {bytes : Bytes} (hlen : bytes.length ≤ Word.longest)
    (h : adopt bytes m = .ok s) : s.Granted sys := by
  rw [Storage.adopt] at h
  split at h
  · cases h
  · next hle =>
    cases h
    exact granted_heap (by omega) hlen sys

theorem resize_of_create (hn : n ≤ s.maxCapacity) :
    s.resize sys n = (fun _ => s.refit n) <$> create sys s.kind n s.maxCapacity := by
  rw [resize, Storage.create, if_neg (by omega), if_neg (by omega)]
  cases checkKind sys s.kind n <;> rfl

theorem shape_fill {i : Nat} {v : UInt8} (h : s.fill i n v = .ok t) : t.shape = s.shape := by
  simp only [fill] at h
  split at h
  · cases h
  · next hin =>
    cases h
    apply shape_splice
    rw [List.length_replicate]
    exact le_of_checkBounds hin

end Storage

namespace StoreRequest

theorem granted_run (x : StoreRequest) (sys : System) : x.run.Preserves (Storage.Granted sys) := by
  have hupdate {f : Storage → Except Fault Storage} (hf : ∀ s t, f s = .ok t → t.shape = s.shape) :
      (update f).Preserves (Storage.Granted sys) :=
    (preserves_update fun s t h hs => hs.of_shape (hf s t h)).bind fun _ _ ht => ht
  cases x with
  | get i => exact Preserves.bind (fun _ hs => hs) fun _ _ hs => hs
  | set i value => exact hupdate fun _ _ => Storage.shape_writeRange
  | readRange i n => exact Preserves.bind (fun _ hs => hs) fun _ _ hs => hs
  | writeRange i data => exact hupdate fun _ _ => Storage.shape_writeRange
  | fill i n value => exact hupdate fun _ _ => Storage.shape_fill
  | moveRange i n j => exact hupdate fun _ _ => Storage.shape_moveRange
  | inspect => exact fun _ hs => hs

end StoreRequest

namespace Pool

variable {p q : Pool} {s t : Storage} {kind : StorageKind} {n m : Nat}

structure Orderly (p : Pool) : Prop where
  valid : p.Valid
  granted : ∀ l, p.freeList = some l → ∀ s ∈ l.parked, s.Granted p.system

inductive Seasoned : Pool → Prop
  | new (slots : Option Nat) (sys : System) : Seasoned (withSlots slots sys)
  | lend {p : Pool} (h : Seasoned p) (kind : StorageKind) (n m : Nat) :
      Seasoned (lend kind n m p).state
  | relend {p : Pool} (h : Seasoned p) (s : Storage) (n : Nat) : Seasoned (relend s n p).state
  | takeBack {p : Pool} (h : Seasoned p) {s : Storage} (hs : s.Granted p.system) :
      Seasoned (takeBack s p).state
  | shrink {p : Pool} (h : Seasoned p) : Seasoned (shrink p).state

section System

theorem system_lend (kind : StorageKind) (n m : Nat) (p : Pool) :
    (Pool.lend kind n m p).state.system = p.system := by
  rcases lend_cases kind n m p with hl | ⟨l, s, rest, -, -, hl⟩
  · rw [hl]
    rcases lendFresh_cases kind n m p with ⟨s, -, hf⟩ | ⟨f, -, hf⟩
    · rw [hf]
    · rw [hf]
      exact (noteFault_spec f p).1
  · rw [hl]

theorem system_relend (s : Storage) (n : Nat) (p : Pool) :
    (Pool.relend s n p).state.system = p.system := by
  rcases relend_state s n p with hr | hr
  · rw [hr]
  · rw [hr, system_lend]

theorem system_takeBack (s : Storage) (p : Pool) : (Pool.takeBack s p).state.system = p.system := by
  unfold Pool.takeBack
  dsimp only
  split
  · rfl
  · split <;> rfl

theorem system_shrink (p : Pool) : (Pool.shrink p).state.system = p.system := by
  unfold Pool.shrink
  split <;> rfl

theorem Serves.system {back : List Storage} (h : Serves back p q) : q.system = p.system := by
  induction h with
  | refl p => rfl
  | lend _ kind n m ih => exact (system_lend kind n m _).trans ih
  | takeBack _ s ih => exact (system_takeBack s _).trans ih
  | shrink _ ih => exact (system_shrink _).trans ih

end System

namespace Orderly

theorem lend (hp : p.Orderly) (kind : StorageKind) (n m : Nat) : (lend kind n m p).state.Orderly := by
  refine ⟨valid_lend hp.valid kind n m, ?_⟩
  rcases lend_cases kind n m p with hl | ⟨l, s, rest, hfree, htake, hl⟩
  · rw [hl]
    rcases lendFresh_cases kind n m p with ⟨s, -, hf⟩ | ⟨f, -, hf⟩
    · rw [hf]
      exact hp.granted
    · rw [hf]
      obtain ⟨hsystem, hfree, -⟩ := noteFault_spec f p
      intro l hl s hs
      rw [hsystem]
      exact hp.granted l (hfree ▸ hl) s hs
  · rw [hl]
    intro l' hl' t ht
    cases hl'
    exact hp.granted l hfree t ((FreeList.take?_eq_some htake).2.2.2 t ht)

theorem relend (hp : p.Orderly) (s : Storage) (n : Nat) : (relend s n p).state.Orderly := by
  rcases relend_state s n p with hr | hr
  · rw [hr]
    exact hp
  · rw [hr]
    exact hp.lend _ _ _

theorem takeBack (hp : p.Orderly) (hs : s.Granted p.system) : (takeBack s p).state.Orderly := by
  refine ⟨valid_takeBack hp.valid s, ?_⟩
  unfold Pool.takeBack
  dsimp only
  split
  · exact hp.granted
  · next l hl =>
    split
    · exact hp.granted
    · intro l' hl' t ht
      cases hl'
      rcases List.mem_append.1 ht with ht | ht
      · exact hp.granted l hl t ht
      · rw [List.mem_singleton.1 ht]
        refine hs.of_shape (Storage.shape_eq_iff.2 ⟨rfl, s.capacity_erase, rfl⟩)

theorem shrink (hp : p.Orderly) : (shrink p).state.Orderly := by
  refine ⟨valid_shrink hp.valid, ?_⟩
  simp only [Pool.shrink]
  split
  · exact hp.granted
  · intro l hl s hs
    cases hl
    cases hs

end Orderly

theorem orderly_withSlots (slots : Option Nat) (sys : System) : (withSlots slots sys).Orderly := by
  refine ⟨valid_withSlots slots sys, fun l hl s hs => ?_⟩
  cases slots with
  | none => cases hl
  | some n =>
    cases hl
    cases hs

theorem Seasoned.orderly (h : Seasoned p) : p.Orderly := by
  induction h with
  | new slots sys => exact orderly_withSlots slots sys
  | lend _ kind n m ih => exact ih.lend kind n m
  | relend _ s n ih => exact ih.relend s n
  | takeBack _ hs ih => exact ih.takeBack hs
  | shrink _ ih => exact ih.shrink

/-- A parked storage is what a new one would be. -/
theorem Orderly.result_lend (hp : p.Orderly) (kind : StorageKind) (n m : Nat) :
    (Pool.lend kind n m p).result = Storage.create p.system kind n m := by
  rcases lend_cases kind n m p with hl | ⟨l, s, rest, hfree, htake, hl⟩
  · rw [hl]
    rcases lendFresh_cases kind n m p with ⟨s, hc, hf⟩ | ⟨f, hc, hf⟩
    · rw [hf, hc]
    · rw [hf, hc]
  · have hs : (Pool.lend kind n m p).result = .ok s := by rw [hl]
    obtain ⟨hmem, hshape, -⟩ := FreeList.take?_eq_some htake
    -- It has the shape that is asked for, so that a new one would be granted as this one was.
    obtain ⟨rfl, rfl, rfl⟩ : s.kind = kind ∧ s.capacity = n ∧ s.maxCapacity = m := by
      simpa only [Storage.shape, Prod.mk.injEq] using hshape
    rw [(hp.granted l hfree s hmem).create, ← lend_eq_ok hp.valid hs, hs]

/-- A storage lent in place of another holds what a resize in place would leave, and is refused
where that would be. -/
theorem Orderly.result_relend (hp : p.Orderly) (hs : min s.capacity n ≤ Word.largest) :
    (Pool.relend s n p).result = s.resize p.system n := by
  rcases relend_cases s n p with hr | ⟨hn, hr⟩
  · rw [hr]
  · have hresult : (Pool.relend s n p).result = _ := congrArg Outcome.result hr
    rw [hresult, Storage.resize_of_create hn, ← hp.result_lend]
    cases hl : (Pool.lend s.kind n s.maxCapacity p).result with
    | error f => rfl
    | ok t =>
      have hwrite := writeRange_of_lend hs hl
      rw [hl] at hresult
      have hrefit := (relend_eq_ok hp.valid (hresult.trans hwrite)).2
      exact hwrite.trans (congrArg Except.ok hrefit)

structure Both (sys : System) (p q : Pool) : Prop where
  left : p.Seasoned
  right : q.Seasoned
  leftSystem : p.system = sys
  rightSystem : q.system = sys

def Alike (sys : System) (s t : Storage) : Prop := s = t ∧ s.Granted sys

variable {sys : System}

theorem agrees_lend (kind : StorageKind) (n m : Nat) :
    Agrees (Both sys) (fun s t => s = t ∧ Storage.create sys kind n m = .ok s) (lend kind n m)
      (lend kind n m) := by
  intro p q hpq
  refine ⟨⟨hpq.left.lend kind n m, hpq.right.lend kind n m,
    (system_lend kind n m p).trans hpq.leftSystem, (system_lend kind n m q).trans hpq.rightSystem⟩, ?_⟩
  rw [hpq.left.orderly.result_lend, hpq.right.orderly.result_lend, hpq.leftSystem, hpq.rightSystem]
  exact sameUpTo_refl fun s hs => ⟨rfl, hs⟩

theorem agrees_relend (hs : s.Granted sys) (n : Nat) :
    Agrees (Both sys) (Alike sys) (relend s n) (relend s n) := by
  intro p q hpq
  refine ⟨⟨hpq.left.relend s n, hpq.right.relend s n, (system_relend s n p).trans hpq.leftSystem,
    (system_relend s n q).trans hpq.rightSystem⟩, ?_⟩
  rw [hpq.left.orderly.result_relend (hs.min_le_largest n),
    hpq.right.orderly.result_relend (hs.min_le_largest n), hpq.leftSystem, hpq.rightSystem]
  exact sameUpTo_refl fun t ht => ⟨rfl, Storage.granted_resize ht⟩

theorem agrees_takeBack (hs : s.Granted sys) : Agrees (Both sys) (· = ·) (takeBack s) (takeBack s) := by
  intro p q hpq
  refine ⟨⟨hpq.left.takeBack (hpq.leftSystem ▸ hs), hpq.right.takeBack (hpq.rightSystem ▸ hs),
    (system_takeBack s p).trans hpq.leftSystem, (system_takeBack s q).trans hpq.rightSystem⟩, ?_⟩
  rw [result_takeBack, result_takeBack]
  exact .ok rfl

theorem agrees_shrink : Agrees (Both sys) (fun _ _ => True) shrink shrink := by
  intro p q hpq
  refine ⟨⟨hpq.left.shrink, hpq.right.shrink, (system_shrink p).trans hpq.leftSystem,
    (system_shrink q).trans hpq.rightSystem⟩, ?_⟩
  obtain ⟨freed, hp⟩ := result_shrink p
  obtain ⟨freed', hq⟩ := result_shrink q
  rw [hp, hq]
  exact .ok trivial

end Pool

namespace Buffer

variable {sys : System} {b c : Buffer} {ε α β : Type} {R : α → β → Prop}

structure Twin (sys : System) (b c : Buffer) : Prop where
  same : b.withPool c.pool = c
  pools : Pool.Both sys b.pool c.pool
  granted : ∀ s, b.group.storage = some s → s.Granted sys

theorem Twin.eq_withPool (h : Twin sys b c) : ∃ q, c = b.withPool q := ⟨c.pool, h.same.symm⟩

theorem agrees_onPool {x : Action ε Pool α} {y : Action ε Pool β} (h : Agrees (Pool.Both sys) R x y) :
    Agrees (Twin sys) R (onPool x) (onPool y) := by
  refine h.zoom (fun b c hbc => hbc.pools) fun b c p q hbc hpq => ?_
  refine ⟨?_, hpq, hbc.granted⟩
  rw [← hbc.same]
  rfl

theorem Tame.twin {f : Buffer → Except ε Buffer} (hf : Tame f) (h : Twin sys b c) :
    SameUpTo (Twin sys) (f b) (f c) := by
  rw [← h.same, hf.blind]
  cases hb : f b with
  | error e => exact .error e
  | ok d =>
    refine .ok ⟨rfl, hf.pool hb ▸ h.pools, fun s hs => ?_⟩
    have hshape := hf.shape b d hb
    rw [hs] at hshape
    cases hold : b.group.storage with
    | none =>
      rw [hold] at hshape
      cases hshape
    | some t =>
      rw [hold] at hshape
      exact (h.granted t hold).of_shape (Option.some.inj hshape)

theorem agrees_tame {f : Buffer → Except ε Buffer} (hf : Tame f) :
    Agrees (Twin sys) (· = ·) (Action.update f) (Action.update f) :=
  Action.agrees_update fun _ _ h => hf.twin h

theorem agrees_look {γ δ : Type} {S : γ → δ → Prop} {f : Buffer → Action ε Buffer γ}
    {g : Buffer → Action ε Buffer δ} (h : ∀ b c, Twin sys b c → Agrees (Twin sys) S (f b) (g c)) :
    Agrees (Twin sys) S (Action.current >>= f) (Action.current >>= g) :=
  Action.agrees_current.bind h

theorem agrees_replaceStorage {s : Storage} (hs : s.Granted sys) (n : Nat) :
    Agrees (Twin sys) (· = ·) (replaceStorage s n) (replaceStorage s n) := by
  refine (agrees_onPool (Pool.agrees_relend hs n)).bind fun t t' ht => ?_
  obtain ⟨rfl, ht⟩ := ht
  refine (Action.agrees_modify fun b c h => ?_).bind fun _ _ _ =>
    agrees_onPool (Pool.agrees_takeBack hs)
  refine ⟨by rw [← h.same]; rfl, h.pools, fun u hu => ?_⟩
  cases hu
  exact ht

theorem agrees_resized (n : Nat) (e : Event) :
    Agrees (Twin sys) (· = ·) (Action.modify (setCapacity n) >>= fun _ => Action.emit e : Action ε Buffer Unit)
      (Action.modify (setCapacity n) >>= fun _ => Action.emit e) := by
  refine (Action.agrees_modify fun b c h => ?_).bind fun _ _ _ => Action.agrees_emit e
  obtain ⟨q, rfl⟩ := h.eq_withPool
  exact ⟨rfl, h.pools, h.granted⟩

theorem agrees_resize (n : Nat) : Agrees (Twin sys) (· = ·) (resize n) (resize n) := by
  refine agrees_look fun b c h => ?_
  obtain ⟨q, rfl⟩ := h.eq_withPool
  have hask : Agrees (Twin sys) (fun s t => s = t ∧ s.Granted sys) (Action.ask heldStorage)
      (Action.ask heldStorage) := by
    refine Action.agrees_ask fun b c h => ?_
    obtain ⟨q, rfl⟩ := h.eq_withPool
    exact sameUpTo_refl fun s hs => ⟨rfl, h.granted s (heldStorage_eq_ok.1 hs)⟩
  refine hask.bind fun s t hst => ?_
  obtain ⟨rfl, hs⟩ := hst
  dsimp only [withPool]
  split
  · exact (agrees_replaceStorage hs n).bind fun _ _ _ => agrees_resized n _
  · exact agrees_resized n _

theorem agrees_giveBack (note : Storage → Event) :
    Agrees (Twin sys) (· = ·) (giveBack note) (giveBack note) := by
  refine agrees_look fun b c h => ?_
  obtain ⟨q, rfl⟩ := h.eq_withPool
  dsimp only [withPool]
  cases hs : b.group.storage with
  | none => exact Action.agrees_pure rfl
  | some s =>
    refine (Action.agrees_modify fun b c h => ?_).bind fun _ _ _ => (Action.agrees_emit _).bind
      fun _ _ _ => agrees_onPool (Pool.agrees_takeBack (h.granted s hs))
    obtain ⟨q, rfl⟩ := h.eq_withPool
    exact ⟨rfl, h.pools, fun s hs => by cases hs⟩

/-- A discreet action does the same whatever the pool. -/
theorem Discreet.agrees {x : Action ε Buffer α} (hx : Discreet x) : Agrees (Twin sys) (· = ·) x x := by
  induction hx with
  | pure v => exact Action.agrees_pure rfl
  | fail e => exact Action.agrees_fail e
  | ask hg =>
    refine Action.agrees_ask fun b c h => ?_
    obtain ⟨q, rfl⟩ := h.eq_withPool
    rw [hg]
    exact sameUpTo_refl fun _ _ => rfl
  | update hf => exact agrees_tame hf
  | emit e => exact Action.agrees_emit e
  | look hblind _ ih =>
    refine agrees_look fun b c h => ?_
    obtain ⟨q, rfl⟩ := h.eq_withPool
    rw [hblind]
    exact ih b
  | bind _ _ ihx ihf =>
    refine ihx.bind fun v w hvw => ?_
    obtain rfl := hvw
    exact ihf v
  | mapError _ r ih => exact ih.mapError r
  | congr heq _ ih => exact heq ▸ ih
  | resize n => exact agrees_resize n
  | giveBack note => exact agrees_giveBack note

def SameCopy (sys : System) (v w : Handle × Storage) : Prop := v = w ∧ v.2.Granted sys

theorem agrees_fillFrom {s : Storage} (hs : s.Granted sys) (i n : Nat) :
    Agrees (Twin sys) (fun t u => t = u ∧ t.Granted sys) (Action.ask (fillFrom s i n))
      (Action.ask (fillFrom s i n)) := by
  refine Action.agrees_ask fun b c h => ?_
  obtain ⟨q, rfl⟩ := h.eq_withPool
  refine sameUpTo_refl fun t ht => ⟨rfl, ?_⟩
  obtain ⟨bytes, -, ht⟩ := except_bind_eq_ok.1 ht
  exact hs.of_shape (Storage.shape_writeRange ht)

theorem agrees_copy (i n : Nat) : Agrees (Twin sys) (SameCopy sys) (copy i n) (copy i n) := by
  refine agrees_look fun b c h => ?_
  obtain ⟨q, rfl⟩ := h.eq_withPool
  refine (Discreet.ask fun _ _ => rfl).agrees.bind fun _ _ _ => ?_
  refine (Discreet.ask fun _ _ => rfl).agrees.bind fun _ _ _ => ?_
  refine (agrees_onPool (Pool.agrees_lend _ _ _)).bind fun s t hst => ?_
  obtain ⟨rfl, hs⟩ := hst
  have hgranted := Storage.granted_create hs
  refine ((agrees_fillFrom hgranted i n).orUndo (agrees_onPool (Pool.agrees_takeBack hgranted))).bind
    fun t u htu => ?_
  obtain ⟨rfl, ht⟩ := htu
  exact Action.agrees_pure ⟨rfl, ht⟩

theorem agrees_takeCopy (n : Nat) : Agrees (Twin sys) (SameCopy sys) (takeCopy n) (takeCopy n) := by
  refine agrees_look fun b c h => ?_
  obtain ⟨q, rfl⟩ := h.eq_withPool
  refine (Discreet.ask fun _ _ => rfl).agrees.bind fun _ _ _ => ?_
  refine (Discreet.ask fun _ _ => rfl).agrees.bind fun _ _ _ => ?_
  refine (agrees_copy _ n).bind fun v w hvw => ?_
  exact (discreetSeek _).agrees.bind fun _ _ _ => Action.agrees_pure hvw

end Buffer

open Buffer

def SameMade (sys : System) (v w : Handle × Option Storage) : Prop :=
  v = w ∧ ∀ s, v.2 = some s → s.Granted sys

namespace Derivation

variable {sys : System}

theorem agrees (d : Derivation) : Agrees (Twin sys) (SameMade sys) d.run d.run := by
  have hcopied : ∀ v w : Handle × Storage, SameCopy sys v w →
      SameMade sys (v.1, some v.2) (w.1, some w.2) := by
    intro v w hvw
    obtain ⟨rfl, hv⟩ := hvw
    refine ⟨rfl, fun s hs => ?_⟩
    cases hs
    exact hv
  cases hd : d.copies with
  | false =>
    rw [run_eq_view hd]
    refine (d.discreetView hd).agrees.map fun h h' hh => ⟨congrArg (·, none) hh, fun s hs => ?_⟩
    cases hs
  | true =>
    cases d with
    | copy extent =>
      refine agrees_look fun b c h => ?_
      obtain ⟨q, rfl⟩ := h.eq_withPool
      have hplace : place (b.withPool q) extent = place b extent := by cases extent <;> rfl
      rw [hplace]
      exact (agrees_copy _ _).bind fun v w hvw => Action.agrees_pure (hcopied v w hvw)
    | takeCopy n => exact (agrees_takeCopy n).bind fun v w hvw => Action.agrees_pure (hcopied v w hvw)
    | _ => cases hd

end Derivation

end SharedBuffer
