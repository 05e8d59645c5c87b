import SharedBuffer.Proofs.Refitting

/-!
What becomes of the storage when the window of a handle grows. An adjustment of the capacity is
reported, so that a course tells by its events how often that happened, and one in which it happened
once is split there. Main statement: such a course carries the old bytes, with what it writes over them,
into a storage of the extent that the new capacity asks for.
-/

namespace SharedBuffer

def Event.adjusts : Event → Bool
  | .capacityAdjusted .. => true
  | _ => false

def adjustments (log : List Event) : Nat := log.countP Event.adjusts

theorem adjustments_append (log more : List Event) :
    adjustments (log ++ more) = adjustments log + adjustments more := List.countP_append

theorem adjustments_of_last (log more : List Event) {old new maxCapacity : Nat} {shared replaced : Bool} :
    adjustments (log ++ (more ++ [.capacityAdjusted old new maxCapacity shared replaced])) ≠ 0 := by
  rw [adjustments_append, adjustments_append]
  exact Nat.ne_of_gt (Nat.le_trans (Nat.le_add_left 1 _) (Nat.le_add_left _ _))

namespace Action

variable {ε ε' σ τ α β : Type} {n : Nat}

def Adjusts (n : Nat) (x : Action ε σ α) : Prop := ∀ s, adjustments (x s).events ≤ n

theorem Adjusts.mono {m : Nat} {x : Action ε σ α} (h : x.Adjusts m) (hm : m ≤ n) : x.Adjusts n :=
  fun s => Nat.le_trans (h s) hm

theorem adjusts_pure (v : α) : (pure v : Action ε σ α).Adjusts n := fun _ => Nat.zero_le n

theorem adjusts_fail (e : ε) : (fail e : Action ε σ α).Adjusts n := fun _ => Nat.zero_le n

theorem adjusts_ask (g : σ → Except ε α) : (ask g).Adjusts n := fun _ => Nat.zero_le n

theorem adjusts_modify (g : σ → σ) : (modify g : Action ε σ Unit).Adjusts n := fun _ => Nat.zero_le n

theorem adjusts_update (g : σ → Except ε σ) : (update g).Adjusts n := by
  intro s
  cases hg : g s with
  | error e =>
    rw [update_of_error hg]
    exact Nat.zero_le n
  | ok t =>
    rw [update_of_ok hg]
    exact Nat.zero_le n

theorem adjusts_emit {e : Event} (h : e.adjusts = false) :
    (emit e : Action ε σ Unit).Adjusts n := by
  intro s
  change adjustments [e] ≤ n
  rw [adjustments, List.countP_singleton, h]
  exact Nat.zero_le n

theorem adjustments_bind {x : Action ε σ α} {f : α → Action ε σ β} {s t : σ} {v : α}
    {log : List Event} (h : x s = ⟨.ok v, t, log⟩) :
    adjustments ((x >>= f) s).events = adjustments log + adjustments (f v t).events := by
  rw [bind_of_ok h, adjustments_append]

theorem Adjusts.andThen {m : Nat} {x : Action ε σ α} {f : α → Action ε σ β} (hx : x.Adjusts m)
    (hf : ∀ v, (f v).Adjusts n) : (x >>= f).Adjusts (m + n) := by
  intro s
  have hfirst := hx s
  rcases ho : x s with ⟨e | v, t, log⟩
  · rw [ho] at hfirst
    rw [bind_of_error ho]
    exact Nat.le_trans hfirst (Nat.le_add_right m n)
  · rw [ho] at hfirst
    rw [adjustments_bind ho]
    exact Nat.add_le_add hfirst (hf v t)

theorem Adjusts.after {x : Action ε σ α} {f : α → Action ε σ β} (hx : x.Adjusts 0)
    (hf : ∀ v, (f v).Adjusts n) : (x >>= f).Adjusts n :=
  (hx.andThen hf).mono (Nat.le_of_eq (Nat.zero_add n))

theorem Adjusts.before {x : Action ε σ α} {f : α → Action ε σ β} (hx : x.Adjusts n)
    (hf : ∀ v, (f v).Adjusts 0) : (x >>= f).Adjusts n := hx.andThen hf

theorem Adjusts.look {f : σ → Action ε σ β} (hf : ∀ s, (f s).Adjusts n) :
    (current >>= f).Adjusts n := by
  intro s
  rw [current_bind]
  exact hf s s

theorem Adjusts.orUndo {x : Action ε σ α} {undo : Action ε σ Unit} (hx : x.Adjusts n)
    (hundo : undo.Adjusts 0) : (x.orUndo undo).Adjusts n := by
  intro s
  have hlog := hx s
  rcases ho : x s with ⟨e | v, t, log⟩
  · rw [ho] at hlog
    have hmore := hundo t
    rw [orUndo_of_error ho]
    simp only [adjustments, List.countP_append] at hlog hmore ⊢
    omega
  · rw [ho] at hlog
    rw [orUndo_of_ok ho]
    exact hlog

theorem Adjusts.map {x : Action ε σ α} (hx : x.Adjusts n) (f : α → β) : (f <$> x).Adjusts n :=
  hx.before fun v => adjusts_pure (f v)

theorem Adjusts.mapError {x : Action ε σ α} (hx : x.Adjusts n) (r : ε → ε') :
    (Action.mapError r x).Adjusts n := hx

theorem Adjusts.zoom {part : σ → τ} {put : τ → σ → σ} {x : Action ε τ α} (hx : x.Adjusts n) :
    (Action.zoom part put x).Adjusts n := fun s => hx (part s)

end Action

namespace Pool

variable {n : Nat}

theorem adjusts_lend (kind : StorageKind) (k m : Nat) : (lend kind k m).Adjusts n := by
  intro p
  rcases lend_cases kind k m p with hl | ⟨l, t, rest, -, -, hl⟩
  · rw [hl]
    rcases lendFresh_cases kind k m p with ⟨t, -, hf⟩ | ⟨f, -, hf⟩
    · rw [hf]
      exact Nat.zero_le n
    · rw [hf]
      exact Nat.zero_le n
  · rw [hl]
    exact Nat.zero_le n

theorem adjusts_relend (s : Storage) (k : Nat) : (relend s k).Adjusts n := by
  intro p
  have hlend := adjusts_lend (n := n) s.kind k s.maxCapacity p
  rcases relend_cases s k p with hr | ⟨-, hr⟩
  · rw [hr]
    exact Nat.zero_le n
  · rw [hr]
    exact hlend

theorem adjusts_takeBack (s : Storage) : (takeBack s).Adjusts n := by
  intro p
  simp only [takeBack]
  split
  · exact Nat.zero_le n
  · split
    · exact Nat.zero_le n
    · exact Nat.zero_le n

end Pool

namespace Storage

variable {n : Nat} {v w : Nat → Option UInt8} {s t u : Storage}

/-- The storage `t` has the capacity `n` and holds what `w` says was written there, elsewhere the
bytes of `s`, and zeros behind them. -/
structure Carries (n : Nat) (w : Nat → Option UInt8) (s t : Storage) : Prop where
  capacity : t.capacity = n
  kept : ∀ p < s.capacity, p < n → t.bytes[p]? = (w p).or s.bytes[p]?
  added : ∀ p, s.capacity ≤ p → p < n → t.bytes[p]? = (w p).or (some 0)

theorem Carries.congr (h : s.Carries n w t) (hv : ∀ p < n, w p = v p) : s.Carries n v t where
  capacity := h.capacity
  kept p hp hn := by rw [← hv p hn, h.kept p hp hn]
  added p hp hn := by rw [← hv p hn, h.added p hp hn]

theorem carries_self (s : Storage) : s.Carries s.capacity (fun _ => none) s where
  capacity := rfl
  kept _ _ _ := Option.none_or.symm
  added _ hp hn := absurd hn (Nat.not_lt.2 hp)

theorem Carries.write (h : s.Carries n w t) (hsize : u.capacity = t.capacity)
    (hbytes : ∀ p < t.capacity, u.bytes[p]? = (v p).or t.bytes[p]?) :
    s.Carries n (fun p => (v p).or (w p)) u where
  capacity := hsize.trans h.capacity
  kept p hp hn := by
    rw [hbytes p (by rw [h.capacity]; exact hn), h.kept p hp hn, Option.or_assoc]
  added p hp hn := by
    rw [hbytes p (by rw [h.capacity]; exact hn), h.added p hp hn, Option.or_assoc]

theorem Carries.refit (h : s.Carries s.capacity w t) (hw : ∀ p, s.capacity ≤ p → w p = none)
    (n : Nat) : s.Carries n w (t.refit n) where
  capacity := capacity_refit t n
  kept p hp hn := by
    have hlen : p < t.bytes.length := Nat.lt_of_lt_of_eq hp h.capacity.symm
    exact (Bytes.getElem?_fit hlen hn).trans (h.kept p hp hp)
  added p hp hn := by
    have hlen : t.bytes.length ≤ p := Nat.le_trans (Nat.le_of_eq h.capacity) hp
    rw [hw p hp, Option.none_or]
    exact Bytes.getElem?_fit_of_le hlen hn

end Storage

namespace Move

variable {e : Effect} {b c : Buffer} {log : List Event} {s t : Storage}

theorem capacity_of_calm (h : Move e b c log) (hlog : adjustments log = 0) :
    c.handle.capacity = b.handle.capacity := by
  cases h with
  | resize hs hopen hfree hn c hc hkeep => cases hlog
  | replace hs hopen hfree hn c hc hneed ht => exact absurd hlog (adjustments_of_last _ _)
  | _ => rfl

theorem written_none (h : Move e b c log) (hb : b.Valid) (hs : b.group.storage = some s) {p : Nat}
    (hp : s.capacity ≤ p) : e.written p = none := by
  cases h with
  | @write _ t ht hopen start data lo hi =>
    rw [hs] at ht
    cases ht
    have hwindow := (hb.on hs).window_le
    change Bytes.laid start data p = none
    rw [Bytes.laid]
    split
    · exact List.getElem?_eq_none (by omega)
    · rfl
  | _ => rfl

theorem size_of_calm (h : Move e b c log) (hb : b.Valid) (hlog : adjustments log = 0)
    (hs : b.group.storage = some s) (ht : c.group.storage = some t) : t.capacity = s.capacity := by
  rcases h.custody hb with ⟨-, hsame⟩ | ⟨u, hback, -, -⟩
  · rw [hs, ht, Option.map_some, Option.map_some, Option.some.injEq] at hsame
    exact (Storage.shape_eq_iff.1 hsame).2.1
  · cases h with
    | replace hs' hopen hfree hn c hc hneed ht' => exact absurd hlog (adjustments_of_last _ _)
    | finish hs' => cases ht
    | _ => cases hback

theorem refits (h : Move e b c log) (hb : b.Valid) (hlog : adjustments log ≠ 0)
    (hs : b.group.storage = some s) (ht : c.group.storage = some t) :
    e.written = (fun _ => none) ∧ t = s.refit (b.extent c.handle.capacity s) := by
  cases h with
  | @resize _ u hu hopen hfree n hn c hc hkeep =>
    rw [hs] at hu
    cases hu
    have hsame : t = s := Option.some.inj (ht.symm.trans hs)
    refine ⟨rfl, ?_⟩
    change t = s.refit (b.extent n s)
    rw [Buffer.extent_of_not_needsReplacement hkeep, s.refit_capacity, hsame]
  | @replace _ u hu hopen hfree n hn c hc hneed v hv =>
    rw [hs] at hu
    cases hu
    obtain ⟨-, rfl⟩ := Pool.relend_eq_ok hb.pool hv
    cases ht
    refine ⟨rfl, ?_⟩
    change s.refit n = s.refit (b.extent n s)
    rw [Buffer.extent_of_needsReplacement hneed]
  | lend kind n m => exact absurd (Nat.le_zero.1 (Pool.adjusts_lend kind n m b.pool)) hlog
  | relend u n => exact absurd (Nat.le_zero.1 (Pool.adjusts_relend u n b.pool)) hlog
  | @finish _ u hu => cases ht
  | _ => exact absurd rfl hlog

end Move

namespace Course

variable {e : Effect} {b c : Buffer} {log : List Event} {s t : Storage}

theorem capacity_of_calm (h : Course e b c log) (hlog : adjustments log = 0) :
    c.handle.capacity = b.handle.capacity := by
  induction h with
  | refl b => rfl
  | step prior move ih =>
    rw [adjustments_append] at hlog
    rw [move.capacity_of_calm (by omega), ih (by omega)]

theorem carries_of_calm (h : Course e b c log) (hb : b.Valid) (hlog : adjustments log = 0)
    (hs : b.group.storage = some s) (ht : c.group.storage = some t) :
    s.Carries s.capacity e.written t ∧ ∀ p, s.capacity ≤ p → e.written p = none := by
  induction h generalizing t with
  | refl b =>
    rw [hs] at ht
    cases ht
    exact ⟨s.carries_self, fun _ _ => rfl⟩
  | @step e f b c d log more prior move ih =>
    rw [adjustments_append] at hlog
    have hmid := prior.valid hb
    obtain ⟨u, hu, -⟩ := (move.follows hmid).storage t ht
    obtain ⟨hcarries, hnone⟩ := ih hb (by omega) hs hu
    have hsize := move.size_of_calm hmid (by omega) hu ht
    refine ⟨hcarries.write hsize fun p hp => ?_, fun p hp => ?_⟩
    · exact move.bytes hmid hu ht hp (Nat.lt_of_lt_of_eq hp hsize.symm)
    · have hp' : u.capacity ≤ p := Nat.le_trans (Nat.le_of_eq hcarries.capacity) hp
      change (f.written p).or (e.written p) = none
      rw [move.written_none hmid hu hp', hnone p hp, Option.none_or]

/-- A course with one adjustment at most: what comes before it writes within the old storage, and what
comes after it within the new one. -/
theorem carries (h : Course e b c log) (hb : b.Valid) (hlog : adjustments log ≤ 1)
    (hmore : c.handle.capacity ≠ b.handle.capacity) (hs : b.group.storage = some s)
    (ht : c.group.storage = some t) :
    s.Carries (b.extent c.handle.capacity s) e.written t := by
  induction h generalizing t with
  | refl b => exact absurd rfl hmore
  | @step e f b c d log more prior move ih =>
    rw [adjustments_append] at hlog
    have hmid := prior.valid hb
    obtain ⟨u, hu, -⟩ := (move.follows hmid).storage t ht
    by_cases hcalm : adjustments more = 0
    · have hsize := move.size_of_calm hmid hcalm hu ht
      have hsame := move.capacity_of_calm hcalm
      rw [hsame] at hmore ⊢
      refine (ih hb (by omega) hmore hs hu).write hsize fun p hp => ?_
      exact move.bytes hmid hu ht hp (Nat.lt_of_lt_of_eq hp hsize.symm)
    -- The one adjustment is here, so that all that was written before lies within the old storage.
    · obtain ⟨hcarries, hnone⟩ := prior.carries_of_calm hb (by omega) hs hu
      obtain ⟨hwritten, rfl⟩ := move.refits hmid hcalm hu ht
      have hextent : c.extent d.handle.capacity u = b.extent d.handle.capacity s := by
        rw [Buffer.extent, Buffer.extent, (prior.follows hb).shared, hcarries.capacity]
      have hall := hcarries.refit hnone (b.extent d.handle.capacity s)
      rw [hextent]
      simpa only [Effect.andThen, hwritten, Option.none_or] using hall

end Course

theorem Handle.Valid.free_of_moved {h h' : Handle} (hv : h.Valid) (hv' : h'.Valid)
    (horigin : h'.origin = h.origin) (hmax : h'.maxCapacity = h.maxCapacity)
    (hmore : h'.capacity ≠ h.capacity) : h.origin ≠ .slice := by
  intro hslice
  rw [hv'.slice_fixed (horigin.trans hslice), hmax, ← hv.slice_fixed hslice] at hmore
  exact hmore rfl

namespace Buffer

variable {b c : Buffer} {e : Effect} {log : List Event} {s t : Storage} {w : Nat → Option UInt8}

/-- The storage that a growth leaves: it has the extent that the new window asks for, and holds what
`w` says was written, elsewhere what it held before, and zeros behind that. -/
def Enlarged (w : Nat → Option UInt8) (b c : Buffer) : Prop :=
  ∃ s t, b.group.storage = some s ∧ c.group.storage = some t ∧
    s.Carries (b.extent c.handle.capacity s) w t

theorem Does.capacity_of_calm (h : b.Does e c log) (hlog : adjustments log = 0) :
    c.handle.capacity = b.handle.capacity := by
  obtain ⟨back, -, hcourse⟩ := h
  exact hcourse.capacity_of_calm hlog

theorem Does.carries (h : b.Does e c log) (hb : b.Valid) (live : 0 < b.group.count) (hlost : e.lost = 0)
    (hlog : adjustments log ≤ 1) (hmore : c.handle.capacity ≠ b.handle.capacity) :
    ∃ s t, b.group.storage = some s ∧ c.group.storage = some t ∧
      s.Carries (b.extent c.handle.capacity s) e.written t ∧ t.capacity ≤ b.handle.maxCapacity := by
  have hc := h.valid hb
  have hfollows := h.follows hb
  have hfree := hb.handle.free_of_moved hc.handle hfollows.origin hfollows.maxCapacity hmore
  obtain ⟨s, hs, -⟩ := hb.window live
  obtain ⟨t, ht, hon⟩ := hc.window (h.live hlost live)
  have hmax := hon.max_eq (hfollows.origin ▸ hfree)
  obtain ⟨back, -, hcourse⟩ := h
  refine ⟨s, t, hs, ht, hcourse.carries hb hlog hmore hs ht, ?_⟩
  rw [← hfollows.maxCapacity, hmax]
  exact (hc.group.storage t ht).1.capacity_le_max

def unwrapped (b : Buffer) : Except Fault Buffer := (fun h => { b with handle := h }) <$> b.whole

/-- Nothing that the group had is lost when the window of a handle has become larger: the storage is
as large as it was and as the window needs it, and holds what it held, but for what `w` says was
written, and zeros; and what unwrapping shows before is shown by it afterwards. -/
structure Spares (w : Nat → Option UInt8) (b c : Buffer) : Prop where
  storage : ∃ s t, b.group.storage = some s ∧ c.group.storage = some t ∧
    s.Carries (max s.capacity c.handle.capacity) w t
  shown : ∃ u v, b.unwrapped = .ok u ∧ c.unwrapped = .ok v ∧ u.handle.capacity ≤ v.handle.capacity ∧
    ∀ i n bytes, (∀ p, i ≤ p → p < i + n → w p = none) → u.read i n = .ok bytes →
      v.read i n = .ok bytes

theorem unwrapped_of_free (hb : b.Valid) (hs : b.group.storage = some s)
    (hfree : b.handle.origin ≠ .slice) :
    ∃ u, b.unwrapped = .ok u ∧ u.Valid ∧ u.group = b.group ∧ u.handle.offset = 0 ∧
      u.handle.capacity = if b.handle.origin = .root then b.handle.capacity else s.capacity := by
  have live := hb.group.live s hs
  have hwhole : ∃ h, b.whole = .ok h ∧ h.offset = 0 ∧
      h.capacity = if b.handle.origin = .root then b.handle.capacity else s.capacity := by
    have hlive := (checkLive_eq_ok_iff b).2 live
    simp only [whole]
    split
    · next hroot =>
      exact ⟨_, duplicate_eq_ok.2 ⟨live, rfl⟩, hb.handle.offset_zero hfree, rfl⟩
    · simp only [hlive, heldStorage_eq_ok.2 hs, bind, Except.bind, pure, Except.pure]
      exact ⟨_, rfl, rfl, rfl⟩
  obtain ⟨h, hwhole, hoffset, hcapacity⟩ := hwhole
  have hview := view_whole hb hwhole
  refine ⟨{ b with handle := h }, by rw [unwrapped, hwhole]; rfl, ?_, rfl, hoffset, hcapacity⟩
  exact ⟨hview.valid, hb.group, hb.pool, fun _ => ⟨s, hs, hview.on s hs⟩⟩

theorem read_of_carries {u v : Buffer} {n i k : Nat} {bytes : Bytes} (hv : v.Valid)
    (hs : u.group.storage = some s) (ht : v.group.storage = some t) (hcarries : s.Carries n w t)
    (hn : s.capacity ≤ n) (hoffset : u.handle.offset = 0) (hoffset' : v.handle.offset = 0)
    (hle : u.handle.capacity ≤ v.handle.capacity) (hw : ∀ p, i ≤ p → p < i + k → w p = none)
    (hread : u.read i k = .ok bytes) : v.read i k = .ok bytes := by
  obtain ⟨-, hin, s', hs', hfit, rfl⟩ := read_eq_ok hread
  rw [hs] at hs'
  cases hs'
  rw [hv.read_of_le ht (Nat.le_trans hin hle), hoffset, hoffset', Except.ok.injEq]
  refine List.ext_getElem? fun j => ?_
  rw [Bytes.getElem?_window, Bytes.getElem?_window]
  split
  · rw [hoffset] at hfit
    rw [hcarries.kept _ (by omega) (by omega), hw _ (by omega) (by omega), Option.none_or]
  · rfl

theorem spares_of_carries (hb : b.Valid) (hc : c.Valid) (horigin : c.handle.origin = b.handle.origin)
    (hfree : b.handle.origin ≠ .slice) (hmore : b.handle.capacity ≤ c.handle.capacity)
    (hs : b.group.storage = some s) (ht : c.group.storage = some t)
    (hcarries : s.Carries (max s.capacity c.handle.capacity) w t) : b.Spares w c := by
  obtain ⟨u, hu, -, hgroup, hoffset, hcapacity⟩ := unwrapped_of_free hb hs hfree
  obtain ⟨v, hv, hvalid, hgroup', hoffset', hcapacity'⟩ := unwrapped_of_free hc ht (horigin ▸ hfree)
  have hle : u.handle.capacity ≤ v.handle.capacity := by
    rw [hcapacity, hcapacity', horigin, hcarries.capacity]
    split
    · exact hmore
    · exact Nat.le_max_left _ _
  refine ⟨⟨s, t, hs, ht, hcarries⟩, u, v, hu, hv, hle, fun i k bytes hw hread => ?_⟩
  exact read_of_carries hvalid (hgroup ▸ hs) (hgroup' ▸ ht) hcarries (Nat.le_max_left _ _) hoffset
    hoffset' hle hw hread

/-- The extent of the storage after a growth is that of the law, unless the handle has the storage
for itself and its window lags behind it still. -/
theorem spares_iff (hb : b.Valid) (hc : c.Valid) (horigin : c.handle.origin = b.handle.origin)
    (hfree : b.handle.origin ≠ .slice) (hmore : b.handle.capacity ≤ c.handle.capacity)
    (hs : b.group.storage = some s) (ht : c.group.storage = some t)
    (hcarries : s.Carries (b.extent c.handle.capacity s) w t) :
    b.Spares w c ↔ b.shared = true ∨ s.capacity ≤ c.handle.capacity := by
  constructor
  · rintro ⟨⟨s', t', hs', ht', hlaw⟩, -⟩
    rw [hs] at hs'
    rw [ht] at ht'
    cases hs'
    cases ht'
    have hsize : b.extent c.handle.capacity s = max s.capacity c.handle.capacity :=
      hcarries.capacity.symm.trans hlaw.capacity
    rw [extent] at hsize
    split at hsize
    · next hshared => exact .inl hshared
    · exact .inr (by omega)
  · intro hspared
    have hsize : b.extent c.handle.capacity s = max s.capacity c.handle.capacity := by
      rw [extent]
      split
      · rfl
      · next hshared => exact (Nat.max_eq_right (hspared.resolve_left hshared)).symm
    rw [hsize] at hcarries
    exact spares_of_carries hb hc horigin hfree hmore hs ht hcarries

end Buffer

end SharedBuffer
