import SharedBuffer.Proofs.Reporting

/-!
What the events of an operation say about the buffer that it leaves. Main statements: they count the
storages that went back to the pool, those that came into its free list and left it, and the end of
the group's count; and the capacity of the handle is another one exactly if one event says so, which
then tells the capacities and whether the storage was replaced.
-/

namespace SharedBuffer

namespace Event

def deallocates : Event → Bool
  | .deallocated .. => true
  | _ => false

def abandons : Event → Bool
  | .abandoned .. => true
  | _ => false

def replaces : Event → Bool
  | .capacityAdjusted _ _ _ _ replaced => replaced
  | _ => false

def closes (e : Event) : Bool := e.deallocates || e.abandons || e.replaces

theorem Usual.closes_iff {e : Event} (h : e.Usual) :
    e.closes = (e.adjusts && e.replaces) ∧ e.deallocates = false ∧ e.abandons = false := by
  cases e with
  | releaseUnderflow count decrement => cases h
  | deallocated kind capacity => cases h
  | abandoned count => cases h
  | _ => exact ⟨rfl, rfl, rfl⟩

end Event

structure Endless (log : List Event) : Prop where
  deallocates : log.countP Event.deallocates = 0
  abandons : log.countP Event.abandons = 0
  closes : log.countP Event.closes = 0

section Endless

variable {P : Event → Prop} {p : Event → Bool} {log : List Event}

theorem countP_eq_zero_of_forall (h : ∀ e ∈ log, P e) (hp : ∀ e, P e → p e = false) : log.countP p = 0 := by
  rw [List.countP_eq_zero]
  intro e he
  rw [hp e (h e he)]
  exact Bool.false_ne_true

theorem endless_of_forall (h : ∀ e ∈ log, P e) (hnone : ∀ e, P e →
    e.deallocates = false ∧ e.abandons = false ∧ e.closes = false ∧ p e = false) :
    Endless log ∧ log.countP p = 0 := by
  refine ⟨⟨?_, ?_, ?_⟩, ?_⟩
  · exact countP_eq_zero_of_forall h fun e he => (hnone e he).1
  · exact countP_eq_zero_of_forall h fun e he => (hnone e he).2.1
  · exact countP_eq_zero_of_forall h fun e he => (hnone e he).2.2.1
  · exact countP_eq_zero_of_forall h fun e he => (hnone e he).2.2.2

theorem endless_of_reuses (h : ∀ e ∈ log, e.reuses = true) : Endless log ∧ log.countP Event.parks = 0 := by
  apply endless_of_forall h
  intro e he
  cases e with
  | storageReused kind capacity => exact ⟨rfl, rfl, rfl, rfl⟩
  | _ => cases he

theorem endless_of_parks (h : ∀ e ∈ log, e.parks = true) : Endless log ∧ log.countP Event.reuses = 0 := by
  apply endless_of_forall h
  intro e he
  cases e with
  | storageParked kind capacity => exact ⟨rfl, rfl, rfl, rfl⟩
  | _ => cases he

end Endless

namespace Pool

def usedSlots (p : Pool) : Nat := (p.statistics.measure? "slab_free_slots").getD 0

theorem usedSlots_eq (p : Pool) : p.usedSlots = p.parked.length := by
  simp only [usedSlots, statistics, parked]
  cases p.freeList with
  | none => rfl
  | some l => rfl

variable (kind : StorageKind) (n m : Nat) (s : Storage) (p : Pool)

theorem usedSlots_lend : (lend kind n m p).state.usedSlots + (lend kind n m p).events.countP Event.reuses =
    p.usedSlots := by
  simp only [usedSlots_eq]
  rcases lend_cases kind n m p with hl | ⟨l, s, rest, hfree, htake, hl⟩
  · rw [hl]
    rcases lendFresh_cases kind n m p with ⟨s, -, hf⟩ | ⟨f, -, hf⟩
    · rw [hf]
      rfl
    · rw [hf, parked, parked, (noteFault_spec f p).2.1]
      rfl
  · have hlen := (FreeList.take?_perm htake).length_eq
    rw [hl]
    simp only [parked, hfree, Option.map_some, Option.getD_some]
    exact hlen.symm

theorem usedSlots_relend :
    (relend s n p).state.usedSlots + (relend s n p).events.countP Event.reuses = p.usedSlots := by
  rcases relend_cases s n p with hr | ⟨-, hr⟩
  · rw [hr]
    rfl
  · rw [hr]
    exact usedSlots_lend _ _ _ p

theorem usedSlots_takeBack :
    (takeBack s p).state.usedSlots = p.usedSlots + (takeBack s p).events.countP Event.parks := by
  simp only [usedSlots_eq, takeBack]
  split
  · rfl
  · next l hl =>
    split
    · rfl
    · simp only [parked, hl, Option.map_some, Option.getD_some, List.length_append]
      rfl

theorem usedSlots_shrink : (shrink p).state.usedSlots = 0 := by
  simp only [usedSlots_eq, shrink, parked]
  cases hfree : p.freeList with
  | none => rw [hfree]; rfl
  | some l => rfl

theorem reclaimed_relend :
    (relend s n p).state.ledger.reclaimedLeases = p.ledger.reclaimedLeases := by
  rcases relend_state s n p with hr | hr
  · rw [hr]
  · rw [hr, reclaimed_lend]

end Pool

def Group.spent (g : Group) : Nat := if g.count = 0 then 1 else 0

def Group.forsaken (g : Group) : Nat := if g.storage = none ∧ g.count ≠ 0 then 1 else 0

structure Recounts (log : List Event) (g : Group) (p : Pool) (g' : Group) (p' : Pool) : Prop where
  spent : g'.spent = g.spent + log.countP Event.deallocates
  forsaken : g'.forsaken = g.forsaken + log.countP Event.abandons
  reclaimed : p'.ledger.reclaimedLeases =
    Word.countOn p.ledger.reclaimedLeases (log.countP Event.closes)
  slots : p'.usedSlots + log.countP Event.reuses = p.usedSlots + log.countP Event.parks

namespace Recounts

variable {log more : List Event} {g g' g'' : Group} {p p' p'' : Pool} {s : Storage}

theorem refl (g : Group) (p : Pool) : Recounts [] g p g p := ⟨rfl, rfl, rfl, rfl⟩

theorem trans (h : Recounts log g p g' p') (h' : Recounts more g' p' g'' p'') :
    Recounts (log ++ more) g p g'' p'' where
  spent := by rw [h'.spent, h.spent, List.countP_append, Nat.add_assoc]
  forsaken := by rw [h'.forsaken, h.forsaken, List.countP_append, Nat.add_assoc]
  reclaimed := by rw [h'.reclaimed, h.reclaimed, List.countP_append, Word.countOn_add]
  slots := by
    have hfirst := h.slots
    have hsecond := h'.slots
    simp only [List.countP_append]
    omega

theorem of_lending (hspent : g'.spent = g.spent) (hforsaken : g'.forsaken = g.forsaken)
    (hreclaimed : p'.ledger.reclaimedLeases = p.ledger.reclaimedLeases)
    (hslots : p'.usedSlots + log.countP Event.reuses = p.usedSlots)
    (hlog : ∀ e ∈ log, e.reuses = true) : Recounts log g p g' p' := by
  obtain ⟨hendless, hparks⟩ := endless_of_reuses hlog
  constructor
  · rw [hspent, hendless.deallocates, Nat.add_zero]
  · rw [hforsaken, hendless.abandons, Nat.add_zero]
  · rw [hreclaimed, hendless.closes]
    rfl
  · rw [hslots, hparks, Nat.add_zero]

theorem of_lend (kind : StorageKind) (n m : Nat) (g : Group) (p : Pool) :
    Recounts (Pool.lend kind n m p).events g p g (Pool.lend kind n m p).state :=
  of_lending rfl rfl (Pool.reclaimed_lend kind n m p) (Pool.usedSlots_lend kind n m p)
    (Pool.lend_reports kind n m p)

theorem of_relend (s : Storage) (n : Nat) (g : Group) (p : Pool) :
    Recounts (Pool.relend s n p).events g p g (Pool.relend s n p).state :=
  of_lending rfl rfl (Pool.reclaimed_relend n s p) (Pool.usedSlots_relend n s p)
    (Pool.relend_reports s n p)

theorem of_takeBack {e : Event} (hcloses : e.closes = true) (hreuses : e.reuses = false)
    (hparks : e.parks = false)
    (hspent : g'.spent = g.spent + if e.deallocates then 1 else 0)
    (hforsaken : g'.forsaken = g.forsaken + if e.abandons then 1 else 0) (s : Storage) (p : Pool) :
    Recounts (e :: (Pool.takeBack s p).events) g p g' (Pool.takeBack s p).state := by
  obtain ⟨hendless, hlends⟩ := endless_of_parks (Pool.takeBack_reports s p)
  constructor
  · rw [hspent, List.countP_cons, hendless.deallocates, Nat.zero_add]
  · rw [hforsaken, List.countP_cons, hendless.abandons, Nat.zero_add]
  · rw [Pool.reclaimed_takeBack, List.countP_cons, hendless.closes, if_pos hcloses]
    rfl
  · rw [Pool.usedSlots_takeBack, List.countP_cons, List.countP_cons, hlends, hreuses, hparks]
    rfl

theorem of_abandon (hs : g.storage = some s) (live : 0 < g.count) (p : Pool) :
    Recounts (.abandoned g.count :: (Pool.takeBack s p).events) g p { g with storage := none }
      (Pool.takeBack s p).state := by
  refine of_takeBack rfl rfl rfl rfl ?_ s p
  have hcount : g.count ≠ 0 := Nat.ne_of_gt live
  simp [Group.forsaken, hs, hcount, Event.abandons]

theorem perm (h : Recounts log g p g' p') (hlog : log.Perm more) : Recounts more g p g' p' where
  spent := by rw [h.spent, hlog.countP_eq]
  forsaken := by rw [h.forsaken, hlog.countP_eq]
  reclaimed := by rw [h.reclaimed, hlog.countP_eq]
  slots := by
    have hslots := h.slots
    rwa [hlog.countP_eq, hlog.countP_eq] at hslots

end Recounts

namespace Group

theorem spent_of_pos {g : Group} (h : 0 < g.count) : g.spent = 0 := if_neg (Nat.ne_of_gt h)

theorem forsaken_of_some {g : Group} {s : Storage} (h : g.storage = some s) : g.forsaken = 0 := by
  simp [forsaken, h]

end Group

theorem Move.recounts {e : Effect} {b c : Buffer} {log : List Event} (h : Move e b c log)
    (hb : b.Valid) : Recounts log b.group b.pool c.group c.pool := by
  cases h with
  | write hs hopen start data lo hi =>
    refine ⟨rfl, ?_, rfl, rfl⟩
    rw [Group.forsaken_of_some hs]
    exact Group.forsaken_of_some (g := { b.group with storage := some _ }) rfl
  | @replace _ s hs hopen hfree n hn c hc hneed t ht =>
    have hlend := Recounts.of_relend s n b.group b.pool
    have hforsaken : ({ b.group with storage := some t } : Group).forsaken = b.group.forsaken :=
      (Group.forsaken_of_some rfl).trans (Group.forsaken_of_some hs).symm
    have htake : Recounts (.capacityAdjusted b.handle.capacity n b.handle.maxCapacity b.shared true ::
        (Pool.takeBack s (Pool.relend s n b.pool).state).events) b.group (Pool.relend s n b.pool).state
        { b.group with storage := some t } (Pool.takeBack s (Pool.relend s n b.pool).state).state :=
      Recounts.of_takeBack rfl rfl rfl rfl hforsaken s (Pool.relend s n b.pool).state
    exact hlend.trans (htake.perm (List.perm_append_singleton _ _).symm)
  | @retain _ n live hle =>
    have hcount : b.group.count ≠ 0 := Nat.ne_of_gt live
    refine ⟨?_, ?_, rfl, rfl⟩
    · rw [Group.spent_of_pos live]
      exact Group.spent_of_pos (g := { b.group with count := _ }) (Nat.add_pos_left live n)
    · simp [Group.forsaken, Buffer.setCount, hcount]
  | @release _ n hlt =>
    have hcount : b.group.count ≠ 0 := Nat.ne_of_gt (Nat.zero_lt_of_lt hlt)
    refine ⟨?_, ?_, rfl, rfl⟩
    · rw [Group.spent_of_pos (Nat.zero_lt_of_lt hlt)]
      exact Group.spent_of_pos (g := { b.group with count := _ }) (Nat.sub_pos_of_lt hlt)
    · simp [Group.forsaken, Buffer.setCount, hcount, Nat.sub_eq_zero_iff_le, Nat.not_le.2 hlt]
  | @finish _ s hs =>
    refine Recounts.of_takeBack rfl rfl rfl ?_ ?_ s b.pool
    · rw [Group.spent_of_pos (hb.group.live s hs)]
      rfl
    · rw [Group.forsaken_of_some hs]
      rfl
  | lend kind n m => exact .of_lend kind n m b.group b.pool
  | relend s n => exact .of_relend s n b.group b.pool
  | _ => exact ⟨rfl, rfl, rfl, rfl⟩

theorem Move.length_back {e : Effect} {b c : Buffer} {log : List Event} (h : Move e b c log) :
    e.back.length = log.countP Event.closes := by
  cases h with
  | @replace _ s hs hopen hfree n hn c hc hneed t ht =>
    obtain ⟨hlends, -⟩ := endless_of_reuses (Pool.relend_reports s n b.pool)
    obtain ⟨htakes, -⟩ := endless_of_parks (Pool.takeBack_reports s (Pool.relend s n b.pool).state)
    rw [List.countP_append, List.countP_append, hlends.closes, htakes.closes]
    rfl
  | @finish _ s hs =>
    obtain ⟨htakes, -⟩ := endless_of_parks (Pool.takeBack_reports s b.pool)
    rw [List.countP_cons, htakes.closes]
    rfl
  | lend kind n m => exact (endless_of_reuses (Pool.lend_reports kind n m b.pool)).1.closes.symm
  | relend s n => exact (endless_of_reuses (Pool.relend_reports s n b.pool)).1.closes.symm
  | _ => rfl

namespace Course

variable {e : Effect} {b c : Buffer} {log : List Event}

theorem recounts (h : Course e b c log) (hb : b.Valid) : Recounts log b.group b.pool c.group c.pool := by
  induction h with
  | refl b => exact .refl b.group b.pool
  | step prior move ih => exact (ih hb).trans (move.recounts (prior.valid hb))

theorem length_back (h : Course e b c log) : e.back.length = log.countP Event.closes := by
  induction h with
  | refl b => rfl
  | step prior move ih =>
    rw [Effect.andThen, List.length_append, ih, move.length_back, List.countP_append]

end Course

theorem filter_of_calm {log : List Event} (h : adjustments log = 0) : log.filter Event.adjusts = [] := by
  apply List.eq_nil_of_length_eq_zero
  rw [← List.countP_eq_length_filter]
  exact h

def Buffer.adjustment (b : Buffer) (capacity : Nat) (replaced : Bool) : Event :=
  .capacityAdjusted b.handle.capacity capacity b.handle.maxCapacity b.shared replaced

theorem Move.adjustment {e : Effect} {b c : Buffer} {log : List Event} (h : Move e b c log)
    (hlog : adjustments log ≠ 0) :
    ∃ replaced, log.filter Event.adjusts = [b.adjustment c.handle.capacity replaced] := by
  cases h with
  | resize hs hopen hfree hn c hc hkeep => exact ⟨false, rfl⟩
  | @replace _ s hs hopen hfree n hn c hc hneed t ht =>
    have hlend := filter_of_calm (Nat.le_zero.1 (Pool.adjusts_relend s n b.pool))
    have htake := filter_of_calm (Nat.le_zero.1 (Pool.adjusts_takeBack s (Pool.relend s n b.pool).state))
    refine ⟨true, ?_⟩
    rw [List.filter_append, List.filter_append, hlend, htake]
    rfl
  | @finish _ s hs =>
    have htake := Nat.le_zero.1 (Pool.adjusts_takeBack (n := 0) s b.pool)
    exact absurd htake hlog
  | lend kind n m => exact absurd (Nat.le_zero.1 (Pool.adjusts_lend kind n m b.pool)) hlog
  | relend s n => exact absurd (Nat.le_zero.1 (Pool.adjusts_relend s n b.pool)) hlog
  | _ => exact absurd rfl hlog

/-- Where the capacity is adjusted at most once, one event tells of it, or it is what it was. -/
theorem Course.adjustment {e : Effect} {b c : Buffer} {log : List Event} (h : Course e b c log)
    (hb : b.Valid) (hone : adjustments log ≤ 1) :
    (log.filter Event.adjusts = [] ∧ c.handle.capacity = b.handle.capacity) ∨
      ∃ replaced, log.filter Event.adjusts = [b.adjustment c.handle.capacity replaced] := by
  induction h with
  | refl b => exact .inl ⟨rfl, rfl⟩
  | @step e f b c d log more prior move ih =>
    rw [adjustments_append] at hone
    rw [List.filter_append]
    by_cases hcalm : adjustments more = 0
    · rw [filter_of_calm hcalm, List.append_nil, move.capacity_of_calm hcalm]
      exact ih hb (by omega)
    · have hbefore : adjustments log = 0 := by omega
      have hfollows := prior.follows hb
      obtain ⟨replaced, hmore⟩ := move.adjustment hcalm
      refine .inr ⟨replaced, ?_⟩
      rw [filter_of_calm hbefore, hmore, Buffer.adjustment, Buffer.adjustment,
        prior.capacity_of_calm hbefore, hfollows.maxCapacity, hfollows.shared]
      rfl

namespace Buffer

variable {b c : Buffer} {e : Effect} {log : List Event} {replaced : Bool}

structure Announces (b : Buffer) (replaced : Bool) (c : Buffer) (log : List Event) : Prop where
  told : log.filter Event.adjusts = [b.adjustment c.handle.capacity replaced]
  moved : c.handle.capacity ≠ b.handle.capacity
  swapped : replaced = true ↔
    c.group.storage.map Storage.capacity ≠ b.group.storage.map Storage.capacity
  closed : log.countP Event.closes = if replaced then 1 else 0

theorem Does.recounts (h : b.Does e c log) (hb : b.Valid) :
    Recounts log b.group b.pool c.group c.pool := by
  obtain ⟨back, -, hcourse⟩ := h
  exact hcourse.recounts hb

theorem does_of_meets {α : Type} {x : Action Failure Buffer α}
    (h : (x b).Meets (fun _ => b.Does e) b.Fails) : ∃ f, b.Does f (x b).state (x b).events := by
  rcases ho : x b with ⟨f | v, d, log⟩
  · rw [ho] at h
    obtain ⟨written, hdoes⟩ := h.does
    exact ⟨_, hdoes⟩
  · rw [ho] at h
    exact ⟨_, h⟩

theorem countP_closes_of_usual (hlog : ∀ e ∈ log, e.Usual) :
    log.countP Event.closes = (log.filter Event.adjusts).countP Event.replaces := by
  rw [List.countP_filter]
  refine List.countP_congr fun e he => ?_
  rw [(hlog e he).closes_iff.1, Bool.and_comm]

theorem Does.announces (h : b.Does e c log) (hb : b.Valid) (hone : adjustments log ≤ 1)
    (hlog : ∀ e ∈ log, e.Usual) :
    (log.filter Event.adjusts = [] ∧ c.handle.capacity = b.handle.capacity) ∨
      ∃ replaced, b.Announces replaced c log := by
  obtain ⟨back, hback, hcourse⟩ := h
  refine (hcourse.adjustment hb hone).imp id fun ⟨replaced, htold⟩ => ?_
  have hclosed : log.countP Event.closes = if replaced then 1 else 0 := by
    rw [countP_closes_of_usual hlog, htold, List.countP_singleton]
    rfl
  refine ⟨replaced, htold, ?_, ?_, hclosed⟩
  · have hmem : b.adjustment c.handle.capacity replaced ∈ log.filter Event.adjusts := by
      rw [htold]
      exact List.mem_singleton_self _
    exact Ne.symm (hlog _ (List.mem_filter.1 hmem).1)
  · have hlen : back.length = if replaced then 1 else 0 := hcourse.length_back.trans hclosed
    rcases hcourse.custody hb hback with ⟨hnone, hsame⟩ | ⟨s, t, hsome, ht, hshape, hother⟩
    · have hreplaced : replaced = false := by
        cases replaced with
        | false => rfl
        | true =>
          rw [show back = [] from hnone] at hlen
          cases hlen
      have hcap := congrArg (Option.map fun x : StorageKind × Nat × Nat => x.2.1) hsame
      rw [Option.map_map, Option.map_map] at hcap
      exact ⟨fun htrue => absurd (hreplaced.symm.trans htrue) Bool.false_ne_true,
        fun hne => absurd hcap hne⟩
    · have hreplaced : replaced = true := by
        cases replaced with
        | false =>
          rw [show back = [s] from hsome] at hlen
          cases hlen
        | true => rfl
      refine ⟨fun _ hsame => ?_, fun _ => hreplaced⟩
      rw [ht, Option.map_some] at hsame
      obtain ⟨u, hu, hcap⟩ := Option.map_eq_some_iff.1 hsame
      exact hother u hu (hcap.trans (Storage.shape_eq_iff.1 hshape).2.1)

end Buffer

namespace Change

variable {b : Buffer} {c : Change}

theorem run_does (hb : b.Valid) (hc : c.Fits) : ∃ e, b.Does e (c.run b).state (c.run b).events :=
  Buffer.does_of_meets (run_meets hb c hc)

theorem run_recounts (hb : b.Valid) (hc : c.Fits) :
    Recounts (c.run b).events b.group b.pool (c.run b).state.group (c.run b).state.pool := by
  obtain ⟨e, hdoes⟩ := run_does hb hc
  exact hdoes.recounts hb

/-- Whatever becomes of a change, the capacity is another one exactly if one event says so. -/
theorem run_announces (hb : b.Valid) (hc : c.Fits) :
    ((c.run b).events.filter Event.adjusts = [] ∧
        (c.run b).state.handle.capacity = b.handle.capacity) ∨
      ∃ replaced, b.Announces replaced (c.run b).state (c.run b).events := by
  obtain ⟨e, hdoes⟩ := run_does hb hc
  by_cases hrelease : ∃ n, c = .release n
  · obtain ⟨n, rfl⟩ := hrelease
    have hcalm := Nat.le_zero.1 (adjusts_of_calm (c := .release n) rfl b)
    exact .inl ⟨filter_of_calm hcalm, hdoes.capacity_of_calm hcalm⟩
  · exact hdoes.announces hb (adjusts_once hb hc) (run_reports (fun n hn => hrelease ⟨n, hn⟩) b)

end Change

end SharedBuffer
