import SharedBuffer.Proofs.Attribution
import SharedBuffer.Proofs.Reclamation

/-!
The event log as a mirror of the state. Of every step the events tell which capacity has changed, that
the last reference is released or the last handle gone, and that a release asks for too much; and only
then do they tell it. Main statement: so over every run the events of a group say whether and how it has
come to its end, and those of a pool what its ledger counts as taken back and how many slots of its free
list are in use.
-/

namespace SharedBuffer

namespace Event

def reads (text : String) (e : Event) : Bool := e.message == text

theorem reads_adjusted : reads "buffer capacity adjusted" = adjusts := by
  funext e
  cases e <;> simp [reads, adjusts, message]

theorem reads_deallocated : reads "reference count reached zero, storage deallocated" = deallocates := by
  funext e
  cases e <;> simp [reads, deallocates, message]

theorem reads_abandoned :
    reads "last handle dropped, storage returned without explicit release" = abandons := by
  funext e
  cases e <;> simp [reads, abandons, message]

theorem reads_reused : reads "reusing pooled storage" = reuses := by
  funext e
  cases e <;> simp [reads, reuses, message]

theorem reads_parked : reads "storage returned to free list" = parks := by
  funext e
  cases e <;> simp [reads, parks, message]

theorem reads_underflow_iff {e : Event} :
    e.reads "release called more times than outstanding retains" = true ↔
      ∃ count n, e = .releaseUnderflow count n := by
  cases e <;> simp [reads, message]

theorem countP_closes (log : List Event) : log.countP closes =
    log.countP deallocates + log.countP abandons + log.countP replaces := by
  induction log with
  | nil => rfl
  | cons e log ih =>
    have hone : (if e.closes then 1 else 0) = (if e.deallocates then 1 else 0) +
        (if e.abandons then 1 else 0) + (if e.replaces then 1 else 0) := by
      cases e with
      | capacityAdjusted old new maxCapacity shared replaced => cases replaced <;> rfl
      | _ => rfl
    simp only [List.countP_cons]
    omega

end Event

namespace Arena

open Table (find?)

variable {a : Arena} {g : Nat} {name source : String} {m : Member} {e : Estate} {p : Pool}

theorem spent_eq (g : Nat) (a : Arena) : a.spent g = if a.references g = 0 then 1 else 0 := by
  rw [spent, references]
  cases a.groups[g]? with
  | none => rfl
  | some e => rfl

def Forlorn (g : Nat) (a : Arena) : Prop :=
  g < a.groups.length ∧ a.isHeld g = false ∧ a.references g ≠ 0

instance (g : Nat) (a : Arena) : Decidable (a.Forlorn g) := inferInstanceAs (Decidable (_ ∧ _ ∧ _))

theorem forsaken_eq (ha : a.Valid) (ht : a.Tidy) (g : Nat) :
    a.forsaken g = if a.Forlorn g then 1 else 0 := by
  cases he : a.groups[g]? with
  | none =>
    have hout : ¬a.Forlorn g := fun h => Nat.not_le.2 h.1 (List.getElem?_eq_none_iff.1 he)
    rw [forsaken, he, if_neg hout]
    rfl
  | some e =>
    rw [forsaken, he]
    refine if_congr ⟨?_, ?_⟩ rfl rfl
    · rintro ⟨hnone, hcount⟩
      rw [← references_of_some he] at hcount
      refine ⟨lt_of_getElem? he, ?_, hcount⟩
      rw [← Bool.not_eq_true]
      intro hheld
      have hsome := (ha.storage_iff hheld).2 (Nat.pos_of_ne_zero hcount)
      rw [storageAt_of_some he, hnone] at hsome
      cases hsome
    · rintro ⟨-, hheld, hcount⟩
      rw [references_of_some he] at hcount
      exact ⟨ht g e he hheld, hcount⟩

theorem pour_cases (ha : a.Valid) (hs : a.Seat name m e p) (hne : source ≠ name) (n : Nat) :
    ((pour source name n a).state = a ∧ (pour source name n a).events = []) ∨
      ∃ bytes, (pour source name n a).state.Shows name m.group
          (Buffer.append bytes (a.bufferOf name m e p)).state ∧
        (pour source name n a).events = (Buffer.append bytes (a.bufferOf name m e p)).events := by
  have hquiet : (onBuffer source (lift (Action.ask (Buffer.peek n)))).Reports fun _ => False :=
    onBuffer_reports (Change.lift_reports (Action.reports_ask _)) source
  have hseek : (onBuffer source (lift (Action.modify (Buffer.moveCursor
      (Cursor.advanceReader n))))).Reports fun _ => False :=
    onBuffer_reports (Change.lift_reports (Action.reports_modify _)) source
  have hevents := hquiet.events_eq_nil a
  have hstate := state_onBuffer_ask ha (Buffer.peek n) source
  -- The source is only asked before the append, and only its cursor moves after it.
  rcases ho : onBuffer source (lift (Action.ask (Buffer.peek n))) a with ⟨f | bytes, a', log⟩
  · rw [ho] at hevents hstate
    rw [pour, Action.bind_of_error ho]
    exact .inl ⟨hstate, hevents⟩
  · rw [ho] at hevents hstate
    obtain rfl : log = [] := hevents
    obtain rfl : a' = a := hstate
    refine .inr ⟨bytes, ?_⟩
    have happend := onBuffer_of_seat hs (lift (Buffer.append bytes))
    have hshows := shows_settle hs (Buffer.append bytes (a'.bufferOf name m e p)).state
    rw [pour, Action.bind_of_ok ho]
    rcases hr : (lift (Buffer.append bytes) (a'.bufferOf name m e p)).result with f | v
    · rw [hr] at happend
      rw [Action.bind_of_error happend]
      exact ⟨hshows, rfl⟩
    · rw [hr] at happend
      rw [Action.bind_of_ok happend, hseek.events_eq_nil, List.append_nil]
      exact ⟨seek_shows hne _ _ hshows, rfl⟩

end Arena

theorem Exchange.run_cases (x : Exchange) (first other : String) (a : Arena) :
    (∃ f, x.run first other a = ⟨.error f, a, []⟩) ∨
      ((∃ b, a.buffer first = .ok b) ∧ (∃ o, a.buffer other = .ok o) ∧
        (first = other → x.compares = true) ∧ x.run first other a = x.answer first other a) := by
  rw [run]
  cases ho : a.buffer other with
  | error f => exact .inl ⟨f, Action.ask_bind_of_error ho⟩
  | ok o =>
    rw [Action.ask_bind_of_ok ho]
    cases hb : a.buffer first with
    | error f => exact .inl ⟨f, Action.ask_bind_of_error hb⟩
    | ok b =>
      rw [Action.ask_bind_of_ok hb]
      by_cases hsame : first = other ∧ (!x.compares) = true
      · rw [if_pos hsame]
        exact .inl ⟨_, rfl⟩
      · rw [if_neg hsame]
        refine .inr ⟨⟨b, rfl⟩, ⟨o, rfl⟩, fun heq => ?_, rfl⟩
        cases hx : x.compares with
        | true => rfl
        | false => exact absurd ⟨heq, by rw [hx]; rfl⟩ hsame

namespace Command

open Arena
open Table (find?)

variable {a : Arena} {c : Command} {name : String} {m m' : Member} {e : Estate} {p : Pool}

structure Resizes (c : Command) (a : Arena) (name : String) (m m' : Member) : Prop where
  kept : name ∉ c.seats
  before : find? name a.buffers = some m
  after : find? name (c.run a).state.buffers = some m'
  moved : m'.handle.capacity ≠ m.handle.capacity

section Adjusting

def Reflects (c : Command) (a : Arena) (name : String) (m : Member) (b : Buffer) : Prop :=
  ((c.run a).events.filter Event.adjusts = [] ∧ (c.run a).state.Sized name m.handle.capacity) ∨
    ∃ replaced d, (c.run a).state.Shows name m.group d ∧ b.Announces replaced d (c.run a).events

theorem reflects_of_change {change : Change} (hfits : change.Fits) (hb : (a.bufferOf name m e p).Valid)
    (hshows : (c.run a).state.Shows name m.group (change.run (a.bufferOf name m e p)).state)
    (hevents : (c.run a).events = (change.run (a.bufferOf name m e p)).events) :
    c.Reflects a name m (a.bufferOf name m e p) := by
  rw [Reflects, hevents]
  refine (Change.run_announces hb hfits).imp (fun ⟨hcalm, hsame⟩ => ⟨hcalm, _, hshows.member, hsame⟩) ?_
  exact fun ⟨replaced, hannounces⟩ => ⟨replaced, _, hshows, hannounces⟩

theorem reflects_of_pour {source : String} {n : Nat} (ha : a.Valid) (hs : a.Seat name m e p)
    (hne : source ≠ name) (hrun : c.run a = (pour source name n >>= fun _ => pure .done) a) :
    c.Reflects a name m (a.bufferOf name m e p) := by
  have hstate : (c.run a).state = (pour source name n a).state := by
    rw [hrun, Action.state_then_pure]
  have hevents : (c.run a).events = (pour source name n a).events := by
    rw [hrun]
    exact Action.events_map (fun _ => Answer.done) _ a
  rcases pour_cases ha hs hne n with ⟨hsame, hquiet⟩ | ⟨bytes, hshows, hlog⟩
  · refine .inl ⟨by rw [hevents, hquiet]; rfl, ?_⟩
    rw [hstate, hsame]
    exact .of_seat hs
  · have hfits : (Change.append bytes).Fits := trivial
    refine reflects_of_change hfits (ha.buffer hs) ?_ ?_
    · rw [hstate, Change.run, Action.state_then_pure]
      exact hshows
    · rw [hevents, hlog]
      exact (Action.events_map (fun _ => Answer.done) (lift (Buffer.append bytes)) _).symm

theorem run_reflects (ha : a.Valid) (hc : c.Fits) (hs : a.Seat name m e p) (hmover : c.mover = some name) :
    c.Reflects a name m (a.bufferOf name m e p) := by
  cases c with
  | change other change =>
    cases hmover
    refine reflects_of_change hc (ha.buffer hs) (onBuffer_shows hs change.run) ?_
    rw [run, onBuffer_of_seat hs]
  | exchange first other x =>
    rcases x.run_cases first other a with ⟨f, hrefused⟩ | ⟨-, -, hne, hrun⟩
    · refine .inl ?_
      rw [run, hrefused]
      exact ⟨rfl, .of_seat hs⟩
    · cases x with
      | readInto n =>
        cases hmover
        exact reflects_of_pour ha hs (fun heq => Bool.false_ne_true (hne heq)) hrun
      | writeFrom n =>
        cases hmover
        exact reflects_of_pour ha hs (fun heq => Bool.false_ne_true (hne heq.symm)) hrun
      | _ => cases hmover
  | _ => cases hmover

theorem events_of_absent (hmover : c.mover = some name) (hm : find? name a.buffers = none) :
    (c.run a).events = [] := by
  have absent {b : Buffer} (hb : a.buffer name = .ok b) : False := by
    rw [Arena.buffer, Arena.buffer?, hm] at hb
    cases hb
  cases c with
  | change other change =>
    cases hmover
    rw [run, onBuffer_of_none hm]
  | exchange first other x =>
    rcases x.run_cases first other a with ⟨f, hrefused⟩ | ⟨⟨b, hb⟩, ⟨o, ho⟩, -, -⟩
    · rw [run, hrefused]
    · cases x with
      | readInto n =>
        cases hmover
        exact (absent ho).elim
      | writeFrom n =>
        cases hmover
        exact (absent hb).elim
      | _ => cases hmover
  | _ => cases hmover

theorem kept_of_mover (hmover : c.mover = some name) : name ∉ c.seats := by
  cases c with
  | change other change => exact List.not_mem_nil
  | exchange first other x => exact List.not_mem_nil
  | _ => cases hmover

theorem mover_of_resizes (ha : a.Valid) (h : c.Resizes a name m m') : c.mover = some name := by
  by_cases hmover : c.mover = some name
  · exact hmover
  · obtain ⟨k, hk, hsame⟩ := run_sized ha ⟨m, h.before, rfl⟩ h.kept hmover
    rw [h.after] at hk
    cases hk
    exact absurd hsame h.moved

theorem adjusted_of_resizes (ha : a.Valid) (hc : c.Fits) (h : c.Resizes a name m m') :
    ∃ e p replaced d, a.Seat name m e p ∧ (c.run a).state.Shows name m.group d ∧
      m'.handle = d.handle ∧ (a.bufferOf name m e p).Announces replaced d (c.run a).events := by
  obtain ⟨e, p, hs⟩ := ha.seat h.before
  rcases run_reflects ha hc hs (mover_of_resizes ha h) with ⟨-, k, hk, hsame⟩ | ⟨replaced, d, hshows, hd⟩
  · rw [h.after] at hk
    cases hk
    exact absurd hsame h.moved
  · have hafter := hshows.member
    rw [h.after] at hafter
    cases hafter
    exact ⟨e, p, replaced, d, hs, hshows, rfl, hd⟩

theorem resizes_of_adjusts (ha : a.Valid) (hc : c.Fits) (h : (c.run a).events.filter Event.adjusts ≠ []) :
    ∃ name m m', c.Resizes a name m m' := by
  cases hmover : c.mover with
  | none =>
    refine absurd (List.filter_eq_nil_iff.2 fun e he hadjusts => ?_) h
    have hplain := run_plain ha hc hmover e he
    cases e with
    | capacityAdjusted old new maxCapacity shared replaced => exact hplain
    | _ => cases hadjusts
  | some name =>
    cases hm : find? name a.buffers with
    | none =>
      rw [events_of_absent hmover hm] at h
      exact absurd rfl h
    | some m =>
      obtain ⟨e, p, hs⟩ := ha.seat hm
      rcases run_reflects ha hc hs hmover with ⟨hcalm, -⟩ | ⟨replaced, d, hshows, hd⟩
      · exact absurd hcalm h
      · exact ⟨name, m, _, kept_of_mover hmover, hm, hshows.member, hd.moved⟩

end Adjusting

section Ending

variable {g n : Nat}

theorem release_of_ok {b d : Buffer} {last : Bool} {log : List Event}
    (h : Buffer.release n b = ⟨.ok last, d, log⟩) :
    (Change.release n).run b = ⟨.ok (.flag last), d, log ++ []⟩ :=
  Action.bind_eq_ok (lift_of_ok h) rfl

theorem release_of_error {b d : Buffer} {f : Fault} {log : List Event}
    (h : Buffer.release n b = ⟨.error f, d, log⟩) :
    (Change.release n).run b = ⟨.error (.fault f), d, log⟩ :=
  Action.bind_of_error (by rw [lift, Action.mapError, h])

inductive Releases (o : Outcome Failure Arena Answer) : Prop
  | quiet (hevents : o.events = []) (hlast : o.result ≠ .ok (.flag true))
      (hless : ∀ count n, o.result ≠ .error (.fault (.releaseUnderflow count n)))
  | underflow (count n : Nat) (hevents : o.events = [.releaseUnderflow count n])
      (hresult : o.result = .error (.fault (.releaseUnderflow count n)))
  | last (kind : StorageKind) (capacity : Nat) {log : List Event} (hlog : ∀ e ∈ log, e.parks = true)
      (hevents : o.events = .deallocated kind capacity :: log) (hresult : o.result = .ok (.flag true))

theorem releases_run (ha : a.Valid) (name : String) (n : Nat) :
    Releases ((change name (.release n)).run a) := by
  cases hm : find? name a.buffers with
  | none =>
    rw [run, onBuffer_of_none hm]
    exact .quiet rfl (fun h => by cases h) fun _ _ h => by cases h
  | some m =>
    obtain ⟨e, p, hs⟩ := ha.seat hm
    rw [run, onBuffer_of_seat hs]
    rcases Buffer.release_cases (ha.buffer hs) n with ⟨-, hr⟩ | ⟨-, hr⟩ | ⟨-, -, hr⟩ | ⟨-, -, s, -, hr⟩
    · rw [release_of_error hr]
      exact .quiet rfl (fun h => by cases h) fun _ _ h => by cases h
    · rw [release_of_error hr]
      exact .underflow _ _ rfl rfl
    · rw [release_of_ok hr]
      exact .quiet rfl (fun h => by cases h) fun _ _ h => by cases h
    · rw [release_of_ok hr, List.append_nil]
      exact .last _ _ (Pool.takeBack_reports s _) rfl rfl

theorem deallocated_iff (ha : a.Valid) (hc : c.Fits) :
    (∃ e ∈ (c.run a).events, e.deallocates = true) ↔
      ∃ name n, c = .change name (.release n) ∧ (c.run a).result = .ok (.flag true) := by
  constructor
  · rintro ⟨e, he, hdeallocates⟩
    by_cases hrelease : ∃ name n, c = .change name (.release n)
    · obtain ⟨name, n, rfl⟩ := hrelease
      refine ⟨name, n, rfl, ?_⟩
      cases releases_run ha name n with
      | quiet hevents =>
        rw [hevents] at he
        cases he
      | underflow count n hevents =>
        rw [hevents] at he
        rw [List.mem_singleton.1 he] at hdeallocates
        cases hdeallocates
      | last kind capacity hlog hevents hresult => exact hresult
    · have hnot := run_unreleased ha hc (fun name n heq => hrelease ⟨name, n, heq⟩) e he
      cases e with
      | deallocated kind capacity => exact (hnot trivial).elim
      | _ => cases hdeallocates
  · rintro ⟨name, n, rfl, hresult⟩
    cases releases_run ha name n with
    | quiet hevents hlast => exact absurd hresult hlast
    | underflow count n hevents hfailed =>
      rw [hfailed] at hresult
      cases hresult
    | last kind capacity hlog hevents =>
      rw [hevents]
      exact ⟨_, List.mem_cons_self, rfl⟩

theorem underflow_iff (ha : a.Valid) (hc : c.Fits) (count decrement : Nat) :
    .releaseUnderflow count decrement ∈ (c.run a).events ↔
      ∃ name n, c = .change name (.release n) ∧
        (c.run a).result = .error (.fault (.releaseUnderflow count decrement)) := by
  constructor
  · intro he
    by_cases hrelease : ∃ name n, c = .change name (.release n)
    · obtain ⟨name, n, rfl⟩ := hrelease
      refine ⟨name, n, rfl, ?_⟩
      cases releases_run ha name n with
      | quiet hevents =>
        rw [hevents] at he
        cases he
      | underflow count' n' hevents hresult =>
        rw [hevents] at he
        cases List.mem_singleton.1 he
        exact hresult
      | last kind capacity hlog hevents =>
        rw [hevents] at he
        cases hlog _ (List.mem_of_ne_of_mem (fun h => by cases h) he)
    · exact (run_unreleased ha hc (fun name n heq => hrelease ⟨name, n, heq⟩) _ he trivial).elim
  · rintro ⟨name, n, rfl, hresult⟩
    cases releases_run ha name n with
    | quiet hevents hlast hless => exact absurd hresult (hless count decrement)
    | underflow count' n' hevents hfailed =>
      rw [hfailed] at hresult
      cases hresult
      rw [hevents]
      exact List.mem_singleton_self _
    | last kind capacity hlog hevents hlast =>
      rw [hlast] at hresult
      cases hresult

theorem held_of_scope (h : (c.scope a).group = some g) : a.isHeld g = true := by
  have held {name : String} (hname : a.groupOf name = some g) : a.isHeld g = true := by
    obtain ⟨m, hm, hgroup⟩ := Option.map_eq_some_iff.1 hname
    exact isHeld_iff.2 ⟨_, Table.mem_of_find? hm, hgroup⟩
  cases c with
  | exchange name other x =>
    rw [scope] at h
    split at h
    · cases h
    · exact held h
  | make what target | drop name | change name c | derive name d target => exact held h
  | _ => cases h

theorem abandoned_iff (ha : a.Valid) (ht : a.Tidy) (hc : c.Fits) :
    (∃ e ∈ (c.run a).events, e.abandons = true) ↔
      ∃ g, a.isHeld g = true ∧ (c.run a).state.isHeld g = false ∧ (c.run a).state.references g ≠ 0 := by
  have hrecorded := run_recorded ha hc
  obtain ⟨x, hdoes, -⟩ := ha.step hc
  have ha' := hdoes.valid ha
  have ht' := hdoes.tidy ht
  have hcount (g : Nat) : (if (c.run a).state.Forlorn g then 1 else 0) = (if a.Forlorn g then 1 else 0) +
      share (c.scope a).group g ((c.run a).events.countP Event.abandons) := by
    rw [← forsaken_eq ha' ht', ← forsaken_eq ha ht]
    exact hrecorded.forsaken g
  constructor
  -- An event stands for one more group that is forlorn; the scope says that it was held before.
  · rintro ⟨e, he, habandons⟩
    have hcloses : e.closes = true := by rw [Event.closes, habandons, Bool.or_true, Bool.true_or]
    obtain ⟨g, hg⟩ := Option.isSome_iff_exists.1 (hrecorded.closing e he hcloses).1
    have hpos : 0 < (c.run a).events.countP Event.abandons := List.countP_pos_iff.2 ⟨e, he, habandons⟩
    have hnow := hcount g
    rw [hg, share_self] at hnow
    by_cases hforlorn : (c.run a).state.Forlorn g
    · exact ⟨g, held_of_scope hg, hforlorn.2.1, hforlorn.2.2⟩
    · rw [if_neg hforlorn] at hnow
      omega
  · rintro ⟨g, hheld, hfree, hlive⟩
    have hlt : g < a.groups.length := by
      obtain ⟨entry, hentry, rfl⟩ := isHeld_iff.1 hheld
      exact lt_of_fits (ha.members entry hentry)
    obtain ⟨ended, -, -, hcourse⟩ := hdoes.course
    have hafter : (c.run a).state.Forlorn g := ⟨Nat.lt_of_lt_of_le hlt hcourse.groups_length, hfree, hlive⟩
    have hbefore : ¬a.Forlorn g := fun h => by
      rw [h.2.1] at hheld
      cases hheld
    have hnow := hcount g
    rw [if_pos hafter, if_neg hbefore, Nat.zero_add] at hnow
    refine List.countP_pos_iff.1 (Nat.pos_of_ne_zero fun hzero => ?_)
    rw [hzero, share_zero] at hnow
    cases hnow

end Ending

def told (text : String) (part : Scope → Option Nat) (i : Nat) (a : Arena) (c : Command) : Nat :=
  share (part (c.scope a)) i ((c.run a).events.countP (Event.reads text))

def swaps (k : Nat) (a : Arena) (c : Command) : Nat :=
  share (c.scope a).pool k ((c.run a).events.countP Event.replaces)

structure Mirrors (c : Command) (a : Arena) : Prop where
  adjusted_iff : (∃ e ∈ (c.run a).events, e.reads "buffer capacity adjusted" = true) ↔
    ∃ name m m', c.Resizes a name m m'
  adjusted : ∀ name m m', c.Resizes a name m m' → ∃ replaced,
    (c.run a).events.filter (Event.reads "buffer capacity adjusted") =
      [.capacityAdjusted m.handle.capacity m'.handle.capacity m.handle.maxCapacity
        (a.isShared name m.group) replaced] ∧
    (replaced = true ↔ ((c.run a).state.storageAt m.group).map Storage.capacity ≠
      (a.storageAt m.group).map Storage.capacity) ∧
    ∀ k, a.poolOf m.group = some k → ((c.run a).state.poolAt k).ledger.reclaimedLeases =
      Word.countOn (a.poolAt k).ledger.reclaimedLeases (if replaced then 1 else 0)
  deallocated_iff : (∃ e ∈ (c.run a).events,
      e.reads "reference count reached zero, storage deallocated" = true) ↔
    ∃ name n, c = .change name (.release n) ∧ (c.run a).result = .ok (.flag true)
  abandoned_iff : (∃ e ∈ (c.run a).events,
      e.reads "last handle dropped, storage returned without explicit release" = true) ↔
    ∃ g, a.isHeld g = true ∧ (c.run a).state.isHeld g = false ∧ (c.run a).state.references g ≠ 0
  underflow_iff : (∃ e ∈ (c.run a).events,
      e.reads "release called more times than outstanding retains" = true) ↔
    ∃ name n count decrement, c = .change name (.release n) ∧
      (c.run a).result = .error (.fault (.releaseUnderflow count decrement))
  placed : ∀ g, (c.scope a).group = some g → a.isHeld g = true ∧ (c.scope a).pool = a.poolOf g
  closing : ∀ e ∈ (c.run a).events, e.closes = true →
    (c.scope a).group.isSome = true ∧ (c.scope a).pool.isSome = true
  parking : ∀ e ∈ (c.run a).events, e.parks = true → (c.scope a).pool.isSome = true
  reusing : ∀ e ∈ (c.run a).events, e.reuses = true → (c.scope a).lender.isSome = true
  catalogued : ∀ e ∈ (c.run a).events, ∀ level target,
    (e.message, level, target) ∈ Event.catalogue ↔ level = e.level ∧ target = e.target

section Mirrors

theorem pool_of_scope {g : Nat} (h : (c.scope a).group = some g) : (c.scope a).pool = a.poolOf g := by
  have place {name : String} (hname : a.groupOf name = some g) : a.homeOf name = a.poolOf g := by
    rw [homeOf, hname, Option.bind_some]
  cases c with
  | exchange name other x =>
    rw [scope] at h ⊢
    split at h
    · cases h
    · exact place h
  | make what target | drop name | change name c | derive name d target => exact place h
  | _ => cases h

theorem scope_of_mover (hmover : c.mover = some name) : c.scope a = a.scopeOf name := by
  cases c with
  | change other change =>
    cases hmover
    rfl
  | exchange first other x =>
    have hreceiver : x.receiver first other = some name := hmover
    rw [scope, hreceiver]
  | _ => cases hmover

theorem handed_of_mover (hmover : c.mover = some name) (k : Nat) : c.handed k a = 0 := by
  cases c with
  | poolTakeBack pool name => cases hmover
  | _ => rfl

theorem mirrors_adjusted (ha : a.Valid) (hc : c.Fits) (h : c.Resizes a name m m') : ∃ replaced,
    (c.run a).events.filter (Event.reads "buffer capacity adjusted") =
      [.capacityAdjusted m.handle.capacity m'.handle.capacity m.handle.maxCapacity
        (a.isShared name m.group) replaced] ∧
    (replaced = true ↔ ((c.run a).state.storageAt m.group).map Storage.capacity ≠
      (a.storageAt m.group).map Storage.capacity) ∧
    ∀ k, a.poolOf m.group = some k → ((c.run a).state.poolAt k).ledger.reclaimedLeases =
      Word.countOn (a.poolAt k).ledger.reclaimedLeases (if replaced then 1 else 0) := by
  obtain ⟨e, p, replaced, d, hs, hshows, hafter, hd⟩ := adjusted_of_resizes ha hc h
  obtain ⟨pool, hgroup⟩ := hshows.group
  have hmover := mover_of_resizes ha h
  refine ⟨replaced, ?_, ?_, fun k hk => ?_⟩
  · rw [Event.reads_adjusted, hafter]
    exact hd.told
  · rw [storageAt_of_some hgroup, storageAt_of_some hs.estate]
    exact hd.swapped
  · rw [(run_recorded ha hc).reclaimed, handed_of_mover hmover, scope_of_mover hmover,
      scopeOf_of_seat hs, hd.closed, Nat.add_zero]
    rw [poolOf, hs.estate] at hk
    cases hk
    rw [share_self]

theorem run_mirrors (ha : a.Valid) (ht : a.Tidy) (hc : c.Fits) : c.Mirrors a where
  adjusted_iff := by
    rw [Event.reads_adjusted]
    constructor
    · rintro ⟨e, he, hadjusts⟩
      refine resizes_of_adjusts ha hc fun hnone => ?_
      exact List.filter_eq_nil_iff.1 hnone e he hadjusts
    · rintro ⟨name, m, m', h⟩
      obtain ⟨e, p, replaced, d, -, -, -, hd⟩ := adjusted_of_resizes ha hc h
      have hmem : _ ∈ (c.run a).events.filter Event.adjusts := hd.told ▸ List.mem_singleton_self _
      exact ⟨_, (List.mem_filter.1 hmem).1, (List.mem_filter.1 hmem).2⟩
  adjusted _ _ _ h := mirrors_adjusted ha hc h
  deallocated_iff := by
    rw [Event.reads_deallocated]
    exact deallocated_iff ha hc
  abandoned_iff := by
    rw [Event.reads_abandoned]
    exact abandoned_iff ha ht hc
  underflow_iff := by
    constructor
    · rintro ⟨e, he, hreads⟩
      obtain ⟨count, decrement, rfl⟩ := Event.reads_underflow_iff.1 hreads
      obtain ⟨name, n, hrelease, hresult⟩ := (underflow_iff ha hc count decrement).1 he
      exact ⟨name, n, count, decrement, hrelease, hresult⟩
    · rintro ⟨name, n, count, decrement, hrelease, hresult⟩
      have he := (underflow_iff ha hc count decrement).2 ⟨name, n, hrelease, hresult⟩
      exact ⟨_, he, Event.reads_underflow_iff.2 ⟨count, decrement, rfl⟩⟩
  placed _ h := ⟨held_of_scope h, pool_of_scope h⟩
  closing := (run_recorded ha hc).closing
  parking := (run_recorded ha hc).parking
  reusing := (run_recorded ha hc).reusing
  catalogued e _ := e.mem_catalogue_iff

end Mirrors

end Command

namespace Arena

variable {a : Arena} {c : Command} {cs : List Command}

def deallocations (sys : System) (g : Nat) (cs : List Command) : Nat :=
  tally (Command.told "reference count reached zero, storage deallocated" Scope.group g)
    { system := sys } cs

def abandonments (sys : System) (g : Nat) (cs : List Command) : Nat :=
  tally (Command.told "last handle dropped, storage returned without explicit release" Scope.group g)
    { system := sys } cs

/-- How many storages the events of a step, or the step itself by hand, say to have come back to the
pool `k`. -/
def returned (k : Nat) (a : Arena) (c : Command) : Nat :=
  Command.told "reference count reached zero, storage deallocated" Scope.pool k a c +
    Command.told "last handle dropped, storage returned without explicit release" Scope.pool k a c +
    Command.swaps k a c + Command.handed k a c

/-- What the events of a run and of the next step say is how things are: of each group, whether it has
come to its end, and in which of two ways; of each pool, what it has taken back, counted in a word, and
what is parked. -/
structure Mirrored (sys : System) (cs : List Command) : Prop where
  step : ∀ c : Command, c.Fits → c.Mirrors (after { system := sys } cs)
  deallocated : ∀ g,
    deallocations sys g cs = if (after { system := sys } cs).references g = 0 then 1 else 0
  abandoned : ∀ g, abandonments sys g cs = if (after { system := sys } cs).Forlorn g then 1 else 0
  never_both : ∀ g, deallocations sys g cs + abandonments sys g cs ≤ 1
  ended : ∀ g < (after { system := sys } cs).groups.length,
    (after { system := sys } cs).isHeld g = false →
      deallocations sys g cs + abandonments sys g cs = 1
  reclaimed : ∀ k, ((after { system := sys } cs).poolAt k).ledger.reclaimedLeases =
    tally (returned k) { system := sys } cs % (Word.largest + 1)
  slots : ∀ k, ((after { system := sys } cs).poolAt k).usedSlots +
      tally (fun a c => Command.told "reusing pooled storage" Scope.lender k a c +
        Command.shrunk k a c) { system := sys } cs =
    tally (Command.told "storage returned to free list" Scope.pool k) { system := sys } cs

section Steps

theorem spent_step (ha : a.Valid) (hc : c.Fits) (g : Nat) : (c.run a).state.spent g + 0 =
    a.spent g + Command.told "reference count reached zero, storage deallocated" Scope.group g a c := by
  rw [Nat.add_zero, Command.told, Event.reads_deallocated]
  exact (Command.run_recorded ha hc).spent g

theorem forsaken_step (ha : a.Valid) (hc : c.Fits) (g : Nat) : (c.run a).state.forsaken g + 0 =
    a.forsaken g +
      Command.told "last handle dropped, storage returned without explicit release" Scope.group g a c := by
  rw [Nat.add_zero, Command.told, Event.reads_abandoned]
  exact (Command.run_recorded ha hc).forsaken g

theorem reclaimed_told_step (ha : a.Valid) (hc : c.Fits) (k : Nat) :
    ((c.run a).state.poolAt k).ledger.reclaimedLeases =
      Word.countOn (a.poolAt k).ledger.reclaimedLeases (returned k a c) := by
  rw [returned, Command.told, Command.told, Command.swaps, Event.reads_deallocated,
    Event.reads_abandoned, ← share_add, ← share_add, ← Event.countP_closes]
  exact (Command.run_recorded ha hc).reclaimed k

theorem slots_step (ha : a.Valid) (hc : c.Fits) (k : Nat) : ((c.run a).state.poolAt k).usedSlots +
      (Command.told "reusing pooled storage" Scope.lender k a c + Command.shrunk k a c) =
    (a.poolAt k).usedSlots + Command.told "storage returned to free list" Scope.pool k a c := by
  rw [Command.told, Command.told, Event.reads_reused, Event.reads_parked]
  exact (Command.run_recorded ha hc).slots k

end Steps

section Runs

variable {sys : System}

theorem deallocated_run (hcs : ∀ c ∈ cs, c.Fits) (g : Nat) :
    deallocations sys g cs = if (after { system := sys } cs).references g = 0 then 1 else 0 := by
  have htotal := tally_balance (P := fun a => a.spent g) (f := fun _ _ => 0)
    (fun a c ha _ hc => spent_step ha hc g) hcs (valid_empty sys) (tidy_empty sys)
  rw [tally_zero, Nat.add_zero, spent_eq] at htotal
  exact (htotal.trans (Nat.zero_add _)).symm

theorem abandoned_run (hcs : ∀ c ∈ cs, c.Fits) (g : Nat) :
    abandonments sys g cs = if (after { system := sys } cs).Forlorn g then 1 else 0 := by
  have hreached : (after { system := sys } cs).Reachable := ⟨sys, cs, hcs, rfl⟩
  have htotal := tally_balance (P := fun a => a.forsaken g) (f := fun _ _ => 0)
    (fun a c ha _ hc => forsaken_step ha hc g) hcs (valid_empty sys) (tidy_empty sys)
  rw [tally_zero, Nat.add_zero, forsaken_eq hreached.valid hreached.tidy] at htotal
  exact (htotal.trans (Nat.zero_add _)).symm

theorem reclaimed_run (hcs : ∀ c ∈ cs, c.Fits) (k : Nat) :
    ((after { system := sys } cs).poolAt k).ledger.reclaimedLeases =
      tally (returned k) { system := sys } cs % (Word.largest + 1) := by
  rw [← Word.countOn_zero]
  exact countOn_tally (P := fun a => (a.poolAt k).ledger.reclaimedLeases)
    (fun a c ha _ hc => reclaimed_told_step ha hc k) hcs (valid_empty sys) (tidy_empty sys)

theorem slots_run (hcs : ∀ c ∈ cs, c.Fits) (k : Nat) :
    ((after { system := sys } cs).poolAt k).usedSlots +
        tally (fun a c => Command.told "reusing pooled storage" Scope.lender k a c +
          Command.shrunk k a c) { system := sys } cs =
      tally (Command.told "storage returned to free list" Scope.pool k) { system := sys } cs := by
  have htotal := tally_balance (P := fun a => (a.poolAt k).usedSlots)
    (fun a c ha _ hc => slots_step ha hc k) hcs (valid_empty sys) (tidy_empty sys)
  exact htotal.trans (Nat.zero_add _)

/-- The event log mirrors the state, over every run and in the step after it. -/
theorem events_mirror_state (sys : System) (hcs : ∀ c ∈ cs, c.Fits) : Mirrored sys cs := by
  have hreached : (after { system := sys } cs).Reachable := ⟨sys, cs, hcs, rfl⟩
  have hsum (g : Nat) : deallocations sys g cs + abandonments sys g cs =
      (if (after { system := sys } cs).references g = 0 then 1 else 0) +
        if (after { system := sys } cs).Forlorn g then 1 else 0 := by
    rw [deallocated_run hcs, abandoned_run hcs]
  refine ⟨fun c hc => Command.run_mirrors hreached.valid hreached.tidy hc, deallocated_run hcs,
    abandoned_run hcs, fun g => ?_, fun g hg hfree => ?_, reclaimed_run hcs, slots_run hcs⟩
  · rw [hsum]
    by_cases hzero : (after { system := sys } cs).references g = 0
    · exact Nat.le_of_eq (by rw [if_pos hzero, if_neg fun h => h.2.2 hzero])
    · rw [if_neg hzero]
      split <;> omega
  · rw [hsum]
    by_cases hzero : (after { system := sys } cs).references g = 0
    · rw [if_pos hzero, if_neg fun h => h.2.2 hzero]
    · rw [if_neg hzero, if_pos ⟨hg, hfree, hzero⟩]

end Runs

/-- Two buffers of a slab pool, of which one grows; the one is released, the other one goes without,
and a third gets what has been parked. -/
def recycling : List Command :=
  [.poolNew (some 4) "slab", .allocatorOnPool "slab" [] "allocator",
    .make (.request "allocator" (.bounded 4 16)) "first",
    .make (.request "allocator" (.bounded 8 16)) "second",
    .change "first" (.changeCapacity 16), .change "first" (.release 1), .drop "second",
    .make (.request "allocator" (.bounded 8 16)) "third"]

theorem events_mirror_state_recycling :
    (∀ c ∈ recycling, c.Fits) ∧ Mirrored {} recycling ∧ deallocations {} 0 recycling = 1 ∧
      abandonments {} 1 recycling = 1 ∧ ((after {} recycling).poolAt 0).ledger.reclaimedLeases = 3 ∧
      ((after {} recycling).poolAt 0).usedSlots = 2 :=
  ⟨by decide, events_mirror_state {} (show ∀ c ∈ recycling, c.Fits by decide), by decide, by decide,
    by decide, by decide⟩

end Arena

end SharedBuffer
