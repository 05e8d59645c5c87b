import SharedBuffer.Proofs.Refusal

/-!
Read-only handles. Whatever is made from one is read-only, too, and stays so; what would write through
it or resize it fails before it has done anything. Main statement: such calls can be put anywhere into
a run and make no difference to the rest of it.
-/

namespace SharedBuffer

open Table (find?)

namespace Exchange

open Arena (Seat)
open SharedBuffer.Action (Rejects)

variable {a : Arena} {name other : String} {x : Exchange} {f : Failure}

theorem rejects_other (h : a.buffer other = .error f) : (x.run name other).Rejects a f :=
  (Action.rejects_ask h).bind _

theorem rejects_same (hx : x.compares = false) : ∃ f, (x.run name name).Rejects a f := by
  cases hb : a.buffer name with
  | error f => exact ⟨f, rejects_other hb⟩
  | ok b =>
    refine ⟨.unknownName name, .after (Action.ask_of_ok hb) (.after (Action.ask_of_ok hb) ?_)⟩
    rw [hx, if_pos ⟨rfl, rfl⟩]
    rfl

theorem rejects_first (h : a.buffer name = .error f) : ∃ f, (x.run name other).Rejects a f := by
  cases ho : a.buffer other with
  | error g => exact ⟨g, rejects_other ho⟩
  | ok o => exact ⟨f, .after (Action.ask_of_ok ho) ((Action.rejects_ask h).bind _)⟩

end Exchange

namespace Command

open Arena

def alters (name : String) : Command → Bool
  | .change user c => user == name && c.alters
  | .exchange user other x => user == name && x.alters || other == name && x.mirrored.alters
  | _ => false

def answered (h : Handle) : Command → Bool
  | .change _ c => c.answered h
  | _ => false

variable {a : Arena} {name : String} {m : Member} {c : Command}

theorem immutable_of_readOnly {b : Buffer} (h : b.handle.readOnly = true) :
    ∃ f, b.checkMutable = .error f := by
  cases hmut : b.checkMutable with
  | error f => exact ⟨f, rfl⟩
  | ok u =>
    have hopen := ((b.checkMutable_eq_ok_iff).1 hmut).2
    rw [h] at hopen
    cases hopen

theorem exchange_of_readOnly (ha : a.Valid) (hm : find? name a.buffers = some m)
    (hreadOnly : m.handle.readOnly = true) {user other : String} {x : Exchange}
    (hx : (Command.exchange user other x).alters name = true) :
    ∃ f, (x.run user other).Rejects a f := by
  obtain ⟨e, p, hs⟩ := ha.seat hm
  obtain ⟨f, hf⟩ := immutable_of_readOnly (b := a.bufferOf name m e p) hreadOnly
  simp only [alters, Bool.or_eq_true, Bool.and_eq_true, beq_iff_eq] at hx
  by_cases hsame : user = other
  · rw [hsame]
    refine Exchange.rejects_same ?_
    cases x with
    | equals => simp [Exchange.alters, Exchange.mirrored] at hx
    | compare => simp [Exchange.alters, Exchange.mirrored] at hx
    | _ => rfl
  rcases hx with ⟨rfl, hx⟩ | ⟨rfl, hx⟩
  · cases ho : a.buffer other with
    | error g => exact ⟨g, Exchange.rejects_other ho⟩
    | ok o =>
      obtain ⟨mo, eo, po, hso, rfl⟩ := seat_of_buffer ha ho
      exact ⟨_, Exchange.run_of_immutable hs hso (absurd · hsame) hf hx⟩
  · cases ho : a.buffer user with
    | error g => exact Exchange.rejects_first ho
    | ok o =>
      obtain ⟨mo, eo, po, hso, rfl⟩ := seat_of_buffer ha ho
      exact ⟨_, Exchange.mirrored_run_of_immutable hs hso (absurd · hsame) hf hx⟩

theorem run_of_readOnly (ha : a.Valid) (hm : find? name a.buffers = some m)
    (hreadOnly : m.handle.readOnly = true) (hc : c.alters name = true) :
    ∃ r, c.run a = ⟨r, a, []⟩ ∧ (c.answered m.handle = false → ∃ f, r = .error f) := by
  cases c with
  | change user c =>
    simp only [alters, Bool.and_eq_true, beq_iff_eq] at hc
    obtain ⟨rfl, hc⟩ := hc
    obtain ⟨e, p, hs⟩ := ha.seat hm
    obtain ⟨f, hf⟩ := immutable_of_readOnly (b := a.bufferOf user m e p) hreadOnly
    cases hidle : c.idle m.handle with
    | true =>
      obtain ⟨r, hr, hrefused⟩ := Change.run_of_idle (b := a.bufferOf user m e p) hidle
      have hrun := onBuffer_of_seat hs c.run
      rw [hr, settle_self hs] at hrun
      exact ⟨r, hrun, hrefused⟩
    | false =>
      obtain ⟨g, hg, -⟩ := Change.run_of_immutable hf hc hidle
      exact ⟨_, rejects_onBuffer hs hg, fun _ => ⟨g, rfl⟩⟩
  | exchange user other x =>
    obtain ⟨f, hf⟩ := exchange_of_readOnly ha hm hreadOnly hc
    exact ⟨_, hf, fun _ => ⟨f, rfl⟩⟩
  | _ => cases hc

theorem stays (ha : a.Valid) (hc : c.Fits) (hm : find? name a.buffers = some m)
    (h : name ∉ c.seats ∨ ∃ f, (c.run a).result = .error f) :
    ∃ m', find? name (c.run a).state.buffers = some m' ∧ m.Persists m' := by
  rcases h with hseat | ⟨f, hf⟩
  · obtain ⟨x, hdoes, hseats⟩ := ha.step hc
    obtain ⟨ended, -, -, hcourse⟩ := hdoes.course
    exact hcourse.stays ha hm fun hname => hseat (hseats hname)
  · obtain ⟨used, written, hdoes⟩ := ((Command.run_meets ha hc).of_error hf).does
    obtain ⟨ended, -, -, hcourse⟩ := hdoes.course
    exact hcourse.stays ha hm List.not_mem_nil

end Command

namespace Arena

/-- The handle of a name was made as a read-only view, or from such a handle as a further handle on the
same bytes, at some point of the run that has led here, and has kept its name since. -/
inductive Sealed : Arena → String → Prop
  | view {a : Arena} {name target : String} {v : Answer} (reachable : a.Reachable)
      (made : ((Command.derive name .readOnlyView target).run a).result = .ok v) :
      Sealed ((Command.derive name .readOnlyView target).run a).state target
  | derived {a : Arena} {name target : String} {d : Derivation} {v : Answer} (source : Sealed a name)
      (shares : d.copies = false)
      (made : ((Command.derive name d target).run a).result = .ok v) :
      Sealed ((Command.derive name d target).run a).state target
  | kept {a : Arena} {name : String} {c : Command} (before : Sealed a name) (fits : c.Fits)
      (named : name ∉ c.seats ∨ ∃ f, (c.run a).result = .error f) : Sealed (c.run a).state name

variable {a : Arena} {name : String}

theorem Sealed.readOnly (h : Sealed a name) :
    a.Reachable ∧ ∃ m, find? name a.buffers = some m ∧ m.handle.readOnly = true := by
  induction h with
  | view reachable made =>
    obtain ⟨-, m, k, -, hk, -, hsealed⟩ :=
      (Command.derive_meets reachable.valid .readOnlyView _).of_ok made
    exact ⟨reachable.run trivial, k, hk, hsealed rfl (.inr rfl)⟩
  | derived source shares made ih =>
    obtain ⟨reachable, m, hm, hreadOnly⟩ := ih
    obtain ⟨-, m', k, hm', hk, -, hsealed⟩ := (Command.derive_meets reachable.valid _ _).of_ok made
    rw [hm] at hm'
    cases hm'
    exact ⟨reachable.run trivial, k, hk, hsealed shares (.inl hreadOnly)⟩
  | kept before fits named ih =>
    obtain ⟨reachable, m, hm, hreadOnly⟩ := ih
    obtain ⟨m', hm', hpersists⟩ := Command.stays reachable.valid fits hm named
    exact ⟨reachable.run fits, m', hm', hpersists.readOnly.trans hreadOnly⟩

structure Step where
  command : Command
  extra : Bool

/-- All that is extra would write through a read-only handle or resize it. -/
def Interposed : Arena → List Step → Prop
  | _, [] => True
  | a, s :: steps =>
    (s.extra = true → ∃ name, Sealed a name ∧ s.command.alters name = true) ∧
      Interposed (s.command.run a).state steps

def plain (steps : List Step) : List Command := (steps.filter fun s => !s.extra).map Step.command

def plainReplies (a : Arena) : List Step → List (Except Failure Answer × List Event)
  | [] => []
  | ⟨c, extra⟩ :: steps =>
    if extra then plainReplies (c.run a).state steps
    else ((c.run a).result, (c.run a).events) :: plainReplies (c.run a).state steps

theorem Interposed.same {steps : List Step} (h : Interposed a steps) :
    after a (steps.map Step.command) = after a (plain steps) ∧
      plainReplies a steps = replies a (plain steps) := by
  induction steps generalizing a with
  | nil => exact ⟨rfl, rfl⟩
  | cons s steps ih =>
    obtain ⟨c, extra⟩ := s
    obtain ⟨hextra, hrest⟩ := h
    cases extra with
    | true =>
      obtain ⟨name, hsealed, halters⟩ := hextra rfl
      obtain ⟨reachable, m, hm, hreadOnly⟩ := hsealed.readOnly
      obtain ⟨r, hr, -⟩ := Command.run_of_readOnly reachable.valid hm hreadOnly halters
      have hstate : (c.run a).state = a := by rw [hr]
      have hsame := ih hrest
      simp only [hstate] at hsame
      simp only [List.map_cons, after, List.foldl_cons, plainReplies, if_true, hstate]
      exact hsame
    | false =>
      obtain ⟨hstate, hreplies⟩ := ih hrest
      exact ⟨hstate, congrArg (List.cons _) hreplies⟩

/-- A read-only view and all that is derived from it are read-only as long as they have their names.
Nothing that is written to them or resizes them does anything to the arena or reports an event, and
unless it is a stream write with nothing to transfer it fails. So a run with such calls in between
leaves the same arena as the run without them, and gives the same answers and events otherwise. -/
theorem Sealed.alters_nothing (h : Sealed a name) :
    (∃ m, find? name a.buffers = some m ∧ m.handle.readOnly = true ∧
      ∀ c : Command, c.alters name = true →
        ∃ r, c.run a = ⟨r, a, []⟩ ∧ (c.answered m.handle = false → ∃ f, r = .error f)) ∧
    ∀ (start : Arena) (steps : List Step), Interposed start steps →
      after start (steps.map Step.command) = after start (plain steps) ∧
        plainReplies start steps = replies start (plain steps) := by
  obtain ⟨reachable, m, hm, hreadOnly⟩ := h.readOnly
  refine ⟨⟨m, hm, hreadOnly, fun c hc => ?_⟩, fun start steps hsteps => hsteps.same⟩
  exact Command.run_of_readOnly reachable.valid hm hreadOnly hc

def owned : Arena :=
  after {} [.make (.allocate 4 16) "root", .change "root" (.append [1, 2, 3])]

def lent : Arena :=
  after owned [.derive "root" .readOnlyView "view", .derive "view" (.slice (.within 1 2)) "part",
    .derive "part" .whole "all"]

theorem sealed_lent : Sealed lent "all" := by
  have hview : Sealed (after owned [.derive "root" .readOnlyView "view"]) "view" :=
    .view ⟨_, _, by decide, rfl⟩ rfl
  have hpart : Sealed (after owned [.derive "root" .readOnlyView "view",
      .derive "view" (.slice (.within 1 2)) "part"]) "part" := hview.derived rfl rfl
  exact hpart.derived rfl rfl

/-- Attempts on the bytes, on the capacity and by way of another buffer, around a write by the owner. -/
def attempts : List Step :=
  [⟨.change "all" (.setBytes 0 [9]), true⟩, ⟨.change "root" (.append [4]), false⟩,
    ⟨.change "all" (.changeCapacity 16), true⟩, ⟨.exchange "root" "all" (.readInto 2), true⟩,
    ⟨.ask "root" .content, false⟩]

theorem interposed_attempts : Interposed lent attempts := by
  have hfirst : Sealed (after lent [.change "all" (.setBytes 0 [9])]) "all" :=
    sealed_lent.kept trivial (.inl (by decide))
  have hsecond : Sealed (after lent [.change "all" (.setBytes 0 [9]), .change "root" (.append [4])]) "all" :=
    hfirst.kept trivial (.inl (by decide))
  have hthird : Sealed (after lent [.change "all" (.setBytes 0 [9]), .change "root" (.append [4]),
      .change "all" (.changeCapacity 16)]) "all" := hsecond.kept trivial (.inl (by decide))
  exact ⟨fun _ => ⟨_, sealed_lent, rfl⟩, nofun, fun _ => ⟨_, hsecond, rfl⟩, fun _ => ⟨_, hthird, rfl⟩,
    nofun, trivial⟩

theorem alters_nothing_lent :
    Sealed lent "all" ∧ Interposed lent attempts ∧
      (∃ f, (Command.change "all" (.setBytes 0 [9])).run lent = ⟨.error f, lent, []⟩) ∧
      after lent (attempts.map Step.command) = after lent (plain attempts) ∧
      plainReplies lent attempts = replies lent (plain attempts) := by
  obtain ⟨⟨m, hm, -, hnothing⟩, hruns⟩ := sealed_lent.alters_nothing
  have hwrite := hnothing (.change "all" (.setBytes 0 [9])) rfl
  obtain ⟨r, hr, hrefused⟩ := hwrite
  obtain ⟨f, rfl⟩ := hrefused rfl
  exact ⟨sealed_lent, interposed_attempts, ⟨f, hr⟩, hruns lent attempts interposed_attempts⟩

end Arena

end SharedBuffer
