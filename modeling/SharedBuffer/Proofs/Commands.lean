import SharedBuffer.Proofs.Exchange

/-!
What each command amounts to, and that every reachable arena is valid. Main statement: a command
that succeeds comes to its account, and one that fails leaves the arena as it was, apart from the
notes of failed acquisitions and from what a broken stream has transferred.
-/

namespace SharedBuffer

namespace Config

variable {c c' : Config} {key : String} {value : Setting}

theorem maxCapacity_set? (h : c.set? key value = some c') (hc : c.maxCapacity ≤ Word.largest) :
    c'.maxCapacity ≤ Word.largest := by
  simp only [set?] at h
  split at h
  · obtain ⟨k, -, rfl⟩ := Option.map_eq_some_iff.1 h
    exact hc
  · obtain ⟨p, -, rfl⟩ := Option.map_eq_some_iff.1 h
    exact hc
  · obtain ⟨n, -, rfl⟩ := Option.map_eq_some_iff.1 h
    exact hc
  · obtain ⟨n, hn, rfl⟩ := Option.map_eq_some_iff.1 h
    simp only [Setting.size?] at hn
    split at hn
    · split at hn
      · next hle =>
        cases hn
        change Int.toNat _ ≤ _
        omega
      · simp at hn
    · simp at hn
  · obtain ⟨b, -, rfl⟩ := Option.map_eq_some_iff.1 h
    exact hc
  · cases h
    exact hc

theorem maxCapacity_setAll? {settings : List (String × Setting)} (h : c.setAll? settings = some c')
    (hc : c.maxCapacity ≤ Word.largest) : c'.maxCapacity ≤ Word.largest := by
  induction settings generalizing c with
  | nil =>
    cases h
    exact hc
  | cons entry rest ih =>
    obtain ⟨d, hd, hrest⟩ := Option.bind_eq_some_iff.1 h
    exact ih hrest (maxCapacity_set? hd hc)

theorem sound_validate (c : Config) : Sound c.validate := by
  simp only [validate]
  refine .ite (fun _ => sound_error trivial) fun _ => ?_
  exact .ite (fun _ => sound_error trivial) fun _ => sound_ok _

end Config

namespace Storage

variable {s : Storage} {i n : Nat} {data : Bytes}

theorem sound_adopt (data : Bytes) (m : Nat) : Sound (adopt data m) := by
  simp only [adopt]
  exact .ite (fun _ => sound_error trivial) fun _ => sound_ok _

theorem sound_readRange (s : Storage) (i n : Nat) : Sound (s.readRange i n) := by
  simp only [readRange]
  split
  · next f hf => exact sound_error (sound_checkBounds _ _ _ f hf)
  · exact sound_ok _

theorem sound_writeRange (s : Storage) (i : Nat) (data : Bytes) : Sound (s.writeRange i data) := by
  simp only [writeRange]
  split
  · next f hf => exact sound_error (sound_checkBounds _ _ _ f hf)
  · exact sound_ok _

theorem sound_fill (s : Storage) (i n : Nat) (value : UInt8) : Sound (s.fill i n value) := by
  simp only [fill]
  split
  · next f hf => exact sound_error (sound_checkBounds _ _ _ f hf)
  · exact sound_ok _

theorem sound_moveRange (s : Storage) (i n j : Nat) : Sound (s.moveRange i n j) := by
  simp only [moveRange]
  split
  · next f hf => exact sound_error (sound_checkBounds _ _ _ f hf)
  · next f _ hf => exact sound_error (sound_checkBounds _ _ _ f hf)
  · exact sound_ok _

end Storage

namespace StoreRequest

open SharedBuffer.Action (meets_ask_bind meets_ask meets_map meets_update meets_then_pure)

theorem update_meets {f : Storage → Except Fault Storage} {s : Storage} (hf : Sound (f s)) :
    (update f s).Meets (fun _ _ _ => True) fun f t _ => f.Foreseen ∧ t = s :=
  meets_then_pure (meets_update (fun _ _ => trivial) fun e he => ⟨hf e he, rfl⟩)

theorem run_meets (s : Storage) (x : StoreRequest) :
    (x.run s).Meets (fun _ _ _ => True) fun f t _ => f.Foreseen ∧ t = s := by
  cases x with
  | get i => exact meets_ask_bind (fun _ _ => trivial) fun f hf => ⟨s.sound_readRange i 1 f hf, rfl⟩
  | set i value => exact update_meets (s.sound_writeRange i [value])
  | readRange i n =>
    exact meets_map (meets_ask (fun _ _ => trivial) fun f hf => ⟨s.sound_readRange i n f hf, rfl⟩)
  | writeRange i data => exact update_meets (s.sound_writeRange i data)
  | fill i n value => exact update_meets (s.sound_fill i n value)
  | moveRange i n j => exact update_meets (s.sound_moveRange i n j)
  | inspect => exact trivial

end StoreRequest

namespace Arena

open Table (find? put erase)
open SharedBuffer.Action (meets_bind meets_ask_bind meets_ask meets_mapError)

variable {a c c' : Arena} {name target : String} {i : Nat} {f : Failure}

structure Quiet (a c : Arena) : Prop where
  course : Course {} a c
  tidy : a.Tidy → c.Tidy

theorem quiet_refl (a : Arena) : a.Quiet a := ⟨.refl a, fun ht => ht⟩

theorem Quiet.trans (h : a.Quiet c) (h' : c.Quiet c') : a.Quiet c' :=
  ⟨h.course.trans h'.course, fun ht => h'.tidy (h.tidy ht)⟩

theorem Quiet.does (h : a.Quiet c) : a.Does {} c := .of_course h.course (Nat.zero_le 1) h.tidy

theorem Quiet.valid (h : a.Quiet c) (ha : a.Valid) : c.Valid := h.course.valid ha

theorem quiet_serve (hi : i < a.pools.length) {q : Pool} (h : Pool.Serves [] (a.poolAt i) q) :
    a.Quiet (a.setPool i q) := ⟨course_serve hi h, fun ht => ht⟩

theorem quiet_addPool (a : Arena) (slots : Option Nat) :
    a.Quiet { a with pools := a.pools ++ [.withSlots slots a.system] } :=
  ⟨course_addPool a slots, fun ht => ht⟩

theorem lt_addPool (a : Arena) (p : Pool) : a.pools.length < (a.pools ++ [p]).length := by
  rw [List.length_append]
  exact Nat.lt_succ_self _

theorem quiet_stores (ha : a.Valid) (stores : Table Storage) : a.Quiet { a with stores := stores } :=
  ⟨(Deed.tabulate stores ha.poolNames ha.allocators).course, fun ht => ht⟩

theorem quiet_poolNames (ha : a.Valid) (hi : i < a.pools.length) (target : String) :
    a.Quiet { a with poolNames := a.poolNames.put target i } := by
  refine ⟨(Deed.tabulate a.stores (fun entry hentry => ?_) ha.allocators).course, fun ht => ht⟩
  rcases Table.mem_put hentry with rfl | hold
  · exact hi
  · exact ha.poolNames entry hold

theorem quiet_allocators (ha : a.Valid) {al : Allocator} (hpool : al.pool < a.pools.length)
    (hmax : al.config.maxCapacity ≤ Word.largest) (target : String) :
    a.Quiet { a with allocators := a.allocators.put target al } := by
  refine ⟨(Deed.tabulate a.stores ha.poolNames fun entry hentry => ?_).course, fun ht => ht⟩
  rcases Table.mem_put hentry with rfl | hold
  · exact ⟨hpool, hmax⟩
  · exact ha.allocators entry hold

theorem require_of_some {α : Type} {t : Arena → Table α} {v : α} (h : find? name (t a) = some v) :
    require t name a = ⟨.ok v, a, []⟩ := Action.ask_of_ok (by rw [h])

theorem require_of_none {α : Type} {t : Arena → Table α} (h : find? name (t a) = none) :
    require t name a = ⟨.error (.unknownName name), a, []⟩ := Action.ask_of_error (by rw [h])

theorem find?_of_require {α : Type} {t : Arena → Table α} {v : α}
    (h : (require t name a).result = .ok v) : find? name (t a) = some v := by
  cases hfind : find? name (t a) with
  | none =>
    rw [require_of_none hfind] at h
    cases h
  | some w =>
    rw [require_of_some hfind] at h
    cases h
    rfl

theorem meets_require {α β : Type} {t : Arena → Table α} {x : α → Action Failure Arena β}
    {Q : β → Arena → List Event → Prop}
    (h : ∀ v, find? name (t a) = some v → (x v a).Meets Q fun f c _ => a.Fails f c) :
    ((require t name >>= x) a).Meets Q fun f c _ => a.Fails f c := by
  cases hfind : find? name (t a) with
  | none =>
    rw [Action.bind_of_error (require_of_none hfind)]
    exact fails_self (foreseen_of_none rfl)
  | some v =>
    rw [Action.bind_of_ok (require_of_some hfind)]
    exact h v hfind

theorem meets_lift_ask {α β : Type} {r : Arena → Except Fault α} {x : α → Action Failure Arena β}
    {Q : β → Arena → List Event → Prop} (hr : Sound (r a))
    (h : ∀ v, r a = .ok v → (x v a).Meets Q fun f c _ => a.Fails f c) :
    ((lift (Action.ask r) >>= x) a).Meets Q fun f c _ => a.Fails f c := by
  refine meets_bind (meets_mapError (meets_ask (fun v hv => h v hv) fun f hf => ?_))
  exact fails_self (foreseen_fault (hr f hf))

theorem allocatorOf_eq_ok {settings : List (String × Setting)} {config : Config}
    (h : allocatorOf settings = .ok config) : config.maxCapacity ≤ Word.largest := by
  simp only [allocatorOf] at h
  split at h
  · simp at h
  · next hset =>
    split at h
    · simp at h
    · cases h
      exact Config.maxCapacity_setAll? hset (show defaultMaxCapacity ≤ Word.largest by decide)

theorem foreseen_allocatorOf {settings : List (String × Setting)}
    (h : allocatorOf settings = .error f) : f.Foreseen := by
  simp only [allocatorOf] at h
  split at h
  · cases h
    exact foreseen_of_none rfl
  · split at h
    · next hf =>
      cases h
      exact foreseen_fault (Config.sound_validate _ _ hf)
    · simp at h

end Arena

namespace Making

open Arena (Founds Fails allocate_meets allocateCopy_meets allocateAlone_meets adopt_meets meets_require)

variable {a : Arena}

theorem fill_meets (ha : a.Valid) {al : Allocator} (hpool : al.pool < a.pools.length)
    (hmax : al.config.maxCapacity ≤ Word.largest) {what : AllocatorRequest} (hfits : what.Fits) :
    (fill al what a).Meets (fun m c _ => a.Founds m c) fun f c _ => a.Fails f c := by
  cases what with
  | usual => exact allocate_meets ha hpool hmax _ _
  | sized n => exact allocate_meets ha hpool hmax _ _
  | bounded n k => exact allocate_meets ha hpool hfits _ _
  | ofKind kind n => exact allocate_meets ha hpool hmax _ _
  | exact kind n k => exact allocate_meets ha hpool hfits _ _
  | copied data =>
    have hdata : data.length ≤ Word.largest := Nat.le_trans hfits (by decide)
    exact allocateCopy_meets ha hpool (Nat.max_le.2 ⟨hmax, hdata⟩) (Nat.le_max_right _ _) _ _
  | adopted data => exact adopt_meets hfits _

theorem run_meets (ha : a.Valid) {what : Making} (hfits : what.Fits) :
    (what.run a).Meets (fun m c _ => a.Founds m c) fun f c _ => a.Fails f c := by
  cases what with
  | allocate n k => exact allocateAlone_meets ha hfits
  | adopt data => exact adopt_meets hfits true
  | request allocator what =>
    apply meets_require
    intro al hal
    obtain ⟨hpool, hmax⟩ := ha.allocators _ (Table.mem_of_find? hal)
    exact fill_meets ha hpool hmax hfits

end Making

namespace Command

open Arena
open Table (find? put erase)
open SharedBuffer.Action (meets_bind meets_ask_bind meets_ask meets_map meets_then_pure meets_mapError
  current_bind modify_bind)

variable {a : Arena} {c : Command} {name target : String} {i : Nat} {f : Failure}

/-- What a command amounts to when it succeeds. -/
def account (a : Arena) : Command → Account
  | .make _ target => { seated := [target] }
  | .drop name => { seated := [name] }
  | .change name c => a.entry name fun b => c.effect b
  | .derive name derivation target =>
    (a.entry name fun _ => derivation.effect).andThen { seated := [target] }
  | .exchange name other x => x.account name other a
  | .poolTakeBack pool name =>
    match find? pool a.poolNames, find? name a.stores with
    | some i, some s => { back := [⟨i, none, s⟩] }
    | _, _ => {}
  | _ => {}

def seats : Command → List String
  | .make _ target | .derive _ _ target => [target]
  | .drop name => [name]
  | _ => []

def users : Command → List String
  | .change name _ | .derive name _ _ => [name]
  | .exchange name other _ => [name, other]
  | _ => []

theorem seated_account (a : Arena) (c : Command) : (c.account a).seated = c.seats := by
  cases c with
  | change name c => exact seated_entry name _ a
  | derive name d target => rw [account, Account.andThen, seated_entry, seats, List.nil_append]
  | exchange name other x => exact x.seated_account name other a
  | poolTakeBack pool name =>
    rw [account]
    split <;> rfl
  | _ => rfl

theorem back_account (a : Arena) (c : Command) : ∀ r ∈ (c.account a).back, r.group = none := by
  intro r hr
  cases c with
  | change name c =>
    rw [account, back_entry] at hr
    simp at hr
  | derive name d target =>
    rw [account, Account.andThen, back_entry] at hr
    simp at hr
  | exchange name other x =>
    rw [account, Exchange.back_account] at hr
    simp at hr
  | poolTakeBack pool name =>
    rw [account] at hr
    split at hr
    · rw [List.mem_singleton.1 hr]
    · simp at hr
  | _ => cases hr

theorem gained_account (hretain : ∀ name n, c ≠ .change name (.retain n))
    (hderive : ∀ name d target, c = .derive name d target → d.effect.gained = 0) (a : Arena) (g : Nat) :
    (c.account a).gained g = 0 := by
  cases c with
  | change name c =>
    refine gained_entry (fun b => ?_) name a g
    rw [(c.counts_effect b).1]
    cases c with
    | retain n => exact absurd rfl (hretain name n)
    | _ => rfl
  | derive name d target => exact gained_entry (fun _ => hderive name d target rfl) name a g
  | exchange name other x => exact (x.counts_account name other a g).1
  | poolTakeBack pool name =>
    rw [account]
    split <;> rfl
  | _ => rfl

theorem lost_account (hrelease : ∀ name n, c ≠ .change name (.release n)) (a : Arena) (g : Nat) :
    (c.account a).lost g = 0 := by
  cases c with
  | change name c =>
    refine lost_entry (fun b => ?_) name a g
    rw [(c.counts_effect b).2]
    cases c with
    | release n => exact absurd rfl (hrelease name n)
    | _ => rfl
  | derive name d target => exact lost_entry (fun _ => by cases d <;> rfl) name a g
  | exchange name other x => exact (x.counts_account name other a g).2
  | poolTakeBack pool name =>
    rw [account]
    split <;> rfl
  | _ => rfl

theorem used_account (a : Arena) (c : Command) : ∀ user ∈ (c.account a).used, user ∈ c.users := by
  intro user huser
  cases c with
  | change name c => exact List.mem_singleton.2 (eq_of_used huser)
  | derive name d target =>
    rw [account, Account.andThen, List.append_nil] at huser
    exact List.mem_singleton.2 (eq_of_used huser)
  | exchange name other x => exact x.used_account name other a user huser
  | poolTakeBack pool name =>
    rw [account] at huser
    split at huser <;> cases huser
  | _ => cases huser

theorem make_meets (ha : a.Valid) {what : Making} (hfits : what.Fits) (target : String) :
    ((make what target).run a).Meets (fun _ a' _ => a.Does { seated := [target] } a')
      fun f a' _ => a.Fails f a' := by
  apply meets_bind
  apply (Making.run_meets ha hfits).imp
  intro m c log hc
  obtain ⟨a', log', henrol, hdoes, -⟩ := enrol_does target ha hc.course rfl hc.fits
    (fun old hold => lt_of_fits (ha.members _ (Table.mem_of_find? (hc.buffers ▸ hold)))) hc.tidy
  rw [Account.none_andThen] at hdoes
  apply meets_then_pure
  rw [henrol]
  exact hdoes

theorem drop_meets (ha : a.Valid) (name : String) :
    ((drop name).run a).Meets (fun _ a' _ => a.Does { seated := [name] } a')
      fun f a' _ => a.Fails f a' := by
  cases hm : find? name a.buffers with
  | none =>
    have hdrop : Arena.drop name a = ⟨.error (.unknownName name), a, []⟩ :=
      Action.bind_of_error (require_of_none hm)
    apply meets_then_pure
    rw [hdrop]
    exact fails_self (foreseen_of_none rfl)
  | some m =>
    obtain ⟨a', log, hdrop, hdoes⟩ := drop_does ha hm
    apply meets_then_pure
    rw [hdrop]
    exact hdoes

section Derive

variable {m : Member} {e : Estate} {p : Pool} {b : Buffer} {d : Derivation} {h : Handle}
  {log : List Event}

theorem derive_course (hs : a.Seat name m e p)
    (hcourse : SharedBuffer.Course d.effect (a.bufferOf name m e p) b log) :
    Arena.Course (Account.use name m.group d.effect) a (a.settle name m e.pool b) := by
  have hdeed := (Deed.use hs hcourse).course
  cases d <;> exact hdeed

theorem require_settle (pool : Nat) (b : Buffer) :
    require buffers name (a.settle name m pool b) =
      ⟨.ok ⟨m.group, b.handle⟩, a.settle name m pool b, []⟩ :=
  Action.ask_of_ok (by rw [show find? name (a.settle name m pool b).buffers = _ from
    Table.find?_put_self _ _ _])

theorem groups_settle_length (pool : Nat) (b : Buffer) :
    (a.settle name m pool b).groups.length = a.groups.length := List.length_set

theorem foundCopy_settle (hs : a.Seat name m e p) (b : Buffer) (h : Handle) (s : Storage) :
    foundCopy name h s (a.settle name m e.pool b) =
      ⟨.ok ⟨(a.settle name m e.pool b).groups.length, h⟩,
        (a.settle name m e.pool b).addGroup e.pool s, []⟩ := by
  rw [foundCopy, Action.bind_of_ok (require_settle e.pool b), current_bind, groups_settle_self hs b]
  rfl

theorem join_does (ha : a.Valid) (hs : a.Seat name m e p)
    (hcourse : SharedBuffer.Course d.effect (a.bufferOf name m e p) b log) (hview : b.View h)
    (target : String) :
    ∃ a' more, enrolDerived name target (h, none) (a.settle name m e.pool b) =
      ⟨.ok (), a', more⟩ ∧
      a.Does ((Account.use name m.group d.effect).andThen { seated := [target] }) a' ∧
      find? target a'.buffers = some ⟨m.group, h⟩ := by
  have hdeed := derive_course hs hcourse
  have hvalid := hdeed.valid ha
  have hfits : Member.Fits ⟨m.group, h⟩ (a.settle name m e.pool b) := by
    refine ⟨_, groups_settle_self hs b, hview.valid, fun live => ?_⟩
    obtain ⟨s, hstorage, -⟩ := (hcourse.valid (ha.buffer hs)).window live
    exact ⟨s, hstorage, hview.on s hstorage⟩
  have hnames : ∀ old, find? target (a.settle name m e.pool b).buffers = some old →
      old.group < a.groups.length := by
    intro old hold
    have hlt := lt_of_fits (hvalid.members _ (Table.mem_of_find? hold))
    rwa [groups_settle_length] at hlt
  obtain ⟨a', more, henrol, hdoes, hbuffers⟩ := enrol_does target ha hdeed rfl hfits hnames
    fun ht => tidyBut_of_tidy (tidy_settle ha hs b ht) _
  refine ⟨a', more, ?_, hdoes, ?_⟩
  · exact (Action.bind_of_ok (require_settle e.pool b)).trans (henrol ▸ rfl)
  · rw [hbuffers]
    exact Table.find?_put_self _ _ _

theorem part_does (ha : a.Valid) (hs : a.Seat name m e p)
    (hcourse : SharedBuffer.Course d.effect (a.bufferOf name m e p) b log) {s : Storage}
    (hh : h.Valid) (hstorage : s.Valid) (hon : h.On s) (target : String) :
    ∃ a' more, enrolDerived name target (h, some s) (a.settle name m e.pool b) =
      ⟨.ok (), a', more⟩ ∧
      a.Does ((Account.use name m.group d.effect).andThen { seated := [target] }) a' ∧
      find? target a'.buffers = some ⟨a.groups.length, h⟩ := by
  have hdeed := derive_course hs hcourse
  have hvalid := hdeed.valid ha
  have hpool : e.pool < (a.settle name m e.pool b).pools.length :=
    Nat.lt_of_lt_of_eq (lt_of_getElem? hs.pool) List.length_set.symm
  have hfounds := founds_of_course (.refl _) rfl rfl hpool hstorage hh hon
  have hboth := hdeed.trans hfounds.course
  rw [Account.andThen_none] at hboth
  have hnames : ∀ old, find? target ((a.settle name m e.pool b).addGroup e.pool s).buffers = some old →
      old.group < a.groups.length := by
    intro old hold
    have hlt := lt_of_fits (hvalid.members _ (Table.mem_of_find? hold))
    rwa [groups_settle_length] at hlt
  obtain ⟨a', more, henrol, hdoes, hbuffers⟩ := enrol_does target ha hboth rfl hfounds.fits hnames
    fun ht => hfounds.tidy (tidy_settle ha hs b ht)
  refine ⟨a', more, ?_, hdoes, ?_⟩
  · exact (Action.bind_of_ok (foundCopy_settle hs b h s)).trans (henrol ▸ rfl)
  · rw [hbuffers, Table.find?_put_self, groups_settle_length]

theorem derive_meets (ha : a.Valid) (d : Derivation) (target : String) :
    ((derive name d target).run a).Meets
      (fun _ a' _ => a.Does ((derive name d target).account a) a' ∧
        ∃ m made, find? name a.buffers = some m ∧ find? target a'.buffers = some made ∧
          made.group = (if d.copies then a.groups.length else m.group) ∧
          (d.copies = false → m.handle.readOnly = true ∨ d = .readOnlyView →
            made.handle.readOnly = true))
      fun f a' _ => a.Fails f a' := by
  refine meets_bind ((onBuffer_meets ha (Q := fun made c _ => ∃ m e p b log, a.Seat name m e p ∧
    SharedBuffer.Course d.effect (a.bufferOf name m e p) b log ∧ d.Made b made ∧
    c = a.settle name m e.pool b) ?_).imp ?_)
  · intro m e p hs
    refine meets_mapError ((Derivation.run_meets (ha.buffer hs) d).mono ?_ fun _ _ _ h => h.fails rfl)
    exact fun made b log h => ⟨m, e, p, b, log, hs, h.1, h.2, rfl⟩
  · intro made _ log hpart
    obtain ⟨h, extra⟩ := made
    obtain ⟨m, e, p, b, log', hs, hcourse, hmade, rfl⟩ := hpart
    rw [account, entry_of_seat hs]
    apply meets_then_pure
    cases extra with
    | none =>
      obtain ⟨hcopies, hview, hsealed⟩ := hmade
      obtain ⟨a', more, henrol, hdoes, hfind⟩ := join_does ha hs hcourse hview target
      have hkept := (hcourse.follows (ha.buffer hs)).readOnly
      rw [henrol]
      refine ⟨hdoes, m, _, hs.member, hfind, by rw [hcopies]; rfl, fun _ h => ?_⟩
      exact h.elim (fun hreadOnly => hview.readOnly (hkept.trans hreadOnly)) hsealed
    | some s =>
      obtain ⟨hcopies, hh, hstorage, hon⟩ := hmade
      obtain ⟨a', more, henrol, hdoes, hfind⟩ := part_does ha hs hcourse hh hstorage hon target
      rw [henrol]
      refine ⟨hdoes, m, _, hs.member, hfind, by rw [hcopies]; rfl, fun h => ?_⟩
      rw [hcopies] at h
      cases h

end Derive

section Tables

theorem putStore_meets {c : Arena} (hc : a.Quiet c) (ha : a.Valid) (target : String) (s : Storage) :
    (putStore target s c).Meets (fun _ a' _ => a.Does {} a') fun f a' _ => a.Fails f a' :=
  (hc.trans (quiet_stores (hc.valid ha) _)).does

theorem putAllocator_meets {c : Arena} (hc : a.Quiet c) (ha : a.Valid) {al : Allocator}
    (hpool : al.pool < c.pools.length) (hmax : al.config.maxCapacity ≤ Word.largest)
    (target : String) :
    (putAllocator target al c).Meets (fun _ a' _ => a.Does {} a') fun f a' _ => a.Fails f a' :=
  (hc.trans (quiet_allocators (hc.valid ha) hpool hmax target)).does

theorem foundAllocator_meets (ha : a.Valid) (config : Config) (pooling : PoolingStrategy)
    (hmax : config.maxCapacity ≤ Word.largest) (target : String) :
    ((addPool (.ofStrategy pooling) >>= fun i => putAllocator target ⟨config, i⟩) a).Meets
      (fun _ a' _ => a.Does {} a') fun f a' _ => a.Fails f a' := by
  obtain ⟨slots, hslots⟩ := Pool.ofStrategy_eq_withSlots pooling
  rw [hslots]
  exact meets_bind (putAllocator_meets (quiet_addPool a slots) ha (lt_addPool a _) hmax target)

theorem onStore_meets (ha : a.Valid) (name : String) (x : StoreRequest) :
    (onStore name x.run a).Meets (fun _ a' _ => a.Does {} a') fun f a' _ => a.Fails f a' := by
  apply meets_require
  intro s hs
  refine Action.meets_zoom (meets_mapError ((x.run_meets s).mono ?_ ?_))
  · exact fun _ t _ _ => (quiet_stores ha _).does
  · intro f t _ h
    obtain ⟨hf, rfl⟩ := h
    rw [Table.put_of_find? hs]
    exact fails_self (foreseen_fault hf)

theorem shrink_meets (hi : i < a.pools.length) :
    (onPoolAt i Pool.shrink a).Meets (fun _ a' _ => a.Does {} a') fun f a' _ => a.Fails f a' := by
  apply onPoolAt_meets hi
  obtain ⟨freed, hfreed⟩ := Pool.result_shrink (a.poolAt i)
  have hserves := (Pool.Serves.refl (a.poolAt i)).shrink
  rcases ho : Pool.shrink (a.poolAt i) with ⟨f | v, q, log⟩
  · rw [ho] at hfreed
    simp at hfreed
  · rw [ho] at hserves
    exact (quiet_serve hi hserves).does

theorem takeBack_does (ha : a.Valid) (hi : i < a.pools.length) (stores : Table Storage) (s : Storage) :
    ∃ a' log, onPoolAt i (Pool.takeBack s) { a with stores := stores } = ⟨.ok (), a', log⟩ ∧
      a.Does { back := [⟨i, none, s⟩] } a' := by
  have hserve : Deed { back := [⟨i, none, s⟩] } { a with stores := stores }
      (({ a with stores := stores } : Arena).setPool i (Pool.takeBack s (a.poolAt i)).state) :=
    Deed.serve (a := { a with stores := stores }) hi ((Pool.Serves.refl (a.poolAt i)).takeBack s)
  refine ⟨_, (Pool.takeBack s (a.poolAt i)).events, ?_,
    .of_course ((quiet_stores ha stores).course.step hserve) (Nat.le_refl 1) fun ht => ht⟩
  have hok := Pool.result_takeBack s (a.poolAt i)
  rcases ho : Pool.takeBack s (a.poolAt i) with ⟨f | v, q, log⟩
  · rw [ho] at hok
    simp at hok
  · have ho' : Pool.takeBack s (Arena.poolAt i { a with stores := stores }) = ⟨.ok v, q, log⟩ := ho
    rw [onPoolAt, Action.zoom, lift_of_ok ho']
    rfl

end Tables

/-- Every command either comes to its account or fails without one. -/
theorem run_meets (ha : a.Valid) (hc : c.Fits) :
    (c.run a).Meets (fun _ a' _ => a.Does (c.account a) a') fun f a' _ => a.Fails f a' := by
  cases c with
  | make what target => exact make_meets ha hc target
  | drop name => exact drop_meets ha name
  | ask name query =>
    apply (onBuffer_ask_meets ha fun b hb => hb.sound_answer query).imp
    intro _ _ _ h
    obtain ⟨rfl, -⟩ := h
    exact does_refl _
  | change name c => exact onBuffer_does ha fun b hb => Change.run_meets hb c hc
  | derive name d target => exact (derive_meets ha d target).imp fun _ _ _ h => h.1
  | exchange name other x => exact x.run_meets ha
  | storeNew kind n m target =>
    exact meets_lift_ask (Storage.sound_create a.system kind n m) fun s _ =>
      putStore_meets (quiet_refl a) ha target s
  | storeAdopt data m target =>
    exact meets_lift_ask (Storage.sound_adopt data m) fun s _ =>
      putStore_meets (quiet_refl a) ha target s
  | storeResize name n target =>
    apply meets_require
    intro s _
    exact meets_lift_ask (Storage.sound_resize a.system s n) fun t _ =>
      putStore_meets (quiet_refl a) ha target t
  | store name x => exact onStore_meets ha name x
  | poolNew slots target =>
    have hadd := quiet_addPool a slots
    exact (hadd.trans (quiet_poolNames (hadd.valid ha) (lt_addPool a _) target)).does
  | poolLend pool kind n m target =>
    apply meets_require
    intro i hi
    have hpool := ha.poolNames _ (Table.mem_of_find? hi)
    refine meets_bind (onPoolAt_meets hpool ((Pool.lend_meets (ha.poolAt hpool) kind n m).imp ?_))
    exact fun s q log hs => putStore_meets (quiet_serve hpool hs.2) ha target s
  | poolRelend pool name n target =>
    apply meets_require
    intro s _
    apply meets_require
    intro i hi
    have hpool := ha.poolNames _ (Table.mem_of_find? hi)
    refine meets_bind (onPoolAt_meets hpool ((Pool.relend_meets (Nat.le_trans (Nat.min_le_right _ _) hc) _).imp ?_))
    exact fun t q log hserves => putStore_meets (quiet_serve hpool hserves) ha target t
  | poolTakeBack pool name =>
    apply meets_require
    intro i hi
    apply meets_require
    intro s hs
    have hpool := ha.poolNames _ (Table.mem_of_find? hi)
    obtain ⟨a', log, htake, hdoes⟩ := takeBack_does ha hpool (a.stores.erase name) s
    have hmeets : (onPoolAt i (Pool.takeBack s) { a with stores := a.stores.erase name }).Meets
        (fun _ a' _ => a.Does ((poolTakeBack pool name).account a) a') fun f a' _ => a.Fails f a' := by
      rw [htake, account, hi, hs]
      exact hdoes
    exact meets_then_pure hmeets
  | poolShrink pool =>
    apply meets_require
    intro i hi
    exact meets_map (shrink_meets (ha.poolNames _ (Table.mem_of_find? hi)))
  | poolStatistics pool => exact meets_require fun i _ => does_refl a
  | poolStrategy pool => exact meets_require fun i _ => does_refl a
  | allocatorNew settings target =>
    refine meets_ask_bind (fun config hconfig => ?_) fun f hf => fails_self (foreseen_allocatorOf hf)
    exact foundAllocator_meets ha config config.pooling (allocatorOf_eq_ok hconfig) target
  | allocatorOnPool pool settings target =>
    apply meets_require
    intro i hi
    refine meets_ask_bind (fun config hconfig => ?_) fun f hf => fails_self (foreseen_allocatorOf hf)
    exact putAllocator_meets (quiet_refl a) ha (ha.poolNames _ (Table.mem_of_find? hi))
      (allocatorOf_eq_ok hconfig) target
  | allocatorDefault target =>
    exact foundAllocator_meets ha {} .unpooled
      (show defaultMaxCapacity ≤ Word.largest by decide) target
  | allocatorClone allocator target =>
    apply meets_require
    intro al hal
    obtain ⟨hpool, hmax⟩ := ha.allocators _ (Table.mem_of_find? hal)
    exact putAllocator_meets (quiet_refl a) ha hpool hmax target
  | allocatorInfo allocator => exact meets_require fun al _ => does_refl a
  | allocatorStatistics allocator => exact meets_require fun al _ => does_refl a
  | allocatorShrink allocator =>
    apply meets_require
    intro al hal
    exact meets_map (shrink_meets (ha.allocators _ (Table.mem_of_find? hal)).1)

end Command

namespace Arena

variable {a : Arena}

theorem valid_empty (sys : System) : ({ system := sys } : Arena).Valid where
  pools _ hp := (List.not_mem_nil hp).elim
  estates _ he := (List.not_mem_nil he).elim
  distinct := List.nodup_nil
  members _ hentry := (List.not_mem_nil hentry).elim
  poolNames _ hentry := (List.not_mem_nil hentry).elim
  allocators _ hentry := (List.not_mem_nil hentry).elim

theorem tidy_empty (sys : System) : ({ system := sys } : Arena).Tidy := by
  intro g e he
  simp at he

theorem Valid.step (ha : a.Valid) {c : Command} (hc : c.Fits) :
    ∃ x, a.Does x (c.run a).state ∧ x.seated ⊆ c.seats := by
  refine (Outcome.Meets.mono (Command.run_meets ha hc) ?_ ?_).state
    (P := fun a' => ∃ x, a.Does x a' ∧ x.seated ⊆ c.seats)
  · exact fun _ _ _ h => ⟨_, h, fun _ hname => c.seated_account a ▸ hname⟩
  · intro f a' _ h
    obtain ⟨used, written, hdoes⟩ := h.does
    exact ⟨_, hdoes, List.nil_subset _⟩

theorem Reachable.valid_and_tidy (h : Reachable a) : a.Valid ∧ a.Tidy := by
  apply h.induct (P := fun a => a.Valid ∧ a.Tidy) fun sys => ⟨valid_empty sys, tidy_empty sys⟩
  intro b c _ hc hb
  obtain ⟨hvalid, htidy⟩ := hb
  obtain ⟨x, hdoes, -⟩ := hvalid.step hc
  exact ⟨hdoes.valid hvalid, hdoes.tidy htidy⟩

theorem Reachable.valid (h : Reachable a) : a.Valid := h.valid_and_tidy.1

theorem Reachable.tidy (h : Reachable a) : a.Tidy := h.valid_and_tidy.2

end Arena

end SharedBuffer
