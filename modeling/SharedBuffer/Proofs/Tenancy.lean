import SharedBuffer.Proofs.Derivation
import SharedBuffer.Proofs.Change
import SharedBuffer.Proofs.Ownership

/-!
The operations of an arena as courses of deeds: acting on a buffer, making room for a handle under a
name, dropping one, and founding a group. A refused operation leaves the arena, apart from the
pools' notes of failed acquisitions.
-/

namespace SharedBuffer.Arena

open Table (find? put erase)
open SharedBuffer.Action (meets_bind meets_ask_bind meets_map meets_then_pure meets_mapError meets_zoom
  current_bind modify_bind)

variable {a a' : Arena} {name : String} {m : Member} {e : Estate} {p : Pool} {b : Buffer}
  {x y : Account} {f : Failure}

def forgetFailures (a : Arena) : Arena := { a with pools := a.pools.map Pool.forgetFailures }

/-- A course that comes to the account. Besides what the account hands back, at most one storage goes
back, and that from a group that was there before. -/
structure Does (a : Arena) (x : Account) (a' : Arena) : Prop where
  course : ∃ ended : List Return, (ended ++ x.back).length ≤ 1 ∧
    (∀ r ∈ ended, ∃ g < a.groups.length, r.group = some g) ∧
    Course { x with back := ended ++ x.back } a a'
  tidy : a.Tidy → a'.Tidy

structure Fails (a : Arena) (f : Failure) (a' : Arena) : Prop where
  foreseen : f.Foreseen
  unmoved : ¬f.OfStream → a'.forgetFailures = a.forgetFailures
  does : ∃ used written, a.Does { used, written } a'

theorem Does.of_course (h : Course x a a') (hone : x.back.length ≤ 1) (htidy : a.Tidy → a'.Tidy) :
    a.Does x a' :=
  ⟨⟨[], hone, fun _ hr => (List.not_mem_nil hr).elim, h⟩, htidy⟩

theorem does_refl (a : Arena) : a.Does {} a := .of_course (.refl a) (Nat.zero_le 1) fun h => h

theorem fails_self (hf : f.Foreseen) : a.Fails f a :=
  ⟨hf, fun _ => rfl, [], _, does_refl a⟩

theorem foreseen_of_none (hf : f.cause? = none) : f.Foreseen := by
  intro g hg
  rw [hf] at hg
  simp at hg

theorem Does.valid (h : a.Does x a') (ha : a.Valid) : a'.Valid := by
  obtain ⟨ended, -, -, hcourse⟩ := h.course
  exact hcourse.valid ha

theorem Does.then {c : Arena} (h : a.Does x a') (hy : Course { y with back := [] } a' c)
    (htidy : a'.Tidy → c.Tidy) : a.Does (x.andThen { y with back := [] }) c := by
  obtain ⟨ended, hone, hold, hcourse⟩ := h.course
  have hback : (x.andThen { y with back := [] }).back = x.back := List.append_nil _
  refine ⟨⟨ended, by rw [hback]; exact hone, hold, ?_⟩, fun ht => htidy (h.tidy ht)⟩
  simpa only [Account.andThen, List.append_nil] using hcourse.trans hy

section OnBuffer

theorem set_of_getElem? {α : Type} {l : List α} {i : Nat} {v : α} (h : l[i]? = some v) :
    l.set i v = l := by
  obtain ⟨hi, rfl⟩ := List.getElem?_eq_some_iff.1 h
  exact List.set_getElem_self hi

theorem settle_self (hs : a.Seat name m e p) : a.settle name m e.pool (a.bufferOf name m e p) = a := by
  have hgroups : a.groups.set m.group ⟨e.pool, e.group⟩ = a.groups := set_of_getElem? hs.estate
  have hpools : a.pools.set e.pool p = a.pools := set_of_getElem? hs.pool
  have hbuffers : put name ⟨m.group, m.handle⟩ a.buffers = a.buffers := Table.put_of_find? hs.member
  simp only [settle, restore, bufferOf, hgroups, hpools, hbuffers]

theorem forgetFailures_setPool {i : Nat} {q : Pool} (hp : a.pools[i]? = some p)
    (hq : q.forgetFailures = p.forgetFailures) :
    (a.setPool i q).forgetFailures = a.forgetFailures := by
  have hi : (a.pools.map Pool.forgetFailures)[i]? = some p.forgetFailures := by
    rw [List.getElem?_map, hp]
    rfl
  simp only [forgetFailures, setPool, List.map_set, hq, set_of_getElem? hi]

theorem settle_of_same (hs : a.Seat name m e p) (hb : b = { a.bufferOf name m e p with pool := b.pool }) :
    a.settle name m e.pool b = a.setPool e.pool b.pool := by
  have hgroups : a.groups.set m.group ⟨e.pool, e.group⟩ = a.groups := set_of_getElem? hs.estate
  have hbuffers : put name ⟨m.group, m.handle⟩ a.buffers = a.buffers := Table.put_of_find? hs.member
  rw [hb]
  simp only [settle, restore, bufferOf, setPool, hgroups, hbuffers]

theorem tidy_settle (ha : a.Valid) (hs : a.Seat name m e p) (b : Buffer) (h : a.Tidy) :
    (a.settle name m e.pool b).Tidy := by
  intro g e' he' hfree
  by_cases hg : m.group = g
  · have hheld : (a.settle name m e.pool b).isHeld g = true :=
      isHeld_iff.2 ⟨_, Table.mem_put_self _ _ _, hg⟩
    rw [hheld] at hfree
    simp at hfree
  · rw [groups_settle_ne hg] at he'
    apply h g e' he'
    cases hheld : a.isHeld g with
    | false => rfl
    | true =>
      rw [isHeld_settle ha hs.member e.pool b hheld] at hfree
      simp at hfree

theorem does_settle (ha : a.Valid) (hs : a.Seat name m e p) {f : Effect} {log : List Event}
    (h : (a.bufferOf name m e p).Does f b log) :
    a.Does (.use name m.group f) (a.settle name m e.pool b) := by
  obtain ⟨back, hone, hcourse⟩ := h
  refine ⟨⟨back.map fun s => ⟨e.pool, some m.group, s⟩, ?_, ?_, ?_⟩, tidy_settle ha hs b⟩
  · change (_ ++ []).length ≤ 1
    rw [List.append_nil, List.length_map]
    exact hone
  · intro r hr
    obtain ⟨s, -, rfl⟩ := List.mem_map.1 hr
    exact ⟨m.group, lt_of_getElem? hs.estate, rfl⟩
  · have hdeed := (Deed.use hs hcourse).course
    simpa only [Account.use, List.append_nil] using hdeed

theorem fails_settle (ha : a.Valid) (hs : a.Seat name m e p) {log : List Event}
    (h : (a.bufferOf name m e p).Fails f b log) : a.Fails f (a.settle name m e.pool b) := by
  obtain ⟨written, hdoes⟩ := h.does
  have hsettle := does_settle ha hs hdoes
  simp only [Account.use, ite_self] at hsettle
  refine ⟨h.foreseen, fun hf => ?_, _, _, hsettle⟩
  rw [settle_of_same hs (h.unmoved hf).same]
  exact forgetFailures_setPool hs.pool (h.unmoved hf).pool

theorem seat_settle (hs : a.Seat name m e p) (b : Buffer) :
    (a.settle name m e.pool b).Seat name ⟨m.group, b.handle⟩ ⟨e.pool, b.group⟩ b.pool :=
  ⟨Table.find?_put_self _ _ _, groups_settle_self hs b, List.getElem?_set_self (lt_of_getElem? hs.pool)⟩

theorem isShared_settle (pool g : Nat) (b : Buffer) :
    (a.settle name m pool b).isShared name g = a.isShared name g :=
  Table.any_put_others name _ (fun entry : String × Member => entry.2.group == g) a.buffers

theorem onBuffer_of_seat (hs : a.Seat name m e p) {α : Type} (x : Action Failure Buffer α) :
    onBuffer name x a = ⟨(x (a.bufferOf name m e p)).result,
      a.settle name m e.pool (x (a.bufferOf name m e p)).state,
      (x (a.bufferOf name m e p)).events⟩ := by
  rw [onBuffer, hs.member]
  dsimp only
  rw [hs.assemble]
  rfl

theorem onBuffer_of_none {α : Type} (h : find? name a.buffers = none) (x : Action Failure Buffer α) :
    onBuffer name x a = ⟨.error (.unknownName name), a, []⟩ := by
  rw [onBuffer, h]

theorem state_onBuffer_ask (ha : a.Valid) {α : Type} (g : Buffer → Except Fault α) (name : String) :
    (onBuffer name (lift (Action.ask g)) a).state = a := by
  cases hm : find? name a.buffers with
  | none => rw [onBuffer_of_none hm]
  | some m =>
    obtain ⟨e, p, hs⟩ := ha.seat hm
    rw [onBuffer_of_seat hs]
    exact settle_self hs

theorem onBuffer_meets (ha : a.Valid) {α : Type} {x : Action Failure Buffer α}
    {Q : α → Arena → List Event → Prop}
    (h : ∀ m e p, a.Seat name m e p → (x (a.bufferOf name m e p)).Meets
      (fun v b log => Q v (a.settle name m e.pool b) log) (a.bufferOf name m e p).Fails) :
    (onBuffer name x a).Meets Q fun f a' _ => a.Fails f a' := by
  cases hm : find? name a.buffers with
  | none =>
    rw [onBuffer_of_none hm]
    exact fails_self (foreseen_of_none rfl)
  | some m =>
    obtain ⟨e, p, hs⟩ := ha.seat hm
    have hx := h m e p hs
    rw [onBuffer_of_seat hs]
    generalize x (a.bufferOf name m e p) = o at hx ⊢
    rcases o with ⟨f | v, b, log⟩
    · exact fails_settle ha hs hx
    · exact hx

end OnBuffer

section Handles

def TidyBut (g : Nat) (a : Arena) : Prop :=
  ∀ g' e, a.groups[g']? = some e → a.isHeld g' = false → g' ≠ g → e.group.storage = none

theorem tidyBut_of_tidy (h : a.Tidy) (g : Nat) : a.TidyBut g := fun g' e he hfree _ => h g' e he hfree

theorem lift_of_ok {σ α : Type} {x : Action Fault σ α} {s t : σ} {v : α} {log : List Event}
    (h : x s = ⟨.ok v, t, log⟩) : lift x s = ⟨.ok v, t, log⟩ := by
  rw [lift, Action.mapError, h]

theorem onBuffer_of_ok (hs : a.Seat name m e p) {α : Type} {x : Action Fault Buffer α} {v : α}
    {b : Buffer} {log : List Event} (h : x (a.bufferOf name m e p) = ⟨.ok v, b, log⟩) :
    onBuffer name (lift x) a = ⟨.ok v, a.settle name m e.pool b, log⟩ := by
  rw [onBuffer_of_seat hs, lift_of_ok h]

theorem onBuffer_of_error (hs : a.Seat name m e p) {α : Type} {x : Action Fault Buffer α} {f : Fault}
    {b : Buffer} {log : List Event} (h : x (a.bufferOf name m e p) = ⟨.error f, b, log⟩) :
    onBuffer name (lift x) a = ⟨.error (.fault f), a.settle name m e.pool b, log⟩ := by
  rw [onBuffer_of_seat hs, lift, Action.mapError, h]

theorem bury_of_free (he : a.groups[m.group]? = some e) (hp : a.pools[e.pool]? = some p)
    (hfree : a.isHeld m.group = false) {b : Buffer} {log : List Event}
    (hb : Buffer.giveBack (fun _ => .abandoned e.group.count) ⟨m.handle, e.group, p, false⟩ =
      ⟨.ok (), b, log⟩) : bury m a = ⟨.ok (), a.restore m.group e.pool b, log⟩ := by
  have hassemble : a.assemble m false = some (e.pool, ⟨m.handle, e.group, p, false⟩) := by
    rw [assemble, he]
    dsimp only
    rw [hp]
  rw [bury, hfree, if_neg Bool.false_ne_true, hassemble]
  dsimp only
  rw [lift_of_ok hb]

theorem bury_cases (he : a.groups[m.group]? = some e) (hp : a.pools[e.pool]? = some p) :
    ((∃ log, bury m a = ⟨.ok (), a, log⟩) ∧ (a.isHeld m.group = true ∨ e.group.storage = none)) ∨
    (a.isHeld m.group = false ∧ ∃ s, e.group.storage = some s ∧
      ∃ log, bury m a = ⟨.ok (), a.vacate m.group e p s, log⟩) := by
  cases hheld : a.isHeld m.group with
  | true => exact .inl ⟨⟨[], by rw [bury, if_pos hheld]⟩, .inl rfl⟩
  | false =>
    cases hs : e.group.storage with
    | none =>
      have hgive := bury_of_free he hp hheld (Buffer.giveBack_of_none hs _)
      have hsame : a.restore m.group e.pool ⟨m.handle, e.group, p, false⟩ = a := by
        simp only [restore, set_of_getElem? he, set_of_getElem? hp]
      rw [hsame] at hgive
      exact .inl ⟨⟨_, hgive⟩, .inr rfl⟩
    | some s => exact .inr ⟨rfl, s, rfl, _, bury_of_free he hp hheld (Buffer.giveBack_of_some hs _)⟩

theorem lt_of_fits (h : m.Fits a) : m.group < a.groups.length := by
  obtain ⟨e, he, -⟩ := h
  exact lt_of_getElem? he

theorem bury_does {c : Arena} (ha : a.Valid) (h : Course x a c) (hx : x.back = [])
    (hm : m.Fits c) (hold : m.group < a.groups.length) (htidy : a.Tidy → c.TidyBut m.group) :
    ∃ a' log, bury m c = ⟨.ok (), a', log⟩ ∧ a.Does x a' ∧ a'.buffers = c.buffers := by
  obtain ⟨e, he, -⟩ := hm
  obtain ⟨p, hp⟩ := getElem?_of_lt ((h.valid ha).estates e (List.mem_of_getElem? he)).1
  rcases bury_cases he hp with ⟨⟨log, hbury⟩, hend⟩ | ⟨hfree, s, hs, log, hbury⟩
  · refine ⟨c, log, hbury, .of_course h (by rw [hx]; exact Nat.zero_le 1) ?_, rfl⟩
    intro ht g e' he' hfree
    by_cases hg : g = m.group
    · rw [hg] at hfree he'
      rcases hend with hheld | hnone
      · rw [hheld] at hfree
        simp at hfree
      · rw [he, Option.some.injEq] at he'
        rw [← he']
        exact hnone
    · exact htidy ht g e' he' hfree hg
  · refine ⟨_, log, hbury, ⟨⟨[⟨e.pool, some m.group, s⟩], ?_, ?_, ?_⟩,
      fun ht g e' he' hfree => ?_⟩, rfl⟩
    · rw [hx]
      exact Nat.le_refl 1
    · intro r hr
      rw [List.mem_singleton.1 hr]
      exact ⟨m.group, hold, rfl⟩
    · have hdeed := h.trans (Deed.vacate he hp hfree hs).course
      simpa only [Account.andThen, Option.none_or, Nat.add_zero, List.append_nil, hx, List.nil_append]
        using hdeed
    · by_cases hg : g = m.group
      · rw [hg, groups_vacate_self he s, Option.some.injEq] at he'
        rw [← he']
      · rw [groups_vacate_ne (Ne.symm hg)] at he'
        exact htidy ht g e' he' hfree hg

theorem isHeld_of_ne {c : Arena} (ha : a.Valid) {g : Nat}
    (hothers : ∀ entry ∈ a.buffers, entry.1 ≠ name → entry ∈ c.buffers)
    (hold : ∀ old, find? name a.buffers = some old → old.group ≠ g) (h : a.isHeld g = true) :
    c.isHeld g = true := by
  obtain ⟨entry, hentry, hgroup⟩ := isHeld_iff.1 h
  by_cases hname : entry.1 = name
  · exact absurd hgroup (hold entry.2 (Table.find?_of_mem ha.distinct (hname ▸ hentry)))
  · exact isHeld_iff.2 ⟨entry, hothers entry hentry hname, hgroup⟩

theorem drop_does (ha : a.Valid) (hm : find? name a.buffers = some m) :
    ∃ a' log, drop name a = ⟨.ok (), a', log⟩ ∧ a.Does { seated := [name] } a' := by
  have hfits : m.Fits a := ha.members _ (Table.mem_of_find? hm)
  have hbury := bury_does ha (Deed.leave name).course rfl (m := m)
    (fits_of_estate hfits fun _ he => he) (lt_of_fits hfits) ?_
  · obtain ⟨a', log, hbury, hdoes, -⟩ := hbury
    refine ⟨a', log, ?_, hdoes⟩
    have hask : require buffers name a = ⟨.ok m, a, []⟩ := Action.ask_of_ok (by rw [hm])
    rw [drop, Action.bind_of_ok hask, modify_bind]
    exact hbury ▸ rfl
  · intro ht g e' he' hfree hg
    apply ht g e' he'
    cases hheld : a.isHeld g with
    | false => rfl
    | true =>
      have hstill : (a.leave name).isHeld g = true :=
        isHeld_of_ne ha (fun entry hentry hne => Table.mem_erase_iff.2 ⟨hentry, hne⟩)
          (fun old hold => by
            rw [hm] at hold
            cases hold
            exact Ne.symm hg) hheld
      rw [hstill] at hfree
      simp at hfree

theorem isHeld_seatAt_self (name : String) (m : Member) (a : Arena) :
    (a.seatAt name m).isHeld m.group = true :=
  isHeld_iff.2 ⟨(name, m), Table.mem_put_self _ _ _, rfl⟩

theorem tidyBut_seatAt (ha : a.Valid) (ht : a.TidyBut m.group) {g : Nat}
    (hold : ∀ old, find? name a.buffers = some old → old.group = g) :
    (a.seatAt name m).TidyBut g := by
  intro g' e he hfree hg
  cases hheld : a.isHeld g' with
  | false =>
    apply ht g' e he hheld
    intro hsame
    rw [hsame, isHeld_seatAt_self] at hfree
    simp at hfree
  | true =>
    have hstill : (a.seatAt name m).isHeld g' = true :=
      isHeld_of_ne ha (fun entry hentry hne => Table.mem_put_of_ne m hentry hne)
        (fun old h => hold old h ▸ Ne.symm hg) hheld
    rw [hstill] at hfree
    simp at hfree

theorem enrol_does {c : Arena} (name : String) (ha : a.Valid) (h : Course x a c) (hx : x.back = []) (hm : m.Fits c)
    (hnames : ∀ old, find? name c.buffers = some old → old.group < a.groups.length)
    (htidy : a.Tidy → c.TidyBut m.group) :
    ∃ a' log, enrol name m c = ⟨.ok (), a', log⟩ ∧
      a.Does (x.andThen { seated := [name] }) a' ∧ a'.buffers = put name m c.buffers := by
  have hc := h.valid ha
  have hseat := h.trans (Deed.seatAt hm name).course
  have hback : (x.andThen { seated := [name] }).back = [] := by rw [Account.andThen, hx]; rfl
  rw [enrol, current_bind, modify_bind]
  cases hold : find? name c.buffers with
  | none =>
    refine ⟨c.seatAt name m, [], rfl, .of_course hseat (by rw [hback]; exact Nat.zero_le 1) ?_, rfl⟩
    intro ht g e he hfree
    have hopen : (c.seatAt name m).TidyBut m.group :=
      tidyBut_seatAt hc (htidy ht) fun old h => by
        rw [hold] at h
        simp at h
    apply hopen g e he hfree
    intro hsame
    rw [hsame, isHeld_seatAt_self] at hfree
    simp at hfree
  | some old =>
    have hfits : old.Fits c := hc.members _ (Table.mem_of_find? hold)
    apply bury_does ha hseat hback (fits_of_estate hfits fun _ he => he) (hnames old hold)
    exact fun ht => tidyBut_seatAt hc (htidy ht) fun other h => by
      rw [hold] at h
      cases h
      rfl

end Handles

section Serving

variable {i n m' : Nat} {kind : StorageKind}

theorem course_serve (hi : i < a.pools.length) {q : Pool} (h : Pool.Serves [] (a.poolAt i) q) :
    Course {} a (a.setPool i q) := (Deed.serve hi h).course

theorem fails_serve (hi : i < a.pools.length) {q : Pool} {f : Fault}
    (h : (a.poolAt i).Declines f q) : a.Fails (.fault f) (a.setPool i q) where
  foreseen g hg := by
    cases hg
    exact h.foreseen
  unmoved _ := by
    obtain ⟨p, hp⟩ := getElem?_of_lt hi
    have hq := h.unmoved
    rw [Arena.poolAt, hp] at hq
    exact forgetFailures_setPool hp hq
  does := ⟨[], _, .of_course (course_serve hi h.serves) (Nat.zero_le 1) fun ht => ht⟩

theorem Valid.poolAt (ha : a.Valid) (hi : i < a.pools.length) : (a.poolAt i).Valid := by
  obtain ⟨p, hp⟩ := getElem?_of_lt hi
  rw [Arena.poolAt, hp]
  exact ha.pools p (List.mem_of_getElem? hp)

theorem onPoolAt_meets {α : Type} {x : Action Fault Pool α} {Q : α → Arena → List Event → Prop}
    (hi : i < a.pools.length)
    (h : (x (a.poolAt i)).Meets (fun v q log => Q v (a.setPool i q) log)
      fun f q _ => (a.poolAt i).Declines f q) :
    (onPoolAt i x a).Meets Q fun f a' _ => a.Fails f a' :=
  meets_zoom (meets_mapError (h.imp_error fun _ _ _ hf => fails_serve hi hf))

end Serving

section Founding

structure Founds (a : Arena) (m : Member) (c : Arena) : Prop where
  course : Course {} a c
  fits : m.Fits c
  fresh : m.group = a.groups.length
  buffers : c.buffers = a.buffers
  tidy : a.Tidy → c.TidyBut m.group

theorem founds_of_course {c : Arena} {pool : Nat} {s : Storage} {h : Handle}
    (hcourse : Course {} a c) (hgroups : c.groups = a.groups) (hbuffers : c.buffers = a.buffers)
    (hpool : pool < c.pools.length) (hs : s.Valid) (hh : h.Valid) (hon : h.On s) :
    a.Founds ⟨a.groups.length, h⟩ (c.addGroup pool s) where
  course := hcourse.trans (Deed.addGroup hpool hs).course
  fits := by
    refine ⟨⟨pool, .holding s⟩, ?_, hh, fun _ => ⟨s, rfl, hon⟩⟩
    rw [addGroup, hgroups]
    exact List.getElem?_concat_length
  fresh := rfl
  buffers := hbuffers
  tidy ht g e he hfree hg := by
    rw [addGroup, hgroups] at he
    have hlt := lt_of_getElem? he
    change g ≠ a.groups.length at hg
    rw [List.length_append, List.length_singleton] at hlt
    rw [List.getElem?_append_left (by omega)] at he
    apply ht g e he
    rw [isHeld, ← hbuffers]
    exact hfree

theorem Founds.after {c : Arena} (h : Course {} a a') (hgroups : a'.groups = a.groups)
    (hbuffers : a'.buffers = a.buffers) (hc : a'.Founds m c) : a.Founds m c where
  course := h.trans hc.course
  fits := hc.fits
  fresh := by rw [hc.fresh, hgroups]
  buffers := hc.buffers.trans hbuffers
  tidy ht := by
    apply hc.tidy
    intro g e he hfree
    rw [hgroups] at he
    rw [isHeld, hbuffers] at hfree
    exact ht g e he hfree

variable {pool n k : Nat} {content : Bytes}

theorem foreseen_fault {f : Fault} (hf : f.Foreseen) : (Failure.fault f).Foreseen := by
  intro g hg
  cases hg
  exact hf

theorem set_concat_length {α : Type} (l : List α) (x y : α) : (l ++ [x]).set l.length y = l ++ [y] := by
  rw [List.set_append_right _ _ (Nat.le_refl _), Nat.sub_self, List.set_cons_zero]

section Allocating

variable {kind : StorageKind} {s : Storage} {q : Pool} {log : List Event}

theorem onPoolAt_of_lend {r : Except Fault Storage} (h : Pool.lend kind n k (a.poolAt pool) = ⟨r, q, log⟩) :
    onPoolAt pool (Pool.lend kind n k) a = ⟨r.mapError .fault, a.setPool pool q, log⟩ := by
  rw [onPoolAt, Action.zoom, lift, Action.mapError, h]
  cases r <;> rfl

theorem allocate_of_excess (h : k < n) (expand : Bool) :
    allocate pool kind n k expand a = ⟨.error (.fault (.initialAboveMax n k)), a, []⟩ := by
  rw [allocate, Action.ask_bind_of_error (g := fun _ : Arena => checkInitial n k) (if_pos h)]

theorem allocate_of_lend (hle : n ≤ k) (h : Pool.lend kind n k (a.poolAt pool) = ⟨.ok s, q, log⟩)
    (expand : Bool) :
    allocate pool kind n k expand a =
      ⟨.ok ⟨a.groups.length, .root n k 0 expand⟩, (a.setPool pool q).addGroup pool s, log⟩ := by
  rw [allocate, Action.ask_bind_of_ok (g := fun _ : Arena => checkInitial n k) (if_neg (Nat.not_lt.2 hle)),
    Action.bind_of_ok (onPoolAt_of_lend h)]
  exact congrArg (Outcome.mk _ _) (List.append_nil log)

theorem allocate_of_refused (hle : n ≤ k) {f : Fault}
    (h : Pool.lend kind n k (a.poolAt pool) = ⟨.error f, q, log⟩) (expand : Bool) :
    allocate pool kind n k expand a = ⟨.error (.fault f), a.setPool pool q, log⟩ := by
  rw [allocate, Action.ask_bind_of_ok (g := fun _ : Arena => checkInitial n k) (if_neg (Nat.not_lt.2 hle)),
    Action.bind_of_error (onPoolAt_of_lend h)]

theorem founds_of_lend (ha : a.Valid) (hpool : pool < a.pools.length) (hk : k ≤ Word.largest)
    (hle : n ≤ k) (h : Pool.lend kind n k (a.poolAt pool) = ⟨.ok s, q, log⟩) (content : Bytes)
    (hcontent : content.length ≤ n) (expand : Bool) :
    a.Founds ⟨a.groups.length, .root n k content.length expand⟩
      ((a.setPool pool q).addGroup pool { s with bytes := s.bytes.splice 0 content }) := by
  have hmeets := (Pool.lend_meets (ha.poolAt hpool) kind n k)
  rw [h] at hmeets
  obtain ⟨rfl, hserves⟩ := hmeets
  have hsize : ((Bytes.zeros n).splice 0 content).length = n := by
    rw [Bytes.length_splice (by rw [Bytes.length_zeros]; omega), Bytes.length_zeros]
  refine founds_of_course (course_serve hpool hserves) rfl rfl ?_ ⟨?_, hk⟩
    (Handle.valid_root hcontent hle hk expand)
    (Handle.on_root (s := ⟨kind, (Bytes.zeros n).splice 0 content, k⟩) hsize rfl expand)
  · exact Nat.lt_of_lt_of_eq hpool List.length_set.symm
  · exact Nat.le_trans (Nat.le_of_eq hsize) hle

theorem fails_of_refused (ha : a.Valid) (hpool : pool < a.pools.length) {f : Fault}
    (h : Pool.lend kind n k (a.poolAt pool) = ⟨.error f, q, log⟩) : a.Fails (.fault f) (a.setPool pool q) := by
  have hmeets := (Pool.lend_meets (ha.poolAt hpool) kind n k)
  rw [h] at hmeets
  exact fails_serve hpool hmeets

theorem allocate_meets (ha : a.Valid) (hpool : pool < a.pools.length) (hk : k ≤ Word.largest)
    (kind : StorageKind) (expand : Bool) :
    (allocate pool kind n k expand a).Meets (fun m c _ => a.Founds m c) fun f c _ => a.Fails f c := by
  rcases Nat.lt_or_ge k n with hlt | hle
  · rw [allocate_of_excess hlt]
    exact fails_self (foreseen_fault trivial)
  rcases ho : Pool.lend kind n k (a.poolAt pool) with ⟨f | s, q, log⟩
  · rw [allocate_of_refused hle ho]
    exact fails_of_refused ha hpool ho
  · rw [allocate_of_lend hle ho]
    have hfounds := founds_of_lend ha hpool hk hle ho [] (Nat.zero_le n) expand
    rwa [Bytes.splice_nil] at hfounds

/-- A buffer that has just been allocated has room for its content, so that the write is not refused
and nothing is undone. -/
theorem allocateCopy_of_lend {data : Bytes} (ha : a.Valid) (hpool : pool < a.pools.length)
    (hk : k ≤ Word.largest) (hle : data.length ≤ k)
    (h : Pool.lend kind data.length k (a.poolAt pool) = ⟨.ok s, q, log⟩) (expand : Bool) :
    allocateCopy pool kind data k expand a =
      ⟨.ok ⟨a.groups.length, .root data.length k data.length expand⟩,
        (a.setPool pool q).addGroup pool { s with bytes := s.bytes.splice 0 data }, log⟩ := by
  have hfounds := founds_of_lend ha hpool hk hle h [] (Nat.zero_le _) expand
  rw [Bytes.splice_nil] at hfounds
  have hpools : (a.pools.set pool q)[pool]? = some q := List.getElem?_set_self hpool
  have hgroups : (a.groups ++ [⟨pool, .holding s⟩])[a.groups.length]? = some ⟨pool, .holding s⟩ :=
    List.getElem?_concat_length
  have hvalid : Buffer.Valid ⟨.root data.length k 0 expand, .holding s, q, false⟩ :=
    (hfounds.course.valid ha).member hfounds.fits hgroups hpools false
  have happend : Buffer.append data ⟨.root data.length k 0 expand, .holding s, q, false⟩ = _ :=
    Buffer.append_of_room hvalid (s := s) rfl rfl (Nat.le_of_eq (Nat.zero_add _))
  have happended : Buffer.appended data s ⟨.root data.length k 0 expand, .holding s, q, false⟩ =
      ⟨.root data.length k data.length expand, .holding { s with bytes := s.bytes.splice 0 data }, q,
        false⟩ := by
    simp only [Buffer.appended, Buffer.moveCursor, Handle.moveCursor, Handle.root, Cursor.between,
      Cursor.advanceWriter, Buffer.patch, Buffer.setStorage, Buffer.front, Group.holding, Nat.zero_add]
  have hwrite : onMember ⟨a.groups.length, .root data.length k 0 expand⟩ (lift (Buffer.append data))
      ((a.setPool pool q).addGroup pool s) =
      ⟨.ok ⟨a.groups.length, .root data.length k data.length expand⟩,
        (a.setPool pool q).addGroup pool { s with bytes := s.bytes.splice 0 data }, []⟩ := by
    have hassemble : ((a.setPool pool q).addGroup pool s).assemble
        ⟨a.groups.length, .root data.length k 0 expand⟩ false =
        some (pool, ⟨.root data.length k 0 expand, .holding s, q, false⟩) := by
      simp only [assemble, addGroup, setPool, hgroups, hpools]
    simp only [onMember, lift, Action.mapError]
    rw [hassemble]
    dsimp only
    rw [happend, happended]
    simp only [restore, addGroup, setPool, Except.map, List.set_set, set_concat_length]
  rw [allocateCopy, Action.bind_of_ok (allocate_of_lend hle h expand), Action.orUndo_of_ok hwrite]
  exact congrArg (Outcome.mk _ _) (List.append_nil log)

theorem allocateCopy_of_refused {data : Bytes} (hle : data.length ≤ k) {f : Fault}
    (h : Pool.lend kind data.length k (a.poolAt pool) = ⟨.error f, q, log⟩) (expand : Bool) :
    allocateCopy pool kind data k expand a = ⟨.error (.fault f), a.setPool pool q, log⟩ :=
  Action.bind_of_error (allocate_of_refused hle h expand)

theorem allocateCopy_meets {data : Bytes} (ha : a.Valid) (hpool : pool < a.pools.length)
    (hk : k ≤ Word.largest) (hle : data.length ≤ k) (kind : StorageKind) (expand : Bool) :
    (allocateCopy pool kind data k expand a).Meets (fun m c _ => a.Founds m c)
      fun f c _ => a.Fails f c := by
  rcases ho : Pool.lend kind data.length k (a.poolAt pool) with ⟨f | s, q, log⟩
  · rw [allocateCopy_of_refused hle ho]
    exact fails_of_refused ha hpool ho
  · rw [allocateCopy_of_lend ha hpool hk hle ho]
    exact founds_of_lend ha hpool hk hle ho data (Nat.le_refl _) expand

end Allocating

section Alone

theorem course_addPool (a : Arena) (slots : Option Nat) :
    Course {} a { a with pools := a.pools ++ [.withSlots slots a.system] } :=
  (Deed.addPool (Pool.valid_withSlots slots a.system) (by cases slots <;> rfl)).course

theorem poolAt_addPool (p : Pool) (a : Arena) :
    ({ a with pools := a.pools ++ [p] } : Arena).poolAt a.pools.length = p := by
  rw [poolAt, List.getElem?_concat_length, Option.getD_some]

theorem dropPool_addPool (p q : Pool) (a : Arena) :
    dropPool (({ a with pools := a.pools ++ [p] } : Arena).setPool a.pools.length q) =
      ⟨.ok (), a, []⟩ := by
  simp only [dropPool, Action.modify, setPool]
  rw [set_concat_length, List.dropLast_concat]

theorem allocateAlone_cases (n k : Nat) (a : Arena) :
    (∃ f, allocateAlone n k a = ⟨.error (.fault f), a, []⟩ ∧ f.Foreseen) ∨
    n ≤ k ∧ ∃ s q, Pool.lend .heap n k (.plain a.system) = ⟨.ok s, q, []⟩ ∧
      allocateAlone n k a = ⟨.ok ⟨a.groups.length, .root n k 0 true⟩,
        (({ a with pools := a.pools ++ [.plain a.system] } : Arena).setPool a.pools.length q).addGroup
          a.pools.length s, []⟩ := by
  rcases Nat.lt_or_ge k n with hlt | hle
  · refine .inl ⟨.initialAboveMax n k, ?_, trivial⟩
    rw [allocateAlone, Action.ask_bind_of_error (g := fun _ : Arena => checkInitial n k) (if_pos hlt)]
  have hinit : checkInitial n k = .ok () := if_neg (Nat.not_lt.2 hle)
  have hpool : ({ a with pools := a.pools ++ [.plain a.system] } : Arena).poolAt a.pools.length =
      .plain a.system := poolAt_addPool _ a
  have hadd : addPool .plain a =
      ⟨.ok a.pools.length, { a with pools := a.pools ++ [.plain a.system] }, []⟩ := rfl
  rw [allocateAlone, Action.ask_bind_of_ok (g := fun _ : Arena => checkInitial n k) hinit,
    Action.bind_of_ok hadd]
  have hevents : (Pool.lend .heap n k (.plain a.system)).events = [] := by
    rw [Pool.lend_of_plain rfl]
    exact Pool.events_lendFresh _ _ _ _
  rcases ho : Pool.lend .heap n k (.plain a.system) with ⟨f | s, q, log⟩
  · obtain rfl : log = [] := by rwa [ho] at hevents
    have hallocate := allocate_of_refused hle (hpool.symm ▸ ho) true
    refine .inl ⟨f, ?_, (Pool.lend_eq_error (Outcome.result_of_eq ho)).1⟩
    rw [Action.orUndo_of_error hallocate, dropPool_addPool]
    rfl
  · obtain rfl : log = [] := by rwa [ho] at hevents
    have hallocate := allocate_of_lend hle (hpool.symm ▸ ho) true
    refine .inr ⟨hle, s, q, rfl, ?_⟩
    rw [Action.orUndo_of_ok hallocate]
    rfl

theorem allocateAlone_meets (ha : a.Valid) (hk : k ≤ Word.largest) :
    (allocateAlone n k a).Meets (fun m c _ => a.Founds m c) fun f c _ => a.Fails f c := by
  rcases allocateAlone_cases n k a with ⟨f, hfail, hf⟩ | ⟨hle, s, q, hlend, hmade⟩
  · rw [hfail]
    exact fails_self (foreseen_fault hf)
  · have hadd : Course {} a { a with pools := a.pools ++ [.plain a.system] } := course_addPool a none
    have hnew : a.pools.length < (a.pools ++ [Pool.plain a.system]).length := by
      rw [List.length_append]
      exact Nat.lt_succ_self _
    have hlend' : Pool.lend .heap n k (({ a with pools := a.pools ++ [.plain a.system] } : Arena).poolAt
        a.pools.length) = ⟨.ok s, q, []⟩ := by rw [poolAt_addPool, hlend]
    have hfounds := founds_of_lend (hadd.valid ha) hnew hk hle hlend' [] (Nat.zero_le n) true
    rw [Bytes.splice_nil] at hfounds
    rw [hmade]
    exact Founds.after hadd rfl rfl hfounds

end Alone

theorem adopt_meets {data : Bytes} (hdata : data.length ≤ Word.longest) (expand : Bool) :
    (adopt data expand a).Meets (fun m c _ => a.Founds m c) fun f c _ => a.Fails f c := by
  have hadd : Course {} a { a with pools := a.pools ++ [.plain a.system] } := course_addPool a none
  have hmax : max data.length defaultMaxCapacity ≤ Word.largest :=
    Nat.max_le.2 ⟨Nat.le_trans hdata (by decide), by decide⟩
  refine founds_of_course hadd rfl rfl ?_ ⟨Nat.le_max_left _ _, hmax⟩
    (Handle.valid_root (Nat.le_refl _) (Nat.le_max_left _ _) hmax expand)
    (Handle.on_root (s := ⟨.heap, data, _⟩) rfl rfl expand)
  change a.pools.length < (a.pools ++ [Pool.plain a.system]).length
  rw [List.length_append]
  exact Nat.lt_succ_self _

end Founding

end SharedBuffer.Arena
