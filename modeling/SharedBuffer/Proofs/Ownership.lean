import SharedBuffer.Arena
import SharedBuffer.Proofs.Course

/-!
What holds of every arena between two commands, and the elementary deeds that commands are made of.
Main statements: a course of deeds keeps an arena valid, leaves the handles that are not used and
shows them no bytes but those written, moves the counts by what was gained and lost, and hands to
each pool exactly the storages that groups give up.
-/

namespace SharedBuffer

open Table (find? put erase)

def Member.Fits (m : Member) (a : Arena) : Prop :=
  ∃ e, a.groups[m.group]? = some e ∧ m.handle.Valid ∧
    (0 < e.group.count → ∃ s, e.group.storage = some s ∧ m.handle.On s)

structure Member.Persists (m m' : Member) : Prop where
  group : m'.group = m.group
  offset : m'.handle.offset = m.handle.offset
  maxCapacity : m'.handle.maxCapacity = m.handle.maxCapacity
  readOnly : m'.handle.readOnly = m.handle.readOnly
  origin : m'.handle.origin = m.handle.origin

theorem Member.persists_refl (m : Member) : m.Persists m := ⟨rfl, rfl, rfl, rfl, rfl⟩

theorem Member.Persists.trans {m m' m'' : Member} (h : m.Persists m') (h' : m'.Persists m'') :
    m.Persists m'' where
  group := h'.group.trans h.group
  offset := h'.offset.trans h.offset
  maxCapacity := h'.maxCapacity.trans h.maxCapacity
  readOnly := h'.readOnly.trans h.readOnly
  origin := h'.origin.trans h.origin

namespace Arena

structure Valid (a : Arena) : Prop where
  pools : ∀ p ∈ a.pools, p.Valid
  estates : ∀ e ∈ a.groups, e.pool < a.pools.length ∧ e.group.Valid
  distinct : a.buffers.Distinct
  members : ∀ entry ∈ a.buffers, entry.2.Fits a
  poolNames : ∀ entry ∈ a.poolNames, entry.2 < a.pools.length
  allocators : ∀ entry ∈ a.allocators, entry.2.pool < a.pools.length ∧
    entry.2.config.maxCapacity ≤ Word.largest

def Tidy (a : Arena) : Prop :=
  ∀ g e, a.groups[g]? = some e → a.isHeld g = false → e.group.storage = none

structure Seat (a : Arena) (name : String) (m : Member) (e : Estate) (p : Pool) : Prop where
  member : find? name a.buffers = some m
  estate : a.groups[m.group]? = some e
  pool : a.pools[e.pool]? = some p

def bufferOf (name : String) (m : Member) (e : Estate) (p : Pool) (a : Arena) : Buffer :=
  ⟨m.handle, e.group, p, a.isShared name m.group⟩

def settle (name : String) (m : Member) (pool : Nat) (b : Buffer) (a : Arena) : Arena :=
  { a.restore m.group pool b with buffers := put name ⟨m.group, b.handle⟩ a.buffers }

variable {a : Arena} {name : String} {m : Member} {e : Estate} {p : Pool} {b : Buffer}

theorem isHeld_iff {g : Nat} :
    a.isHeld g = true ↔ ∃ entry ∈ a.buffers, entry.2.group = g := by
  simp only [isHeld, List.any_eq_true, beq_iff_eq]

theorem isShared_of_mem {entry : String × Member} (h : entry ∈ a.buffers) (hne : entry.1 ≠ name) :
    a.isShared name entry.2.group = true := by
  simp only [isShared, List.any_eq_true, Bool.and_eq_true, bne_iff_ne, beq_iff_eq]
  exact ⟨entry, h, hne, rfl⟩

theorem lt_of_getElem? {α : Type} {l : List α} {i : Nat} {x : α} (h : l[i]? = some x) :
    i < l.length := (List.getElem?_eq_some_iff.1 h).1

theorem getElem?_of_lt {α : Type} {l : List α} {i : Nat} (h : i < l.length) : ∃ x, l[i]? = some x :=
  ⟨l[i], List.getElem?_eq_getElem h⟩

theorem Valid.seat (ha : a.Valid) (hm : find? name a.buffers = some m) :
    ∃ e p, a.Seat name m e p := by
  obtain ⟨e, he, -⟩ := ha.members _ (Table.mem_of_find? hm)
  obtain ⟨p, hp⟩ := getElem?_of_lt (ha.estates e (List.mem_of_getElem? he)).1
  exact ⟨e, p, hm, he, hp⟩

theorem Valid.member (ha : a.Valid) (hm : m.Fits a) (he : a.groups[m.group]? = some e)
    (hp : a.pools[e.pool]? = some p) (shared : Bool) :
    Buffer.Valid ⟨m.handle, e.group, p, shared⟩ := by
  obtain ⟨e', he', hhandle, hwindow⟩ := hm
  rw [he] at he'
  cases he'
  exact ⟨hhandle, (ha.estates e (List.mem_of_getElem? he)).2, ha.pools p (List.mem_of_getElem? hp),
    hwindow⟩

theorem Valid.buffer (ha : a.Valid) (hs : a.Seat name m e p) : (a.bufferOf name m e p).Valid :=
  ha.member (ha.members _ (Table.mem_of_find? hs.member)) hs.estate hs.pool _

theorem Seat.assemble (hs : a.Seat name m e p) (shared : Bool) :
    a.assemble m shared = some (e.pool, ⟨m.handle, e.group, p, shared⟩) := by
  rw [Arena.assemble, hs.estate]
  dsimp only
  rw [hs.pool]

theorem assemble_eq_some {shared : Bool} {pool : Nat} {b : Buffer}
    (h : a.assemble m shared = some (pool, b)) :
    ∃ e p, a.groups[m.group]? = some e ∧ a.pools[e.pool]? = some p ∧ pool = e.pool ∧
      b = ⟨m.handle, e.group, p, shared⟩ := by
  simp only [Arena.assemble] at h
  split at h
  · simp at h
  · next he =>
    split at h
    · simp at h
    · next hp =>
      cases h
      exact ⟨_, _, he, hp, rfl, rfl⟩

theorem Seat.poolAt (hs : a.Seat name m e p) : a.poolAt e.pool = p := by
  rw [Arena.poolAt, hs.pool, Option.getD_some]

section Settle

theorem groups_settle_self (hs : a.Seat name m e p) (b : Buffer) :
    (a.settle name m e.pool b).groups[m.group]? = some ⟨e.pool, b.group⟩ :=
  List.getElem?_set_self (lt_of_getElem? hs.estate)

theorem groups_settle_ne {g : Nat} (h : m.group ≠ g) (pool : Nat) (b : Buffer) :
    (a.settle name m pool b).groups[g]? = a.groups[g]? :=
  List.getElem?_set_ne h

theorem isHeld_settle (ha : a.Valid) (hm : find? name a.buffers = some m) (pool : Nat) (b : Buffer)
    {g : Nat} (h : a.isHeld g = true) : (a.settle name m pool b).isHeld g = true := by
  obtain ⟨entry, hentry, hgroup⟩ := isHeld_iff.1 h
  rw [isHeld_iff]
  by_cases hname : entry.1 = name
  · refine ⟨_, Table.mem_put_self _ _ _, ?_⟩
    have hfind := Table.find?_of_mem ha.distinct (show (name, entry.2) ∈ a.buffers from hname ▸ hentry)
    rw [hm] at hfind
    cases hfind
    exact hgroup
  · exact ⟨entry, Table.mem_put_of_ne _ hentry hname, hgroup⟩

/-- A handle on the same group keeps its window, since a shared storage is never made smaller. -/
theorem fits_settle (ha : a.Valid) (hs : a.Seat name m e p)
    (hfollows : (a.bufferOf name m e p).Follows b) (hb : b.Valid) {entry : String × Member}
    (hentry : entry ∈ a.buffers) (hne : entry.1 ≠ name) :
    entry.2.Fits (a.settle name m e.pool b) := by
  obtain ⟨e', he', hhandle, hwindow⟩ := ha.members entry hentry
  by_cases hgroup : m.group = entry.2.group
  · rw [← hgroup, hs.estate] at he'
    cases he'
    refine ⟨_, hgroup ▸ groups_settle_self hs b, hhandle, fun live => ?_⟩
    obtain ⟨t, ht, -⟩ := hb.window live
    obtain ⟨s, hstorage, hmax, hcap⟩ := hfollows.storage t ht
    have hshared : a.isShared name m.group = true := hgroup ▸ isShared_of_mem hentry hne
    obtain ⟨s', hs', hon⟩ := hwindow ((ha.buffer hs).group.live s hstorage)
    have hsame : s' = s := Option.some.inj (hs'.symm.trans hstorage)
    rw [hsame] at hon
    exact ⟨t, ht, Nat.le_trans hon.window_le (hcap hshared), fun hfree => (hon.max_eq hfree).trans hmax.symm⟩
  · exact ⟨e', (groups_settle_ne hgroup _ b).trans he', hhandle, hwindow⟩

theorem Valid.settle (ha : a.Valid) (hs : a.Seat name m e p)
    (hfollows : (a.bufferOf name m e p).Follows b) (hb : b.Valid) :
    (a.settle name m e.pool b).Valid where
  pools q hq := by
    rcases List.mem_or_eq_of_mem_set hq with hq | rfl
    · exact ha.pools q hq
    · exact hb.pool
  estates e' he' := by
    change e'.pool < (a.pools.set _ _).length ∧ _
    rw [List.length_set]
    rcases List.mem_or_eq_of_mem_set he' with he' | rfl
    · exact ha.estates e' he'
    · exact ⟨lt_of_getElem? hs.pool, hb.group⟩
  distinct := Table.distinct_put ha.distinct _ _
  members entry hentry := by
    rcases Table.ne_of_mem_put ha.distinct hentry with rfl | ⟨hold, hne⟩
    · exact ⟨_, groups_settle_self hs b, hb.handle, hb.window⟩
    · exact fits_settle ha hs hfollows hb hold hne
  poolNames entry hentry := by
    change entry.2 < (a.pools.set _ _).length
    rw [List.length_set]
    exact ha.poolNames entry hentry
  allocators entry hentry := by
    change entry.2.pool < (a.pools.set _ _).length ∧ _
    rw [List.length_set]
    exact ha.allocators entry hentry

end Settle

section Changes

def setPool (i : Nat) (q : Pool) (a : Arena) : Arena := { a with pools := a.pools.set i q }

def addGroup (pool : Nat) (s : Storage) (a : Arena) : Arena :=
  { a with groups := a.groups ++ [⟨pool, .holding s⟩] }

def seatAt (name : String) (m : Member) (a : Arena) : Arena :=
  { a with buffers := put name m a.buffers }

def leave (name : String) (a : Arena) : Arena := { a with buffers := erase name a.buffers }

def vacate (g : Nat) (e : Estate) (p : Pool) (s : Storage) (a : Arena) : Arena :=
  { a with
    groups := a.groups.set g ⟨e.pool, { e.group with storage := none }⟩
    pools := a.pools.set e.pool (Pool.takeBack s p).state }

theorem groups_vacate_self {g : Nat} (he : a.groups[g]? = some e) (s : Storage) :
    (a.vacate g e p s).groups[g]? = some ⟨e.pool, { e.group with storage := none }⟩ :=
  List.getElem?_set_self (lt_of_getElem? he)

theorem groups_vacate_ne {g g' : Nat} (h : g ≠ g') (s : Storage) :
    (a.vacate g e p s).groups[g']? = a.groups[g']? :=
  List.getElem?_set_ne h

theorem poolAt_set_self {i : Nat} (hi : i < a.pools.length) (q : Pool) :
    (a.pools.set i q)[i]?.getD (.plain a.system) = q := by
  rw [List.getElem?_set_self hi, Option.getD_some]

theorem poolAt_set_ne {i k : Nat} (h : i ≠ k) (q : Pool) :
    (a.pools.set i q)[k]?.getD (.plain a.system) = a.poolAt k := by
  rw [List.getElem?_set_ne h, Arena.poolAt]

theorem fits_of_estate {a' : Arena} (h : m.Fits a)
    (hg : ∀ e, a.groups[m.group]? = some e → a'.groups[m.group]? = some e) : m.Fits a' := by
  obtain ⟨e, he, hhandle, hwindow⟩ := h
  exact ⟨e, hg e he, hhandle, hwindow⟩

theorem Valid.setPool (ha : a.Valid) {q : Pool} (hq : q.Valid) (i : Nat) : (a.setPool i q).Valid where
  pools r hr := by
    rcases List.mem_or_eq_of_mem_set hr with hr | rfl
    · exact ha.pools r hr
    · exact hq
  estates e he := by
    change e.pool < (a.pools.set i q).length ∧ _
    rw [List.length_set]
    exact ha.estates e he
  distinct := ha.distinct
  members entry hentry := fits_of_estate (ha.members entry hentry) fun _ he => he
  poolNames entry hentry := by
    change entry.2 < (a.pools.set i q).length
    rw [List.length_set]
    exact ha.poolNames entry hentry
  allocators entry hentry := by
    change entry.2.pool < (a.pools.set i q).length ∧ _
    rw [List.length_set]
    exact ha.allocators entry hentry

theorem Valid.addPool (ha : a.Valid) (hp : p.Valid) : ({ a with pools := a.pools ++ [p] } : Arena).Valid where
  pools q hq := by
    rcases List.mem_append.1 hq with hq | hq
    · exact ha.pools q hq
    · rw [List.mem_singleton.1 hq]
      exact hp
  estates e he := by
    rw [List.length_append]
    exact ⟨Nat.lt_add_right _ (ha.estates e he).1, (ha.estates e he).2⟩
  distinct := ha.distinct
  members entry hentry := fits_of_estate (ha.members entry hentry) fun _ he => he
  poolNames entry hentry := by
    rw [List.length_append]
    exact Nat.lt_add_right _ (ha.poolNames entry hentry)
  allocators entry hentry := by
    rw [List.length_append]
    exact ⟨Nat.lt_add_right _ (ha.allocators entry hentry).1, (ha.allocators entry hentry).2⟩

theorem valid_holding {s : Storage} (hs : s.Valid) : (Group.holding s).Valid where
  count_le := show 1 ≤ Word.largest by decide
  storage t ht := by
    cases ht
    exact ⟨hs, rfl⟩
  live t ht := Nat.one_pos

theorem Valid.addGroup (ha : a.Valid) {pool : Nat} (hpool : pool < a.pools.length) {s : Storage}
    (hs : s.Valid) : (a.addGroup pool s).Valid where
  pools := ha.pools
  estates e he := by
    rcases List.mem_append.1 he with he | he
    · exact ha.estates e he
    · rw [List.mem_singleton.1 he]
      exact ⟨hpool, valid_holding hs⟩
  distinct := ha.distinct
  members entry hentry := fits_of_estate (ha.members entry hentry) fun e he =>
    (List.getElem?_append_left (lt_of_getElem? he)).trans he
  poolNames := ha.poolNames
  allocators := ha.allocators

theorem Valid.seatAt (ha : a.Valid) (hm : m.Fits a) (name : String) : (a.seatAt name m).Valid where
  pools := ha.pools
  estates := ha.estates
  distinct := Table.distinct_put ha.distinct _ _
  members entry hentry := by
    rcases Table.mem_put hentry with rfl | hold
    · exact hm
    · exact ha.members entry hold
  poolNames := ha.poolNames
  allocators := ha.allocators

theorem Valid.leave (ha : a.Valid) (name : String) : (a.leave name).Valid where
  pools := ha.pools
  estates := ha.estates
  distinct := Table.distinct_erase ha.distinct name
  members entry hentry := ha.members entry (Table.mem_erase_iff.1 hentry).1
  poolNames := ha.poolNames
  allocators := ha.allocators

theorem ne_of_not_isHeld {g : Nat} (hfree : a.isHeld g = false) {entry : String × Member}
    (h : entry ∈ a.buffers) : g ≠ entry.2.group := by
  intro hg
  rw [isHeld_iff.2 ⟨entry, h, hg.symm⟩] at hfree
  simp at hfree

theorem Valid.vacate (ha : a.Valid) {g : Nat} (he : a.groups[g]? = some e)
    (hp : a.pools[e.pool]? = some p) (hfree : a.isHeld g = false) (s : Storage) :
    (a.vacate g e p s).Valid where
  pools q hq := by
    rcases List.mem_or_eq_of_mem_set hq with hq | rfl
    · exact ha.pools q hq
    · exact Pool.valid_takeBack (ha.pools p (List.mem_of_getElem? hp)) s
  estates e' he' := by
    change e'.pool < (a.pools.set _ _).length ∧ _
    rw [List.length_set]
    rcases List.mem_or_eq_of_mem_set he' with he' | rfl
    · exact ha.estates e' he'
    · obtain ⟨hpool, hgroup⟩ := ha.estates e (List.mem_of_getElem? he)
      refine ⟨hpool, hgroup.count_le, ?_, ?_⟩
      · intro t ht
        simp at ht
      · intro t ht
        simp at ht
  distinct := ha.distinct
  members entry hentry := fits_of_estate (ha.members entry hentry) fun e' he' =>
    (List.getElem?_set_ne (ne_of_not_isHeld hfree hentry)).trans he'
  poolNames entry hentry := by
    change entry.2 < (a.pools.set _ _).length
    rw [List.length_set]
    exact ha.poolNames entry hentry
  allocators entry hentry := by
    change entry.2.pool < (a.pools.set _ _).length ∧ _
    rw [List.length_set]
    exact ha.allocators entry hentry

end Changes

structure Return where
  pool : Nat
  group : Option Nat
  storage : Storage

def returnsTo (k : Nat) (back : List Return) : List Storage :=
  back.filterMap fun r => if r.pool = k then some r.storage else none

theorem returnsTo_append (k : Nat) (back more : List Return) :
    returnsTo k (back ++ more) = returnsTo k back ++ returnsTo k more := List.filterMap_append

theorem returnsTo_self (k : Nat) (g : Option Nat) (l : List Storage) :
    returnsTo k (l.map fun s => ⟨k, g, s⟩) = l := by
  simp only [returnsTo, List.filterMap_map, Function.comp_def, if_true, List.filterMap_some]

theorem returnsTo_ne {i k : Nat} (h : i ≠ k) (g : Option Nat) (l : List Storage) :
    returnsTo k (l.map fun s => ⟨i, g, s⟩) = [] := by
  simp [returnsTo, h]

/-- What a course of an arena amounts to: the names whose handles are used, the names that are given
or taken away, by group the bytes written and the references gained and lost, and the storages that
go back, in order. -/
structure Account where
  used : List String := []
  seated : List String := []
  written : Nat → Nat → Option UInt8 := fun _ _ => none
  gained : Nat → Nat := fun _ => 0
  lost : Nat → Nat := fun _ => 0
  back : List Return := []

namespace Account

def andThen (x y : Account) : Account where
  used := x.used ++ y.used
  seated := x.seated ++ y.seated
  written g p := (y.written g p).or (x.written g p)
  gained g := x.gained g + y.gained g
  lost g := x.lost g + y.lost g
  back := x.back ++ y.back

def use (name : String) (group : Nat) (f : Effect) : Account where
  used := [name]
  written g := if g = group then f.written else fun _ => none
  gained g := if g = group then f.gained else 0
  lost g := if g = group then f.lost else 0

theorem andThen_none (x : Account) : x.andThen {} = x := by
  simp only [andThen, Option.none_or, Nat.add_zero, List.append_nil]

theorem none_andThen (x : Account) : ({} : Account).andThen x = x := by
  simp only [andThen, Option.or_none, Nat.zero_add, List.nil_append]

theorem andThen_assoc (x y z : Account) : (x.andThen y).andThen z = x.andThen (y.andThen z) := by
  simp only [andThen, Option.or_assoc, Nat.add_assoc, List.append_assoc]

end Account

inductive Deed : Account → Arena → Arena → Prop
  | use {a : Arena} {name : String} {m : Member} {e : Estate} {p : Pool} (hs : a.Seat name m e p)
      {f : Effect} {b : Buffer} {log : List Event}
      (h : SharedBuffer.Course f (a.bufferOf name m e p) b log) :
      Deed { Account.use name m.group f with back := f.back.map fun s => ⟨e.pool, some m.group, s⟩ } a
        (a.settle name m e.pool b)
  | serve {a : Arena} {i : Nat} (hi : i < a.pools.length) {back : List Storage} {q : Pool}
      (h : Pool.Serves back (a.poolAt i) q) :
      Deed { back := back.map fun s => ⟨i, none, s⟩ } a (a.setPool i q)
  | addPool {a : Arena} {p : Pool} (hp : p.Valid) (hfresh : p.ledger = {}) :
      Deed {} a { a with pools := a.pools ++ [p] }
  | addGroup {a : Arena} {pool : Nat} (hpool : pool < a.pools.length) {s : Storage}
      (hs : s.Valid) : Deed {} a (a.addGroup pool s)
  | seatAt {a : Arena} {m : Member} (hm : m.Fits a) (name : String) :
      Deed { seated := [name] } a (a.seatAt name m)
  | leave {a : Arena} (name : String) : Deed { seated := [name] } a (a.leave name)
  | vacate {a : Arena} {g : Nat} {e : Estate} {p : Pool} {s : Storage}
      (he : a.groups[g]? = some e) (hp : a.pools[e.pool]? = some p) (hfree : a.isHeld g = false)
      (hs : e.group.storage = some s) :
      Deed { back := [⟨e.pool, some g, s⟩] } a (a.vacate g e p s)
  | tabulate {a : Arena} {names : Table Nat} {allocators : Table Allocator} (stores : Table Storage)
      (hnames : ∀ entry ∈ names, entry.2 < a.pools.length)
      (hallocators : ∀ entry ∈ allocators, entry.2.pool < a.pools.length ∧
        entry.2.config.maxCapacity ≤ Word.largest) :
      Deed {} a { a with poolNames := names, allocators := allocators, stores := stores }

/-- The references of a group, of which the first one comes with it. -/
def references (g : Nat) (a : Arena) : Nat := (a.groups[g]?.map fun e => e.group.count).getD 1

def storageAt (g : Nat) (a : Arena) : Option Storage := a.groups[g]?.bind fun e => e.group.storage

theorem references_of_some {g : Nat} (he : a.groups[g]? = some e) :
    a.references g = e.group.count := by
  rw [references, he]
  rfl

theorem storageAt_of_some {g : Nat} (he : a.groups[g]? = some e) :
    a.storageAt g = e.group.storage := by
  rw [storageAt, he]
  rfl

theorem references_congr {a' : Arena} {g : Nat} (h : a'.groups[g]? = a.groups[g]?) :
    a'.references g = a.references g := by rw [references, references, h]

theorem storageAt_congr {a' : Arena} {g : Nat} (h : a'.groups[g]? = a.groups[g]?) :
    a'.storageAt g = a.storageAt g := by rw [storageAt, storageAt, h]

theorem Valid.storage_of_member (ha : a.Valid) (hm : find? name a.buffers = some m)
    (live : 0 < a.references m.group) : ∃ t, a.storageAt m.group = some t := by
  obtain ⟨e, he, -, hwindow⟩ := ha.members _ (Table.mem_of_find? hm)
  rw [references_of_some he] at live
  obtain ⟨t, ht, -⟩ := hwindow live
  exact ⟨t, by rw [storageAt_of_some he]; exact ht⟩

structure Keeps (x : Account) (a a' : Arena) : Prop where
  back : ∀ r ∈ x.back, r.group = none
  same : ∀ g < a.groups.length,
    (a'.storageAt g).map Storage.shape = (a.storageAt g).map Storage.shape

structure Ends (x : Account) (r : Return) (g : Nat) (a a' : Arena) : Prop where
  back : x.back = [r]
  group : r.group = some g
  pool : ∃ e, a.groups[g]? = some e ∧ e.pool = r.pool
  held : ∃ s, a.storageAt g = some s ∧ s.shape = r.storage.shape
  ended : ∀ t, a'.storageAt g = some t → t.capacity ≠ r.storage.capacity
  same : ∀ g' < a.groups.length, g' ≠ g →
    (a'.storageAt g').map Storage.shape = (a.storageAt g').map Storage.shape

namespace Deed

variable {x : Account} {a' : Arena}

theorem valid (h : Deed x a a') (ha : a.Valid) : a'.Valid := by
  cases h with
  | use hs h => exact ha.settle hs (h.follows (ha.buffer hs)) (h.valid (ha.buffer hs))
  | @serve _ i hi back q h =>
    refine ha.setPool (h.valid ?_) i
    obtain ⟨p, hp⟩ := getElem?_of_lt hi
    rw [Arena.poolAt, hp]
    exact ha.pools p (List.mem_of_getElem? hp)
  | addPool hp hfresh => exact ha.addPool hp
  | addGroup hpool hs => exact ha.addGroup hpool hs
  | seatAt hm name => exact ha.seatAt hm name
  | leave name => exact ha.leave name
  | vacate he hp hfree hs => exact ha.vacate he hp hfree _
  | tabulate stores hnames hallocators =>
    exact ⟨ha.pools, ha.estates, ha.distinct,
      fun entry hentry => fits_of_estate (ha.members entry hentry) fun _ he => he, hnames, hallocators⟩

theorem groups (h : Deed x a a') (ha : a.Valid) {g : Nat} (he : a.groups[g]? = some e) :
    ∃ e', a'.groups[g]? = some e' ∧ e'.pool = e.pool ∧ e'.group.kind = e.group.kind := by
  cases h with
  | @use _ name m e' p hs f b log h =>
    by_cases hg : m.group = g
    · rw [← hg, hs.estate, Option.some.injEq] at he
      rw [← hg, ← he]
      exact ⟨_, groups_settle_self hs b, rfl, (h.follows (ha.buffer hs)).kind⟩
    · exact ⟨e, (groups_settle_ne hg _ b).trans he, rfl, rfl⟩
  | addGroup hpool hs =>
    exact ⟨e, (List.getElem?_append_left (lt_of_getElem? he)).trans he, rfl, rfl⟩
  | @vacate _ g' e' p s he' hp hfree hs =>
    by_cases hg : g' = g
    · rw [← hg, he', Option.some.injEq] at he
      rw [← hg, ← he]
      exact ⟨_, groups_vacate_self he' s, rfl, rfl⟩
    · exact ⟨e, (groups_vacate_ne hg s).trans he, rfl, rfl⟩
  | _ => exact ⟨e, he, rfl, rfl⟩

theorem pools_length (h : Deed x a a') : a.pools.length ≤ a'.pools.length := by
  cases h with
  | @addPool _ p hp hfresh =>
    change a.pools.length ≤ (a.pools ++ [p]).length
    rw [List.length_append]
    exact Nat.le_add_right _ _
  | use hs h => exact Nat.le_of_eq (List.length_set).symm
  | serve hi h => exact Nat.le_of_eq (List.length_set).symm
  | vacate he hp hfree hs => exact Nat.le_of_eq (List.length_set).symm
  | _ => exact Nat.le_refl _

theorem count (h : Deed x a a') (g : Nat) :
    a'.references g + x.lost g = a.references g + x.gained g := by
  cases h with
  | @use _ name m e p hs f b log h =>
    simp only [Account.use]
    by_cases hg : g = m.group
    · rw [if_pos hg, if_pos hg, hg, references_of_some (groups_settle_self hs b),
        references_of_some hs.estate]
      exact h.count
    · rw [if_neg hg, if_neg hg, references_congr (groups_settle_ne (fun h => hg h.symm) _ b)]
  | addGroup hpool hs =>
    simp only [Nat.add_zero]
    by_cases hg : g < a.groups.length
    · rw [references_congr (List.getElem?_append_left hg)]
    · have hnone : a.groups[g]? = none := List.getElem?_eq_none (Nat.le_of_not_lt hg)
      rw [references, references, hnone, Arena.addGroup, List.getElem?_append_right (Nat.le_of_not_lt hg)]
      rcases g - a.groups.length with _ | n
      · rfl
      · rfl
  | @vacate _ g' e p s he hp hfree hs =>
    simp only [Nat.add_zero]
    by_cases hg : g' = g
    · rw [← hg, references_of_some he]
      have hcount := references_of_some (groups_vacate_self (p := p) he s)
      exact hcount
    · exact references_congr (groups_vacate_ne hg s)
  | _ => rfl

theorem groups_length (h : Deed x a a') : a.groups.length ≤ a'.groups.length := by
  cases h with
  | @addGroup _ pool hpool s hs =>
    change a.groups.length ≤ (a.groups ++ [(⟨pool, .holding s⟩ : Estate)]).length
    rw [List.length_append]
    exact Nat.le_add_right _ _
  | use hs h => exact Nat.le_of_eq (List.length_set).symm
  | vacate he hp hfree hs => exact Nat.le_of_eq (List.length_set).symm
  | _ => exact Nat.le_refl _

theorem serves (h : Deed x a a') {k : Nat} (hk : k < a.pools.length) :
    Pool.Serves (returnsTo k x.back) (a.poolAt k) (a'.poolAt k) := by
  cases h with
  | @use _ name m e p hs f b log h =>
    by_cases hpool : e.pool = k
    · have hat : (a.settle name m e.pool b).poolAt e.pool = b.pool :=
        poolAt_set_self (lt_of_getElem? hs.pool) b.pool
      rw [← hpool, returnsTo_self, hs.poolAt, hat]
      exact h.serves
    · have hat : (a.settle name m e.pool b).poolAt k = a.poolAt k := poolAt_set_ne hpool b.pool
      rw [returnsTo_ne hpool, hat]
      exact .refl _
  | @serve _ i hi back q h =>
    by_cases hpool : i = k
    · have hat : (a.setPool i q).poolAt i = q := poolAt_set_self hi q
      rw [← hpool, returnsTo_self, hat]
      exact h
    · have hat : (a.setPool i q).poolAt k = a.poolAt k := poolAt_set_ne hpool q
      rw [returnsTo_ne hpool, hat]
      exact .refl _
  | @addPool _ p hp hfresh =>
    have hat : Arena.poolAt k { a with pools := a.pools ++ [p] } = a.poolAt k := by
      rw [Arena.poolAt, List.getElem?_append_left hk, Arena.poolAt]
    rw [hat]
    exact .refl _
  | @vacate _ g e p s he hp hfree hs =>
    have hback := returnsTo_self e.pool (some g) [s]
    by_cases hpool : e.pool = k
    · have hold : a.poolAt e.pool = p := by rw [Arena.poolAt, hp, Option.getD_some]
      have hat : (a.vacate g e p s).poolAt e.pool = (Pool.takeBack s p).state :=
        poolAt_set_self (lt_of_getElem? hp) _
      rw [← hpool, hold, hat]
      exact hback ▸ (Pool.Serves.refl p).takeBack s
    · have hat : (a.vacate g e p s).poolAt k = a.poolAt k := poolAt_set_ne hpool _
      rw [hat]
      exact returnsTo_ne hpool (some g) [s] ▸ .refl _
  | _ => exact .refl _

/-- A new pool has nothing to count yet, so that the number of storages taken back tells for every
pool what went back to it. -/
theorem reclaimed (h : Deed x a a') (k : Nat) : (a'.poolAt k).ledger.reclaimedLeases =
    Word.countOn (a.poolAt k).ledger.reclaimedLeases (returnsTo k x.back).length := by
  by_cases hk : k < a.pools.length
  · exact (h.serves hk).reclaimed
  have hne : ∀ {i}, i < a.pools.length → i ≠ k := by
    intro i hi hik
    omega
  cases h with
  | @use _ name m e p hs f b log h =>
    have hpool := hne (lt_of_getElem? hs.pool)
    have hat : (a.settle name m e.pool b).poolAt k = a.poolAt k := poolAt_set_ne hpool b.pool
    rw [returnsTo_ne hpool, hat]
    rfl
  | @serve _ i hi back q h =>
    have hat : (a.setPool i q).poolAt k = a.poolAt k := poolAt_set_ne (hne hi) q
    rw [returnsTo_ne (hne hi), hat]
    rfl
  | @addPool _ p hp hfresh =>
    have hold : a.poolAt k = .plain a.system := by
      rw [Arena.poolAt, List.getElem?_eq_none (Nat.le_of_not_lt hk), Option.getD_none]
    rw [hold, Arena.poolAt, List.getElem?_append_right (Nat.le_of_not_lt hk)]
    rcases k - a.pools.length with _ | n
    · exact congrArg Ledger.reclaimedLeases hfresh
    · rfl
  | @vacate _ g e p s he hp hfree hs =>
    have hpool := hne (lt_of_getElem? hp)
    have hat : (a.vacate g e p s).poolAt k = a.poolAt k := poolAt_set_ne hpool _
    have hback := returnsTo_ne hpool (some g) [s]
    rw [List.map_singleton] at hback
    rw [hback, hat]
    rfl
  | _ => rfl

theorem isolated (h : Deed x a a') (ha : a.Valid) (hm : find? name a.buffers = some m)
    (hused : name ∉ x.used) (hseated : name ∉ x.seated) :
    find? name a'.buffers = some m ∧
      ∀ t, a'.storageAt m.group = some t → ∃ s, a.storageAt m.group = some s ∧
        ∀ j < m.handle.capacity, t.bytes[m.handle.offset + j]? =
          (x.written m.group (m.handle.offset + j)).or s.bytes[m.handle.offset + j]? := by
  have hmem := Table.mem_of_find? hm
  have hkeep : a'.storageAt m.group = a.storageAt m.group → x.written m.group = (fun _ => none) →
      ∀ t, a'.storageAt m.group = some t → ∃ s, a.storageAt m.group = some s ∧
        ∀ j < m.handle.capacity, t.bytes[m.handle.offset + j]? =
          (x.written m.group (m.handle.offset + j)).or s.bytes[m.handle.offset + j]? := by
    intro hsame hnone t ht
    refine ⟨t, hsame ▸ ht, fun j _ => ?_⟩
    rw [hnone, Option.none_or]
  cases h with
  | @use _ user u e p hs f b log h =>
    have hne : user ≠ name := fun h => hused (h ▸ List.mem_singleton_self _)
    refine ⟨(Table.find?_put_of_ne hne _ _).trans hm, ?_⟩
    by_cases hg : m.group = u.group
    · intro t ht
      have hshared : a.isShared user u.group = true := hg ▸ isShared_of_mem hmem (Ne.symm hne)
      rw [hg, storageAt_of_some (groups_settle_self hs b)] at ht
      obtain ⟨s, hstorage, -, hcap⟩ := (h.follows (ha.buffer hs)).storage t ht
      refine ⟨s, by rw [hg, storageAt_of_some hs.estate]; exact hstorage, fun j hj => ?_⟩
      obtain ⟨e', he', -, hwindow⟩ : m.Fits a := ha.members _ hmem
      have he'' : a.groups[u.group]? = some e' := hg ▸ he'
      rw [hs.estate, Option.some.injEq] at he''
      obtain ⟨s', hs', hon⟩ := hwindow (he'' ▸ (ha.buffer hs).group.live s hstorage)
      rw [← he''] at hs'
      have hsame : s' = s := Option.some.inj (hs'.symm.trans hstorage)
      have hw := hon.window_le
      rw [hsame] at hw
      simp only [Account.use, if_pos hg]
      exact h.bytes (ha.buffer hs) hshared hstorage ht (by omega)
    · apply hkeep (storageAt_congr (groups_settle_ne (fun h => hg h.symm) _ b))
      simp only [Account.use, if_neg hg]
  | addGroup hpool hs =>
    obtain ⟨e', he', -⟩ := ha.members _ hmem
    exact ⟨hm, hkeep (storageAt_congr (List.getElem?_append_left (lt_of_getElem? he'))) rfl⟩
  | seatAt hu user =>
    have hne : user ≠ name := fun h => hseated (h ▸ List.mem_singleton_self _)
    exact ⟨(Table.find?_put_of_ne hne _ _).trans hm, hkeep rfl rfl⟩
  | leave user =>
    have hne : user ≠ name := fun h => hseated (h ▸ List.mem_singleton_self _)
    exact ⟨(Table.find?_erase_of_ne hne _).trans hm, hkeep rfl rfl⟩
  | vacate he hp hfree hs =>
    exact ⟨hm, hkeep (storageAt_congr (groups_vacate_ne (ne_of_not_isHeld hfree hmem) _)) rfl⟩
  | _ => exact ⟨hm, hkeep rfl rfl⟩

theorem stays (h : Deed x a a') (ha : a.Valid) (hm : find? name a.buffers = some m)
    (hseated : name ∉ x.seated) : ∃ m', find? name a'.buffers = some m' ∧ m.Persists m' := by
  cases h with
  | @use _ user u e p hs f b log h =>
    by_cases hname : user = name
    · rw [← hname, hs.member, Option.some.injEq] at hm
      have hfollows := h.follows (ha.buffer hs)
      refine ⟨⟨u.group, b.handle⟩, ?_, hm ▸ ?_⟩
      · rw [← hname]
        exact Table.find?_put_self _ _ _
      · exact ⟨rfl, hfollows.offset, hfollows.maxCapacity, hfollows.readOnly, hfollows.origin⟩
    · exact ⟨m, (Table.find?_put_of_ne hname _ _).trans hm, m.persists_refl⟩
  | seatAt hu user =>
    have hne : user ≠ name := fun h => hseated (h ▸ List.mem_singleton_self _)
    exact ⟨m, (Table.find?_put_of_ne hne _ _).trans hm, m.persists_refl⟩
  | leave user =>
    have hne : user ≠ name := fun h => hseated (h ▸ List.mem_singleton_self _)
    exact ⟨m, (Table.find?_erase_of_ne hne _).trans hm, m.persists_refl⟩
  | _ => exact ⟨m, hm, m.persists_refl⟩

/-- A deed by which at most one storage goes back either leaves all storages with their groups, or
it goes back from a group that had it and then has none or one of another capacity. -/
theorem custody (h : Deed x a a') (ha : a.Valid) (hone : x.back.length ≤ 1) :
    Keeps x a a' ∨ ∃ r g, Ends x r g a a' := by
  cases h with
  | @use _ name m e p hs f b log h =>
    have hother : ∀ g ≠ m.group, (a.settle name m e.pool b).storageAt g = a.storageAt g :=
      fun g hg => storageAt_congr (groups_settle_ne (Ne.symm hg) _ b)
    have hself := storageAt_of_some (groups_settle_self hs b)
    rw [List.length_map] at hone
    rcases h.custody (ha.buffer hs) hone with ⟨hback, hshape⟩ | ⟨s, t, hback, ht, hshape, hnew⟩
    · refine .inl ⟨fun r hr => ?_, fun g _ => ?_⟩
      · rw [hback] at hr
        simp at hr
      · by_cases hg : g = m.group
        · rw [hg, hself, storageAt_of_some hs.estate]
          exact hshape
        · rw [hother g hg]
    · refine .inr ⟨⟨e.pool, some m.group, s⟩, m.group, ?_, rfl, ⟨e, hs.estate, rfl⟩, ⟨t, ?_, hshape⟩, ?_, ?_⟩
      · rw [hback]
        rfl
      · rw [storageAt_of_some hs.estate]
        exact ht
      · intro u hu
        rw [hself] at hu
        exact hnew u hu
      · intro g _ hg
        rw [hother g hg]
  | serve hi h =>
    refine .inl ⟨fun r hr => ?_, fun _ _ => rfl⟩
    obtain ⟨s, -, rfl⟩ := List.mem_map.1 hr
    rfl
  | addGroup hpool hs =>
    refine .inl ⟨fun r hr => (List.not_mem_nil hr).elim, fun g hg => ?_⟩
    rw [storageAt_congr (List.getElem?_append_left hg)]
  | @vacate _ g e p s he hp hfree hs =>
    refine .inr ⟨_, g, rfl, rfl, ⟨e, he, rfl⟩, ⟨s, ?_, rfl⟩, ?_, ?_⟩
    · rw [storageAt_of_some he]
      exact hs
    · intro t ht
      rw [storageAt_of_some (groups_vacate_self he s)] at ht
      simp at ht
    · intro g' _ hg
      rw [storageAt_congr (groups_vacate_ne (Ne.symm hg) s)]
  | _ => exact .inl ⟨fun r hr => (List.not_mem_nil hr).elim, fun _ _ => rfl⟩

end Deed

inductive Course : Account → Arena → Arena → Prop
  | refl (a : Arena) : Course {} a a
  | step {x y : Account} {a b c : Arena} (prior : Course x a b) (deed : Deed y b c) :
      Course (x.andThen y) a c

theorem Deed.course {x : Account} {a' : Arena} (h : Deed x a a') : Course x a a' := by
  simpa only [Account.none_andThen] using (Course.refl a).step h

namespace Course

variable {x y : Account} {c d : Arena}

theorem trans (h : Course x a c) (h' : Course y c d) : Course (x.andThen y) a d := by
  induction h' with
  | refl c => simpa only [Account.andThen_none] using h
  | step prior deed ih => simpa only [Account.andThen_assoc] using (ih h).step deed

theorem valid (h : Course x a c) (ha : a.Valid) : c.Valid := by
  induction h with
  | refl a => exact ha
  | step prior deed ih => exact deed.valid (ih ha)

theorem groups (h : Course x a c) (ha : a.Valid) {g : Nat} (he : a.groups[g]? = some e) :
    ∃ e', c.groups[g]? = some e' ∧ e'.pool = e.pool ∧ e'.group.kind = e.group.kind := by
  induction h with
  | refl a => exact ⟨e, he, rfl, rfl⟩
  | step prior deed ih =>
    obtain ⟨e₁, he₁, hpool₁, hkind₁⟩ := ih ha he
    obtain ⟨e₂, he₂, hpool₂, hkind₂⟩ := deed.groups (prior.valid ha) he₁
    exact ⟨e₂, he₂, hpool₂.trans hpool₁, hkind₂.trans hkind₁⟩

theorem pools_length (h : Course x a c) : a.pools.length ≤ c.pools.length := by
  induction h with
  | refl a => exact Nat.le_refl _
  | step prior deed ih => exact Nat.le_trans ih deed.pools_length

theorem groups_length (h : Course x a c) : a.groups.length ≤ c.groups.length := by
  induction h with
  | refl a => exact Nat.le_refl _
  | step prior deed ih => exact Nat.le_trans ih deed.groups_length

theorem count (h : Course x a c) (g : Nat) :
    c.references g + x.lost g = a.references g + x.gained g := by
  induction h with
  | refl a => rfl
  | step prior deed ih =>
    have hdeed := deed.count g
    simp only [Account.andThen]
    omega

theorem serves (h : Course x a c) {k : Nat} (hk : k < a.pools.length) :
    Pool.Serves (returnsTo k x.back) (a.poolAt k) (c.poolAt k) := by
  induction h with
  | refl a => exact .refl _
  | step prior deed ih =>
    rw [Account.andThen, returnsTo_append]
    exact (ih hk).trans (deed.serves (Nat.lt_of_lt_of_le hk prior.pools_length))

theorem reclaimed (h : Course x a c) (k : Nat) : (c.poolAt k).ledger.reclaimedLeases =
    Word.countOn (a.poolAt k).ledger.reclaimedLeases (returnsTo k x.back).length := by
  induction h with
  | refl a => rfl
  | step prior deed ih =>
    rw [deed.reclaimed k, ih, Account.andThen, returnsTo_append, List.length_append, Word.countOn_add]

theorem isolated (h : Course x a c) (ha : a.Valid) (hm : find? name a.buffers = some m)
    (hused : name ∉ x.used) (hseated : name ∉ x.seated) :
    find? name c.buffers = some m ∧
      ∀ t, c.storageAt m.group = some t → ∃ s, a.storageAt m.group = some s ∧
        ∀ j < m.handle.capacity, t.bytes[m.handle.offset + j]? =
          (x.written m.group (m.handle.offset + j)).or s.bytes[m.handle.offset + j]? := by
  induction h with
  | refl a => exact ⟨hm, fun t ht => ⟨t, ht, fun j _ => (Option.none_or).symm⟩⟩
  | step prior deed ih =>
    simp only [Account.andThen, List.mem_append, not_or] at hused hseated
    obtain ⟨hmid, hold⟩ := ih ha hm hused.1 hseated.1
    obtain ⟨hend, hnew⟩ := deed.isolated (prior.valid ha) hmid hused.2 hseated.2
    refine ⟨hend, fun t ht => ?_⟩
    obtain ⟨u, hu, hbytes⟩ := hnew t ht
    obtain ⟨s, hs, hbytes'⟩ := hold u hu
    refine ⟨s, hs, fun j hj => ?_⟩
    rw [hbytes j hj, hbytes' j hj, Account.andThen, Option.or_assoc]

theorem stays (h : Course x a c) (ha : a.Valid) (hm : find? name a.buffers = some m)
    (hseated : name ∉ x.seated) : ∃ m', find? name c.buffers = some m' ∧ m.Persists m' := by
  induction h with
  | refl a => exact ⟨m, hm, m.persists_refl⟩
  | step prior deed ih =>
    simp only [Account.andThen, List.mem_append, not_or] at hseated
    obtain ⟨m₁, hm₁, hfirst⟩ := ih ha hm hseated.1
    obtain ⟨m₂, hm₂, hsecond⟩ := deed.stays (prior.valid ha) hm₁ hseated.2
    exact ⟨m₂, hm₂, hfirst.trans hsecond⟩

theorem keeps_trans (h : Course x a c) (hx : Keeps x a c) (hy : Keeps y c d) :
    Keeps (x.andThen y) a d where
  back r hr := by
    rcases List.mem_append.1 hr with hr | hr
    · exact hx.back r hr
    · exact hy.back r hr
  same g hg := (hy.same g (Nat.lt_of_lt_of_le hg h.groups_length)).trans (hx.same g hg)

variable {r : Return} {g : Nat}

theorem keeps_ends (h : Course x a c) (ha : a.Valid) (hx : Keeps x a c) (hback : x.back = [])
    (hy : Ends y r g c d) (hg : g < a.groups.length) : Ends (x.andThen y) r g a d where
  back := by
    rw [Account.andThen, hback, hy.back]
    rfl
  group := hy.group
  pool := by
    obtain ⟨e, he⟩ := getElem?_of_lt hg
    obtain ⟨e₁, he₁, hpool₁, -⟩ := h.groups ha he
    obtain ⟨e₂, he₂, hpool₂⟩ := hy.pool
    rw [he₁] at he₂
    cases he₂
    exact ⟨e, he, hpool₁.symm.trans hpool₂⟩
  held := by
    obtain ⟨s, hs, hshape⟩ := hy.held
    have hsame := hx.same g hg
    rw [hs] at hsame
    obtain ⟨t, ht, htshape⟩ := Option.map_eq_some_iff.1 hsame.symm
    exact ⟨t, ht, htshape.trans hshape⟩
  ended := hy.ended
  same g' hg' hne :=
    (hy.same g' (Nat.lt_of_lt_of_le hg' h.groups_length) hne).trans (hx.same g' hg')

theorem ends_keeps (h : Course x a c) (hx : Ends x r g a c) (hy : Keeps y c d)
    (hback : y.back = []) : Ends (x.andThen y) r g a d where
  back := by
    rw [Account.andThen, hback, hx.back]
    rfl
  group := hx.group
  pool := hx.pool
  held := hx.held
  ended t ht := by
    obtain ⟨e, he, -⟩ := hx.pool
    have hsame := hy.same g (Nat.lt_of_lt_of_le (lt_of_getElem? he) h.groups_length)
    rw [ht] at hsame
    obtain ⟨u, hu, hushape⟩ := Option.map_eq_some_iff.1 hsame.symm
    rw [← (Storage.shape_eq_iff.1 hushape).2.1]
    exact hx.ended u hu
  same g' hg' hne :=
    (hy.same g' (Nat.lt_of_lt_of_le hg' h.groups_length)).trans (hx.same g' hg' hne)

theorem custody (h : Course x a c) (ha : a.Valid) (hone : x.back.length ≤ 1)
    (hold : ∀ r ∈ x.back, ∀ g, r.group = some g → g < a.groups.length) :
    Keeps x a c ∨ ∃ r g, Ends x r g a c := by
  induction h with
  | refl a => exact .inl ⟨fun r hr => (List.not_mem_nil hr).elim, fun _ _ => rfl⟩
  | @step x y a b c prior deed ih =>
    simp only [Account.andThen, List.length_append, List.mem_append] at hone hold
    rcases ih ha (by omega) (fun r hr => hold r (.inl hr)) with hkeeps | ⟨r, g, hends⟩
    · rcases deed.custody (prior.valid ha) (by omega) with hkeeps' | ⟨r, g, hends'⟩
      · exact .inl (prior.keeps_trans hkeeps hkeeps')
      · have hy := hends'.back
        rw [hy, List.length_singleton] at hone
        have hx : x.back = [] := List.length_eq_zero_iff.1 (by omega)
        have hg : g < a.groups.length := hold r (.inr (by simp [hy])) g hends'.group
        exact .inr ⟨r, g, prior.keeps_ends ha hkeeps hx hends' hg⟩
    · have hx := hends.back
      rw [hx, List.length_singleton] at hone
      have hy : y.back = [] := List.length_eq_zero_iff.1 (by omega)
      rcases deed.custody (prior.valid ha) (by omega) with hkeeps' | ⟨r', g', hends'⟩
      · exact .inr ⟨r, g, prior.ends_keeps hends hkeeps' hy⟩
      · rw [hends'.back] at hy
        simp at hy

end Course

end Arena

end SharedBuffer
