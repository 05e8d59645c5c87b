import SharedBuffer.Proofs.Commands
import SharedBuffer.Proofs.Recycling

/-!
Which pool lends does not show. Main statement: a program gives step by step the same answers, and
leaves the same handles, counts and bytes, when slab pools of any size and any past stand where plain
ones stood; only what is asked about the pools themselves may be answered differently.
-/

namespace SharedBuffer

open Table (find?)

namespace Table

variable {α β : Type}

def mapValues (f : α → β) (t : Table α) : Table β := t.map fun entry => (entry.1, f entry.2)

theorem find?_mapValues (f : α → β) (name : String) (t : Table α) :
    find? name (t.mapValues f) = (find? name t).map f := by
  induction t with
  | nil => rfl
  | cons entry rest ih =>
    rw [mapValues, List.map_cons, find?, find?]
    split
    · rfl
    · exact ih

theorem mapValues_put (f : α → β) (name : String) (v : α) (t : Table α) :
    (put name v t).mapValues f = put name (f v) (t.mapValues f) := by
  induction t with
  | nil => rfl
  | cons entry rest ih =>
    rw [mapValues, mapValues, List.map_cons, put, put]
    split
    · rfl
    · exact congrArg _ ih

end Table

def Config.unpooled (c : Config) : Config := { c with pooling := .unpooled }

def Allocator.unpooled (al : Allocator) : Allocator := { al with config := al.config.unpooled }

namespace Arena

/-- The system, handles, groups with their counts and bytes, and storages on loan are the same; pools
and what allocators say about pooling may differ. -/
structure Alike (a c : Arena) : Prop where
  system : a.system = c.system
  buffers : a.buffers = c.buffers
  groups : a.groups = c.groups
  stores : a.stores = c.stores
  poolNames : a.poolNames = c.poolNames
  allocators : a.allocators.mapValues Allocator.unpooled = c.allocators.mapValues Allocator.unpooled
  pools : a.pools.length = c.pools.length

structure Orderly (sys : System) (a : Arena) : Prop where
  system : a.system = sys
  pools : ∀ p ∈ a.pools, p.Seasoned ∧ p.system = sys
  groups : ∀ e ∈ a.groups, ∀ s, e.group.storage = some s → s.Granted sys
  stores : ∀ entry ∈ a.stores, entry.2.Granted sys

structure Twin (sys : System) (a c : Arena) : Prop where
  alike : Alike a c
  left : a.Orderly sys
  right : c.Orderly sys

variable {sys : System} {a c : Arena} {i g : Nat} {s : Storage} {name : String}

namespace Orderly

theorem poolAt (ha : a.Orderly sys) (i : Nat) :
    (a.poolAt i).Seasoned ∧ (a.poolAt i).system = sys := by
  rw [Arena.poolAt]
  cases hp : a.pools[i]? with
  | none => exact ⟨.new none a.system, ha.system⟩
  | some p => exact ha.pools p (List.mem_of_getElem? hp)

theorem setPool (ha : a.Orderly sys) {q : Pool} (hq : q.Seasoned ∧ q.system = sys) (i : Nat) :
    (a.setPool i q).Orderly sys := by
  refine ⟨ha.system, fun p hp => ?_, ha.groups, ha.stores⟩
  rcases List.mem_or_eq_of_mem_set hp with hp | rfl
  · exact ha.pools p hp
  · exact hq

theorem addPool (ha : a.Orderly sys) {q : Pool} (hq : q.Seasoned ∧ q.system = sys) :
    ({ a with pools := a.pools ++ [q] } : Arena).Orderly sys := by
  refine ⟨ha.system, fun p hp => ?_, ha.groups, ha.stores⟩
  rcases List.mem_append.1 hp with hp | hp
  · exact ha.pools p hp
  · rw [List.mem_singleton.1 hp]
    exact hq

theorem addGroup (ha : a.Orderly sys) (hs : s.Granted sys) (i : Nat) :
    (a.addGroup i s).Orderly sys := by
  refine ⟨ha.system, ha.pools, fun e he t ht => ?_, ha.stores⟩
  rcases List.mem_append.1 he with he | he
  · exact ha.groups e he t ht
  · rw [List.mem_singleton.1 he] at ht
    cases ht
    exact hs

theorem granted_put (ha : a.Orderly sys) (hs : s.Granted sys) (name : String) :
    ∀ entry ∈ a.stores.put name s, entry.2.Granted sys := by
  intro entry hentry
  rcases Table.mem_put hentry with rfl | hold
  · exact hs
  · exact ha.stores entry hold

theorem restore (ha : a.Orderly sys) {b : Buffer} (hpool : b.pool.Seasoned ∧ b.pool.system = sys)
    (hb : ∀ s, b.group.storage = some s → s.Granted sys) (g i : Nat) :
    (a.restore g i b).Orderly sys := by
  have hset := ha.setPool hpool i
  refine ⟨ha.system, hset.pools, fun e he t ht => ?_, ha.stores⟩
  rcases List.mem_or_eq_of_mem_set he with he | rfl
  · exact ha.groups e he t ht
  · exact hb t ht

end Orderly

open SharedBuffer.Action (Agrees)

variable {α β : Type} {R : α → β → Prop}

section Primitives

theorem Twin.restore (h : Twin sys a c) {b d : Buffer} (hbd : Buffer.Twin sys b d) (g i : Nat) :
    Twin sys (a.restore g i b) (c.restore g i d) := by
  obtain ⟨q, rfl⟩ := hbd.eq_withPool
  refine ⟨⟨h.alike.system, h.alike.buffers, ?_, h.alike.stores, h.alike.poolNames,
    h.alike.allocators, ?_⟩, ?_, ?_⟩
  · exact congrArg (·.set g ⟨i, b.group⟩) h.alike.groups
  · simp only [Arena.restore, List.length_set]
    exact h.alike.pools
  · exact h.left.restore ⟨hbd.pools.left, hbd.pools.leftSystem⟩ hbd.granted g i
  · exact h.right.restore ⟨hbd.pools.right, hbd.pools.rightSystem⟩ hbd.granted g i

theorem Twin.withBuffers (h : Twin sys a c) (t : Table Member) :
    Twin sys { a with buffers := t } { c with buffers := t } := by
  obtain ⟨h, hleft, hright⟩ := h
  exact ⟨⟨h.system, rfl, h.groups, h.stores, h.poolNames, h.allocators, h.pools⟩,
    ⟨hleft.system, hleft.pools, hleft.groups, hleft.stores⟩,
    ⟨hright.system, hright.pools, hright.groups, hright.stores⟩⟩

theorem Twin.mapStores (h : Twin sys a c) (f : Table Storage → Table Storage)
    (hf : ∀ entry ∈ f c.stores, entry.2.Granted sys) :
    Twin sys { a with stores := f a.stores } { c with stores := f c.stores } := by
  obtain ⟨h, hleft, hright⟩ := h
  exact ⟨⟨h.system, h.buffers, h.groups, congrArg f h.stores, h.poolNames, h.allocators, h.pools⟩,
    ⟨hleft.system, hleft.pools, hleft.groups, h.stores ▸ hf⟩,
    ⟨hright.system, hright.pools, hright.groups, hf⟩⟩

theorem agrees_buffers (f : Table Member → Table Member) :
    Agrees (Twin sys) (· = ·)
      (Action.modify fun a => { a with buffers := f a.buffers } : Action Failure Arena Unit)
      (Action.modify fun a => { a with buffers := f a.buffers }) :=
  Action.agrees_modify fun a _ h => h.alike.buffers ▸ h.withBuffers (f a.buffers)

theorem agrees_require {t : Arena → Table α} (ht : ∀ a c, Twin sys a c → t a = t c) (P : α → Prop)
    (hP : ∀ a c, Twin sys a c → ∀ entry ∈ t c, P entry.2) (name : String) :
    Agrees (Twin sys) (fun v w => v = w ∧ P v) (require t name) (require t name) := by
  refine Action.agrees_ask fun a c h => ?_
  rw [ht a c h]
  exact sameUpTo_refl fun v hv => ⟨rfl, hP a c h _ (Table.mem_of_find? (find?_of_require hv))⟩

theorem agrees_member (name : String) :
    Agrees (Twin sys) (· = ·) (require buffers name) (require buffers name) :=
  (agrees_require (fun _ _ h => h.alike.buffers) (fun _ => True) (fun _ _ _ _ _ => trivial) name).mono
    fun _ _ h => h.1

theorem agrees_poolName (name : String) :
    Agrees (Twin sys) (· = ·) (require poolNames name) (require poolNames name) :=
  (agrees_require (fun _ _ h => h.alike.poolNames) (fun _ => True) (fun _ _ _ _ _ => trivial) name).mono
    fun _ _ h => h.1

theorem agrees_store (name : String) :
    Agrees (Twin sys) (Pool.Alike sys) (require stores name) (require stores name) :=
  agrees_require (fun _ _ h => h.alike.stores) _ (fun _ _ h => h.right.stores) name

theorem agrees_allocator (name : String) :
    Agrees (Twin sys) (fun al al' => al.unpooled = al'.unpooled) (require allocators name)
      (require allocators name) := by
  refine Action.agrees_ask fun a c h => ?_
  have hfind := congrArg (find? name) h.alike.allocators
  rw [Table.find?_mapValues, Table.find?_mapValues] at hfind
  cases ha : find? name a.allocators with
  | none =>
    rw [ha] at hfind
    rw [Option.map_eq_none_iff.1 hfind.symm]
    exact .error _
  | some al =>
    rw [ha] at hfind
    obtain ⟨al', hc, hal⟩ := Option.map_eq_some_iff.1 hfind.symm
    rw [hc]
    exact .ok hal.symm

theorem agrees_onPoolAt {x : Action Fault Pool α} {y : Action Fault Pool β}
    (h : Agrees (Pool.Both sys) R x y) (i : Nat) : Agrees (Twin sys) R (onPoolAt i x) (onPoolAt i y) := by
  refine (h.mapError Failure.fault).zoom (fun a c hac => ?_) fun a c p q hac hpq => ?_
  · obtain ⟨hleft, hleftSystem⟩ := hac.left.poolAt i
    obtain ⟨hright, hrightSystem⟩ := hac.right.poolAt i
    exact ⟨hleft, hright, hleftSystem, hrightSystem⟩
  obtain ⟨h, hleft, hright⟩ := hac
  refine ⟨⟨h.system, h.buffers, h.groups, h.stores, h.poolNames, h.allocators, ?_⟩,
    hleft.setPool ⟨hpq.left, hpq.leftSystem⟩ i, hright.setPool ⟨hpq.right, hpq.rightSystem⟩ i⟩
  simp only [List.length_set]
  exact h.pools

theorem agrees_addPool (slots slots' : Option Nat) :
    Agrees (Twin sys) (· = ·) (addPool (.withSlots slots)) (addPool (.withSlots slots')) := by
  intro a c hac
  obtain ⟨h, hleft, hright⟩ := hac
  refine ⟨⟨⟨h.system, h.buffers, h.groups, h.stores, h.poolNames, h.allocators, ?_⟩,
    hleft.addPool ⟨.new slots a.system, ?_⟩, hright.addPool ⟨.new slots' c.system, ?_⟩⟩, ?_⟩
  · simp only [Arena.addPool, List.length_append, h.pools]
    rfl
  · rw [Pool.system_withSlots, hleft.system]
  · rw [Pool.system_withSlots, hright.system]
  · simp only [Arena.addPool, h.pools]
    exact .ok rfl

theorem agrees_dropPool : Agrees (Twin sys) (· = ·) dropPool dropPool := by
  refine Action.agrees_modify fun a c hac => ?_
  obtain ⟨h, hleft, hright⟩ := hac
  refine ⟨⟨h.system, h.buffers, h.groups, h.stores, h.poolNames, h.allocators, ?_⟩,
    ⟨hleft.system, fun p hp => hleft.pools p (List.dropLast_subset _ hp), hleft.groups, hleft.stores⟩,
    hright.system, fun p hp => hright.pools p (List.dropLast_subset _ hp), hright.groups, hright.stores⟩
  simp only [List.length_dropLast, h.pools]

theorem agrees_found (hs : s.Granted sys) (pool : Nat) (h : Handle) :
    Agrees (Twin sys) (· = ·) (found pool s h) (found pool s h) := by
  intro a c hac
  obtain ⟨halike, hleft, hright⟩ := hac
  refine ⟨⟨⟨halike.system, halike.buffers, ?_, halike.stores, halike.poolNames, halike.allocators,
    halike.pools⟩, hleft.addGroup hs pool, hright.addGroup hs pool⟩, ?_⟩
  · exact congrArg (· ++ [⟨pool, .holding s⟩]) halike.groups
  · simp only [found, halike.groups]
    exact .ok rfl

theorem Twin.assemble (h : Twin sys a c) (m : Member) (shared : Bool) :
    (a.assemble m shared = none ∧ c.assemble m shared = none) ∨
      ∃ i b d, a.assemble m shared = some (i, b) ∧ c.assemble m shared = some (i, d) ∧
        Buffer.Twin sys b d := by
  simp only [Arena.assemble, h.alike.groups]
  cases he : c.groups[m.group]? with
  | none => exact .inl ⟨rfl, rfl⟩
  | some e =>
    dsimp only
    -- There are as many pools on both sides, so that the number leads to one on both or on neither.
    by_cases hlt : e.pool < c.pools.length
    · obtain ⟨q, hq⟩ := getElem?_of_lt hlt
      obtain ⟨p, hp⟩ := getElem?_of_lt (h.alike.pools ▸ hlt)
      rw [hp, hq]
      obtain ⟨hleft, hleftSystem⟩ := h.left.pools p (List.mem_of_getElem? hp)
      obtain ⟨hright, hrightSystem⟩ := h.right.pools q (List.mem_of_getElem? hq)
      exact .inr ⟨_, _, _, rfl, rfl, rfl, ⟨hleft, hright, hleftSystem, hrightSystem⟩,
        h.right.groups e (List.mem_of_getElem? he)⟩
    · have hnone : c.pools[e.pool]? = none := List.getElem?_eq_none (by omega)
      have hnone' : a.pools[e.pool]? = none := List.getElem?_eq_none (by rw [h.alike.pools]; omega)
      rw [hnone, hnone']
      exact .inl ⟨rfl, rfl⟩

theorem Twin.isShared (h : Twin sys a c) (name : String) (g : Nat) : a.isShared name g = c.isShared name g := by
  rw [Arena.isShared, h.alike.buffers, Arena.isShared]

theorem agrees_onBuffer {x : Action Failure Buffer α} {y : Action Failure Buffer β}
    (h : Agrees (Buffer.Twin sys) R x y) (name : String) :
    Agrees (Twin sys) R (onBuffer name x) (onBuffer name y) := by
  intro a c hac
  simp only [onBuffer, hac.alike.buffers, hac.isShared]
  cases find? name c.buffers with
  | none => exact ⟨hac, .error _⟩
  | some m =>
    rcases hac.assemble m (c.isShared name m.group) with ⟨ha, hc⟩ | ⟨i, b, d, ha, hc, hbd⟩
    · simp only [ha, hc]
      exact ⟨hac, .error _⟩
    · simp only [ha, hc]
      obtain ⟨hstate, hresult⟩ := h b d hbd
      refine ⟨?_, hresult⟩
      have hhandle : (x b).state.handle = (y d).state.handle := by
        obtain ⟨q, hq⟩ := hstate.eq_withPool
        rw [hq]
        rfl
      rw [hhandle]
      exact (hac.restore hstate m.group i).withBuffers _

theorem Twin.isHeld (h : Twin sys a c) (g : Nat) : a.isHeld g = c.isHeld g := by
  rw [Arena.isHeld, h.alike.buffers, Arena.isHeld]

theorem agrees_onMember {x y : Action Failure Buffer Unit} (h : Agrees (Buffer.Twin sys) (· = ·) x y)
    (m : Member) : Agrees (Twin sys) (· = ·) (onMember m x) (onMember m y) := by
  intro a c hac
  simp only [onMember]
  rcases hac.assemble m false with ⟨ha, hc⟩ | ⟨i, b, d, ha, hc, hbd⟩
  · simp only [ha, hc]
    exact ⟨hac, .ok rfl⟩
  · simp only [ha, hc]
    obtain ⟨hstate, hresult⟩ := h b d hbd
    refine ⟨hac.restore hstate m.group i, ?_⟩
    obtain ⟨q, hq⟩ := hstate.eq_withPool
    rw [hq]
    generalize (x b).result = r at hresult
    generalize (y d).result = r' at hresult
    cases hresult with
    | error e => exact .error e
    | ok _ => exact .ok rfl

theorem agrees_bury (m : Member) : Agrees (Twin sys) (· = ·) (bury m) (bury m) := by
  intro a c hac
  simp only [bury, hac.isHeld]
  split
  · exact ⟨hac, .ok trivial⟩
  · rcases hac.assemble m false with ⟨ha, hc⟩ | ⟨i, b, d, ha, hc, hbd⟩
    · simp only [ha, hc]
      exact ⟨hac, .ok trivial⟩
    · simp only [ha, hc]
      obtain ⟨q, rfl⟩ := hbd.eq_withPool
      obtain ⟨hstate, hresult⟩ :=
        (Buffer.agrees_giveBack fun _ => .abandoned b.group.count).mapError Failure.fault _ _ hbd
      exact ⟨hac.restore hstate m.group i, hresult.mono fun _ _ _ => trivial⟩

theorem agrees_putStore (hs : s.Granted sys) (name : String) :
    Agrees (Twin sys) (· = ·) (Command.putStore name s) (Command.putStore name s) := by
  refine (Action.agrees_modify fun a c hac => ?_).bind fun _ _ _ => Action.agrees_pure rfl
  exact hac.mapStores (Table.put name s) (hac.right.granted_put hs name)

theorem agrees_putAllocator {al al' : Allocator} (hal : al.unpooled = al'.unpooled) (name : String) :
    Agrees (Twin sys) (· = ·) (Command.putAllocator name al) (Command.putAllocator name al') := by
  refine (Action.agrees_modify fun a c hac => ?_).bind fun _ _ _ => Action.agrees_pure rfl
  obtain ⟨h, hleft, hright⟩ := hac
  refine ⟨⟨h.system, h.buffers, h.groups, h.stores, h.poolNames, ?_, h.pools⟩,
    ⟨hleft.system, hleft.pools, hleft.groups, hleft.stores⟩,
    ⟨hright.system, hright.pools, hright.groups, hright.stores⟩⟩
  dsimp only
  rw [Table.mapValues_put, Table.mapValues_put, h.allocators, hal]

end Primitives

section Operations

theorem agrees_enrol (name : String) (m : Member) : Agrees (Twin sys) (· = ·) (enrol name m) (enrol name m) := by
  refine Action.agrees_current.bind fun a c hac => (agrees_buffers (Table.put name m)).bind fun _ _ _ => ?_
  rw [hac.alike.buffers]
  cases find? name c.buffers with
  | none => exact Action.agrees_pure rfl
  | some old => exact agrees_bury old

theorem agrees_drop (name : String) : Agrees (Twin sys) (· = ·) (drop name) (drop name) := by
  refine (agrees_member name).bind fun m m' hm => (agrees_buffers (Table.erase name)).bind fun _ _ _ => ?_
  rw [hm]
  exact agrees_bury m'

theorem agrees_check {ε : Type} (r : Except ε α) :
    Agrees (Twin sys) (· = ·) (Action.ask fun _ => r : Action ε Arena α) (Action.ask fun _ => r) :=
  Action.agrees_ask fun _ _ _ => sameUpTo_refl fun _ _ => rfl

theorem agrees_allocate (pool : Nat) (kind : StorageKind) (n m : Nat) (expand : Bool) :
    Agrees (Twin sys) (· = ·) (allocate pool kind n m expand) (allocate pool kind n m expand) := by
  refine (agrees_check _).bind fun _ _ _ => ?_
  refine (agrees_onPoolAt (Pool.agrees_lend kind n m) pool).bind fun s t hst => ?_
  obtain ⟨rfl, hs⟩ := hst
  exact agrees_found (Storage.granted_create hs) pool _

theorem agrees_allocateCopy (pool : Nat) (kind : StorageKind) (data : Bytes) (m : Nat) (expand : Bool) :
    Agrees (Twin sys) (· = ·) (allocateCopy pool kind data m expand)
      (allocateCopy pool kind data m expand) := by
  refine (agrees_allocate pool kind data.length m expand).bind fun k k' hk => ?_
  rw [hk]
  exact (agrees_onMember (Buffer.discreetAppend data).lift.agrees k').orUndo (agrees_bury k')

theorem agrees_allocateAlone (n m : Nat) :
    Agrees (Twin sys) (· = ·) (allocateAlone n m) (allocateAlone n m) := by
  refine (agrees_check _).bind fun _ _ _ => (agrees_addPool none none).bind fun i j hij => ?_
  rw [hij]
  exact (agrees_allocate j .heap n m true).orUndo agrees_dropPool

theorem agrees_adopt {data : Bytes} (hdata : data.length ≤ Word.longest) (expand : Bool) :
    Agrees (Twin sys) (· = ·) (adopt data expand) (adopt data expand) := by
  refine (agrees_addPool none none).bind fun i j hij => ?_
  rw [hij]
  exact agrees_found (Storage.granted_heap (Nat.le_max_left _ _) hdata sys) j _

theorem fill_unpooled (al : Allocator) (what : AllocatorRequest) :
    Making.fill al what = Making.fill al.unpooled what := by
  cases what <;> rfl

theorem agrees_make {what : Making} (hfits : what.Fits) :
    Agrees (Twin sys) (· = ·) what.run what.run := by
  cases what with
  | allocate n m => exact agrees_allocateAlone n m
  | adopt data => exact agrees_adopt hfits true
  | request allocator what =>
    refine (agrees_allocator allocator).bind fun al al' hal => ?_
    rw [fill_unpooled al, fill_unpooled al', hal]
    cases what with
    | copied data => exact agrees_allocateCopy _ _ _ _ _
    | adopted data => exact agrees_adopt hfits _
    | _ => exact agrees_allocate _ _ _ _ _

theorem agrees_foundCopy (hs : s.Granted sys) (name : String) (h : Handle) :
    Agrees (Twin sys) (· = ·) (foundCopy name h s) (foundCopy name h s) := by
  refine (agrees_member name).bind fun m m' hm => Action.agrees_current.bind fun a c hac => ?_
  rw [hm, hac.alike.groups]
  cases c.groups[m'.group]? with
  | none => exact Action.agrees_fail _
  | some e => exact agrees_found hs e.pool h

theorem agrees_enrolDerived {v w : Handle × Option Storage} (hvw : SameMade sys v w) (name target : String) :
    Agrees (Twin sys) (· = ·) (Command.enrolDerived name target v) (Command.enrolDerived name target w) := by
  obtain ⟨rfl, hs⟩ := hvw
  rcases v with ⟨h, _ | s⟩
  · refine (agrees_member name).bind fun m m' hm => ?_
    rw [hm]
    exact agrees_enrol target _
  · refine (agrees_foundCopy (hs s rfl) name h).bind fun m m' hm => ?_
    rw [hm]
    exact agrees_enrol target m'

theorem agrees_buffer (name : String) :
    Agrees (Twin sys) (Buffer.Twin sys) (Action.ask (buffer name)) (Action.ask (buffer name)) := by
  refine Action.agrees_ask fun a c hac => ?_
  simp only [buffer, buffer?, hac.alike.buffers, hac.isShared]
  cases find? name c.buffers with
  | none => exact .error _
  | some m =>
    simp only [Option.bind_some]
    rcases hac.assemble m (c.isShared name m.group) with ⟨ha, hc⟩ | ⟨i, b, d, ha, hc, hbd⟩
    · simp only [ha, hc, Option.map_none]
      exact .error _
    · simp only [ha, hc, Option.map_some]
      exact .ok hbd

theorem agrees_change (name : String) {x : Action Failure Buffer α} (hx : Buffer.Discreet x) :
    Agrees (Twin sys) (· = ·) (onBuffer name x) (onBuffer name x) :=
  agrees_onBuffer hx.agrees name

theorem agrees_copyBetween (source dest : String) (i j n : Nat) :
    Agrees (Twin sys) (· = ·) (copyBetween source dest i j n) (copyBetween source dest i j n) := by
  refine (agrees_buffer source).bind fun b d h => ?_
  obtain ⟨p, rfl⟩ := h.eq_withPool
  exact agrees_change dest (.mapError (.update (Buffer.tame_copyOver b i j n)) _)

theorem agrees_pour (source dest : String) (n : Nat) :
    Agrees (Twin sys) (· = ·) (pour source dest n) (pour source dest n) := by
  refine (agrees_change source (.mapError (.ask fun _ _ => rfl) _)).bind fun bytes bytes' h => ?_
  rw [h]
  exact (agrees_change dest (Buffer.discreetAppend bytes').lift).bind fun _ _ _ =>
    agrees_change source (Buffer.discreetSeek _).lift

theorem agrees_compared {f : Buffer → Buffer → Except Fault α} (name other : String)
    (hf : ∀ b o p q, f (b.withPool p) (o.withPool q) = f b o) (g : α → Answer) :
    Agrees (Twin sys) (· = ·)
      (Action.ask (buffer other) >>= fun o => Action.ask (buffer name) >>= fun b =>
        g <$> lift (Action.ask fun _ => f b o) : Action Failure Arena Answer)
      (Action.ask (buffer other) >>= fun o => Action.ask (buffer name) >>= fun b =>
        g <$> lift (Action.ask fun _ => f b o)) := by
  refine (agrees_buffer other).bind fun o o' ho => (agrees_buffer name).bind fun b b' hb => ?_
  obtain ⟨p, rfl⟩ := hb.eq_withPool
  obtain ⟨q, rfl⟩ := ho.eq_withPool
  rw [hf]
  exact Agrees.map ((agrees_check _).mapError Failure.fault) fun v w h => congrArg g h

theorem agrees_exchange (name other : String) (x : Exchange) :
    Agrees (Twin sys) (· = ·) (x.run name other) (x.run name other) := by
  refine (agrees_buffer other).bind fun _ _ _ => (agrees_buffer name).bind fun _ _ _ => ?_
  split
  · exact Action.agrees_fail _
  · cases x with
    | getBytesTo i j n => exact (agrees_copyBetween _ _ i j n).bind fun _ _ _ => Action.agrees_pure rfl
    | setBytesFrom i j n => exact (agrees_copyBetween _ _ j i n).bind fun _ _ _ => Action.agrees_pure rfl
    | readInto n => exact (agrees_pour _ _ n).bind fun _ _ _ => Action.agrees_pure rfl
    | writeFrom n => exact (agrees_pour _ _ n).bind fun _ _ _ => Action.agrees_pure rfl
    | equals => exact agrees_compared name other (fun _ _ _ _ => rfl) _
    | compare => exact agrees_compared name other (fun _ _ _ _ => rfl) _

end Operations

end Arena

namespace Command

open Arena
open SharedBuffer.Action (Agrees)

inductive Akin : Command → Command → Prop
  | same (c : Command) : Akin c c
  | poolNew (slots slots' : Option Nat) (target : String) :
      Akin (.poolNew slots target) (.poolNew slots' target)
  | allocatorNew {settings settings' : List (String × Setting)}
      (h : Config.unpooled <$> allocatorOf settings = Config.unpooled <$> allocatorOf settings')
      (target : String) : Akin (.allocatorNew settings target) (.allocatorNew settings' target)
  | allocatorOnPool {settings settings' : List (String × Setting)} (pool : String)
      (h : Config.unpooled <$> allocatorOf settings = Config.unpooled <$> allocatorOf settings')
      (target : String) :
      Akin (.allocatorOnPool pool settings target) (.allocatorOnPool pool settings' target)

/-- What an answer tells besides the statistics and the strategy of a pool and what shrinking frees. -/
def withhold : Command → Answer → Answer
  | .poolShrink _, _ | .poolStatistics _, _ | .poolStrategy _, _ => .done
  | .allocatorStatistics _, _ | .allocatorShrink _, _ => .done
  | .allocatorInfo _, .allocator config _ => .allocator config.unpooled ""
  | _, v => v

section Agrees

variable {settings settings' : List (String × Setting)}

theorem agrees_config
    (h : Config.unpooled <$> allocatorOf settings = Config.unpooled <$> allocatorOf settings') :
    Agrees (Twin sys) (fun v w => v.unpooled = w.unpooled) (Action.ask fun _ => allocatorOf settings)
      (Action.ask fun _ => allocatorOf settings') := by
  refine Action.agrees_ask fun _ _ _ => ?_
  generalize allocatorOf settings = x at h
  generalize allocatorOf settings' = y at h
  cases x with
  | error e =>
    cases y with
    | error e' =>
      cases h
      exact .error e
    | ok w => cases h
  | ok v =>
    cases y with
    | error e' => cases h
    | ok w => exact .ok (Except.ok.inj h)

theorem agrees_addPool_ofStrategy (st st' : PoolingStrategy) :
    Agrees (Twin sys) (· = ·) (addPool (.ofStrategy st)) (addPool (.ofStrategy st')) := by
  obtain ⟨slots, hslots⟩ := Pool.ofStrategy_eq_withSlots st
  obtain ⟨slots', hslots'⟩ := Pool.ofStrategy_eq_withSlots st'
  rw [hslots, hslots']
  exact agrees_addPool slots slots'

theorem agrees_allocatorNew
    (h : Config.unpooled <$> allocatorOf settings = Config.unpooled <$> allocatorOf settings')
    (target : String) :
    Agrees (Twin sys) (· = ·) (allocatorNew settings target).run (allocatorNew settings' target).run := by
  refine (agrees_config h).bind fun v w hvw => ?_
  refine (agrees_addPool_ofStrategy _ _).bind fun i j hij => ?_
  exact agrees_putAllocator (by rw [Allocator.unpooled, hvw, hij]; rfl) target

theorem agrees_allocatorOnPool (pool : String)
    (h : Config.unpooled <$> allocatorOf settings = Config.unpooled <$> allocatorOf settings')
    (target : String) :
    Agrees (Twin sys) (· = ·) (allocatorOnPool pool settings target).run
      (allocatorOnPool pool settings' target).run := by
  refine (agrees_poolName pool).bind fun i j hij => (agrees_config h).bind fun v w hvw => ?_
  exact agrees_putAllocator (by rw [Allocator.unpooled, hvw, hij]; rfl) target

theorem agrees_poolNew (slots slots' : Option Nat) (target : String) :
    Agrees (Twin sys) (· = ·) (poolNew slots target).run (poolNew slots' target).run := by
  refine (agrees_addPool slots slots').bind fun i j hij => ?_
  rw [hij]
  refine (Action.agrees_modify fun a c hac => ?_).bind fun _ _ _ => Action.agrees_pure rfl
  obtain ⟨h, hleft, hright⟩ := hac
  exact ⟨⟨h.system, h.buffers, h.groups, h.stores, congrArg (·.put target j) h.poolNames,
    h.allocators, h.pools⟩, ⟨hleft.system, hleft.pools, hleft.groups, hleft.stores⟩,
    ⟨hright.system, hright.pools, hright.groups, hright.stores⟩⟩

theorem agrees_onStore (name : String) (x : StoreRequest) :
    Agrees (Twin sys) (· = ·) (onStore name x.run) (onStore name x.run) := by
  refine (agrees_store name).bind fun s t hst => ?_
  obtain ⟨rfl, hs⟩ := hst
  intro a c hac
  have ht := hac.right.granted_put (x.granted_run sys s hs) name
  exact ⟨hac.mapStores (Table.put name (x.run s).state) ht, sameUpTo_refl fun _ _ => rfl⟩

theorem agrees_takeBack (pool name : String) :
    Agrees (Twin sys) (· = ·) (poolTakeBack pool name).run (poolTakeBack pool name).run := by
  refine (agrees_poolName pool).bind fun i j hij => (agrees_store name).bind fun s t hst => ?_
  obtain ⟨rfl, hs⟩ := hst
  rw [hij]
  refine (Action.agrees_modify fun a c hac => ?_).bind fun _ _ _ =>
    (agrees_onPoolAt (Pool.agrees_takeBack hs) j).bind fun _ _ _ => Action.agrees_pure rfl
  refine hac.mapStores (Table.erase name) fun entry hentry => ?_
  exact hac.right.stores entry (Table.mem_erase_iff.1 hentry).1

theorem agrees_granted {r : System → Except Fault Storage} (hr : ∀ s, r sys = .ok s → s.Granted sys) :
    Agrees (Twin sys) (Pool.Alike sys) (lift (Action.ask fun a => r a.system))
      (lift (Action.ask fun a => r a.system)) := by
  refine (Action.agrees_ask fun a c hac => ?_).mapError Failure.fault
  rw [hac.left.system, hac.right.system]
  exact sameUpTo_refl fun s hs => ⟨rfl, hr s hs⟩

theorem agrees_told {α : Type} {f g : Arena → α} :
    Agrees (Twin sys) (fun _ _ => True) (Action.ask fun a => .ok (f a) : Action Failure Arena α)
      (Action.ask fun a => .ok (g a)) :=
  Action.agrees_ask fun _ _ _ => .ok trivial

theorem agrees_same {c : Command} (hc : c.Fits) :
    Agrees (Twin sys) (fun v w => c.withhold v = c.withhold w) c.run c.run := by
  cases c with
  | make what target =>
    refine (agrees_make hc).bind fun m m' hm => ?_
    rw [hm]
    exact (agrees_enrol target m').bind fun _ _ _ => Action.agrees_pure rfl
  | drop name => exact (agrees_drop name).bind fun _ _ _ => Action.agrees_pure rfl
  | ask name query =>
    exact agrees_change name (.mapError (.ask fun b q => Buffer.answer_withPool b q query) _)
  | change name c => exact agrees_change name c.discreet
  | derive name d target =>
    exact (agrees_onBuffer (d.agrees.mapError _) name).bind fun v w hvw =>
      (agrees_enrolDerived hvw name target).bind fun _ _ _ => Action.agrees_pure rfl
  | exchange name other x => exact agrees_exchange name other x
  | storeNew kind n m target =>
    refine (agrees_granted (r := fun sys => Storage.create sys kind n m)
      fun s => Storage.granted_create).bind fun s t hst => ?_
    exact hst.1 ▸ agrees_putStore hst.2 target
  | storeAdopt data m target =>
    refine (agrees_granted (r := fun _ => Storage.adopt data m)
      fun s => Storage.granted_adopt hc).bind fun s t hst => ?_
    exact hst.1 ▸ agrees_putStore hst.2 target
  | storeResize name n target =>
    refine (agrees_store name).bind fun s t hst => ?_
    obtain ⟨rfl, -⟩ := hst
    refine (agrees_granted (r := fun sys => s.resize sys n)
      fun t => Storage.granted_resize).bind fun t u htu => ?_
    exact htu.1 ▸ agrees_putStore htu.2 target
  | store name x => exact agrees_onStore name x
  | poolNew slots target => exact agrees_poolNew slots slots target
  | poolLend pool kind n m target =>
    refine (agrees_poolName pool).bind fun i j hij => ?_
    rw [hij]
    refine (agrees_onPoolAt (Pool.agrees_lend kind n m) j).bind fun s t hst => ?_
    exact hst.1 ▸ agrees_putStore (Storage.granted_create hst.2) target
  | poolRelend pool name n target =>
    refine (agrees_store name).bind fun s t hst => (agrees_poolName pool).bind fun i j hij => ?_
    obtain ⟨rfl, hs⟩ := hst
    rw [hij]
    refine (agrees_onPoolAt (Pool.agrees_relend hs n) j).bind fun u v huv => ?_
    exact huv.1 ▸ agrees_putStore huv.2 target
  | poolTakeBack pool name => exact agrees_takeBack pool name
  | poolShrink pool =>
    refine (agrees_poolName pool).bind fun i j hij => ?_
    rw [hij]
    exact (agrees_onPoolAt Pool.agrees_shrink j).map fun _ _ _ => rfl
  | poolStatistics pool =>
    exact (agrees_poolName pool).bind fun i j hij => agrees_told.map fun _ _ _ => rfl
  | poolStrategy pool =>
    exact (agrees_poolName pool).bind fun i j hij => agrees_told.map fun _ _ _ => rfl
  | allocatorNew settings target => exact agrees_allocatorNew rfl target
  | allocatorOnPool pool settings target => exact agrees_allocatorOnPool pool rfl target
  | allocatorDefault target =>
    refine (agrees_addPool none none).bind fun i j hij => ?_
    exact agrees_putAllocator (by rw [hij]) target
  | allocatorClone allocator target =>
    exact (agrees_allocator allocator).bind fun al al' hal => agrees_putAllocator hal target
  | allocatorInfo allocator =>
    refine (agrees_allocator allocator).bind fun al al' hal => agrees_told.map fun _ _ _ => ?_
    exact congrArg (fun al : Allocator => Answer.allocator al.config "") hal
  | allocatorStatistics allocator =>
    exact (agrees_allocator allocator).bind fun al al' hal => agrees_told.map fun _ _ _ => rfl
  | allocatorShrink allocator =>
    refine (agrees_allocator allocator).bind fun al al' hal => ?_
    have hpool : al.pool = al'.pool := (congrArg Allocator.pool hal :)
    rw [hpool]
    exact (agrees_onPoolAt Pool.agrees_shrink al'.pool).map fun _ _ _ => rfl

theorem Akin.agrees {c d : Command} (h : c.Akin d) (hc : c.Fits) :
    Agrees (Twin sys) (fun v w => c.withhold v = c.withhold w) c.run d.run := by
  cases h with
  | same c => exact agrees_same hc
  | poolNew slots slots' target => exact agrees_poolNew slots slots' target
  | allocatorNew h target => exact agrees_allocatorNew h target
  | allocatorOnPool pool h target => exact agrees_allocatorOnPool pool h target

end Agrees

end Command

namespace Arena

variable {sys : System} {a c : Arena}

/-- Two programs side by side: arenas that are alike, then the same answer of both, and so on. -/
def Abreast (a c : Arena) : List (Command × Command) → Prop
  | [] => a.Alike c
  | (x, y) :: rest =>
    a.Alike c ∧
      SameUpTo (fun v w => x.withhold v = x.withhold w) (x.run a).result (y.run c).result ∧
        Abreast (x.run a).state (y.run c).state rest

theorem Twin.abreast (h : Twin sys a c) {program : List (Command × Command)}
    (hprogram : ∀ step ∈ program, step.1.Akin step.2 ∧ step.1.Fits) : Abreast a c program := by
  induction program generalizing a c with
  | nil => exact h.alike
  | cons step rest ih =>
    obtain ⟨hakin, hfits⟩ := hprogram step List.mem_cons_self
    obtain ⟨hstate, hresult⟩ := hakin.agrees hfits a c h
    exact ⟨h.alike, hresult, ih hstate fun step hstep => hprogram step (List.mem_cons_of_mem _ hstep)⟩

theorem Orderly.twin (h : a.Orderly sys) : Twin sys a a :=
  ⟨⟨rfl, rfl, rfl, rfl, rfl, rfl, rfl⟩, h, h⟩

theorem Orderly.after (h : a.Orderly sys) {commands : List Command} (hcs : ∀ c ∈ commands, c.Fits) :
    (after a commands).Orderly sys := by
  induction commands generalizing a with
  | nil => exact h
  | cons c rest ih =>
    have hc := hcs c List.mem_cons_self
    exact ih (Command.agrees_same hc a a h.twin).state.left fun d hd => hcs d (List.mem_cons_of_mem _ hd)

theorem orderly_empty (sys : System) : Orderly sys { system := sys } := ⟨rfl, by simp, by simp, by simp⟩

theorem Reachable.orderly (h : a.Reachable) : a.Orderly a.system := by
  obtain ⟨sys, cs, hcs, rfl⟩ := h
  have horderly := (orderly_empty sys).after hcs
  rwa [horderly.system]

theorem Reachable.buffer_orderly {name : String} {b : Buffer} (h : a.Reachable)
    (hb : a.buffer name = .ok b) :
    b.pool.Orderly ∧ ∀ s, b.group.storage = some s → s.Granted b.pool.system := by
  obtain ⟨m, e, p, hs, rfl⟩ := seat_of_buffer h.valid hb
  obtain ⟨hseasoned, hsystem⟩ := h.orderly.pools p (List.mem_of_getElem? hs.pool)
  refine ⟨hseasoned.orderly, fun s hstorage => ?_⟩
  change s.Granted p.system
  rw [hsystem]
  exact h.orderly.groups e (List.mem_of_getElem? hs.estate) s hstorage

/-- Wherever a program has come to, other pools of the system may stand in place of those that are
there, with or without a free list, of any size and any past; the pools that are made later on and what
is said about pooling may differ, too. The same answers are given step by step, and handles with their
cursors, groups with their counts and bytes, and storages on loan are the same all along. -/
theorem pooling_transparent (sys : System) {history : List Command} (hhistory : ∀ c ∈ history, c.Fits)
    {pools : List Pool} (hlen : pools.length = (Arena.after { system := sys } history).pools.length)
    (hpools : ∀ p ∈ pools, p.Seasoned ∧ p.system = sys) {program : List (Command × Command)}
    (hprogram : ∀ step ∈ program, step.1.Akin step.2 ∧ step.1.Fits) :
    Abreast (Arena.after { system := sys } history)
      { Arena.after { system := sys } history with pools := pools } program := by
  have horderly := (orderly_empty sys).after hhistory
  have htwin : Twin sys (Arena.after { system := sys } history)
      { Arena.after { system := sys } history with pools := pools } :=
    ⟨⟨rfl, rfl, rfl, rfl, rfl, rfl, hlen.symm⟩, horderly,
      ⟨horderly.system, hpools, horderly.groups, horderly.stores⟩⟩
  exact htwin.abreast hprogram

def used : Pool :=
  (Pool.takeBack ⟨.heap, [1, 2, 3, 4], 16⟩ (Pool.lend .heap 4 16 (.withSlots (some 2) {})).state).state

theorem seasoned_used : used.Seasoned :=
  ((Pool.Seasoned.new (some 2) {}).lend .heap 4 16).takeBack ⟨by decide, rfl⟩

/-- A buffer takes what is parked, grows, is written and dropped, and its storage serves the next. -/
def reusing : List (Command × Command) :=
  [.make (.request "allocator" (.bounded 4 16)) "root", .change "root" (.changeCapacity 8),
    .change "root" (.setBytes 4 [5, 6]), .drop "root",
    .make (.request "allocator" (.bounded 8 16)) "root", .ask "root" (.getBytes 0 8)].map (fun c => (c, c)) ++
  [(.allocatorNew [] "another", .allocatorNew [("pooling", .text "pooled")] "another")]

def founding : List Command := [.poolNew none "pool", .allocatorOnPool "pool" [] "allocator"]

theorem pooling_transparent_reusing :
    Abreast (Arena.after {} founding) { Arena.after {} founding with pools := [used] } reusing := by
  have hlen : [used].length = (Arena.after {} founding).pools.length := rfl
  refine pooling_transparent {} (by decide) hlen (fun p hp => ?_) fun step hstep => ⟨?_, ?_⟩
  · rw [List.mem_singleton.1 hp]
    exact ⟨seasoned_used, rfl⟩
  · rcases List.mem_append.1 hstep with hsame | hother
    · obtain ⟨c, -, rfl⟩ := List.mem_map.1 hsame
      exact .same c
    · rw [List.mem_singleton.1 hother]
      have hconfig : Config.unpooled <$> allocatorOf [] =
          Config.unpooled <$> allocatorOf [("pooling", .text "pooled")] := rfl
      exact .allocatorNew hconfig "another"
  · exact (show ∀ step ∈ reusing, step.1.Fits by decide) step hstep

end Arena

end SharedBuffer
