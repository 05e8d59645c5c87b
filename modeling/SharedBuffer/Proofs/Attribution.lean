import SharedBuffer.Proofs.Recounting
import SharedBuffer.Proofs.Snapshots

/-!
Whose events a command reports. A command deals with one group, with the pool of that group and with a
pool that lends, and what its events count has happened to these. Main statement: over every command
the counts of groups that have come to their end, of storages taken back and of slots in use move by
what the events say of the group and the pools that the command deals with.
-/

namespace SharedBuffer

namespace Arena

open Table (find? put)
open SharedBuffer.Action (current_bind modify_bind)

/-- The group that a storage may be given up by, the pool that this one goes back to, and the pool
that lends. -/
structure Scope where
  group : Option Nat := none
  pool : Option Nat := none
  lender : Option Nat := none

def share (o : Option Nat) (i n : Nat) : Nat := if o = some i then n else 0

theorem share_self (i n : Nat) : share (some i) i n = n := if_pos rfl

theorem share_ne {i k : Nat} (h : i ≠ k) (n : Nat) : share (some i) k n = 0 :=
  if_neg fun heq => h (Option.some.inj heq)

theorem share_zero (o : Option Nat) (i : Nat) : share o i 0 = 0 := ite_self 0

theorem share_add (o : Option Nat) (i n m : Nat) : share o i (n + m) = share o i n + share o i m := by
  simp only [share]
  split <;> rfl

def poolOf (g : Nat) (a : Arena) : Option Nat := a.groups[g]?.map Estate.pool

def homeOf (name : String) (a : Arena) : Option Nat := (a.groupOf name).bind fun g => a.poolOf g

def scopeOf (name : String) (a : Arena) : Scope :=
  ⟨a.groupOf name, a.homeOf name, a.homeOf name⟩

def spent (g : Nat) (a : Arena) : Nat := (a.groups[g]?.map fun e => e.group.spent).getD 0

def forsaken (g : Nat) (a : Arena) : Nat := (a.groups[g]?.map fun e => e.group.forsaken).getD 0

/-- The events of a scope say what has become of the groups and the pools. -/
structure Logged (s : Scope) (log : List Event) (a a' : Arena) : Prop where
  spent : ∀ g, a'.spent g = a.spent g + share s.group g (log.countP Event.deallocates)
  forsaken : ∀ g, a'.forsaken g = a.forsaken g + share s.group g (log.countP Event.abandons)
  reclaimed : ∀ k, (a'.poolAt k).ledger.reclaimedLeases =
    Word.countOn (a.poolAt k).ledger.reclaimedLeases (share s.pool k (log.countP Event.closes))
  slots : ∀ k, (a'.poolAt k).usedSlots + share s.lender k (log.countP Event.reuses) =
    (a.poolAt k).usedSlots + share s.pool k (log.countP Event.parks)
  closing : ∀ e ∈ log, e.closes = true → s.group.isSome = true ∧ s.pool.isSome = true
  parking : ∀ e ∈ log, e.parks = true → s.pool.isSome = true
  reusing : ∀ e ∈ log, e.reuses = true → s.lender.isSome = true

def Logs {α : Type} (s : Scope) (x : Action Failure Arena α) (a : Arena) : Prop :=
  Logged s (x a).events a (x a).state

section Logged

variable {s s' : Scope} {log more : List Event} {a b c : Arena} {e : Estate} {p q : Pool} {g i : Nat}

theorem logged_of_quiet (hspent : ∀ g, c.spent g = a.spent g) (hforsaken : ∀ g, c.forsaken g = a.forsaken g)
    (hreclaimed : ∀ k, (c.poolAt k).ledger.reclaimedLeases = (a.poolAt k).ledger.reclaimedLeases)
    (hslots : ∀ k, (c.poolAt k).usedSlots = (a.poolAt k).usedSlots) : Logged s [] a c where
  spent g := by rw [hspent, List.countP_nil, share_zero, Nat.add_zero]
  forsaken g := by rw [hforsaken, List.countP_nil, share_zero, Nat.add_zero]
  reclaimed k := by rw [hreclaimed, List.countP_nil, share_zero, Word.countOn]
  slots k := by rw [hslots, List.countP_nil, List.countP_nil, share_zero, share_zero]
  closing _ he := (List.not_mem_nil he).elim
  parking _ he := (List.not_mem_nil he).elim
  reusing _ he := (List.not_mem_nil he).elim

structure Same (a c : Arena) : Prop where
  system : c.system = a.system
  groups : c.groups = a.groups
  pools : c.pools = a.pools

theorem Same.poolAt (h : a.Same c) (k : Nat) : c.poolAt k = a.poolAt k := by
  rw [Arena.poolAt, Arena.poolAt, h.pools, h.system]

theorem logged_of_same (h : a.Same c) : Logged s [] a c :=
  logged_of_quiet (fun _ => by rw [Arena.spent, Arena.spent, h.groups])
    (fun _ => by rw [Arena.forsaken, Arena.forsaken, h.groups]) (fun k => by rw [h.poolAt])
    fun k => by rw [h.poolAt]

theorem Logged.of_same (h : Logged s log a b) (h' : b.Same c) : Logged s log a c where
  spent g := by rw [Arena.spent, h'.groups, ← Arena.spent, h.spent]
  forsaken g := by rw [Arena.forsaken, h'.groups, ← Arena.forsaken, h.forsaken]
  reclaimed k := by rw [h'.poolAt, h.reclaimed]
  slots k := by rw [h'.poolAt, h.slots]
  closing := h.closing
  parking := h.parking
  reusing := h.reusing

theorem Logged.trans (h : Logged s log a b) (h' : Logged s more b c) : Logged s (log ++ more) a c where
  spent g := by rw [h'.spent, h.spent, List.countP_append, share_add, Nat.add_assoc]
  forsaken g := by rw [h'.forsaken, h.forsaken, List.countP_append, share_add, Nat.add_assoc]
  reclaimed k := by rw [h'.reclaimed, h.reclaimed, List.countP_append, share_add, Word.countOn_add]
  slots k := by
    have hfirst := h.slots k
    have hsecond := h'.slots k
    simp only [List.countP_append, share_add]
    omega
  closing e he := (List.mem_append.1 he).elim (h.closing e) (h'.closing e)
  parking e he := (List.mem_append.1 he).elim (h.parking e) (h'.parking e)
  reusing e he := (List.mem_append.1 he).elim (h.reusing e) (h'.reusing e)

theorem Logged.of_lending (h : Logged s log a c) (hlog : ∀ e ∈ log, e.reuses = true)
    (hlender : s'.lender = s.lender) : Logged s' log a c := by
  obtain ⟨hendless, hparks⟩ := endless_of_reuses hlog
  refine ⟨fun g => ?_, fun g => ?_, fun k => ?_, fun k => ?_, fun e he hq => ?_, fun e he hq => ?_, ?_⟩
  · rw [h.spent, hendless.deallocates, share_zero, share_zero]
  · rw [h.forsaken, hendless.abandons, share_zero, share_zero]
  · rw [h.reclaimed, hendless.closes, share_zero, share_zero]
  · rw [hlender, h.slots, hparks, share_zero, share_zero]
  · exact absurd hq (List.countP_eq_zero.1 hendless.closes e he)
  · exact absurd hq (List.countP_eq_zero.1 hparks e he)
  · rw [hlender]
    exact h.reusing

theorem Logged.of_closing (h : Logged s log a c) (hlog : ∀ e ∈ log, e.reuses = false)
    (hgroup : s'.group = s.group) (hpool : s'.pool = s.pool) : Logged s' log a c := by
  have hreuses : log.countP Event.reuses = 0 := countP_eq_zero_of_forall hlog fun _ he => he
  refine ⟨fun g => ?_, fun g => ?_, fun k => ?_, fun k => ?_, ?_, ?_, fun e he hq => ?_⟩
  · rw [hgroup, h.spent]
  · rw [hgroup, h.forsaken]
  · rw [hpool, h.reclaimed]
  · have hslots := h.slots k
    rw [hreuses, share_zero] at hslots ⊢
    rw [hpool, hslots]
  · rw [hgroup, hpool]
    exact h.closing
  · rw [hpool]
    exact h.parking
  · rw [hlog e he] at hq
    cases hq

structure Swapped (i : Nat) (q : Pool) (a c : Arena) : Prop where
  lt : i < a.pools.length
  system : c.system = a.system
  pools : c.pools = a.pools.set i q

theorem Swapped.poolAt_self (h : Swapped i q a c) : c.poolAt i = q := by
  rw [poolAt, h.pools]
  exact (List.getElem?_set_self h.lt).symm ▸ rfl

theorem Swapped.poolAt_ne (h : Swapped i q a c) {k : Nat} (hk : i ≠ k) : c.poolAt k = a.poolAt k := by
  rw [poolAt, h.pools, h.system]
  exact poolAt_set_ne hk q

theorem Swapped.moves {f : Pool → Nat} {n m : Nat} (h : Swapped i q a c)
    (hf : f q + m = f (a.poolAt i) + n) (k : Nat) :
    f (c.poolAt k) + share (some i) k m = f (a.poolAt k) + share (some i) k n := by
  by_cases hk : i = k
  · rw [← hk, h.poolAt_self, share_self, share_self, hf]
  · rw [h.poolAt_ne hk, share_ne hk, share_ne hk]

theorem Swapped.reclaimed {n : Nat} (h : Swapped i q a c)
    (hq : q.ledger.reclaimedLeases = Word.countOn (a.poolAt i).ledger.reclaimedLeases n) (k : Nat) :
    (c.poolAt k).ledger.reclaimedLeases =
      Word.countOn (a.poolAt k).ledger.reclaimedLeases (share (some i) k n) := by
  by_cases hk : i = k
  · rw [← hk, h.poolAt_self, share_self, hq]
  · rw [h.poolAt_ne hk, share_ne hk, Word.countOn]

theorem share_groups {f : Estate → Nat} {e' : Estate} {n : Nat} (he : a.groups[g]? = some e)
    (hgroups : c.groups = a.groups.set g e') (h : f e' = f e + n) (g' : Nat) :
    (c.groups[g']?.map f).getD 0 = (a.groups[g']?.map f).getD 0 + share (some g) g' n := by
  by_cases hg : g = g'
  · rw [← hg, share_self, hgroups, List.getElem?_set_self (lt_of_getElem? he), he]
    exact h
  · rw [share_ne hg, hgroups, List.getElem?_set_ne hg, Nat.add_zero]

theorem logged_restore {b : Buffer} (he : a.groups[g]? = some e) (hp : a.pools[e.pool]? = some p)
    (h : Recounts log e.group p b.group b.pool) :
    Logged ⟨some g, some e.pool, some e.pool⟩ log a (a.restore g e.pool b) := by
  have hlt := lt_of_getElem? hp
  obtain rfl : a.poolAt e.pool = p := by rw [poolAt, hp, Option.getD_some]
  have hgroups : (a.restore g e.pool b).groups = a.groups.set g ⟨e.pool, b.group⟩ := rfl
  have hswap : Swapped e.pool b.pool a (a.restore g e.pool b) := ⟨hlt, rfl, rfl⟩
  refine ⟨?_, ?_, ?_, ?_, fun _ _ _ => ⟨rfl, rfl⟩, fun _ _ _ => rfl, fun _ _ _ => rfl⟩
  · exact share_groups he hgroups h.spent
  · exact share_groups he hgroups h.forsaken
  · exact hswap.reclaimed h.reclaimed
  · exact hswap.moves h.slots

theorem logged_setPool (hi : i < a.pools.length) (hlender : s.lender = some i)
    (hlog : ∀ e ∈ log, e.reuses = true)
    (hreclaimed : q.ledger.reclaimedLeases = (a.poolAt i).ledger.reclaimedLeases)
    (hslots : q.usedSlots + log.countP Event.reuses = (a.poolAt i).usedSlots) :
    Logged s log a (a.setPool i q) := by
  obtain ⟨hendless, hparks⟩ := endless_of_reuses hlog
  have hswap : Swapped i q a (a.setPool i q) := ⟨hi, rfl, rfl⟩
  refine Logged.of_lending (s := ⟨none, none, some i⟩) ?_ hlog hlender
  refine ⟨fun g => rfl, fun g => rfl, fun k => ?_, fun k => ?_, fun e he hq => ?_, fun e he hq => ?_,
    fun _ _ _ => rfl⟩
  · have hsame := hswap.reclaimed (n := 0) hreclaimed k
    rwa [share_zero] at hsame
  · have hlent := hswap.moves (n := 0) hslots k
    rwa [share_zero] at hlent
  · exact absurd hq (List.countP_eq_zero.1 hendless.closes e he)
  · exact absurd hq (List.countP_eq_zero.1 hparks e he)

theorem getElem?_concat_cases {α : Type} (l : List α) (v : α) (k : Nat) :
    (l ++ [v])[k]? = l[k]? ∨ l[k]? = none ∧ (l ++ [v])[k]? = some v := by
  rcases Nat.lt_trichotomy k l.length with hk | rfl | hk
  · exact .inl (List.getElem?_append_left hk)
  · exact .inr ⟨List.getElem?_eq_none (Nat.le_refl _), List.getElem?_concat_length⟩
  · refine .inl ?_
    rw [List.getElem?_eq_none (Nat.le_of_lt hk), List.getElem?_eq_none]
    rw [List.length_append, List.length_singleton]
    exact hk

theorem logged_addPool (a : Arena) (slots : Option Nat) (s : Scope) :
    Logged s [] a { a with pools := a.pools ++ [.withSlots slots a.system] } := by
  have hpool {f : Pool → Nat} (hnew : f (.withSlots slots a.system) = f (.plain a.system)) (k : Nat) :
      f (Arena.poolAt k { a with pools := a.pools ++ [.withSlots slots a.system] }) = f (a.poolAt k) := by
    rw [poolAt, poolAt]
    rcases getElem?_concat_cases a.pools (.withSlots slots a.system) k with hk | ⟨hnone, hk⟩
    · rw [hk]
    · rw [hk, hnone]
      exact hnew
  refine logged_of_quiet (fun _ => rfl) (fun _ => rfl) (hpool (f := fun p => p.ledger.reclaimedLeases) ?_)
    (hpool ?_)
  · cases slots <;> rfl
  · cases slots <;> rfl

theorem logged_addGroup (a : Arena) (pool : Nat) (t : Storage) (s : Scope) :
    Logged s [] a (a.addGroup pool t) := by
  have hgroup {f : Estate → Nat} (hnew : f ⟨pool, .holding t⟩ = 0) (g : Nat) :
      ((a.addGroup pool t).groups[g]?.map f).getD 0 = (a.groups[g]?.map f).getD 0 := by
    rw [addGroup]
    rcases getElem?_concat_cases a.groups ⟨pool, .holding t⟩ g with hg | ⟨hnone, hg⟩
    · rw [hg]
    · rw [hg, hnone]
      exact hnew
  exact logged_of_quiet (hgroup rfl) (hgroup rfl) (fun _ => rfl) fun _ => rfl

end Logged

section Logs

variable {α β : Type} {s : Scope} {a c : Arena} {x : Action Failure Arena α}
  {f : α → Action Failure Arena β} {name : String} {m : Member} {e : Estate} {p : Pool} {i : Nat}

theorem logs_still (h : ∀ a, (x a).events = [] ∧ a.Same (x a).state) (s : Scope) (a : Arena) :
    Logs s x a := by
  obtain ⟨hevents, hsame⟩ := h a
  rw [Logs, hevents]
  exact logged_of_same hsame

theorem logs_pure (v : α) (s : Scope) (a : Arena) : Logs s (pure v) a :=
  logs_still (fun _ => ⟨rfl, rfl, rfl, rfl⟩) s a

theorem logs_ask (g : Arena → Except Failure α) (s : Scope) (a : Arena) : Logs s (Action.ask g) a :=
  logs_still (fun _ => ⟨rfl, rfl, rfl, rfl⟩) s a

theorem Logs.elsewhere {s : Scope} (h : Logs s x a) (hx : x.Reports fun _ => False) (s' : Scope) :
    Logs s' x a := by
  rw [Logs, hx.events_eq_nil] at h ⊢
  refine logged_of_quiet (fun g => ?_) (fun g => ?_) (fun k => ?_) fun k => ?_
  · simpa only [List.countP_nil, share_zero, Nat.add_zero] using h.spent g
  · simpa only [List.countP_nil, share_zero, Nat.add_zero] using h.forsaken g
  · simpa only [List.countP_nil, share_zero, Word.countOn] using h.reclaimed k
  · simpa only [List.countP_nil, share_zero, Nat.add_zero] using h.slots k

theorem Logs.bind (hx : Logs s x a)
    (hf : ∀ v c log, x a = ⟨.ok v, c, log⟩ → Logs s (f v) c) : Logs s (x >>= f) a := by
  rw [Logs] at hx ⊢
  rcases ho : x a with ⟨e | v, c, log⟩
  · rw [ho] at hx
    rw [Action.bind_of_error ho]
    exact hx
  · rw [ho] at hx
    rw [Action.bind_of_ok ho]
    exact hx.trans (hf v c log ho)

theorem Logs.then_pure (hx : Logs s x a) (v : β) : Logs s (x >>= fun _ => pure v) a :=
  hx.bind fun _ c _ _ => logs_pure v s c

theorem logs_ask_bind {g : Arena → Except Failure α} (hf : ∀ v, g a = .ok v → Logs s (f v) a) :
    Logs s (Action.ask g >>= f) a := by
  refine (logs_ask g s a).bind fun v c log ho => ?_
  cases hg : g a with
  | error e =>
    rw [Action.ask_of_error hg] at ho
    cases ho
  | ok w =>
    rw [Action.ask_of_ok hg] at ho
    cases ho
    exact hf v hg

theorem logs_require {t : Arena → Table α} (hf : ∀ v, find? name (t a) = some v → Logs s (f v) a) :
    Logs s (require t name >>= f) a := by
  exact logs_ask_bind fun v hv => hf v (find?_of_require hv)

theorem scopeOf_of_seat (hs : a.Seat name m e p) :
    a.scopeOf name = ⟨some m.group, some e.pool, some e.pool⟩ := by
  have hgroup : a.groupOf name = some m.group := by rw [groupOf, hs.member, Option.map_some]
  have hhome : a.homeOf name = some e.pool := by
    rw [homeOf, hgroup, Option.bind_some, poolOf, hs.estate, Option.map_some]
  rw [scopeOf, hgroup, hhome]

theorem onBuffer_logs (ha : a.Valid) {y : Action Failure Buffer α}
    (h : ∀ b, b.Valid → Recounts (y b).events b.group b.pool (y b).state.group (y b).state.pool)
    (name : String) : Logs (a.scopeOf name) (onBuffer name y) a := by
  rw [Logs]
  cases hm : find? name a.buffers with
  | none =>
    rw [onBuffer_of_none hm]
    exact logged_of_same ⟨rfl, rfl, rfl⟩
  | some m =>
    obtain ⟨e, p, hs⟩ := ha.seat hm
    rw [onBuffer_of_seat hs, scopeOf_of_seat hs]
    exact (logged_restore hs.estate hs.pool (h _ (ha.buffer hs))).of_same ⟨rfl, rfl, rfl⟩

theorem onBuffer_still {y : Action Failure Buffer α}
    (h : ∀ b, (y b).events = [] ∧ (y b).state.group = b.group ∧ (y b).state.pool = b.pool)
    (name : String) (s : Scope) (a : Arena) : Logs s (onBuffer name y) a := by
  refine logs_still (fun a => ?_) s a
  simp only [onBuffer]
  split
  · exact ⟨rfl, rfl, rfl, rfl⟩
  · split
    · exact ⟨rfl, rfl, rfl, rfl⟩
    · next hassemble =>
      obtain ⟨e, p, he, hp, rfl, rfl⟩ := assemble_eq_some hassemble
      obtain ⟨hevents, hgroup, hpool⟩ := h ⟨_, e.group, p, _⟩
      refine ⟨hevents, rfl, ?_, ?_⟩
      · rw [restore, hgroup]
        exact set_of_getElem? he
      · rw [restore, hpool]
        exact set_of_getElem? hp

theorem onPoolAt_logs {y : Action Fault Pool α} (hi : i < a.pools.length) (hlender : s.lender = some i)
    (hlog : y.Reports (·.reuses = true))
    (hreclaimed : ∀ p, (y p).state.ledger.reclaimedLeases = p.ledger.reclaimedLeases)
    (hslots : ∀ p, (y p).state.usedSlots + (y p).events.countP Event.reuses = p.usedSlots) :
    Logs s (onPoolAt i y) a :=
  logged_setPool hi hlender (hlog _) (hreclaimed _) (hslots _)

/-- If a member was the last one of its group, the storage goes back to the pool of the group. -/
theorem bury_logs (he : a.groups[m.group]? = some e) (hp : a.pools[e.pool]? = some p)
    (hvalid : e.group.Valid) (hgroup : s.group = some m.group) (hpool : s.pool = some e.pool) :
    Logs s (bury m) a := by
  rw [Logs]
  cases hheld : a.isHeld m.group with
  | true =>
    rw [bury, if_pos hheld]
    exact logged_of_same ⟨rfl, rfl, rfl⟩
  | false =>
    cases hs : e.group.storage with
    | none =>
      rw [bury_of_free he hp hheld (Buffer.giveBack_of_none hs _)]
      exact logged_of_same ⟨rfl, set_of_getElem? he, set_of_getElem? hp⟩
    | some t =>
      rw [bury_of_free he hp hheld (Buffer.giveBack_of_some hs _)]
      have hend := Recounts.of_abandon hs (hvalid.live t hs) p
      refine Logged.of_closing (logged_restore he hp hend) (fun ev hev => ?_) hgroup hpool
      rcases List.mem_cons.1 hev with rfl | hev
      · rfl
      · have hlends := (endless_of_parks (Pool.takeBack_reports t p)).2
        exact Bool.eq_false_iff.2 (List.countP_eq_zero.1 hlends ev hev)

theorem enrol_logs (hc : c.Valid)
    (hold : ∀ old, find? name c.buffers = some old →
      s.group = some old.group ∧ s.pool = c.poolOf old.group) (m : Member) :
    Logs s (enrol name m) c := by
  rw [Logs, enrol, current_bind, modify_bind]
  cases hfind : find? name c.buffers with
  | none =>
    change Logged s [] c (c.seatAt name m)
    exact logged_of_same ⟨rfl, rfl, rfl⟩
  | some old =>
    obtain ⟨e, p, hs⟩ := hc.seat hfind
    obtain ⟨hgroup, hpool⟩ := hold old hfind
    rw [poolOf, hs.estate] at hpool
    have hvalid := (hc.estates e (List.mem_of_getElem? hs.estate)).2
    have hseat : Logged s [] c (c.seatAt name m) := logged_of_same ⟨rfl, rfl, rfl⟩
    have hbury : Logs s (bury old) (c.seatAt name m) := bury_logs hs.estate hs.pool hvalid hgroup hpool
    exact hseat.trans hbury

theorem scope_of_course {y : Account} {old : Member} (ha : a.Valid) (hcourse : Course y a c)
    (hgroup : s.group = a.groupOf name) (hpool : s.pool = a.homeOf name)
    (hm : find? name a.buffers = some m) (hsame : old.group = m.group) :
    s.group = some old.group ∧ s.pool = c.poolOf old.group := by
  obtain ⟨e, p, hs⟩ := ha.seat hm
  obtain ⟨e', he', hpool', -⟩ := hcourse.groups ha hs.estate
  have hscope := scopeOf_of_seat hs
  refine ⟨?_, ?_⟩
  · rw [hgroup, hsame]
    exact congrArg Scope.group hscope
  · rw [hpool, hsame, poolOf, he', Option.map_some, hpool']
    exact congrArg Scope.pool hscope

end Logs

section Founding

variable {s : Scope} {a : Arena} {pool : Nat}

theorem allocate_logs (hpool : pool < a.pools.length) (hlender : s.lender = some pool) (kind : StorageKind)
    (n m : Nat) (expand : Bool) : Logs s (allocate pool kind n m expand) a := by
  refine logs_ask_bind fun _ _ => ?_
  refine (onPoolAt_logs hpool hlender (Pool.lend_reports kind n m) (Pool.reclaimed_lend kind n m)
    (Pool.usedSlots_lend kind n m)).bind fun t c log _ => ?_
  exact logged_addGroup c pool _ s

theorem allocateCopy_logs {data : Bytes} {m : Nat} (ha : a.Valid) (hpool : pool < a.pools.length)
    (hlender : s.lender = some pool) (hm : m ≤ Word.largest) (hle : data.length ≤ m)
    (kind : StorageKind) (expand : Bool) : Logs s (allocateCopy pool kind data m expand) a := by
  have hlent := logged_setPool hpool hlender (Pool.lend_reports kind data.length m (a.poolAt pool))
    (Pool.reclaimed_lend kind data.length m _) (Pool.usedSlots_lend kind data.length m _)
  rcases ho : Pool.lend kind data.length m (a.poolAt pool) with ⟨f | t, q, log⟩
  · rw [ho] at hlent
    rwa [Logs, allocateCopy_of_refused hle ho]
  · rw [ho] at hlent
    rw [Logs, allocateCopy_of_lend ha hpool hm hle ho]
    exact List.append_nil log ▸ hlent.trans (logged_addGroup _ pool _ s)

theorem addPool_logs (slots : Option Nat) (s : Scope) (a : Arena) :
    Logs s (addPool (Pool.withSlots slots)) a := logged_addPool a slots s

theorem allocateAlone_logs (hlender : s.lender = some a.pools.length) (n m : Nat) :
    Logs s (allocateAlone n m) a := by
  rw [Logs]
  rcases allocateAlone_cases n m a with ⟨f, hrun, -⟩ | ⟨-, t, q, hlend, hrun⟩
  · rw [hrun]
    exact logged_of_same ⟨rfl, rfl, rfl⟩
  · rw [hrun]
    have hpool : ({ a with pools := a.pools ++ [.plain a.system] } : Arena).poolAt a.pools.length =
        .plain a.system := poolAt_addPool _ a
    have hreclaimed := Pool.reclaimed_lend .heap n m (.plain a.system)
    have hslots := Pool.usedSlots_lend .heap n m (.plain a.system)
    rw [hlend] at hreclaimed hslots
    rw [← hpool] at hreclaimed hslots
    have hlent := logged_setPool (lt_addPool a _) hlender (fun _ he => (List.not_mem_nil he).elim)
      hreclaimed hslots
    exact (logged_addPool a none s).trans (hlent.trans (logged_addGroup _ _ t s))

theorem adopt_logs (data : Bytes) (expand : Bool) (s : Scope) (a : Arena) :
    Logs s (adopt data expand) a :=
  (addPool_logs none s a).bind fun i c _ _ => logged_addGroup c i _ s

end Founding

end Arena

open Arena
open Table (find? put)
open SharedBuffer.Action (modify_bind reports_update)

namespace Making

def lender (a : Arena) : Making → Option Nat
  | .allocate .. => some a.pools.length
  | .adopt _ => none
  | .request allocator _ => (find? allocator a.allocators).map Allocator.pool

theorem run_logs {a : Arena} {s : Scope} (ha : a.Valid) {what : Making} (hfits : what.Fits)
    (hlender : s.lender = what.lender a) : Logs s what.run a := by
  cases what with
  | allocate n m => exact allocateAlone_logs hlender n m
  | adopt data => exact adopt_logs data true s a
  | request allocator what =>
    refine logs_require fun al hal => ?_
    obtain ⟨hpool, hmax⟩ := ha.allocators _ (Table.mem_of_find? hal)
    rw [lender, hal, Option.map_some] at hlender
    cases what with
    | adopted data => exact adopt_logs data _ s a
    | copied data =>
      have hlongest : data.length ≤ Word.longest := hfits
      have hm : max al.config.maxCapacity data.length ≤ Word.largest :=
        Nat.max_le.2 ⟨hmax, Nat.le_trans hlongest (by decide)⟩
      exact allocateCopy_logs ha hpool hlender hm (Nat.le_max_right _ _) _ _
    | _ => exact allocate_logs hpool hlender _ _ _ _

end Making

namespace Derivation

theorem run_recounts {b : Buffer} (hb : b.Valid) (d : Derivation) :
    Recounts (d.run b).events b.group b.pool (d.run b).state.group (d.run b).state.pool := by
  have hrun := d.run_meets hb
  rcases ho : d.run b with ⟨f | made, c, log⟩
  · rw [ho] at hrun
    exact hrun.course.recounts hb
  · rw [ho] at hrun
    exact hrun.1.recounts hb

end Derivation

namespace Command

variable {a : Arena} {s : Scope} {name target : String}

def scope (a : Arena) : Command → Scope
  | .make what target => { a.scopeOf target with lender := what.lender a }
  | .drop name | .change name _ => a.scopeOf name
  | .derive name _ target => { a.scopeOf target with lender := a.homeOf name }
  | .exchange name other x =>
    match x.receiver name other with
    | none => {}
    | some receiver => a.scopeOf receiver
  | .poolLend pool .. | .poolRelend pool .. => { lender := find? pool a.poolNames }
  | .poolTakeBack pool _ | .poolShrink pool => { pool := find? pool a.poolNames }
  | .allocatorShrink allocator => { pool := (find? allocator a.allocators).map Allocator.pool }
  | _ => {}

theorem make_logs (ha : a.Valid) {what : Making} (hfits : what.Fits) (target : String) :
    Logs ((make what target).scope a) (make what target).run a := by
  refine (Making.run_logs ha hfits rfl).bind fun m c log hmade => Logs.then_pure ?_ _
  have hfounds := Making.run_meets ha hfits
  rw [hmade] at hfounds
  refine enrol_logs (hfounds.course.valid ha) (fun old hold => ?_) m
  rw [hfounds.buffers] at hold
  exact scope_of_course ha hfounds.course rfl rfl hold rfl

theorem drop_logs (ha : a.Valid) (name : String) :
    Logs ((Command.drop name).scope a) (Command.drop name).run a := by
  refine Logs.then_pure (logs_require fun m hm => ?_) _
  obtain ⟨e, p, hs⟩ := ha.seat hm
  have hvalid := (ha.estates e (List.mem_of_getElem? hs.estate)).2
  have hbury : Logs (a.scopeOf name) (bury m) (a.leave name) := by
    rw [scopeOf_of_seat hs]
    exact bury_logs hs.estate hs.pool hvalid rfl rfl
  have hleave : Logged (a.scopeOf name) [] a (a.leave name) := logged_of_same ⟨rfl, rfl, rfl⟩
  rw [Logs, modify_bind]
  exact hleave.trans hbury

section Derive

variable {d : Derivation} {made : Handle × Option Storage} {c : Arena} {log : List Event}

theorem derived_of_ok (ha : a.Valid) (ho : onBuffer name (lift d.run) a = ⟨.ok made, c, log⟩) :
    ∃ m e p b, a.Seat name m e p ∧ SharedBuffer.Course d.effect (a.bufferOf name m e p) b log ∧
      d.Made b made ∧ c = a.settle name m e.pool b := by
  cases hm : find? name a.buffers with
  | none =>
    rw [onBuffer_of_none hm] at ho
    cases ho
  | some m =>
    obtain ⟨e, p, hs⟩ := ha.seat hm
    have hrun := d.run_meets (ha.buffer hs)
    rcases hd : d.run (a.bufferOf name m e p) with ⟨f | v, b, events⟩
    · rw [onBuffer_of_error hs hd] at ho
      cases ho
    · rw [onBuffer_of_ok hs hd] at ho
      rw [hd] at hrun
      cases ho
      exact ⟨m, e, p, b, hs, hrun.1, hrun.2, rfl⟩

theorem member_of_put {m old : Member} {h : Handle} (hm : find? name a.buffers = some m)
    (hold : find? target (put name ⟨m.group, h⟩ a.buffers) = some old) :
    ∃ m', find? target a.buffers = some m' ∧ old.group = m'.group := by
  by_cases hne : name = target
  · rw [← hne] at hold ⊢
    cases (Table.find?_put_self name _ a.buffers).symm.trans hold
    exact ⟨m, hm, rfl⟩
  · exact ⟨old, (Table.find?_put_of_ne hne _ a.buffers).symm.trans hold, rfl⟩

theorem enrolDerived_logs (ha : a.Valid) (ho : onBuffer name (lift d.run) a = ⟨.ok made, c, log⟩)
    (hgroup : s.group = a.groupOf target) (hpool : s.pool = a.homeOf target) :
    Logs s (enrolDerived name target made) c := by
  obtain ⟨m, e, p, b, hs, hcourse, hmade, rfl⟩ := derived_of_ok ha ho
  have hdeed := derive_course hs hcourse
  obtain ⟨h, extra⟩ := made
  cases extra with
  | none =>
    refine logs_require fun m' _ => enrol_logs (hdeed.valid ha) (fun old hold => ?_) _
    obtain ⟨m', hm', hsame⟩ := member_of_put hs.member hold
    exact scope_of_course ha hdeed hgroup hpool hm' hsame
  | some t =>
    obtain ⟨-, -, ht, -⟩ := hmade
    have hlt : e.pool < (a.settle name m e.pool b).pools.length :=
      Nat.lt_of_lt_of_eq (lt_of_getElem? hs.pool) List.length_set.symm
    have hboth := hdeed.trans (Deed.addGroup hlt ht).course
    rw [Logs, enrolDerived]
    dsimp only
    rw [Action.bind_of_ok (foundCopy_settle hs b h t)]
    refine (logged_addGroup _ e.pool t s).trans (enrol_logs (hboth.valid ha) (fun old hold => ?_) _)
    obtain ⟨m', hm', hsame⟩ := member_of_put hs.member hold
    exact scope_of_course ha hboth hgroup hpool hm' hsame

theorem derive_logs (ha : a.Valid) (name target : String) (d : Derivation) :
    Logs ((derive name d target).scope a) (derive name d target).run a := by
  have hrun : (derive name d target).run =
      (onBuffer name (lift d.run) >>= enrolDerived name target) >>= fun _ => pure .done :=
    (Action.bind_assoc _ _ _).symm
  have hlog : ∀ e ∈ (onBuffer name (lift d.run) a).events, e.reuses = true := by
    cases hm : find? name a.buffers with
    | none =>
      rw [onBuffer_of_none hm]
      exact fun _ he => (List.not_mem_nil he).elim
    | some m =>
      obtain ⟨e, p, hs⟩ := ha.seat hm
      rw [onBuffer_of_seat hs]
      exact d.reuses_of_run (ha.buffer hs)
  have hfirst : Logs (a.scopeOf name) (onBuffer name (lift d.run)) a :=
    onBuffer_logs ha (fun b hb => d.run_recounts hb) name
  have hlent : Logs ((derive name d target).scope a) (onBuffer name (lift d.run)) a :=
    hfirst.of_lending hlog rfl
  -- The lender is the pool of the source, but who gives up a storage is the old handle of the target.
  rw [hrun]
  exact (hlent.bind fun made c log ho => enrolDerived_logs ha ho rfl rfl).then_pure _

end Derive

theorem change_logs (ha : a.Valid) (name : String) {c : Change} (hc : c.Fits) :
    Logs ((change name c).scope a) (change name c).run a :=
  onBuffer_logs ha (fun _ hb => Change.run_recounts hb hc) name

section Exchange

variable {source dest : String}

theorem copyBetween_logs (ha : a.Valid) (source dest : String) (i j n : Nat) (s : Scope) :
    Logs s (copyBetween source dest i j n) a := by
  refine logs_ask_bind fun b _ => ?_
  refine (onBuffer_logs ha (fun o ho => ?_) dest).elsewhere
    (onBuffer_reports (Change.lift_reports (reports_update _)) dest) s
  cases hcopy : Buffer.copyOver b i j n o with
  | error f =>
    rw [lift, Action.mapError, Action.update_of_error hcopy]
    exact .refl _ _
  | ok d =>
    obtain ⟨bytes, -, hwrite⟩ := Buffer.copyOver_eq_ok hcopy
    rw [lift, Action.mapError, Action.update_of_ok hcopy]
    exact (Buffer.course_write hwrite).recounts ho

theorem pour_logs (ha : a.Valid) (source dest : String) (n : Nat) :
    Logs (a.scopeOf dest) (pour source dest n) a := by
  have hstate := state_onBuffer_ask ha (Buffer.peek n) source
  refine Logs.bind (onBuffer_still (fun _ => ⟨rfl, rfl, rfl⟩) source _ a) fun bytes c log ho => ?_
  rw [ho] at hstate
  obtain rfl : c = a := hstate
  have happend : ∀ b, b.Valid → Recounts (lift (Buffer.append bytes) b).events b.group b.pool
      (lift (Buffer.append bytes) b).state.group (lift (Buffer.append bytes) b).state.pool := by
    intro b hb
    obtain ⟨e, hdoes⟩ := Buffer.does_of_meets (Buffer.append_performs hb bytes).lift
    exact hdoes.recounts hb
  refine (onBuffer_logs ha happend dest).bind fun _ c _ _ => ?_
  exact onBuffer_still (fun _ => ⟨rfl, rfl, rfl⟩) source _ c

theorem exchange_logs (ha : a.Valid) (name other : String) (x : Exchange) :
    Logs ((exchange name other x).scope a) (exchange name other x).run a := by
  refine logs_ask_bind fun o _ => logs_ask_bind fun b _ => ?_
  split
  · exact logs_still (fun _ => ⟨rfl, rfl, rfl, rfl⟩) _ a
  · cases x with
    | getBytesTo i j n => exact (copyBetween_logs ha _ _ _ _ _ _).then_pure _
    | setBytesFrom i j n => exact (copyBetween_logs ha _ _ _ _ _ _).then_pure _
    | readInto n => exact (pour_logs ha _ _ n).then_pure _
    | writeFrom n => exact (pour_logs ha _ _ n).then_pure _
    | equals | compare =>
      exact logs_ask_bind fun o _ => logs_ask_bind fun b _ =>
        (logs_still (fun _ => ⟨rfl, rfl, rfl, rfl⟩) _ a).bind fun v c _ _ => logs_pure _ _ c

end Exchange

section Tables

theorem putStore_logs (target : String) (t : Storage) (s : Scope) (a : Arena) :
    Logs s (putStore target t) a := logs_still (fun _ => ⟨rfl, rfl, rfl, rfl⟩) s a

theorem putAllocator_logs (target : String) (al : Allocator) (s : Scope) (a : Arena) :
    Logs s (putAllocator target al) a := logs_still (fun _ => ⟨rfl, rfl, rfl, rfl⟩) s a

theorem foundAllocator_logs (config : Config) (pooling : PoolingStrategy) (target : String) (s : Scope)
    (a : Arena) :
    Logs s (addPool (Pool.ofStrategy pooling) >>= fun i => putAllocator target ⟨config, i⟩) a := by
  obtain ⟨slots, hslots⟩ := Pool.ofStrategy_eq_withSlots pooling
  rw [hslots]
  exact (addPool_logs slots s a).bind fun i c _ _ => putAllocator_logs target _ s c

end Tables

def direct : Command → Bool
  | .poolTakeBack .. | .poolShrink _ | .allocatorShrink _ => true
  | _ => false

theorem run_logs {c : Command} (ha : a.Valid) (hc : c.Fits) (hdirect : c.direct = false) :
    Logs (c.scope a) c.run a := by
  cases c with
  | make what target => exact make_logs ha hc target
  | drop name => exact drop_logs ha name
  | ask name query => exact onBuffer_still (fun _ => ⟨rfl, rfl, rfl⟩) name _ a
  | change name c => exact change_logs ha name hc
  | derive name d target => exact derive_logs ha name target d
  | exchange name other x => exact exchange_logs ha name other x
  | storeNew kind n m target | storeAdopt data m target =>
    exact (logs_still (fun _ => ⟨rfl, rfl, rfl, rfl⟩) _ a).bind fun t c _ _ => putStore_logs target t _ c
  | storeResize name n target =>
    exact logs_require fun t _ => (logs_still (fun _ => ⟨rfl, rfl, rfl, rfl⟩) _ a).bind fun t c _ _ =>
      putStore_logs target t _ c
  | store name x =>
    exact logs_require fun t _ => logs_still (fun _ => ⟨x.run_reports.events_eq_nil t, rfl, rfl, rfl⟩) _ a
  | poolNew slots target =>
    exact (addPool_logs slots _ a).bind fun i c _ _ => logs_still (fun _ => ⟨rfl, rfl, rfl, rfl⟩) _ c
  | poolLend pool kind n m target =>
    refine logs_require fun i hi => ?_
    have hlt := ha.poolNames _ (Table.mem_of_find? hi)
    exact (onPoolAt_logs hlt hi (Pool.lend_reports kind n m) (Pool.reclaimed_lend kind n m)
      (Pool.usedSlots_lend kind n m)).bind fun t c _ _ => putStore_logs target t _ c
  | poolRelend pool name n target =>
    refine logs_require fun t _ => logs_require fun i hi => ?_
    have hlt := ha.poolNames _ (Table.mem_of_find? hi)
    exact (onPoolAt_logs hlt hi (Pool.relend_reports t n) (Pool.reclaimed_relend n t)
      (Pool.usedSlots_relend n t)).bind fun t c _ _ => putStore_logs target t _ c
  | poolTakeBack pool name => cases hdirect
  | poolShrink pool => cases hdirect
  | poolStatistics pool | poolStrategy pool =>
    exact logs_require fun i _ => logs_still (fun _ => ⟨rfl, rfl, rfl, rfl⟩) _ a
  | allocatorNew settings target =>
    exact logs_ask_bind fun config _ => foundAllocator_logs config config.pooling target _ a
  | allocatorOnPool pool settings target =>
    exact logs_require fun i _ => logs_ask_bind fun config _ => putAllocator_logs target _ _ a
  | allocatorDefault target => exact foundAllocator_logs {} .unpooled target _ a
  | allocatorClone allocator target => exact logs_require fun al _ => putAllocator_logs target al _ a
  | allocatorInfo allocator | allocatorStatistics allocator =>
    exact logs_require fun al _ => logs_still (fun _ => ⟨rfl, rfl, rfl, rfl⟩) _ a
  | allocatorShrink allocator => cases hdirect

def handed (k : Nat) (a : Arena) (c : Command) : Nat :=
  match c with
  | .poolTakeBack _ name => if (find? name a.stores).isSome then share (c.scope a).pool k 1 else 0
  | _ => 0

def shrunk (k : Nat) (a : Arena) (c : Command) : Nat :=
  match c with
  | .poolShrink _ | .allocatorShrink _ => share (c.scope a).pool k (a.poolAt k).usedSlots
  | _ => 0

/-- What has become of the groups and the pools is what the events of the command say of those that
it deals with, apart from what it hands to a pool or takes from one by hand. -/
structure Recorded (c : Command) (a : Arena) : Prop where
  spent : ∀ g, (c.run a).state.spent g =
    a.spent g + share (c.scope a).group g ((c.run a).events.countP Event.deallocates)
  forsaken : ∀ g, (c.run a).state.forsaken g =
    a.forsaken g + share (c.scope a).group g ((c.run a).events.countP Event.abandons)
  reclaimed : ∀ k, ((c.run a).state.poolAt k).ledger.reclaimedLeases =
    Word.countOn (a.poolAt k).ledger.reclaimedLeases
      (share (c.scope a).pool k ((c.run a).events.countP Event.closes) + c.handed k a)
  slots : ∀ k, ((c.run a).state.poolAt k).usedSlots +
      (share (c.scope a).lender k ((c.run a).events.countP Event.reuses) + c.shrunk k a) =
    (a.poolAt k).usedSlots + share (c.scope a).pool k ((c.run a).events.countP Event.parks)
  closing : ∀ e ∈ (c.run a).events, e.closes = true →
    (c.scope a).group.isSome = true ∧ (c.scope a).pool.isSome = true
  parking : ∀ e ∈ (c.run a).events, e.parks = true → (c.scope a).pool.isSome = true
  reusing : ∀ e ∈ (c.run a).events, e.reuses = true → (c.scope a).lender.isSome = true

section Recorded

variable {c : Command}

theorem Recorded.of_logged (h : Logs (c.scope a) c.run a) (hhanded : ∀ k, c.handed k a = 0)
    (hshrunk : ∀ k, c.shrunk k a = 0) : c.Recorded a where
  spent := h.spent
  forsaken := h.forsaken
  reclaimed k := by rw [hhanded, Nat.add_zero, h.reclaimed]
  slots k := by rw [hshrunk, Nat.add_zero, h.slots]
  closing := h.closing
  parking := h.parking
  reusing := h.reusing

theorem recorded_of_refused {f : Failure} (hrun : c.run a = ⟨.error f, a, []⟩)
    (hhanded : ∀ k, c.handed k a = 0) (hshrunk : ∀ k, c.shrunk k a = 0) : c.Recorded a := by
  refine .of_logged ?_ hhanded hshrunk
  rw [Logs, hrun]
  exact logged_of_same ⟨rfl, rfl, rfl⟩

theorem recorded_of_serve {i n m : Nat} {q : Pool} (hi : i < a.pools.length)
    (hscope : (c.scope a).pool = some i) (hgroups : (c.run a).state.groups = a.groups)
    (hsystem : (c.run a).state.system = a.system)
    (hpools : (c.run a).state.pools = a.pools.set i q) (hlog : ∀ e ∈ (c.run a).events, e.parks = true)
    (hreclaimed : q.ledger.reclaimedLeases = Word.countOn (a.poolAt i).ledger.reclaimedLeases n)
    (hhanded : ∀ k, c.handed k a = share (some i) k n)
    (hslots : q.usedSlots + m = (a.poolAt i).usedSlots + (c.run a).events.countP Event.parks)
    (hshrunk : ∀ k, c.shrunk k a = share (some i) k m) : c.Recorded a := by
  obtain ⟨hendless, hlends⟩ := endless_of_parks hlog
  have hswap : Swapped i q a (c.run a).state := ⟨hi, hsystem, hpools⟩
  constructor
  · intro g
    rw [hendless.deallocates, share_zero, Arena.spent, hgroups]
    rfl
  · intro g
    rw [hendless.abandons, share_zero, Arena.forsaken, hgroups]
    rfl
  · intro k
    rw [hendless.closes, share_zero, Nat.zero_add, hhanded]
    exact hswap.reclaimed hreclaimed k
  · intro k
    rw [hlends, share_zero, Nat.zero_add, hshrunk, hscope]
    exact hswap.moves hslots k
  · exact fun e he hcloses => absurd hcloses (List.countP_eq_zero.1 hendless.closes e he)
  · exact fun _ _ _ => by rw [hscope]; rfl
  · exact fun e he hreuses => absurd hreuses (List.countP_eq_zero.1 hlends e he)

theorem shrink_recorded {i : Nat} (hi : i < a.pools.length) (hscope : (c.scope a).pool = some i)
    (hrun : c.run a = (Answer.number <$> onPoolAt i Pool.shrink) a) (hhanded : ∀ k, c.handed k a = 0)
    (hshrunk : ∀ k, c.shrunk k a = share (c.scope a).pool k (a.poolAt k).usedSlots) : c.Recorded a := by
  have hstate : (c.run a).state = a.setPool i (Pool.shrink (a.poolAt i)).state := by
    rw [hrun]
    exact Outcome.Meets.state (P := fun b => b = _) (Action.meets_map (Outcome.meets_of_state rfl))
  have hevents : (c.run a).events = [] := by
    rw [hrun, Action.events_map]
    exact Pool.events_shrink _
  refine recorded_of_serve (n := 0) (m := (a.poolAt i).usedSlots) hi hscope (by rw [hstate]; rfl)
    (by rw [hstate]; rfl) (by rw [hstate]; rfl) (by rw [hevents]; exact fun _ he => (List.not_mem_nil he).elim)
    (Pool.reclaimed_shrink _) (fun k => by rw [hhanded, share_zero]) ?_ fun k => ?_
  · rw [hevents, Pool.usedSlots_shrink, Nat.zero_add]
    rfl
  · rw [hshrunk, hscope]
    by_cases hk : i = k
    · rw [hk]
    · rw [share_ne hk, share_ne hk]

theorem takeBack_recorded (ha : a.Valid) (pool name : String) : (poolTakeBack pool name).Recorded a := by
  cases hi : find? pool a.poolNames with
  | none =>
    refine recorded_of_refused (Action.bind_of_error (require_of_none hi)) (fun k => ?_) fun _ => rfl
    rw [handed, scope, hi]
    exact ite_self 0
  | some i =>
    have hfirst := require_of_some hi
    cases hs : find? name a.stores with
    | none =>
      have hrun : (poolTakeBack pool name).run a = ⟨.error (.unknownName name), a, []⟩ := by
        rw [run, Action.bind_of_ok hfirst, Action.bind_of_error (require_of_none hs)]
        rfl
      refine recorded_of_refused hrun (fun k => ?_) fun _ => rfl
      rw [handed, hs]
      rfl
    | some t =>
      have hlt := ha.poolNames _ (Table.mem_of_find? hi)
      have hrun : (poolTakeBack pool name).run a =
          (onPoolAt i (Pool.takeBack t) >>= fun _ => pure .done) { a with stores := a.stores.erase name } := by
        rw [run, Action.bind_of_ok hfirst, Action.bind_of_ok (require_of_some hs), modify_bind]
        rfl
      have hstate : ((poolTakeBack pool name).run a).state =
          { a.setPool i (Pool.takeBack t (a.poolAt i)).state with stores := a.stores.erase name } := by
        rw [hrun, Action.state_then_pure]
        rfl
      have hevents : ((poolTakeBack pool name).run a).events = (Pool.takeBack t (a.poolAt i)).events := by
        rw [hrun]
        exact Action.events_map (fun _ => Answer.done) (onPoolAt i (Pool.takeBack t)) _
      refine recorded_of_serve (n := 1) (m := 0) hlt hi (by rw [hstate]; rfl) (by rw [hstate]; rfl)
        (by rw [hstate]; rfl) ?_
        (Pool.reclaimed_takeBack t _) (fun k => ?_) ?_ fun k => ?_
      · rw [hevents]
        exact Pool.takeBack_reports t _
      · rw [handed, hs, scope, hi]
        rfl
      · rw [hevents]
        exact Pool.usedSlots_takeBack t _
      · rw [share_zero]
        rfl

/-- Over every command the ends of groups and the ledgers of pools move by what its events say. -/
theorem run_recorded (ha : a.Valid) (hc : c.Fits) : c.Recorded a := by
  cases hdirect : c.direct with
  | false =>
    have hnone : (∀ k, c.handed k a = 0) ∧ ∀ k, c.shrunk k a = 0 := by
      cases c with
      | poolTakeBack pool name => cases hdirect
      | poolShrink pool => cases hdirect
      | allocatorShrink allocator => cases hdirect
      | _ => exact ⟨fun _ => rfl, fun _ => rfl⟩
    exact .of_logged (run_logs ha hc hdirect) hnone.1 hnone.2
  | true =>
    cases c with
    | poolTakeBack pool name => exact takeBack_recorded ha pool name
    | poolShrink pool =>
      cases hi : find? pool a.poolNames with
      | none =>
        refine recorded_of_refused (Action.bind_of_error (require_of_none hi)) (fun _ => rfl) fun k => ?_
        rw [shrunk, scope, hi]
        rfl
      | some i =>
        exact shrink_recorded (ha.poolNames _ (Table.mem_of_find? hi)) hi
          (Action.bind_of_ok (require_of_some hi)) (fun _ => rfl) fun _ => rfl
    | allocatorShrink allocator =>
      cases hal : find? allocator a.allocators with
      | none =>
        refine recorded_of_refused (Action.bind_of_error (require_of_none hal)) (fun _ => rfl) fun k => ?_
        rw [shrunk, scope, hal]
        rfl
      | some al =>
        refine shrink_recorded (ha.allocators _ (Table.mem_of_find? hal)).1 ?_
          (Action.bind_of_ok (require_of_some hal)) (fun _ => rfl) fun _ => rfl
        rw [scope, hal]
        rfl
    | _ => cases hdirect

end Recorded

end Command

end SharedBuffer
