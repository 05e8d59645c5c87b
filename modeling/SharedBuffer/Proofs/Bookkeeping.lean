import SharedBuffer.Proofs.Commands
import SharedBuffer.Proofs.Dealings

/-!
What is asked of a pool in a run, request by request. Main statement: if storages that were borrowed by
hand go back at most once, the pool of a run is what the requests have made of a new one, each of them
was due, and on loan is exactly what groups hold and what was borrowed by hand.
-/

namespace SharedBuffer

open Pool (Audit Book Request)

theorem Table.exists_put {α : Type} {P : α → Prop} {name : String} {v : α} {t : Table α}
    (h : ∃ entry ∈ put name v t, P entry.2) : P v ∨ ∃ entry ∈ t, P entry.2 := by
  obtain ⟨entry, hentry, hp⟩ := h
  rcases mem_put hentry with rfl | hold
  · exact .inl hp
  · exact .inr ⟨entry, hold, hp⟩

namespace Arena

open Buffer (Discreet Trades discreetAppend discreetSeek tame_copyOver)
open Table (find? put erase)
open SharedBuffer.Action (current_bind modify_bind)

def stake (k : Nat) (e : Estate) : Option (StorageKind × Nat × Nat) :=
  if e.pool = k then e.group.storage.map Storage.shape else none

def held (k : Nat) (a : Arena) : Loans := a.groups.filterMap (stake k)

def Listed (k : Nat) (a : Arena) : Prop :=
  (∃ entry ∈ a.poolNames, entry.2 = k) ∨ ∃ entry ∈ a.allocators, entry.2.pool = k

/-- The requests are all that the pool `k` has been asked, and it has on loan what its groups hold and
what is out besides. Nothing is said of a plain pool of which nothing can be asked, since it may answer
for storages that it has not lent. -/
structure Backed (k : Nat) (rs : List Request) (out : Loans) (a : Arena) : Prop where
  lent : k < a.pools.length →
    Pool.Deals (a.poolAt k).unused [] rs (a.poolAt k) (a.held k ++ out) ∨
      (a.poolAt k).unused.freeList = none ∧ ¬a.Listed k
  absent : a.pools.length ≤ k → rs = [] ∧ a.held k ++ out = []

variable {a c : Arena} {k i g : Nat} {rs asked : List Request} {out more : Loans} {e : Estate}
  {m : Member} {p q : Pool} {name target : String} {α β : Type}

theorem filterMap_cons_perm {α β : Type} {l rest : List α} {x : α} (h : l.Perm (x :: rest))
    (f : α → Option β) : (l.filterMap f).Perm ((f x).toList ++ rest.filterMap f) := by
  have hperm := h.filterMap f
  rw [List.filterMap_cons] at hperm
  cases hx : f x with
  | none => rwa [hx] at hperm
  | some y => rwa [hx] at hperm

theorem held_set (he : a.groups[g]? = some e) (k : Nat) (e' : Estate) :
    ∃ others, (a.held k).Perm ((stake k e).toList ++ others) ∧
      ((a.groups.set g e').filterMap (stake k)).Perm ((stake k e').toList ++ others) :=
  ⟨_, filterMap_cons_perm (perm_of_getElem? he) (stake k),
    filterMap_cons_perm (set_perm (lt_of_getElem? he) e') (stake k)⟩

theorem Backed.deal (h : Backed k rs out a) (hk : k < a.pools.length)
    (hlen : c.pools.length = a.pools.length) (hlisted : c.Listed k → a.Listed k)
    (hdeals : Pool.Deals (a.poolAt k) (a.held k ++ out) asked (c.poolAt k) (c.held k ++ more)) :
    Backed k (rs ++ asked) more c := by
  refine ⟨fun _ => ?_, fun habsent => absurd hk (by omega)⟩
  rw [hdeals.unused]
  exact (h.lent hk).imp (fun hpast => hpast.trans hdeals)
    fun hplain => ⟨hplain.1, fun hl => hplain.2 (hlisted hl)⟩

theorem Backed.of_same (h : Backed k rs out a) (hlen : c.pools.length = a.pools.length)
    (hpool : c.poolAt k = a.poolAt k) (hheld : (c.held k).Perm (a.held k))
    (hlisted : c.Listed k → a.Listed k) : Backed k rs out c := by
  by_cases hk : k < a.pools.length
  · have hdeals : Pool.Deals (a.poolAt k) (a.held k ++ out) [] (c.poolAt k) (c.held k ++ out) :=
      hpool ▸ Pool.deals_nil (hheld.symm.append_right out)
    exact List.append_nil rs ▸ h.deal hk hlen hlisted hdeals
  · obtain ⟨hrs, hnone⟩ := h.absent (Nat.le_of_not_lt hk)
    refine ⟨fun hlt => absurd (hlen ▸ hlt) hk, fun _ => ⟨hrs, ?_⟩⟩
    exact List.perm_nil.1 (hnone ▸ hheld.append_right out)

theorem Backed.idle (h : Backed k rs out a) : Backed k (rs ++ []) out a := (List.append_nil rs).symm ▸ h

def directed (k i : Nat) (rs : List Request) : List Request := if i = k then rs else []

theorem Backed.restore {handle : Handle} {shared : Bool} {b : Buffer} (h : Backed k rs out a)
    (he : a.groups[g]? = some e) (hp : a.pools[e.pool]? = some p)
    (hb : Trades ⟨handle, e.group, p, shared⟩ asked b) :
    Backed k (rs ++ directed k e.pool asked) out (a.restore g e.pool b) := by
  obtain ⟨others, hbefore, hafter⟩ := held_set he k ⟨e.pool, b.group⟩
  have hlen : (a.restore g e.pool b).pools.length = a.pools.length := List.length_set
  have hlt := lt_of_getElem? hp
  by_cases hk : e.pool = k
  · subst hk
    rw [stake, if_pos rfl] at hbefore hafter
    rw [directed, if_pos rfl]
    refine h.deal hlt hlen (fun hl => hl) ?_
    have hpool : a.poolAt e.pool = p := by rw [poolAt, hp, Option.getD_some]
    have hpool' : (a.restore g e.pool b).poolAt e.pool = b.pool := poolAt_set_self hlt b.pool
    -- The buffer sees its own storage first and the rest as it stands.
    rw [hpool, hpool']
    refine (hb (others ++ out)).congr ?_ ?_
    · rw [← List.append_assoc]
      exact hbefore.append_right out
    · rw [← List.append_assoc]
      exact (hafter.append_right out).symm
  · rw [stake, if_neg hk] at hbefore hafter
    rw [directed, if_neg hk, List.append_nil]
    exact h.of_same hlen (poolAt_set_ne hk b.pool) (hafter.trans hbefore.symm) fun hl => hl

section Operations

def ofMember (k : Nat) (m : Member) (shared : Bool) (f : Buffer → List Request) (a : Arena) :
    List Request :=
  match a.assemble m shared with
  | none => []
  | some (pool, b) => directed k pool (f b)

def ofBuffer (k : Nat) (name : String) (f : Buffer → List Request) (a : Arena) : List Request :=
  match find? name a.buffers with
  | none => []
  | some m => ofMember k m (a.isShared name m.group) f a

def ofBurial (k : Nat) (m : Member) (a : Arena) : List Request :=
  if a.isHeld m.group then []
  else ofMember k m false (fun b => b.group.storage.toList.map .takeBack) a

def ofEnrolment (k : Nat) (name : String) (m : Member) (a : Arena) : List Request :=
  match find? name a.buffers with
  | none => []
  | some old => ofBurial k old (a.seatAt name m)

def ofDrop (k : Nat) (name : String) (a : Arena) : List Request :=
  match find? name a.buffers with
  | none => []
  | some m => ofBurial k m { a with buffers := erase name a.buffers }

def following {ε : Type} (o : Outcome ε Arena α) (f : α → Arena → List Request) : List Request :=
  match o.result with
  | .ok v => f v o.state
  | .error _ => []

theorem backed_bind {ε : Type} {x : Action ε Arena α} {y : α → Action ε Arena β}
    {f : α → Arena → List Request} (hx : Backed k (rs ++ asked) out (x a).state)
    (hy : ∀ v, (x a).result = .ok v →
      Backed k (rs ++ asked ++ f v (x a).state) out (y v (x a).state).state) :
    Backed k (rs ++ (asked ++ following (x a) f)) out ((x >>= y) a).state := by
  rcases ho : x a with ⟨e | v, c, log⟩
  · rw [ho] at hx
    rw [Action.bind_of_error ho]
    exact (List.append_nil asked).symm ▸ hx
  · rw [ho] at hy
    rw [Action.bind_of_ok ho, ← List.append_assoc]
    exact hy v rfl

theorem backed_ask_bind {ε : Type} (h : Backed k rs out a) {r : Arena → Except ε α}
    {y : α → Action ε Arena β} {f : α → Arena → List Request}
    (hy : ∀ v, r a = .ok v → Backed k (rs ++ f v a) out (y v a).state) :
    Backed k (rs ++ following (Action.ask r a) f) out ((Action.ask r >>= y) a).state := by
  have hasked : Backed k (rs ++ []) out (Action.ask r a).state := h.idle
  exact backed_bind hasked fun v hv => (List.append_nil rs).symm ▸ hy v hv

theorem backed_require {t : Arena → Table α} (h : Backed k rs out a)
    {y : α → Action Failure Arena β} {f : α → Arena → List Request}
    (hy : ∀ v, find? name (t a) = some v → Backed k (rs ++ f v a) out (y v a).state) :
    Backed k (rs ++ following (require t name a) f) out ((require t name >>= y) a).state := by
  exact backed_ask_bind h fun v hv => hy v (find?_of_require hv)

theorem backed_past_require {t : Arena → Table α} (h : Backed k rs out a) {y : α → Action Failure Arena β}
    (hy : ∀ v, find? name (t a) = some v → Backed k rs out (y v a).state) :
    Backed k rs out ((require t name >>= y) a).state := by
  have hnone : following (require t name a) (fun _ _ => []) = [] := by
    rw [following]
    split <;> rfl
  have hafter := backed_require (f := fun _ _ => []) h fun v hv => (hy v hv).idle
  rwa [hnone, List.append_nil] at hafter

theorem onBuffer_backed (h : Backed k rs out a) {x : Action Failure Buffer α}
    {f : Buffer → List Request} (name : String)
    (hx : ∀ m e p, a.groups[m.group]? = some e →
      Trades (a.bufferOf name m e p) (f (a.bufferOf name m e p)) (x (a.bufferOf name m e p)).state) :
    Backed k (rs ++ ofBuffer k name f a) out (onBuffer name x a).state := by
  rw [onBuffer, ofBuffer]
  cases hm : find? name a.buffers with
  | none => exact h.idle
  | some m =>
    dsimp only
    rw [ofMember]
    cases hassemble : a.assemble m (a.isShared name m.group) with
    | none => exact h.idle
    | some sight =>
      obtain ⟨pool, b⟩ := sight
      obtain ⟨e, p, he, hp, rfl, rfl⟩ := assemble_eq_some hassemble
      exact (h.restore he hp (hx m e p he)).of_same rfl rfl (.refl _) fun hl => hl

theorem discreet_backed (ha : a.Valid) (h : Backed k rs out a) {x : Action Failure Buffer α}
    (hx : Discreet x) (name : String) :
    Backed k (rs ++ ofBuffer k name hx.requests a) out (onBuffer name x a).state :=
  onBuffer_backed h name fun _ e _ he =>
    (hx.trades fun s hs => ((ha.estates e (List.mem_of_getElem? he)).2.storage s hs).1).1

theorem onBuffer_idle (h : Backed k rs out a) {x : Action Failure Buffer α} (name : String)
    (hx : ∀ b : Buffer, b.Trades [] (x b).state) : Backed k rs out (onBuffer name x a).state := by
  have hidle := onBuffer_backed h (f := fun _ => []) name fun m e p _ => hx (a.bufferOf name m e p)
  have hnone : ofBuffer k name (fun _ => []) a = [] := by
    rw [ofBuffer]
    split
    · rfl
    · rw [ofMember]
      split
      · rfl
      · exact ite_self []
  rwa [hnone, List.append_nil] at hidle

theorem bury_backed (h : Backed k rs out a) (m : Member) :
    Backed k (rs ++ ofBurial k m a) out (bury m a).state := by
  rw [bury, ofBurial]
  split
  · exact h.idle
  · rw [ofMember]
    cases hassemble : a.assemble m false with
    | none => exact h.idle
    | some sight =>
      obtain ⟨pool, b⟩ := sight
      obtain ⟨e, p, he, hp, rfl, rfl⟩ := assemble_eq_some hassemble
      exact h.restore he hp (Buffer.trades_giveBack _ _)

theorem buffers_backed (h : Backed k rs out a) (buffers : Table Member) :
    Backed k rs out { a with buffers := buffers } := h.of_same rfl rfl (.refl _) fun hl => hl

theorem stores_backed (h : Backed k rs out a) (stores : Table Storage) :
    Backed k rs out { a with stores := stores } := h.of_same rfl rfl (.refl _) fun hl => hl

theorem enrol_backed (h : Backed k rs out a) (name : String) (m : Member) :
    Backed k (rs ++ ofEnrolment k name m a) out (enrol name m a).state := by
  have hseat : Backed k rs out (a.seatAt name m) := buffers_backed h _
  rw [enrol, current_bind, modify_bind, ofEnrolment]
  cases find? name a.buffers with
  | none => exact hseat.idle
  | some old => exact bury_backed hseat old

theorem drop_backed (h : Backed k rs out a) (name : String) :
    Backed k (rs ++ ofDrop k name a) out (drop name a).state := by
  rw [drop, ofDrop]
  cases hm : find? name a.buffers with
  | none =>
    rw [Action.bind_of_error (require_of_none hm)]
    exact h.idle
  | some m =>
    rw [Action.bind_of_ok (require_of_some hm), modify_bind]
    exact bury_backed (buffers_backed h _) m

theorem backed_then {ε : Type} {x : Action ε Arena α} {y : α → Action ε Arena β}
    (hx : Backed k rs out (x a).state)
    (hy : ∀ v c, Backed k rs out c → Backed k rs out (y v c).state) :
    Backed k rs out ((x >>= y) a).state := by
  rcases ho : x a with ⟨e | v, c, log⟩
  · rw [ho] at hx
    rw [Action.bind_of_error ho]
    exact hx
  · rw [ho] at hx
    rw [Action.bind_of_ok ho]
    exact hy v c hx

theorem copyBetween_backed (h : Backed k rs out a) (source dest : String) (i j n : Nat) :
    Backed k rs out (copyBetween source dest i j n a).state :=
  backed_then (x := Action.ask (buffer source)) h fun b _ hc =>
    onBuffer_idle hc dest (tame_copyOver b i j n).trades

def ofPouring (k : Nat) (source dest : String) (n : Nat) (a : Arena) : List Request :=
  following (onBuffer source (lift (Action.ask (Buffer.peek n))) a) fun bytes =>
    ofBuffer k dest (discreetAppend bytes).requests

theorem pour_backed (ha : a.Valid) (h : Backed k rs out a) (source dest : String) (n : Nat) :
    Backed k (rs ++ ofPouring k source dest n a) out (pour source dest n a).state := by
  have hsame := state_onBuffer_ask ha (Buffer.peek n) source
  have hasked : Backed k (rs ++ []) out (onBuffer source (lift (Action.ask (Buffer.peek n))) a).state := by
    rw [List.append_nil, hsame]
    exact h
  refine backed_bind hasked fun bytes _ => ?_
  rw [List.append_nil, hsame]
  refine backed_then (discreet_backed ha h (discreetAppend bytes).lift dest) fun _ c hc => ?_
  exact onBuffer_idle hc source fun b => Buffer.trades_of_same rfl rfl

def ofAnswer (k : Nat) (name other : String) (a : Arena) : Exchange → List Request
  | .readInto n => ofPouring k name other n a
  | .writeFrom n => ofPouring k other name n a
  | .getBytesTo .. | .setBytesFrom .. | .equals | .compare => []

def ofExchange (k : Nat) (name other : String) (x : Exchange) (a : Arena) : List Request :=
  following (Action.ask (buffer other) a) fun _ a => following (Action.ask (buffer name) a) fun _ a =>
    if name = other then [] else ofAnswer k name other a x

theorem answer_backed (ha : a.Valid) (h : Backed k rs out a) (name other : String) (x : Exchange) :
    Backed k (rs ++ ofAnswer k name other a x) out (x.answer name other a).state := by
  cases x with
  | getBytesTo i j n =>
    exact backed_then (copyBetween_backed h name other i j n).idle fun _ _ hc => hc
  | setBytesFrom i j n =>
    exact backed_then (copyBetween_backed h other name j i n).idle fun _ _ hc => hc
  | readInto n => exact backed_then (pour_backed ha h name other n) fun _ _ hc => hc
  | writeFrom n => exact backed_then (pour_backed ha h other name n) fun _ _ hc => hc
  | equals | compare =>
    rw [ofAnswer, List.append_nil]
    exact backed_then (x := Action.ask (buffer other)) h fun _ _ hc =>
      backed_then (x := Action.ask (buffer name)) hc fun _ _ hc =>
        backed_then (x := lift (Action.ask _)) hc fun _ _ hc => hc

theorem exchange_backed (ha : a.Valid) (h : Backed k rs out a) (name other : String) (x : Exchange) :
    Backed k (rs ++ ofExchange k name other x a) out (x.run name other a).state := by
  have here : Backed k (rs ++ []) out a := h.idle
  refine backed_ask_bind h fun _ _ => backed_ask_bind h fun _ _ => ?_
  have hanswer := answer_backed ha h name other x
  by_cases hsame : name = other
  · cases x with
    | equals | compare =>
      simp only [hsame, Exchange.compares, Bool.not_true, Bool.false_eq_true, and_false, if_false]
      exact hsame ▸ hanswer
    | _ =>
      simp only [hsame, Exchange.compares, Bool.not_false, and_self, if_true]
      exact here
  · rw [if_neg hsame, if_neg fun hboth => hsame hboth.1]
    exact hanswer

end Operations

section Founding

variable {s : Storage} {kind : StorageKind} {n : Nat} {t : Book}

theorem stake_holding (k i : Nat) (s : Storage) :
    stake k ⟨i, .holding s⟩ = if i = k then some s.shape else none := rfl

theorem Backed.request (h : Backed k rs (t.loans ++ out) a) (hi : i < a.pools.length) (r : Request)
    (hr : i = k → r.Due t) :
    Backed k (rs ++ directed k i [r]) ((if i = k then r.note (a.poolAt k) t else t).loans ++ out)
      (a.setPool i (r.serve (a.poolAt i))) := by
  have hlen : (a.setPool i (r.serve (a.poolAt i))).pools.length = a.pools.length := List.length_set
  by_cases hk : i = k
  · subst hk
    rw [directed, if_pos rfl, if_pos rfl]
    have hpool : (a.setPool i (r.serve (a.poolAt i))).poolAt i = r.serve (a.poolAt i) :=
      poolAt_set_self hi _
    refine h.deal hi hlen (fun hl => hl) ?_
    rw [hpool]
    -- What is on loan comes first in the rule, and what groups hold in the arena.
    refine (Pool.deals_request (a.poolAt i) r (hr rfl) (out ++ a.held i)).congr ?_ ?_
    · exact List.append_assoc t.loans out _ ▸ List.perm_append_comm
    · exact List.append_assoc (r.note _ t).loans out _ ▸ List.perm_append_comm
  · rw [directed, if_neg hk, if_neg hk, List.append_nil]
    exact h.of_same hlen (poolAt_set_ne hk _) (.refl _) fun hl => hl

theorem Backed.lend (h : Backed k rs out a) (hi : i < a.pools.length) {m : Nat}
    (hs : (Pool.lend kind n m (a.poolAt i)).result = .ok s) :
    Backed k (rs ++ directed k i [.lend kind n m]) ((stake k ⟨i, .holding s⟩).toList ++ out)
      (a.setPool i (Pool.lend kind n m (a.poolAt i)).state) := by
  have hrequest := Backed.request (t := {}) h hi (.lend kind n m) fun _ => trivial
  have hloans : (if i = k then (Request.lend kind n m).note (a.poolAt k) {} else {}).loans =
      (stake k ⟨i, .holding s⟩).toList := by
    rw [stake_holding]
    split
    · next hk =>
      rw [← hk, Request.note, hs]
      rfl
    · rfl
  exact hloans ▸ hrequest

theorem Backed.refuse {f : Fault} (h : Backed k rs out a) (hi : i < a.pools.length) {m : Nat}
    (hf : (Pool.lend kind n m (a.poolAt i)).result = .error f) :
    Backed k (rs ++ directed k i [.lend kind n m]) out
      (a.setPool i (Pool.lend kind n m (a.poolAt i)).state) := by
  have hrequest := Backed.request (t := {}) h hi (.lend kind n m) fun _ => trivial
  have hloans : (if i = k then (Request.lend kind n m).note (a.poolAt k) {} else {}).loans = [] := by
    split
    · next hk => rw [← hk, Pool.Request.loans_of_unlent hf]
    · rfl
  rw [hloans] at hrequest
  exact hrequest

theorem held_addGroup (k i : Nat) (s : Storage) (a : Arena) :
    (a.addGroup i s).held k = a.held k ++ (stake k ⟨i, .holding s⟩).toList := by
  rw [held, addGroup, List.filterMap_append, held]
  refine congrArg _ ?_
  rw [List.filterMap_cons, List.filterMap_nil]
  cases stake k ⟨i, .holding s⟩ <;> rfl

theorem Backed.found (h : Backed k rs ((stake k ⟨i, .holding s⟩).toList ++ out) a) :
    Backed k rs out (a.addGroup i s) := by
  have hheld : (a.addGroup i s).held k ++ out = a.held k ++ ((stake k ⟨i, .holding s⟩).toList ++ out) := by
    rw [held_addGroup, List.append_assoc]
  refine ⟨fun hk => ?_, fun habsent => ?_⟩
  · rw [hheld]
    exact h.lent hk
  · rw [hheld]
    exact h.absent habsent

theorem Backed.found_of_shape {u : Storage} (h : Backed k rs ((stake k ⟨i, .holding s⟩).toList ++ out) a)
    (hu : u.shape = s.shape) : Backed k rs out (a.addGroup i u) := by
  refine Backed.found ?_
  rwa [stake_holding, hu, ← stake_holding]

theorem Backed.addPool {slots : Option Nat} {sys : System} (h : Backed k rs out a)
    (hpools : c.pools = a.pools ++ [.withSlots slots sys]) (hgroups : c.groups = a.groups)
    (hlisted : k ≠ a.pools.length → c.Listed k → a.Listed k) : Backed k rs out c := by
  have hheld : c.held k = a.held k := by rw [held, held, hgroups]
  have hlen : c.pools.length = a.pools.length + 1 := by
    rw [hpools, List.length_append, List.length_singleton]
  rcases Nat.lt_trichotomy k a.pools.length with hk | hk | hk
  · have hpool : c.poolAt k = a.poolAt k := by
      rw [poolAt, poolAt, hpools, List.getElem?_append_left hk, List.getElem?_eq_getElem hk]
      rfl
    refine ⟨fun _ => ?_, fun habsent => absurd hk (by omega)⟩
    rw [hpool, hheld]
    exact (h.lent hk).imp (fun hpast => hpast) fun hplain => ⟨hplain.1, fun hl => hplain.2 (hlisted (by omega) hl)⟩
  · have hpool : c.poolAt k = .withSlots slots sys := by
      rw [poolAt, hpools, hk, List.getElem?_concat_length, Option.getD_some]
    obtain ⟨rfl, hnone⟩ := h.absent (by omega)
    refine ⟨fun _ => .inl ?_, fun habsent => absurd hk (by omega)⟩
    rw [hpool, Pool.unused_withSlots, hheld, hnone]
    exact Pool.deals_nil (.refl _)
  · refine ⟨fun hlt => absurd hlt (by omega), fun _ => ?_⟩
    rw [hheld]
    exact h.absent (by omega)

/-- A pool that is made for bytes that are there already. It has not lent them, and nobody can ask it
for more. -/
theorem Backed.adopt (h : Backed k rs out a) (ha : a.Valid) (s : Storage) :
    Backed k rs out
      (({ a with pools := a.pools ++ [.plain a.system] } : Arena).addGroup a.pools.length s) := by
  by_cases hk : k = a.pools.length
  · have hpool : (({ a with pools := a.pools ++ [.plain a.system] } : Arena).addGroup
        a.pools.length s).poolAt k = .plain a.system := by
      rw [hk]
      exact poolAt_addPool (.plain a.system) a
    refine ⟨fun _ => .inr ⟨by rw [hpool]; rfl, fun hlisted => ?_⟩, fun habsent => ?_⟩
    · rcases hlisted with ⟨entry, hentry, hpool⟩ | ⟨entry, hentry, hpool⟩
      · have hlt := ha.poolNames entry hentry
        omega
      · have hlt := (ha.allocators entry hentry).1
        omega
    · have hlt := lt_addPool a (.plain a.system)
      exact absurd (hk ▸ hlt) (Nat.not_lt.2 habsent)
  · have hadd : Backed k rs out { a with pools := a.pools ++ [.plain a.system] } :=
      h.addPool (show _ = a.pools ++ [.withSlots none a.system] from rfl) rfl fun _ hl => hl
    apply Backed.found
    rw [stake_holding, if_neg (Ne.symm hk)]
    exact hadd

/-- A buffer that cannot have its greatest capacity is not asked for. -/
def startingLoan (kind : StorageKind) (n m : Nat) : List Request := if m < n then [] else [.lend kind n m]

theorem allocate_backed (h : Backed k rs out a) {pool : Nat} (hpool : pool < a.pools.length)
    (kind : StorageKind) (n m : Nat) (expand : Bool) :
    Backed k (rs ++ directed k pool (startingLoan kind n m)) out (allocate pool kind n m expand a).state := by
  rcases Nat.lt_or_ge m n with hlt | hle
  · rw [allocate_of_excess hlt, startingLoan, if_pos hlt, directed, ite_self, List.append_nil]
    exact h
  rw [startingLoan, if_neg (Nat.not_lt.2 hle)]
  rcases ho : Pool.lend kind n m (a.poolAt pool) with ⟨f | s, q, log⟩
  · have hrefuse := h.refuse hpool (Outcome.result_of_eq ho)
    rw [ho] at hrefuse
    rw [allocate_of_refused hle ho]
    exact hrefuse
  · have hlend := h.lend hpool (Outcome.result_of_eq ho)
    rw [ho] at hlend
    rw [allocate_of_lend hle ho]
    exact hlend.found

theorem allocateCopy_backed (ha : a.Valid) (h : Backed k rs out a) {pool : Nat}
    (hpool : pool < a.pools.length) {data : Bytes} {m : Nat} (hm : m ≤ Word.largest)
    (hle : data.length ≤ m) (kind : StorageKind) (expand : Bool) :
    Backed k (rs ++ directed k pool (startingLoan kind data.length m)) out
      (allocateCopy pool kind data m expand a).state := by
  rw [startingLoan, if_neg (Nat.not_lt.2 hle)]
  rcases ho : Pool.lend kind data.length m (a.poolAt pool) with ⟨f | s, q, log⟩
  · have hrefuse := h.refuse hpool (Outcome.result_of_eq ho)
    rw [ho] at hrefuse
    rw [allocateCopy_of_refused hle ho]
    exact hrefuse
  · have hlend := h.lend hpool (Outcome.result_of_eq ho)
    have hcap : s.capacity = data.length :=
      (congrArg (·.2.1) (Pool.shape_of_lend (Outcome.result_of_eq ho)) :)
    rw [ho] at hlend
    rw [allocateCopy_of_lend ha hpool hm hle ho]
    exact hlend.found_of_shape (Storage.shape_splice (by omega))

def ofLoner (k n m : Nat) (a : Arena) : List Request :=
  following (allocateAlone n m a) fun _ _ => directed k a.pools.length (startingLoan .heap n m)

theorem allocateAlone_backed (h : Backed k rs out a) (n m : Nat) :
    Backed k (rs ++ ofLoner k n m a) out (allocateAlone n m a).state := by
  rw [ofLoner]
  rcases allocateAlone_cases n m a with ⟨f, hrun, -⟩ | ⟨hle, s, q, hlend, hrun⟩
  · rw [hrun]
    exact h.idle
  · have hadd : Backed k rs out { a with pools := a.pools ++ [.plain a.system] } :=
      h.addPool (show _ = a.pools ++ [.withSlots none a.system] from rfl) rfl fun _ hl => hl
    have hpool := poolAt_addPool (.plain a.system) a
    have hlent := hadd.lend (lt_addPool a _) (hpool.symm ▸ Outcome.result_of_eq hlend)
    rw [hpool, hlend] at hlent
    rw [hrun, following, startingLoan, if_neg (Nat.not_lt.2 hle)]
    exact hlent.found

end Founding

end Arena

namespace AllocatorRequest

def asked (al : Allocator) : AllocatorRequest → List Request
  | .usual => Arena.startingLoan al.config.storageKind al.config.initialCapacity al.config.maxCapacity
  | .sized capacity => Arena.startingLoan al.config.storageKind capacity al.config.maxCapacity
  | .bounded capacity maxCapacity => Arena.startingLoan al.config.storageKind capacity maxCapacity
  | .ofKind kind capacity => Arena.startingLoan kind capacity al.config.maxCapacity
  | .exact kind capacity maxCapacity => Arena.startingLoan kind capacity maxCapacity
  | .copied data =>
    Arena.startingLoan al.config.storageKind data.length (max al.config.maxCapacity data.length)
  | .adopted _ => []

end AllocatorRequest

namespace Making

open Arena (directed following ofLoner Backed)

def requests (k : Nat) (a : Arena) : Making → List Request
  | .allocate n m => ofLoner k n m a
  | .adopt _ => []
  | .request allocator what =>
    following (Arena.require Arena.allocators allocator a) fun al _ => directed k al.pool (what.asked al)

variable {a : Arena} {k : Nat} {rs : List Request} {out : Loans}

theorem backed (ha : a.Valid) (h : Backed k rs out a) {what : Making} (hfits : what.Fits) :
    Backed k (rs ++ what.requests k a) out (what.run a).state := by
  cases what with
  | allocate n m => exact Arena.allocateAlone_backed h n m
  | adopt data => exact (h.adopt ha _).idle
  | request allocator what =>
    rw [requests, run]
    refine Arena.backed_require h fun al hal => ?_
    obtain ⟨hpool, hmax⟩ := ha.allocators _ (Table.mem_of_find? hal)
    cases what with
    | copied data =>
      have hlongest : data.length ≤ Word.longest := hfits
      exact Arena.allocateCopy_backed ha h hpool
        (Nat.max_le.2 ⟨hmax, Nat.le_trans hlongest (by decide)⟩) (Nat.le_max_right _ _) _ _
    | adopted data =>
      rw [AllocatorRequest.asked, directed, ite_self, List.append_nil]
      exact h.adopt ha _
    | _ => exact Arena.allocate_backed h hpool _ _ _ _

end Making

def Derivation.requests (d : Derivation) (b : Buffer) : List Request :=
  if hd : d.copies = false then (d.discreet hd).requests b else d.borrowing b

namespace Arena

open Table (find?)

variable {a : Arena} {k : Nat} {rs : List Request} {out : Loans} {name target : String}
  {m : Member} {e : Estate} {p : Pool} {d : Derivation}

def ofJoining (k : Nat) (name target : String) (made : Handle × Option Storage) (a : Arena) :
    List Request :=
  match made.2 with
  | none => following (require buffers name a) fun m => ofEnrolment k target ⟨m.group, made.1⟩
  | some s => following (foundCopy name made.1 s a) (ofEnrolment k target)

def ofDerivation (k : Nat) (name : String) (d : Derivation) (target : String) (a : Arena) :
    List Request :=
  ofBuffer k name d.requests a ++ following (onBuffer name (lift d.run) a) (ofJoining k name target)

theorem Seat.ofBuffer (hs : a.Seat name m e p) (k : Nat) (f : Buffer → List Request) :
    a.ofBuffer k name f = directed k e.pool (f (a.bufferOf name m e p)) := by
  rw [Arena.ofBuffer, hs.member]
  dsimp only
  rw [ofMember, hs.assemble]
  rfl

theorem Backed.copy (h : Backed k rs out a) (ha : a.Valid) (hs : a.Seat name m e p)
    (hd : d.copies = true) (target : String) :
    Backed k (rs ++ ofDerivation k name d target a) out
      ((onBuffer name (lift d.run) >>= Command.enrolDerived name target) a).state := by
  have hpool : (a.bufferOf name m e p).pool = a.poolAt e.pool := hs.poolAt.symm
  have hlt := lt_of_getElem? hs.pool
  rw [ofDerivation, hs.ofBuffer, Derivation.requests, dif_neg (by rw [hd]; decide), Derivation.borrowing]
  cases hcopied : d.copied (a.bufferOf name m e p) with
  | none =>
    obtain ⟨f, hrun⟩ := Derivation.run_of_not_copied hd hcopied
    have hfailed := onBuffer_of_error hs hrun
    rw [Action.bind_of_error hfailed, settle_self hs, hfailed, Option.toList_none, List.map_nil,
      directed, ite_self]
    exact h.idle
  | some n =>
    have hrun := Derivation.run_of_copied (ha.buffer hs) hcopied
    unfold Derivation.Answered at hrun
    rw [hpool] at hrun
    dsimp only at hrun
    rcases ho : Pool.lend (a.bufferOf name m e p).group.kind n
      (max (a.bufferOf name m e p).handle.maxCapacity n) (a.poolAt e.pool) with ⟨f | s, q, log⟩
    · rw [ho] at hrun
      dsimp only at hrun
      have hrefuse := h.refuse hlt (Outcome.result_of_eq ho)
      rw [ho] at hrefuse
      have hfailed := onBuffer_of_error hs hrun
      rw [Action.bind_of_error hfailed, hfailed, settle_of_same hs rfl]
      exact (List.append_nil (directed k e.pool _)).symm ▸ hrefuse
    · rw [ho] at hrun
      obtain ⟨handle, t, b, hshape, hgroup, hafter, hrun⟩ := hrun
      have hlend := h.lend hlt (Outcome.result_of_eq ho)
      rw [ho] at hlend
      have hmade := onBuffer_of_ok hs hrun
      have hgroups : a.groups.set m.group ⟨e.pool, b.group⟩ = a.groups := by
        rw [hgroup]
        exact set_of_getElem? hs.estate
      have hsettled : Backed k (rs ++ directed k e.pool [.lend (a.bufferOf name m e p).group.kind n
          (max (a.bufferOf name m e p).handle.maxCapacity n)])
          ((stake k ⟨e.pool, .holding s⟩).toList ++ out) (a.settle name m e.pool b) := by
        refine hlend.of_same (List.length_set.trans List.length_set.symm) ?_ ?_ fun hl => hl
        · rw [← hafter]
          rfl
        · change ((a.groups.set m.group ⟨e.pool, b.group⟩).filterMap (stake k)).Perm _
          rw [hgroups]
          exact .refl _
      have hfounded := Command.foundCopy_settle hs b handle t
      rw [Action.bind_of_ok hmade, hmade, Command.enrolDerived, ← List.append_assoc]
      dsimp only [following, ofJoining]
      rw [Action.bind_of_ok hfounded, hfounded]
      exact enrol_backed (hsettled.found_of_shape hshape) target _

theorem extra_of_views {b : Buffer} (hb : b.Valid) (hd : d.copies = false)
    {made : Handle × Option Storage} (h : (d.run b).result = .ok made) : made.2 = none := by
  obtain ⟨-, hmade⟩ := (d.run_meets hb).of_ok h
  cases hextra : made.2 with
  | none => rfl
  | some s =>
    rw [Derivation.Made, hextra, hd] at hmade
    cases hmade.1

theorem Backed.view (h : Backed k rs out a) (ha : a.Valid) (hs : a.Seat name m e p)
    (hd : d.copies = false) (target : String) :
    Backed k (rs ++ ofDerivation k name d target a) out
      ((onBuffer name (lift d.run) >>= Command.enrolDerived name target) a).state := by
  have hasked : d.requests = (d.discreet hd).lift.requests := funext fun b => dif_pos hd
  have hderived := discreet_backed ha h (d.discreet hd).lift name
  rw [ofDerivation, hasked]
  refine backed_bind hderived fun made hmade => ?_
  rw [onBuffer_of_seat hs] at hmade hderived ⊢
  have hextra : made.2 = none := by
    refine extra_of_views (ha.buffer hs) hd ?_
    rcases ho : d.run (a.bufferOf name m e p) with ⟨f | v, b, log⟩
    · rw [lift, Action.mapError, ho] at hmade
      cases hmade
    · rw [lift, Action.mapError, ho] at hmade
      cases hmade
      rfl
  rw [Command.enrolDerived, ofJoining, hextra]
  exact backed_require hderived fun _ _ => enrol_backed hderived target _

theorem derive_backed (ha : a.Valid) (h : Backed k rs out a) (name target : String) (d : Derivation) :
    Backed k (rs ++ ofDerivation k name d target a) out
      ((Command.derive name d target).run a).state := by
  have hrun : (Command.derive name d target).run =
      (onBuffer name (lift d.run) >>= Command.enrolDerived name target) >>= fun _ => pure .done :=
    (Action.bind_assoc _ _ _).symm
  rw [hrun]
  refine backed_then ?_ fun _ _ hc => hc
  cases hm : find? name a.buffers with
  | none =>
    have hfailed := onBuffer_of_none hm (lift d.run)
    rw [Action.bind_of_error hfailed, ofDerivation, hfailed, Arena.ofBuffer, hm]
    exact h.idle
  | some m =>
    obtain ⟨e, p, hs⟩ := ha.seat hm
    cases hd : d.copies with
    | true => exact h.copy ha hs hd target
    | false => exact h.view ha hs hd target

end Arena

namespace Command

open Arena
open Table (find?)

def request (k : Nat) (a : Arena) : Command → Option Request
  | .poolLend pool kind n m _ =>
    if find? pool a.poolNames = some k then some (.lend kind n m) else none
  | .poolRelend pool name n _ =>
    if find? pool a.poolNames = some k then (find? name a.stores).map fun s => .relend s n else none
  | .poolTakeBack pool name =>
    if find? pool a.poolNames = some k then (find? name a.stores).map .takeBack else none
  | _ => none

def lease (k : Nat) (a : Arena) (u : Book) (c : Command) : Book :=
  match c.request k a with
  | none => u
  | some r => r.note (a.poolAt k) u

/-- What a command asks of the pool `k`, one after the other. -/
def requests (k : Nat) (a : Arena) : Command → List Request
  | .make what target => what.requests k a ++ following (what.run a) (ofEnrolment k target)
  | .drop name => ofDrop k name a
  | .change name c => ofBuffer k name c.discreet.requests a
  | .derive name d target => ofDerivation k name d target a
  | .exchange name other x => ofExchange k name other x a
  | .poolShrink pool => following (require poolNames pool a) fun i _ => directed k i [.shrink]
  | .allocatorShrink allocator =>
    following (require allocators allocator a) fun al _ => directed k al.pool [.shrink]
  | c => (c.request k a).toList

variable {a : Arena} {c : Command} {k i : Nat} {rs : List Request} {out : Loans} {u : Book}
  {α β : Type}

theorem putStore_backed (h : Backed k rs out a) (target : String) (s : Storage) :
    Backed k rs out (putStore target s a).state := stores_backed h _

theorem onPoolAt_backed (h : Backed k rs (u.loans ++ out) a) (hi : i < a.pools.length) {r : Request}
    (hr : i = k → r.Due u) {x : Action Fault Pool α}
    (hx : (x (a.poolAt i)).state = r.serve (a.poolAt i)) :
    Backed k (rs ++ directed k i [r]) ((if i = k then r.note (a.poolAt k) u else u).loans ++ out)
      (onPoolAt i x a).state := by
  have hrequest := h.request hi r hr
  rwa [← hx] at hrequest

theorem shrink_backed (h : Backed k rs out a) (hi : i < a.pools.length) :
    Backed k (rs ++ directed k i [.shrink]) out ((Answer.number <$> onPoolAt i Pool.shrink) a).state := by
  have hshrunk := onPoolAt_backed (u := {}) h hi (r := .shrink) (fun _ => trivial) (x := Pool.shrink) rfl
  have hnone : (if i = k then Request.shrink.note (a.poolAt k) {} else {}).loans = [] := by
    split <;> rfl
  rw [hnone] at hshrunk
  exact backed_then hshrunk fun _ _ hc => hc

theorem foundAllocator_backed (h : Backed k rs out a) (config : Config) (pooling : PoolingStrategy)
    (target : String) :
    Backed k rs out ((addPool (.ofStrategy pooling) >>= fun i => putAllocator target ⟨config, i⟩) a).state := by
  obtain ⟨slots, hslots⟩ := Pool.ofStrategy_eq_withSlots pooling
  rw [hslots]
  refine h.addPool (show _ = a.pools ++ [.withSlots slots a.system] from rfl) rfl fun hk hl => ?_
  refine hl.imp id fun hallocator => ?_
  exact (Table.exists_put (P := fun al : Allocator => al.pool = k) hallocator).resolve_left (Ne.symm hk)

theorem putAllocator_backed (h : Backed k rs out a) (target : String) {al : Allocator}
    (hal : al.pool = k → a.Listed k) : Backed k rs out (putAllocator target al a).state := by
  refine h.of_same rfl rfl (.refl _) fun hl => ?_
  rcases hl with hname | hallocator
  · exact .inl hname
  · rcases Table.exists_put (P := fun al : Allocator => al.pool = k) hallocator with hk | hold
    · exact hal hk
    · exact .inr hold

theorem onStore_backed (h : Backed k rs out a) (name : String) (x : Action Fault Storage Answer) :
    Backed k rs out (onStore name x a).state :=
  backed_then (x := require stores name) h fun _ _ hc => stores_backed hc _

def byHand : Command → Bool
  | .poolLend .. | .poolRelend .. | .poolTakeBack .. => true
  | _ => false

theorem run_backed_of_calm (ha : a.Valid) (hfits : c.Fits) (hc : c.byHand = false)
    (h : Backed k rs out a) : Backed k (rs ++ c.requests k a) out (c.run a).state := by
  have quiet {x : Action Failure Arena Answer} (hx : Backed k rs out (x a).state) :
      Backed k (rs ++ []) out (x a).state := hx.idle
  cases c with
  | make what target =>
    have hmade : (make what target).run = (what.run >>= enrol target) >>= fun _ => pure .done :=
      (Action.bind_assoc _ _ _).symm
    rw [hmade]
    refine backed_then (backed_bind (what.backed ha h hfits) fun m _ => ?_) fun _ _ hc => hc
    exact enrol_backed (what.backed ha h hfits) target m
  | drop name => exact backed_then (drop_backed h name) fun _ _ hc => hc
  | ask name query =>
    exact quiet (onBuffer_idle h name fun b => Buffer.trades_refl b)
  | change name c => exact discreet_backed ha h c.discreet name
  | derive name d target => exact derive_backed ha h name target d
  | exchange name other x => exact exchange_backed ha h name other x
  | storeNew kind n m target =>
    exact quiet (backed_then (x := lift (Action.ask _)) h fun s _ hc => putStore_backed hc target s)
  | storeAdopt data m target =>
    exact quiet (backed_then (x := lift (Action.ask _)) h fun s _ hc => putStore_backed hc target s)
  | storeResize name n target =>
    exact quiet (backed_then (x := require stores name) h fun s _ hc =>
      backed_then (x := lift (Action.ask _)) hc fun t _ hc => putStore_backed hc target t)
  | store name x => exact quiet (onStore_backed h name x.run)
  | poolNew slots target =>
    refine quiet (h.addPool (show _ = a.pools ++ [.withSlots slots a.system] from rfl) rfl fun hk hl => ?_)
    exact hl.imp (fun hname => (Table.exists_put (P := (· = k)) hname).resolve_left (Ne.symm hk)) id
  | poolLend pool kind n m target => cases hc
  | poolRelend pool name n target => cases hc
  | poolTakeBack pool name => cases hc
  | poolShrink pool =>
    rw [requests, run]
    exact backed_require h fun i hi => shrink_backed h (ha.poolNames _ (Table.mem_of_find? hi))
  | poolStatistics pool | poolStrategy pool =>
    exact quiet (backed_then (x := require poolNames pool) h fun _ _ hc => hc)
  | allocatorNew settings target =>
    exact quiet (backed_then (x := Action.ask _) h fun config _ hc =>
      foundAllocator_backed hc config config.pooling target)
  | allocatorOnPool pool settings target =>
    refine quiet (backed_past_require h fun i hi => ?_)
    have hlisted : i = k → a.Listed k := fun hk => .inl ⟨_, Table.mem_of_find? hi, hk⟩
    cases allocatorOf settings with
    | error f => exact h
    | ok config => exact putAllocator_backed h target hlisted
  | allocatorDefault target => exact quiet (foundAllocator_backed h {} .unpooled target)
  | allocatorClone allocator target =>
    refine quiet (backed_past_require h fun al hal => ?_)
    exact putAllocator_backed h target fun hk => .inr ⟨_, Table.mem_of_find? hal, hk⟩
  | allocatorInfo allocator | allocatorStatistics allocator =>
    exact quiet (backed_then (x := require allocators allocator) h fun _ _ hc => hc)
  | allocatorShrink allocator =>
    rw [requests, run]
    exact backed_require h fun al hal => shrink_backed h (ha.allocators _ (Table.mem_of_find? hal)).1

section ByHand

variable {r : Request}

theorem lease_of_request (h : c.request k a = if i = k then some r else none) (u : Book) :
    c.lease k a u = if i = k then r.note (a.poolAt k) u else u := by
  rw [lease, h]
  by_cases hk : i = k
  · rw [if_pos hk, if_pos hk]
  · rw [if_neg hk, if_neg hk]

theorem requests_of_byHand (hc : c.byHand = true) (k : Nat) (a : Arena) :
    c.requests k a = (c.request k a).toList := by
  cases c <;> first | rfl | cases hc

theorem requests_of_request (hc : c.byHand = true) (h : c.request k a = if i = k then some r else none) :
    c.requests k a = directed k i [r] := by
  rw [requests_of_byHand hc, h, directed]
  split <;> rfl

theorem byHand_backed (hc : c.byHand = true) (hrequest : c.request k a = if i = k then some r else none)
    (h : Backed k rs u.loans a) (hi : i < a.pools.length) (hr : ∀ r ∈ c.request k a, r.Due u)
    (stores : Table Storage) {x : Action Fault Pool α}
    (hx : (x (a.poolAt i)).state = r.serve (a.poolAt i)) {y : α → Action Failure Arena β}
    (hy : ∀ v c rs out, Backed k rs out c → Backed k rs out (y v c).state) :
    Backed k (rs ++ c.requests k a) (c.lease k a u).loans
      ((onPoolAt i x >>= y) { a with stores := stores }).state := by
  have hdue : i = k → r.Due u := fun hk => hr r (hrequest.trans (if_pos hk))
  have hstored : Backed k rs (u.loans ++ []) { a with stores := stores } :=
    (List.append_nil u.loans).symm ▸ stores_backed h stores
  have hasked := onPoolAt_backed hstored hi hdue hx
  rw [requests_of_request hc hrequest, lease_of_request hrequest]
  rw [List.append_nil] at hasked
  exact backed_then hasked fun v c hc => hy v c _ _ hc

theorem byHand_idle (hc : c.byHand = true) (hrequest : c.request k a = none) (h : Backed k rs u.loans a)
    {f : Failure} (hrun : c.run a = ⟨.error f, a, []⟩) :
    Backed k (rs ++ c.requests k a) (c.lease k a u).loans (c.run a).state := by
  rw [requests_of_byHand hc, lease, hrequest, hrun]
  exact h.idle

theorem run_backed (ha : a.Valid) (hfits : c.Fits) (hr : ∀ r ∈ c.request k a, r.Due u)
    (h : Backed k rs u.loans a) :
    Backed k (rs ++ c.requests k a) (c.lease k a u).loans (c.run a).state := by
  cases c with
  | poolLend pool kind n m target =>
    cases hi : find? pool a.poolNames with
    | none => exact byHand_idle rfl (by rw [request, hi]; rfl) h (Action.bind_of_error (require_of_none hi))
    | some i =>
      have hrequest : (poolLend pool kind n m target).request k a =
          if i = k then some (.lend kind n m) else none := by
        simp only [request, hi, Option.some.injEq]
      rw [run, Action.bind_of_ok (require_of_some hi)]
      exact byHand_backed rfl hrequest h (ha.poolNames _ (Table.mem_of_find? hi)) hr a.stores rfl
        fun s _ _ _ hc => putStore_backed hc target s
  | poolRelend pool name n target =>
    cases hs : find? name a.stores with
    | none =>
      exact byHand_idle rfl (by rw [request, hs]; exact ite_self _) h
        (Action.bind_of_error (require_of_none hs))
    | some s =>
      cases hi : find? pool a.poolNames with
      | none =>
        refine byHand_idle (f := .unknownName pool) rfl (by rw [request, hi]; rfl) h
          ((Action.bind_of_ok (require_of_some hs)).trans ?_)
        rw [Action.bind_of_error (require_of_none hi)]
        rfl
      | some i =>
        have hrequest : (poolRelend pool name n target).request k a =
            if i = k then some (.relend s n) else none := by
          simp only [request, hi, hs, Option.some.injEq, Option.map_some]
        rw [run, Action.bind_of_ok (require_of_some hs), Action.bind_of_ok (require_of_some hi)]
        exact byHand_backed rfl hrequest h (ha.poolNames _ (Table.mem_of_find? hi)) hr a.stores rfl
          fun s _ _ _ hc => putStore_backed hc target s
  | poolTakeBack pool name =>
    cases hi : find? pool a.poolNames with
    | none => exact byHand_idle rfl (by rw [request, hi]; rfl) h (Action.bind_of_error (require_of_none hi))
    | some i =>
      cases hs : find? name a.stores with
      | none =>
        refine byHand_idle (f := .unknownName name) rfl (by rw [request, hs]; exact ite_self _) h
          ((Action.bind_of_ok (require_of_some hi)).trans ?_)
        rw [Action.bind_of_error (require_of_none hs)]
        rfl
      | some s =>
        have hrequest : (poolTakeBack pool name).request k a =
            if i = k then some (.takeBack s) else none := by
          simp only [request, hi, hs, Option.some.injEq, Option.map_some]
        rw [run, Action.bind_of_ok (require_of_some hi), Action.bind_of_ok (require_of_some hs),
          Action.modify_bind]
        exact byHand_backed rfl hrequest h (ha.poolNames _ (Table.mem_of_find? hi)) hr
          (a.stores.erase name) rfl fun _ _ _ _ hc => hc
  | _ => exact run_backed_of_calm ha hfits rfl h

end ByHand

end Command

namespace Arena

def requests (k : Nat) (a : Arena) : List Command → List Request
  | [] => []
  | c :: cs => c.requests k a ++ requests k (c.run a).state cs

def leases (k : Nat) (u : Book) (a : Arena) : List Command → Book
  | [] => u
  | c :: cs => leases k (c.lease k a u) (c.run a).state cs

/-- What is handed to the pool by hand has been borrowed from it by hand. -/
def Repays (k : Nat) (u : Book) (a : Arena) : List Command → Prop
  | [] => True
  | c :: cs => (∀ r ∈ c.request k a, r.Due u) ∧ Repays k (c.lease k a u) (c.run a).state cs

instance decidableRepays (k : Nat) (u : Book) (a : Arena) :
    (cs : List Command) → Decidable (Repays k u a cs)
  | [] => inferInstanceAs (Decidable True)
  | c :: cs =>
    have := decidableRepays k (c.lease k a u) (c.run a).state cs
    inferInstanceAs (Decidable (_ ∧ _))

/-- The pool `k` of a run from its making on, as the requests of the run have left it, and the book that
is kept of them. -/
def audit (k : Nat) (sys : System) (cs : List Command) : Audit :=
  Audit.serveAll ⟨((after { system := sys } cs).poolAt k).unused, {}⟩ (requests k { system := sys } cs)

theorem backed_after {k : Nat} {rs : List Request} {u : Book} {a : Arena} (ha : a.Valid)
    {cs : List Command} (hcs : ∀ c ∈ cs, c.Fits) (hrepays : Repays k u a cs) (h : Backed k rs u.loans a) :
    Backed k (rs ++ requests k a cs) (leases k u a cs).loans (after a cs) := by
  induction cs generalizing rs u a with
  | nil => exact h.idle
  | cons c cs ih =>
    have hc := hcs c List.mem_cons_self
    obtain ⟨x, hdoes, -⟩ := ha.step hc
    have hrest := ih (hdoes.valid ha) (fun c hc => hcs c (List.mem_cons_of_mem _ hc)) hrepays.2
      (Command.run_backed ha hc hrepays.1 h)
    rwa [List.append_assoc] at hrest

theorem backed_empty (k : Nat) (sys : System) : Backed k [] [] { system := sys } :=
  ⟨fun hk => absurd hk (Nat.not_lt_zero k), fun _ => ⟨rfl, rfl⟩⟩

theorem backed_run {k : Nat} {cs : List Command} (sys : System) (hcs : ∀ c ∈ cs, c.Fits)
    (hrepays : Repays k {} { system := sys } cs) :
    Backed k (requests k { system := sys } cs) (leases k {} { system := sys } cs).loans
      (after { system := sys } cs) :=
  backed_after (valid_empty sys) hcs hrepays (backed_empty k sys)

end Arena

end SharedBuffer
