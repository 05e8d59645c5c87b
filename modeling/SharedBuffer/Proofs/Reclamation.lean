import SharedBuffer.Proofs.Tallies

/-!
The lifetime of storages. A group uses a storage until its last reference is released, its last
handle is gone, or a storage of another capacity takes its place; whichever comes first, that is when
the storage goes back to the pool of the group. Main statement: pools take back the storages whose use
ends, each once and at that step, and besides them only what is handed to them directly.
-/

namespace SharedBuffer.Arena

open Table (find?)

variable {a a' : Arena} {c : Command} {k g : Nat} {s t : Storage} {e : Estate} {x : Account}
  {r : Return}

def finishes (g : Nat) (s : Storage) (a : Arena) : Bool :=
  a.references g == 0 || !a.isHeld g || (a.storageAt g).any fun t => t.capacity != s.capacity

def ending (k : Nat) (a a' : Arena) (g : Nat) : Option Storage :=
  a.groups[g]?.bind fun e => e.group.storage.filter fun s => e.pool == k && a'.finishes g s

def endings (k : Nat) (a a' : Arena) : List Storage :=
  (List.range a.groups.length).filterMap (ending k a a')

def holds (k : Nat) (a : Arena) (g : Nat) : Bool :=
  a.groups[g]?.any fun e => e.pool == k && e.group.storage.isSome

def obtains (k : Nat) (a a' : Arena) (g : Nat) : Bool :=
  a'.groups[g]?.any fun e => e.pool == k && e.group.storage.any fun t =>
    (a.storageAt g).all fun s => t.capacity != s.capacity

section Finishing

theorem Valid.storage_iff (ha : a.Valid) (hheld : a.isHeld g = true) :
    (a.storageAt g).isSome = true ↔ 0 < a.references g := by
  obtain ⟨entry, hentry, hgroup⟩ := isHeld_iff.1 hheld
  have hm := Table.find?_of_mem ha.distinct (show (entry.1, entry.2) ∈ a.buffers from hentry)
  constructor
  · intro hsome
    obtain ⟨s, hs⟩ := Option.isSome_iff_exists.1 hsome
    obtain ⟨e, he, hstorage⟩ := Option.bind_eq_some_iff.1 hs
    rw [references_of_some he]
    exact (ha.estates e (List.mem_of_getElem? he)).2.live s hstorage
  · intro live
    rw [← hgroup] at live ⊢
    obtain ⟨t, ht⟩ := ha.storage_of_member hm live
    rw [ht]
    rfl

theorem finishes_of_none (ha : a.Valid) (h : a.storageAt g = none) (s : Storage) :
    a.finishes g s = true := by
  simp only [finishes]
  cases hheld : a.isHeld g with
  | false => simp only [Bool.not_false, Bool.or_true, Bool.true_or]
  | true =>
    have hnot : ¬0 < a.references g := by
      rw [← ha.storage_iff hheld, h]
      exact Bool.false_ne_true
    have hzero : a.references g = 0 := by omega
    simp only [hzero, beq_self_eq_true, Bool.true_or]

theorem finishes_of_some (ha : a.Valid) (ht : a.Tidy) (h : a.storageAt g = some t) (s : Storage) :
    a.finishes g s = (t.capacity != s.capacity) := by
  obtain ⟨e, he, hstorage⟩ := Option.bind_eq_some_iff.1 h
  have hheld : a.isHeld g = true := by
    cases hheld : a.isHeld g with
    | true => rfl
    | false =>
      rw [ht g e he hheld] at hstorage
      simp at hstorage
  have live := (ha.storage_iff hheld).1 (by rw [h]; rfl)
  have hzero : (a.references g == 0) = false := beq_false_of_ne (by omega)
  simp only [finishes, hzero, hheld, h, Bool.not_true, Bool.or_false, Bool.false_or, Option.any_some]

end Finishing

section Step

theorem ending_of_same (ha' : a'.Valid) (ht' : a'.Tidy)
    (h : (a'.storageAt g).map Storage.shape = (a.storageAt g).map Storage.shape) :
    ending k a a' g = none := by
  simp only [ending]
  cases he : a.groups[g]? with
  | none => rfl
  | some e =>
    rw [storageAt_of_some he] at h
    rw [Option.bind_some]
    cases hs : e.group.storage with
    | none => rfl
    | some s =>
      rw [hs, Option.map_some] at h
      obtain ⟨t, ht, hshape⟩ := Option.map_eq_some_iff.1 h
      have hcap := (Storage.shape_eq_iff.1 hshape).2.1
      refine Option.filter_eq_none_iff.2 fun s' hs' => ?_
      cases hs'
      simp only [finishes_of_some ha' ht' ht, hcap, bne_self_eq_false, Bool.and_false,
        Bool.false_eq_true, not_false_iff]

theorem endings_of_keeps (ha' : a'.Valid) (ht' : a'.Tidy) (h : Keeps x a a') :
    endings k a a' = [] := by
  rw [endings, List.filterMap_eq_nil_iff]
  exact fun g hg => ending_of_same ha' ht' (h.same g (List.mem_range.1 hg))

theorem ending_of_ends (ha' : a'.Valid) (ht' : a'.Tidy) (h : Ends x r g a a') :
    (ending k a a' g).map Storage.shape = if r.pool = k then some r.storage.shape else none := by
  obtain ⟨e, he, hpool⟩ := h.pool
  obtain ⟨s, hs, hshape⟩ := h.held
  have hcap := (Storage.shape_eq_iff.1 hshape).2.1
  have hdone : a'.finishes g s = true := by
    cases hnew : a'.storageAt g with
    | none => exact finishes_of_none ha' hnew s
    | some t =>
      rw [finishes_of_some ha' ht' hnew, bne_iff_ne, hcap]
      exact h.ended t hnew
  rw [storageAt_of_some he] at hs
  rw [ending, he, Option.bind_some, hs, hpool]
  by_cases hk : r.pool = k
  · rw [Option.filter_some, if_pos (by rw [hdone, hk, beq_self_eq_true, Bool.and_true]), if_pos hk,
      Option.map_some, hshape]
  · rw [Option.filter_some, if_neg (by simp only [beq_eq_false_iff_ne.2 hk, Bool.false_and,
      Bool.false_eq_true, not_false_iff]), if_neg hk, Option.map_none]

theorem endings_of_ends (ha' : a'.Valid) (ht' : a'.Tidy) (h : Ends x r g a a') :
    (endings k a a').map Storage.shape = if r.pool = k then [r.storage.shape] else [] := by
  obtain ⟨e, he, -⟩ := h.pool
  have hsingle : endings k a a' = (ending k a a' g).toList :=
    filterMap_range_of_single (lt_of_getElem? he)
      fun i hi hne => ending_of_same ha' ht' (h.same i hi hne)
  have hending := ending_of_ends (k := k) ha' ht' h
  rw [hsingle]
  cases hend : ending k a a' g with
  | none =>
    rw [hend, Option.map_none] at hending
    split at hending
    · simp at hending
    · next hk => rw [if_neg hk]; rfl
  | some s =>
    rw [hend, Option.map_some] at hending
    split at hending
    · next hk =>
      rw [if_pos hk, Option.toList_some, List.map_singleton, Option.some.inj hending]
    · simp at hending

theorem group_booked (a : Arena) (c : Command) : ∀ r ∈ (c.booked a).back, r.group = none := by
  intro r hr
  simp only [Command.booked] at hr
  split at hr
  · exact c.back_account a r hr
  · simp at hr

/-- In a step either no group gives up its storage, and what goes back is handed over directly, or one
group does, and nothing else goes back. -/
theorem Valid.custody_step (ha : a.Valid) (hc : c.Fits) :
    ∃ x : Account, Course x a (c.run a).state ∧
      ((Keeps x a (c.run a).state ∧ x.back = (c.booked a).back) ∨
        ∃ r g, Ends x r g a (c.run a).state ∧ (c.booked a).back = []) := by
  obtain ⟨y, hdoes, -, -, hback⟩ := ha.books hc
  obtain ⟨ended, hone, hold, hcourse⟩ := hdoes.course
  have hdirect : ∀ r ∈ y.back, r.group = none := hback ▸ group_booked a c
  have hgroups : ∀ r ∈ ended ++ y.back, ∀ g, r.group = some g → g < a.groups.length := by
    intro r hr g hg
    rcases List.mem_append.1 hr with hr | hr
    · obtain ⟨g', hlt, hg'⟩ := hold r hr
      rw [hg', Option.some.injEq] at hg
      omega
    · rw [hdirect r hr] at hg
      simp at hg
  refine ⟨_, hcourse, ?_⟩
  rcases hcourse.custody ha hone hgroups with hkeeps | ⟨r, g, hends⟩
  · refine .inl ⟨hkeeps, ?_⟩
    have hnone : ended = [] := by
      apply List.eq_nil_iff_forall_not_mem.2
      intro r hr
      obtain ⟨g, -, hg⟩ := hold r hr
      have hfree := hkeeps.back r (List.mem_append_left _ hr)
      rw [hg] at hfree
      simp at hfree
    rw [hnone, ← hback]
    rfl
  · refine .inr ⟨r, g, hends, ?_⟩
    have hlist : ended ++ y.back = [r] := hends.back
    rw [← hback]
    refine List.eq_nil_iff_forall_not_mem.2 fun r' hr' => ?_
    have hmem : r' ∈ [r] := hlist ▸ List.mem_append_right _ hr'
    have hfree := hdirect r' hr'
    rw [List.mem_singleton.1 hmem, hends.group] at hfree
    simp at hfree

theorem Valid.endings_step (ha : a.Valid) (ht : a.Tidy) (hc : c.Fits) (k : Nat) :
    ∃ back : List Storage,
      (k < a.pools.length → Pool.Serves back (a.poolAt k) ((c.run a).state.poolAt k)) ∧
      ((c.run a).state.poolAt k).ledger.reclaimedLeases =
        Word.countOn (a.poolAt k).ledger.reclaimedLeases back.length ∧
      back.map Storage.shape =
        (endings k a (c.run a).state ++ returnsTo k (c.booked a).back).map Storage.shape := by
  obtain ⟨y, hdoes, -⟩ := ha.step hc
  have ht' := hdoes.tidy ht
  obtain ⟨x, hcourse, hcustody⟩ := ha.custody_step hc
  have ha' := hcourse.valid ha
  refine ⟨_, fun hk => hcourse.serves hk, hcourse.reclaimed k, ?_⟩
  rcases hcustody with ⟨hkeeps, hback⟩ | ⟨r, g, hends, hback⟩
  · rw [endings_of_keeps ha' ht' hkeeps, hback, List.nil_append]
  · rw [hback, hends.back, List.map_append, endings_of_ends ha' ht' hends]
    by_cases hk : r.pool = k
    · simp only [returnsTo, List.filterMap_cons, if_pos hk, List.filterMap_nil, List.map_cons,
        List.map_nil, List.append_nil]
    · simp only [returnsTo, List.filterMap_cons, if_neg hk, List.filterMap_nil, List.map_nil,
        List.append_nil]

theorem Valid.storage_step (ha : a.Valid) (hc : c.Fits) (hg : g < a.groups.length)
    (hnone : a.storageAt g = none) : (c.run a).state.storageAt g = none := by
  obtain ⟨x, -, hcustody⟩ := ha.custody_step hc
  rcases hcustody with ⟨hkeeps, -⟩ | ⟨r, g', hends, -⟩
  · have hsame := hkeeps.same g hg
    rwa [hnone, Option.map_none, Option.map_eq_none_iff] at hsame
  · by_cases hne : g = g'
    · obtain ⟨s, hs, -⟩ := hends.held
      rw [← hne, hnone] at hs
      simp at hs
    · have hsame := hends.same g hg hne
      rwa [hnone, Option.map_none, Option.map_eq_none_iff] at hsame

theorem holds_of_some (he : a.groups[g]? = some e) (k : Nat) :
    holds k a g = (e.pool == k && e.group.storage.isSome) := by
  rw [holds, he, Option.any_some]

theorem ending_of_some (he : a.groups[g]? = some e) (hs : e.group.storage = some s) (k : Nat)
    (a' : Arena) : (ending k a a' g).isSome = (e.pool == k && a'.finishes g s) := by
  rw [ending, he, Option.bind_some, hs, Option.filter_some]
  cases e.pool == k && a'.finishes g s <;> rfl

theorem obtains_of_some (he' : a'.groups[g]? = some e) (ht : e.group.storage = some t) (k : Nat)
    (a : Arena) : obtains k a a' g =
      (e.pool == k && (a.storageAt g).all fun s => t.capacity != s.capacity) := by
  rw [obtains, he', Option.any_some, ht, Option.any_some]

theorem holds_of_none (h : a'.storageAt g = none) (k : Nat) (a : Arena) :
    holds k a' g = false ∧ obtains k a a' g = false := by
  simp only [holds, obtains]
  cases he : a'.groups[g]? with
  | none => exact ⟨rfl, rfl⟩
  | some e =>
    rw [storageAt_of_some he] at h
    simp only [Option.any_some, h, Option.isSome_none, Option.any_none, Bool.and_false, and_self]

theorem ending_of_none (h : a.storageAt g = none) (k : Nat) (a' : Arena) : ending k a a' g = none := by
  simp only [ending]
  cases he : a.groups[g]? with
  | none => rfl
  | some e =>
    rw [storageAt_of_some he] at h
    rw [Option.bind_some, h, Option.filter_none]

theorem holds_step (ha : a.Valid) (ht : a.Tidy) (hc : c.Fits) (k g : Nat) :
    (if holds k (c.run a).state g then 1 else 0) +
        (if (ending k a (c.run a).state g).isSome then 1 else 0) =
      (if holds k a g then 1 else 0) + (if obtains k a (c.run a).state g then 1 else 0) := by
  obtain ⟨y, hdoes, -⟩ := ha.step hc
  have ha' := hdoes.valid ha
  have ht' := hdoes.tidy ht
  cases hold : a.storageAt g with
  | none =>
    have hbefore := (holds_of_none hold k a).1
    rw [ending_of_none hold, hbefore]
    cases hnew : (c.run a).state.storageAt g with
    | none =>
      obtain ⟨hholds, hobtains⟩ := holds_of_none hnew k a
      rw [hholds, hobtains]
      rfl
    | some t =>
      obtain ⟨e', he', ht'⟩ := Option.bind_eq_some_iff.1 hnew
      rw [holds_of_some he', obtains_of_some he' ht', hold, ht', Option.all_none, Option.isSome_some,
        Option.isSome_none, if_neg Bool.false_ne_true, Nat.add_zero, Nat.zero_add]
  | some s =>
    obtain ⟨e, he, hs⟩ := Option.bind_eq_some_iff.1 hold
    obtain ⟨ended, -, -, hcourse⟩ := hdoes.course
    obtain ⟨e', he', hpool, -⟩ := hcourse.groups ha he
    rw [holds_of_some he, ending_of_some he hs, hs, Option.isSome_some, Bool.and_true]
    cases hnew : (c.run a).state.storageAt g with
    | none =>
      obtain ⟨hholds, hobtains⟩ := holds_of_none hnew k a
      rw [hholds, hobtains, finishes_of_none ha' hnew, Bool.and_true, Nat.add_comm]
    | some t =>
      have hstorage := hnew
      rw [storageAt_of_some he'] at hstorage
      rw [holds_of_some he', obtains_of_some he' hstorage, hold, hstorage, hpool,
        finishes_of_some ha' ht' hnew, Option.isSome_some, Bool.and_true, Option.all_some]

end Step

section Run

def holdings (k : Nat) (a : Arena) : Nat := (List.range a.groups.length).countP (holds k a)

def gains (k : Nat) (a a' : Arena) : Nat := (List.range a'.groups.length).countP (obtains k a a')

theorem storageAt_of_le (h : a.groups.length ≤ g) : a.storageAt g = none := by
  rw [storageAt, List.getElem?_eq_none h]
  rfl

theorem holdings_step (ha : a.Valid) (ht : a.Tidy) (hc : c.Fits) (k : Nat) :
    holdings k (c.run a).state + (endings k a (c.run a).state).length =
      holdings k a + gains k a (c.run a).state := by
  obtain ⟨y, hdoes, -⟩ := ha.step hc
  obtain ⟨ended, -, -, hcourse⟩ := hdoes.course
  have hlen := hcourse.groups_length
  have hholds : holdings k a = (List.range (c.run a).state.groups.length).countP (holds k a) :=
    (countP_range_of_le hlen fun g hg => (holds_of_none (storageAt_of_le hg) k a).1).symm
  have hends : (endings k a (c.run a).state).length =
      (List.range (c.run a).state.groups.length).countP
        fun g => (ending k a (c.run a).state g).isSome := by
    rw [endings, List.length_filterMap_eq_countP]
    refine (countP_range_of_le hlen fun g hg => ?_).symm
    rw [ending_of_none (storageAt_of_le hg)]
    rfl
  rw [hholds, hends]
  exact countP_balance fun g _ => holds_step ha ht hc k g

end Run

section Counts

variable {name : String} {m : Member} {n : Nat} {v : Answer}

theorem result_onBuffer (ha : a.Valid) (hm : find? name a.buffers = some m)
    (x : Action Failure Buffer Answer) :
    ∃ b : Buffer, b.Valid ∧ b.group.count = a.references m.group ∧
      (onBuffer name x a).result = (x b).result := by
  obtain ⟨e, p, hs⟩ := ha.seat hm
  refine ⟨a.bufferOf name m e p, ha.buffer hs, (references_of_some hs.estate).symm, ?_⟩
  rw [onBuffer_of_seat hs]

theorem result_retain (ha : a.Valid) (hm : find? name a.buffers = some m) :
    ((Command.change name (.retain n)).run a).result = .ok v ↔
      0 < n ∧ 0 < a.references m.group ∧ a.references m.group + n ≤ Word.largest ∧ v = .done := by
  obtain ⟨b, hb, hcount, hresult⟩ := result_onBuffer ha hm (Change.run (.retain n))
  rw [Command.run, hresult, ← hcount]
  cases hretain : b.retain n with
  | error f =>
    have hrun : Change.run (.retain n) b = ⟨.error (.fault f), b, []⟩ :=
      Action.bind_of_error (by rw [lift, Action.mapError, Action.update_of_error hretain])
    rw [hrun]
    constructor
    · intro hok
      simp at hok
    · intro h
      obtain ⟨hn, live, hle, -⟩ := h
      rw [Buffer.retain_eq_ok_iff.2 ⟨hn, live, hle, rfl⟩] at hretain
      simp at hretain
  | ok b' =>
    obtain ⟨hn, live, hle, -⟩ := Buffer.retain_eq_ok_iff.1 hretain
    have hrun : Change.run (.retain n) b = ⟨.ok .done, b', []⟩ :=
      Action.bind_of_ok (lift_of_ok (Action.update_of_ok hretain))
    rw [hrun]
    constructor
    · intro hok
      cases hok
      exact ⟨hn, live, hle, rfl⟩
    · intro h
      obtain ⟨-, -, -, rfl⟩ := h
      rfl

theorem result_release (ha : a.Valid) (hm : find? name a.buffers = some m) :
    ((Command.change name (.release n)).run a).result = .ok v ↔
      ∃ last, v = .flag last ∧ 0 < n ∧ n ≤ a.references m.group ∧
        (last = true ↔ n = a.references m.group) := by
  obtain ⟨b, hb, hcount, hresult⟩ := result_onBuffer ha hm (Change.run (.release n))
  rw [Command.run, hresult, ← hcount]
  rcases hrelease : Buffer.release n b with ⟨f | last, b', log⟩
  · have hrun : Change.run (.release n) b = ⟨.error (.fault f), b', log⟩ :=
      Action.bind_of_error (by rw [lift, Action.mapError, hrelease])
    rw [hrun]
    constructor
    · intro hok
      simp at hok
    · intro h
      obtain ⟨last, -, hlast⟩ := h
      have hok := (Buffer.result_release hb).2 hlast
      rw [hrelease] at hok
      simp at hok
  · have hlast := (Buffer.result_release hb).1
      (show (Buffer.release n b).result = .ok last by rw [hrelease])
    have hrun : (Change.run (.release n) b).result = .ok (.flag last) := by
      rw [Change.run]
      exact congrArg Outcome.result (Action.bind_of_ok (lift_of_ok hrelease))
    rw [hrun]
    constructor
    · intro hok
      cases hok
      exact ⟨last, rfl, hlast⟩
    · intro h
      obtain ⟨last', rfl, -, -, hlast'⟩ := h
      have hsame : last = last' := Bool.eq_iff_iff.2 (hlast.2.2.trans hlast'.symm)
      rw [hsame]

end Counts

structure Accountable (a : Arena) : Prop where
  count_le : ∀ g, a.references g ≤ Word.largest
  held : ∀ g, a.isHeld g = true → ((a.storageAt g).isSome = true ↔ 0 < a.references g)
  unheld : ∀ g, a.isHeld g = false → a.storageAt g = none
  retain : ∀ name m n v, find? name a.buffers = some m →
    (((Command.change name (.retain n)).run a).result = .ok v ↔
      0 < n ∧ 0 < a.references m.group ∧ a.references m.group + n ≤ Word.largest ∧ v = .done)
  release : ∀ name m n v, find? name a.buffers = some m →
    (((Command.change name (.release n)).run a).result = .ok v ↔
      ∃ last, v = .flag last ∧ 0 < n ∧ n ≤ a.references m.group ∧
        (last = true ↔ n = a.references m.group))
  count : ∀ c : Command, c.Fits → ∀ g,
    (c.run a).state.references g + (c.booked a).lost g = a.references g + (c.booked a).gained g
  failed : ∀ c : Command, c.Fits → ∀ f, (c.run a).result = .error f → ∀ g,
    (c.run a).state.references g = a.references g
  steady : ∀ c : Command, c.Fits → (∀ name n, c ≠ .change name (.retain n)) →
    (∀ name n, c ≠ .change name (.release n)) →
    (∀ name d target, c = .derive name d target → d.effect.gained = 0) → ∀ g,
    (c.run a).state.references g = a.references g
  gone : ∀ c : Command, c.Fits → ∀ g < a.groups.length,
    a.storageAt g = none → (c.run a).state.storageAt g = none
  back : ∀ c : Command, c.Fits → ∀ k < a.pools.length, ∃ back : List Storage,
    Pool.Serves back (a.poolAt k) ((c.run a).state.poolAt k) ∧
    back.map Storage.shape =
      (endings k a (c.run a).state ++ returnsTo k (c.booked a).back).map Storage.shape

theorem Valid.references_le (ha : a.Valid) (g : Nat) : a.references g ≤ Word.largest := by
  cases he : a.groups[g]? with
  | none =>
    rw [references, he]
    exact show 1 ≤ Word.largest by decide
  | some e =>
    rw [references_of_some he]
    exact (ha.estates e (List.mem_of_getElem? he)).2.count_le

theorem Reachable.accountable (h : a.Reachable) : a.Accountable where
  count_le := h.valid.references_le
  held _ := h.valid.storage_iff
  unheld g hfree := by
    cases he : a.groups[g]? with
    | none =>
      rw [storageAt, he]
      rfl
    | some e =>
      rw [storageAt_of_some he]
      exact h.tidy g e he hfree
  retain _ _ _ _ hm := result_retain h.valid hm
  release _ _ _ _ hm := result_release h.valid hm
  count _ hc := references_step h.valid hc
  failed _ hc _ hf := references_of_error h.valid hc hf
  steady _ hc hretain hrelease hderive := references_of_steady h.valid hc hretain hrelease hderive
  gone _ hc _ hg := h.valid.storage_step hc hg
  back _ hc k hk := by
    obtain ⟨back, hserves, -, hshapes⟩ := h.valid.endings_step h.tidy hc k
    exact ⟨back, hserves hk, hshapes⟩

theorem reclaimed_step (ha : a.Valid) (ht : a.Tidy) (hc : c.Fits) (k : Nat) :
    ((c.run a).state.poolAt k).ledger.reclaimedLeases =
      Word.countOn (a.poolAt k).ledger.reclaimedLeases
        ((endings k a (c.run a).state).length + (returnsTo k (c.booked a).back).length) := by
  obtain ⟨back, -, hreclaimed, hshapes⟩ := ha.endings_step ht hc k
  have hlen := congrArg List.length hshapes
  rw [List.length_map, List.length_map, List.length_append] at hlen
  rw [hreclaimed, hlen]

/-- Over every run the count of a group is one and what was gained, less what was lost. A pool has
taken back as many storages as groups were done with and as were handed to it, counted in a word, and
groups were done with as many as they came to, but for those that they hold. -/
theorem reclaimed_exactly_once (sys : System) {cs : List Command} (hcs : ∀ c ∈ cs, c.Fits) :
    let a : Arena := { system := sys }
    (after a cs).Accountable ∧
    (∀ g, (after a cs).references g + tally (fun a c => (c.booked a).lost g) a cs =
      1 + tally (fun a c => (c.booked a).gained g) a cs) ∧
    ∀ k, ((after a cs).poolAt k).ledger.reclaimedLeases =
        tally (fun a c => (endings k a (c.run a).state).length +
          (returnsTo k (c.booked a).back).length) a cs % (Word.largest + 1) ∧
      holdings k (after a cs) + tally (fun a c => (endings k a (c.run a).state).length) a cs =
        tally (fun a c => gains k a (c.run a).state) a cs := by
  intro a
  refine ⟨Reachable.accountable ⟨sys, cs, hcs, rfl⟩, fun g => ?_, fun k => ⟨?_, ?_⟩⟩
  · exact tally_balance (P := fun a => a.references g)
      (fun a c ha _ hc => references_step ha hc g) hcs (valid_empty sys) (tidy_empty sys)
  · rw [← Word.countOn_zero]
    exact countOn_tally (P := fun a => (a.poolAt k).ledger.reclaimedLeases)
      (fun a c ha ht hc => reclaimed_step ha ht hc k) hcs (valid_empty sys) (tidy_empty sys)
  · have htotal := tally_balance (P := holdings k)
      (fun a c ha ht hc => holdings_step ha ht hc k) hcs (valid_empty sys) (tidy_empty sys)
    exact htotal.trans (Nat.zero_add _)

/-- A buffer that grows while a duplicate is there; then both go, with the reference still held. -/
def outgrown : List Command :=
  [.make (.allocate 4 16) "first", .derive "first" .duplicate "second",
    .change "first" (.changeCapacity 8), .drop "first", .drop "second"]

theorem reclaimed_exactly_once_outgrown :
    ((after {} outgrown).poolAt 0).ledger.reclaimedLeases =
        tally (fun a c => (endings 0 a (c.run a).state).length +
          (returnsTo 0 (c.booked a).back).length) {} outgrown % (Word.largest + 1) ∧
      ((after {} outgrown).poolAt 0).ledger.reclaimedLeases = 2 :=
  ⟨((reclaimed_exactly_once {} (show ∀ c ∈ outgrown, c.Fits by decide)).2.2 0).1, by decide⟩

end SharedBuffer.Arena
