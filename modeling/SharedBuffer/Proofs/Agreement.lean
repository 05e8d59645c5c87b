import SharedBuffer.Proofs.Room
import SharedBuffer.Proofs.Transparency

/-!
The two requests for room side by side: the one that fails for want of capacity and the one that
answers instead. Each decides for itself whether there is to be growth. Main statement: they agree,
as they are meant to, exactly where the storage to grow into can be had; where it cannot, both fail
alike.
-/

namespace SharedBuffer

theorem Handle.canGrow_eq_false_iff {h : Handle} :
    h.canGrow = false ↔ h.autoExpand = false ∨ h.origin = .slice := by
  rw [← Bool.not_eq_true, canGrow_iff, Decidable.not_and_iff_not_or_not, Bool.not_eq_true,
    Decidable.not_not]

namespace Buffer

open SharedBuffer.Action (Rejects current_bind ask_bind_of_ok)

variable {b c : Buffer} {s : Storage} {f : Fault} {n : Nat} {log : List Event}

theorem houses_of_resize (hb : b.Valid) (hp : b.pool.Orderly) (hs : b.group.storage = some s)
    (hgranted : s.Granted b.pool.system) (h : resize n b = ⟨.ok (), c, log⟩) : b.Houses n := by
  have hkind := (hb.group.storage s hs).2
  rcases resize_cases hs n with ⟨hkeep, -⟩ | ⟨-, ⟨f, -, hr⟩ | ⟨t, ht, -⟩⟩
  · cases hshared : b.shared with
    | true => exact .inl ⟨hshared, s, hs, le_of_not_needsReplacement hkeep⟩
    | false =>
      -- Without another handle the storage stays only where it has just the size that is asked for.
      have hextent : n = s.capacity := by
        rw [← extent_of_not_needsReplacement hkeep, extent, hshared]
        rfl
      rw [Houses, ← hkind, hextent]
      exact .inr hgranted.kind
  · rw [h] at hr
    cases hr
  · rw [hp.result_relend (hgranted.min_le_largest n)] at ht
    have hgrant := (Storage.granted_resize ht).kind
    rw [(Storage.resize_eq_ok ht).2, Storage.capacity_refit] at hgrant
    exact .inr (hkind ▸ hgrant)

section Requests

variable (hmut : b.checkMutable = .ok ())
include hmut

theorem tryReserve_of_fits (hfits : n ≤ b.handle.writable) :
    tryReserve n b = ⟨.ok .alreadyWritable, b, []⟩ := by
  rw [tryReserve, current_bind, ask_bind_of_ok hmut, if_pos hfits]
  rfl

theorem tryReserve_of_fixed (hmore : b.handle.writable < n) (hfixed : b.handle.canGrow = false) :
    tryReserve n b = ⟨.ok .notExpandable, b, []⟩ := by
  rw [tryReserve, current_bind, ask_bind_of_ok hmut, if_neg (Nat.not_le.2 hmore), hfixed]
  rfl

theorem tryReserve_of_beyond (hmore : b.handle.writable < n) (hgrow : b.handle.canGrow = true)
    (hmax : b.handle.maxCapacity < b.handle.writer + n) :
    tryReserve n b = ⟨.ok .capacityExceeded, b, []⟩ := by
  have hexceeds : b.handle.maxWritable < n := by
    simp only [Handle.maxWritable]
    omega
  rw [tryReserve, current_bind, ask_bind_of_ok hmut, if_neg (Nat.not_le.2 hmore), hgrow,
    if_neg (by decide), if_pos hexceeds]
  rfl

theorem tryReserve_of_grows (hgrows : b.handle.Grows n) :
    tryReserve n b = ((fun _ => Reservation.grown) <$> reserve n) b := by
  have hmax := hgrows.le_max
  have hwithin : ¬b.handle.maxWritable < n := by
    simp only [Handle.maxWritable]
    omega
  rw [tryReserve, current_bind, ask_bind_of_ok hmut, if_neg (Nat.not_le.2 hgrows.more),
    hgrows.canGrow, if_neg (by decide), if_neg hwithin]
  rfl

theorem tryReserve_of_refused (hb : b.Valid) (hgrows : b.handle.Grows n)
    (h : resize (b.handle.grown n) b = ⟨.error f, c, log⟩) : tryReserve n b = ⟨.error f, c, log⟩ := by
  rw [tryReserve_of_grows hmut hgrows]
  exact Action.map_of_error _ ((reserve_of_grows hmut hb hgrows).trans h)

end Requests

theorem barred_of_checkMutable (h : b.checkMutable = .error f) :
    (b.group.count = 0 ∨ b.handle.readOnly = true) ∧ f.kind? ≠ some .capacityExceeded := by
  rw [checkMutable] at h
  rcases except_bind_eq_error.1 h with hlive | ⟨-, -, hopen⟩
  · rw [checkLive] at hlive
    split at hlive
    · next hreleased =>
      cases hlive
      exact ⟨.inl (beq_iff_eq.1 hreleased), by decide⟩
    · cases hlive
  · split at hopen
    · next hreadOnly =>
      cases hopen
      exact ⟨.inr hreadOnly, by decide⟩
    · cases hopen

theorem affords_of_barred (h : b.group.count = 0 ∨ b.handle.readOnly = true) : b.Affords n := by
  intro live hopen
  rcases h with hreleased | hreadOnly
  · omega
  · rw [hopen] at hreadOnly
    cases hreadOnly

theorem affords_of_not_grows (h : ¬b.handle.Grows n) : b.Affords n :=
  fun _ _ hgrows => absurd hgrows h

inductive Ends (n : Nat) (b : Buffer) :
    Outcome Fault Buffer Reservation → Outcome Fault Buffer Unit → Prop
  | barred {f : Fault} (hbarred : b.group.count = 0 ∨ b.handle.readOnly = true)
      (hkind : f.kind? ≠ some .capacityExceeded) : Ends n b ⟨.error f, b, []⟩ ⟨.error f, b, []⟩
  | fits (hfits : n ≤ b.handle.writable) : Ends n b ⟨.ok .alreadyWritable, b, []⟩ ⟨.ok (), b, []⟩
  | fixed {f : Fault} (hmore : b.handle.writable < n) (hfixed : b.handle.canGrow = false)
      (hkind : f.kind? = some .capacityExceeded) :
      Ends n b ⟨.ok .notExpandable, b, []⟩ ⟨.error f, b, []⟩
  | beyond {f : Fault} (hgrow : b.handle.canGrow = true)
      (hmax : b.handle.maxCapacity < b.handle.writer + n) (hkind : f.kind? = some .capacityExceeded) :
      Ends n b ⟨.ok .capacityExceeded, b, []⟩ ⟨.error f, b, []⟩
  | grown {c : Buffer} {log : List Event} (hshared : c.shared = b.shared)
      (hmore : b.handle.capacity < c.handle.capacity) (hhouses : b.Houses (b.handle.grown n)) :
      Ends n b ⟨.ok .grown, c, log⟩ ⟨.ok (), c, log⟩
  | refused {f : Fault} {c : Buffer} {log : List Event} (live : 0 < b.group.count)
      (hopen : b.handle.readOnly = false) (hgrows : b.handle.Grows n)
      (hdenied : ¬b.Houses (b.handle.grown n))
      (hcause : Storage.checkKind b.pool.system b.group.kind (b.handle.grown n) = .error f) :
      Ends n b ⟨.error f, c, log⟩ ⟨.error f, c, log⟩

theorem requests_end (hb : b.Valid) (hp : b.pool.Orderly)
    (hgranted : ∀ s, b.group.storage = some s → s.Granted b.pool.system) (n : Nat) :
    Ends n b (tryReserve n b) (reserve n b) := by
  cases hmut : b.checkMutable with
  | error f =>
    obtain ⟨hbarred, hkind⟩ := barred_of_checkMutable hmut
    rw [rejects_tryReserve hmut n, rejects_reserve hmut n]
    exact .barred hbarred hkind
  | ok _ =>
    cases b.handle.demand n with
    | fits hfits =>
      rw [tryReserve_of_fits hmut hfits, reserve_of_fits hmut hfits]
      exact .fits hfits
    | fixed hmore hfixed =>
      obtain ⟨f, hkind, hr⟩ := reserve_of_fixed hmut hmore hfixed
      rw [tryReserve_of_fixed hmut hmore hfixed, hr]
      exact .fixed hmore hfixed hkind
    | beyond hmore hgrow hmax =>
      obtain ⟨f, hkind, hr⟩ := reserve_of_beyond hmut hmore hgrow hmax
      rw [tryReserve_of_beyond hmut hmore hgrow hmax, hr]
      exact .beyond hgrow hmax hkind
    | grows hgrows =>
      obtain ⟨live, hopen⟩ := (checkMutable_eq_ok_iff b).1 hmut
      obtain ⟨s, hs, -⟩ := hb.window live
      have hbounds := hb.handle.grown_bounds hgrows
      have hrefits := resize_refits hb hs (not_slice_of_canGrow hgrows.canGrow) hbounds.2.1
      rw [tryReserve_of_grows hmut hgrows]
      rcases hr : reserve n b with ⟨f | ⟨⟩, c, log⟩
      · rw [← reserve_of_grows hmut hb hgrows, hr] at hrefits
        rw [Action.map_of_error _ hr]
        exact .refused live hopen hgrows hrefits.1.2 hrefits.1.1
      · have hhouses := houses_of_resize hb hp hs (hgranted s hs)
          ((reserve_of_grows hmut hb hgrows).symm.trans hr)
        rw [← reserve_of_grows hmut hb hgrows, hr] at hrefits
        rw [Action.map_of_ok _ hr]
        exact .grown hrefits.shared (by rw [hrefits.handle]; exact hbounds.2.2) hhouses

end Buffer

namespace Arena

variable {a : Arena} {name : String} {m : Member} {e : Estate} {p : Pool} {b : Buffer} {n : Nat}

def Declined (hard : Outcome Failure Arena Answer) : Prop :=
  ∃ f, hard.result = .error (.fault f) ∧ f.kind? = some .capacityExceeded

def Made (name : String) (P : Nat → Prop) (hard : Outcome Failure Arena Answer) : Prop :=
  hard.result = .ok .done ∧ ∃ c, hard.state.buffer name = .ok c ∧ P c.handle.capacity

/-- What the request that answers, which ends as `soft` does, is meant to tell of the one that fails,
which ends as `hard` does; both are made of the buffer `b` in the arena `a`. -/
structure Concordant (name : String) (a : Arena) (b : Buffer)
    (soft hard : Outcome Failure Arena Answer) : Prop where
  fails : ∀ f, soft.result = .error f → b.group.count = 0 ∨ b.handle.readOnly = true
  alreadyWritable : soft.result = .ok (.reservation .alreadyWritable) ↔
    Made name (· = b.handle.capacity) hard
  grown : soft.result = .ok (.reservation .grown) ↔ Made name (b.handle.capacity < ·) hard
  grown_alike : soft.result = .ok (.reservation .grown) → soft.state = hard.state
  declined : soft.result = .ok (.reservation .notExpandable) ∨
    soft.result = .ok (.reservation .capacityExceeded) ↔ Declined hard
  declined_unmoved : Declined hard → soft.state = a ∧ hard.state = a
  notExpandable : soft.result = .ok (.reservation .notExpandable) ↔
    Declined hard ∧ (b.handle.autoExpand = false ∨ b.handle.origin = .slice)

def lodge {α : Type} (name : String) (m : Member) (pool : Nat) (f : α → Answer)
    (o : Outcome Fault Buffer α) (a : Arena) : Outcome Failure Arena Answer :=
  ⟨match o.result with
    | .error fault => .error (.fault fault)
    | .ok v => .ok (f v), a.settle name m pool o.state, o.events⟩

theorem onBuffer_map (hs : a.Seat name m e p) {α : Type} (x : Action Fault Buffer α) (f : α → Answer) :
    onBuffer name (f <$> lift x) a = lodge name m e.pool f (x (a.bufferOf name m e p)) a := by
  rw [onBuffer_of_seat hs]
  rcases ho : x (a.bufferOf name m e p) with ⟨fault | v, c, log⟩
  · have hlift : lift x (a.bufferOf name m e p) = ⟨.error (.fault fault), c, log⟩ := by
      rw [lift, Action.mapError, ho]
    rw [Action.map_of_error f hlift]
    rfl
  · rw [Action.map_of_ok f (lift_of_ok ho)]
    rfl

section Law

variable {soft hard : Outcome Failure Arena Answer} {log more : List Event} {f : Fault} {c : Buffer}
  {P : Nat → Prop}

theorem not_made_of_error (h : hard.result = .error (.fault f)) : ¬Made name P hard := by
  rintro ⟨hok, -⟩
  rw [h] at hok
  cases hok

theorem not_declined_of_ok (h : hard.result = .ok .done) : ¬Declined hard := by
  rintro ⟨g, hg, -⟩
  rw [h] at hg
  cases hg

theorem made_iff (h : hard.result = .ok .done) (hc : hard.state.buffer name = .ok c) :
    Made name P hard ↔ P c.handle.capacity := by
  constructor
  · rintro ⟨-, d, hd, hP⟩
    cases hc.symm.trans hd
    exact hP
  · exact fun hP => ⟨h, c, hc, hP⟩

theorem concordant_barred (hbarred : b.group.count = 0 ∨ b.handle.readOnly = true)
    (hkind : f.kind? ≠ some .capacityExceeded) :
    Concordant name a b ⟨.error (.fault f), a, log⟩ ⟨.error (.fault f), a, more⟩ := by
  have hdeclined : ¬Declined ⟨.error (.fault f), a, more⟩ := by
    rintro ⟨g, hg, hcapacity⟩
    cases hg
    exact hkind hcapacity
  exact {
    fails := fun _ _ => hbarred
    alreadyWritable := iff_of_false (by simp) (not_made_of_error rfl)
    grown := iff_of_false (by simp) (not_made_of_error rfl)
    grown_alike := by simp
    declined := iff_of_false (by simp) hdeclined
    declined_unmoved := fun h => absurd h hdeclined
    notExpandable := iff_of_false (by simp) fun h => hdeclined h.1 }

theorem concordant_fits (hb : a.buffer name = .ok b) :
    Concordant name a b ⟨.ok (.reservation .alreadyWritable), a, log⟩ ⟨.ok .done, a, more⟩ where
  fails _ h := by cases h
  alreadyWritable := iff_of_true rfl ((made_iff rfl hb).2 rfl)
  grown := iff_of_false (by simp) fun h => Nat.lt_irrefl _ ((made_iff rfl hb).1 h)
  grown_alike := by simp
  declined := iff_of_false (by simp) (not_declined_of_ok rfl)
  declined_unmoved h := absurd h (not_declined_of_ok rfl)
  notExpandable := iff_of_false (by simp) fun h => not_declined_of_ok rfl h.1

theorem concordant_fixed (hfixed : b.handle.canGrow = false) (hkind : f.kind? = some .capacityExceeded) :
    Concordant name a b ⟨.ok (.reservation .notExpandable), a, log⟩ ⟨.error (.fault f), a, more⟩ where
  fails _ h := by cases h
  alreadyWritable := iff_of_false (by simp) (not_made_of_error rfl)
  grown := iff_of_false (by simp) (not_made_of_error rfl)
  grown_alike := by simp
  declined := iff_of_true (.inl rfl) ⟨f, rfl, hkind⟩
  declined_unmoved _ := ⟨rfl, rfl⟩
  notExpandable := iff_of_true rfl ⟨⟨f, rfl, hkind⟩, Handle.canGrow_eq_false_iff.1 hfixed⟩

theorem concordant_beyond (hgrow : b.handle.canGrow = true) (hkind : f.kind? = some .capacityExceeded) :
    Concordant name a b ⟨.ok (.reservation .capacityExceeded), a, log⟩
      ⟨.error (.fault f), a, more⟩ where
  fails _ h := by cases h
  alreadyWritable := iff_of_false (by simp) (not_made_of_error rfl)
  grown := iff_of_false (by simp) (not_made_of_error rfl)
  grown_alike := by simp
  declined := iff_of_true (.inr rfl) ⟨f, rfl, hkind⟩
  declined_unmoved _ := ⟨rfl, rfl⟩
  notExpandable := by
    refine iff_of_false (by simp) fun h => ?_
    rw [Handle.canGrow_eq_false_iff.2 h.2] at hgrow
    cases hgrow

theorem concordant_grown {a' : Arena} (hc : a'.buffer name = .ok c)
    (hmore : b.handle.capacity < c.handle.capacity) :
    Concordant name a b ⟨.ok (.reservation .grown), a', log⟩ ⟨.ok .done, a', more⟩ where
  fails _ h := by cases h
  alreadyWritable := iff_of_false (by simp) fun h =>
    Nat.ne_of_gt hmore ((made_iff (P := (· = _)) rfl hc).1 h)
  grown := iff_of_true rfl ((made_iff rfl hc).2 hmore)
  grown_alike _ := rfl
  declined := iff_of_false (by simp) (not_declined_of_ok rfl)
  declined_unmoved h := absurd h (not_declined_of_ok rfl)
  notExpandable := iff_of_false (by simp) fun h => not_declined_of_ok rfl h.1

end Law

/-- Both requests fail for the same cause, which is that the storage to grow into cannot be had, and
leave the same. -/
def FailAlike (n : Nat) (b : Buffer) (soft hard : Outcome Failure Arena Answer) : Prop :=
  ∃ f, Storage.checkKind b.pool.system b.group.kind (b.handle.grown n) = .error f ∧
    soft.result = .error (.fault f) ∧ hard.result = .error (.fault f) ∧ soft.state = hard.state

theorem Concordant.agree {soft hard : Outcome Failure Arena Answer}
    (h : Concordant name a b soft hard) (hafford : b.Affords n) :
    (Concordant name a b soft hard ↔ b.Affords n) ∧ (¬b.Affords n → FailAlike n b soft hard) :=
  ⟨iff_of_true h hafford, fun hdenied => absurd hafford hdenied⟩

/-- The two requests agree as they are meant to, unless there is to be growth for which no storage can
be had; then the one that is to answer fails with the other. -/
theorem Reachable.requests_agree_iff (h : a.Reachable) (hb : a.buffer name = .ok b) (n : Nat) :
    (Concordant name a b ((Command.change name (.tryReserve n)).run a)
        ((Command.change name (.reserve n)).run a) ↔ b.Affords n) ∧
      (¬b.Affords n → FailAlike n b ((Command.change name (.tryReserve n)).run a)
        ((Command.change name (.reserve n)).run a)) := by
  obtain ⟨horderly, hgranted⟩ := h.buffer_orderly hb
  obtain ⟨m, e, p, hs, rfl⟩ := seat_of_buffer h.valid hb
  have hends := Buffer.requests_end (h.valid.buffer hs) horderly hgranted n
  have hsoft : (Command.change name (.tryReserve n)).run a = _ :=
    onBuffer_map hs (Buffer.tryReserve n) Answer.reservation
  have hhard : (Command.change name (.reserve n)).run a = _ :=
    onBuffer_map hs (Buffer.reserve n) fun _ => Answer.done
  rw [hsoft, hhard]
  generalize Buffer.tryReserve n (a.bufferOf name m e p) = soft at hends
  generalize Buffer.reserve n (a.bufferOf name m e p) = hard at hends
  have hself := settle_self hs
  cases hends with
  | barred hbarred hkind =>
    simp only [lodge, hself]
    exact (concordant_barred hbarred hkind).agree (Buffer.affords_of_barred hbarred)
  | fits hfits =>
    simp only [lodge, hself]
    exact (concordant_fits hb).agree
      (Buffer.affords_of_not_grows fun hgrows => absurd hfits (Nat.not_le.2 hgrows.more))
  | fixed hmore hfixed hkind =>
    simp only [lodge, hself]
    exact (concordant_fixed hfixed hkind).agree
      (Buffer.affords_of_not_grows fun hgrows => Bool.false_ne_true (hfixed.symm.trans hgrows.canGrow))
  | beyond hgrow hmax hkind =>
    simp only [lodge, hself]
    exact (concordant_beyond hgrow hkind).agree
      (Buffer.affords_of_not_grows fun hgrows => absurd hgrows.le_max (Nat.not_le.2 hmax))
  | grown hshared hmore hhouses =>
    exact (concordant_grown (buffer_settle hs hshared) hmore).agree fun _ _ _ => hhouses
  | refused live hopen hgrows hdenied hcause =>
    have hunafforded : ¬(a.bufferOf name m e p).Affords n :=
      fun hafford => hdenied (hafford live hopen hgrows)
    refine ⟨iff_of_false (fun hlaw => ?_) hunafforded, fun _ => ⟨_, hcause, rfl, rfl, rfl⟩⟩
    exact hunafforded (Buffer.affords_of_barred (hlaw.fails _ rfl))

theorem requests_agree_pinched :
    ∃ b, pinched.buffer "root" = .ok b ∧
      Concordant "root" pinched b ((Command.change "root" (.tryReserve 6)).run pinched)
        ((Command.change "root" (.reserve 6)).run pinched) := by
  exact ⟨_, buffer_pinched,
    (reachable_pinched.requests_agree_iff buffer_pinched 6).1.2 (affords_pinched 6)⟩

def vast : Arena :=
  after {} [.allocatorDefault "allocator",
    .make (.request "allocator" (.exact .direct 0 Word.largest)) "root"]

theorem soft_request_fails_vast :
    vast.Reachable ∧ ∃ b, vast.buffer "root" = .ok b ∧ 0 < b.group.count ∧
      b.handle.readOnly = false ∧
      ((Command.change "root" (.tryReserve (Nat.pow 2 63))).run vast).result =
        .error (.fault (.directLimit (Nat.pow 2 63))) := by
  have hreach : vast.Reachable := ⟨_, _, by decide, rfl⟩
  have hb : vast.buffer "root" = .ok ⟨.root 0 Word.largest 0 true,
      .holding ⟨.direct, [], Word.largest⟩, (Pool.lend .direct 0 Word.largest (.plain {})).state, false⟩ :=
    rfl
  refine ⟨hreach, _, hb, by decide, rfl, ?_⟩
  have hvalid := hreach.valid.of_buffer hb
  have hgrown : (Handle.root 0 Word.largest 0 true).grown (Nat.pow 2 63) = Nat.pow 2 63 := by
    decide +kernel
  have hgrows : (Handle.root 0 Word.largest 0 true).Grows (Nat.pow 2 63) :=
    ⟨by decide, rfl, by decide⟩
  have hsoft := Buffer.tryReserve_of_refused (f := .directLimit (Nat.pow 2 63)) rfl hvalid hgrows
    (by rw [hgrown]; rfl)
  obtain ⟨m, e, p, hs, heq⟩ := seat_of_buffer hreach.valid hb
  have hrun := onBuffer_map hs (Buffer.tryReserve (Nat.pow 2 63)) Answer.reservation
  rw [← heq, hsoft] at hrun
  exact congrArg Outcome.result hrun

end Arena

end SharedBuffer
