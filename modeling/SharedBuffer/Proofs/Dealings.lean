import SharedBuffer.Proofs.Discretion
import SharedBuffer.Proofs.Loans

/-!
What due requests make of a pool and of its loans, whatever else is on loan. Main statement: a discreet
action on a buffer deals with the pool for the storage of its group alone, and what it asks is what is
computed along it.
-/

namespace SharedBuffer

open Pool (Audit Book Request)

namespace Pool

variable {p q : Pool} {out more rest : Loans} {rs : List Request} {s u : Storage} {n m : Nat}
  {kind : StorageKind} {t v : Book}

/-- Due requests make of a pool with so much on loan another one with so much on loan. -/
def Deals (p : Pool) (out : Loans) (rs : List Request) (q : Pool) (more : Loans) : Prop :=
  ∀ t : Book, t.loans.Perm out → Audit.Due ⟨p, t⟩ rs ∧
    (Audit.serveAll ⟨p, t⟩ rs).pool = q ∧ (Audit.serveAll ⟨p, t⟩ rs).book.loans.Perm more

theorem deals_nil (h : out.Perm more) : Deals p out [] p more := fun _ ht => ⟨trivial, rfl, ht.trans h⟩

theorem Deals.congr (h : Deals p out rs q more) {out' more' : Loans} (hout : out'.Perm out)
    (hmore : more.Perm more') : Deals p out' rs q more' := by
  intro t ht
  obtain ⟨hdue, hpool, hloans⟩ := h t (ht.trans hout)
  exact ⟨hdue, hpool, hloans.trans hmore⟩

theorem Deals.trans (h : Deals p out rs q more) {rs' : List Request} {q' : Pool}
    (h' : Deals q more rs' q' rest) : Deals p out (rs ++ rs') q' rest := by
  intro t ht
  obtain ⟨hdue, hpool, hloans⟩ := h t ht
  obtain ⟨hdue', hpool', hloans'⟩ := h' _ hloans
  have hmid : Audit.serveAll ⟨p, t⟩ rs = ⟨q, (Audit.serveAll ⟨p, t⟩ rs).book⟩ := by rw [← hpool]
  rw [Audit.due_append, Audit.serveAll_append, hmid]
  exact ⟨⟨hdue, hdue'⟩, hpool', hloans'⟩

theorem Deals.unused (h : Deals p out rs q more) : q.unused = p.unused := by
  obtain ⟨-, hpool, -⟩ := h { loans := out } (.refl _)
  rw [← hpool, unused_serveAll]

theorem Request.note_perm (r : Request) (hr : r.Due v) (h : t.loans.Perm (v.loans ++ rest)) :
    r.Due t ∧ (r.note p t).loans.Perm ((r.note p v).loans ++ rest) := by
  cases r with
  | lend kind n m =>
    refine ⟨trivial, ?_⟩
    simp only [note]
    split
    · exact h.cons _
    · split <;> exact h
  | relend s n =>
    refine ⟨hr, ?_⟩
    simp only [note]
    split
    · exact h.cons _
    · split <;> exact h
  | takeBack s =>
    have hmem : s.shape ∈ v.loans := hr
    refine ⟨h.mem_iff.2 (List.mem_append_left _ hmem), ?_⟩
    have herase := h.erase s.shape
    rwa [List.erase_append_left _ hmem] at herase
  | shrink => exact ⟨trivial, h⟩

theorem deals_request (p : Pool) (r : Request) (hr : r.Due v) (rest : Loans) :
    Deals p (v.loans ++ rest) [r] (r.serve p) ((r.note p v).loans ++ rest) := by
  intro t ht
  obtain ⟨hdue, hloans⟩ := r.note_perm (p := p) hr ht
  exact ⟨⟨hdue, trivial⟩, rfl, hloans⟩

theorem deals_takeBack (p : Pool) (s : Storage) (rest : Loans) :
    Deals p (s.shape :: rest) [.takeBack s] (Pool.takeBack s p).state rest := by
  have h := deals_request (v := { loans := [s.shape] }) p (.takeBack s) List.mem_cons_self rest
  rwa [show ((Request.takeBack s).note p { loans := [s.shape] }).loans = [] from
    List.erase_cons_head s.shape []] at h

theorem Request.loans_of_unmet {f : Fault} (hf : (Pool.relend s n p).result = .error f) (t : Book) :
    ((Request.relend s n).note p t).loans = t.loans := by
  rw [note, hf]
  dsimp only
  split <;> rfl

theorem Request.loans_of_unlent {f : Fault} (hf : (Pool.lend kind n m p).result = .error f) (t : Book) :
    ((Request.lend kind n m).note p t).loans = t.loans := by
  rw [note, hf]
  dsimp only
  split <;> rfl

theorem deals_unmet {f : Fault} (hf : (relend s n p).result = .error f)
    (hs : min s.capacity n ≤ Word.largest) (out : Loans) :
    Deals p out [.relend s n] (relend s n p).state out := by
  have h := deals_request (v := {}) p (.relend s n) hs out
  rwa [Request.loans_of_unmet hf] at h

theorem deals_exchange (hu : (relend s n p).result = .ok u) (hs : min s.capacity n ≤ Word.largest)
    (rest : Loans) :
    Deals p (s.shape :: rest) [.relend s n, .takeBack s] (takeBack s (relend s n p).state).state
      (u.shape :: rest) := by
  have h := deals_request (v := { loans := [s.shape] }) p (.relend s n) hs rest
  have hboth : ((Request.relend s n).note p { loans := [s.shape] }).loans = [u.shape, s.shape] := by
    rw [Request.note, hu]
    rfl
  rw [hboth] at h
  exact (h.congr (.refl _) (.swap ..)).trans (deals_takeBack _ s (u.shape :: rest))

theorem shape_of_relend (hu : (relend s n p).result = .ok u) :
    n ≤ s.maxCapacity ∧ u.shape = (s.kind, n, s.maxCapacity) := by
  rcases relend_cases s n p with hr | ⟨hn, hr⟩
  · rw [hr] at hu
    obtain ⟨hn, rfl⟩ := Storage.resize_eq_ok hu
    exact ⟨hn, by rw [Storage.shape, Storage.capacity_refit]; rfl⟩
  · rw [hr] at hu
    obtain ⟨t, ht, hwrite⟩ := except_bind_eq_ok.1 hu
    have hshape := shape_of_lend ht
    exact ⟨hn, (Storage.shape_writeRange hwrite).trans hshape⟩

end Pool

namespace Buffer

variable {b c : Buffer} {rs : List Request}

def loan (b : Buffer) : Loans := (b.group.storage.map Storage.shape).toList

/-- The requests are all that the pool has been asked, and have to do with the storage of the group
alone. -/
def Trades (b : Buffer) (rs : List Request) (c : Buffer) : Prop :=
  ∀ rest, Pool.Deals b.pool (b.loan ++ rest) rs c.pool (c.loan ++ rest)

theorem trades_refl (b : Buffer) : b.Trades [] b := fun _ => Pool.deals_nil (.refl _)

theorem trades_of_same (hpool : c.pool = b.pool)
    (hshape : c.group.storage.map Storage.shape = b.group.storage.map Storage.shape) : b.Trades [] c := by
  intro rest
  rw [hpool, loan, loan, hshape]
  exact Pool.deals_nil (.refl _)

def Stocked (b : Buffer) : Prop := ∀ s, b.group.storage = some s → s.Valid

theorem stocked_of_shape (hb : b.Stocked)
    (hshape : c.group.storage.map Storage.shape = b.group.storage.map Storage.shape) : c.Stocked := by
  intro u hu
  rw [hu, Option.map_some] at hshape
  obtain ⟨s, hs, hsame⟩ := Option.map_eq_some_iff.1 hshape.symm
  exact (hb s hs).of_shape hsame.symm

theorem trades_resize (hb : b.Stocked) (n : Nat) :
    b.Trades ((Discreet.resize n).requests b) (resize n b).state ∧ (resize n b).state.Stocked := by
  cases hs : b.group.storage with
  | none =>
    have hheld : b.heldStorage = .error .groupReleased := by rw [heldStorage, hs]
    rw [Discreet.requests, hs, resize, Action.current_bind, Action.ask_bind_of_error hheld]
    exact ⟨trades_refl b, hb⟩
  | some s =>
    have hle := (hb s hs).min_le_largest n
    have hloan : b.loan = [s.shape] := by rw [loan, hs]; rfl
    have hasked : (Discreet.resize n).requests b = Discreet.replacing n b s := by
      rw [Discreet.requests, hs]
      exact List.append_nil _
    rw [hasked]
    rcases resize_cases hs n with ⟨hneed, hr⟩ | ⟨hneed, ⟨f, hf, hr⟩ | ⟨u, hu, hr⟩⟩
    · rw [hr, Discreet.replacing, hneed]
      exact ⟨trades_refl b, hb⟩
    · rw [hr, Discreet.replacing, hneed, hf]
      exact ⟨fun rest => Pool.deals_unmet hf hle _, hb⟩
    · obtain ⟨hn, hshape⟩ := Pool.shape_of_relend hu
      rw [hr, Discreet.replacing, hneed, hu]
      refine ⟨fun rest => ?_, fun t ht => ?_⟩
      · rw [hloan]
        exact Pool.deals_exchange hu hle rest
      · obtain rfl : u = t := Option.some.inj ht
        have hcap : u.capacity = n := (congrArg (·.2.1) hshape :)
        have hmax : u.maxCapacity = s.maxCapacity := (congrArg (·.2.2) hshape :)
        exact ⟨by omega, hmax ▸ (hb s hs).max_le_largest⟩

theorem trades_giveBack (b : Buffer) (note : Storage → Event) :
    b.Trades (b.group.storage.toList.map .takeBack) (giveBack note b).state := by
  cases hs : b.group.storage with
  | none =>
    rw [giveBack_of_none hs]
    exact trades_refl b
  | some s =>
    rw [giveBack_of_some hs]
    intro rest
    rw [loan, hs]
    exact Pool.deals_takeBack b.pool s rest

theorem Tame.update {ε : Type} {f : Buffer → Except ε Buffer} (h : Tame f) (b : Buffer) :
    (Action.update f b).state.pool = b.pool ∧
      (Action.update f b).state.group.storage.map Storage.shape = b.group.storage.map Storage.shape := by
  cases hc : f b with
  | error e =>
    rw [Action.update_of_error hc]
    exact ⟨rfl, rfl⟩
  | ok c =>
    rw [Action.update_of_ok hc]
    exact ⟨h.pool hc, h.shape b c hc⟩

theorem Tame.trades {ε : Type} {f : Buffer → Except ε Buffer} (h : Tame f) (b : Buffer) :
    b.Trades [] (Action.update f b).state := trades_of_same (h.update b).1 (h.update b).2

theorem Discreet.trades {ε α : Type} {x : Action ε Buffer α} (h : Discreet x) (hb : b.Stocked) :
    b.Trades (h.requests b) (x b).state ∧ (x b).state.Stocked := by
  induction h generalizing b with
  | pure v => exact ⟨trades_refl b, hb⟩
  | fail e => exact ⟨trades_refl b, hb⟩
  | ask hg => exact ⟨trades_refl b, hb⟩
  -- Loans are told by kind and sizes, which an update of the bytes keeps.
  | update hf =>
    obtain ⟨hpool, hshape⟩ := hf.update b
    exact ⟨trades_of_same hpool hshape, stocked_of_shape hb hshape⟩
  | emit e => exact ⟨trades_refl b, hb⟩
  | look _ _ ih =>
    rw [Action.current_bind]
    exact ih b hb
  | @bind _ _ _ x f hx hf ihx ihf =>
    obtain ⟨htrades, hstocked⟩ := ihx hb
    rw [requests]
    rcases ho : x b with ⟨e | v, c, log⟩
    · rw [Action.bind_of_error ho]
      rw [ho] at htrades hstocked
      exact ⟨(List.append_nil (hx.requests b)).symm ▸ htrades, hstocked⟩
    · rw [Action.bind_of_ok ho]
      rw [ho] at htrades hstocked
      obtain ⟨hmore, hafter⟩ := ihf v hstocked
      exact ⟨fun rest => (htrades rest).trans (hmore rest), hafter⟩
  | mapError _ r ih => exact ih hb
  | congr heq _ ih =>
    subst heq
    exact ih hb
  | resize n => exact trades_resize hb n
  | giveBack note =>
    refine ⟨trades_giveBack b note, ?_⟩
    cases hs : b.group.storage with
    | none =>
      rw [giveBack_of_none hs]
      exact hb
    | some s =>
      rw [giveBack_of_some hs]
      intro t ht
      cases ht

end Buffer

end SharedBuffer
