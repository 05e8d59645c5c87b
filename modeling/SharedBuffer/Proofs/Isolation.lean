import SharedBuffer.Proofs.Commands

/-!
What the use of one handle shows to the others. Main statement: a handle that a command does not use
keeps its cursor, window and flags; in its window it sees the bytes that were written there through a
handle of its group and otherwise the bytes that it saw before; and a copy shares its storage with no
handle that was there before, whatever is done later.
-/

namespace SharedBuffer

open Table (find?)

namespace Arena

variable {a a' : Arena} {name : String} {m : Member} {e : Estate} {p : Pool} {g : Nat}
  {f : Buffer → Effect}

theorem written_entry (h : ∀ m, find? name a.buffers = some m → m.group ≠ g) :
    (a.entry name f).written g = fun _ => none := by
  simp only [entry]
  split
  · next m b hm hb => exact if_neg fun hg => h m hm hg.symm
  · rfl

end Arena

namespace Command

open Arena

variable {a : Arena} {c : Command} {g : Nat}

theorem written_account (h : ∀ user ∈ c.users, ∀ u, find? user a.buffers = some u → u.group ≠ g) :
    (c.account a).written g = fun _ => none := by
  cases c with
  | change name c => exact written_entry (h name (List.mem_singleton_self _))
  | derive name d target =>
    have hnone := written_entry (f := fun _ => d.effect) (h name (List.mem_singleton_self _))
    funext p
    simp only [account, Account.andThen, hnone, Option.none_or]
  | exchange name other x =>
    have hname := h name (List.mem_cons_self ..)
    have hother := h other (List.mem_cons_of_mem _ (List.mem_singleton_self _))
    cases x with
    | getBytesTo index otherIndex length => exact written_entry hother
    | setBytesFrom index otherIndex length => exact written_entry hname
    | readInto n =>
      funext p
      simp only [account, Exchange.account, Account.andThen, written_entry hother, Option.none_or]
    | writeFrom n =>
      funext p
      simp only [account, Exchange.account, Account.andThen, written_entry hname, Option.none_or]
    | equals => rfl
    | compare => rfl
  | poolTakeBack pool name =>
    rw [account]
    split <;> rfl
  | _ => rfl

end Command

namespace Arena

variable {a a' : Arena} {c : Command} {name : String} {m : Member}

/-- What becomes of the handle of a name that a command neither uses nor gives away. The bytes that
it sees are those written to its group, or its old ones; none are written if the command uses no
handle of the group. -/
structure Spared (c : Command) (a a' : Arena) (name : String) (m : Member) : Prop where
  member : find? name a'.buffers = some m
  bytes : ∀ t, a'.storageAt m.group = some t → ∃ s, a.storageAt m.group = some s ∧
    ∀ j < m.handle.capacity, t.bytes[m.handle.offset + j]? =
      ((c.account a).written m.group (m.handle.offset + j)).or s.bytes[m.handle.offset + j]?
  apart : (∀ user ∈ c.users, ∀ u, find? user a.buffers = some u → u.group ≠ m.group) →
    (c.account a).written m.group = fun _ => none
  held : 0 < a.references m.group → (∀ user n, c ≠ .change user (.release n)) →
    ∃ t, a'.storageAt m.group = some t

theorem Does.spared (h : a.Does (c.account a) a') (ha : a.Valid) (hm : find? name a.buffers = some m)
    (huser : name ∉ c.users) (hseat : name ∉ c.seats) : Spared c a a' name m := by
  obtain ⟨ended, -, -, hcourse⟩ := h.course
  have hused : name ∉ (c.account a).used := fun hname => huser (c.used_account a name hname)
  have hseated : name ∉ (c.account a).seated := by
    rw [c.seated_account a]
    exact hseat
  obtain ⟨hmember, hbytes⟩ := hcourse.isolated ha hm hused hseated
  refine ⟨hmember, hbytes, Command.written_account, fun live hkeep => ?_⟩
  have hcount := hcourse.count m.group
  have hlost := Command.lost_account hkeep a m.group
  simp only [hlost] at hcount
  exact (hcourse.valid ha).storage_of_member hmember (by omega)

theorem Valid.persists (ha : a.Valid) {cs : List Command}
    (hcs : ∀ c ∈ cs, c.Fits ∧ name ∉ c.seats) (hm : find? name a.buffers = some m) :
    ∃ m', find? name (after a cs).buffers = some m' ∧ m.Persists m' := by
  induction cs generalizing a m with
  | nil => exact ⟨m, hm, m.persists_refl⟩
  | cons c cs ih =>
    obtain ⟨hfits, hseat⟩ := hcs c List.mem_cons_self
    obtain ⟨x, hdoes, hseats⟩ := ha.step hfits
    obtain ⟨ended, -, -, hcourse⟩ := hdoes.course
    obtain ⟨m₁, hm₁, hfirst⟩ := hcourse.stays ha hm fun hname => hseat (hseats hname)
    obtain ⟨m₂, hm₂, hrest⟩ :=
      ih (hdoes.valid ha) (fun d hd => hcs d (List.mem_cons_of_mem _ hd)) hm₁
    exact ⟨m₂, hm₂, hfirst.trans hrest⟩

theorem Valid.copy_apart (ha : a.Valid) {d : Derivation} {target : String} {v : Answer}
    (hok : ((Command.derive name d target).run a).result = .ok v) (hcopies : d.copies = true) :
    ∃ made, find? target ((Command.derive name d target).run a).state.buffers = some made ∧
      ∀ other m, find? other a.buffers = some m → m.group ≠ made.group := by
  obtain ⟨-, m, made, -, hmade, hgroup, -⟩ := (Command.derive_meets ha d target).of_ok hok
  refine ⟨made, hmade, fun other m hm => ?_⟩
  rw [if_pos hcopies] at hgroup
  have hlt : m.group < a.groups.length := lt_of_fits (ha.members _ (Table.mem_of_find? hm))
  omega

/-- Handles that a command does not use are spared by it; and a copy lies apart from every handle
that was there before, as long as both have their names. -/
theorem Reachable.others_spared (h : a.Reachable) (hc : c.Fits) {v : Answer}
    (hok : (c.run a).result = .ok v) :
    (∀ name m, find? name a.buffers = some m → name ∉ c.users → name ∉ c.seats →
      Spared c a (c.run a).state name m) ∧
    ∀ name d target, c = .derive name d target → d.copies = true →
      ∀ other m, find? other a.buffers = some m → other ≠ target →
      ∀ cs : List Command, (∀ d ∈ cs, d.Fits ∧ other ∉ d.seats ∧ target ∉ d.seats) →
        ∃ made m', find? target (after (c.run a).state cs).buffers = some made ∧
          find? other (after (c.run a).state cs).buffers = some m' ∧ m'.group ≠ made.group := by
  have ha := h.valid
  have hdoes := (Command.run_meets ha hc).of_ok hok
  refine ⟨fun name m hm => hdoes.spared ha hm, ?_⟩
  rintro name d target rfl hcopies other m hm hother cs hcs
  have ha' := hdoes.valid ha
  obtain ⟨made, hmade, hapart⟩ := ha.copy_apart hok hcopies
  obtain ⟨ended, -, -, hcourse⟩ := hdoes.course
  obtain ⟨m₁, hm₁, hfirst⟩ := hcourse.stays ha hm (by
    change other ∉ (Command.account a (.derive name d target)).seated
    rw [Command.seated_account]
    exact fun hname => hother (List.mem_singleton.1 hname))
  obtain ⟨m₂, hm₂, hrest⟩ :=
    ha'.persists (fun d hd => ⟨(hcs d hd).1, (hcs d hd).2.1⟩) hm₁
  obtain ⟨made', hmade', hpersists⟩ :=
    ha'.persists (fun d hd => ⟨(hcs d hd).1, (hcs d hd).2.2⟩) hmade
  refine ⟨made', m₂, hmade', hm₂, fun hsame => hapart other m hm ?_⟩
  rw [hrest.group, hfirst.group, hpersists.group] at hsame
  exact hsame

def viewed : Arena :=
  after {} [.make (.allocate 8 8) "whole", .change "whole" (.append [1, 2, 3, 4, 5, 6]),
    .derive "whole" (.slice (.within 2 4)) "part"]

def overwrite : Command := .change "whole" (.setBytes 3 [9, 9])

theorem others_spared_viewed :
    find? "part" (overwrite.run viewed).state.buffers =
      some ⟨0, (Handle.root 8 8 6 true).slice 2 4⟩ ∧
    ∀ j < 4, ([1, 2, 3, 9, 9, 6, 0, 0] : Bytes)[2 + j]? =
      ((overwrite.account viewed).written 0 (2 + j)).or ([1, 2, 3, 4, 5, 6, 0, 0] : Bytes)[2 + j]? := by
  have hreach : viewed.Reachable := ⟨_, _, by decide, rfl⟩
  have hok : (overwrite.run viewed).result = .ok .done := rfl
  have hspared := (hreach.others_spared (c := overwrite) trivial hok).1 "part"
    ⟨0, (Handle.root 8 8 6 true).slice 2 4⟩ (by decide) (by decide) (by decide)
  have hbefore : viewed.storageAt 0 = some ⟨.heap, [1, 2, 3, 4, 5, 6, 0, 0], 8⟩ := by decide
  have hafter : (overwrite.run viewed).state.storageAt 0 =
      some ⟨.heap, [1, 2, 3, 9, 9, 6, 0, 0], 8⟩ := by decide
  obtain ⟨s, hs, hbytes⟩ := hspared.bytes _ hafter
  rw [hbefore] at hs
  cases hs
  exact ⟨hspared.member, hbytes⟩

end Arena

end SharedBuffer
