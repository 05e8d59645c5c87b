import SharedBuffer.Proofs.Reclamation
import SharedBuffer.Proofs.Refusal

/-!
Groups after their last reference was released. The count of a group stays zero once it is zero. Main
statement: after the release that answers true, no run of commands makes any handle of the group
accessible again.
-/

namespace SharedBuffer

section Staying

variable {f : Effect} {b b' : Buffer} {log : List Event}

theorem Move.released (h : Move f b b' log) (hb : b.group.count = 0) : b'.group.count = 0 := by
  cases h with
  | retain live hle => omega
  | release hlt => omega
  | finish hs => rfl
  | _ => exact hb

theorem Course.released (h : Course f b b' log) (hb : b.group.count = 0) : b'.group.count = 0 := by
  induction h with
  | refl b => exact hb
  | step prior move ih => exact move.released (ih hb)

namespace Arena

variable {a a' : Arena} {x : Account} {g : Nat}

theorem lt_of_references (h : a.references g = 0) : g < a.groups.length := by
  refine Nat.lt_of_not_le fun hle => ?_
  rw [references, List.getElem?_eq_none hle] at h
  simp at h

theorem Deed.released (h : Deed x a a') (hg : a.references g = 0) : a'.references g = 0 := by
  cases h with
  | @use _ name m e p hs f b log h =>
    by_cases hgroup : m.group = g
    · rw [← hgroup, references_of_some hs.estate] at hg
      rw [← hgroup, references_of_some (groups_settle_self hs b)]
      exact h.released hg
    · rw [references_congr (groups_settle_ne hgroup _ b)]
      exact hg
  -- New groups come after all that are there.
  | addGroup hpool hs =>
    rw [references_congr (List.getElem?_append_left (lt_of_references hg))]
    exact hg
  | @vacate _ g' e p s he hp hfree hs =>
    by_cases hgroup : g' = g
    · rw [← hgroup, references_of_some he] at hg
      rw [← hgroup]
      exact (references_of_some (groups_vacate_self he s)).trans hg
    · rw [references_congr (groups_vacate_ne hgroup s)]
      exact hg
  | _ => exact hg

theorem Course.released (h : Course x a a') (hg : a.references g = 0) : a'.references g = 0 := by
  induction h with
  | refl a => exact hg
  | step prior deed ih => exact deed.released (ih hg)

theorem Valid.released_after (ha : a.Valid) {cs : List Command} (hcs : ∀ c ∈ cs, c.Fits)
    (hg : a.references g = 0) : (after a cs).references g = 0 := by
  induction cs generalizing a with
  | nil => exact hg
  | cons c cs ih =>
    obtain ⟨y, hdoes, -⟩ := ha.step (hcs c List.mem_cons_self)
    obtain ⟨ended, -, -, hcourse⟩ := hdoes.course
    exact ih (hcourse.valid ha) (fun d hd => hcs d (List.mem_cons_of_mem _ hd)) (hcourse.released hg)

end Arena

end Staying

namespace Command

open Arena

/-- The command reads, writes, moves, resizes or exposes bytes through the handle of a name, adds a
reference or derives a handle; with what else it is refused for, before the handle is looked at. -/
inductive Reaches (a : Arena) (name : String) (h : Handle) : Command → Option Fault → Prop
  | ask {q : Query} (hq : q.touches = true) : Reaches a name h (.ask name q) q.objection
  | change {c : Change} (hc : c.touches h = true) : Reaches a name h (.change name c) c.objection
  | derive (d : Derivation) (target : String) : Reaches a name h (.derive name d target) none
  | exchange {other : String} {o : Buffer} (ho : a.buffer? other = some o) {x : Exchange}
      (hne : name = other → x.compares = true) (hx : x.touches h o.handle = true) :
      Reaches a name h (.exchange name other x) (x.objection o)
  | exchanged {other : String} {o : Buffer} (ho : a.buffer? other = some o) {x : Exchange}
      (hne : other = name → x.compares = true) (hx : x.touches h o.handle = true) :
      Reaches a name h (.exchange other name x) (x.mirrored.objection o)

variable {a : Arena} {name : String} {m : Member} {c : Command} {objection : Option Fault}

theorem seat_of_buffer? (ha : a.Valid) {b : Buffer} (h : a.buffer? name = some b) :
    ∃ m e p, a.Seat name m e p ∧ b = a.bufferOf name m e p := by
  refine seat_of_buffer ha ?_
  rw [buffer, h]

theorem run_of_released (ha : a.Valid) (hm : Table.find? name a.buffers = some m)
    (hg : a.references m.group = 0) (h : c.Reaches a name m.handle objection) :
    ∃ f fault, c.run a = ⟨.error f, a, []⟩ ∧ f.cause? = some fault ∧ fault.AfterRelease objection := by
  obtain ⟨e, p, hs⟩ := ha.seat hm
  rw [references_of_some hs.estate] at hg
  have hb : (a.bufferOf name m e p).group.count = 0 := hg
  cases h with
  | @ask q hq =>
    have hanswer := q.answer_of_released hb hq
    exact ⟨_, _, rejects_onBuffer hs ((Action.rejects_ask hanswer).mapError _), rfl,
      Fault.afterRelease_getD _⟩
  | @change c hc =>
    obtain ⟨f, fault, hrun, hcause, hfault⟩ := c.run_of_released hb hc
    exact ⟨f, fault, rejects_onBuffer hs hrun, hcause, hfault⟩
  | derive d target =>
    obtain ⟨fault, hrun, hkind⟩ := d.run_of_released hb
    exact ⟨_, fault, (rejects_onBuffer hs (hrun.mapError Failure.fault)).bind _, rfl, hkind⟩
  | @exchange other o ho x hne hx =>
    obtain ⟨mo, eo, po, hso, rfl⟩ := seat_of_buffer? ha ho
    exact ⟨_, _, x.run_of_released ha hs hso hne hg hx, rfl, Fault.afterRelease_getD _⟩
  | @exchanged other o ho x hne hx =>
    obtain ⟨mo, eo, po, hso, rfl⟩ := seat_of_buffer? ha ho
    exact ⟨_, _, x.mirrored_run_of_released hs hso hne hg hx, rfl, Fault.afterRelease_getD _⟩

end Command

namespace Arena

open Table (find?)

variable {a : Arena} {name : String} {m : Member} {n : Nat}

theorem released_of_last (ha : a.Valid) (hm : find? name a.buffers = some m)
    (hlast : ((Command.change name (.release n)).run a).result = .ok (.flag true)) :
    ((Command.change name (.release n)).run a).state.references m.group = 0 := by
  obtain ⟨last, hflag, -, -, hall⟩ := (result_release ha hm).1 hlast
  cases hflag
  have hn := hall.1 rfl
  obtain ⟨e, p, hs⟩ := ha.seat hm
  have hstep := references_step ha (c := .change name (.release n)) trivial m.group
  have hbooked : (Command.change name (.release n)).booked a = .use name m.group { lost := n } := by
    rw [Command.booked, hlast]
    exact entry_of_seat hs _
  rw [hbooked] at hstep
  simp only [Account.use, if_true] at hstep
  omega

/-- After the release that answers true the count of the group is zero for good. On every handle of
the group, whenever it was made, whatever reads, writes, moves or exposes bytes, resizes, retains or
derives fails, leaves everything as it is, and says that the buffer has been released, unless another
argument was refused first. -/
theorem Reachable.no_access_after_release (h : a.Reachable) (hm : find? name a.buffers = some m)
    (hlast : ((Command.change name (.release n)).run a).result = .ok (.flag true))
    {cs : List Command} (hcs : ∀ c ∈ cs, c.Fits) :
    let b := after a (.change name (.release n) :: cs)
    b.references m.group = 0 ∧
      ∀ other k, find? other b.buffers = some k → k.group = m.group →
        (Command.ask other .count).run b = ⟨.ok (.number 0), b, []⟩ ∧
        ∀ (c : Command) (objection : Option Fault), c.Reaches b other k.handle objection →
          ∃ f fault, c.run b = ⟨.error f, b, []⟩ ∧ f.cause? = some fault ∧
            fault.AfterRelease objection := by
  intro b
  have hnext := h.run (c := .change name (.release n)) trivial
  have hzero : b.references m.group = 0 :=
    hnext.valid.released_after hcs (released_of_last h.valid hm hlast)
  have hb : b.Valid := Reachable.valid ?_
  · refine ⟨hzero, fun other k hk hgroup => ⟨?_, fun c objection hreaches => ?_⟩⟩
    · obtain ⟨e, p, hs⟩ := hb.seat hk
      rw [← hgroup, references_of_some hs.estate] at hzero
      have hcount := onBuffer_of_seat hs (lift (Action.ask Query.count.answer))
      rw [lift_of_ok (Action.ask_of_ok (show Query.count.answer _ = .ok (.number 0) from
        congrArg (fun n => Except.ok (Answer.number n)) hzero)), settle_self hs] at hcount
      exact hcount
    · exact Command.run_of_released hb hk (hgroup ▸ hzero) hreaches
  · obtain ⟨sys, before, hbefore, ha⟩ := h
    refine ⟨sys, before ++ .change name (.release n) :: cs, ?_, ?_⟩
    · intro c hc
      rcases List.mem_append.1 hc with hc | hc
      · exact hbefore c hc
      · rcases List.mem_cons.1 hc with rfl | hc
        · trivial
        · exact hcs c hc
    · rw [after, List.foldl_append]
      exact congrArg (fun a => after a (.change name (.release n) :: cs)) ha

def grown : Arena :=
  after {} [.make (.allocate 4 16) "root", .change "root" (.append [1, 2, 3]),
    .derive "root" .duplicate "view", .change "root" (.changeCapacity 8)]

theorem no_access_after_release_grown :
    ∃ f fault, (Command.ask "view" .content).run (after grown [.change "root" (.release 1)]) =
        ⟨.error f, after grown [.change "root" (.release 1)], []⟩ ∧
      f.cause? = some fault ∧ fault.kind? = some .useAfterRelease := by
  have hreach : grown.Reachable := ⟨_, _, by decide, rfl⟩
  have hm : find? "root" grown.buffers = some ⟨0, ⟨0, 8, 16, ⟨0, 3, 0, 0⟩, true, false, .root⟩⟩ := by
    decide
  have hlast : ((Command.change "root" (.release 1)).run grown).result = .ok (.flag true) := rfl
  have hnone := hreach.no_access_after_release hm hlast (show ∀ c ∈ [], Command.Fits c by decide)
  exact (hnone.2 "view" ⟨0, ⟨0, 4, 16, ⟨0, 3, 0, 3⟩, true, false, .duplicate⟩⟩ (by decide) rfl).2
    _ _ (.ask rfl)

end Arena

end SharedBuffer
