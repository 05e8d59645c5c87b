import SharedBuffer.Proofs.Commands

/-!
Refused commands. Main statement: a command that fails, unless it is a transfer broken by its
stream, leaves every handle, group, storage, name and allocator as it was, and every pool apart from
its number of failed acquisitions.
-/

namespace SharedBuffer.Arena

variable {a a' : Arena}

theorem pools_of_forgetFailures (h : a'.forgetFailures = a.forgetFailures) :
    a' = { a with pools := a'.pools } ∧
      a'.pools.map Pool.forgetFailures = a.pools.map Pool.forgetFailures := by
  simp only [forgetFailures, Arena.mk.injEq] at h
  obtain ⟨hsystem, hpools, hgroups, hbuffers, hnames, hallocators, hstores⟩ := h
  refine ⟨?_, hpools⟩
  rw [← hsystem, ← hgroups, ← hbuffers, ← hnames, ← hallocators, ← hstores]

/-- A failure of a command as a whole leaves nothing of it. -/
theorem Reachable.unchanged_of_failure (h : a.Reachable) {c : Command} (hc : c.Fits) {f : Failure}
    (hf : (c.run a).result = .error f) (hstream : ¬f.OfStream) :
    (c.run a).state = { a with pools := (c.run a).state.pools } ∧
      (c.run a).state.pools.map Pool.forgetFailures = a.pools.map Pool.forgetFailures :=
  pools_of_forgetFailures (((Command.run_meets h.valid hc).of_error hf).unmoved hstream)

def roomy : Arena :=
  after { system := ⟨fun n => n < 64⟩ } [.allocatorNew [("pooling", .text "pooled")] "lender",
    .make (.request "lender" (.exact .direct 4 128)) "large", .change "large" (.append [1, 2])]

def enlarge : Command := .change "large" (.changeCapacity 64)

/-- Of the refused growth the pool keeps a note. -/
theorem unchanged_of_failure_enlarge :
    (enlarge.run roomy).state.buffers = roomy.buffers ∧
    (enlarge.run roomy).state.groups = roomy.groups ∧
    (enlarge.run roomy).state.pools.map Pool.forgetFailures = roomy.pools.map Pool.forgetFailures ∧
    (enlarge.run roomy).state.pools.map (fun p => p.ledger.failedAcquisitions) = [1] := by
  have hreach : roomy.Reachable := ⟨_, _, by decide, rfl⟩
  have hfails : (enlarge.run roomy).result = .error (.fault (.directRefused 64)) := rfl
  obtain ⟨hsame, hpools⟩ := hreach.unchanged_of_failure (c := enlarge) trivial hfails fun h => h
  refine ⟨?_, ?_, hpools, by decide⟩
  · rw [hsame]
  · rw [hsame]

end SharedBuffer.Arena
