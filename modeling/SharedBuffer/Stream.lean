import SharedBuffer.Bytes

/-!
Byte streams. A source is asked for so many bytes at a time and may be interrupted, end or break; a
sink is offered bytes and takes some of them, is interrupted or breaks. Requests and offers are
bounded by a block size.
-/

namespace SharedBuffer.Stream

def blockSize : Nat := 8192

inductive Reply where
  | bytes (bytes : Bytes)
  | interrupted
  | broken (reason : String)
  deriving DecidableEq, Repr

/-- A source with the states `σ`. It brings no more than it is asked for, and `patience` bounds how
often it is interrupted in a row. -/
structure Reader (σ : Type) where
  read : Nat → σ → Reply × σ
  patience : Nat → σ → Nat
  length_le : ∀ {n s bytes t}, read n s = (.bytes bytes, t) → bytes.length ≤ n
  patience_lt : ∀ {n s t}, read n s = (.interrupted, t) → patience n t < patience n s

/-- What a source has ready next. An empty chunk is like the end of the stream. -/
inductive Supply where
  | chunk (bytes : Bytes)
  | interrupted
  | broken (reason : String)
  deriving DecidableEq, Repr

structure Source where
  pending : Bytes
  script : List Supply
  deriving DecidableEq, Repr

namespace Source

def ofScript (script : List Supply) : Source := ⟨[], script⟩

def read (n : Nat) : Source → Reply × Source
  | ⟨byte :: rest, script⟩ => (.bytes ((byte :: rest).take n), ⟨(byte :: rest).drop n, script⟩)
  | ⟨[], []⟩ => (.bytes [], ofScript [])
  | ⟨[], .chunk bytes :: script⟩ => (.bytes (bytes.take n), ⟨bytes.drop n, script⟩)
  | ⟨[], .interrupted :: script⟩ => (.interrupted, ofScript script)
  | ⟨[], .broken reason :: script⟩ => (.broken reason, ofScript script)

theorem length_le_of_read {n : Nat} {s t : Source} {bytes : Bytes}
    (h : s.read n = (.bytes bytes, t)) : bytes.length ≤ n := by
  revert h
  fun_cases s.read n <;> intro h <;> cases h
  · exact List.length_take_le _ _
  · exact Nat.zero_le n
  · exact List.length_take_le _ _

theorem script_lt_of_read {n : Nat} {s t : Source} (h : s.read n = (.interrupted, t)) :
    t.script.length < s.script.length := by
  revert h
  fun_cases s.read n <;> intro h <;> cases h
  exact Nat.lt_succ_self _

def reader : Reader Source where
  read := read
  patience _ s := s.script.length
  length_le := length_le_of_read
  patience_lt := script_lt_of_read

end Source

inductive Response where
  | took (n : Nat)
  | interrupted
  | broken (reason : String)
  deriving DecidableEq, Repr

/-- A sink with the states `σ`. What it says need not be true. `patience` bounds how often it is
interrupted in a row when the same bytes are offered again. -/
structure Writer (σ : Type) where
  write : Bytes → σ → Response × σ
  patience : Bytes → σ → Nat
  patience_lt : ∀ {offer s t}, write offer s = (.interrupted, t) → patience offer t < patience offer s

inductive Acceptance where
  | upTo (n : Nat)
  | interrupted
  | broken (reason : String)
  | pretend (n : Nat)
  deriving DecidableEq, Repr

structure Sink where
  offered : List Nat
  taken : Bytes
  script : List Acceptance
  deriving DecidableEq, Repr

namespace Sink

def ofScript (script : List Acceptance) : Sink := ⟨[], [], script⟩

def after (offer taken : Bytes) (script : List Acceptance) (s : Sink) : Sink :=
  ⟨s.offered ++ [offer.length], s.taken ++ taken, script⟩

def write (offer : Bytes) (s : Sink) : Response × Sink :=
  match s.script with
  | [] => (.took offer.length, s.after offer offer [])
  | .upTo n :: script => (.took (min n offer.length), s.after offer (offer.take n) script)
  | .interrupted :: script => (.interrupted, s.after offer [] script)
  | .broken reason :: script => (.broken reason, s.after offer [] script)
  | .pretend n :: script => (.took n, s.after offer [] script)

theorem write_idle {s : Sink} (h : s.script = []) (offer : Bytes) :
    s.write offer = (.took offer.length, s.after offer offer []) := by
  rw [write, h]

theorem script_lt_of_write {offer : Bytes} {s t : Sink} (h : s.write offer = (.interrupted, t)) :
    t.script.length < s.script.length := by
  revert h
  fun_cases s.write offer <;> intro h <;> cases h
  next script hscript =>
    rw [hscript]
    exact Nat.lt_succ_self _

def writer : Writer Sink where
  write := write
  patience _ s := s.script.length
  patience_lt := script_lt_of_write

end Sink

end SharedBuffer.Stream
