import SharedBuffer.Bytes

/-!
Scanning bytes with a processor: a state machine that is shown one byte after another and says
whether to go on. Also the search for a pattern.
-/

namespace SharedBuffer

abbrev Feed (σ : Type) := σ → UInt8 → Bool × σ

def feedEach {σ : Type} (feed : Feed σ) : Feed (List σ) := fun ps b =>
  (ps.any fun p => (feed p b).1, ps.map fun p => (feed p b).2)

/-- How a scan ended: how many bytes came before the one that stopped it, if one did, the bytes
shown in order, and the processor's last state. -/
structure Visit (σ : Type) where
  stop : Option Nat
  seen : Bytes
  state : σ

namespace Visit

variable {σ : Type}

def ofBytes (feed : Feed σ) : σ → Bytes → Visit σ
  | s, [] => ⟨none, [], s⟩
  | s, b :: bs =>
    if (feed s b).1 then
      let rest := ofBytes feed (feed s b).2 bs
      ⟨rest.stop.map (· + 1), b :: rest.seen, rest.state⟩
    else ⟨some 0, [b], (feed s b).2⟩

def andThen (v w : Visit σ) : Visit σ := ⟨w.stop, v.seen ++ w.seen, w.state⟩

end Visit

inductive Processor where
  | stopIn (set : List UInt8)
  | stopOutside (set : List UInt8)
  | countdown (n : Nat)
  deriving DecidableEq, Repr

namespace Processor

def feed : Feed Processor
  | .stopIn set, b => (!set.contains b, .stopIn set)
  | .stopOutside set, b => (set.contains b, .stopOutside set)
  | .countdown 0, _ => (false, .countdown 0)
  | .countdown (n + 1), _ => (true, .countdown n)

def untilNul : Processor := .stopIn [0]
def whileNul : Processor := .stopOutside [0]
def untilCr : Processor := .stopIn [13]
def whileCr : Processor := .stopOutside [13]
def untilLf : Processor := .stopIn [10]
def whileLf : Processor := .stopOutside [10]
def untilLineBreak : Processor := .stopIn [13, 10]
def whileLineBreak : Processor := .stopOutside [13, 10]
def untilBlank : Processor := .stopIn [32, 9]
def whileBlank : Processor := .stopOutside [32, 9]
def untilSemicolon : Processor := .stopIn [59]

def answers : Processor → Bytes → List Bool
  | _, [] => []
  | p, b :: bs => (feed p b).1 :: answers (feed p b).2 bs

end Processor

namespace Bytes

def firstOccurrence? (pattern : Bytes) : Bytes → Option Nat
  | [] => if pattern.isEmpty then some 0 else none
  | b :: bs =>
    if pattern.isPrefixOf (b :: bs) then some 0
    else (firstOccurrence? pattern bs).map (· + 1)

def lastOccurrence? (pattern : Bytes) : Bytes → Option Nat
  | [] => if pattern.isEmpty then some 0 else none
  | b :: bs =>
    match lastOccurrence? pattern bs with
    | some i => some (i + 1)
    | none => if pattern.isPrefixOf (b :: bs) then some 0 else none

end Bytes

end SharedBuffer
