import SharedBuffer.Word

/-!
The ledger of a pool: five totals, moved as a storage is lent, taken back, parked for the next
borrower, or surrendered to the system. A total that grows is reduced like a word; none falls below
zero.
-/

namespace SharedBuffer

structure Ledger where
  allocatedBytes : Nat := 0
  availableBytes : Nat := 0
  activeLeases : Nat := 0
  reclaimedLeases : Nat := 0
  failedAcquisitions : Nat := 0
  deriving DecidableEq, Repr

namespace Ledger

def lend (l : Ledger) : Ledger := { l with activeLeases := Word.addWrapping l.activeLeases 1 }

def lendFresh (capacity : Nat) (l : Ledger) : Ledger :=
  { l with allocatedBytes := Word.addWrapping l.allocatedBytes capacity }.lend

def takeBack (l : Ledger) : Ledger :=
  { l with
    activeLeases := l.activeLeases - 1
    reclaimedLeases := Word.addWrapping l.reclaimedLeases 1 }

def park (capacity : Nat) (l : Ledger) : Ledger :=
  { l with availableBytes := Word.addWrapping l.availableBytes capacity }

def unpark (capacity : Nat) (l : Ledger) : Ledger :=
  { l with availableBytes := l.availableBytes - capacity }

def surrender (capacity : Nat) (l : Ledger) : Ledger :=
  { l with allocatedBytes := l.allocatedBytes - capacity }

def noteFailure (l : Ledger) : Ledger :=
  { l with failedAcquisitions := Word.addWrapping l.failedAcquisitions 1 }

end Ledger

end SharedBuffer
