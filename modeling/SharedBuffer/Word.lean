/-!
Sizes, indices and counts are 64-bit words held as natural numbers. Arithmetic that could leave
the word range is checked, held at the greatest word or reduced modulo the word range, each
under its own name.
-/

namespace SharedBuffer.Word

def largest : Nat := Nat.pow 2 64 - 1

def longest : Nat := Nat.pow 2 63 - 1

def add? (a b : Nat) : Option Nat :=
  if a + b ≤ largest then some (a + b) else none

theorem add?_eq_some_iff {a b c : Nat} : add? a b = some c ↔ a + b ≤ largest ∧ c = a + b := by
  unfold add?
  split
  · simp [*, eq_comm]
  · simp [*]

theorem add?_eq_none_iff {a b : Nat} : add? a b = none ↔ largest < a + b := by
  unfold add?
  split <;> simp_all

def double (a : Nat) : Nat := min (2 * a) largest

def addSaturating (a b : Nat) : Nat := min (a + b) largest

def mulSaturating (a b : Nat) : Nat := min (a * b) largest

def addWrapping (a b : Nat) : Nat := (a + b) % (largest + 1)

theorem addWrapping_of_le {a b : Nat} (h : a + b ≤ largest) : addWrapping a b = a + b :=
  Nat.mod_eq_of_lt (Nat.lt_succ_of_le h)

def countOn (r : Nat) : Nat → Nat
  | 0 => r
  | n + 1 => addWrapping (countOn r n) 1

theorem countOn_add (r m n : Nat) : countOn r (m + n) = countOn (countOn r m) n := by
  induction n with
  | zero => rfl
  | succ n ih => rw [← Nat.add_assoc, countOn, countOn, ih]

theorem addWrapping_one_ne (a : Nat) : addWrapping a 1 ≠ a := by
  intro h
  have hlt : a < largest + 1 := h ▸ Nat.mod_lt _ (Nat.succ_pos _)
  have hlarge : 0 < largest := by decide
  rw [addWrapping] at h
  rcases Nat.lt_or_ge (a + 1) (largest + 1) with hle | hge
  · rw [Nat.mod_eq_of_lt hle] at h
    omega
  · have hend : a = largest := by omega
    rw [hend, Nat.mod_self] at h
    omega

theorem countOn_succ_ne (r n : Nat) : countOn r (n + 1) ≠ countOn r n := addWrapping_one_ne _

theorem countOn_zero (n : Nat) : countOn 0 n = n % (largest + 1) := by
  induction n with
  | zero => rfl
  | succ n ih => rw [countOn, ih, addWrapping, Nat.mod_add_mod]

end SharedBuffer.Word
