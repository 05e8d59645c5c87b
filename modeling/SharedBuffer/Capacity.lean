import SharedBuffer.Fault
import SharedBuffer.Word

/-!
The capacity that a growing buffer takes next: the old one doubled as often as it must be, held
within the greatest capacity. Main statement: it lies between what is required and that bound.
-/

namespace SharedBuffer.Capacity

def doubled (required c : Nat) : Nat :=
  if _h : c < required ∧ 0 < c ∧ c < Word.largest then doubled required (Word.double c) else c
termination_by Word.largest - c
decreasing_by
  simp only [Word.double]
  omega

theorem le_doubled (required : Nat) (c : Nat) (h0 : 0 < c) (hr : required ≤ Word.largest) :
    required ≤ doubled required c := by
  fun_induction doubled required c with
  | case1 c h ih => exact ih (by simp only [Word.double]; omega)
  | case2 c h => omega

def next (current required maxCapacity : Nat) : Except Fault Nat :=
  if maxCapacity < required then .error (.requiredAboveMax required maxCapacity)
  else .ok (min (doubled required (max current 1)) maxCapacity)

section Next

variable {current required maxCapacity n : Nat}

theorem next_of_le (h : required ≤ maxCapacity) :
    next current required maxCapacity = .ok (min (doubled required (max current 1)) maxCapacity) :=
  if_neg (Nat.not_lt.2 h)

theorem next_of_lt (h : maxCapacity < required) :
    next current required maxCapacity = .error (.requiredAboveMax required maxCapacity) :=
  if_pos h

theorem le_max_of_next (h : next current required maxCapacity = .ok n) : required ≤ maxCapacity := by
  refine Nat.le_of_not_lt fun hmore => ?_
  rw [next_of_lt hmore] at h
  cases h

theorem le_of_next (hr : required ≤ Word.largest)
    (h : next current required maxCapacity = .ok n) : required ≤ n := by
  have hmax := le_max_of_next h
  have hd := le_doubled required (max current 1) (by omega) hr
  rw [next_of_le hmax] at h
  cases h
  omega

theorem next_eq_ok (hm : maxCapacity ≤ Word.largest)
    (h : next current required maxCapacity = .ok n) : required ≤ n ∧ n ≤ maxCapacity := by
  have hmax := le_max_of_next h
  refine ⟨le_of_next (Nat.le_trans hmax hm) h, ?_⟩
  rw [next_of_le hmax] at h
  cases h
  exact Nat.min_le_right _ _

end Next

end SharedBuffer.Capacity
