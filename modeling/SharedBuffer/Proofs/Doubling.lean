import SharedBuffer.Capacity

/-!
How far a growing window is doubled. The loop of doublings is told turn by turn, with nothing but
what is required to end it; it ends, though the doubled capacity need not be a real multiple where
it is held at the greatest word. Main statement: the next capacity is the first doubling that is
enough, as told in the natural numbers and held within the bound, or there is none because more is
required than the bound; and what was required on the way makes no difference.
-/

namespace SharedBuffer.Capacity

variable {required less bound c d k j : Nat}

/-- The first of `c`, `2 * c`, `4 * c`, … that is not less than what is required has the number `k`. -/
structure FirstDoubling (required c k : Nat) : Prop where
  enough : required ≤ c * Nat.pow 2 k
  first : ∀ j < k, c * Nat.pow 2 j < required

theorem firstDoubling_zero (h : required ≤ c) : FirstDoubling required c 0 :=
  ⟨by rwa [show Nat.pow 2 0 = 1 from rfl, Nat.mul_one], fun j hj => absurd hj (Nat.not_lt_zero j)⟩

theorem mul_pow_succ (c k : Nat) : c * Nat.pow 2 (k + 1) = 2 * c * Nat.pow 2 k := by
  change c * (Nat.pow 2 k * 2) = _
  rw [Nat.mul_comm 2 c, Nat.mul_assoc, Nat.mul_comm 2]

theorem FirstDoubling.succ (h : FirstDoubling required (2 * c) k) (hc : c < required) :
    FirstDoubling required c (k + 1) where
  enough := by
    rw [mul_pow_succ]
    exact h.enough
  first j hj := by
    cases j with
    | zero => rwa [show Nat.pow 2 0 = 1 from rfl, Nat.mul_one]
    | succ j =>
      rw [mul_pow_succ]
      exact h.first j (Nat.lt_of_succ_lt_succ hj)

theorem FirstDoubling.unique (h : FirstDoubling required c k) (h' : FirstDoubling required c j) :
    k = j := by
  rcases Nat.lt_trichotomy k j with hlt | heq | hlt
  · exact absurd h.enough (Nat.not_le.2 (h'.first k hlt))
  · exact heq
  · exact absurd h'.enough (Nat.not_le.2 (h.first j hlt))

/-- A word has 64 bits, so 64 doublings of anything are beyond every word. -/
theorem FirstDoubling.le_bits (h : FirstDoubling required c k) (h0 : 0 < c)
    (hr : required ≤ Word.largest) : k ≤ 64 := by
  refine Nat.le_of_not_lt fun hmore => ?_
  have hshort : c * Nat.pow 2 64 < Nat.pow 2 64 - 1 := Nat.lt_of_lt_of_le (h.first 64 hmore) hr
  have hlong : Nat.pow 2 64 ≤ c * Nat.pow 2 64 := Nat.le_mul_of_pos_left _ h0
  omega

inductive Doubles (required : Nat) : Nat → Nat → Nat → Prop
  | enough {c : Nat} (h : required ≤ c) : Doubles required c 0 c
  | turn {c k d : Nat} (h : c < required) (rest : Doubles required (Word.double c) k d) :
      Doubles required c (k + 1) d

theorem doubles_doubled (h0 : 0 < c) (hr : required ≤ Word.largest) :
    ∃ k, Doubles required c k (doubled required c) := by
  fun_induction doubled required c with
  | case1 c h ih =>
    have hpos : 0 < Word.double c := by
      simp only [Word.double]
      omega
    obtain ⟨k, hk⟩ := ih hpos
    exact ⟨k + 1, .turn h.1 hk⟩
  | case2 c h => exact ⟨0, .enough (by omega)⟩

/-- Within a bound that is a word, the loop ends as doubling in the natural numbers does, and after
as many turns. -/
theorem Doubles.closed (h : Doubles required c k d) (hr : required ≤ bound)
    (hb : bound ≤ Word.largest) :
    FirstDoubling required c k ∧ min d bound = min bound (c * Nat.pow 2 k) := by
  induction h with
  | @enough c h =>
    refine ⟨firstDoubling_zero h, ?_⟩
    rw [show Nat.pow 2 0 = 1 from rfl, Nat.mul_one, Nat.min_comm]
  | @turn c k d h rest ih =>
    by_cases hfit : 2 * c ≤ Word.largest
    · rw [show Word.double c = 2 * c from Nat.min_eq_left hfit] at ih
      exact ⟨ih.1.succ h, by rw [mul_pow_succ, ih.2]⟩
    · -- The next capacity is the greatest word, which is enough for whatever may be required.
      rw [show Word.double c = Word.largest from Nat.min_eq_right (by omega)] at rest
      cases rest with
      | enough _ =>
        refine ⟨(firstDoubling_zero (by omega)).succ h, ?_⟩
        rw [mul_pow_succ, show Nat.pow 2 0 = 1 from rfl, Nat.mul_one]
        omega
      | turn hmore _ => omega

theorem doubled_of_le (h : required ≤ c) : doubled required c = c := by
  rw [doubled, dif_neg (by omega)]

theorem self_le_doubled (required c : Nat) : c ≤ doubled required c := by
  fun_induction doubled required c with
  | case1 c h ih =>
    simp only [Word.double] at ih ⊢
    omega
  | case2 c h => exact Nat.le_refl c

theorem doubled_doubled (h : less ≤ required) (c : Nat) :
    doubled required (doubled less c) = doubled required c := by
  fun_induction doubled less c with
  | case1 c hc ih =>
    rw [ih]
    conv => rhs; rw [doubled, dif_pos ⟨Nat.lt_of_lt_of_le hc.1 h, hc.2⟩]
  | case2 c hc => rfl

theorem doubled_le_doubled (h : less ≤ required) (c : Nat) :
    doubled less c ≤ doubled required c := by
  rw [← doubled_doubled h]
  exact self_le_doubled required (doubled less c)

theorem bounded_doubled (h : less ≤ required) (hb : required ≤ bound) (h0 : 0 < c) :
    min (doubled required (max (min (doubled less c) bound) 1)) bound =
      min (doubled required c) bound := by
  have hgrown := self_le_doubled less c
  rcases Nat.le_total (doubled less c) bound with hfree | hheld
  · rw [Nat.min_eq_left hfree, Nat.max_eq_left (by omega), doubled_doubled h]
  · -- Held at the bound, the capacity is enough; doubling on would only lead beyond the bound.
    have hmore := doubled_le_doubled h c
    rw [Nat.min_eq_right hheld, doubled_of_le (by omega)]
    omega

theorem bounded_bounded (h : less ≤ required) (hb : required ≤ bound) (h0 : 0 < c) :
    (if required ≤ min (doubled less c) bound then min (doubled less c) bound
      else min (doubled required (max (min (doubled less c) bound) 1)) bound) =
      min (doubled required c) bound := by
  split
  · next henough =>
    have hstay := doubled_of_le (Nat.le_trans henough (Nat.min_le_left _ _))
    rw [← doubled_doubled h c, hstay]
  · exact bounded_doubled h hb h0

section Next

variable {current : Nat}

/-- The loop of doublings ends after `k` turns, the fewest that are enough in the natural numbers,
and leads to the capacity `r`. -/
structure LeadsTo (current required bound k r : Nat) : Prop where
  ends : ∃ d, Doubles required (max 1 current) k d ∧ r = min d bound
  turns : k ≤ 64
  first : FirstDoubling required (max 1 current) k
  closed : r = min bound (max 1 current * Nat.pow 2 k)
  enough : required ≤ r
  bounded : r ≤ bound

theorem next_leadsTo (current : Nat) (hr : required ≤ bound) (hb : bound ≤ Word.largest) :
    ∃ k r, LeadsTo current required bound k r ∧ next current required bound = .ok r := by
  have hword := Nat.le_trans hr hb
  have hpos : 0 < max 1 current := by omega
  obtain ⟨k, hk⟩ := doubles_doubled hpos hword
  obtain ⟨hfirst, hclosed⟩ := hk.closed hr hb
  have hnext : next current required bound =
      .ok (min (doubled required (max 1 current)) bound) := by
    rw [next_of_le hr, Nat.max_comm]
  obtain ⟨henough, hbounded⟩ := next_eq_ok hb hnext
  exact ⟨k, _, ⟨⟨_, hk, rfl⟩, hfirst.le_bits hpos hword, hfirst, hclosed, henough, hbounded⟩, hnext⟩

theorem next_fails_iff (current required bound : Nat) :
    (∃ f, next current required bound = .error f ∧ f.kind? = some .capacityExceeded) ↔
      bound < required := by
  constructor
  · rintro ⟨f, hf, -⟩
    refine Nat.lt_of_not_le fun hr => ?_
    rw [next_of_le hr] at hf
    cases hf
  · intro hmore
    exact ⟨_, next_of_lt hmore, rfl⟩

theorem next_mono {r : Nat} (h : less ≤ required) (hr : next current required bound = .ok r) :
    ∃ s ≤ r, next current less bound = .ok s := by
  have hle := le_max_of_next hr
  rw [next_of_le hle] at hr
  cases hr
  have hmore := doubled_le_doubled h (max current 1)
  exact ⟨_, by omega, next_of_le (Nat.le_trans h hle)⟩

theorem next_next (current : Nat) (h : less ≤ required) (hl : less ≤ bound) :
    (next current less bound >>= fun c => next c required bound) = next current required bound := by
  rw [next_of_le hl]
  change next (min (doubled less (max current 1)) bound) required bound = _
  rcases Nat.lt_or_ge bound required with hmore | hr
  · rw [next_of_lt hmore, next_of_lt hmore]
  · rw [next_of_le hr, next_of_le hr, bounded_doubled h hr (by omega)]

/-- The next capacity is the first doubling that is enough, held within the bound; there is none
exactly if more is required than the bound. It does not shrink as more is required, and it is the
same whether or not room for less was made before. -/
theorem next_least_doubling (current required : Nat) (hb : bound ≤ Word.largest) :
    ((∃ f, next current required bound = .error f ∧ f.kind? = some .capacityExceeded) ↔
        bound < required) ∧
      (required ≤ bound →
        ∃ k r, LeadsTo current required bound k r ∧ next current required bound = .ok r) ∧
      ∀ less ≤ required,
        (∀ r, next current required bound = .ok r → ∃ s ≤ r, next current less bound = .ok s) ∧
        (less ≤ bound → (next current less bound >>= fun c => next c required bound) =
          next current required bound) := by
  refine ⟨next_fails_iff current required bound, fun hr => next_leadsTo current hr hb, ?_⟩
  intro less h
  exact ⟨fun r hr => next_mono h hr, next_next current h⟩

/-- From three, it takes 63 doublings to the greatest word but one. The last of them would leave the
words, so that the loop ends at the greatest word, to which no doublings lead. -/
theorem next_least_doubling_saturated :
    next 3 (Word.largest - 1) Word.largest = .ok Word.largest ∧
      LeadsTo 3 (Word.largest - 1) Word.largest 63 Word.largest ∧
      Word.largest < 3 * Nat.pow 2 63 ∧
      (∃ s ≤ Word.largest, next 3 7 Word.largest = .ok s) ∧
      (next 3 7 Word.largest >>= fun c => next c (Word.largest - 1) Word.largest) =
        .ok Word.largest := by
  obtain ⟨-, hleads, hless⟩ := next_least_doubling 3 (Word.largest - 1) (Nat.le_refl Word.largest)
  obtain ⟨k, r, hk, hnext⟩ := hleads (by decide)
  obtain ⟨hmono, habsorbed⟩ := hless 7 (by decide)
  have hfirst : FirstDoubling (Word.largest - 1) (max 1 3) 63 := ⟨by decide, by decide⟩
  obtain rfl : k = 63 := hk.first.unique hfirst
  obtain rfl : r = Word.largest := hk.closed.trans (by decide)
  exact ⟨hnext, hk, by decide, hmono _ hnext, (habsorbed (by decide)).trans hnext⟩

end Next

end SharedBuffer.Capacity
