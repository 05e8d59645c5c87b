import SharedBuffer.Stream

/-!
What is offered to a sink and what it takes, apart from any buffer. Main statements: every offer is the
next block of the bytes that have not been taken, so that it is neither empty nor longer than a block;
what was taken and what is left are together the bytes, in order and each of them once.
-/

namespace SharedBuffer.Stream

variable {σ : Type}

def Response.count : Response → Nat
  | .took n => n
  | _ => 0

structure Offer where
  bytes : Bytes
  response : Response

def Offer.taken (o : Offer) : Bytes := o.bytes.take o.response.count

def taken (offers : List Offer) : Bytes := offers.flatMap Offer.taken

@[simp] theorem taken_cons (o : Offer) (offers : List Offer) :
    taken (o :: offers) = o.taken ++ taken offers := rfl

namespace Writer

inductive Hears (w : Writer σ) : σ → List Offer → σ → Prop
  | nil {s} : Hears w s [] s
  | cons {s t u bytes response offers} (h : w.write bytes s = (response, t))
      (next : Hears w t offers u) : Hears w s (⟨bytes, response⟩ :: offers) u

/-- Whatever it is offered, the sink does not say that it has taken more. -/
def Honest (w : Writer σ) (s : σ) : Prop :=
  ∀ offers t, w.Hears s offers t → ∀ o ∈ offers, o.response.count ≤ o.bytes.length

/-- Whatever it is offered, the sink keeps what it says that it has taken. -/
def Keeps (w : Writer σ) (kept : σ → Bytes) (s : σ) : Prop :=
  ∀ offers t, w.Hears s offers t → kept t = kept s ++ taken offers

variable {w : Writer σ} {s t : σ} {bytes : Bytes} {response : Response}

theorem Honest.count_le (h : w.Honest s) (hw : w.write bytes s = (response, t)) :
    response.count ≤ bytes.length :=
  h _ _ (.cons hw .nil) _ (List.mem_singleton.2 rfl)

theorem Honest.next (h : w.Honest s) (hw : w.write bytes s = (response, t)) : w.Honest t :=
  fun _ u hu o ho => h _ u (.cons hw hu) o (List.mem_cons_of_mem _ ho)

end Writer

section Script

theorem Sink.faithful_of_write {s t : Sink} {bytes : Bytes} {response : Response}
    (h : s.write bytes = (response, t)) (hscript : ∀ n, .pretend n ∉ s.script) :
    response.count ≤ bytes.length ∧ t.taken = s.taken ++ (Offer.mk bytes response).taken ∧
      ∀ n, .pretend n ∉ t.script := by
  revert h
  fun_cases s.write bytes with
  | case1 hnil =>
    rintro ⟨⟩
    exact ⟨Nat.le_refl _, by simp [after, Offer.taken, Response.count], fun n => by simp [after]⟩
  | case2 n script hs =>
    rw [hs] at hscript
    rintro ⟨⟩
    refine ⟨Nat.min_le_right _ _, ?_, fun n hn => hscript n (List.mem_cons_of_mem _ hn)⟩
    simp only [after, Offer.taken, Response.count, ← List.take_take, List.take_length]
  | case3 script hs =>
    rw [hs] at hscript
    rintro ⟨⟩
    exact ⟨Nat.zero_le _, rfl, fun n hn => hscript n (List.mem_cons_of_mem _ hn)⟩
  | case4 reason script hs =>
    rw [hs] at hscript
    rintro ⟨⟩
    exact ⟨Nat.zero_le _, rfl, fun n hn => hscript n (List.mem_cons_of_mem _ hn)⟩
  | case5 n script hs =>
    rw [hs] at hscript
    exact absurd (List.mem_cons_self) (hscript n)

theorem Sink.faithful {s t : Sink} {offers : List Offer} (h : Sink.writer.Hears s offers t)
    (hscript : ∀ n, .pretend n ∉ s.script) :
    (∀ o ∈ offers, o.response.count ≤ o.bytes.length) ∧ t.taken = s.taken ++ Stream.taken offers := by
  induction h with
  | nil => exact ⟨fun o ho => absurd ho List.not_mem_nil, (List.append_nil _).symm⟩
  | cons hw next ih =>
    obtain ⟨hcount, htaken, hrest⟩ := faithful_of_write hw hscript
    obtain ⟨hall, hmore⟩ := ih hrest
    exact ⟨List.forall_mem_cons.2 ⟨hcount, hall⟩, by rw [hmore, htaken, Stream.taken_cons, List.append_assoc]⟩

end Script

def failure : List Offer → Option String
  | [] => none
  | ⟨_, .broken reason⟩ :: _ => some reason
  | _ :: offers => failure offers

def Declined (offers : List Offer) : Prop := ∃ o ∈ offers, o.response = .took 0

/-- The offers that are made of these bytes, and what is left of them at the end. An interrupted offer
is made again, and one of which some is taken is followed by the next block. -/
inductive Offers : Bytes → List Offer → Bytes → Prop
  | exhausted : Offers [] [] []
  | declined {bytes} (some : bytes ≠ []) : Offers bytes [⟨bytes.take blockSize, .took 0⟩] bytes
  | broken {bytes reason} (some : bytes ≠ []) :
      Offers bytes [⟨bytes.take blockSize, .broken reason⟩] bytes
  | again {bytes offers left} (some : bytes ≠ []) (next : Offers bytes offers left) :
      Offers bytes (⟨bytes.take blockSize, .interrupted⟩ :: offers) left
  | onward {bytes n offers left} (some : bytes ≠ []) (pos : 0 < n)
      (fits : n ≤ (bytes.take blockSize).length) (next : Offers (bytes.drop n) offers left) :
      Offers bytes (⟨bytes.take blockSize, .took n⟩ :: offers) left

namespace Offers

variable {bytes left : Bytes} {offers before after : List Offer} {o : Offer} {n : Nat}

theorem taken_block (fits : n ≤ (bytes.take blockSize).length) :
    Offer.taken ⟨bytes.take blockSize, .took n⟩ = bytes.take n := by
  have hle : n ≤ blockSize := Nat.le_trans fits (List.length_take_le _ _)
  rw [Offer.taken, Response.count, List.take_take, Nat.min_eq_left hle]

theorem taken_append (h : Offers bytes offers left) : taken offers ++ left = bytes := by
  induction h with
  | exhausted => rfl
  | declined => rfl
  | broken => rfl
  | again some next ih => exact ih
  | onward some pos fits next ih =>
    rw [taken_cons, taken_block fits, List.append_assoc, ih, List.take_append_drop]

theorem ended (h : Offers bytes offers left) :
    left = [] ∨ Declined offers ∨ ∃ reason, failure offers = some reason := by
  induction h with
  | exhausted => exact .inl rfl
  | declined => exact .inr (.inl ⟨_, List.mem_singleton.2 rfl, rfl⟩)
  | broken => exact .inr (.inr ⟨_, rfl⟩)
  | again some next ih =>
    exact ih.imp_right fun h => h.imp_left fun ⟨o, ho, hnone⟩ => ⟨o, List.mem_cons_of_mem _ ho, hnone⟩
  | onward some pos fits next ih =>
    exact ih.imp_right fun h => h.imp_left fun ⟨o, ho, hnone⟩ => ⟨o, List.mem_cons_of_mem _ ho, hnone⟩

theorem failure_eq_none (h : Offers bytes offers left) (hend : left = [] ∨ Declined offers) :
    failure offers = none := by
  induction h with
  | exhausted => rfl
  | declined => rfl
  | broken some => simp [some, Declined] at hend
  | again some next ih =>
    apply ih
    simpa [Declined] using hend
  | onward some pos fits next ih =>
    apply ih
    simpa [Declined, Nat.ne_of_gt pos] using hend

theorem head (h : Offers bytes (o :: offers) left) :
    bytes ≠ [] ∧ o.bytes = bytes.take blockSize ∧
      (offers = [] ∨ Offers (bytes.drop o.taken.length) offers left) := by
  cases h with
  | declined some => exact ⟨some, rfl, .inl rfl⟩
  | broken some => exact ⟨some, rfl, .inl rfl⟩
  | again some next => exact ⟨some, rfl, .inr next⟩
  | onward some pos fits next =>
    refine ⟨some, rfl, .inr ?_⟩
    rw [taken_block fits, List.length_take_of_le]
    · exact next
    · rw [List.length_take] at fits
      omega

theorem bytes_eq (h : Offers bytes (before ++ o :: after) left) :
    o.bytes = (bytes.drop (taken before).length).take blockSize ∧
      0 < o.bytes.length ∧ o.bytes.length ≤ blockSize := by
  induction before generalizing bytes with
  | nil =>
    obtain ⟨some, ho, -⟩ := h.head
    have hlen := List.length_pos_iff.2 some
    have hblock : 0 < blockSize := by decide
    rw [ho, List.length_take]
    exact ⟨rfl, by omega, by omega⟩
  | cons first before ih =>
    obtain ⟨-, -, hnone | hnext⟩ := h.head
    · simp at hnone
    · obtain ⟨ho, hlen⟩ := ih hnext
      refine ⟨?_, hlen⟩
      rw [ho, List.drop_drop, taken_cons, List.length_append]

end Offers

end SharedBuffer.Stream
