import SharedBuffer.Proofs.Utf8

/-!
Decoding bytes that are cut at an ASCII byte, well-formed or not. Main statements: to decode the pieces
is to cut the decoded text at the character; and a byte string ends in the character exactly if its
text does.
-/

namespace SharedBuffer

/-- Every byte string is reached piece by piece from the last one, in which the byte does not occur. -/
theorem Bytes.cut_induction (byte : UInt8) {P : Bytes → Prop} (last : ∀ bs, byte ∉ bs → P bs)
    (next : ∀ us vs, byte ∉ us → P vs → P (us ++ byte :: vs)) (bs : Bytes) : P bs := by
  by_cases hmem : byte ∈ bs
  · obtain ⟨us, vs, hbs, hus⟩ := List.eq_append_cons_of_mem hmem
    have hshorter : vs.length < bs.length := by
      rw [hbs, List.length_append, List.length_cons]
      omega
    exact hbs ▸ next us vs hus (Bytes.cut_induction byte last next vs)
  · exact last bs hmem
termination_by bs.length

namespace Text.Utf8

/-- No state lets an ASCII byte continue a character, nor such a character be decoded from others. -/
def State.Sane : State → Prop
  | .ground => True
  | .awaiting more value low high =>
    0x80 ≤ low ∧ high ≤ 0xBF ∧ 0x82 ≤ value * 64 + low ∧ (more = 0 → 2 ≤ value)

variable {s : State} {byte b : UInt8} {bs us : Bytes} {c : Char}

theorem sane_ground : State.ground.Sane := trivial

theorem sane_start (b : UInt8) : (start b).2.Sane := by
  fun_cases start b <;> simp only [State.Sane] <;> omega

theorem State.Sane.step (hs : s.Sane) (b : UInt8) : (Utf8.step s b).2.Sane := by
  cases s with
  | ground => exact sane_start b
  | awaiting more value low high =>
    obtain ⟨hlow, hhigh, hvalue, -⟩ := hs
    rw [Utf8.step]
    split
    · cases more with
      | zero => exact sane_ground
      | succ more =>
        simp only [State.Sane]
        omega
    · exact sane_start b

theorem toNat_of_mem_start (hc : c ∈ (start b).1) (hascii : c.toNat < 0x80) : c.toNat = b.toNat := by
  by_cases hb : b.toNat < 0x80
  · rw [start_one hb, List.mem_singleton] at hc
    rw [hc, toNat_ofNat_of_valid (by omega)]
  · have hreplaced : c = replacement := by
      revert hc
      fun_cases start b with
      | case1 n h => exact absurd h hb
      | _ => simp
    rw [hreplaced] at hascii
    exact absurd hascii (by decide)

theorem toNat_ofNat_of_pos {n : Nat} (h : 0 < (Char.ofNat n).toNat) : (Char.ofNat n).toNat = n := by
  by_cases hvalid : n.isValidChar
  · exact toNat_ofNat_of_valid hvalid
  · rw [Char.ofNat, dif_neg hvalid] at h
    cases h

theorem toNat_of_mem_step (hs : s.Sane) (hc : c ∈ (step s b).1) (hpos : 0 < c.toNat)
    (hascii : c.toNat < 0x80) : c.toNat = b.toNat := by
  cases s with
  | ground => exact toNat_of_mem_start hc hascii
  | awaiting more value low high =>
    obtain ⟨hlow, hhigh, hvalue, hlast⟩ := hs
    rw [step] at hc
    split at hc
    · cases more with
      | zero =>
        cases List.mem_singleton.1 hc
        rw [toNat_ofNat_of_pos hpos] at hascii
        omega
      | succ more => cases hc
    · rcases List.mem_cons.1 hc with rfl | hfresh
      · exact absurd hascii (by decide)
      · exact toNat_of_mem_start hfresh hascii

theorem not_mem_finish (hascii : c.toNat < 0x80) : c ∉ finish s := by
  cases s with
  | ground => simp [finish]
  | awaiting more value low high =>
    rintro hc
    cases List.mem_singleton.1 hc
    revert hascii
    decide

theorem mem_of_mem_decodeFrom (hs : s.Sane) (hc : c ∈ decodeFrom s bs) (hpos : 0 < c.toNat)
    (hascii : c.toNat < 0x80) : UInt8.ofNat c.toNat ∈ bs := by
  induction bs generalizing s with
  | nil => exact absurd hc (not_mem_finish hascii)
  | cons b bs ih =>
    rw [decodeFrom_cons, List.mem_append] at hc
    rcases hc with hhere | hlater
    · rw [toNat_of_mem_step hs hhere hpos hascii, UInt8.ofNat_toNat]
      exact List.mem_cons_self
    · exact List.mem_cons_of_mem _ (ih (hs.step b) hlater)

theorem decodeFrom_append_ascii (hs : s.Sane) (us vs : Bytes) (hb : b.toNat < 0x80) :
    decodeFrom s (us ++ b :: vs) =
      decodeFrom s us ++ Char.ofNat b.toNat :: decodeFrom .ground vs := by
  induction us generalizing s with
  | nil =>
    have hlow : ∀ more value low high, s = .awaiting more value low high → 0x80 ≤ low := by
      rintro more value low high rfl
      exact hs.1
    rw [List.nil_append, decodeFrom_cons, step_ascii s hb hlow, List.append_assoc]
    rfl
  | cons byte us ih =>
    rw [List.cons_append, decodeFrom_cons, ih (hs.step byte), decodeFrom_cons, List.append_assoc]

theorem decode_append_ascii (us vs : Bytes) (hb : b.toNat < 0x80) :
    decode (us ++ b :: vs) = decode us ++ Char.ofNat b.toNat :: decode vs :=
  decodeFrom_append_ascii sane_ground us vs hb

theorem mem_decode_iff (hpos : 0 < b.toNat) (hb : b.toNat < 0x80) :
    Char.ofNat b.toNat ∈ decode bs ↔ b ∈ bs := by
  have hchar : (Char.ofNat b.toNat).toNat = b.toNat := toNat_ofNat_of_valid (by omega)
  constructor
  · intro hc
    have hmem := mem_of_mem_decodeFrom sane_ground hc (by omega) (by omega)
    rwa [hchar, UInt8.ofNat_toNat] at hmem
  · intro hmem
    obtain ⟨us, vs, rfl⟩ := List.append_of_mem hmem
    rw [decode_append_ascii us vs hb]
    exact List.mem_append_right _ List.mem_cons_self

theorem splitOn_decode (hpos : 0 < b.toNat) (hb : b.toNat < 0x80) (bs : Bytes) :
    (decode bs).splitOn (Char.ofNat b.toNat) = (bs.splitOn b).map decode := by
  induction bs using Bytes.cut_induction b with
  | last bs hbs =>
    have hnone := mt (mem_decode_iff hpos hb).1 hbs
    rw [List.splitOn_eq_singleton hbs, List.splitOn_eq_singleton hnone, List.map_singleton]
  | next us vs hus ih =>
    have hnone := mt (mem_decode_iff hpos hb).1 hus
    rw [List.splitOn_append_cons_self_of_not_mem hus, List.map_cons, ← ih,
      decode_append_ascii us vs hb, List.splitOn_append_cons_self_of_not_mem hnone]

theorem step_append_finish_ne_nil (s : State) (b : UInt8) :
    (step s b).1 ++ finish (step s b).2 ≠ [] := by
  have hstart : (start b).1 ++ finish (start b).2 ≠ [] := by
    fun_cases start b <;> simp [finish]
  cases s with
  | ground => exact hstart
  | awaiting more value low high =>
    rw [step]
    split
    · cases more <;> simp [finish]
    · simp

theorem decodeFrom_ne_nil (s : State) (b : UInt8) (bs : Bytes) : decodeFrom s (b :: bs) ≠ [] := by
  induction bs generalizing s b with
  | nil => exact step_append_finish_ne_nil s b
  | cons byte bs ih =>
    rw [decodeFrom_cons]
    exact List.append_ne_nil_of_right_ne_nil _ (ih _ byte)

theorem getLast?_of_decodeFrom (hs : s.Sane) (hc : (decodeFrom s bs).getLast? = some c)
    (hpos : 0 < c.toNat) (hascii : c.toNat < 0x80) : bs.getLast? = some (UInt8.ofNat c.toNat) := by
  induction bs generalizing s with
  | nil => exact absurd (List.mem_of_getLast? hc) (not_mem_finish hascii)
  | cons b bs ih =>
    cases bs with
    | nil =>
      rcases List.mem_append.1 (List.mem_of_getLast? hc) with hhere | hlater
      · rw [toNat_of_mem_step hs hhere hpos hascii, UInt8.ofNat_toNat]
        rfl
      · exact absurd hlater (not_mem_finish hascii)
    | cons byte bs =>
      rw [decodeFrom_cons, List.getLast?_append] at hc
      cases hlast : (decodeFrom (step s b).2 (byte :: bs)).getLast? with
      | none => exact absurd (List.getLast?_eq_none_iff.1 hlast) (decodeFrom_ne_nil _ _ _)
      | some d =>
        rw [hlast, Option.some_or] at hc
        exact (List.getLast?_cons_cons).trans (ih (hs.step b) (hlast.trans hc))

end Text.Utf8

end SharedBuffer
