import SharedBuffer.Text.Utf8

/-!
UTF-8 in both directions, against the table of well-formed byte sequences. Main statements: decoding
an encoded text returns it, and exactly the well-formed byte strings are encodings of a text.
-/

namespace SharedBuffer.Text

theorem toNat_ofNat_of_valid {n : Nat} (h : n < 0xD800 ∨ 0xDFFF < n ∧ n < 0x110000) :
    (Char.ofNat n).toNat = n := by
  have hvalid : n.isValidChar := h
  rw [Char.ofNat, dif_pos hvalid]
  rfl

theorem valid_toNat (c : Char) : c.toNat < 0xD800 ∨ 0xDFFF < c.toNat ∧ c.toNat < 0x110000 := c.valid

theorem ofNat_of_eq {c : Char} {n : Nat} (h : n = c.toNat) : Char.ofNat n = c := by
  rw [h, Char.ofNat_toNat]

theorem ofNat_byte {b : UInt8} {n : Nat} (h : n = b.toNat) : UInt8.ofNat n = b := by
  rw [h, UInt8.ofNat_toNat]

theorem toNat_byte {n : Nat} (h : n < 0x100) : (UInt8.ofNat n).toNat = n := by
  rw [UInt8.toNat_ofNat']
  omega

namespace Utf8

/-- The ranges of the bytes of one character, row by row as in the table of well-formed sequences. -/
def rows : List (List (Nat × Nat)) :=
  [[(0x00, 0x7F)],
    [(0xC2, 0xDF), (0x80, 0xBF)],
    [(0xE0, 0xE0), (0xA0, 0xBF), (0x80, 0xBF)],
    [(0xE1, 0xEC), (0x80, 0xBF), (0x80, 0xBF)],
    [(0xED, 0xED), (0x80, 0x9F), (0x80, 0xBF)],
    [(0xEE, 0xEF), (0x80, 0xBF), (0x80, 0xBF)],
    [(0xF0, 0xF0), (0x90, 0xBF), (0x80, 0xBF), (0x80, 0xBF)],
    [(0xF1, 0xF3), (0x80, 0xBF), (0x80, 0xBF), (0x80, 0xBF)],
    [(0xF4, 0xF4), (0x80, 0x8F), (0x80, 0xBF), (0x80, 0xBF)]]

def InRow : List (Nat × Nat) → Bytes → Prop
  | [], [] => True
  | (low, high) :: row, b :: bs => (low ≤ b.toNat ∧ b.toNat ≤ high) ∧ InRow row bs
  | _, _ => False

inductive WellFormed : Bytes → Prop
  | nil : WellFormed []
  | char {row : List (Nat × Nat)} {bs rest : Bytes} (hrow : row ∈ rows) (hbs : InRow row bs)
      (hrest : WellFormed rest) : WellFormed (bs ++ rest)

section Decode

variable {a b : UInt8} {rest : Bytes} {more value low high : Nat}

theorem decodeFrom_last (h : low ≤ b.toNat ∧ b.toNat ≤ high) (rest : Bytes) :
    decodeFrom (.awaiting 0 value low high) (b :: rest) =
      Char.ofNat (value * 64 + b.toNat % 64) :: decodeFrom .ground rest := by
  rw [decodeFrom_cons, step, if_pos h]
  rfl

theorem decodeFrom_more (h : low ≤ b.toNat ∧ b.toNat ≤ high) (rest : Bytes) :
    decodeFrom (.awaiting (more + 1) value low high) (b :: rest) =
      decodeFrom (.awaiting more (value * 64 + b.toNat % 64) 0x80 0xBF) rest := by
  rw [decodeFrom_cons, step, if_pos h]
  rfl

theorem start_one (h : a.toNat < 0x80) : start a = ([Char.ofNat a.toNat], .ground) := if_pos h

theorem start_two (h : 0xC2 ≤ a.toNat ∧ a.toNat ≤ 0xDF) :
    start a = ([], .awaiting 0 (a.toNat - 0xC0) 0x80 0xBF) := by
  simp only [start]
  rw [if_neg (by omega), if_neg (by omega), if_pos (by omega)]

theorem start_three (h : 0xE0 ≤ a.toNat ∧ a.toNat ≤ 0xEF) :
    start a = ([], .awaiting 1 (a.toNat - 0xE0) (if a.toNat = 0xE0 then 0xA0 else 0x80)
      (if a.toNat = 0xED then 0x9F else 0xBF)) := by
  simp only [start]
  rw [if_neg (by omega), if_neg (by omega), if_neg (by omega)]
  by_cases hfirst : a.toNat = 0xE0
  · rw [if_pos hfirst, if_pos hfirst, if_neg (by omega), hfirst]
  · rw [if_neg hfirst, if_neg hfirst]
    by_cases hlast : a.toNat = 0xED
    · rw [if_pos hlast, if_pos hlast, hlast]
    · rw [if_neg hlast, if_neg hlast, if_pos (by omega)]

theorem start_four (h : 0xF0 ≤ a.toNat ∧ a.toNat ≤ 0xF4) :
    start a = ([], .awaiting 2 (a.toNat - 0xF0) (if a.toNat = 0xF0 then 0x90 else 0x80)
      (if a.toNat = 0xF4 then 0x8F else 0xBF)) := by
  simp only [start]
  rw [if_neg (by omega), if_neg (by omega), if_neg (by omega), if_neg (by omega), if_neg (by omega),
    if_neg (by omega)]
  by_cases hfirst : a.toNat = 0xF0
  · rw [if_pos hfirst, if_pos hfirst, if_neg (by omega), hfirst]
  · rw [if_neg hfirst, if_neg hfirst]
    by_cases hlast : a.toNat = 0xF4
    · rw [if_neg (by omega), if_pos hlast, if_pos hlast, hlast]
    · rw [if_pos (by omega), if_neg hlast]

theorem decodeFrom_start {value low high more : Nat} (h : start a = ([], .awaiting more value low high))
    (rest : Bytes) : decodeFrom .ground (a :: rest) = decodeFrom (.awaiting more value low high) rest := by
  rw [decodeFrom_cons, step, h]
  rfl

theorem decodeFrom_encodeChar (c : Char) (rest : Bytes) :
    decodeFrom .ground (encodeChar c ++ rest) = c :: decodeFrom .ground rest := by
  have hvalid := valid_toNat c
  simp only [encodeChar]
  split
  · next h1 =>
    have ha := toNat_byte (show c.toNat < 0x100 by omega)
    rw [List.singleton_append, decodeFrom_cons, step, start_one (by omega), ha, Char.ofNat_toNat]
    rfl
  · split
    · next h1 h2 =>
      have ha := toNat_byte (show 0xC0 + c.toNat / 64 < 0x100 by omega)
      have hb := toNat_byte (show 0x80 + c.toNat % 64 < 0x100 by omega)
      rw [List.cons_append, decodeFrom_start (start_two (by omega)), List.singleton_append,
        decodeFrom_last (by omega), ofNat_of_eq (c := c) (by omega)]
    · split
      · next h1 h2 h3 =>
        have ha := toNat_byte (show 0xE0 + c.toNat / 4096 < 0x100 by omega)
        have hb := toNat_byte (show 0x80 + c.toNat / 64 % 64 < 0x100 by omega)
        have hd := toNat_byte (show 0x80 + c.toNat % 64 < 0x100 by omega)
        rw [List.cons_append, decodeFrom_start (start_three (by omega)), List.cons_append,
          decodeFrom_more, List.singleton_append, decodeFrom_last (by omega), ofNat_of_eq (c := c) (by omega)]
        refine ⟨?_, ?_⟩
        · split <;> omega
        · split <;> omega
      · next h1 h2 h3 =>
        have ha := toNat_byte (show 0xF0 + c.toNat / 262144 < 0x100 by omega)
        have hb := toNat_byte (show 0x80 + c.toNat / 4096 % 64 < 0x100 by omega)
        have hd := toNat_byte (show 0x80 + c.toNat / 64 % 64 < 0x100 by omega)
        have he := toNat_byte (show 0x80 + c.toNat % 64 < 0x100 by omega)
        rw [List.cons_append, decodeFrom_start (start_four (by omega)), List.cons_append,
          decodeFrom_more, List.cons_append, decodeFrom_more (by omega), List.singleton_append,
          decodeFrom_last (by omega), ofNat_of_eq (c := c) (by omega)]
        refine ⟨?_, ?_⟩
        · split <;> omega
        · split <;> omega

theorem decode_encode (text : List Char) : decode (encode text) = text := by
  induction text with
  | nil => rfl
  | cons c text ih =>
    change decodeFrom .ground (encodeChar c ++ encode text) = _
    rw [decodeFrom_encodeChar]
    exact congrArg (List.cons c) ih

end Decode

section WellFormed

variable {a b c d : UInt8}

theorem encodeChar_two (ha : 0xC2 ≤ a.toNat ∧ a.toNat ≤ 0xDF) (hb : 0x80 ≤ b.toNat ∧ b.toNat ≤ 0xBF) :
    encodeChar (Char.ofNat ((a.toNat - 0xC0) * 64 + (b.toNat - 0x80))) = [a, b] := by
  have hn := toNat_ofNat_of_valid (n := (a.toNat - 0xC0) * 64 + (b.toNat - 0x80)) (by omega)
  simp only [encodeChar]
  rw [hn, if_neg (by omega), if_pos (by omega), ofNat_byte (b := a) (by omega),
    ofNat_byte (b := b) (by omega)]

theorem encodeChar_three {n : Nat} (hn : n = (a.toNat - 0xE0) * 4096 + (b.toNat - 0x80) * 64 + (c.toNat - 0x80))
    (ha : 0xE0 ≤ a.toNat ∧ a.toNat ≤ 0xEF) (hb : 0x80 ≤ b.toNat ∧ b.toNat ≤ 0xBF)
    (hc : 0x80 ≤ c.toNat ∧ c.toNat ≤ 0xBF) (hlong : 0x800 ≤ n) (hvalid : n < 0xD800 ∨ 0xDFFF < n) :
    encodeChar (Char.ofNat n) = [a, b, c] := by
  simp only [encodeChar]
  rw [toNat_ofNat_of_valid (by omega), if_neg (by omega), if_neg (by omega), if_pos (by omega),
    ofNat_byte (b := a) (by omega), ofNat_byte (b := b) (by omega), ofNat_byte (b := c) (by omega)]

theorem encodeChar_four {n : Nat}
    (hn : n = (a.toNat - 0xF0) * 262144 + (b.toNat - 0x80) * 4096 + (c.toNat - 0x80) * 64 + (d.toNat - 0x80))
    (ha : 0xF0 ≤ a.toNat ∧ a.toNat ≤ 0xF4) (hb : 0x80 ≤ b.toNat ∧ b.toNat ≤ 0xBF)
    (hc : 0x80 ≤ c.toNat ∧ c.toNat ≤ 0xBF) (hd : 0x80 ≤ d.toNat ∧ d.toNat ≤ 0xBF)
    (hlong : 0x10000 ≤ n) (hvalid : n < 0x110000) : encodeChar (Char.ofNat n) = [a, b, c, d] := by
  simp only [encodeChar]
  rw [toNat_ofNat_of_valid (by omega), if_neg (by omega), if_neg (by omega), if_neg (by omega),
    ofNat_byte (b := a) (by omega), ofNat_byte (b := b) (by omega), ofNat_byte (b := c) (by omega),
    ofNat_byte (b := d) (by omega)]

theorem encodeChar_of_inRow {row : List (Nat × Nat)} {bs : Bytes} (hrow : row ∈ rows)
    (hbs : InRow row bs) : ∃ c, encodeChar c = bs := by
  simp only [rows, List.mem_cons, List.not_mem_nil, or_false] at hrow
  rcases hrow with rfl | rfl | rfl | rfl | rfl | rfl | rfl | rfl | rfl
  · match bs, hbs with
    | [a], ⟨ha, _⟩ =>
      refine ⟨Char.ofNat a.toNat, ?_⟩
      simp only [encodeChar]
      rw [toNat_ofNat_of_valid (by omega), if_pos (by omega), UInt8.ofNat_toNat]
  · match bs, hbs with
    | [a, b], ⟨ha, hb, _⟩ => exact ⟨_, encodeChar_two ha hb⟩
  · match bs, hbs with
    | [a, b, c], ⟨ha, hb, hc, _⟩ =>
      exact ⟨_, encodeChar_three rfl (by omega) (by omega) hc (by omega) (by omega)⟩
  · match bs, hbs with
    | [a, b, c], ⟨ha, hb, hc, _⟩ =>
      exact ⟨_, encodeChar_three rfl (by omega) (by omega) hc (by omega) (by omega)⟩
  · match bs, hbs with
    | [a, b, c], ⟨ha, hb, hc, _⟩ =>
      exact ⟨_, encodeChar_three rfl (by omega) (by omega) hc (by omega) (by omega)⟩
  · match bs, hbs with
    | [a, b, c], ⟨ha, hb, hc, _⟩ =>
      exact ⟨_, encodeChar_three rfl (by omega) (by omega) hc (by omega) (by omega)⟩
  · match bs, hbs with
    | [a, b, c, d], ⟨ha, hb, hc, hd, _⟩ =>
      exact ⟨_, encodeChar_four rfl (by omega) (by omega) hc hd (by omega) (by omega)⟩
  · match bs, hbs with
    | [a, b, c, d], ⟨ha, hb, hc, hd, _⟩ =>
      exact ⟨_, encodeChar_four rfl (by omega) (by omega) hc hd (by omega) (by omega)⟩
  · match bs, hbs with
    | [a, b, c, d], ⟨ha, hb, hc, hd, _⟩ =>
      exact ⟨_, encodeChar_four rfl (by omega) (by omega) hc hd (by omega) (by omega)⟩

theorem inRow_encodeChar (c : Char) : ∃ row ∈ rows, InRow row (encodeChar c) := by
  have hvalid := valid_toNat c
  simp only [encodeChar]
  split
  · next h1 =>
    have ha := toNat_byte (show c.toNat < 0x100 by omega)
    refine ⟨[(0x00, 0x7F)], by decide, ?_⟩
    simp only [InRow, and_true, ha]
    omega
  · split
    · next h1 h2 =>
      have ha := toNat_byte (show 0xC0 + c.toNat / 64 < 0x100 by omega)
      have hb := toNat_byte (show 0x80 + c.toNat % 64 < 0x100 by omega)
      refine ⟨[(0xC2, 0xDF), (0x80, 0xBF)], by decide, ?_⟩
      simp only [InRow, and_true, ha, hb]
      omega
    · split
      · next h1 h2 h3 =>
        have ha := toNat_byte (show 0xE0 + c.toNat / 4096 < 0x100 by omega)
        have hb := toNat_byte (show 0x80 + c.toNat / 64 % 64 < 0x100 by omega)
        have hd := toNat_byte (show 0x80 + c.toNat % 64 < 0x100 by omega)
        -- The lead byte tells the row; after 0xE0 and 0xED the second byte has a range of its own.
        have hlead : c.toNat / 4096 = 0 ∨ (1 ≤ c.toNat / 4096 ∧ c.toNat / 4096 ≤ 12) ∨
            c.toNat / 4096 = 13 ∨ (14 ≤ c.toNat / 4096 ∧ c.toNat / 4096 ≤ 15) := by omega
        rcases hlead with h | h | h | h
        · refine ⟨[(0xE0, 0xE0), (0xA0, 0xBF), (0x80, 0xBF)], by decide, ?_⟩
          simp only [InRow, and_true, ha, hb, hd]
          omega
        · refine ⟨[(0xE1, 0xEC), (0x80, 0xBF), (0x80, 0xBF)], by decide, ?_⟩
          simp only [InRow, and_true, ha, hb, hd]
          omega
        · refine ⟨[(0xED, 0xED), (0x80, 0x9F), (0x80, 0xBF)], by decide, ?_⟩
          simp only [InRow, and_true, ha, hb, hd]
          omega
        · refine ⟨[(0xEE, 0xEF), (0x80, 0xBF), (0x80, 0xBF)], by decide, ?_⟩
          simp only [InRow, and_true, ha, hb, hd]
          omega
      · next h1 h2 h3 =>
        have ha := toNat_byte (show 0xF0 + c.toNat / 262144 < 0x100 by omega)
        have hb := toNat_byte (show 0x80 + c.toNat / 4096 % 64 < 0x100 by omega)
        have hd := toNat_byte (show 0x80 + c.toNat / 64 % 64 < 0x100 by omega)
        have he := toNat_byte (show 0x80 + c.toNat % 64 < 0x100 by omega)
        have hlead : c.toNat / 262144 = 0 ∨ (1 ≤ c.toNat / 262144 ∧ c.toNat / 262144 ≤ 3) ∨
            c.toNat / 262144 = 4 := by omega
        rcases hlead with h | h | h
        · refine ⟨[(0xF0, 0xF0), (0x90, 0xBF), (0x80, 0xBF), (0x80, 0xBF)], by decide, ?_⟩
          simp only [InRow, and_true, ha, hb, hd, he]
          omega
        · refine ⟨[(0xF1, 0xF3), (0x80, 0xBF), (0x80, 0xBF), (0x80, 0xBF)], by decide, ?_⟩
          simp only [InRow, and_true, ha, hb, hd, he]
          omega
        · refine ⟨[(0xF4, 0xF4), (0x80, 0x8F), (0x80, 0xBF), (0x80, 0xBF)], by decide, ?_⟩
          simp only [InRow, and_true, ha, hb, hd, he]
          omega

theorem wellFormed_encode (text : List Char) : WellFormed (encode text) := by
  induction text with
  | nil => exact .nil
  | cons c text ih =>
    obtain ⟨row, hrow, hchar⟩ := inRow_encodeChar c
    exact .char hrow hchar ih

/-- The encodings are exactly the well-formed byte strings. -/
theorem wellFormed_iff {bs : Bytes} : WellFormed bs ↔ ∃ text, encode text = bs := by
  constructor
  · intro h
    induction h with
    | nil => exact ⟨[], rfl⟩
    | char hrow hbs hrest ih =>
      obtain ⟨c, hc⟩ := encodeChar_of_inRow hrow hbs
      obtain ⟨text, htext⟩ := ih
      exact ⟨c :: text, by rw [← hc, ← htext]; rfl⟩
  · rintro ⟨text, rfl⟩
    exact wellFormed_encode text

end WellFormed

end Utf8

end SharedBuffer.Text
