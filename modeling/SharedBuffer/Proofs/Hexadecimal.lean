import Mathlib.Data.List.Induction
import SharedBuffer.Hex
import SharedBuffer.Proofs.Utf8

/-!
The hexadecimal form in both directions, over arbitrary texts and for any codec. A text is read exactly
if it has an even number of bytes and all of them are digits, and what is read has the text as its form,
but for the case of the letters. Any other text is refused for its length, or else at its first byte that
is no digit.
-/

namespace SharedBuffer

namespace Text.Utf8

variable {c : Char} {text : List Char}

theorem encodeChar_of_ascii (h : c.toNat < 0x80) : encodeChar c = [UInt8.ofNat c.toNat] := by
  simp [encodeChar, h]

theorem encode_of_ascii (h : ∀ c ∈ text, c.toNat < 0x80) :
    encode text = text.map fun c => UInt8.ofNat c.toNat := by
  induction text with
  | nil => rfl
  | cons c text ih =>
    obtain ⟨hc, htext⟩ := List.forall_mem_cons.1 h
    simp only [encode, List.flatMap_cons, List.map_cons] at ih ⊢
    rw [encodeChar_of_ascii hc, ih htext, List.singleton_append]

theorem exists_wide_byte (h : 0x80 ≤ c.toNat) : ∃ b ∈ encodeChar c, 0x80 ≤ b.toNat := by
  have hvalid := valid_toNat c
  simp only [encodeChar]
  split
  · omega
  · split
    · exact ⟨_, List.mem_cons_self, by rw [toNat_byte] <;> omega⟩
    · split
      · exact ⟨_, List.mem_cons_self, by rw [toNat_byte] <;> omega⟩
      · exact ⟨_, List.mem_cons_self, by rw [toNat_byte] <;> omega⟩

theorem ascii_of_encode (h : ∀ b ∈ encode text, b.toNat < 0x80) : ∀ c ∈ text, c.toNat < 0x80 := by
  intro c hc
  apply Nat.lt_of_not_le
  intro hwide
  obtain ⟨b, hb, hbyte⟩ := exists_wide_byte hwide
  exact absurd (h b (List.mem_flatMap.2 ⟨c, hc, hb⟩)) (Nat.not_lt.2 hbyte)

end Text.Utf8

namespace Hex

open Text (Utf8.encode_of_ascii Utf8.ascii_of_encode toNat_byte)

def IsDigit (b : UInt8) : Prop :=
  48 ≤ b.toNat ∧ b.toNat ≤ 57 ∨ 65 ≤ b.toNat ∧ b.toNat ≤ 70 ∨ 97 ≤ b.toNat ∧ b.toNat ≤ 102

instance (b : UInt8) : Decidable (IsDigit b) := inferInstanceAs (Decidable (_ ∨ _))

variable {c : Codec} {a b : UInt8} {bs rest text : Bytes} {v w position : Nat} {reason : HexFault}

section Digits

theorem IsDigit.ascii (h : IsDigit b) : b.toNat < 0x80 := by
  simp only [IsDigit] at h
  omega

theorem value?_eq_none_iff : value? b = none ↔ ¬IsDigit b := by
  simp only [value?, IsDigit]
  split
  · simp; omega
  · split
    · simp; omega
    · split
      · simp; omega
      · simp; omega

theorem isDigit_of_value? (h : value? b = some v) : IsDigit b := by
  apply Decidable.of_not_not
  intro hnot
  simp [value?_eq_none_iff.2 hnot] at h

theorem digit_of_value? (h : value? b = some v) :
    v < 16 ∧ Numeral.digit v = (Char.ofNat b.toNat).toUpper := by
  have hall : ∀ n < 103, (value? (UInt8.ofNat n)).all fun v =>
      v < 16 && Numeral.digit v == (Char.ofNat n).toUpper := by decide +kernel
  have hb : b.toNat < 103 := by
    have := isDigit_of_value? h
    simp only [IsDigit] at this
    omega
  have hdigit := hall b.toNat hb
  rw [UInt8.ofNat_toNat, h] at hdigit
  simpa using hdigit

theorem digit_injective (hv : v < 16) (hw : w < 16) (h : Numeral.digit v = Numeral.digit w) : v = w := by
  have hall : ∀ v < 16, ∀ w < 16, Numeral.digit v = Numeral.digit w → v = w := by decide
  exact hall v hv w hw h

theorem digit_spelled {c : Char} (h : v < 16) (hc : c = Numeral.digit v ∨ c = (Numeral.digit v).toLower) :
    c.toUpper = Numeral.digit v ∧ IsDigit (UInt8.ofNat c.toNat) ∧ c.toNat < 0x80 := by
  have hupper : ∀ v < 16, (Numeral.digit v).toUpper = Numeral.digit v ∧
      IsDigit (UInt8.ofNat (Numeral.digit v).toNat) ∧ (Numeral.digit v).toNat < 0x80 := by decide
  have hlower : ∀ v < 16, (Numeral.digit v).toLower.toUpper = Numeral.digit v ∧
      IsDigit (UInt8.ofNat (Numeral.digit v).toLower.toNat) ∧ (Numeral.digit v).toLower.toNat < 0x80 := by
    decide
  rcases hc with rfl | rfl
  · exact hupper v h
  · exact hlower v h

end Digits

section Encoding

theorem high_lt (b : UInt8) : b.toNat / 16 < 16 := by
  have := b.toNat_lt
  omega

theorem low_lt (b : UInt8) : b.toNat % 16 < 16 := Nat.mod_lt _ (by decide)

theorem length_encode (c : Codec) (bs : Bytes) : (c.encode bs).length = 2 * bs.length := by
  induction bs with
  | nil => rw [c.encode_nil]; rfl
  | cons b bs ih =>
    rw [c.encode_cons, List.length_append, ih, List.length_cons]
    simp only [Numeral.byte, List.length_cons, List.length_nil]
    omega

theorem exists_digit_of_mem_encode {x : Char} (h : x ∈ c.encode bs) :
    ∃ v < 16, x = Numeral.digit v := by
  induction bs with
  | nil => simp [c.encode_nil] at h
  | cons b bs ih =>
    simp only [c.encode_cons, Numeral.byte, List.mem_append, List.mem_cons, List.not_mem_nil,
      or_false] at h
    rcases h with (rfl | rfl) | h
    · exact ⟨_, high_lt b, rfl⟩
    · exact ⟨_, low_lt b, rfl⟩
    · exact ih h

theorem byte_injective {b b' : UInt8} (h : Numeral.byte b = Numeral.byte b') : b = b' := by
  simp only [Numeral.byte, List.cons.injEq, and_true] at h
  have h1 := digit_injective (high_lt b) (high_lt b') h.1
  have h2 := digit_injective (low_lt b) (low_lt b') h.2
  exact UInt8.toNat_inj.1 (by omega)

theorem encode_injective (c : Codec) {bs bs' : Bytes} (h : c.encode bs = c.encode bs') : bs = bs' := by
  induction bs generalizing bs' with
  | nil =>
    cases bs' with
    | nil => rfl
    | cons b' bs' => simp [c.encode_nil, c.encode_cons, Numeral.byte] at h
  | cons b bs ih =>
    cases bs' with
    | nil => simp [c.encode_nil, c.encode_cons, Numeral.byte] at h
    | cons b' bs' =>
      rw [c.encode_cons, c.encode_cons] at h
      obtain ⟨hbyte, hrest⟩ := List.append_inj h rfl
      rw [byte_injective hbyte, ih hrest]

end Encoding

section Decoding

def FirstFault (text : Bytes) (b : UInt8) (position : Nat) : Prop :=
  ∃ pre post, text = pre ++ b :: post ∧ (∀ d ∈ pre, IsDigit d) ∧ ¬IsDigit b ∧ position = pre.length

/-- The length comes first. -/
def Explains (text : Bytes) : HexFault → Prop
  | .oddLength => text.length % 2 = 1
  | .invalidDigit b position => text.length % 2 = 0 ∧ FirstFault text b position

theorem FirstFault.cons (h : FirstFault text b position) (ha : IsDigit a) :
    FirstFault (a :: text) b (position + 1) := by
  obtain ⟨pre, post, rfl, hpre, hb, rfl⟩ := h
  exact ⟨a :: pre, post, rfl, List.forall_mem_cons.2 ⟨ha, hpre⟩, hb, rfl⟩

theorem firstFault_head (h : ¬IsDigit b) (rest : Bytes) : FirstFault (b :: rest) b 0 :=
  ⟨[], rest, rfl, by simp, h, rfl⟩

theorem FirstFault.unique {b' : UInt8} {position' : Nat} (h : FirstFault text b position)
    (h' : FirstFault text b' position') : b = b' ∧ position = position' := by
  obtain ⟨pre, post, htext, hpre, hb, rfl⟩ := h
  obtain ⟨pre', post', htext', hpre', hb', rfl⟩ := h'
  have hsame : ∀ {u : UInt8} {us vs : Bytes}, text = us ++ u :: vs → (∀ d ∈ us, IsDigit d) → ¬IsDigit u →
      text.takeWhile (IsDigit ·) = us ∧ text.dropWhile (IsDigit ·) = u :: vs := by
    intro u us vs h hus hu
    rw [h]
    simp +contextual [List.takeWhile_append_of_pos, List.dropWhile_append_of_pos, hus, hu]
  obtain ⟨ht, hd⟩ := hsame htext hpre hb
  obtain ⟨ht', hd'⟩ := hsame htext' hpre' hb'
  rw [ht] at ht'
  rw [hd, List.cons.injEq] at hd'
  exact ⟨hd'.1, by rw [ht']⟩

theorem not_firstFault (h : ∀ b ∈ text, IsDigit b) : ¬FirstFault text b position := by
  rintro ⟨pre, post, rfl, -, hb, -⟩
  exact hb (h b (List.mem_append_right _ List.mem_cons_self))

theorem Explains.unique {reason' : HexFault} (h : Explains text reason) (h' : Explains text reason') :
    reason = reason' := by
  cases reason with
  | oddLength =>
    cases reason' with
    | oddLength => rfl
    | invalidDigit b' position' => exact absurd (h.symm.trans h'.1) (by decide)
  | invalidDigit b position =>
    cases reason' with
    | oddLength => exact absurd (h.1.symm.trans h') (by decide)
    | invalidDigit b' position' =>
      obtain ⟨rfl, rfl⟩ := h.2.unique h'.2
      rfl

theorem Explains.behind (h : Explains rest reason) (heven : rest.length % 2 = 0) (ha : IsDigit a)
    (hb : IsDigit b) : Explains (a :: b :: rest) (reason.shift 2) := by
  cases reason with
  | oddLength => exact absurd (heven.symm.trans h) (by decide)
  | invalidDigit d position =>
    refine ⟨?_, (h.2.cons hb).cons ha⟩
    simp only [List.length_cons]
    omega

/-- The three ways to read a pair: its first byte is no digit, its second is none, or both are. -/
theorem decode_cases (c : Codec) (heven : rest.length % 2 = 0) (a b : UInt8) :
    (∃ reason, c.decode (a :: b :: rest) = .error reason ∧ Explains (a :: b :: rest) reason) ∨
      ∃ high low, value? a = some high ∧ value? b = some low ∧
        c.decode (a :: b :: rest) = behindPair (16 * high + low) (c.decode rest) := by
  have heven' : (a :: b :: rest).length % 2 = 0 := by
    simp only [List.length_cons]
    omega
  cases ha : value? a with
  | none =>
    exact .inl ⟨_, c.decode_high a b rest heven ha, heven',
      firstFault_head (value?_eq_none_iff.1 ha) _⟩
  | some high =>
    cases hb : value? b with
    | none =>
      exact .inl ⟨_, c.decode_low a b rest high heven ha hb, heven',
        (firstFault_head (value?_eq_none_iff.1 hb) rest).cons (isDigit_of_value? ha)⟩
    | some low => exact .inr ⟨high, low, rfl, rfl, c.decode_pair a b rest high low heven ha hb⟩

theorem decode_spec (c : Codec) (heven : text.length % 2 = 0) :
    (∃ bs, c.decode text = .ok bs ∧ (∀ b ∈ text, IsDigit b) ∧
        c.encode bs = text.map fun b => (Char.ofNat b.toNat).toUpper) ∨
      ∃ reason, c.decode text = .error reason ∧ Explains text reason := by
  induction text using List.twoStepInduction with
  | nil => exact .inl ⟨[], c.decode_nil, by simp, by simp [c.encode_nil]⟩
  | singleton a => simp at heven
  | cons_cons a b rest ih =>
    have hrest : rest.length % 2 = 0 := by
      simp only [List.length_cons] at heven
      omega
    rcases decode_cases c hrest a b with ⟨reason, hreason⟩ | ⟨high, low, hhigh, hlow, hdecode⟩
    · exact .inr ⟨reason, hreason⟩
    rw [hdecode]
    have ha := isDigit_of_value? hhigh
    have hb := isDigit_of_value? hlow
    rcases ih hrest with ⟨bs, hbs, hdigits, hencode⟩ | ⟨reason, hreason, hexplains⟩
    · rw [hbs]
      refine .inl ⟨_, rfl, List.forall_mem_cons.2 ⟨ha, List.forall_mem_cons.2 ⟨hb, hdigits⟩⟩, ?_⟩
      obtain ⟨hh, hupper⟩ := digit_of_value? hhigh
      obtain ⟨hl, hupper'⟩ := digit_of_value? hlow
      have hbyte : (UInt8.ofNat (16 * high + low)).toNat = 16 * high + low := toNat_byte (by omega)
      have hdiv : (16 * high + low) / 16 = high := by omega
      have hmod : (16 * high + low) % 16 = low := by omega
      rw [c.encode_cons, hencode, Numeral.byte, hbyte, hdiv, hmod, hupper, hupper']
      rfl
    · rw [hreason]
      exact .inr ⟨_, rfl, hexplains.behind hrest ha hb⟩

theorem codec_decode_eq_error_iff : c.decode text = .error reason ↔ Explains text reason := by
  have htold : ∀ reason', c.decode text = .error reason' → Explains text reason' →
      (c.decode text = .error reason ↔ Explains text reason) := by
    intro reason' hdecode hexplains
    rw [hdecode, Except.error.injEq]
    exact ⟨fun h => h ▸ hexplains, fun h => hexplains.unique h⟩
  rcases Nat.mod_two_eq_zero_or_one text.length with heven | hodd
  · rcases decode_spec c heven with ⟨bs, hbs, hdigits, -⟩ | ⟨reason', hdecode, hexplains⟩
    · rw [hbs]
      refine ⟨fun h => (by cases h), fun h => ?_⟩
      cases reason with
      | oddLength => exact absurd (heven.symm.trans h) (by decide)
      | invalidDigit b position => exact absurd h.2 (not_firstFault hdigits)
    · exact htold reason' hdecode hexplains
  · exact htold .oddLength (c.decode_odd text hodd) hodd

theorem codec_decode_of_ok (h : c.decode text = .ok bs) :
    text.length % 2 = 0 ∧ (∀ b ∈ text, IsDigit b) ∧
      c.encode bs = text.map fun b => (Char.ofNat b.toNat).toUpper := by
  rcases Nat.mod_two_eq_zero_or_one text.length with heven | hodd
  · rcases decode_spec c heven with ⟨bs', hbs', hspec⟩ | ⟨reason, hdecode, -⟩
    · rw [h] at hbs'
      cases hbs'
      exact ⟨heven, hspec⟩
    · rw [h] at hdecode
      cases hdecode
  · rw [c.decode_odd text hodd] at h
    cases h

theorem decode_eq_ok_iff : decode c text = .ok bs ↔ c.decode text = .ok bs := by
  rw [decode]
  rcases c.decode text with reason | bs' <;> simp

theorem exists_decode_iff :
    (∃ bs, decode c text = .ok bs) ↔ text.length % 2 = 0 ∧ ∀ b ∈ text, IsDigit b := by
  simp only [decode_eq_ok_iff]
  constructor
  · rintro ⟨bs, hbs⟩
    obtain ⟨heven, hdigits, -⟩ := codec_decode_of_ok hbs
    exact ⟨heven, hdigits⟩
  · rintro ⟨heven, hdigits⟩
    rcases decode_spec c heven with ⟨bs, hbs, -⟩ | ⟨reason, -, hexplains⟩
    · exact ⟨bs, hbs⟩
    · cases reason with
      | oddLength => exact absurd (heven.symm.trans hexplains) (by decide)
      | invalidDigit b position => exact absurd hexplains.2 (not_firstFault hdigits)

theorem report_of_decode_eq_error {f : Fault} (h : decode c text = .error f) :
    ∃ reason, Explains text reason ∧ f = .malformedHex (c.describe reason) ∧
      f.report? = some ⟨"buffer.invalid_pattern", "malformed hex string: " ++ c.describe reason,
        some (c.describe reason)⟩ := by
  rw [decode] at h
  split at h
  · next reason hreason =>
    cases h
    exact ⟨reason, codec_decode_eq_error_iff.1 hreason, rfl, rfl⟩
  · cases h

end Decoding

section Texts

variable {t : List Char}

theorem encode_of_decode (h : decode c (Text.Utf8.encode t) = .ok bs) :
    c.encode bs = t.map Char.toUpper := by
  obtain ⟨-, hdigits, hencode⟩ := codec_decode_of_ok (decode_eq_ok_iff.1 h)
  have hascii := Utf8.ascii_of_encode fun b hb => (hdigits b hb).ascii
  rw [hencode, Utf8.encode_of_ascii hascii, List.map_map]
  refine List.map_congr_left fun x hx => ?_
  have hx := hascii x hx
  simp only [Function.comp_apply, toNat_byte (show x.toNat < 0x100 by omega), Char.ofNat_toNat]

theorem decode_of_raised (hascii : ∀ x ∈ t, x.toNat < 0x80)
    (hdigits : ∀ x ∈ t, IsDigit (UInt8.ofNat x.toNat)) (h : t.map Char.toUpper = c.encode bs) :
    decode c (Text.Utf8.encode t) = .ok bs := by
  have hlen := congrArg List.length h
  rw [List.length_map, length_encode] at hlen
  have hread : ∃ bs', decode c (Text.Utf8.encode t) = .ok bs' := by
    rw [exists_decode_iff, Utf8.encode_of_ascii hascii, List.length_map]
    refine ⟨by omega, fun b hb => ?_⟩
    obtain ⟨x, hx, rfl⟩ := List.mem_map.1 hb
    exact hdigits x hx
  obtain ⟨bs', hbs'⟩ := hread
  rw [hbs', encode_injective c ((encode_of_decode hbs').trans h)]

theorem decode_map_encode {spell : Char → Char} (hspell : ∀ x, spell x = x ∨ spell x = x.toLower)
    (c : Codec) (bs : Bytes) : decode c (Text.Utf8.encode ((c.encode bs).map spell)) = .ok bs := by
  have hspelled {x : Char} (hx : x ∈ c.encode bs) : (spell x).toUpper = x ∧
      IsDigit (UInt8.ofNat (spell x).toNat) ∧ (spell x).toNat < 0x80 := by
    obtain ⟨v, hv, rfl⟩ := exists_digit_of_mem_encode hx
    exact digit_spelled hv (hspell _)
  apply decode_of_raised
  · simpa using fun x hx => (hspelled hx).2.2
  · simpa using fun x hx => (hspelled hx).2.1
  · have hsame : (c.encode bs).map (Char.toUpper ∘ spell) = (c.encode bs).map id :=
      List.map_congr_left fun x hx => (hspelled hx).1
    rw [List.map_map, hsame, List.map_id]

theorem decode_encode (c : Codec) (bs : Bytes) :
    decode c (Text.Utf8.encode (c.encode bs)) = .ok bs ∧
      decode c (Text.Utf8.encode ((c.encode bs).map Char.toLower)) = .ok bs := by
  have hkept : ∀ x : Char, id x = x ∨ id x = x.toLower := fun _ => .inl rfl
  refine ⟨?_, decode_map_encode (fun _ => .inr rfl) c bs⟩
  simpa using decode_map_encode hkept c bs

/-- The two directions are inverse to each other, and a text that neither has written is refused for what
is wrong with it. Lengths and positions count the bytes of the text, not its characters. -/
theorem hexadecimal_round_trip (c : Codec) :
    (∀ bs, decode c (Text.Utf8.encode (c.encode bs)) = .ok bs ∧
      decode c (Text.Utf8.encode ((c.encode bs).map Char.toLower)) = .ok bs) ∧
    ∀ t : List Char,
      ((∃ bs, decode c (Text.Utf8.encode t) = .ok bs) ↔
        (Text.Utf8.encode t).length % 2 = 0 ∧ ∀ b ∈ Text.Utf8.encode t, IsDigit b) ∧
      (∀ bs, decode c (Text.Utf8.encode t) = .ok bs → c.encode bs = t.map Char.toUpper) ∧
      (∀ reason, c.decode (Text.Utf8.encode t) = .error reason ↔
        Explains (Text.Utf8.encode t) reason) ∧
      ∀ f, decode c (Text.Utf8.encode t) = .error f → ∃ reason,
        Explains (Text.Utf8.encode t) reason ∧ f = .malformedHex (c.describe reason) ∧
        f.report? = some ⟨"buffer.invalid_pattern", "malformed hex string: " ++ c.describe reason,
          some (c.describe reason)⟩ :=
  ⟨decode_encode c, fun _ => ⟨exists_decode_iff, fun _ => encode_of_decode,
    fun _ => codec_decode_eq_error_iff, fun _ => report_of_decode_eq_error⟩⟩

/-- The second character is written as two bytes, and the fault is at the first of these. -/
theorem hexadecimal_round_trip_accent :
    pairwise.decode (Text.Utf8.encode ['a', 'é', '0']) = .error (.invalidDigit 0xC3 1) ∧
      Explains (Text.Utf8.encode ['a', 'é', '0']) (.invalidDigit 0xC3 1) :=
  ⟨rfl, (((hexadecimal_round_trip pairwise).2 ['a', 'é', '0']).2.2.1 _).1 rfl⟩

end Texts

end Hex

end SharedBuffer
