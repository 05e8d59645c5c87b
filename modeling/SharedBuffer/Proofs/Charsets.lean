import SharedBuffer.Proofs.Utf16
import SharedBuffer.Text.Charset

/-!
The laws of the charsets, in both directions. Main statement: what is decoded after it was encoded is
the text with a question mark for each character that the charset lacks, bytes survive decoding and
encoding exactly if they are the encoding of a text, and these byte strings are told apart by their
form alone.
-/

namespace SharedBuffer.Charset

open Text

def Represents : Charset → Char → Prop
  | .utf8, _ | .utf16 _, _ => True
  | .usAscii, c => c.toNat < 0x80
  | .iso8859, c => c.toNat < 0x100

instance (charset : Charset) (c : Char) : Decidable (charset.Represents c) := by
  cases charset <;> (dsimp only [Represents]; infer_instance)

def substitute (charset : Charset) (c : Char) : Char := if charset.Represents c then c else '?'

def WellFormed : Charset → Bytes → Prop
  | .utf8, bs => Utf8.WellFormed bs
  | .usAscii, bs => ∀ b ∈ bs, b.toNat < 0x80
  | .iso8859, _ => True
  | .utf16 order, bs => bs.length % 2 = 0 ∧ Utf16.Paired (Utf16.unitsIn order bs)

structure Lawful (charset : Charset) : Prop where
  replaces : ∀ text, charset.decode (charset.encode text) = text.map charset.substitute
  faithful : ∀ text, charset.decode (charset.encode text) = text ↔ ∀ c ∈ text, charset.Represents c
  stable : ∀ text, charset.encode (charset.decode (charset.encode text)) = charset.encode text
  survives : ∀ bs, charset.encode (charset.decode bs) = bs ↔ ∃ text, charset.encode text = bs
  wellFormed : ∀ bs, (∃ text, charset.encode text = bs) ↔ charset.WellFormed bs

variable {charset : Charset} {limit : Nat}

section Below

theorem decodeBelow_encodeBelow (hlow : 63 < limit) (hhigh : limit ≤ 0x100) (text : List Char) :
    decodeBelow limit (encodeBelow limit text) =
      text.map fun c => if c.toNat < limit then c else '?' := by
  rw [decodeBelow, encodeBelow, List.map_map]
  refine List.map_congr_left fun c _ => ?_
  by_cases h : c.toNat < limit
  · have hbyte := toNat_byte (show c.toNat < 0x100 by omega)
    simp only [Function.comp, if_pos h, hbyte, Char.ofNat_toNat]
  · have hmark : (63 : UInt8).toNat < limit := hlow
    simp only [Function.comp, if_neg h, if_pos hmark]
    rfl

theorem encodeBelow_map (hlow : 63 < limit) (text : List Char) :
    encodeBelow limit (text.map fun c => if c.toNat < limit then c else '?') =
      encodeBelow limit text := by
  rw [encodeBelow, encodeBelow, List.map_map]
  refine List.map_congr_left fun c _ => ?_
  by_cases h : c.toNat < limit
  · simp only [Function.comp, if_pos h]
  · have hmark : ('?').toNat < limit := hlow
    simp only [Function.comp, if_neg h, if_pos hmark]
    rfl

theorem exists_encodeBelow_iff (hlow : 63 < limit) (hhigh : limit ≤ 0x100) {bs : Bytes} :
    (∃ text, encodeBelow limit text = bs) ↔ ∀ b ∈ bs, b.toNat < limit := by
  constructor
  · rintro ⟨text, rfl⟩ b hb
    obtain ⟨c, -, rfl⟩ := List.mem_map.1 hb
    split
    · next h => rwa [toNat_byte (by omega)]
    · exact hlow
  · intro h
    refine ⟨bs.map fun b => Char.ofNat b.toNat, ?_⟩
    rw [encodeBelow, List.map_map]
    refine (List.map_congr_left fun b hb => ?_).trans (List.map_id bs)
    have hb := h b hb
    have hcode := toNat_ofNat_of_valid (n := b.toNat) (by omega)
    simp only [Function.comp, hcode, if_pos hb, UInt8.ofNat_toNat, id]

end Below

theorem decode_encode (charset : Charset) (text : List Char) :
    charset.decode (charset.encode text) = text.map charset.substitute := by
  have hwhole : text.map (fun c => if True then c else '?') = text := by simp
  cases charset with
  | utf8 => exact (Utf8.decode_encode text).trans hwhole.symm
  | usAscii => exact decodeBelow_encodeBelow (by omega) (by omega) text
  | iso8859 => exact decodeBelow_encodeBelow (by omega) (by omega) text
  | utf16 order => exact (Utf16.decode_encode order text).trans hwhole.symm

theorem encode_substituted (charset : Charset) (text : List Char) :
    charset.encode (text.map charset.substitute) = charset.encode text := by
  have hwhole : text.map (fun c => if True then c else '?') = text := by simp
  cases charset with
  | utf8 => exact congrArg Utf8.encode hwhole
  | usAscii => exact encodeBelow_map (by omega) text
  | iso8859 => exact encodeBelow_map (by omega) text
  | utf16 order => exact congrArg (Utf16.encode order) hwhole

theorem represents_mark (charset : Charset) : charset.Represents '?' := by
  cases charset with
  | utf8 => trivial
  | usAscii => exact (by decide : ('?').toNat < 0x80)
  | iso8859 => exact (by decide : ('?').toNat < 0x100)
  | utf16 order => trivial

theorem substitute_eq_iff {c : Char} : charset.substitute c = c ↔ charset.Represents c := by
  rw [substitute]
  constructor
  · intro h
    split at h
    · next hc => exact hc
    · rw [← h]
      exact charset.represents_mark
  · exact fun h => if_pos h

theorem map_substitute_eq_iff {text : List Char} :
    text.map charset.substitute = text ↔ ∀ c ∈ text, charset.Represents c := by
  induction text with
  | nil => simp
  | cons c text ih =>
    rw [List.map_cons, List.cons.injEq, substitute_eq_iff, ih, List.forall_mem_cons]

theorem exists_encode_iff {bs : Bytes} : (∃ text, charset.encode text = bs) ↔ charset.WellFormed bs := by
  cases charset with
  | utf8 => exact Utf8.wellFormed_iff.symm
  | usAscii => exact exists_encodeBelow_iff (by omega) (by omega)
  | iso8859 =>
    refine (exists_encodeBelow_iff (by omega) (Nat.le_refl _)).trans ?_
    exact ⟨fun _ => trivial, fun _ b _ => b.toNat_lt⟩
  | utf16 order => exact Utf16.paired_iff.symm

theorem lawful (charset : Charset) : charset.Lawful := by
  have hstable : ∀ text, charset.encode (charset.decode (charset.encode text)) = charset.encode text := by
    intro text
    rw [decode_encode, encode_substituted]
  refine ⟨charset.decode_encode, fun text => ?_, hstable, fun bs => ⟨fun h => ⟨_, h⟩, ?_⟩,
    fun bs => exists_encode_iff⟩
  · rw [decode_encode]
    exact map_substitute_eq_iff
  · rintro ⟨text, rfl⟩
    exact hstable text

/-- Every charset keeps its laws, and UTF-16 is decoded unit by unit, whatever the bytes: two halves
of a pair become their character, any other surrogate and a byte left over at the end a replacement
character, and every other unit the character with its number. -/
theorem round_trips :
    (∀ charset : Charset, charset.Lawful) ∧
      ∀ (order : ByteOrder) (bs : Bytes),
        (utf16 order).decode bs =
          (List.range (bs.length / 2)).flatMap (Utf16.meaning (Utf16.unitsIn order bs)) ++
            if bs.length % 2 = 1 then [replacement] else [] :=
  ⟨lawful, Utf16.decode_eq⟩

end SharedBuffer.Charset
