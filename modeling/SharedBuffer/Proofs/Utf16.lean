import SharedBuffer.Proofs.Utf8
import SharedBuffer.Text.Utf16

/-!
UTF-16 in both directions. Main statements: decoding an encoded text returns it, the encodings are
the byte strings of even length whose surrogates stand in pairs, and in any other byte string each
unit is read by itself and its neighbours: a surrogate without a partner and a byte left over at the
end are replaced, and everything else keeps its meaning.
-/

namespace SharedBuffer

namespace Bytes

theorem ofInt_toNat {width : Nat} {bs : Bytes} (h : bs.length = width) : ofInt width (toNat bs) = bs := by
  induction width generalizing bs with
  | zero => exact (List.length_eq_zero_iff.1 h).symm
  | succ width ih =>
    obtain rfl | ⟨rest, b, hbs⟩ := bs.eq_nil_or_concat
    · cases h
    rw [List.concat_eq_append] at hbs
    subst hbs
    have hrest : rest.length = width := by
      rw [List.length_append] at h
      exact Nat.succ.inj h
    have hb := b.toNat_lt
    rw [ofInt, toNat_append_singleton]
    have hquotient : ((toNat rest * 256 + b.toNat : Nat) : Int) / 256 = (toNat rest : Nat) := by omega
    have hlast : (((toNat rest * 256 + b.toNat : Nat) : Int) % 256).toNat = b.toNat := by omega
    rw [hquotient, hlast, ih hrest, UInt8.ofNat_toNat]

end Bytes

namespace Text.Utf16

open List (range)

variable {u v : Nat} {us : List Nat} {order : ByteOrder} {bs : Bytes}

inductive Paired : List Nat → Prop
  | nil : Paired []
  | unit {u : Nat} {rest : List Nat} (hu : u < 0x10000) (hhigh : isHigh u = false)
      (hlow : isLow u = false) (hrest : Paired rest) : Paired (u :: rest)
  | pair {u v : Nat} {rest : List Nat} (hu : isHigh u = true) (hv : isLow v = true)
      (hrest : Paired rest) : Paired (u :: v :: rest)

theorem isHigh_iff : isHigh u = true ↔ 0xD800 ≤ u ∧ u ≤ 0xDBFF := by
  simp only [isHigh, Bool.and_eq_true, decide_eq_true_eq]

theorem isLow_iff : isLow u = true ↔ 0xDC00 ≤ u ∧ u ≤ 0xDFFF := by
  simp only [isLow, Bool.and_eq_true, decide_eq_true_eq]

theorem isHigh_eq_false_iff : isHigh u = false ↔ u < 0xD800 ∨ 0xDBFF < u := by
  rw [← Bool.not_eq_true, isHigh_iff]
  omega

theorem isLow_eq_false_iff : isLow u = false ↔ u < 0xDC00 ∨ 0xDFFF < u := by
  rw [← Bool.not_eq_true, isLow_iff]
  omega

section Characters

theorem ofUnit_of_not_surrogate (hhigh : isHigh u = false) (hlow : isLow u = false) :
    ofUnit u = Char.ofNat u := by
  rw [ofUnit, hhigh, hlow]
  rfl

theorem not_surrogate {c : Char} (h : c.toNat < 0x10000) :
    isHigh c.toNat = false ∧ isLow c.toNat = false := by
  have hvalid := valid_toNat c
  rw [isHigh_eq_false_iff, isLow_eq_false_iff]
  omega

theorem unitsOfChar_of_le {c : Char} (h : 0x10000 ≤ c.toNat) :
    ∃ u v, unitsOfChar c = [u, v] ∧ isHigh u = true ∧ isLow v = true ∧ pair u v = c := by
  have hvalid := valid_toNat c
  refine ⟨0xD800 + (c.toNat - 0x10000) / 0x400, 0xDC00 + (c.toNat - 0x10000) % 0x400, ?_, ?_, ?_, ?_⟩
  · simp only [unitsOfChar]
    rw [if_neg (by omega)]
  · rw [isHigh_iff]
    omega
  · rw [isLow_iff]
    omega
  · exact ofNat_of_eq (by omega)

theorem unitsOfChar_ofNat (hu : u < 0x10000) (hhigh : isHigh u = false) (hlow : isLow u = false) :
    unitsOfChar (Char.ofNat u) = [u] := by
  rw [isHigh_eq_false_iff] at hhigh
  rw [isLow_eq_false_iff] at hlow
  simp only [unitsOfChar]
  rw [toNat_ofNat_of_valid (by omega), if_pos hu]

theorem unitsOfChar_pair (hu : isHigh u = true) (hv : isLow v = true) :
    unitsOfChar (pair u v) = [u, v] := by
  rw [isHigh_iff] at hu
  rw [isLow_iff] at hv
  have hn := toNat_ofNat_of_valid (n := 0x10000 + (u - 0xD800) * 0x400 + (v - 0xDC00)) (by omega)
  have hhigh : 0xD800 + (0x10000 + (u - 0xD800) * 0x400 + (v - 0xDC00) - 0x10000) / 0x400 = u := by
    omega
  have hlow : 0xDC00 + (0x10000 + (u - 0xD800) * 0x400 + (v - 0xDC00) - 0x10000) % 0x400 = v := by
    omega
  simp only [unitsOfChar, pair, hn]
  rw [if_neg (by omega), hhigh, hlow]

theorem decodeUnits_units (text : List Char) : decodeUnits (units text) = text := by
  induction text with
  | nil => rfl
  | cons c text ih =>
    change decodeUnits (unitsOfChar c ++ units text) = _
    by_cases h : c.toNat < 0x10000
    · obtain ⟨hhigh, hlow⟩ := not_surrogate h
      have hunits : unitsOfChar c = [c.toNat] := if_pos h
      rw [hunits, List.singleton_append, decodeUnits_single hhigh, ih,
        ofUnit_of_not_surrogate hhigh hlow, Char.ofNat_toNat]
    · obtain ⟨u, v, hunits, hu, hv, hpair⟩ := unitsOfChar_of_le (Nat.le_of_not_lt h)
      rw [hunits, List.cons_append, List.singleton_append, decodeUnits_pair hu hv, ih, hpair]

theorem paired_units (text : List Char) : Paired (units text) := by
  induction text with
  | nil => exact .nil
  | cons c text ih =>
    change Paired (unitsOfChar c ++ units text)
    by_cases h : c.toNat < 0x10000
    · obtain ⟨hhigh, hlow⟩ := not_surrogate h
      have hunits : unitsOfChar c = [c.toNat] := if_pos h
      rw [hunits]
      exact .unit h hhigh hlow ih
    · obtain ⟨u, v, hunits, hu, hv, -⟩ := unitsOfChar_of_le (Nat.le_of_not_lt h)
      rw [hunits]
      exact .pair hu hv ih

theorem Paired.units_decodeUnits (h : Paired us) : units (decodeUnits us) = us := by
  induction h with
  | nil => rfl
  | unit hu hhigh hlow hrest ih =>
    rw [decodeUnits_single hhigh, ofUnit_of_not_surrogate hhigh hlow, units, List.flatMap_cons,
      unitsOfChar_ofNat hu hhigh hlow, ← units, ih, List.singleton_append]
  | pair hu hv hrest ih =>
    rw [decodeUnits_pair hu hv, units, List.flatMap_cons, unitsOfChar_pair hu hv, ← units, ih]
    rfl

theorem Paired.lt (h : Paired us) : ∀ u ∈ us, u < 0x10000 := by
  induction h with
  | nil => simp
  | unit hu hhigh hlow hrest ih => exact List.forall_mem_cons.2 ⟨hu, ih⟩
  | pair hu hv hrest ih =>
    rw [isHigh_iff] at hu
    rw [isLow_iff] at hv
    exact List.forall_mem_cons.2 ⟨by omega, List.forall_mem_cons.2 ⟨by omega, ih⟩⟩

end Characters

section Positions

def opens (us : List Nat) (i : Nat) : Bool := us[i]?.any isHigh && us[i + 1]?.any isLow

def closes (us : List Nat) : Nat → Bool
  | 0 => false
  | i + 1 => opens us i

/-- What the unit at `i` is read as. -/
def meaning (us : List Nat) (i : Nat) : List Char :=
  if opens us i then [pair (us.getD i 0) (us.getD (i + 1) 0)]
  else if closes us i then []
  else [ofUnit (us.getD i 0)]

theorem opens_cons (u : Nat) (us : List Nat) (i : Nat) : opens (u :: us) (i + 1) = opens us i := rfl

theorem meaning_cons (h : opens (u :: us) 0 = false) (i : Nat) :
    meaning (u :: us) (i + 1) = meaning us i := by
  have hcloses : closes (u :: us) (i + 1) = closes us i := by
    cases i with
    | zero => exact h
    | succ i => rfl
  simp only [meaning, opens_cons, hcloses, List.getD_cons_succ]

theorem meaning_pair (hv : isHigh v = false) (i : Nat) :
    meaning (u :: v :: us) (i + 2) = meaning us i := by
  have hnone : opens (v :: us) 0 = false := by simp [opens, hv]
  have hcloses : closes (u :: v :: us) (i + 2) = closes us i := by
    cases i with
    | zero => exact hnone
    | succ i => rfl
  simp only [meaning, opens_cons, hcloses, List.getD_cons_succ]

theorem flatMap_range_succ {α : Type} (n : Nat) (f : Nat → List α) :
    (range (n + 1)).flatMap f = f 0 ++ (range n).flatMap fun i => f (i + 1) := by
  rw [List.range_succ_eq_map, List.flatMap_cons, List.flatMap_map]

theorem decodeUnits_eq (us : List Nat) : decodeUnits us = (range us.length).flatMap (meaning us) := by
  induction us using decodeUnits.induct with
  | case1 => rfl
  | case2 u => simp [decodeUnits, meaning, opens, closes]
  | case3 u v rest h ih =>
    obtain ⟨hu, hv⟩ : isHigh u = true ∧ isLow v = true := by simpa using h
    have hnot : isHigh v = false := by
      rw [isLow_iff] at hv
      rw [isHigh_eq_false_iff]
      omega
    have hfirst : meaning (u :: v :: rest) 0 = [pair u v] := by simp [meaning, opens, hu, hv]
    have hsecond : meaning (u :: v :: rest) 1 = [] := by simp [meaning, opens, closes, hu, hv, hnot]
    rw [decodeUnits_pair hu hv, ih, List.length_cons, List.length_cons, flatMap_range_succ,
      flatMap_range_succ, hfirst, hsecond, List.nil_append, List.singleton_append]
    congr 2
    funext i
    exact (meaning_pair hnot i).symm
  | case4 u v rest h ih =>
    have hnone : opens (u :: v :: rest) 0 = false := by simpa [opens] using h
    have hfirst : meaning (u :: v :: rest) 0 = [ofUnit u] := by simp [meaning, hnone, closes]
    rw [decodeUnits, if_neg h, ih, List.length_cons (a := u), flatMap_range_succ, hfirst,
      List.singleton_append]
    congr 2
    funext i
    exact (meaning_cons hnone i).symm

end Positions

section Bytes

def unitsIn (order : ByteOrder) (bs : Bytes) : List Nat :=
  (range (bs.length / 2)).map fun i => (order.arrange (bs.window (2 * i) 2)).toNat

theorem unitsOfBytes_eq (order : ByteOrder) (bs : Bytes) :
    unitsOfBytes order bs = (unitsIn order bs, decide (bs.length % 2 = 1)) := by
  fun_induction unitsOfBytes order bs with
  | case1 => rfl
  | case2 b => simp [unitsIn]
  | case3 a b rest tail ih =>
    have hlength : (a :: b :: rest).length / 2 = rest.length / 2 + 1 := by
      simp only [List.length_cons]
      omega
    have hodd : (a :: b :: rest).length % 2 = rest.length % 2 := by
      simp only [List.length_cons]
      omega
    have htail : tail = (unitsIn order rest, decide (rest.length % 2 = 1)) := ih
    rw [htail, hodd, unitsIn, unitsIn, hlength, List.range_succ_eq_map, List.map_cons, List.map_map]
    rfl

theorem unitsOfBytes_bytesOfUnit (h : ∀ u ∈ us, u < 0x10000) :
    unitsOfBytes order (us.flatMap (bytesOfUnit order)) = (us, false) := by
  induction us with
  | nil => rfl
  | cons u us ih =>
    obtain ⟨hu, hus⟩ := List.forall_mem_cons.1 h
    have hlength : (bytesOfUnit order u).length = 2 := by
      rw [bytesOfUnit, ByteOrder.length_arrange, Bytes.length_ofInt]
    obtain ⟨a, b, hab⟩ : ∃ a b, bytesOfUnit order u = [a, b] := by
      match bytesOfUnit order u, hlength with
      | [a, b], _ => exact ⟨a, b, rfl⟩
    have hvalue : Bytes.toNat (order.arrange [a, b]) = u := by
      have hint := Bytes.toNat_ofInt 2 u
      rw [← hab, bytesOfUnit, ByteOrder.arrange_arrange]
      change _ = (u : Int) % 65536 at hint
      omega
    rw [List.flatMap_cons, hab, List.cons_append, List.singleton_append, unitsOfBytes, ih hus, hvalue]

theorem bytesOfUnit_unitsOfBytes (h : bs.length % 2 = 0) :
    (unitsIn order bs).flatMap (bytesOfUnit order) = bs := by
  have hunits : unitsIn order bs = (unitsOfBytes order bs).1 := by rw [unitsOfBytes_eq]
  rw [hunits]
  clear hunits
  fun_induction unitsOfBytes order bs with
  | case1 => rfl
  | case2 b => cases h
  | case3 a b rest tail ih =>
    have hback : bytesOfUnit order (Bytes.toNat (order.arrange [a, b])) = [a, b] := by
      have hwhole := Bytes.ofInt_toNat (order.length_arrange [a, b])
      rw [bytesOfUnit]
      exact (congrArg order.arrange hwhole).trans (order.arrange_arrange [a, b])
    have heven : rest.length % 2 = 0 := by
      simp only [List.length_cons] at h
      omega
    rw [List.flatMap_cons, hback, ih heven]
    rfl

theorem decode_encode (order : ByteOrder) (text : List Char) :
    decode order (encode order text) = text := by
  rw [decode, encode, unitsOfBytes_bytesOfUnit (paired_units text).lt]
  exact (List.append_nil _).trans (decodeUnits_units text)

theorem decode_eq (order : ByteOrder) (bs : Bytes) :
    decode order bs = (range (bs.length / 2)).flatMap (meaning (unitsIn order bs)) ++
      if bs.length % 2 = 1 then [replacement] else [] := by
  have hlength : (unitsIn order bs).length = bs.length / 2 := by simp [unitsIn]
  rw [decode, unitsOfBytes_eq, ← hlength]
  dsimp only
  rw [decodeUnits_eq]
  simp only [decide_eq_true_eq]

/-- The encodings are exactly the byte strings of an even length with every surrogate in a pair. -/
theorem paired_iff :
    (bs.length % 2 = 0 ∧ Paired (unitsIn order bs)) ↔ ∃ text, encode order text = bs := by
  constructor
  · rintro ⟨heven, hpaired⟩
    refine ⟨decodeUnits (unitsIn order bs), ?_⟩
    rw [encode, hpaired.units_decodeUnits, bytesOfUnit_unitsOfBytes heven]
  · rintro ⟨text, rfl⟩
    have hunits := unitsOfBytes_eq order (encode order text)
    rw [encode, unitsOfBytes_bytesOfUnit (paired_units text).lt, Prod.mk.injEq] at hunits
    obtain ⟨hsame, heven⟩ := hunits
    have heven := of_decide_eq_false heven.symm
    refine ⟨by rw [encode]; omega, ?_⟩
    rw [encode, ← hsame]
    exact paired_units text

end Bytes

end Text.Utf16

end SharedBuffer
