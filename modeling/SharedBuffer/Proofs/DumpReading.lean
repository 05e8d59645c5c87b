import SharedBuffer.Proofs.DumpLayout
import SharedBuffer.Proofs.Hexadecimal

/-!
A dump read back. The rows are the lines between the banners, and what a row tells of its bytes stands
between the colon behind the offset and the last sixteen characters: two fields of eight numbers each, apart
by a blank. The glyphs may hold any character of the layout, so they are counted from the end of the row.
-/

namespace SharedBuffer.Dump

def dataRows (text : List Char) : List (List Char) := ((text.splitOn '\n').drop 1).dropLast.dropLast

def words (text : List Char) : List (List Char) := (text.splitOn ' ').filter (· ≠ [])

/-- The two fields of numbers take forty-nine places, the blank between them among these. -/
def groups (line : List Char) : List (List Char) := words (((line.dropWhile (· ≠ ':')).drop 2).take 49)

def asciiColumn (line : List Char) : List Char := line.drop (line.length - bytesPerRow)

variable {title : List Char} {bs bs' : Bytes} {row : Row} {r : Nat}

section Rows

theorem dataRows_render (ht : '\n' ∉ title) (bs : Bytes) :
    dataRows (render title bs) = (List.range (rowCount bs)).map fun r => (rowAt bs r).render := by
  rw [dataRows, splitOn_render ht, List.drop_append_of_le_length (by simp [length_lines]),
    List.dropLast_concat, lines, List.append_assoc, List.singleton_append, List.drop_succ_cons, List.drop_zero,
    List.dropLast_concat, rows_eq_map, List.map_map]
  rfl

theorem length_rowAt (bs : Bytes) (r : Nat) :
    (rowAt bs r).bytes.length = min bytesPerRow (bs.length - bytesPerRow * r) := by
  simp [rowAt]

theorem getElem?_rowAt (bs : Bytes) {c : Nat} (h : c < bytesPerRow) :
    (rowAt bs r).bytes[c]? = bs[bytesPerRow * r + c]? := by
  simp [rowAt, List.getElem?_take_of_lt h]

theorem flatMap_rowsFrom (offset : Nat) (bs : Bytes) : (rowsFrom offset bs).flatMap Row.bytes = bs := by
  fun_induction rowsFrom offset bs with
  | case1 offset => rfl
  | case2 offset bs h ih => rw [List.flatMap_cons, ih, List.take_append_drop]

theorem flatMap_rowAt (bs : Bytes) : ((List.range (rowCount bs)).flatMap fun r => (rowAt bs r).bytes) = bs := by
  have h := flatMap_rowsFrom 0 bs
  rw [← rows, rows_eq_map, List.flatMap_map] at h
  exact h

end Rows

section Numbers

theorem words_blank (rest : List Char) : words (' ' :: rest) = words rest := by
  have h := List.splitOn_append_cons_self_of_not_mem (show ' ' ∉ ([] : List Char) by simp) rest
  rw [List.nil_append] at h
  simp [words, h]

theorem words_number (b : UInt8) (rest : List Char) :
    words (Row.number (some b) ++ rest) = Numeral.byte b :: words rest := by
  have hdigit : ∀ v < 16, ' ' ≠ Numeral.digit v := by decide
  have hblank : ' ' ∉ Numeral.byte b := by
    simp [Numeral.byte, hdigit _ (Hex.high_lt b), hdigit _ (Hex.low_lt b)]
  have h := List.splitOn_append_cons_self_of_not_mem hblank rest
  simp only [Row.number, List.append_assoc, List.singleton_append, words, h]
  rfl

theorem words_columns (columns : List (Option UInt8)) (rest : List Char) :
    words (columns.flatMap Row.number ++ rest) =
      (columns.filterMap id).map Numeral.byte ++ words rest := by
  induction columns with
  | nil => rfl
  | cons b columns ih =>
    rw [List.flatMap_cons, List.append_assoc]
    cases b with
    | none => simp [Row.number, words_blank, ih]
    | some b => simp [words_number, ih]

theorem filterMap_columns (bs : Bytes) (count : Nat) :
    ((List.range count).map fun c => bs[c]?).filterMap id = bs.take count := by
  induction count with
  | zero => rfl
  | succ count ih =>
    rw [List.range_succ, List.map_append, List.filterMap_append, ih, List.take_add_one]
    cases h : bs[count]? with
    | none => simp [h]
    | some b => simp [h]

theorem words_numbers (h : row.bytes.length ≤ bytesPerRow) :
    words (row.numbers 0 8 ++ [' '] ++ row.numbers 8 8) = row.bytes.map Numeral.byte := by
  have hcolumns (first count : Nat) : row.numbers first count =
      ((List.range' first count).map fun c => row.bytes[c]?).flatMap Row.number := by
    rw [List.flatMap_map]
    rfl
  have hsplit : List.range bytesPerRow = List.range' 0 8 ++ List.range' 8 8 := by decide
  have hall := filterMap_columns row.bytes bytesPerRow
  rw [List.take_of_length_le h, hsplit, List.map_append, List.filterMap_append] at hall
  have hend := words_columns ((List.range' 8 8).map fun c => row.bytes[c]?) []
  rw [List.append_nil, show words [] = [] from rfl, List.append_nil] at hend
  rw [List.append_assoc, hcolumns, hcolumns, words_columns, List.singleton_append, words_blank, hend,
    ← List.map_append, hall]

theorem dropWhile_render (row : Row) : row.render.dropWhile (· ≠ ':') =
    [':', ' '] ++ ((row.numbers 0 8 ++ [' '] ++ row.numbers 8 8) ++ row.glyphs) := by
  have hhex : ':' ∉ Numeral.padded 16 4 row.offset := Numeral.not_mem_padded (by decide) (by decide)
  have hdec : ':' ∉ Numeral.padded 10 4 row.offset := Numeral.not_mem_padded (by decide) (by decide)
  have hoffset : ∀ c ∈ Numeral.padded 16 4 row.offset ++ ['('] ++ Numeral.padded 10 4 row.offset ++ [')'],
      (decide (c ≠ ':')) = true := by
    intro c hc
    simp only [decide_eq_true_eq]
    rintro rfl
    simp [hhex, hdec] at hc
  have hrender : row.render =
      (Numeral.padded 16 4 row.offset ++ ['('] ++ Numeral.padded 10 4 row.offset ++ [')']) ++
        ([':', ' '] ++ ((row.numbers 0 8 ++ [' '] ++ row.numbers 8 8) ++ row.glyphs)) := by
    simp [Row.render, Row.offsetText]
  rw [hrender, List.dropWhile_append_of_pos hoffset]
  rfl

theorem groups_render (h : row.bytes.length ≤ bytesPerRow) :
    groups row.render = row.bytes.map Numeral.byte := by
  have hlen : (row.numbers 0 8 ++ [' '] ++ row.numbers 8 8).length = 49 := by
    simp [length_numbers]
  rw [groups, dropWhile_render, List.drop_left' (by rfl), List.take_left' hlen, words_numbers h]

theorem groups_rowAt (bs : Bytes) (r : Nat) :
    groups (rowAt bs r).render = (rowAt bs r).bytes.map Numeral.byte :=
  groups_render (by rw [length_rowAt]; exact Nat.min_le_left _ _)

theorem asciiColumn_render (row : Row) : asciiColumn row.render = row.glyphs := by
  rw [asciiColumn, Row.render]
  apply List.drop_left'
  simp only [List.length_append, Row.length_glyphs]
  omega

theorem flatten_groups (c : Hex.Codec) (ht : '\n' ∉ title) (bs : Bytes) :
    ((dataRows (render title bs)).flatMap groups).flatten = c.encode bs := by
  have hencode : ∀ bs : Bytes, (bs.map Numeral.byte).flatten = c.encode bs := by
    intro bs
    induction bs with
    | nil => exact c.encode_nil.symm
    | cons b bs ih => rw [c.encode_cons, ← ih, List.map_cons, List.flatten_cons]
  calc ((dataRows (render title bs)).flatMap groups).flatten
      = (((List.range (rowCount bs)).flatMap fun r => (rowAt bs r).bytes).map Numeral.byte).flatten := by
        rw [dataRows_render ht, List.flatMap_map, List.map_flatMap]
        simp only [groups_rowAt]
    _ = c.encode bs := by rw [flatMap_rowAt, hencode]

theorem eq_of_render (ht : '\n' ∉ title) (h : render title bs = render title bs') : bs = bs' := by
  apply Hex.encode_injective Hex.pairwise
  rw [← flatten_groups _ ht, ← flatten_groups _ ht, h]

end Numbers

section Columns

theorem offsetText_eq (row : Row) : row.offsetText =
    ((Nat.toDigits 16 row.offset).map Char.toUpper).leftpad 4 '0' ++ ['('] ++
      (Nat.toDigits 10 row.offset).leftpad 4 '0' ++ [')', ':', ' '] := by
  rw [Row.offsetText, Numeral.padded_hexadecimal, Numeral.padded_decimal]

/-- What a row tells: where its bytes start, in both bases, each of them in two digits, and each of them
again as a glyph, with blanks where there are no more. -/
structure Tells (bs : Bytes) (r : Nat) (line : List Char) : Prop where
  offset : ((Nat.toDigits 16 (16 * r)).map Char.toUpper).leftpad 4 '0' ++ ['('] ++
    (Nat.toDigits 10 (16 * r)).leftpad 4 '0' ++ [')', ':', ' '] <+: line
  groups : groups line = ((bs.drop (16 * r)).take 16).map Numeral.byte
  pairs : ∀ g ∈ Dump.groups line, g.length = 2
  places : (asciiColumn line).length = 16
  glyph : ∀ c < 16, ∀ b, bs[16 * r + c]? = some b → (asciiColumn line)[c]? =
    some (if '!'.toNat ≤ b.toNat ∧ b.toNat ≤ '~'.toNat then Char.ofNat b.toNat else '.')
  blank : ∀ c < 16, bs.length ≤ 16 * r + c → (asciiColumn line)[c]? = some ' '

theorem getElem?_asciiColumn (bs : Bytes) (r : Nat) {c : Nat} (h : c < 16) :
    (asciiColumn (rowAt bs r).render)[c]? = some (Row.glyph bs[16 * r + c]?) := by
  have hc : c < bytesPerRow := h
  rw [asciiColumn_render, Row.glyphs, List.getElem?_map, List.getElem?_range hc, Option.map_some,
    getElem?_rowAt bs hc]
  rfl

theorem rowAt_tells (bs : Bytes) (r : Nat) : Tells bs r (rowAt bs r).render where
  offset := by
    rw [Row.render, offsetText_eq]
    simp only [List.append_assoc]
    exact ⟨_, by simp only [List.append_assoc]; rfl⟩
  groups := groups_rowAt bs r
  pairs := by
    rw [groups_rowAt]
    simp [Numeral.byte]
  places := by rw [asciiColumn_render, Row.length_glyphs, bytesPerRow]
  glyph c hc b hb := by
    rw [getElem?_asciiColumn bs r hc, hb]
    rfl
  blank c hc hend := by
    rw [getElem?_asciiColumn bs r hc, List.getElem?_eq_none hend]
    rfl

theorem Tells.length_groups {line : List Char} (h : Tells bs r line) :
    (Dump.groups line).length = min 16 (bs.length - 16 * r) := by
  simp [h.groups]

end Columns

/-- A dump determines its bytes. The digits of all rows in order are read as the bytes, and each row tells
its part of them. -/
theorem dump_determines_bytes (ht : '\n' ∉ title) (bs : Bytes) :
    (dataRows (render title bs)).length = (bs.length + 15) / 16 ∧
    (∀ r line, (dataRows (render title bs))[r]? = some line → Tells bs r line ∧
      (r + 1 < (bs.length + 15) / 16 → (groups line).length = 16)) ∧
    (∀ c : Hex.Codec,
      Hex.decode c (Text.Utf8.encode ((dataRows (render title bs)).flatMap groups).flatten) = .ok bs) ∧
    ∀ bs', render title bs = render title bs' → bs = bs' := by
  refine ⟨?_, ?_, ?_, fun bs' => eq_of_render ht⟩
  · rw [dataRows_render ht, List.length_map, List.length_range, rowCount]
  · intro r line hline
    rw [dataRows_render ht, List.getElem?_map, Option.map_eq_some_iff] at hline
    obtain ⟨r', hr, rfl⟩ := hline
    obtain ⟨hlt, rfl⟩ := List.getElem?_eq_some_iff.1 hr
    rw [List.getElem_range]
    refine ⟨rowAt_tells bs r, fun hfull => ?_⟩
    rw [(rowAt_tells bs r).length_groups]
    omega
  · intro c
    rw [flatten_groups c ht]
    exact (Hex.decode_encode c bs).1

theorem dump_determines_bytes_colons : '\n' ∉ ['t'] ∧
    Hex.decode Hex.pairwise (Text.Utf8.encode
      ((dataRows (render ['t'] [58, 32, 10])).flatMap groups).flatten) = .ok [58, 32, 10] :=
  ⟨by decide, (dump_determines_bytes (show '\n' ∉ ['t'] by decide) [58, 32, 10]).2.2.1 _⟩

end SharedBuffer.Dump
