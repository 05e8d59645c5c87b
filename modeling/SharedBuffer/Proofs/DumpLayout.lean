import SharedBuffer.Dump

/-!
The lines of a dump and their widths. A banner fills its line as long as the title leaves room for the
marker, and the columns of a row stand at fixed places behind its offset. The offset itself is only padded,
so a row has the width of a banner as long as four places are enough for it in both bases.
-/

namespace SharedBuffer

namespace Numeral

variable {base n width : Nat} {c : Char}

theorem digits_eq_map {spell : Char → Char} (hbase : 2 ≤ base)
    (hspell : ∀ v < base, digit v = spell (Nat.digitChar v)) (n : Nat) :
    digits base n = (Nat.toDigits base n).map spell := by
  fun_induction digits base n with
  | case1 n h =>
    have hn : n < base := by omega
    rw [Nat.toDigits_of_lt_base hn, hspell n hn]
    rfl
  | case2 n h ih =>
    rw [Nat.toDigits_eq_if (by omega), if_neg (by omega), List.map_append, ih,
      hspell (n % base) (Nat.mod_lt _ (by omega))]
    rfl

theorem padded_hexadecimal (width n : Nat) :
    padded 16 width n = ((Nat.toDigits 16 n).map Char.toUpper).leftpad width '0' := by
  have hspell : ∀ v < 16, digit v = (Nat.digitChar v).toUpper := by decide
  rw [padded, digits_eq_map (by decide) hspell]
  rfl

theorem padded_decimal (width n : Nat) : padded 10 width n = (Nat.toDigits 10 n).leftpad width '0' := by
  have hspell : ∀ v < 10, digit v = id (Nat.digitChar v) := by decide
  rw [padded, digits_eq_map (by decide) hspell, List.map_id]
  rfl

theorem exists_digit_of_mem_digits (hlow : 2 ≤ base) (h : c ∈ digits base n) : ∃ v < base, c = digit v := by
  fun_induction digits base n with
  | case1 n hn => exact ⟨n, by omega, List.mem_singleton.1 h⟩
  | case2 n hn ih =>
    rcases List.mem_append.1 h with h | h
    · exact ih h
    · exact ⟨n % base, Nat.mod_lt _ (by omega), List.mem_singleton.1 h⟩

theorem not_mem_padded (hlow : 2 ≤ base) (hhigh : base ≤ 16)
    (hc : ∀ v < 16, c ≠ digit v := by decide) : c ∉ padded base width n := by
  intro h
  rcases List.mem_append.1 h with h | h
  · exact hc 0 (by decide) (List.eq_of_mem_replicate h)
  · obtain ⟨v, hv, hdigit⟩ := exists_digit_of_mem_digits hlow h
    exact hc v (by omega) hdigit

end Numeral

namespace Dump

variable {title marker : List Char} {bs : Bytes} {row : Row}

def rowAt (bs : Bytes) (r : Nat) : Row := ⟨bytesPerRow * r, (bs.drop (bytesPerRow * r)).take bytesPerRow⟩

def rowCount (bs : Bytes) : Nat := (bs.length + 15) / 16

theorem rowCount_drop (h : bs ≠ []) : rowCount bs = rowCount (bs.drop bytesPerRow) + 1 := by
  have := List.length_pos_iff.2 h
  simp only [rowCount, List.length_drop, bytesPerRow]
  omega

theorem rowsFrom_eq_map (offset : Nat) (bs : Bytes) :
    rowsFrom offset bs = (List.range (rowCount bs)).map fun r =>
      ⟨offset + bytesPerRow * r, (bs.drop (bytesPerRow * r)).take bytesPerRow⟩ := by
  fun_induction rowsFrom offset bs with
  | case1 offset => rfl
  | case2 offset bs h ih =>
    rw [rowCount_drop h, List.range_succ_eq_map, List.map_cons, List.map_map, ih]
    congr 1
    apply List.map_congr_left
    intro r _
    have hnext : bytesPerRow * (r + 1) = bytesPerRow + bytesPerRow * r := by
      simp only [bytesPerRow]
      omega
    simp only [Function.comp_apply, Nat.succ_eq_add_one, hnext, List.drop_drop, Nat.add_assoc]

theorem rows_eq_map (bs : Bytes) : rows bs = (List.range (rowCount bs)).map (rowAt bs) := by
  rw [rows, rowsFrom_eq_map]
  simp only [Nat.zero_add]
  rfl

section Widths

theorem length_number (b : Option UInt8) : (Row.number b).length = 3 := by
  cases b with
  | none => rfl
  | some b => rfl

theorem length_numbers (row : Row) (first count : Nat) : (row.numbers first count).length = 3 * count := by
  induction count generalizing first with
  | zero => rfl
  | succ count ih =>
    rw [Row.numbers, List.range'_succ, List.flatMap_cons, List.length_append, length_number]
    have := ih (first + 1)
    rw [Row.numbers] at this
    omega

theorem length_row (row : Row) : row.render.length =
    69 + max 4 (Nat.toDigits 16 row.offset).length + max 4 (Nat.toDigits 10 row.offset).length := by
  simp only [Row.render, Row.offsetText, List.length_append, length_numbers, Row.length_glyphs, bytesPerRow,
    Numeral.padded_hexadecimal, Numeral.padded_decimal, List.length_leftpad, List.length_map,
    List.length_cons, List.length_nil]
  omega

theorem length_row_eq_width_iff : row.render.length = width ↔ row.offset < 10000 := by
  have hdec := Nat.length_toDigits_le_iff (b := 10) (k := 4) (n := row.offset) (by decide) (by decide)
  have hhex := Nat.length_toDigits_le_iff (b := 16) (k := 4) (n := row.offset) (by decide) (by decide)
  rw [length_row, width]
  omega

theorem length_banner (h : title.length + marker.length < width) : (banner title marker).length = width := by
  simp only [banner, List.length_append, List.length_replicate, List.length_cons, List.length_nil]
  omega

theorem length_lines (title : List Char) (bs : Bytes) : (lines title bs).length = rowCount bs + 2 := by
  simp [lines, rows_eq_map]

theorem getElem?_lines_succ {r : Nat} (h : r < rowCount bs) :
    (lines title bs)[r + 1]? = some (rowAt bs r).render := by
  rw [lines, rows_eq_map, List.map_map, List.append_assoc, List.singleton_append, List.getElem?_cons_succ,
    List.getElem?_append_left (by simpa using h), List.getElem?_map, List.getElem?_range h]
  rfl

theorem length_outer (h : title.length ≤ 69) :
    (banner title ['[', 'b', 'e', 'g', 'i', 'n', ']']).length = width ∧
      (banner title ['[', 'e', 'n', 'd', ']']).length = width :=
  ⟨length_banner (Nat.lt_of_le_of_lt (Nat.add_le_add_right h 7) (by decide)),
    length_banner (Nat.lt_of_le_of_lt (Nat.add_le_add_right h 5) (by decide))⟩

theorem banners_fixed (h : title.length ≤ 69) {i : Nat} {line : List Char} (hi : i = 0 ∨ i = rowCount bs + 1)
    (hline : (lines title bs)[i]? = some line) : line.length = width := by
  obtain ⟨hbegin, hend⟩ := length_outer h
  rcases hi with rfl | rfl
  · cases hline
    exact hbegin
  · rw [lines, List.getElem?_append_right (by simp [rows_eq_map])] at hline
    simp only [rows_eq_map, List.length_append, List.length_map, List.length_range, List.length_singleton,
      Nat.add_comm 1, Nat.sub_self, List.getElem?_cons_zero, Option.some.injEq] at hline
    rw [← hline, hend]

/-- The last row starts before byte 10000 as long as there is no byte beyond it. -/
theorem lines_fixed_iff (h : title.length ≤ 69) :
    (∀ line ∈ lines title bs, line.length = width) ↔ bs.length ≤ 10000 := by
  obtain ⟨hbegin, hend⟩ := length_outer h
  simp only [lines, rows_eq_map, List.mem_append, List.mem_singleton, List.mem_map, List.mem_range]
  constructor
  · intro hall
    apply Nat.le_of_not_lt
    intro hlong
    have hrow := hall _ (.inl (.inr ⟨rowAt bs 625, ⟨625, by simp only [rowCount]; omega, rfl⟩, rfl⟩))
    exact Nat.lt_irrefl 10000 (length_row_eq_width_iff.1 hrow)
  · rintro hshort line ((rfl | ⟨_, ⟨r, hr, rfl⟩, rfl⟩) | rfl)
    · exact hbegin
    · refine length_row_eq_width_iff.2 ?_
      simp only [rowCount] at hr
      simp only [rowAt, bytesPerRow]
      omega
    · exact hend

end Widths

section Lines

theorem newline_not_mem_number (b : Option UInt8) : '\n' ∉ Row.number b := by
  cases b with
  | none => decide
  | some b =>
    have hdigit : ∀ v < 16, '\n' ≠ Numeral.digit v := by decide
    have := b.toNat_lt
    simp [Row.number, Numeral.byte, hdigit (b.toNat / 16) (by omega),
      hdigit (b.toNat % 16) (Nat.mod_lt _ (by decide))]

theorem newline_ne_glyph (b : Option UInt8) : '\n' ≠ Row.glyph b := by
  cases b with
  | none => decide
  | some b =>
    simp only [Row.glyph]
    split
    · have hall : ∀ n, 33 ≤ n → n ≤ 126 → '\n' ≠ Char.ofNat n := by
        intro n hlow hhigh
        have : ∀ n < 127, 33 ≤ n → '\n' ≠ Char.ofNat n := by decide
        exact this n (by omega) hlow
      exact hall _ (by omega) (by omega)
    · decide

theorem newline_not_mem_row (row : Row) : '\n' ∉ row.render := by
  simp only [Row.render, Row.offsetText, Row.numbers, Row.glyphs, List.mem_append, List.mem_flatMap,
    List.mem_map, not_or, not_exists, not_and]
  have hhex : '\n' ∉ Numeral.padded 16 4 row.offset := Numeral.not_mem_padded (by decide) (by decide)
  have hdec : '\n' ∉ Numeral.padded 10 4 row.offset := Numeral.not_mem_padded (by decide) (by decide)
  refine ⟨⟨⟨⟨⟨⟨⟨hhex, by decide⟩, hdec⟩, by decide⟩, ?_⟩, by decide⟩, ?_⟩, ?_⟩
  · exact fun _ _ => newline_not_mem_number _
  · exact fun _ _ => newline_not_mem_number _
  · exact fun _ _ h => newline_ne_glyph _ h.symm

theorem newline_not_mem_banner (ht : '\n' ∉ title) (hm : '\n' ∉ marker) : '\n' ∉ banner title marker := by
  simp [banner, ht, hm, List.mem_replicate]

theorem newline_not_mem_lines (ht : '\n' ∉ title) : ∀ line ∈ lines title bs, '\n' ∉ line := by
  simp only [lines, List.mem_append, List.mem_singleton, List.mem_map]
  rintro line ((rfl | ⟨row, -, rfl⟩) | rfl)
  · exact newline_not_mem_banner ht (by decide)
  · exact newline_not_mem_row row
  · exact newline_not_mem_banner ht (by decide)

theorem splitOn_joined {ls : List (List Char)} (h : ∀ line ∈ ls, '\n' ∉ line) :
    (ls.flatMap fun line => line ++ ['\n']).splitOn '\n' = ls ++ [[]] := by
  induction ls with
  | nil => rfl
  | cons line ls ih =>
    obtain ⟨hline, hls⟩ := List.forall_mem_cons.1 h
    rw [List.flatMap_cons, List.append_assoc, List.singleton_append,
      List.splitOn_append_cons_self_of_not_mem hline, ih hls, List.cons_append]

theorem splitOn_render (ht : '\n' ∉ title) (bs : Bytes) :
    (render title bs).splitOn '\n' = lines title bs ++ [[]] :=
  splitOn_joined (newline_not_mem_lines ht)

end Lines

/-- The lines of a dump are a banner, a row for each sixteen bytes and a banner, each ended by a line feed.
A row is as wide as its offset makes it, and all lines are of one width up to ten thousand bytes. -/
theorem lines_of_one_width_iff (ht : '\n' ∉ title) (h : title.length ≤ 69) (bs : Bytes) :
    (render title bs).splitOn '\n' = lines title bs ++ [[]] ∧
    (lines title bs).length = (bs.length + 15) / 16 + 2 ∧
    (∀ i line, i = 0 ∨ i = (bs.length + 15) / 16 + 1 → (lines title bs)[i]? = some line →
      line.length = width) ∧
    (∀ r < (bs.length + 15) / 16, ∃ line, (lines title bs)[r + 1]? = some line ∧
      line.length =
        69 + max 4 (Nat.toDigits 16 (16 * r)).length + max 4 (Nat.toDigits 10 (16 * r)).length) ∧
    ((∀ line ∈ lines title bs, line.length = width) ↔ bs.length ≤ 10000) :=
  ⟨splitOn_render ht bs, length_lines title bs, fun _ _ => banners_fixed h,
    fun _ hr => ⟨_, getElem?_lines_succ hr, length_row _⟩, lines_fixed_iff h⟩

theorem lines_of_one_width_two_rows : '\n' ∉ ['t'] ∧ (['t'] : List Char).length ≤ 69 ∧
    ∀ line ∈ lines ['t'] (List.replicate 17 7), line.length = width :=
  ⟨by decide, by decide, (lines_of_one_width_iff (show '\n' ∉ ['t'] by decide) (by decide)
    (List.replicate 17 7)).2.2.2.2.2 (by decide)⟩

/-- The byte behind the first ten thousand starts a row whose decimal offset has five digits. -/
theorem row_beyond_width : ¬∀ line ∈ lines ['t'] (List.replicate 10001 0), line.length = width := by
  rw [lines_fixed_iff (by decide), List.length_replicate]
  decide

end Dump

end SharedBuffer
