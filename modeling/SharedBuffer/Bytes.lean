/-!
Byte strings, their windows, and overwriting a window in place. Main statements: a splice keeps
the length, shows the new bytes inside its range and the old ones outside.
-/

namespace SharedBuffer

abbrev Bytes := List UInt8

namespace Bytes

def zeros (n : Nat) : Bytes := List.replicate n 0

theorem length_zeros (n : Nat) : (zeros n).length = n := List.length_replicate

def window (bs : Bytes) (start n : Nat) : Bytes := (bs.drop start).take n

theorem length_window {start n : Nat} {bs : Bytes} (h : start + n ≤ bs.length) :
    (bs.window start n).length = n := by
  simp only [window, List.length_take, List.length_drop]
  omega

theorem window_whole (bs : Bytes) : bs.window 0 bs.length = bs := by simp [window]

theorem getElem?_window (start n j : Nat) (bs : Bytes) :
    (bs.window start n)[j]? = if j < n then bs[start + j]? else none := by
  simp [window, List.getElem?_take, List.getElem?_drop]

theorem window_window {i j n m : Nat} (bs : Bytes) (h : j + m ≤ n) :
    (bs.window i n).window j m = bs.window (i + j) m := by
  refine List.ext_getElem? fun k => ?_
  simp only [getElem?_window, Nat.add_assoc]
  split
  · rw [if_pos (by omega)]
  · rfl

def splice (bs : Bytes) (start : Nat) (src : Bytes) : Bytes :=
  bs.take start ++ src ++ bs.drop (start + src.length)

theorem length_splice {start : Nat} {src bs : Bytes} (h : start + src.length ≤ bs.length) :
    (bs.splice start src).length = bs.length := by
  simp only [splice, List.length_append, List.length_take, List.length_drop]
  omega

theorem splice_nil {start : Nat} (bs : Bytes) : bs.splice start [] = bs := by simp [splice]

theorem getElem?_splice {start : Nat} {src bs : Bytes} (h : start + src.length ≤ bs.length)
    (j : Nat) :
    (bs.splice start src)[j]? =
      if start ≤ j ∧ j < start + src.length then src[j - start]? else bs[j]? := by
  have ht : (bs.take start).length = start := by rw [List.length_take]; omega
  rw [splice, List.append_assoc, List.getElem?_append, ht]
  by_cases h1 : j < start
  · rw [if_pos h1, if_neg (by omega), List.getElem?_take, if_pos h1]
  · rw [if_neg h1, List.getElem?_append]
    by_cases h2 : j - start < src.length
    · rw [if_pos h2, if_pos (by omega)]
    · rw [if_neg h2, if_neg (by omega), List.getElem?_drop]
      congr 1
      omega

theorem window_splice {start : Nat} {src bs : Bytes} (h : start + src.length ≤ bs.length) :
    (bs.splice start src).window start src.length = src := by
  refine List.ext_getElem? fun j => ?_
  rw [getElem?_window, getElem?_splice h]
  by_cases hj : j < src.length
  · rw [if_pos hj, if_pos (by omega), Nat.add_sub_cancel_left]
  · rw [if_neg hj, List.getElem?_eq_none (by omega)]

theorem window_splice_outside {start i n : Nat} {src bs : Bytes}
    (h : start + src.length ≤ bs.length) (ho : i + n ≤ start ∨ start + src.length ≤ i) :
    (bs.splice start src).window i n = bs.window i n := by
  refine List.ext_getElem? fun j => ?_
  rw [getElem?_window, getElem?_window, getElem?_splice h]
  split
  · rw [if_neg (by omega)]
  · rfl

def moveWithin (bs : Bytes) (src n dest : Nat) : Bytes :=
  bs.splice dest (bs.window src n)

def fit (bs : Bytes) (n : Nat) : Bytes := bs.take n ++ zeros (n - bs.length)

theorem length_fit (bs : Bytes) (n : Nat) : (bs.fit n).length = n := by
  simp only [fit, List.length_append, List.length_take, length_zeros]
  omega

end Bytes

end SharedBuffer
