import CommonTools.Lib.CString

/-! # Writing into a buffer

A buffer of a fixed size is overwritten piece by piece. What stands in front of
a piece stays. -/
namespace CommonTools.Lib

variable {α : Type}

/-- `buf` with `piece` from position `pos` on. -/
def writeAt (buf : List α) (pos : Nat) (piece : List α) : List α :=
  buf.take pos ++ piece ++ buf.drop (pos + piece.length)

section
variable {buf piece : List α} {pos : Nat}

theorem writeAt_length (h : pos + piece.length ≤ buf.length) :
    (writeAt buf pos piece).length = buf.length := by
  rw [writeAt, List.length_append, List.length_append, List.length_take, List.length_drop]
  omega

/-- What is read up to the end of the piece. -/
theorem take_writeAt (h : pos ≤ buf.length) :
    (writeAt buf pos piece).take (pos + piece.length) = buf.take pos ++ piece := by
  rw [writeAt, List.take_left']
  rw [List.length_append, List.length_take, Nat.min_eq_left h]

/-- A piece that reaches the end of the buffer ends it. -/
theorem writeAt_to_end (h : pos + piece.length = buf.length) :
    writeAt buf pos piece = buf.take pos ++ piece := by
  rw [writeAt, List.drop_eq_nil_of_le (Nat.le_of_eq h.symm), List.append_nil]

end

/-- What `snprintf(dest + pos, size, …)` leaves in `dest`: the text, cut where
its terminator has to stand. -/
def printAt (dest : Bytes) (pos size : Nat) (text : Bytes) : Bytes :=
  if size = 0 then dest else writeAt dest pos (text.take (size - 1) ++ [0])

section
variable {dest text : Bytes} {pos : Nat}

theorem printAt_length (h : pos ≤ dest.length) :
    (printAt dest pos (dest.length - pos) text).length = dest.length := by
  rw [printAt]
  split
  · rfl
  · refine writeAt_length ?_
    rw [List.length_append, List.length_take, List.length_singleton]
    omega

/-- A text that leaves room for its terminator is written with it. -/
theorem take_printAt_nul (h : pos + text.length < dest.length) :
    (printAt dest pos (dest.length - pos) text).take (pos + text.length + 1) =
      dest.take pos ++ text ++ [0] := by
  have hfits : text.take (dest.length - pos - 1) = text := List.take_of_length_le (by omega)
  have hall := @take_writeAt _ dest (text ++ [0]) pos (by omega)
  rw [printAt, if_neg (by omega), hfits]
  rwa [List.length_append, List.length_singleton, ← Nat.add_assoc, ← List.append_assoc] at hall

theorem take_printAt (h : pos + text.length < dest.length) :
    (printAt dest pos (dest.length - pos) text).take (pos + text.length) =
      dest.take pos ++ text := by
  have hcut := congrArg (List.take (pos + text.length)) (take_printAt_nul h)
  rw [List.take_take, Nat.min_eq_left (by omega)] at hcut
  rw [hcut, List.take_left']
  rw [List.length_append, List.length_take, Nat.min_eq_left (by omega)]

/-- A text that does not leave it loses its end to the terminator. -/
theorem getLast?_printAt (hpos : pos < dest.length) (h : dest.length ≤ pos + text.length) :
    (printAt dest pos (dest.length - pos) text).getLast? = some 0 := by
  have hlen : (text.take (dest.length - pos - 1) ++ [0]).length = dest.length - pos := by
    rw [List.length_append, List.length_take, List.length_singleton]
    omega
  rw [printAt, if_neg (by omega), writeAt_to_end (by omega), ← List.append_assoc,
    List.getLast?_concat]

end

end CommonTools.Lib
