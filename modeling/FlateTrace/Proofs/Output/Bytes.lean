import FlateTrace.Deflate.Written
import FlateTrace.Output.Bytes

/-! # Written bytes as lists

The byte string that a decode writes, read as a list: a literal is put behind it, and a
copy of many bytes is the copy that streams are explained with (`copyBytes`).
-/

namespace FlateTrace

theorem byteAt_eq_getD (data : ByteArray) (position : Nat) :
    byteAt data position = data.data.toList.getD position 0 := by
  by_cases inside : position < data.size
  · have inside' : position < data.data.toList.length := inside
    rw [byteAt_of_lt inside, List.getD_eq_getElem?_getD, List.getElem?_eq_getElem inside']
    rfl
  · have outside : data.data.toList.length ≤ position := Nat.le_of_not_lt inside
    rw [byteAt_of_le (Nat.le_of_not_lt inside), List.getD_eq_getElem?_getD,
      List.getElem?_eq_none outside]
    rfl

theorem toList_push (data : ByteArray) (value : UInt8) :
    (data.push value).data.toList = data.data.toList ++ [value] :=
  Array.toList_push

/-- A copy writes the bytes that it stands for. -/
theorem toList_acceptCopy (distance : Nat) (serial : UInt32) (length : Nat) (cost : UInt32)
    (output : ByteArray) :
    (OutputSink.acceptCopy distance serial length cost output).data.toList =
      copyBytes distance length output.data.toList := by
  induction length generalizing cost output with
  | zero => rfl
  | succ length ih =>
      rw [OutputSink.acceptCopy, ih, copyBytes]
      congr 1
      change (output.push (byteAt output (output.size - distance))).data.toList = _
      rw [toList_push, byteAt_eq_getD]
      rfl

theorem length_copyBytes (distance length : Nat) (output : List UInt8) :
    (copyBytes distance length output).length = output.length + length := by
  induction length generalizing output with
  | zero => rfl
  | succ length ih =>
      rw [copyBytes, ih, List.length_append, List.length_singleton]
      omega

/-- No token shortens the output. -/
theorem WrittenToken.length_le_of_expand? {written : WrittenToken} {output longer : List UInt8}
    (expanded : written.expand? output = some longer) : output.length ≤ longer.length := by
  obtain ⟨token, -, expanded⟩ := Option.bind_eq_some_iff.mp expanded
  cases token with
  | literal value =>
      obtain rfl := Option.some.inj expanded
      rw [List.length_append]
      exact Nat.le_add_right _ _
  | copy length distance =>
      rw [Token.expand?] at expanded
      split at expanded
      · obtain rfl := Option.some.inj expanded
        rw [length_copyBytes]
        exact Nat.le_add_right _ _
      · exact nomatch expanded
  | endOfBlock =>
      obtain rfl := Option.some.inj expanded
      exact Nat.le_refl _

/-- A fold that never shortens the output in a step never shortens it. -/
theorem length_le_of_foldlM {α : Type} {step : List UInt8 → α → Option (List UInt8)}
    (grows : ∀ {item output longer}, step output item = some longer → output.length ≤ longer.length)
    {items : List α} {output longer : List UInt8}
    (expanded : items.foldlM step output = some longer) : output.length ≤ longer.length := by
  induction items generalizing output with
  | nil =>
      obtain rfl := Option.some.inj expanded
      exact Nat.le_refl _
  | cons item items ih =>
      rw [List.foldlM_cons] at expanded
      obtain ⟨middle, first, rest⟩ := Option.bind_eq_some_iff.mp expanded
      exact Nat.le_trans (grows first) (ih rest)

/-- No block shortens the output. -/
theorem WrittenBlock.length_le_of_expand? {block : WrittenBlock} {output longer : List UInt8}
    (expanded : block.expand? output = some longer) : output.length ≤ longer.length := by
  cases block with
  | stored padding bytes =>
      obtain rfl := Option.some.inj expanded
      rw [List.length_append]
      exact Nat.le_add_right _ _
  | fixed tokens => exact length_le_of_foldlM WrittenToken.length_le_of_expand? expanded
  | dynamic description tokens =>
      exact length_le_of_foldlM WrittenToken.length_le_of_expand? expanded

end FlateTrace
