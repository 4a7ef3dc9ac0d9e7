import Mathlib
import Lox.Prompt
import Lox.Proofs.Lines.Counting

/-! The lines that are typed at a prompt, told from the characters of the input. -/
namespace Lox.Prompt

/-- A carriage return in front of a newline belongs to the end of the line. -/
def withoutReturn (line : List Char) : List Char :=
  if line.getLast? = some '\r' then line.dropLast else line

/-- The pieces between newlines. Behind the last newline there need not be anything. -/
def typed (input : List Char) : List String :=
  let pieces := input.splitOn '\n'
  let last := pieces.getLastD []
  pieces.dropLast.map (fun piece => String.ofList (withoutReturn piece)) ++
    if last.isEmpty then [] else [String.ofList last]

theorem typed_ended {line : List Char} (h : '\n' ∉ line) (rest : List Char) :
    typed (line ++ '\n' :: rest) = String.ofList (withoutReturn line) :: typed rest := by
  have hsplit : (line ++ '\n' :: rest).splitOn '\n' = line :: rest.splitOn '\n' :=
    List.splitOnP_append_cons_of_forall_mem
      (fun _ hc => beq_false_of_ne (ne_of_mem_of_not_mem hc h)) _ (beq_self_eq_true _) _
  have hne : rest.splitOn '\n' ≠ [] := List.splitOnP_ne_nil _ _
  rw [typed, typed, hsplit, List.dropLast_cons_of_ne_nil hne, List.map_cons, List.cons_append]
  cases hrest : rest.splitOn '\n' with
  | nil => exact absurd hrest hne
  | cons piece pieces => rfl

theorem typed_unended {line : List Char} (h : '\n' ∉ line) :
    typed line = if line.isEmpty then [] else [String.ofList line] := by
  have hsplit : line.splitOn '\n' = [line] :=
    List.splitOnP_eq_singleton fun _ hc => beq_false_of_ne (ne_of_mem_of_not_mem hc h)
  rw [typed, hsplit]
  rfl

/-- The bytes of a text. -/
def bytesOf (text : List Char) : List UInt8 := text.flatMap String.utf8EncodeChar

theorem toUTF8_ofList (text : List Char) :
    (String.ofList text).toUTF8 = ⟨(bytesOf text).toArray⟩ := by
  rw [String.toUTF8_eq_toByteArray, String.toByteArray_ofList, List.utf8Encode]
  ext1
  rw [List.data_toByteArray]
  rfl

theorem newline_not_mem {line : List Char} (h : '\n' ∉ line) : 10 ∉ bytesOf line := by
  have hcount : (bytesOf line).count 10 = line.count '\n' := by
    have hbytes := newlineBytes_eq line
    rw [newlineBytes, toUTF8_ofList, List.count_toArray] at hbytes
    exact hbytes
  rw [← List.count_eq_zero, hcount, List.count_eq_zero]
  exact h

theorem fromUTF8?_toUTF8 (s : String) : String.fromUTF8? s.toUTF8 = some s := by
  rw [String.toUTF8_eq_toByteArray, String.fromUTF8?, dif_pos s.isValidUTF8]
  rfl

theorem endsWith_return (line : List Char) :
    (String.ofList line).endsWith "\r" = true ↔ line.getLast? = some '\r' := by
  have hsuffix : (String.ofList line).endsWith "\r" = true ↔ ['\r'] <:+ line := by
    rw [← String.endsWith_toSlice, String.Slice.endsWith_string_iff, String.copy_toSlice,
      @String.toList_ofList line]
    rfl
  rw [hsuffix, List.singleton_suffix_iff_getLast?_eq_some]

theorem ofBytes_ended (line : List Char) :
    Line.ofBytes ⟨(bytesOf line).toArray⟩ true = .text (String.ofList (withoutReturn line)) := by
  rw [← toUTF8_ofList, Line.ofBytes, fromUTF8?_toUTF8, withoutReturn]
  simp only [Bool.true_and, endsWith_return, String.toList_ofList]
  split <;> rfl

theorem ofBytes_unended (line : List Char) :
    Line.ofBytes ⟨(bytesOf line).toArray⟩ false = .text (String.ofList line) := by
  rw [← toUTF8_ofList, Line.ofBytes, fromUTF8?_toUTF8]
  rfl

theorem isEmpty_bytesOf (text : List Char) : (bytesOf text).isEmpty = text.isEmpty := by
  cases text with
  | nil => rfl
  | cons c text =>
    have hc : String.utf8EncodeChar c ≠ [] := by
      rw [← List.length_pos_iff, String.length_utf8EncodeChar]
      exact c.utf8Size_pos
    simp [bytesOf, hc]

/-- The lines of the bytes of a text are the typed ones. -/
theorem lines_bytesOf (text : List Char) :
    lines ⟨(bytesOf text).toArray⟩ = (typed text).map .text := by
  by_cases h : '\n' ∈ text
  · obtain ⟨line, rest, rfl, hline⟩ := List.eq_append_cons_of_mem h
    have hbytes : bytesOf (line ++ '\n' :: rest) = bytesOf line ++ 10 :: bytesOf rest :=
      List.flatMap_append
    have hshorter : rest.length < (line ++ '\n' :: rest).length := by
      rw [List.length_append, List.length_cons]
      omega
    rw [hbytes, lines_ended (newline_not_mem hline), typed_ended hline, List.map_cons,
      ofBytes_ended, lines_bytesOf rest]
  · rw [lines_unended (newline_not_mem h), typed_unended h, isEmpty_bytesOf]
    split
    next => rfl
    next => rw [ofBytes_unended, List.map_singleton]
termination_by text.length

theorem lines_toUTF8 (input : String) : lines input.toUTF8 = (typed input.toList).map .text := by
  rw [← lines_bytesOf, ← toUTF8_ofList, String.ofList_toList]

end Lox.Prompt
