import Lox.Proofs.Lines.Bounds

/-! Lines count newlines: every newline of a source, in whatever segment it is, moves the lines of
all that ends behind it by one. -/
namespace Lox

/-- The newlines in a text, counted in its bytes. -/
def newlineBytes (text : List Char) : Nat := (String.ofList text).toUTF8.data.count 0x0a

/-- Of the bytes of a character only a newline's is a newline: those of a longer character are 128
or more. -/
theorem count_utf8EncodeChar (c : Char) :
    (String.utf8EncodeChar c).count 0x0a = [c].count '\n' := by
  have hc : c = '\n' ↔ c.val.toNat = 10 := by
    rw [Char.ext_iff, UInt32.toNat_inj.symm]
    rfl
  have hbyte (n : Nat) : 0x0a = UInt8.ofNat n ↔ n % 256 = 10 := by
    rw [eq_comm, ← UInt8.toNat_inj, UInt8.toNat_ofNat']
    rfl
  unfold String.utf8EncodeChar
  simp only [List.count_singleton, beq_iff_eq, hc]
  generalize c.val.toNat = v
  split
  next h =>
    have hv : UInt8.ofNat v = 0x0a ↔ v = 10 := by
      rw [@eq_comm UInt8, hbyte, Nat.mod_eq_of_lt (by omega)]
    simp only [List.count_singleton, beq_iff_eq, hv]
  next h =>
    have hv : ¬ v = 10 := by omega
    rw [if_neg hv, List.count_eq_zero]
    split
    · simp only [List.mem_cons, List.not_mem_nil, hbyte, or_false]
      omega
    split
    · simp only [List.mem_cons, List.not_mem_nil, hbyte, or_false]
      omega
    · simp only [List.mem_cons, List.not_mem_nil, hbyte, or_false]
      omega

theorem newlineBytes_eq (text : List Char) : newlineBytes text = newlines text := by
  have hcount : (text.flatMap String.utf8EncodeChar).count 0x0a = text.count '\n' := by
    induction text with
    | nil => rfl
    | cons c text ih =>
      rw [List.flatMap_cons, List.count_append, count_utf8EncodeChar, ih, ← List.count_append]
      rfl
  have hbytes : (String.ofList text).toUTF8.data =
      (text.flatMap String.utf8EncodeChar).toArray := by
    rw [String.toUTF8_eq_toByteArray, String.toByteArray_ofList, List.utf8Encode,
      List.data_toByteArray]
  rw [newlineBytes, hbytes, List.count_toArray, hcount]
  rfl

namespace Segment

/-- Segments, each with the text before it. -/
def placed (before : List Char) : List Segment → List (List Char × Segment)
  | [] => []
  | s :: rest => (before, s) :: placed (before ++ s.text) rest

end Segment

end Lox
