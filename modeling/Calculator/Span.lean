/-
  Places in the expression text. A place is a byte offset into the UTF-8 form
  of the text, so a character moves it by its encoded width, and a span is a
  half-open interval of offsets.
-/

namespace Calculator

/-- A piece of the expression text: byte offsets, the end exclusive. -/
structure Span where
  start : Nat
  stop : Nat
  deriving DecidableEq, Repr, Inhabited

/-- The empty span at an offset. -/
def Span.point (offset : Nat) : Span := ⟨offset, offset⟩

/-- The number of bytes that the characters take in UTF-8. -/
def byteLength : List Char → Nat
  | [] => 0
  | c :: cs => c.utf8Size + byteLength cs

theorem byteLength_append (cs ds : List Char) :
    byteLength (cs ++ ds) = byteLength cs + byteLength ds := by
  induction cs with
  | nil => simp [byteLength]
  | cons c cs ih => simp [byteLength, ih, Nat.add_assoc]

/-- Only the empty text takes no bytes. -/
theorem length_le_byteLength (cs : List Char) : cs.length ≤ byteLength cs := by
  induction cs with
  | nil => exact Nat.le_refl 0
  | cons c cs ih =>
    have := Char.utf8Size_pos c
    simp only [List.length_cons, byteLength]
    omega

/-- No character takes more than four bytes. -/
theorem byteLength_le (cs : List Char) : byteLength cs ≤ 4 * cs.length := by
  induction cs with
  | nil => exact Nat.zero_le _
  | cons c cs ih =>
    have := Char.utf8Size_le_four c
    rw [byteLength, List.length_cons]
    omega

theorem byteLength_toList (s : String) : byteLength s.toList = s.utf8ByteSize := by
  have hofList (cs : List Char) : (String.ofList cs).utf8ByteSize = byteLength cs := by
    induction cs with
    | nil => simp [byteLength]
    | cons c cs ih =>
      rw [byteLength, ← ih, ← String.utf8ByteSize_singleton, ← String.utf8ByteSize_append,
        String.singleton_eq_ofList, ← String.ofList_append]
      rfl
  rw [← hofList, String.ofList_toList]

end Calculator
