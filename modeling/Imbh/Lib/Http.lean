import Imbh.Lib.Text

/-!
# HTTP/1.1 requests

The framing of a request: a head of lines, each ended by CR LF, an empty line, and a body of as many bytes
as the head says. A line has no control byte but the tab; a field is a name, a colon and a value, which is
read without the spaces around it.
-/

namespace Imbh.Lib

open List Option

/-! ## ASCII -/

theorem encodeText_eq_flatMap (s : Text) : encodeText s = s.flatMap String.utf8EncodeChar := by
  show (s.flatMap String.utf8EncodeChar).toByteArray.data.toList = _
  rw [data_toByteArray]

theorem encodeText_append (s t : Text) : encodeText (s ++ t) = encodeText s ++ encodeText t := by
  rw [encodeText_eq_flatMap, encodeText_eq_flatMap, encodeText_eq_flatMap, flatMap_append]

/-- The character that bytes begin with is known from them. -/
theorem utf8_cons_inj {c d : Char} {x y : Bytes} (h : String.utf8EncodeChar c ++ x = String.utf8EncodeChar d ++ y) :
    c = d ∧ x = y := by
  have hdecode (c : Char) (x : Bytes) :
      ByteArray.utf8DecodeChar? (String.utf8EncodeChar c ++ x).toByteArray 0 = some c := by
    rw [toByteArray_append]
    exact ByteArray.utf8DecodeChar?_utf8EncodeChar_append
  have hc := hdecode c x
  rw [h, hdecode d y] at hc
  obtain rfl := some.inj hc
  exact ⟨rfl, append_cancel_left h⟩

/-- Bytes behind a text are a text if all is. -/
theorem decodeText_append (s : Text) (b : Bytes) : decodeText (encodeText s ++ b) = (decodeText b).map (s ++ ·) := by
  rcases hb : decodeText b with _ | t
  · rcases hall : decodeText (encodeText s ++ b) with _ | t
    · rfl
    · have hencode := encodeText_of_decodeText hall
      -- the text begins with the first one, character by character
      obtain ⟨t', rfl⟩ : ∃ t', encodeText t' = b := by
        clear hb hall
        induction s generalizing t with
        | nil => exact ⟨t, hencode⟩
        | cons c s ih =>
          rw [encodeText_eq_flatMap t, encodeText_eq_flatMap (c :: s), flatMap_cons, append_assoc] at hencode
          cases t with
          | nil =>
            have hlen := congrArg List.length hencode
            have hpos := Char.utf8Size_pos c
            simp at hlen
            omega
          | cons d t =>
            obtain ⟨-, hrest⟩ := utf8_cons_inj (by simpa using hencode)
            rw [← encodeText_eq_flatMap, ← encodeText_eq_flatMap] at hrest
            exact ih t hrest
      rw [decodeText_encodeText] at hb
      cases hb
  · rw [← encodeText_of_decodeText hb, ← encodeText_append, decodeText_encodeText]
    rfl

/-- A text of ASCII has one byte for each character. -/
theorem encodeText_ascii {s : Text} (h : ∀ c ∈ s, c.toNat < 128) :
    encodeText s = s.map fun c => UInt8.ofNat c.toNat := by
  rw [encodeText_eq_flatMap]
  induction s with
  | nil => rfl
  | cons c s ih =>
    have hc : c.utf8Size = 1 := by
      have hsmall : c.val ≤ 127 := by
        have hlt := h c mem_cons_self
        rw [UInt32.le_iff_toNat_le]
        exact Nat.le_of_lt_succ hlt
      exact Char.utf8Size_eq_one_iff.mpr hsmall
    rw [flatMap_cons, map_cons, ih fun x hx => h x (mem_cons_of_mem _ hx),
      String.utf8EncodeChar_eq_singleton hc]
    rfl

/-! ## Lines -/

def crlf : Bytes := [13, 10]

/-- A byte that may stand in a line. -/
def fieldByte (b : UInt8) : Bool := b = 9 ∨ 32 ≤ b ∧ b ≠ 127

/-- A line without control bytes. -/
def CleanLine (line : Bytes) : Prop := ∀ b ∈ line, fieldByte b = true

instance (line : Bytes) : Decidable (CleanLine line) :=
  List.decidableBAll (fun b => fieldByte b = true) line

/-- The lines up to the empty one and what is behind it; `cur` is the line that has begun. -/
def headLines (cur : Bytes) : Bytes → Option (List Bytes × Bytes)
  | [] => none
  | 13 :: 10 :: rest => if cur = [] then some ([], rest) else (headLines [] rest).map fun r => (cur :: r.1, r.2)
  | b :: rest => if fieldByte b then headLines (cur ++ [b]) rest else none

def isOws (b : UInt8) : Bool := b = 32 ∨ b = 9

/-- A value without the spaces around it. -/
def trimOws (value : Bytes) : Bytes := ((value.dropWhile isOws).reverse.dropWhile isOws).reverse

variable {lines : List Bytes}

end Imbh.Lib
