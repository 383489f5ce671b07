import Mathlib.Data.List.GetD
import Imbh.Lib.Text

/-!
# The bits of byte sequences

Bits are counted from the most significant bit of the first byte.
-/

namespace Imbh.Lib

open List

def bitAt (l : Bytes) (i : ℕ) : Bool := (l.getD (i / 8) 0).toBitVec.getMsbD (i % 8)

/-- The mask of the first bits of a byte, of which there are one to seven. -/
def maskFirst (bits : ℕ) : UInt8 := 0xff <<< UInt8.ofNat (8 - bits)

/-- Do the first bits agree? -/
def prefixEq (a b : Bytes) (n : ℕ) : Bool :=
  a.take (n / 8) = b.take (n / 8) &&
    if n % 8 = 0 then true
    else a.getD (n / 8) 0 &&& maskFirst (n % 8) = b.getD (n / 8) 0 &&& maskFirst (n % 8)

/-- The first bits, and zeros behind them. -/
def clearBits (l : Bytes) (n : ℕ) : Bytes :=
  l.mapIdx fun j byte =>
    if j < n / 8 then byte
    else if j = n / 8 then byte &&& (if n % 8 = 0 then 0 else maskFirst (n % 8))
    else 0

/-! ## Bytes -/

theorem maskFirst_getMsbD {bits i : ℕ} (hpos : 0 < bits) (hbits : bits < 8) (hi : i < 8) :
    (maskFirst bits).toBitVec.getMsbD i = decide (i < bits) := by
  have hall : ∀ bits : Fin 8, 0 < bits.val → ∀ i : Fin 8,
      (maskFirst bits).toBitVec.getMsbD i = decide (i.val < bits.val) := by decide
  exact hall ⟨bits, hbits⟩ hpos ⟨i, hi⟩

theorem byte_ext {x y : UInt8} (h : ∀ i < 8, x.toBitVec.getMsbD i = y.toBitVec.getMsbD i) : x = y :=
  UInt8.toBitVec_inj.mp (BitVec.eq_of_getMsbD_eq h)

theorem getMsbD_and (x y : UInt8) (i : ℕ) :
    (x &&& y).toBitVec.getMsbD i = (x.toBitVec.getMsbD i && y.toBitVec.getMsbD i) := by
  rw [UInt8.toBitVec_and, BitVec.getMsbD_and]

/-- Two bytes agree under a mask if their first bits do. -/
theorem and_maskFirst_eq_iff {x y : UInt8} {bits : ℕ} (hpos : 0 < bits) (hbits : bits < 8) :
    x &&& maskFirst bits = y &&& maskFirst bits ↔
      ∀ j < bits, x.toBitVec.getMsbD j = y.toBitVec.getMsbD j := by
  constructor
  · intro h j hj
    have hbit := congrArg (fun b : UInt8 => b.toBitVec.getMsbD j) h
    simpa only [getMsbD_and, maskFirst_getMsbD hpos hbits (hj.trans hbits), hj, decide_true, Bool.and_true]
      using hbit
  · intro h
    refine byte_ext fun j hj => ?_
    rw [getMsbD_and, getMsbD_and, maskFirst_getMsbD hpos hbits hj]
    by_cases hlt : j < bits
    · rw [h j hlt]
    · simp [hlt]

/-! ## Sequences -/

section

variable {a b l : Bytes} {n : ℕ}

theorem bitAt_byte (l : Bytes) (j : ℕ) {i : ℕ} (hi : i < 8) :
    bitAt l (8 * j + i) = (l.getD j 0).toBitVec.getMsbD i := by
  unfold bitAt
  rw [Nat.mul_add_div (by omega), Nat.div_eq_of_lt hi, Nat.add_zero, Nat.mul_add_mod, Nat.mod_eq_of_lt hi]

theorem byte_eq_iff (j : ℕ) :
    a.getD j 0 = b.getD j 0 ↔ ∀ i < 8, bitAt a (8 * j + i) = bitAt b (8 * j + i) := by
  constructor
  · intro h i hi
    rw [bitAt_byte a j hi, bitAt_byte b j hi, h]
  · intro h
    refine byte_ext fun i hi => ?_
    rw [← bitAt_byte a j hi, ← bitAt_byte b j hi, h i hi]

/-- The bits determine the bytes. -/
theorem bytes_ext (hlen : a.length = b.length) (h : ∀ i, bitAt a i = bitAt b i) : a = b := by
  refine ext_getElem hlen fun j ha hb => ?_
  have hbyte := (byte_eq_iff j).mpr fun i _ => h (8 * j + i)
  rwa [getD_eq_getElem _ _ ha, getD_eq_getElem _ _ hb] at hbyte

/-- Equal bytes up to a place, compared one by one. -/
theorem take_eq_iff (hlen : a.length = b.length) :
    a.take n = b.take n ↔ ∀ j < n, a.getD j 0 = b.getD j 0 := by
  constructor
  · intro h j hj
    have hget := congrArg (fun l : Bytes => l.getD j 0) h
    simpa [getD_eq_getElem?_getD, getElem?_take, hj] using hget
  · intro h
    refine ext_getElem (by simp [hlen]) fun j ha hb => ?_
    have hja : j < a.length := by simp at ha; omega
    have hjb : j < b.length := hlen ▸ hja
    have hbyte := h j (by simp at ha; omega)
    rwa [getD_eq_getElem _ _ hja, getD_eq_getElem _ _ hjb, ← getElem_take (h := ha),
      ← getElem_take (h := hb)] at hbyte

/-- The comparison by whole bytes and a mask is that of the first bits. -/
theorem prefixEq_iff (hlen : a.length = b.length) :
    prefixEq a b n = true ↔ ∀ i < n, bitAt a i = bitAt b i := by
  have hlt : n % 8 < 8 := Nat.mod_lt _ (by omega)
  have hpartial : (if n % 8 = 0 then true
      else decide (a.getD (n / 8) 0 &&& maskFirst (n % 8) = b.getD (n / 8) 0 &&& maskFirst (n % 8))) = true ↔
        ∀ j < n % 8, bitAt a (8 * (n / 8) + j) = bitAt b (8 * (n / 8) + j) := by
    split
    · rename_i hzero
      simp [hzero]
    · rename_i hzero
      rw [decide_eq_true_eq, and_maskFirst_eq_iff (Nat.pos_of_ne_zero hzero) hlt]
      refine forall₂_congr fun j hj => ?_
      rw [bitAt_byte a _ (hj.trans hlt), bitAt_byte b _ (hj.trans hlt)]
  unfold prefixEq
  rw [Bool.and_eq_true, decide_eq_true_eq, take_eq_iff hlen, hpartial]
  constructor
  · rintro ⟨hwhole, hrest⟩ i hi
    rw [← Nat.div_add_mod i 8]
    rcases Nat.lt_or_ge (i / 8) (n / 8) with hlt | hge
    · exact (byte_eq_iff _).mp (hwhole _ hlt) _ (Nat.mod_lt _ (by omega))
    · have hsame : i / 8 = n / 8 := by omega
      rw [hsame]
      exact hrest _ (by omega)
  · intro h
    exact ⟨fun j hj => (byte_eq_iff j).mpr fun i hi => h _ (by omega), fun j hj => h _ (by omega)⟩

theorem getMsbD_zero (i : ℕ) : (0 : UInt8).toBitVec.getMsbD i = false := BitVec.getMsbD_zero

/-- Behind the first bits there are none left. -/
theorem bitAt_clearBits (l : Bytes) (n i : ℕ) : bitAt (clearBits l n) i = (bitAt l i && decide (i < n)) := by
  have hi : i % 8 < 8 := Nat.mod_lt _ (by omega)
  have hn : n % 8 < 8 := Nat.mod_lt _ (by omega)
  unfold bitAt clearBits
  rcases Nat.lt_or_ge (i / 8) l.length with hlen | hlen
  · rw [getD_eq_getElem _ _ (by simpa using hlen), getElem_mapIdx, getD_eq_getElem _ _ hlen]
    split
    · have hlt : i < n := by omega
      simp [hlt]
    · split
      · rename_i hsame
        rw [getMsbD_and]
        split
        · have hlt : ¬ i < n := by omega
          rw [getMsbD_zero, decide_eq_false hlt]
        · have hiff : i % 8 < n % 8 ↔ i < n := by omega
          rw [maskFirst_getMsbD (by omega) hn hi, decide_eq_decide.mpr hiff]
      · have hlt : ¬ i < n := by omega
        rw [getMsbD_zero, decide_eq_false hlt, Bool.and_false]
  · rw [getD_eq_default _ _ (by simpa using hlen), getD_eq_default _ _ hlen, getMsbD_zero,
      Bool.false_and]

@[simp] theorem length_clearBits (l : Bytes) (n : ℕ) : (clearBits l n).length = l.length := by
  simp [clearBits]

/-- The bytes with one bit flipped. -/
def flipBit (l : Bytes) (n : ℕ) : Bytes :=
  l.set (n / 8) (l.getD (n / 8) 0 ^^^ ((0x80 : UInt8) >>> UInt8.ofNat (n % 8)))

/-- Flipping a bit changes that bit only. -/
theorem bitAt_flipBit (h : n < 8 * l.length) (i : ℕ) :
    bitAt (flipBit l n) i = (bitAt l i ^^ decide (i = n)) := by
  have hmask : ∀ k : Fin 8, ∀ j : Fin 8,
      ((0x80 : UInt8) >>> UInt8.ofNat k.val).toBitVec.getMsbD j = decide (j.val = k.val) := by decide
  have hbit := hmask ⟨n % 8, Nat.mod_lt _ (by omega)⟩ ⟨i % 8, Nat.mod_lt _ (by omega)⟩
  unfold bitAt flipBit
  by_cases hbyte : i / 8 = n / 8
  · have hlen : n / 8 < l.length := by omega
    have hiff : i % 8 = n % 8 ↔ i = n := by omega
    rw [hbyte, getD_eq_getElem (l.set _ _) _ (by simpa using hlen), getElem_set_self,
      UInt8.toBitVec_xor, BitVec.getMsbD_xor, hbit, decide_eq_decide.mpr hiff]
  · have hne : i ≠ n := fun heq => hbyte (by rw [heq])
    rw [getD_eq_getElem?_getD, getElem?_set_ne (fun heq => hbyte heq.symm),
      ← getD_eq_getElem?_getD, decide_eq_false hne, Bool.xor_false]

end

end Imbh.Lib
