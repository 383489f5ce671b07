import Mathlib.Data.List.Basic
import Mathlib.Tactic.Linarith

/-!
# Scanning a log of self-delimiting items

An append-only log is a concatenation of encoded items. A reader takes one item after the other
off the front and stops at the first symbols it cannot read as an item, which is what a write
cut short leaves behind.
-/

namespace Imbh.Lib

open List

/-- A framing of items of type `β` over the alphabet `α`, read with a state of type `σ`. -/
structure Framing (α β σ : Type*) where
  /-- The symbols an item is written as. -/
  enc : β → List α
  /-- Take one item off the front: the item, how many symbols it took, and the next state. -/
  item : σ → List α → Option (β × ℕ × σ)
  /-- The items that can be written at all. -/
  Valid : β → Prop
  /-- The items that a reader in state `s` accepts next. -/
  Fits : σ → β → Prop
  /-- The reader's state after an item. -/
  next : σ → β → σ
  enc_ne_nil : ∀ b, enc b ≠ []
  item_enc : ∀ s b rest, Valid b → Fits s b →
    item s (enc b ++ rest) = some (b, (enc b).length, next s b)
  item_torn : ∀ s b t, Valid b → t <+: enc b → t ≠ enc b → item s t = none
  item_nil : ∀ s, item s [] = none

namespace Framing

variable {α β σ : Type*} (F : Framing α β σ) {bs : List β} {t : List α}

/-- The loop, with a bound on the number of rounds. -/
def scanLoop : ℕ → σ → List α → List β × ℕ
  | 0, _, _ => ([], 0)
  | fuel + 1, s, xs =>
      match F.item s xs with
      | none => ([], 0)
      | some (b, n, s') =>
          let r := scanLoop fuel s' (xs.drop n)
          (b :: r.1, n + r.2)

/-- The items a reader in state `s` finds at the front of `xs`, and how many symbols they take.
Every item takes a symbol at least, so `xs.length` rounds are enough. -/
def scan (s : σ) (xs : List α) : List β × ℕ := F.scanLoop xs.length s xs

/-- The log of a list of items. -/
def encodeAll (bs : List β) : List α := bs.flatMap F.enc

/-- What a write cut short leaves: nothing, or a proper prefix of an encoded item. -/
def Torn (t : List α) : Prop := t = [] ∨ ∃ b, F.Valid b ∧ t <+: F.enc b ∧ t ≠ F.enc b

/-- A reader in state `s` accepts the items in this order. -/
def Accepts : σ → List β → Prop
  | _, [] => True
  | s, b :: bs => F.Valid b ∧ F.Fits s b ∧ Accepts (F.next s b) bs

/-! ## The log of a list -/

@[simp] theorem encodeAll_nil : F.encodeAll [] = [] := rfl

@[simp] theorem encodeAll_cons (b : β) (bs : List β) :
    F.encodeAll (b :: bs) = F.enc b ++ F.encodeAll bs := rfl

@[simp] theorem encodeAll_append (bs cs : List β) :
    F.encodeAll (bs ++ cs) = F.encodeAll bs ++ F.encodeAll cs := by
  simp [encodeAll]

theorem enc_length_pos (b : β) : 0 < (F.enc b).length :=
  length_pos_iff.mpr (F.enc_ne_nil b)

/-- There are at least as many symbols as items. -/
theorem length_le_encodeAll (bs : List β) : bs.length ≤ (F.encodeAll bs).length := by
  induction bs with
  | nil => simp
  | cons b bs ih =>
      have := F.enc_length_pos b
      simp only [length_cons, encodeAll_cons, length_append]
      omega

/-- Longer prefixes of the items take more symbols. -/
theorem encodeAll_take_length_lt {i j : ℕ} (hij : i < j) (hj : j ≤ bs.length) :
    (F.encodeAll (bs.take i)).length < (F.encodeAll (bs.take j)).length := by
  have hsplit : bs.take j = bs.take i ++ (bs.drop i).take (j - i) := by
    rw [← take_add]
    congr 1
    omega
  have hlen : 0 < ((bs.drop i).take (j - i)).length := by
    rw [length_take, length_drop]
    omega
  have := F.length_le_encodeAll ((bs.drop i).take (j - i))
  rw [hsplit, encodeAll_append, length_append]
  omega

theorem encodeAll_take_length_le {i j : ℕ} (hij : i ≤ j) :
    (F.encodeAll (bs.take i)).length ≤ (F.encodeAll (bs.take j)).length := by
  rw [show bs.take i = (bs.take j).take i by rw [take_take, Nat.min_eq_left hij]]
  conv_rhs => rw [← take_append_drop i (bs.take j), encodeAll_append, length_append]
  omega

/-! ## Torn tails -/

@[simp] theorem torn_nil : F.Torn [] := Or.inl rfl

/-- A reader takes nothing off a torn tail. -/
theorem item_of_torn (ht : F.Torn t) (s : σ) : F.item s t = none := by
  rcases ht with rfl | ⟨b, hb, hpre, hne⟩
  · exact F.item_nil s
  · exact F.item_torn s b t hb hpre hne

/-- A strict prefix of an encoded item is torn. -/
theorem torn_take {b : β} (hb : F.Valid b) {n : ℕ} (hn : n < (F.enc b).length) :
    F.Torn ((F.enc b).take n) := by
  refine Or.inr ⟨b, hb, take_prefix n _, fun h => ?_⟩
  have := congrArg List.length h
  rw [length_take] at this
  omega

/-- A prefix of a torn tail is torn. -/
theorem Torn.of_prefix {u : List α} (ht : F.Torn t) (hu : u <+: t) : F.Torn u := by
  rcases ht with rfl | ⟨b, hb, hpre, hne⟩
  · rw [prefix_nil.mp hu]
    exact F.torn_nil
  · refine Or.inr ⟨b, hb, hu.trans hpre, fun h => hne ?_⟩
    subst h
    exact hpre.eq_of_length (le_antisymm hpre.length_le hu.length_le)

/-! ## Reading a log back -/

/-- With enough rounds the loop reads the items back and stops where no item begins. -/
theorem scanLoop_encodeAll {s : σ} (hb : F.Accepts s bs) (ht : ∀ s, F.item s t = none) {fuel : ℕ}
    (hf : bs.length ≤ fuel) : F.scanLoop fuel s (F.encodeAll bs ++ t) = (bs, (F.encodeAll bs).length) := by
  induction bs generalizing s fuel with
  | nil =>
      cases fuel with
      | zero => rfl
      | succ fuel => simp [scanLoop, ht]
  | cons b bs ih =>
      obtain ⟨hv, hfit, hrest⟩ := hb
      cases fuel with
      | zero => simp at hf
      | succ fuel =>
          have hf' : bs.length ≤ fuel := by simpa using hf
          rw [encodeAll_cons, append_assoc, scanLoop, F.item_enc s b _ hv hfit]
          simp only [drop_left, ih hrest hf', length_append]

/-- **Reading a log back**, up to a place where no item begins. A scan returns exactly the items and
consumes exactly their symbols. -/
theorem scan_encodeAll_of_item {s : σ} (hb : F.Accepts s bs) (ht : ∀ s, F.item s t = none) :
    F.scan s (F.encodeAll bs ++ t) = (bs, (F.encodeAll bs).length) := by
  refine F.scanLoop_encodeAll hb ht ?_
  rw [length_append]
  exact (F.length_le_encodeAll bs).trans (Nat.le_add_right _ _)

/-- Reading back a log with a torn tail. -/
theorem scan_encodeAll {s : σ} (hb : F.Accepts s bs) (ht : F.Torn t) :
    F.scan s (F.encodeAll bs ++ t) = (bs, (F.encodeAll bs).length) :=
  F.scan_encodeAll_of_item hb (F.item_of_torn ht)

/-- **Every prefix of a log is a log.** A prefix of encoded items with a torn tail is the items
that end inside it, in order, with a torn tail. -/
theorem prefix_encodeAll (hv : ∀ b ∈ bs, F.Valid b) {p : List α} (ht : F.Torn t) (hp : p <+: F.encodeAll bs ++ t) :
    ∃ k u, k ≤ bs.length ∧ F.Torn u ∧ p = F.encodeAll (bs.take k) ++ u ∧
      ∀ j ≤ bs.length, (F.encodeAll (bs.take j)).length ≤ p.length → j ≤ k := by
  induction bs generalizing p with
  | nil => exact ⟨0, p, le_rfl, ht.of_prefix F (by simpa using hp), by simp, by simp⟩
  | cons b bs ih =>
      rw [encodeAll_cons, append_assoc] at hp
      rcases prefix_or_prefix_of_prefix hp (prefix_append (F.enc b) _) with hb | hb
      · by_cases hpe : p = F.enc b
        · refine ⟨1, [], by simp, F.torn_nil, by simp [hpe], fun j hj hle => ?_⟩
          by_contra hj1
          have := F.encodeAll_take_length_lt (show 1 < j by omega) hj
          simp only [take_succ_cons, take_zero, encodeAll_cons, encodeAll_nil,
            append_nil, hpe] at this hle
          omega
        · refine ⟨0, p, by simp, Or.inr ⟨b, hv b mem_cons_self, hb, hpe⟩, by simp,
            fun j hj hle => ?_⟩
          by_contra hj0
          have h1 := @encodeAll_take_length_le _ _ _ F (b :: bs) _ _ (show 1 ≤ j by omega)
          have h2 : p.length < (F.enc b).length :=
            lt_of_le_of_ne hb.length_le fun h => hpe (hb.eq_of_length h)
          simp only [take_succ_cons, take_zero, encodeAll_cons, encodeAll_nil,
            append_nil] at h1
          omega
      · obtain ⟨q, rfl⟩ := hb
        have hq : q <+: F.encodeAll bs ++ t := (prefix_append_right_inj _).mp hp
        obtain ⟨k, u, hk, hu, rfl, hmax⟩ := ih (fun c hc => hv c (mem_cons_of_mem _ hc)) hq
        refine ⟨k + 1, u, by simpa using hk, hu, by simp, fun j hj hle => ?_⟩
        cases j with
        | zero => omega
        | succ j =>
            have := hmax j (by simpa using hj) (by simpa using hle)
            omega

end Framing

end Imbh.Lib
