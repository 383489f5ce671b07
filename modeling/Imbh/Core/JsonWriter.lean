import Imbh.Core.JsonText

/-!
# Writing JSON

What a writer of trees is, and the one of the JSON library: compact, with as few escapes as there can be. How it writes
a double is a parameter.
-/

namespace Imbh.Core

open Lib

/-- A character of a string, escaped if it has to be. -/
def escapeChar (c : Char) : Text :=
  if c = '"' then ['\\', '"']
  else if c = '\\' then ['\\', '\\']
  else if c = '\x08' then ['\\', 'b']
  else if c = '\x0c' then ['\\', 'f']
  else if c = '\n' then ['\\', 'n']
  else if c = '\r' then ['\\', 'r']
  else if c = '\t' then ['\\', 't']
  else if c.toNat < 0x20 then '\\' :: 'u' :: hexFixed 4 c.toNat
  else [c]

def writeString (s : Text) : Text := '"' :: ((s.map escapeChar).flatten ++ ['"'])

/-- An escape by its number is read back. -/
theorem hexEscape_hexFixed (c : Char) (h : c.toNat < 16 ^ 4) (rest : Text) :
    hexEscape (hexFixed 4 c.toNat ++ rest) = some (c, rest) := by
  have hdigit (m : ℕ) : hexValue (Nat.digitChar (m % 16)) = some (m % 16) :=
    hexValue_digitChar (Nat.mod_lt m (by simp))
  generalize hn : c.toNat = n at h
  have hnumber : ((n / 16 ^ 3 % 16 * 16 + n / 16 ^ 2 % 16) * 16 + n / 16 ^ 1 % 16) * 16 + n / 16 ^ 0 % 16 = n := by omega
  have hvalid : n.isValidChar := hn ▸ c.valid
  show (do
    let a ← hexValue (Nat.digitChar (n / 16 ^ 3 % 16))
    let b ← hexValue (Nat.digitChar (n / 16 ^ 2 % 16))
    let c ← hexValue (Nat.digitChar (n / 16 ^ 1 % 16))
    let d ← hexValue (Nat.digitChar (n / 16 ^ 0 % 16))
    let n := ((a * 16 + b) * 16 + c) * 16 + d
    if n.isValidChar then some (Char.ofNat n, rest) else none) = _
  simp only [hdigit, Option.bind_eq_bind, Option.bind_some, hnumber]
  rw [if_pos hvalid, ← hn, Char.ofNat_toNat]

/-- A character is read back of its escape. -/
theorem charText_escapeChar (c : Char) : CharText c (escapeChar c) := by
  intro rest
  unfold escapeChar
  split
  · rename_i h
    subst h
    rfl
  split
  · rename_i h
    subst h
    rfl
  split
  · rename_i h
    subst h
    rfl
  split
  · rename_i h
    subst h
    rfl
  split
  · rename_i h
    subst h
    rfl
  split
  · rename_i h
    subst h
    rfl
  split
  · rename_i h
    subst h
    rfl
  split
  · rename_i hlow
    have hread : readChar ('\\' :: 'u' :: (hexFixed 4 c.toNat ++ rest)) = hexEscape (hexFixed 4 c.toNat ++ rest) := rfl
    rw [List.cons_append, List.cons_append, hread, hexEscape_hexFixed c (by omega)]
  · rename_i hquote hslash _ _ _ _ _ hlow
    exact charText_plain (by simp [isPlain, hquote, hslash, not_lt.mp hlow]) rest

theorem stringText_writeString (s : Text) : StringText s (writeString s) := by
  refine ⟨s.map escapeChar, ?_, rfl⟩
  rw [List.forall₂_map_right_iff, List.forall₂_same]
  exact fun c _ => charText_escapeChar c

section

-- How the library writes a double.
variable (float : F64 → Text)

mutual

/-- Source: `canonical.rs` `encode`, the writer of `serde_json` -/
def writeJson : Json → Text
  | .null => "null".toList
  | .bool b => (if b then "true" else "false").toList
  | .i64 v => textI64 v
  | .u64 v => textU64 v
  | .f64 d => float d
  | .str s => writeString s
  | .seq items => '[' :: (commas (writeItems items) ++ [']'])
  | .map members => '\x7b' :: (commas (writeMembers members) ++ ['\x7d'])

def writeItems : List Json → List Text
  | [] => []
  | j :: js => writeJson j :: writeItems js

def writeMembers : List (Text × Json) → List Text
  | [] => []
  | (k, j) :: ms => (writeString k ++ ':' :: writeJson j) :: writeMembers ms

end

-- What the library reads a number as.
variable (number : Text → Option Json)

mutual

/-- The numbers of a tree are read as they were written. -/
def NumbersRead : Json → Prop
  | .i64 v => NumberText number (.i64 v) (textI64 v)
  | .u64 v => NumberText number (.u64 v) (textU64 v)
  | .f64 d => NumberText number (.f64 d) (float d)
  | .seq items => ItemsRead items
  | .map members => MembersRead members
  | _ => True

def ItemsRead : List Json → Prop
  | [] => True
  | j :: js => NumbersRead j ∧ ItemsRead js

def MembersRead : List (Text × Json) → Prop
  | [] => True
  | (_, j) :: ms => NumbersRead j ∧ MembersRead ms

end

variable {float number}

mutual

/-- What is written for a tree is a text of it. -/
theorem jsonText_writeJson (j : Json) (h : NumbersRead float number j) : JsonText number j (writeJson float j) := by
  cases j with
  | null => rfl
  | bool b => rfl
  | i64 v => exact h
  | u64 v => exact h
  | f64 d => exact h
  | str s => exact stringText_writeString s
  | seq items => exact ⟨_, itemTexts_writeItems items h, rfl⟩
  | map members => exact ⟨_, memberTexts_writeMembers members h, rfl⟩

theorem itemTexts_writeItems (items : List Json) (h : ItemsRead float number items) :
    ItemTexts number items (writeItems float items) := by
  cases items with
  | nil => rfl
  | cons j js => exact ⟨_, _, rfl, jsonText_writeJson j h.1, itemTexts_writeItems js h.2⟩

theorem memberTexts_writeMembers (members : List (Text × Json)) (h : MembersRead float number members) :
    MemberTexts number members (writeMembers float members) := by
  cases members with
  | nil => rfl
  | cons m ms =>
    obtain ⟨k, j⟩ := m
    exact ⟨_, _, _, rfl, stringText_writeString k, jsonText_writeJson j h.1, memberTexts_writeMembers ms h.2⟩

end

theorem membersRead_iff {members : List (Text × Json)} :
    MembersRead float number members ↔ ∀ m ∈ members, NumbersRead float number m.2 := by
  induction members with
  | nil => simp [MembersRead]
  | cons m ms ih =>
    obtain ⟨k, j⟩ := m
    rw [MembersRead, ih, List.forall_mem_cons]

variable (float) in
/-- A way to write trees as texts of them. -/
structure JsonWriter where
  write : Json → Text
  isText : ∀ {number j}, NumbersRead float number j → JsonText number j (write j)

/-- The writer of the library. -/
def compactWriter : JsonWriter float := ⟨writeJson float, jsonText_writeJson _⟩

/-- Trees with one text are one tree. -/
theorem JsonWriter.eq_of_write_eq (writer : JsonWriter float) {j j' : Json} (hj : NumbersRead float number j)
    (hj' : NumbersRead float number j') (h : writer.write j = writer.write j') : j = j' := by
  have hread := readJson_eq (writer.isText hj)
  rw [h, readJson_eq (writer.isText hj')] at hread
  exact (Option.some.inj hread).symm

end

end Imbh.Core
