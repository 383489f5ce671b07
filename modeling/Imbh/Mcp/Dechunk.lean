import Imbh.Lib.Chunked
import Imbh.Lib.Hex
import Imbh.Lib.Split

/-!
# Chunked answers (`proxy.rs`, `networks.rs`)

The proxy and the client of the daemon decode chunked bodies alike. A size is read from the text of its line, which is
none if the bytes of an extension are no UTF-8.

* `dechunk_exact_iff` — the bodies that both decode.
-/

namespace Imbh

open Lib List Option
open Checked (value absent overflow)

/-- Source: `proxy.rs` and `networks.rs` `dechunk`, `size` -/
def chunkSize (line : Bytes) : Option ℕ := do
  let line ← decodeText line
  let size ← parseHex (trim (line.takeWhile (· ≠ ';')))
  return size.toNat

/-- The answers of the server. A slice that begins beyond the end is a panic. Source: `proxy.rs` `dechunk` -/
def Mcp.dechunk (body : Bytes) : Option (Checked Bytes) := decode chunkSize overflow body

/-- The answers of the daemon. Source: `networks.rs` `dechunk` -/
def Docker.dechunk (raw : Bytes) : Option (Checked Bytes) := decode chunkSize absent raw

/-! ## Sizes -/

/-- Only three ranges of characters are digits. -/
theorem hexValue_range {c : Char} {d : ℕ} (h : hexValue c = some d) :
    48 ≤ c.toNat ∧ c.toNat ≤ 57 ∨ 97 ≤ c.toNat ∧ c.toNat ≤ 102 ∨ 65 ≤ c.toNat ∧ c.toNat ≤ 70 := by
  unfold hexValue at h
  split at h
  · rename_i hc
    exact .inl ⟨hc.1, hc.2⟩
  split at h
  · rename_i hc
    exact .inr (.inl ⟨hc.1, hc.2⟩)
  split at h
  · rename_i hc
    exact .inr (.inr ⟨hc.1, hc.2⟩)
  · cases h

/-- A digit is ASCII, and neither a sign nor a separator nor whitespace. -/
theorem hexDigit_clean {c : Char} {d : ℕ} (h : hexValue c = some d) :
    c.toNat < 128 ∧ c ≠ '+' ∧ c ≠ ';' ∧ isWhitespace c = false ∧ UInt8.ofNat c.toNat ≠ 13 := by
  have hrange := hexValue_range h
  refine ⟨by omega, ?_, ?_, ?_, ?_⟩
  · rintro rfl
    simp at hrange
  · rintro rfl
    simp at hrange
  · simp [isWhitespace]
    omega
  · intro hcr
    have hmod := congrArg UInt8.toNat hcr
    rw [UInt8.toNat_ofNat_of_lt' (by show c.toNat < 256; omega)] at hmod
    change c.toNat = 13 at hmod
    omega

theorem hexValue_of_mem {digits : Text} {acc n : ℕ} (h : hexDigits digits acc = some n) {c : Char} (hc : c ∈ digits) :
    ∃ d, hexValue c = some d := by
  induction digits generalizing acc with
  | nil => cases hc
  | cons x digits ih =>
    rw [hexDigits] at h
    obtain ⟨d, hd, hrest⟩ := bind_eq_some_iff.mp h
    rcases mem_cons.mp hc with rfl | hc
    · exact ⟨d, hd⟩
    · exact ih hrest hc

/-- Digits below the width are parsed as their number. -/
theorem parseHex_of_hexDigits {digits : Text} {n : ℕ} (hne : digits ≠ []) (h : hexDigits digits 0 = some n)
    (hn : n < 2 ^ 64) : parseHex digits = some (UInt64.ofNat n) := by
  have hplus (rest : Text) : digits ≠ '+' :: rest := by
    rintro rfl
    obtain ⟨d, hd⟩ := hexValue_of_mem h mem_cons_self
    exact absurd rfl (hexDigit_clean hd).2.1
  unfold parseHex
  split
  · rename_i rest
    exact absurd rfl (hplus rest)
  · simp only [if_neg hne, h, bind_some, if_pos hn]

/-- Whitespace behind a text without any. -/
theorem trim_append_blanks {s blanks : Text} (hne : s ≠ []) (hs : ∀ c ∈ s, isWhitespace c = false)
    (hblanks : ∀ c ∈ blanks, isWhitespace c = true) : trim (s ++ blanks) = s := by
  have hdrop {t : Text} (ht : ∀ c ∈ t, isWhitespace c = false) (hne : t ≠ []) (rest : Text) :
      (t ++ rest).dropWhile isWhitespace = t ++ rest := by
    obtain ⟨c, t, rfl⟩ := exists_cons_of_ne_nil hne
    exact dropWhile_cons_of_neg (by rw [ht c mem_cons_self]; exact Bool.false_ne_true)
  have hback := hdrop (t := s.reverse) (fun c hc => hs c (mem_reverse.mp hc)) (by simpa using hne) []
  rw [append_nil] at hback
  rw [trim, hdrop hs hne, reverse_append,
    dropWhile_append_of_pos fun c hc => hblanks c (mem_reverse.mp hc), hback, reverse_reverse]

/-! ## Lines -/

/-- A chunk as it is sent: its size in hexadecimal digits, an extension, and the bytes. -/
structure SentChunk where
  digits : Text
  extension : Bytes
  data : Bytes

namespace SentChunk

def chunk (c : SentChunk) : Chunk := ⟨encodeText c.digits ++ c.extension, c.data⟩

/-- The digits are of the size of the bytes. An extension is behind a semicolon and has no CR LF in it; what else it is
made of does not matter. -/
structure Valid (c : SentChunk) : Prop where
  ne_nil : c.digits ≠ []
  size : hexDigits c.digits 0 = some c.data.length
  extension : c.extension = [] ∨ ∃ blanks rest, c.extension = encodeText (blanks ++ [';']) ++ rest ∧
    ∀ b ∈ blanks, b = ' ' ∨ b = '\t'
  line : ¬crlf <:+: c.extension

variable {c : SentChunk}

/-- The text of a line up to the extension. -/
theorem takeWhile_line (h : c.Valid) {e : Text} (he : decodeText c.extension = some e) :
    trim ((c.digits ++ e).takeWhile (· ≠ ';')) = c.digits := by
  have hdigit {x : Char} (hx : x ∈ c.digits) := hexDigit_clean (hexValue_of_mem h.size hx).choose_spec
  have hdigits : ∀ x ∈ c.digits, decide (x ≠ ';') = true := fun x hx => decide_eq_true (hdigit hx).2.2.1
  have htrim {blanks : Text} (hblanks : ∀ x ∈ blanks, isWhitespace x = true) : trim (c.digits ++ blanks) = c.digits :=
    trim_append_blanks h.ne_nil (fun x hx => (hdigit hx).2.2.2.1) hblanks
  rw [takeWhile_append_of_pos hdigits]
  rcases h.extension with hnil | ⟨blanks, rest, hext, hblanks⟩
  · rw [hnil] at he
    obtain rfl : [] = e := some.inj ((decodeText_encodeText []).symm.trans he)
    exact htrim fun x hx => absurd hx not_mem_nil
  · rw [hext, decodeText_append] at he
    obtain ⟨r, -, rfl⟩ := map_eq_some_iff.mp he
    have hspace : ∀ x ∈ blanks, decide (x ≠ ';') = true := by
      intro x hx
      rcases hblanks x hx with rfl | rfl <;> rfl
    rw [append_assoc, takeWhile_append_of_pos hspace]
    refine htrim fun x hx => ?_
    rw [singleton_append, takeWhile_cons_of_neg (by simp), append_nil] at hx
    rcases hblanks x hx with rfl | rfl <;> rfl

/-- What a line says: its size, if its extension is a text. -/
theorem chunkSize_line (h : c.Valid) (hlen : c.data.length < 2 ^ 64) :
    chunkSize c.chunk.line = if (decodeText c.extension).isSome then some c.data.length else none := by
  show (decodeText (encodeText c.digits ++ c.extension) >>= _) = _
  rw [decodeText_append]
  rcases he : decodeText c.extension with _ | e
  · rfl
  · show (parseHex (trim ((c.digits ++ e).takeWhile (· ≠ ';'))) >>= _) = _
    rw [takeWhile_line h he, parseHex_of_hexDigits h.ne_nil h.size hlen]
    exact congrArg some (UInt64.toNat_ofNat_of_lt' hlen)

/-- A valid chunk is framed as the decoder reads it. -/
theorem framed (h : c.Valid) (hlen : c.data.length < 2 ^ 64) : c.chunk.Framed chunkSize := by
  refine ⟨?_, fun n hn => ?_⟩
  · have hdigit {x : Char} (hx : x ∈ c.digits) := hexDigit_clean (hexValue_of_mem h.size hx).choose_spec
    have hbytes : ∀ b ∈ encodeText c.digits, b ≠ 13 := by
      rw [encodeText_ascii fun x hx => (hdigit hx).1]
      intro b hb
      obtain ⟨x, hx, rfl⟩ := mem_map.mp hb
      exact (hdigit hx).2.2.2.2
    -- the digits hold no CR
    show ¬crlf <:+: encodeText c.digits ++ c.extension
    generalize encodeText c.digits = bytes at hbytes
    induction bytes with
    | nil => exact h.line
    | cons b bs ih =>
      obtain ⟨hb, hbs⟩ := forall_mem_cons.mp hbytes
      rw [cons_append, infix_cons_iff]
      rintro (hhere | hinfix)
      · exact hb (cons_prefix_cons.mp hhere).1.symm
      · exact ih hbs hinfix
  · rw [chunkSize_line h hlen] at hn
    split at hn
    · exact (some.inj hn).symm
    · cases hn

end SentChunk

/-- The bytes of a body as it is sent. -/
def sentBody (chunks : List SentChunk) (last : SentChunk) (tail : Bytes) : Bytes :=
  encodeChunks (chunks.map SentChunk.chunk) last.chunk.line tail

/-- **Chunked bodies.** Where all extensions are texts, and only there, both functions decode a body to the bytes of its
chunks; they decode nothing that ends before the line of the last chunk does; and on every body they agree, end, and do
not overflow. -/
theorem dechunk_exact_iff (chunks : List SentChunk) (last : SentChunk) (tail cut body : Bytes)
    (hchunks : ∀ c ∈ chunks, c.Valid ∧ c.data ≠ []) (hlast : last.Valid ∧ last.data = [])
    (hsent : (sentBody chunks last tail).length < 2 ^ 63) (hbody : body.length < 2 ^ 63) :
    ((Mcp.dechunk (sentBody chunks last tail) = some (value (chunks.flatMap SentChunk.data)) ∧
        Docker.dechunk (sentBody chunks last tail) = some (value (chunks.flatMap SentChunk.data))) ↔
      ∀ c ∈ chunks ++ [last], (decodeText c.extension).isSome) ∧
    (cut <+: sentBody chunks last [] → cut ≠ sentBody chunks last [] →
      Mcp.dechunk cut = some absent ∧ Docker.dechunk cut = some absent) ∧
    Mcp.dechunk body = Docker.dechunk body ∧
      (Mcp.dechunk body = some absent ∨ ∃ bytes, Mcp.dechunk body = some (value bytes)) := by
  have hsize {c : SentChunk} (hc : c ∈ chunks) : c.data.length < 2 ^ 64 := by
    have hle := length_data_le (List.mem_map_of_mem (f := SentChunk.chunk) hc) last.chunk.line tail
    exact (hle.trans_lt hsent).trans (by norm_num)
  have hframed : ∀ c ∈ chunks.map SentChunk.chunk, c.Framed chunkSize ∧ c.data ≠ [] := by
    intro c hc
    obtain ⟨x, hx, rfl⟩ := List.mem_map.mp hc
    exact ⟨SentChunk.framed (hchunks x hx).1 (hsize hx), (hchunks x hx).2⟩
  have hzero : last.data.length < 2 ^ 64 := by rw [hlast.2]; exact Nat.zero_lt_succ _
  have hend := SentChunk.framed hlast.1 hzero
  have hnone (n : ℕ) (hn : chunkSize last.chunk.line = some n) : n = 0 := by
    rw [hend.size n hn]
    exact congrArg List.length hlast.2
  -- a line is read exactly if its extension is a text
  have hread : ((∀ c ∈ chunks.map SentChunk.chunk, (chunkSize c.line).isSome) ∧ (chunkSize last.chunk.line).isSome) ↔
      ∀ c ∈ chunks ++ [last], (decodeText c.extension).isSome := by
    have hline {c : SentChunk} (h : c.Valid) (hlen : c.data.length < 2 ^ 64) :
        (chunkSize c.chunk.line).isSome ↔ (decodeText c.extension).isSome := by
      rw [SentChunk.chunkSize_line h hlen]
      split
      · rename_i h
        exact iff_of_true rfl h
      · rename_i h
        exact iff_of_false Bool.false_ne_true h
    rw [List.forall_mem_append, List.forall_mem_singleton, List.forall_mem_map, hline hlast.1 hzero]
    exact and_congr_left fun _ => forall₂_congr fun c hc => hline (hchunks c hc).1 (hsize hc)
  have hdata : (chunks.map SentChunk.chunk).flatMap Chunk.data = chunks.flatMap SentChunk.data := by
    rw [List.flatMap_map]
    rfl
  have hdecode (beyond : Checked Bytes) : decode chunkSize beyond (sentBody chunks last tail) =
      some (value (chunks.flatMap SentChunk.data)) ↔ ∀ c ∈ chunks ++ [last], (decodeText c.extension).isSome := by
    rw [← hread, decode, sentBody, decodeLoop_encode hframed hend.line hnone (Nat.lt_succ_self _) hsent, hdata]
    split
    · rename_i h
      exact iff_of_true rfl h
    · rename_i h
      exact iff_of_false (fun heq => by cases heq) h
  refine ⟨⟨fun h => (hdecode _).mp h.1, fun h => ⟨(hdecode _).mpr h, (hdecode _).mpr h⟩⟩, fun hcut hne => ?_, ?_, ?_⟩
  · have hlen : cut.length < 2 ^ 63 := by
      have hle : (sentBody chunks last []).length ≤ (sentBody chunks last tail).length := by
        simp [sentBody, encodeChunks]
      exact (hcut.length_le.trans hle).trans_lt hsent
    have hcutNone (beyond : Checked Bytes) := @decodeLoop_cut chunkSize beyond [] _ hframed _ hend.line cut hcut hne
      (cut.length + 1) (Nat.lt_succ_self _) hlen
    exact ⟨hcutNone _, hcutNone _⟩
  · exact decodeLoop_beyond _ _ _ hbody
  · exact decodeLoop_ends (Nat.lt_succ_self _) hbody

/-- A chunk of a byte, with an extension. -/
def oneByte (extension : Bytes) : SentChunk := ⟨['1'], extension, [120]⟩

def lastChunk : SentChunk := ⟨['0'], [], []⟩

theorem oneByte_valid {extension : Bytes} (hline : ¬crlf <:+: 59 :: extension) : (oneByte (59 :: extension)).Valid where
  ne_nil := by simp [oneByte]
  size := rfl
  extension := .inr ⟨[], extension, rfl, by simp⟩
  line := hline

theorem lastChunk_valid : lastChunk.Valid where
  ne_nil := by simp [lastChunk]
  size := rfl
  extension := .inl rfl
  line := by decide

/-- A chunk of twenty-six bytes. -/
def longChunk : SentChunk := ⟨['1', 'A'], [], replicate 26 121⟩

theorem longChunk_valid : longChunk.Valid where
  ne_nil := by simp [longChunk]
  size := rfl
  extension := .inl rfl
  line := by decide

/-- Two chunks, of which one has an extension and the other a size of two digits. -/
theorem dechunk_exact_twoChunks :
    Mcp.dechunk (sentBody [oneByte [59, 97], longChunk] lastChunk crlf) = some (value (120 :: replicate 26 121)) := by
  have hvalid : ∀ c ∈ [oneByte [59, 97], longChunk], c.Valid ∧ c.data ≠ [] := by
    simp only [forall_mem_cons, not_mem_nil, false_imp_iff, implies_true, and_true]
    exact ⟨⟨oneByte_valid (by decide), cons_ne_nil _ _⟩, longChunk_valid, cons_ne_nil _ _⟩
  have htexts : ∀ c ∈ [oneByte [59, 97], longChunk] ++ [lastChunk], (decodeText c.extension).isSome := by
    simp only [cons_append, nil_append, forall_mem_cons, not_mem_nil, false_imp_iff, implies_true, and_true]
    exact ⟨rfl, rfl, rfl⟩
  exact ((dechunk_exact_iff [oneByte [59, 97], longChunk] lastChunk crlf [] [] hvalid ⟨lastChunk_valid, rfl⟩
    (by decide) (by simp)).1.mpr htexts).1

/-- A quoted extension with a byte that is no UTF-8: nothing is decoded. -/
theorem dechunk_slips : (oneByte [59, 97, 61, 34, 0xe9, 34]).Valid ∧
    Mcp.dechunk (sentBody [oneByte [59, 97, 61, 34, 0xe9, 34]] lastChunk crlf) = some absent ∧
    Docker.dechunk (sentBody [oneByte [59, 97, 61, 34, 0xe9, 34]] lastChunk crlf) = some absent :=
  ⟨oneByte_valid (by decide), rfl, rfl⟩

end Imbh
