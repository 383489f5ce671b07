import Mathlib.Data.List.Infix
import Imbh.Lib.Checked
import Imbh.Lib.Http

/-!
# Chunked bodies

A body is sent in chunks. Each is behind a line that says its size, and ends with CR LF; the size of the last one is
zero. What a line says is a parameter.
-/

namespace Imbh.Lib

open Checked (value absent overflow)

open List

/-- The position of the first CR LF. -/
def findCrlf : Bytes → Option ℕ
  | [] => none
  | b :: bs => if crlf.isPrefixOf (b :: bs) then some 0 else (findCrlf bs).map (· + 1)

/-- `+` of `usize` -/
def addUsize (a b : ℕ) : Checked ℕ := if a + b < 2 ^ 64 then value (a + b) else overflow

/-- The bytes from a position on, if there are as many. -/
def sliceFrom (body : Bytes) (start : ℕ) : Option Bytes := if start ≤ body.length then some (body.drop start) else none

/-- The first bytes, if there are as many. -/
def sliceTo (body : Bytes) (stop : ℕ) : Option Bytes := if stop ≤ body.length then some (body.take stop) else none

inductive Round
  | done (out : Bytes)
  | more (body out : Bytes)

section

-- What a line says, and what comes of a slice that begins beyond the end.
variable (sizeOf : Bytes → Option ℕ) (beyond : Checked Bytes)

/-- A chunk, or the last line. -/
def decodeRound (body out : Bytes) : Checked Round := do
  let pos ← Checked.lift (findCrlf body)
  let size ← Checked.lift (sizeOf (body.take pos))
  let start ← addUsize pos 2
  let body ← (sliceFrom body start).elim beyond value
  if size = 0 then return .done out
  else do
    let data ← Checked.lift (sliceTo body size)
    let next ← addUsize size 2
    let body ← Checked.lift (sliceFrom body next)
    return .more body (out ++ data)

/-- So many rounds at most; `none` if there are more. -/
def decodeLoop : ℕ → Bytes → Bytes → Option (Checked Bytes)
  | 0, _, _ => none
  | n + 1, body, out =>
      match decodeRound sizeOf beyond body out with
      | value (.done out) => some (value out)
      | value (.more body out) => decodeLoop n body out
      | absent => some absent
      | overflow => some overflow

/-- A round takes at least a byte. -/
def decode (body : Bytes) : Option (Checked Bytes) := decodeLoop sizeOf beyond (body.length + 1) body []

/-! ## Lines -/

/-- A line end that is found lies in the body. -/
theorem findCrlf_lt {body : Bytes} {pos : ℕ} (h : findCrlf body = some pos) : pos + 2 ≤ body.length := by
  induction body generalizing pos with
  | nil => cases h
  | cons b bs ih =>
    rw [findCrlf] at h
    split at h
    · rename_i hprefix
      obtain rfl : 0 = pos := Option.some.inj h
      exact IsPrefix.length_le <| isPrefixOf_iff_prefix.mp hprefix
    · obtain ⟨p, hp, rfl⟩ := Option.map_eq_some_iff.mp h
      have hle := ih hp
      rw [length_cons]
      omega

theorem findCrlf_eq_none {body : Bytes} (h : ¬crlf <:+: body) : findCrlf body = none := by
  induction body with
  | nil => rfl
  | cons b bs ih =>
    have hprefix : ¬crlf.isPrefixOf (b :: bs) = true := fun hp =>
      h <| IsPrefix.isInfix <| isPrefixOf_iff_prefix.mp hp
    rw [findCrlf, if_neg hprefix, ih fun hbs => h (hbs.trans (suffix_cons b bs).isInfix)]
    rfl

/-- A CR LF is not in the middle of a line and its CR. -/
theorem not_crlf_concat {line : Bytes} (h : ¬crlf <:+: line) : ¬crlf <:+: line ++ [13] := by
  rintro ⟨front, back, heq⟩
  rcases eq_nil_or_concat back with rfl | ⟨back, b, rfl⟩
  · rw [append_nil] at heq
    have hlast := congrArg List.getLast? heq
    simp [crlf] at hlast
  · rw [concat_eq_append, ← append_assoc] at heq
    exact h ⟨front, back, (append_inj' heq rfl).1⟩

/-- A line is found up to its end. -/
theorem findCrlf_line {line : Bytes} (h : ¬crlf <:+: line) (rest : Bytes) :
    findCrlf (line ++ crlf ++ rest) = some line.length := by
  induction line with
  | nil => rfl
  | cons b line ih =>
    have hprefix : ¬crlf.isPrefixOf (b :: (line ++ crlf ++ rest)) = true := by
      intro hp
      have hp := isPrefixOf_iff_prefix.mp hp
      have hshort : crlf <+: b :: line ++ [13] := by
        refine prefix_of_prefix_length_le hp ?_ (by simp [crlf])
        exact ⟨10 :: rest, by simp [crlf]⟩
      exact not_crlf_concat h hshort.isInfix
    rw [cons_append, cons_append, findCrlf, if_neg hprefix,
      ih fun hline => h (hline.trans (suffix_cons b line).isInfix)]
    rfl

/-! ## Rounds -/

variable {sizeOf : Bytes → Option ℕ} {beyond : Checked Bytes} {body out : Bytes}

/-- A round in which the positions are found. -/
theorem decodeRound_eq {pos : ℕ} (hpos : findCrlf body = some pos) (hlen : body.length < 2 ^ 63) :
    decodeRound sizeOf beyond body out =
      match sizeOf (body.take pos) with
      | none => absent
      | some size =>
          if size = 0 then value (.done out)
          else if (body.drop (pos + 2)).length < size + 2 then absent
          else value (.more (body.drop (pos + 2 + (size + 2))) (out ++ (body.drop (pos + 2)).take size)) := by
  have hle := findCrlf_lt hpos
  have hstart : addUsize pos 2 = value (pos + 2) := if_pos (by omega)
  have hbody : sliceFrom body (pos + 2) = some (body.drop (pos + 2)) := if_pos hle
  unfold decodeRound
  rw [hpos]
  rcases hsize : sizeOf (body.take pos) with _ | size
  · simp [Checked.lift, hsize]
  · simp only [Checked.lift, Checked.value_bind, hsize, hstart, hbody, Option.elim]
    by_cases hzero : size = 0
    · rw [if_pos hzero, if_pos hzero]
      rfl
    · rw [if_neg hzero, if_neg hzero]
      have hdrop : (body.drop (pos + 2)).length = body.length - (pos + 2) := length_drop
      by_cases hdata : size ≤ (body.drop (pos + 2)).length
      · have htake : sliceTo (body.drop (pos + 2)) size = some ((body.drop (pos + 2)).take size) := if_pos hdata
        have hnext : addUsize size 2 = value (size + 2) := if_pos (by omega)
        rw [htake, hnext]
        by_cases hrest : size + 2 ≤ (body.drop (pos + 2)).length
        · have hslice : sliceFrom (body.drop (pos + 2)) (size + 2) =
              some (body.drop (pos + 2 + (size + 2))) := by rw [sliceFrom, if_pos hrest, drop_drop]
          simp only [Checked.value_bind, hslice]
          rw [if_neg (not_lt.mpr hrest)]
          rfl
        · have hslice : sliceFrom (body.drop (pos + 2)) (size + 2) = none := if_neg hrest
          simp only [Checked.value_bind, hslice]
          rw [if_pos (not_le.mp hrest)]
          rfl
      · have htake : sliceTo (body.drop (pos + 2)) size = none := if_neg hdata
        rw [htake, if_pos (by omega)]
        rfl

theorem decodeRound_of_none (h : findCrlf body = none) : decodeRound sizeOf beyond body out = absent := by
  rw [decodeRound, h]
  rfl

/-- What a round can come to. -/
theorem decodeRound_cases (hlen : body.length < 2 ^ 63) :
    decodeRound sizeOf beyond body out = absent ∨ (∃ out', decodeRound sizeOf beyond body out = value (.done out')) ∨
      ∃ body' out', decodeRound sizeOf beyond body out = value (.more body' out') ∧ body'.length < body.length := by
  rcases hpos : findCrlf body with _ | pos
  · exact .inl (decodeRound_of_none hpos)
  rw [decodeRound_eq hpos hlen]
  have hle := findCrlf_lt hpos
  split
  · exact .inl rfl
  split
  · exact .inr (.inl ⟨out, rfl⟩)
  split
  · exact .inl rfl
  · refine .inr (.inr ⟨_, _, rfl, ?_⟩)
    rw [length_drop]
    omega

/-- A slice that begins beyond the end is never taken. -/
theorem decodeRound_beyond (beyond beyond' : Checked Bytes) (hlen : body.length < 2 ^ 63) :
    decodeRound sizeOf beyond body out = decodeRound sizeOf beyond' body out := by
  rcases hpos : findCrlf body with _ | pos
  · rw [decodeRound_of_none hpos, decodeRound_of_none hpos]
  · rw [decodeRound_eq hpos hlen, decodeRound_eq hpos hlen]

/-- What happens beyond the end does not matter to a body of any length that is possible. -/
theorem decodeLoop_beyond (beyond beyond' : Checked Bytes) (n : ℕ) (hlen : body.length < 2 ^ 63) :
    decodeLoop sizeOf beyond n body out = decodeLoop sizeOf beyond' n body out := by
  induction n generalizing body out with
  | zero => rfl
  | succ n ih =>
    rw [decodeLoop, decodeLoop, decodeRound_beyond beyond beyond' hlen]
    rcases @decodeRound_cases sizeOf beyond' body out hlen with h | ⟨out', h⟩ | ⟨body', out', h, hlt⟩
    · rw [h]
    · rw [h]
    · rw [h]
      exact ih (hlt.trans hlen)

/-- With a round for each byte, and one more, the loop ends without an overflow. -/
theorem decodeLoop_ends {n : ℕ} (hn : body.length < n) (hlen : body.length < 2 ^ 63) :
    decodeLoop sizeOf beyond n body out = some absent ∨
      ∃ bytes, decodeLoop sizeOf beyond n body out = some (value bytes) := by
  induction n generalizing body out with
  | zero => exact absurd hn (Nat.not_lt_zero _)
  | succ n ih =>
    rw [decodeLoop]
    rcases @decodeRound_cases sizeOf beyond body out hlen with h | ⟨out', h⟩ | ⟨body', out', h, hlt⟩
    · rw [h]
      exact .inl rfl
    · rw [h]
      exact .inr ⟨out', rfl⟩
    · rw [h]
      exact ih (by omega) (hlt.trans hlen)

/-! ## Chunks -/

/-- A line and the bytes behind it. -/
structure Chunk where
  line : Bytes
  data : Bytes

def Chunk.encode (c : Chunk) : Bytes := c.line ++ crlf ++ (c.data ++ crlf)

/-- The chunks, the last line, and what follows it. -/
def encodeChunks (chunks : List Chunk) (last tail : Bytes) : Bytes := chunks.flatMap Chunk.encode ++ (last ++ crlf ++ tail)

/-- The line has no CR LF in it, and says the size of the bytes if it is read. -/
structure Chunk.Framed (sizeOf : Bytes → Option ℕ) (c : Chunk) : Prop where
  line : ¬crlf <:+: c.line
  size : ∀ n, sizeOf c.line = some n → n = c.data.length

theorem encodeChunks_cons (c : Chunk) (chunks : List Chunk) (last tail : Bytes) :
    encodeChunks (c :: chunks) last tail = c.line ++ crlf ++ (c.data ++ crlf ++ encodeChunks chunks last tail) := by
  simp [encodeChunks, Chunk.encode]

theorem length_data_le {c : Chunk} {chunks : List Chunk} (hc : c ∈ chunks) (last tail : Bytes) :
    c.data.length ≤ (encodeChunks chunks last tail).length := by
  obtain ⟨front, back, rfl⟩ := append_of_mem hc
  simp [encodeChunks, Chunk.encode]
  omega

theorem drop_line (line rest : Bytes) : (line ++ crlf ++ rest).drop (line.length + 2) = rest := by
  rw [append_assoc, ← drop_drop, drop_left]
  rfl

theorem take_line (line rest : Bytes) : (line ++ crlf ++ rest).take line.length = line := by
  rw [append_assoc, take_left]

/-- The last line ends the loop, if it is read. -/
theorem decodeRound_last {last : Bytes} (hline : ¬crlf <:+: last) (hsize : ∀ n, sizeOf last = some n → n = 0)
    (tail : Bytes) (hlen : (last ++ crlf ++ tail).length < 2 ^ 63) :
    decodeRound sizeOf beyond (last ++ crlf ++ tail) out =
      if (sizeOf last).isSome then value (.done out) else absent := by
  rw [decodeRound_eq (findCrlf_line hline tail) hlen, take_line]
  rcases h : sizeOf last with _ | n
  · rfl
  · dsimp only
    rw [if_pos (hsize n h)]
    rfl

/-- A chunk is taken off, if its line is read. -/
theorem decodeRound_chunk {c : Chunk} (hc : c.Framed sizeOf) (hne : c.data ≠ []) (rest : Bytes)
    (hlen : (c.line ++ crlf ++ (c.data ++ crlf ++ rest)).length < 2 ^ 63) :
    decodeRound sizeOf beyond (c.line ++ crlf ++ (c.data ++ crlf ++ rest)) out =
      if (sizeOf c.line).isSome then value (.more rest (out ++ c.data)) else absent := by
  rw [decodeRound_eq (findCrlf_line hc.line _) hlen, take_line]
  rcases h : sizeOf c.line with _ | n
  · rfl
  · obtain rfl := hc.size n h
    have hpos : c.data.length ≠ 0 := fun hzero => hne (length_eq_zero_iff.mp hzero)
    have hrest : ¬(c.data ++ crlf ++ rest).length < c.data.length + 2 := by simp [crlf]
    dsimp only
    rw [if_neg hpos, drop_line, if_neg hrest, ← drop_drop, drop_line, drop_line, append_assoc, take_left]
    rfl

/-- **Chunks are decoded to their bytes**, if all lines are read. -/
theorem decodeLoop_encode {chunks : List Chunk} (hchunks : ∀ c ∈ chunks, c.Framed sizeOf ∧ c.data ≠ []) {last tail : Bytes}
    (hline : ¬crlf <:+: last) (hsize : ∀ n, sizeOf last = some n → n = 0) {n : ℕ}
    (hn : (encodeChunks chunks last tail).length < n) (hlen : (encodeChunks chunks last tail).length < 2 ^ 63) :
    decodeLoop sizeOf beyond n (encodeChunks chunks last tail) out =
      if (∀ c ∈ chunks, (sizeOf c.line).isSome) ∧ (sizeOf last).isSome then some (value (out ++ chunks.flatMap Chunk.data))
      else some absent := by
  induction chunks generalizing n out with
  | nil =>
    obtain ⟨n, rfl⟩ := Nat.exists_eq_succ_of_ne_zero (by omega : n ≠ 0)
    have hlast := @decodeRound_last sizeOf beyond out last hline hsize tail hlen
    rw [decodeLoop, encodeChunks, flatMap_nil, nil_append, hlast]
    by_cases h : (sizeOf last).isSome
    · simp [h]
    · simp [h]
  | cons c chunks ih =>
    obtain ⟨n, rfl⟩ := Nat.exists_eq_succ_of_ne_zero (by omega : n ≠ 0)
    obtain ⟨⟨hc, hne⟩, hrest⟩ := forall_mem_cons.mp hchunks
    rw [encodeChunks_cons] at hn hlen ⊢
    have hround := @decodeRound_chunk sizeOf beyond out c hc hne (encodeChunks chunks last tail) hlen
    have hshort : (encodeChunks chunks last tail).length <
        (c.line ++ crlf ++ (c.data ++ crlf ++ encodeChunks chunks last tail)).length := by
      simp [crlf]
      omega
    rw [decodeLoop, hround]
    by_cases h : (sizeOf c.line).isSome
    · rw [if_pos h]
      dsimp only
      rw [ih hrest (by omega) (by omega)]
      simp [h]
    · rw [if_neg h, if_neg fun hall => h (hall.1 c mem_cons_self)]

/-- There is no CR LF in what ends before a line does. -/
theorem findCrlf_cut {line cut : Bytes} (hline : ¬crlf <:+: line) (hcut : cut <+: line ++ crlf) (hne : cut ≠ line ++ crlf) :
    findCrlf cut = none := by
  have hlen : cut.length < (line ++ crlf).length :=
    lt_of_le_of_ne hcut.length_le fun h => hne (hcut.eq_of_length h)
  have hshort : cut <+: line ++ [13] := by
    refine prefix_of_prefix_length_le hcut ⟨[10], by simp [crlf]⟩ ?_
    simp [crlf] at hlen ⊢
    omega
  exact findCrlf_eq_none fun h => not_crlf_concat hline (h.trans hshort.isInfix)

/-- **What ends before the last line does is not decoded.** -/
theorem decodeLoop_cut {chunks : List Chunk} (hchunks : ∀ c ∈ chunks, c.Framed sizeOf ∧ c.data ≠ []) {last : Bytes}
    (hline : ¬crlf <:+: last) {cut : Bytes} (hcut : cut <+: encodeChunks chunks last [])
    (hne : cut ≠ encodeChunks chunks last []) {n : ℕ} (hn : cut.length < n) (hlen : cut.length < 2 ^ 63) :
    decodeLoop sizeOf beyond n cut out = some absent := by
  obtain ⟨n, rfl⟩ := Nat.exists_eq_succ_of_ne_zero (by omega : n ≠ 0)
  have hnone (h : findCrlf cut = none) : decodeLoop sizeOf beyond (n + 1) cut out = some absent := by
    rw [decodeLoop, decodeRound_of_none h]
  induction chunks generalizing n cut out with
  | nil =>
    rw [encodeChunks, flatMap_nil, nil_append, append_nil] at hcut hne
    exact hnone (findCrlf_cut hline hcut hne)
  | cons c chunks ih =>
    obtain ⟨⟨hc, hdata⟩, hrest⟩ := forall_mem_cons.mp hchunks
    rw [encodeChunks_cons] at hcut hne
    by_cases hhead : c.line ++ crlf <+: cut
    swap
    · -- the line is cut
      have hcases := prefix_or_prefix_of_prefix hcut (prefix_append _ _)
      have hshort : cut <+: c.line ++ crlf := hcases.resolve_right hhead
      exact hnone (findCrlf_cut hc.line hshort fun h => hhead (h ▸ prefix_rfl))
    obtain ⟨q, rfl⟩ := hhead
    have hq := (prefix_append_right_inj _).mp hcut
    by_cases hbody : c.data ++ crlf <+: q
    · obtain ⟨q, rfl⟩ := hbody
      have hround := @decodeRound_chunk sizeOf beyond out c hc hdata q hlen
      rw [decodeLoop, hround]
      by_cases h : (sizeOf c.line).isSome
      · rw [if_pos h]
        have hshort : q.length < (c.line ++ crlf ++ (c.data ++ crlf ++ q)).length := by
          simp [crlf]
          omega
        obtain ⟨n, rfl⟩ := Nat.exists_eq_succ_of_ne_zero (by omega : n ≠ 0)
        refine ih hrest ((prefix_append_right_inj _).mp hq) (fun h => hne (by rw [h])) (hshort.trans hlen) n
          (by omega) fun h => ?_
        rw [decodeLoop, decodeRound_of_none h]
      · rw [if_neg h]
    · -- the bytes are cut, or the CR LF behind them
      have hshort : q.length < c.data.length + 2 := by
        by_contra hlong
        have hle : (c.data ++ crlf).length ≤ q.length := by simpa [crlf] using not_lt.mp hlong
        exact hbody (prefix_of_prefix_length_le (prefix_append _ _) hq hle)
      rw [decodeLoop, decodeRound_eq (findCrlf_line hc.line q) hlen, take_line, drop_line]
      rcases h : sizeOf c.line with _ | size
      · rfl
      · obtain rfl := hc.size size h
        dsimp only
        rw [if_neg fun hzero => hdata (length_eq_zero_iff.mp hzero), if_pos hshort]

end

end Imbh.Lib
