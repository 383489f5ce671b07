import Imbh.Core.Json

/-!
# Reading one key of a text (`json.rs`, `attributes.rs`)

The JSON library reads a text in two ways. It skips a value, of which it checks the shape only; or it builds the value,
which may then still be nested too deeply, have a number out of range, or a string that is no text. What a text is made
of is the library's.

* `jsonGet_exact_iff` — where picking a key gives what a complete parse gives.
-/

namespace Imbh.Core

open Lib List Option

/-- A value that is skipped. A number and a string are as they are written. -/
inductive Raw
  | null
  | bool (b : Bool)
  | number (digits : Text)
  | str (body : Text)
  | seq (items : List Raw)
  | map (members : List (Text × Raw))

/-- What a number is read as. -/
inductive Number
  | i64 (v : Int64)
  | u64 (v : UInt64)
  | f64 (v : F64)

def Number.json : Number → Json
  | .i64 v => .i64 v
  | .u64 v => .u64 v
  | .f64 v => .f64 v

/-- The library's tokeniser: the first value of a text with what follows it, what a number is read as, and what a
string is, if it has escapes or not. -/
structure Tokeniser where
  scan : Text → Option (Raw × Text)
  number : Text → Option Number
  unescape : Text → Option Text
  plain : ∀ body, '\\' ∉ body → unescape body = some body

namespace Tokeniser

variable (tokens : Tokeniser)

mutual

/-- The tree of a value, if so many levels remain.
Source: `json.rs` `parse`, the visitor's calls -/
def build : Raw → ℕ → Option Json
  | .null, _ => some .null
  | .bool b, _ => some (.bool b)
  | .number digits, _ => (tokens.number digits).map Number.json
  | .str body, _ => (tokens.unescape body).map .str
  | .seq items, remaining => if remaining ≤ 1 then none else (buildItems items (remaining - 1)).map .seq
  | .map members, remaining => if remaining ≤ 1 then none else (buildMembers members (remaining - 1)).map .map

def buildItems : List Raw → ℕ → Option (List Json)
  | [], _ => some []
  | r :: rs, remaining => do
      let j ← build r remaining
      let js ← buildItems rs remaining
      return j :: js

def buildMembers : List (Text × Raw) → ℕ → Option (List (Text × Json))
  | [], _ => some []
  | (k, r) :: ms, remaining => do
      let key ← tokens.unescape k
      let j ← build r remaining
      let kvs ← buildMembers ms remaining
      return (key, j) :: kvs

end

/-- The library's recursion limit. -/
def recursionLimit : ℕ := 128

/-- Whitespace of JSON. -/
def isSpace (c : Char) : Bool := c = ' ' || c = '\n' || c = '\t' || c = '\r'

/-- No key has an escape, so that all can be borrowed. -/
def Borrowed (members : List (Text × Raw)) : Prop := ∀ m ∈ members, '\\' ∉ m.1

instance (members : List (Text × Raw)) : Decidable (Borrowed members) := inferInstanceAs (Decidable (∀ m ∈ members, _))

/-- The library as a reader. A whole document ends with its value; a walk over an object does not look at what follows,
and builds only the values that it is asked for.
Source: `json.rs` `parse`, `pick_field_public` -/
def reader : JsonReader where
  document input := do
    let (raw, rest) ← tokens.scan input
    if rest.all isSpace then tokens.build raw recursionLimit else none
  members input := do
    let (raw, _) ← tokens.scan input
    match raw with
    | .map members =>
        if Borrowed members then some (members.map fun m => (m.1, tokens.build m.2 (recursionLimit - 1))) else none
    | _ => none

variable {tokens} {input rest key : Text} {members : List (Text × Raw)} {remaining : ℕ}

/-- Members that are built, of which no key has an escape. -/
theorem map_buildMembers (hborrowed : Borrowed members) {kvs : List (Text × Json)}
    (h : tokens.buildMembers members remaining = some kvs) :
    members.map (fun m => (m.1, tokens.build m.2 remaining)) = kvs.map fun kv => (kv.1, some kv.2) := by
  induction members generalizing kvs with
  | nil =>
    obtain rfl : [] = kvs := some.inj h
    rfl
  | cons m ms ih =>
    obtain ⟨k, r⟩ := m
    rw [buildMembers, tokens.plain k (hborrowed _ mem_cons_self)] at h
    rcases hr : tokens.build r remaining with _ | j
    · rw [hr] at h
      cases h
    rcases hms : tokens.buildMembers ms remaining with _ | kvs'
    · rw [hr, hms] at h
      cases h
    · rw [hr, hms] at h
      obtain rfl : (k, j) :: kvs' = kvs := some.inj h
      rw [map_cons, map_cons, ih (fun m hm => hborrowed m (mem_cons_of_mem _ hm)) hms, hr]

/-- Members cannot be built only if one of them cannot. -/
theorem exists_unbuilt (hborrowed : Borrowed members) (h : tokens.buildMembers members remaining = none) :
    ∃ m ∈ members, tokens.build m.2 remaining = none := by
  induction members with
  | nil => cases h
  | cons m ms ih =>
    obtain ⟨k, r⟩ := m
    rw [buildMembers, tokens.plain k (hborrowed _ mem_cons_self)] at h
    rcases hr : tokens.build r remaining with _ | j
    · exact ⟨(k, r), mem_cons_self, hr⟩
    rcases hms : tokens.buildMembers ms remaining with _ | kvs
    · obtain ⟨m, hm, hnone⟩ := ih (fun m hm => hborrowed m (mem_cons_of_mem _ hm)) hms
      exact ⟨m, mem_cons_of_mem _ hm, hnone⟩
    · rw [hr, hms] at h
      cases h

/-- A value of an object is one level below it. -/
theorem document_eq (hscan : tokens.scan input = some (.map members, rest)) : tokens.reader.document input =
    if rest.all isSpace then (tokens.buildMembers members (recursionLimit - 1)).map .map else none := by
  show (tokens.scan input >>= _) = _
  rw [hscan]
  rfl

theorem members_eq (hscan : tokens.scan input = some (.map members, rest)) (hborrowed : Borrowed members) :
    tokens.reader.members input = some (members.map fun m => (m.1, tokens.build m.2 (recursionLimit - 1))) := by
  show (tokens.scan input >>= _) = _
  rw [hscan]
  exact if_pos hborrowed

/-- A walk that succeeds is over an object without escapes in its keys. -/
theorem exists_of_members {ms : List (Text × Option Json)} (h : tokens.reader.members input = some ms) :
    ∃ members rest, tokens.scan input = some (.map members, rest) ∧ Borrowed members := by
  change (tokens.scan input >>= _) = _ at h
  rcases hscan : tokens.scan input with _ | ⟨raw, rest⟩
  · rw [hscan] at h
    cases h
  rw [hscan] at h
  cases raw with
  | map members =>
    refine ⟨members, rest, rfl, ?_⟩
    by_contra hborrowed
    have hnone : none = some ms := (if_neg hborrowed).symm.trans h
    cases hnone
  | _ => cases h

/-- Of a document, both ways of reading see the same members. -/
theorem agree (h : tokens.reader.document input ≠ none) : tokens.reader.Agree input := by
  intro ms hms
  obtain ⟨members, rest, hscan, hborrowed⟩ := exists_of_members hms
  rw [members_eq hscan hborrowed] at hms
  rw [document_eq hscan] at h ⊢
  split at h
  · rename_i hspace
    rw [if_pos hspace]
    rcases hbuilt : tokens.buildMembers members (recursionLimit - 1) with _ | kvs
    · rw [hbuilt] at h
      exact absurd rfl h
    · exact ⟨kvs, rfl, (some.inj hms).symm.trans (map_buildMembers hborrowed hbuilt)⟩
  · exact absurd rfl h

end Tokeniser

/-! ## Picking a key -/

section

variable (tokens : Tokeniser) (input key : Text)

/-- The tags of the sentinels. -/
def sentinelTags : List Text := ["nan".toList, "inf".toList, "-inf".toList]

/-- What a complete parse gives for a key. -/
def getParsed : Option AnyValue := (parseObject tokens.reader input).bind fun pairs => getAttr pairs key

/-- No object is parsed: something follows it, or a member can only be skipped, or it is a sentinel. -/
def Spoiled (members : List (Text × Raw)) (rest : Text) : Prop :=
  rest.all Tokeniser.isSpace = false ∨
    (∃ m ∈ members, tokens.build m.2 (Tokeniser.recursionLimit - 1) = none) ∨
    ∃ body tag, members = [("$f".toList, .str body)] ∧ tokens.unescape body = some tag ∧ tag ∈ sentinelTags

/-- The text begins with an object without escapes in its keys, and the first value of the key can be built; but the
object is spoiled. -/
def Overlooked : Prop :=
  ∃ members rest m v, tokens.scan input = some (.map members, rest) ∧ Tokeniser.Borrowed members ∧
    members.find? (fun m => m.1 = key) = some m ∧ tokens.build m.2 (Tokeniser.recursionLimit - 1) = some v ∧
    Spoiled tokens members rest

variable {tokens input key}

/-- A document that is read has the value of the first member of the key. -/
theorem getParsed_of_document {kvs : List (Text × Json)} (h : tokens.reader.document input = some (.map kvs)) :
    getParsed tokens input key =
      if (sentinelOf (ofJsonMembers kvs)).isSome then none
      else (kvs.find? fun kv => kv.1 = key).map fun kv => ofJson kv.2 := by
  have hparse : parse tokens.reader input = some (sentinelOrMap (ofJsonMembers kvs)) := by
    rw [parse, h, map_some, ofJson]
  rw [getParsed, parseObject, hparse, sentinelOrMap]
  rcases sentinelOf (ofJsonMembers kvs) with _ | d
  · exact getAttr_ofJsonMembers key kvs
  · rfl

/-- A sentinel is one entry with one of the three strings. -/
theorem sentinelOf_isSome_iff {pairs : List (Text × AnyValue)} :
    (sentinelOf pairs).isSome ↔ ∃ tag ∈ sentinelTags, pairs = [("$f".toList, .str tag)] := by
  constructor
  · intro h
    obtain ⟨tag, rfl⟩ := sentinelOf_isSome h
    refine ⟨tag, ?_, rfl⟩
    by_contra hmem
    simp only [sentinelTags, mem_cons, not_mem_nil, or_false, not_or] at hmem
    rw [sentinelOf, if_pos rfl, if_neg hmem.1, if_neg hmem.2.1, if_neg hmem.2.2] at h
    cases h
  · rintro ⟨tag, hmem, rfl⟩
    simp only [sentinelTags, mem_cons, not_mem_nil, or_false] at hmem
    rcases hmem with rfl | rfl | rfl <;> rfl

/-- Only a string is read as a string. -/
theorem ofJson_eq_str {j : Json} {s : Text} : ofJson j = .str s ↔ j = .str s := by
  constructor
  · intro h
    cases j with
    | str t =>
      obtain rfl : t = s := AnyValue.str.inj h
      rfl
    | u64 v =>
      rw [ofJson] at h
      split at h
      · cases h
      · cases h
    | map members =>
      rw [ofJson, sentinelOrMap] at h
      split at h
      · cases h
      · cases h
    | _ => cases h
  · rintro rfl
    rfl

/-- Only the token of a string is built as one. -/
theorem build_eq_str {r : Raw} {s : Text} {remaining : ℕ} :
    tokens.build r remaining = some (.str s) ↔ ∃ body, r = .str body ∧ tokens.unescape body = some s := by
  constructor
  · intro h
    cases r with
    | str body =>
      obtain ⟨t, ht, heq⟩ := map_eq_some_iff.mp h
      obtain rfl : t = s := Json.str.inj heq
      exact ⟨body, rfl, ht⟩
    | number digits =>
      obtain ⟨n, -, heq⟩ := map_eq_some_iff.mp h
      cases n with
      | _ => cases heq
    | seq items =>
      rw [Tokeniser.build] at h
      split at h
      · cases h
      · obtain ⟨js, -, heq⟩ := map_eq_some_iff.mp h
        cases heq
    | map members =>
      rw [Tokeniser.build] at h
      split at h
      · cases h
      · obtain ⟨kvs, -, heq⟩ := map_eq_some_iff.mp h
        cases heq
    | _ => cases h
  · rintro ⟨body, rfl, h⟩
    rw [Tokeniser.build, h]
    rfl

/-- A sentinel that is built from members. -/
theorem sentinel_built_iff {members : List (Text × Raw)} (hborrowed : Tokeniser.Borrowed members)
    {kvs : List (Text × Json)} {remaining : ℕ} (h : tokens.buildMembers members remaining = some kvs) :
    (sentinelOf (ofJsonMembers kvs)).isSome ↔
      ∃ body tag, members = [("$f".toList, .str body)] ∧ tokens.unescape body = some tag ∧ tag ∈ sentinelTags := by
  have hbuilt := Tokeniser.map_buildMembers hborrowed h
  rw [sentinelOf_isSome_iff, ofJsonMembers_eq]
  constructor
  · rintro ⟨tag, hmem, hkvs⟩
    obtain ⟨⟨k, j⟩, rfl, heq⟩ := map_eq_singleton_iff.mp hkvs
    obtain ⟨rfl, hj⟩ := Prod.mk.inj heq
    obtain rfl := ofJson_eq_str.mp hj
    obtain ⟨⟨k, r⟩, rfl, heq⟩ := map_eq_singleton_iff.mp hbuilt
    obtain ⟨rfl, hr⟩ := Prod.mk.inj heq
    obtain ⟨body, rfl, hbody⟩ := build_eq_str.mp hr
    exact ⟨body, tag, rfl, hbody, hmem⟩
  · rintro ⟨body, tag, rfl, hbody, hmem⟩
    obtain ⟨⟨k, j⟩, rfl, heq⟩ := map_eq_singleton_iff.mp hbuilt.symm
    obtain ⟨rfl, hj⟩ := Prod.mk.inj heq
    obtain rfl := some.inj (hj.trans (build_eq_str.mpr ⟨body, rfl, hbody⟩))
    exact ⟨tag, hmem, rfl⟩

theorem getParsed_of_none (h : tokens.reader.document input = none) : getParsed tokens input key = none := by
  rw [getParsed, parseObject, parse, h]
  rfl

section

variable {members : List (Text × Raw)} {rest : Text} (hscan : tokens.scan input = some (.map members, rest))
  (hborrowed : Tokeniser.Borrowed members)

include hscan hborrowed

/-- A document that the parser refuses has no value at any key. -/
theorem getParsed_of_spoiled (h : Spoiled tokens members rest) : getParsed tokens input key = none := by
  have hdocument := Tokeniser.document_eq hscan
  by_cases hspace : rest.all Tokeniser.isSpace
  swap
  · rw [if_neg hspace] at hdocument
    exact getParsed_of_none hdocument
  rw [if_pos hspace] at hdocument
  rcases hbuilt : tokens.buildMembers members (Tokeniser.recursionLimit - 1) with _ | kvs
  · rw [hbuilt] at hdocument
    exact getParsed_of_none hdocument
  rw [hbuilt] at hdocument
  rw [getParsed_of_document hdocument]
  rcases h with hrest | ⟨m, hm, hnone⟩ | hsentinel
  · rw [hspace] at hrest
    cases hrest
  · -- what is in the document was built
    have hmem := mem_map_of_mem (f := fun m => (m.1, tokens.build m.2 (Tokeniser.recursionLimit - 1))) hm
    rw [Tokeniser.map_buildMembers hborrowed hbuilt] at hmem
    obtain ⟨kv, -, heq⟩ := mem_map.mp hmem
    have hsome : some kv.2 = tokens.build m.2 (Tokeniser.recursionLimit - 1) := congrArg Prod.snd heq
    rw [hnone] at hsome
    cases hsome
  · rw [if_pos ((sentinel_built_iff hborrowed hbuilt).mpr hsentinel)]

/-- One that it takes has the value of the first member of the key. -/
theorem getParsed_of_not_spoiled (h : ¬Spoiled tokens members rest) : getParsed tokens input key =
    (members.find? fun m => m.1 = key).bind fun m =>
      (tokens.build m.2 (Tokeniser.recursionLimit - 1)).map ofJson := by
  obtain ⟨hspace, h⟩ := not_or.mp h
  obtain ⟨hmembers, hsentinel⟩ := not_or.mp h
  have hdocument := Tokeniser.document_eq hscan
  rw [if_pos (Bool.eq_true_of_not_eq_false hspace)] at hdocument
  rcases hbuilt : tokens.buildMembers members (Tokeniser.recursionLimit - 1) with _ | kvs
  · exact absurd (Tokeniser.exists_unbuilt hborrowed hbuilt) hmembers
  rw [hbuilt] at hdocument
  rw [getParsed_of_document hdocument, if_neg fun h => hsentinel ((sentinel_built_iff hborrowed hbuilt).mp h)]
  have hfind := find?_members key kvs
  rw [← Tokeniser.map_buildMembers hborrowed hbuilt, find?_map] at hfind
  change (members.find? fun m => m.1 = key).map _ = _ at hfind
  rcases hm : members.find? fun m => m.1 = key with _ | m
  · rw [hm] at hfind
    rw [map_eq_none_iff.mp hfind.symm, hm]
    rfl
  · rw [hm] at hfind
    obtain ⟨kv, hkv, heq⟩ := map_eq_some_iff.mp hfind.symm
    have hsome : some kv.2 = tokens.build m.2 (Tokeniser.recursionLimit - 1) := congrArg Prod.snd heq
    rw [hkv, hm, bind_some, ← hsome]
    rfl

/-- What the walk finds. -/
theorem pickField_eq : pickField tokens.reader input key =
    ((members.find? fun m => m.1 = key).map fun m => tokens.build m.2 (Tokeniser.recursionLimit - 1)).elim
      (some none) (Option.map fun j => some (ofJson j)) := by
  have hfind : (members.map fun m => (m.1, tokens.build m.2 (Tokeniser.recursionLimit - 1))).find? (fun m => m.1 = key) =
      (members.find? fun m => m.1 = key).map fun m => (m.1, tokens.build m.2 (Tokeniser.recursionLimit - 1)) := by
    rw [find?_map]
    rfl
  rw [pickField, Tokeniser.members_eq hscan hborrowed]
  dsimp only
  rw [hfind]
  rcases hm : members.find? fun m => m.1 = key with _ | m
  · rw [hm]
    rfl
  · rw [hm]
    rcases hj : tokens.build m.2 (Tokeniser.recursionLimit - 1) with _ | j
    · simp [hj]
    · simp [hj]

end

/-- **Where picking a key gives what a complete parse gives**: everywhere but where the text is overlooked. -/
theorem jsonGet_exact_iff (tokens : Tokeniser) (input key : Text) :
    jsonGet tokens.reader input key = getParsed tokens input key ↔ ¬Overlooked tokens input key := by
  have hfallback (hpick : pickField tokens.reader input key = none) :
      jsonGet tokens.reader input key = getParsed tokens input key := by rw [jsonGet, hpick, getParsed]
  rcases hwalk : tokens.reader.members input with _ | ms
  · refine iff_of_true (hfallback (by rw [pickField, hwalk])) ?_
    rintro ⟨members, rest, m, v, hscan, hborrowed, -⟩
    rw [Tokeniser.members_eq hscan hborrowed] at hwalk
    cases hwalk
  obtain ⟨members, rest, hscan, hborrowed⟩ := Tokeniser.exists_of_members hwalk
  have hpick := @pickField_eq tokens input key members rest hscan hborrowed
  by_cases hspoiled : Spoiled tokens members rest
  · -- a value that is found is one too many
    have hparsed := @getParsed_of_spoiled tokens input key members rest hscan hborrowed hspoiled
    rw [hparsed]
    constructor
    · rintro hget ⟨members', rest', m, v, hscan', -, hfind, hbuild, -⟩
      obtain ⟨hmap, -⟩ := Prod.mk.inj (some.inj (hscan.symm.trans hscan'))
      obtain rfl := Raw.map.inj hmap
      rw [hfind, map_some, hbuild] at hpick
      rw [jsonGet, hpick] at hget
      cases hget
    · intro h
      rcases hfind : members.find? fun m => m.1 = key with _ | m
      · rw [hfind] at hpick
        rw [jsonGet, hpick]
        rfl
      rcases hbuild : tokens.build m.2 (Tokeniser.recursionLimit - 1) with _ | v
      · rw [hfind, map_some, hbuild] at hpick
        exact (hfallback hpick).trans hparsed
      · exact absurd ⟨members, rest, m, v, hscan, hborrowed, hfind, hbuild, hspoiled⟩ h
  · -- both find the first member of the key
    refine iff_of_true ?_ ?_
    · rcases hfind : members.find? fun m => m.1 = key with _ | m
      · rw [hfind] at hpick
        rw [jsonGet, hpick, @getParsed_of_not_spoiled tokens input key members rest hscan hborrowed hspoiled, hfind]
        rfl
      rcases hbuild : tokens.build m.2 (Tokeniser.recursionLimit - 1) with _ | v
      · rw [hfind, map_some, hbuild] at hpick
        exact hfallback hpick
      · rw [hfind, map_some, hbuild] at hpick
        rw [jsonGet, hpick, @getParsed_of_not_spoiled tokens input key members rest hscan hborrowed hspoiled, hfind,
          bind_some, hbuild]
        rfl
    · rintro ⟨members', rest', m, v, hscan', -, -, -, hspoiled'⟩
      obtain ⟨hmap, rfl⟩ := Prod.mk.inj (some.inj (hscan.symm.trans hscan'))
      obtain rfl := Raw.map.inj hmap
      exact hspoiled hspoiled'

/-- An object with something after it. -/
def trailingInput : Text := "\x7b\"k\":\"hit\"\x7d x".toList

/-- The tokens of that text. -/
def trailingTokens : Tokeniser where
  scan input := if input = trailingInput then some (.map [("k".toList, .str "hit".toList)], " x".toList) else none
  number _ := none
  unescape body := if '\\' ∈ body then none else some body
  plain _ h := if_neg h

/-- A value is found in a text that is no document. -/
theorem jsonGet_slips : jsonGet trailingTokens.reader trailingInput "k".toList = some (.str "hit".toList) ∧
    getParsed trailingTokens trailingInput "k".toList = none :=
  ⟨rfl, rfl⟩

end

end Imbh.Core
