import Imbh.Lib.Text

/-!
# Text search terms

The tokenizer that the index and the row-wise filter share. What is alphanumeric and how a character
is lowercased are the tables of the language's library.
-/

namespace Imbh.Core

open Lib

/-- The Unicode tables. -/
structure CharTable where
  isAlphanumeric : Char → Bool
  toLowercase : Char → Text

variable (table : CharTable)

/-- The loop of the tokenizer, with the token `cur` begun.
Source: `text.rs` `tokenize` -/
def tokenizeFrom (cur : Text) : Text → List Text
  | [] => if cur = [] then [] else [cur]
  | c :: text =>
      if table.isAlphanumeric c then tokenizeFrom (cur ++ table.toLowercase c) text
      else if cur = [] then tokenizeFrom [] text
      else cur :: tokenizeFrom [] text

/-- Source: `text.rs` `tokenize` -/
def tokenize (text : Text) : List Text := tokenizeFrom table [] text

/-- Every term of the query is a term of the text.
Source: `text.rs` `matches_terms` -/
def matchesTerms (haystack query : Text) : Bool :=
  let terms := tokenize table query
  if terms = [] then true else terms.all fun t => t ∈ tokenize table haystack

/-- A text matches a query whose terms are all among its own. -/
theorem matchesTerms_iff (haystack query : Text) : matchesTerms table haystack query = true ↔
    ∀ t ∈ tokenize table query, t ∈ tokenize table haystack := by
  unfold matchesTerms
  dsimp only
  split
  · rename_i h
    rw [h]
    exact ⟨fun _ t ht => absurd ht List.not_mem_nil, fun _ => rfl⟩
  · rw [List.all_eq_true]
    simp only [decide_eq_true_eq]

end Imbh.Core
