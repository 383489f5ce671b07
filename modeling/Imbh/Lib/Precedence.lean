import Mathlib.Data.List.Infix
import Mathlib.Tactic.Ring

/-!
# Precedence grammars

Levels of left-associative binary operators over atoms and brackets, from the lowest precedence to the
highest, with a bound on the nesting of brackets: the grammar, and the recursive descent that reads it.
-/

namespace Imbh.Lib

open List Option

variable {T E : Type}

/-- The operators of a level: what a token makes of two operands. -/
abbrev Operators (T E : Type) : Type := T → Option (E → E → E)

/-- The tokens of a grammar. A token has one role at most. -/
structure Precedence (T E : Type) where
  atom : T → Option E
  opens : T → Bool
  closes : T → Bool
  levels : List (Operators T E)
  opens_closes : ∀ t, opens t = true → closes t = false
  bracket_atom : ∀ t, opens t = true ∨ closes t = true → atom t = none
  bracket_operator : ∀ t, opens t = true ∨ closes t = true → ∀ o ∈ levels, o t = none
  /-- A token is an operator of one level at most. -/
  level_unique : levels.Pairwise fun o o' => ∀ t, o t = none ∨ o' t = none

namespace Precedence

/-! ## The grammar -/

variable (g : Precedence T E)

/-- The sequences of some levels, with their trees: an atom or a bracket if there is no level, and else
operands of the levels above with operators of the lowest level between them. Brackets nest at most
that deep. -/
inductive Derives : ℕ → List (Operators T E) → List T → E → Prop
  | atom {room : ℕ} {t : T} {e : E} (h : g.atom t = some e) : Derives room [] [t] e
  | bracket {room : ℕ} {ts : List T} {e : E} {l r : T} (hl : g.opens l = true) (hr : g.closes r = true)
      (h : Derives room g.levels ts e) : Derives (room + 1) [] (l :: ts ++ [r]) e
  | one {room : ℕ} {o : Operators T E} {levels : List (Operators T E)} {ts : List T} {e : E}
      (h : Derives room levels ts e) : Derives room (o :: levels) ts e
  | binary {room : ℕ} {o : Operators T E} {levels : List (Operators T E)} {ts us : List T} {t : T}
      {a b : E} {f : E → E → E} (ha : Derives room (o :: levels) ts a) (ht : o t = some f)
      (hb : Derives room levels us b) : Derives room (o :: levels) (ts ++ t :: us) (f a b)

/-! ## The descent -/

/-- Further operands, as long as there is an operator. -/
def chainFrom (o : Operators T E) (operand : List T → Option (E × List T)) :
    ℕ → E → List T → Option (E × List T)
  | 0, e, ts => some (e, ts)
  | _ + 1, e, [] => some (e, [])
  | n + 1, e, t :: ts =>
      match o t with
      | none => some (e, t :: ts)
      | some f => do
          let (b, rest) ← operand ts
          chainFrom o operand n (f e b) rest

def parseLevels (operand : List T → Option (E × List T)) :
    List (Operators T E) → List T → Option (E × List T)
  | [], ts => operand ts
  | o :: levels, ts => do
      let (e, rest) ← parseLevels operand levels ts
      chainFrom o (parseLevels operand levels) rest.length e rest

/-- An operand; `inner` reads what is in brackets. -/
def parseOperand (inner : List T → Option (E × List T)) : List T → Option (E × List T)
  | [] => none
  | t :: ts =>
      if g.opens t then do
        let (e, rest) ← inner ts
        match rest with
        | r :: rest => if g.closes r then some (e, rest) else none
        | [] => none
      else (g.atom t).map fun e => (e, ts)

/-- A sequence whose brackets nest less deep than `room`. -/
def parse : ℕ → List T → Option (E × List T)
  | 0, _ => none
  | room + 1, ts => parseLevels (g.parseOperand (parse room)) g.levels ts

/-! ## Soundness -/

/-- What a parser reads is a sequence of some levels. -/
def Sound (room : ℕ) (levels : List (Operators T E)) (parser : List T → Option (E × List T)) : Prop :=
  ∀ ts e rest, parser ts = some (e, rest) → ∃ used, ts = used ++ rest ∧ g.Derives room levels used e

variable {g} {levels : List (Operators T E)} {operand : List T → Option (E × List T)} {room : ℕ} {ts : List T} {e : E}
  {rest : List T} {o : Operators T E}

/-- A chain that is read derives from what it used. -/
theorem chainFrom_sound (hoperand : g.Sound room levels operand) {n : ℕ} {a : E} {before : List T}
    (ha : g.Derives room (o :: levels) before a) (h : chainFrom o operand n a ts = some (e, rest)) :
    ∃ used, ts = used ++ rest ∧ g.Derives room (o :: levels) (before ++ used) e := by
  induction n generalizing a before ts with
  | zero =>
    cases h
    exact ⟨[], rfl, by simpa using ha⟩
  | succ n ih =>
    rcases ts with _ | ⟨t, ts⟩
    · cases h
      exact ⟨[], rfl, by simpa using ha⟩
    · unfold chainFrom at h
      split at h
      · cases h
        exact ⟨[], rfl, by simpa using ha⟩
      · rename_i f hf
        obtain ⟨⟨b, mid⟩, hb, hchain⟩ := bind_eq_some_iff.mp h
        obtain ⟨us, rfl, hus⟩ := hoperand _ _ _ hb
        obtain ⟨used, rfl, hused⟩ := ih (.binary ha hf hus) hchain
        exact ⟨t :: us ++ used, by simp, by simpa using hused⟩

/-- So does an expression of any level. -/
theorem parseLevels_sound (hoperand : g.Sound room [] operand) (levels : List (Operators T E)) :
    g.Sound room levels (parseLevels operand levels) := by
  induction levels with
  | nil => exact hoperand
  | cons o levels ih =>
    intro ts e rest h
    obtain ⟨⟨a, mid⟩, ha, hchain⟩ := bind_eq_some_iff.mp h
    obtain ⟨before, rfl, hbefore⟩ := ih _ _ _ ha
    obtain ⟨used, rfl, hused⟩ := chainFrom_sound ih (.one hbefore) hchain
    exact ⟨before ++ used, by simp, hused⟩

/-- So does an operand, in parentheses or not. -/
theorem parseOperand_sound {inner : List T → Option (E × List T)}
    (hinner : ∀ ts e rest, inner ts = some (e, rest) →
      ∃ room', room = room' + 1 ∧ ∃ used, ts = used ++ rest ∧ g.Derives room' g.levels used e) :
    g.Sound room [] (g.parseOperand inner) := by
  intro ts e rest h
  rcases ts with _ | ⟨t, ts⟩
  · cases h
  · rw [parseOperand] at h
    split at h
    · rename_i hopen
      obtain ⟨⟨a, mid⟩, ha, hclose⟩ := bind_eq_some_iff.mp h
      obtain ⟨room, rfl, used, rfl, hused⟩ := hinner _ _ _ ha
      rcases mid with _ | ⟨r, mid⟩
      · cases hclose
      · dsimp only at hclose
        split at hclose
        · rename_i hr
          cases hclose
          exact ⟨t :: used ++ [r], by simp, .bracket hopen hr hused⟩
        · cases hclose
    · obtain ⟨a, ha, heq⟩ := map_eq_some_iff.mp h
      cases heq
      exact ⟨[t], rfl, .atom ha⟩

/-- What is parsed derives from the tokens that were used. -/
theorem parse_sound (h : g.parse (room + 1) ts = some (e, rest)) :
    ∃ used, ts = used ++ rest ∧ g.Derives room g.levels used e := by
  induction room generalizing ts e rest with
  | zero =>
    refine parseLevels_sound (parseOperand_sound ?_) g.levels ts e rest h
    intro ts e rest h
    cases h
  | succ room ih =>
    refine parseLevels_sound (parseOperand_sound ?_) g.levels ts e rest h
    exact fun ts e rest h => ⟨room, rfl, ih h⟩

/-! ## Completeness -/

/-- No operator of the levels comes next. -/
def Quiet (levels : List (Operators T E)) (rest : List T) : Prop :=
  ∀ t ∈ rest.head?, ∀ o ∈ levels, o t = none

theorem chainFrom_quiet {n : ℕ} (h : ∀ t ∈ rest.head?, o t = none) :
    chainFrom o operand n e rest = some (e, rest) := by
  rcases n with _ | n
  · rfl
  · rcases rest with _ | ⟨t, rest⟩
    · rfl
    · rw [chainFrom, h t rfl]

/-- Rounds that are not used do not matter. -/
theorem chainFrom_congr (hoperand : g.Sound room levels operand) {n m : ℕ} (hn : ts.length ≤ n) (hm : ts.length ≤ m) :
    chainFrom o operand n e ts = chainFrom o operand m e ts := by
  induction n generalizing m e ts with
  | zero =>
    rcases ts with _ | ⟨t, ts⟩
    · exact (chainFrom_quiet (by simp)).symm
    · exact absurd hn (by simp)
  | succ n ih =>
    rcases ts with _ | ⟨t, ts⟩
    · exact (chainFrom_quiet (by simp)).symm
    rcases m with _ | m
    · exact absurd hm (by simp)
    rw [chainFrom, chainFrom]
    rcases ho : o t with _ | f
    · rfl
    · dsimp only
      rcases hb : operand ts with _ | ⟨b, rest⟩
      · rfl
      · obtain ⟨used, rfl, -⟩ := hoperand _ _ _ hb
        simp only [length_cons, length_append] at hn hm
        show chainFrom o operand n (f e b) rest = chainFrom o operand m (f e b) rest
        exact ih (by omega) (by omega)

/-- The descent of some levels behind its first operands: the chain of the lowest level. -/
def goesOn (operand : List T → Option (E × List T)) :
    List (Operators T E) → E → List T → Option (E × List T)
  | [], e, rest => some (e, rest)
  | o :: levels, e, rest => chainFrom o (parseLevels operand levels) rest.length e rest

theorem goesOn_quiet (h : Quiet levels rest) : goesOn operand levels e rest = some (e, rest) := by
  rcases levels with _ | ⟨o, levels⟩
  · rfl
  · exact chainFrom_quiet fun t ht => h t ht o mem_cons_self

theorem Quiet.tail (h : Quiet levels rest) : Quiet levels.tail rest := fun t ht o ho => h t ht o (mem_of_mem_tail ho)

theorem operand_sound (room : ℕ) : g.Sound room [] (g.parseOperand (g.parse room)) := by
  apply parseOperand_sound
  intro ts e rest h
  rcases room with _ | room
  · cases h
  · exact ⟨room, rfl, parse_sound h⟩

/-- The descent reads a sequence, where no operator of a level above the lowest one follows. -/
theorem parseLevels_append (h : g.Derives room levels ts e) (hlevels : levels <:+ g.levels)
    (hquiet : Quiet levels.tail rest) :
    parseLevels (g.parseOperand (g.parse room)) levels (ts ++ rest) =
      goesOn (g.parseOperand (g.parse room)) levels e rest := by
  induction h generalizing rest with
  | @atom room t e h =>
    have hopen : g.opens t = false := by
      by_contra hopen
      rw [g.bracket_atom t (.inl (by simpa using hopen))] at h
      cases h
    simp [parseLevels, parseOperand, hopen, h, goesOn]
  | @bracket room ts e l r hl hr _ ih =>
    have hclosed : Quiet g.levels (r :: rest) := by
      rintro _ ⟨⟩ o ho
      exact g.bracket_operator r (.inr hr) o ho
    have hinner : g.parse (room + 1) (ts ++ r :: rest) = some (e, r :: rest) := by
      rw [parse, ih suffix_rfl hclosed.tail, goesOn_quiet hclosed]
    simp [parseLevels, parseOperand, hl, hr, hinner, goesOn]
  | @one room o levels ts e _ ih =>
    have hquiet : Quiet levels rest := hquiet
    have hread := ih ((suffix_cons o levels).trans hlevels) hquiet.tail
    rw [goesOn_quiet hquiet] at hread
    rw [parseLevels, hread]
    rfl
  | @binary room o levels ts us t a b f _ ht _ iha ihb =>
    have hquiet : Quiet levels rest := hquiet
    have hread := ihb ((suffix_cons o levels).trans hlevels) hquiet.tail
    rw [goesOn_quiet hquiet] at hread
    have hleft : Quiet levels (t :: us ++ rest) := by
      rintro _ ⟨⟩ o' ho'
      rcases (pairwise_cons.mp (g.level_unique.sublist hlevels.sublist)).1 o' ho' t with hnone | hnone
      · rw [hnone] at ht
        cases ht
      · exact hnone
    have hround : chainFrom o (parseLevels (g.parseOperand (g.parse room)) levels)
        ((us ++ rest).length + 1) a (t :: (us ++ rest)) =
          chainFrom o (parseLevels (g.parseOperand (g.parse room)) levels) (us ++ rest).length (f a b) rest := by
      rw [chainFrom, ht]
      simp only [hread]
      rfl
    rw [append_assoc, iha hlevels hleft]
    exact hround.trans
      (chainFrom_congr (parseLevels_sound (operand_sound room) levels) (by simp) (Nat.le_refl _))

/-- The descent accepts the sequences of the grammar, with their trees. -/
theorem parse_eq_some_iff : g.parse (room + 1) ts = some (e, []) ↔ g.Derives room g.levels ts e := by
  constructor
  · intro h
    obtain ⟨used, rfl, hused⟩ := parse_sound h
    simpa using hused
  · intro h
    have hnil : ∀ levels : List (Operators T E), Quiet levels [] := fun _ _ ht => nomatch ht
    have hread := parseLevels_append h suffix_rfl (hnil (g.levels.tail))
    rw [goesOn_quiet (hnil g.levels), append_nil] at hread
    exact hread

/-- A sequence has one tree. -/
theorem Derives.unique {a b : E} (ha : g.Derives room g.levels ts a) (hb : g.Derives room g.levels ts b) : a = b := by
  have h := (parse_eq_some_iff.mpr ha).symm.trans (parse_eq_some_iff.mpr hb)
  cases h
  rfl

/-- A sequence of some levels is one of more levels below them. -/
theorem Derives.lift {levels' : List (Operators T E)} (h : g.Derives room levels ts e) (hlevels : levels <:+ levels') :
    g.Derives room levels' ts e := by
  obtain ⟨front, rfl⟩ := hlevels
  induction front with
  | nil => exact h
  | cons o front ih => exact .one ih

/-! ## Printing -/

/-- A tree over the tokens of a grammar. -/
inductive Tree (g : Precedence T E)
  | atom (t : T) (e : E) (h : g.atom t = some e)
  | node (o : Operators T E) (ho : o ∈ g.levels) (t : T) (f : E → E → E) (h : o t = some f) (a b : Tree g)

namespace Tree

def value : Tree g → E
  | atom _ e _ => e
  | node _ _ _ f _ a b => f a.value b.value

/-- The tree with brackets around each operator and its operands. -/
def print (l r : T) : Tree g → List T
  | atom t _ _ => [t]
  | node _ _ t _ _ a b => l :: (a.print l r ++ t :: b.print l r) ++ [r]

/-- How deep the brackets nest. -/
def height : Tree g → ℕ
  | atom _ _ _ => 0
  | node _ _ _ _ _ a b => max a.height b.height + 1

/-- A tree derives from what it is printed as. -/
theorem derives_print {l r : T} (hl : g.opens l = true) (hr : g.closes r = true) (t : Tree g) (h : t.height ≤ room) :
    g.Derives room [] (t.print l r) t.value := by
  induction t generalizing room with
  | atom t e he => exact .atom he
  | node o ho t f hf a b iha ihb =>
    obtain ⟨room, rfl⟩ := Nat.exists_eq_succ_of_ne_zero (Nat.ne_of_gt (Nat.lt_of_lt_of_le (Nat.succ_pos _) h))
    have hmax : max a.height b.height ≤ room := Nat.le_of_succ_le_succ h
    have ha := iha (le_trans (le_max_left _ _) hmax)
    have hb := ihb (le_trans (le_max_right _ _) hmax)
    obtain ⟨front, back, hlevels⟩ := append_of_mem ho
    have hnode : g.Derives room (o :: back) (a.print l r ++ t :: b.print l r) (f a.value b.value) :=
      .binary (ha.lift nil_suffix) hf (hb.lift nil_suffix)
    refine .bracket hl hr (hnode.lift ?_)
    rw [hlevels]
    exact suffix_append _ _

end Tree

/-! ### Nesting -/

/-- The brackets that a sequence opens and does not close. -/
def excess (g : Precedence T E) (ts : List T) : ℤ := ts.countP g.opens - ts.countP g.closes

@[simp] theorem excess_nil : g.excess [] = 0 := rfl

@[simp] theorem excess_append (ts us : List T) : g.excess (ts ++ us) = g.excess ts + g.excess us := by
  simp only [excess, countP_append, Nat.cast_add]
  ring

theorem excess_cons (t : T) (ts : List T) : g.excess (t :: ts) = g.excess [t] + g.excess ts :=
  excess_append [t] ts

theorem excess_opens {t : T} (h : g.opens t = true) : g.excess [t] = 1 := by
  simp [excess, h, g.opens_closes t h]

theorem excess_closes {t : T} (h : g.closes t = true) : g.excess [t] = -1 := by
  have hopens : g.opens t = false := by
    by_contra hopens
    rw [g.opens_closes t (by simpa using hopens)] at h
    cases h
  simp [excess, h, hopens]

/-- A token that is no bracket. -/
theorem excess_other {t : T} (h : ¬ (g.opens t = true ∨ g.closes t = true)) : g.excess [t] = 0 := by
  rw [not_or] at h
  simp [excess, h.1, h.2]

theorem excess_atom {t : T} (h : g.atom t = some e) : g.excess [t] = 0 := by
  apply excess_other
  intro hbracket
  rw [g.bracket_atom t hbracket] at h
  cases h

theorem excess_operator (ho : o ∈ g.levels) {t : T} {f : E → E → E} (h : o t = some f) : g.excess [t] = 0 := by
  apply excess_other
  intro hbracket
  rw [g.bracket_operator t hbracket o ho] at h
  cases h

/-- A sequence closes its brackets. -/
theorem Derives.excess_eq (h : g.Derives room levels ts e) (hlevels : levels <:+ g.levels) : g.excess ts = 0 := by
  induction h with
  | atom h => exact excess_atom h
  | bracket hl hr _ ih =>
    rw [excess_append, excess_cons, excess_opens hl, excess_closes hr, ih suffix_rfl]
    norm_num
  | one _ ih => exact ih ((suffix_cons _ _).trans hlevels)
  | binary _ ht _ iha ihb =>
    have ho := hlevels.subset mem_cons_self
    rw [excess_append, excess_cons, excess_operator ho ht, iha hlevels,
      ihb ((suffix_cons _ _).trans hlevels)]
    norm_num

/-- Nowhere in a sequence are more brackets open. -/
theorem Derives.excess_le (h : g.Derives room levels ts e) (hlevels : levels <:+ g.levels) {front : List T}
    (hfront : front <+: ts) : g.excess front ≤ room := by
  induction h generalizing front with
  | atom h =>
    rcases prefix_cons_iff.mp hfront with rfl | ⟨rest, rfl, hrest⟩
    · simp
    · rw [prefix_nil.mp hrest, excess_atom h]
      simp
  | @bracket room ts e l r hl hr h ih =>
    rcases prefix_concat_iff.mp hfront with rfl | hfront
    · rw [excess_append, excess_cons, excess_opens hl, excess_closes hr, h.excess_eq suffix_rfl]
      omega
    · rcases prefix_cons_iff.mp hfront with rfl | ⟨rest, rfl, hrest⟩
      · simp
        omega
      · have hle := ih suffix_rfl hrest
        rw [excess_cons, excess_opens hl, Nat.cast_add, Nat.cast_one]
        omega
  | one _ ih => exact ih ((suffix_cons _ _).trans hlevels) hfront
  | @binary room o levels ts us t a b f ha ht _ iha ihb =>
    have hupper := (suffix_cons o levels).trans hlevels
    rcases prefix_or_prefix_of_prefix hfront (prefix_append ts (t :: us)) with hfront | ⟨rest, rfl⟩
    · exact iha hlevels hfront
    · rcases prefix_cons_iff.mp ((prefix_append_right_inj ts).mp hfront) with rfl | ⟨rest, rfl, hrest⟩
      · rw [append_nil]
        exact iha hlevels prefix_rfl
      · rw [excess_append, excess_cons, ha.excess_eq hlevels,
          excess_operator (hlevels.subset mem_cons_self) ht]
        simpa using ihb hupper hrest

namespace Tree

theorem excess_print {l r : T} (hl : g.opens l = true) (hr : g.closes r = true) (t : Tree g) :
    g.excess (t.print l r) = 0 := (derives_print hl hr t le_rfl).excess_eq nil_suffix

/-- Before a deepest atom, as many brackets are open. -/
theorem exists_excess {l r : T} (hl : g.opens l = true) (hr : g.closes r = true) (t : Tree g) :
    ∃ front, front <+: t.print l r ∧ g.excess front = t.height := by
  induction t with
  | atom t e h => exact ⟨[], nil_prefix, rfl⟩
  | node o ho t f h a b iha ihb =>
    obtain ⟨fronta, ⟨resta, hresta⟩, ha⟩ := iha
    obtain ⟨frontb, ⟨restb, hrestb⟩, hb⟩ := ihb
    rcases le_total a.height b.height with hle | hle
    · refine ⟨l :: (a.print l r ++ t :: frontb), ⟨restb ++ [r], by simp [print, ← hrestb]⟩, ?_⟩
      rw [excess_cons, excess_opens hl, excess_append, excess_print hl hr, excess_cons, excess_operator ho h, hb,
        height, max_eq_right hle]
      push_cast
      ring
    · refine ⟨l :: fronta, ⟨resta ++ (t :: b.print l r ++ [r]), by simp [print, ← hresta]⟩, ?_⟩
      rw [excess_cons, excess_opens hl, ha, height, max_eq_left hle]
      push_cast
      ring

/-- What is printed is a sequence of the grammar exactly if its brackets nest no deeper. -/
theorem derives_print_iff {l r : T} (hl : g.opens l = true) (hr : g.closes r = true) (t : Tree g) :
    g.Derives room g.levels (t.print l r) e ↔ e = t.value ∧ t.height ≤ room := by
  constructor
  · intro h
    obtain ⟨front, hfront, hexcess⟩ := exists_excess hl hr t
    have hle := h.excess_le suffix_rfl hfront
    have hroom : t.height ≤ room := by omega
    exact ⟨h.unique ((derives_print hl hr t hroom).lift nil_suffix), hroom⟩
  · rintro ⟨rfl, h⟩
    exact (derives_print hl hr t h).lift nil_suffix

end Tree

end Precedence

end Imbh.Lib
