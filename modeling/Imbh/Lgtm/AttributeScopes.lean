import Imbh.Lgtm.Candidates
import Imbh.Otlp.Spans

/-!
# Attributes at their scopes

The string attributes of a span, of its resource, its scope, its events and its links, from the request to the typed
attributes that a predicate is evaluated over.

* `attribute_visible_iff` — a predicate sees the attributes of its scope exactly if none that is asked for is hidden
  and no field stands for one.
-/

namespace Imbh.Lgtm

open Lib Imbh.Core Traces Otlp List Option
open Docker (PbValue KeyValue)

/-! ## Typed attributes -/

theorem get_append (a b : TypedAttributes) (key : Text) :
    TypedAttributes.get (a ++ b) key = (TypedAttributes.get b key).or (TypedAttributes.get a key) := by
  unfold TypedAttributes.get
  rw [reverse_append, find?_append, map_or]

variable {key : Text} {v : SemanticValue} {l : List (Text × AnyValue)}

theorem get_eq_some {a : TypedAttributes} (hnodup : (a.map Prod.fst).Nodup) : a.get key = some v ↔ (key, v) ∈ a := by
  unfold TypedAttributes.get
  constructor
  · intro h
    obtain ⟨⟨k, w⟩, hfind, rfl⟩ := map_eq_some_iff.mp h
    have hkey := find?_some hfind
    rw [decide_eq_true_eq] at hkey
    rw [← hkey]
    exact mem_reverse.mp (mem_of_find?_eq_some hfind)
  · intro hmem
    rcases hfind : a.reverse.find? (fun kv => kv.1 = key) with _ | ⟨k, w⟩
    · exact absurd (find?_eq_none.mp hfind _ (mem_reverse.mpr hmem)) (by simp)
    · have hkey := find?_some hfind
      rw [decide_eq_true_eq] at hkey
      have hw := inj_on_of_nodup_map hnodup (mem_reverse.mp (mem_of_find?_eq_some hfind)) hmem hkey
      rw [hfind, hw]
      rfl

/-- The typed attributes are those with a value that queries have. -/
theorem mem_typedAttributes : (key, v) ∈ typedAttributes l ↔ ∃ a, (key, a) ∈ l ∧ semanticValue a = some v := by
  unfold typedAttributes
  rw [mem_filterMap]
  constructor
  · rintro ⟨⟨k, a⟩, hmem, heq⟩
    obtain ⟨w, hw, heq⟩ := map_eq_some_iff.mp heq
    obtain ⟨rfl, rfl⟩ := Prod.mk.inj heq
    exact ⟨a, hmem, hw⟩
  · rintro ⟨a, hmem, hv⟩
    exact ⟨(key, a), hmem, by rw [hv]; rfl⟩

theorem nodup_typedAttributes (h : (l.map Prod.fst).Nodup) : ((typedAttributes l).map Prod.fst).Nodup := by
  refine h.sublist ?_
  unfold typedAttributes
  induction l with
  | nil => exact Sublist.slnil
  | cons kv l ih =>
    have hrest := ih (nodup_cons.mp h).2
    rw [filterMap_cons]
    rcases semanticValue kv.2 with _ | v
    · exact hrest.cons _
    · exact hrest.cons_cons _

/-- What a key of an object with distinct keys gives, after the JSON. -/
theorem get_typedAttributes {es : List (Text × AnyValue)} (h : (es.map Prod.fst).Nodup) :
    (typedAttributes (readMembers es)).get key = some v ↔
      ∃ a, (key, a) ∈ es ∧ semanticValue (ofJson (canonical a)) = some v := by
  rw [get_eq_some (nodup_typedAttributes (nodup_readMembers h)), mem_typedAttributes]
  constructor
  · rintro ⟨b, hmem, hv⟩
    obtain ⟨a, ha, rfl⟩ := mem_readMembers.mp hmem
    exact ⟨a, ha, hv⟩
  · rintro ⟨a, ha, hv⟩
    exact ⟨_, mem_readMembers.mpr ⟨a, ha, rfl⟩, hv⟩

/-! ## Strings -/

/-- Attributes of distinct keys whose values are strings. -/
structure Strings (attributes : List KeyValue) : Prop where
  nodup : (attributes.map Prod.fst).Nodup
  string : ∀ kv ∈ attributes, ∃ s, kv.2 = .string s

/-- The attributes look like the sentinel of a double. -/
def Sentinel (attributes : List KeyValue) : Prop :=
  ∃ tag ∈ ["nan", "inf", "-inf"], attributes = [("$f".toList, .string tag.toList)]

variable {attributes : List KeyValue} {fields : List (Text × AnyValue)}

/-- String attributes are pairs of strings. -/
theorem mem_kvsToPairs_str (h : Strings attributes) {a : AnyValue} :
    (key, a) ∈ kvsToPairs attributes ↔ ∃ s, a = .str s ∧ (key, .string s) ∈ attributes := by
  rw [kvsToPairs_eq, List.mem_map]
  constructor
  · rintro ⟨⟨k, v⟩, hmem, heq⟩
    obtain ⟨s, hs⟩ := h.string _ hmem
    obtain ⟨rfl, rfl⟩ := Prod.mk.inj heq
    dsimp only at hs
    subst hs
    exact ⟨s, rfl, hmem⟩
  · rintro ⟨s, rfl, hmem⟩
    exact ⟨_, hmem, rfl⟩

theorem length_readMembers (es : List (Text × AnyValue)) : (readMembers es).length = es.length := by
  rw [readMembers, length_map, length_insertionSort]

/-- String attributes are a sentinel only as one of the three pairs. -/
theorem sentinelOf_strings (h : Strings attributes) :
    (sentinelOf (readMembers (kvsToPairs attributes))).isSome ↔ Sentinel attributes := by
  constructor
  · intro hsome
    obtain ⟨tag, hpairs⟩ := sentinelOf_isSome hsome
    have hlength : attributes.length = 1 := by
      have heq := congrArg List.length hpairs
      rwa [length_readMembers, kvsToPairs_eq, length_map] at heq
    obtain ⟨⟨key, v⟩, rfl⟩ := length_eq_one_iff.mp hlength
    obtain ⟨s, hs⟩ := h.string (key, v) mem_cons_self
    dsimp only at hs
    subst hs
    change (sentinelOf [(key, .str s)]).isSome = true at hsome
    unfold sentinelOf at hsome
    dsimp only at hsome
    split at hsome
    · rename_i hkey
      rw [hkey]
      split at hsome
      · rename_i htag
        exact ⟨"nan", by simp, by rw [htag]⟩
      · split at hsome
        · rename_i htag
          exact ⟨"inf", by simp, by rw [htag]⟩
        · split at hsome
          · rename_i htag
            exact ⟨"-inf", by simp, by rw [htag]⟩
          · exact absurd hsome (by simp)
    · exact absurd hsome (by simp)
  · rintro ⟨tag, htag, rfl⟩
    simp only [mem_cons, not_mem_nil, or_false] at htag
    rcases htag with rfl | rfl | rfl <;> rfl

/-- What an object of string attributes is read as. -/
theorem ofJson_strings (h : Strings attributes) :
    (Sentinel attributes ∧ ∃ d, ofJson (canonical (.map (kvsToPairs attributes))) = .double d) ∨
      (¬Sentinel attributes ∧
        ofJson (canonical (.map (kvsToPairs attributes))) = .map (readMembers (kvsToPairs attributes))) := by
  rw [ofJson_canonical_map, sentinelOrMap, ← sentinelOf_strings h]
  rcases sentinelOf (readMembers (kvsToPairs attributes)) with _ | d
  · exact .inr ⟨by simp, rfl⟩
  · exact .inl ⟨rfl, d, rfl⟩

/-- The typed attributes of an object, if it is one. -/
def typedMap : AnyValue → TypedAttributes
  | .map entries => typedAttributes entries
  | _ => []

/-- The key of an attribute gives its string, unless the attributes look like a sentinel. -/
theorem get_strings (h : Strings attributes) :
    (typedMap (ofJson (canonical (.map (kvsToPairs attributes))))).get key = some v ↔
      ∃ s, v = .string s ∧ (key, .string s) ∈ attributes ∧ ¬Sentinel attributes := by
  rcases ofJson_strings h with ⟨hsentinel, d, heq⟩ | ⟨hsentinel, heq⟩
  · rw [heq]
    simp [typedMap, TypedAttributes.get, hsentinel]
  · have hnodup : ((kvsToPairs attributes).map Prod.fst).Nodup := map_fst_kvsToPairs attributes ▸ h.nodup
    rw [heq, typedMap, get_typedAttributes hnodup]
    constructor
    · rintro ⟨a, ha, hv⟩
      obtain ⟨s, rfl, hmem⟩ := (mem_kvsToPairs_str h).mp ha
      exact ⟨s, (some.inj hv).symm, hmem, hsentinel⟩
    · rintro ⟨s, rfl, hmem, -⟩
      exact ⟨.str s, (mem_kvsToPairs_str h).mpr ⟨s, rfl, hmem⟩, rfl⟩

/-- A value that is not an array equals a string exactly if it is that string. -/
theorem compareValue_string_iff (regex : Text → Option (Text → Bool)) {actual : Option SemanticValue}
    (harray : ∀ values, actual ≠ some (.array values)) (v : Text) :
    ∃ b, compareValue regex actual .eq (.string v) = .ok b ∧ (b = true ↔ actual = some (.string v)) := by
  rcases actual with _ | a
  · exact ⟨false, rfl, by simp⟩
  · cases a with
    | array values => exact absurd rfl (harray values)
    | string s => exact ⟨decide (s = v), rfl, by simp⟩
    | nil => exact ⟨false, rfl, by simp⟩
    | boolean b => exact ⟨false, rfl, by simp⟩
    | integer i => exact ⟨false, rfl, by simp⟩
    | float f => exact ⟨false, rfl, by simp⟩
    | durationNs ns => exact ⟨false, rfl, by simp⟩
    | bytes b => exact ⟨false, rfl, by simp⟩

/-- A predicate on items holds exactly if it holds of one of them. -/
theorem anyItem_string (regex : Text → Option (Text → Bool)) {items : List TypedAttributes}
    (harray : ∀ item ∈ items, ∀ values, item.get key ≠ some (.array values)) (v : Text) :
    anyItem regex key .eq (.string v) items = .ok true ↔ ∃ item ∈ items, item.get key = some (.string v) := by
  induction items with
  | nil => simp [anyItem, pure, Except.pure]
  | cons item items ih =>
    obtain ⟨b, hb, hiff⟩ := compareValue_string_iff regex (harray item mem_cons_self) v
    have hrest := ih fun item hitem => harray item (mem_cons_of_mem _ hitem)
    rw [anyItem, hb, exists_mem_cons_iff, ← hiff, ← hrest]
    cases b
    · simp [bind, Except.bind]
    · simp [bind, Except.bind, pure, Except.pure]

/-! ## Objects with attributes as a field -/

/-- Fields of distinct keys that come after the one of the attributes. -/
structure Fields (fields : List (Text × AnyValue)) : Prop where
  nodup : (fields.map Prod.fst).Nodup
  above : ∀ f ∈ fields, "attributes".toList < f.1
  value : ∀ f ∈ fields, (∃ s, f.2 = .str s) ∨ ∃ i, f.2 = .int i

/-- No object with such fields is a sentinel. -/
theorem Fields.sentinelOf_eq_none (h : Fields fields) (attributes : List KeyValue) :
    sentinelOf (readMembers (fields ++ attributesField attributes)) = none := by
  by_contra hne
  obtain ⟨tag, hpairs⟩ := sentinelOf_isSome (isSome_iff_ne_none.mpr hne)
  have hmem : ("$f".toList, AnyValue.str tag) ∈ readMembers (fields ++ attributesField attributes) := by
    rw [hpairs]
    exact mem_cons_self
  obtain ⟨a, ha, -⟩ := mem_readMembers.mp hmem
  rcases mem_append.mp ha with ha | ha
  · have hlt : "attributes".toList < "$f".toList := h.above _ ha
    exact absurd hlt (by decide)
  · exact absurd (mem_field.mp ha).1 (by decide)

/-- What a member of an object gives. -/
def itemFields (kv : Text × AnyValue) : TypedAttributes :=
  if kv.1 = "attributes".toList then typedMap kv.2 else typedAttributes [kv]

theorem itemFields_attributes (v : AnyValue) (hkey : key = "attributes".toList) :
    itemFields (key, v) = typedMap v := by
  unfold itemFields
  rw [if_pos hkey]

theorem typedScopedItem_map (fields : List (Text × AnyValue)) :
    typedScopedItem (.map fields) = some (fields.flatMap itemFields) := by
  rw [typedScopedItem]
  refine congrArg (fun f => some (fields.flatMap f)) (funext fun kv => ?_)
  rcases kv with ⟨key, v⟩
  unfold itemFields
  cases v <;> rfl

theorem flatMap_itemFields (h : ∀ kv ∈ l, kv.1 ≠ "attributes".toList) : l.flatMap itemFields = typedAttributes l := by
  induction l with
  | nil => rfl
  | cons kv l ih =>
    obtain ⟨hkv, hl⟩ := forall_mem_cons.mp h
    rw [flatMap_cons, itemFields, if_neg hkv, ih hl]
    exact (@filterMap_append _ _ [kv] l _).symm

/-- The typed attributes of an object: those of its attributes, then its other fields. -/
def scopedItem (fields : List (Text × AnyValue)) (attributes : List KeyValue) : TypedAttributes :=
  typedMap (ofJson (canonical (.map (kvsToPairs attributes)))) ++ typedAttributes (readMembers fields)

/-- An item of a scope is read back with its fields and its attributes. -/
theorem typedScopedItem_eq (h : Fields fields) (attributes : List KeyValue) :
    typedScopedItem (ofJson (canonical (.map (fields ++ attributesField attributes)))) =
      some (scopedItem fields attributes) := by
  have hfields : ∀ kv ∈ readMembers fields, kv.1 ≠ "attributes".toList := by
    rintro ⟨key, v⟩ hmem rfl
    obtain ⟨a, ha, -⟩ := mem_readMembers.mp hmem
    exact lt_irrefl _ (h.above _ ha)
  rw [ofJson_canonical_map, sentinelOrMap, h.sentinelOf_eq_none]
  dsimp only
  rw [typedScopedItem_map]
  unfold scopedItem
  by_cases hnil : attributes = []
  · subst hnil
    have hempty : fields ++ attributesField [] = fields := append_nil fields
    rw [hempty, flatMap_itemFields hfields]
    rfl
  · have hfield : attributesField attributes = [("attributes".toList, .map (kvsToPairs attributes))] := by
      simp [attributesField, field, hnil]
    rw [hfield, readMembers_concat_least h.above, flatMap_cons, itemFields_attributes _ rfl,
      flatMap_itemFields hfields]

/-- What a field is found as. -/
theorem Fields.get (h : Fields fields) :
    (typedAttributes (readMembers fields)).get key = some v ↔
      (∃ s, v = .string s ∧ (key, .str s) ∈ fields) ∨ ∃ i, v = .integer i ∧ (key, .int i) ∈ fields := by
  rw [get_typedAttributes h.nodup]
  constructor
  · rintro ⟨a, ha, hv⟩
    rcases h.value _ ha with ⟨s, hs⟩ | ⟨i, hi⟩
    · dsimp only at hs
      subst hs
      exact .inl ⟨s, (some.inj hv).symm, ha⟩
    · dsimp only at hi
      subst hi
      rw [ofJson_canonical_int] at hv
      exact .inr ⟨i, (some.inj hv).symm, ha⟩
  · rintro (⟨s, rfl, ha⟩ | ⟨i, rfl, ha⟩)
    · exact ⟨_, ha, rfl⟩
    · exact ⟨_, ha, by rw [ofJson_canonical_int]; rfl⟩

/-- What a key of such an object gives: a field first, then an attribute. -/
theorem get_scopedItem (h : Fields fields) (hstrings : Strings attributes) {v : Text} :
    (scopedItem fields attributes).get key = some (.string v) ↔
      (key, .str v) ∈ fields ∨
        (key, .string v) ∈ attributes ∧ ¬(key ∈ fields.map Prod.fst ∨ Sentinel attributes) := by
  unfold scopedItem
  rw [get_append]
  rcases hget : (typedAttributes (readMembers fields)).get key with _ | w
  · have hnone : key ∉ fields.map Prod.fst := by
      intro hmem
      obtain ⟨⟨k, a⟩, ha, rfl⟩ := mem_map.mp hmem
      rcases h.value _ ha with ⟨s, hs⟩ | ⟨i, hi⟩
      · rw [h.get.mpr (.inl ⟨s, rfl, hs ▸ ha⟩)] at hget
        exact nomatch hget
      · rw [h.get.mpr (.inr ⟨i, rfl, hi ▸ ha⟩)] at hget
        exact nomatch hget
    have hfield : (key, AnyValue.str v) ∉ fields := fun hmem => hnone (mem_map_of_mem hmem)
    rw [none_or, get_strings hstrings]
    simp [hnone, hfield]
  · rw [some_or]
    have hmem : key ∈ fields.map Prod.fst := by
      rcases h.get.mp hget with ⟨s, -, ha⟩ | ⟨i, -, ha⟩
      · exact mem_map_of_mem ha
      · exact mem_map_of_mem ha
    rw [← hget, h.get]
    simp [hmem]

/-- No field and no string attribute is an array. -/
theorem get_scopedItem_ne_array (h : Fields fields) (hstrings : Strings attributes) (key : Text)
    (values : List SemanticValue) : (scopedItem fields attributes).get key ≠ some (.array values) := by
  unfold scopedItem
  rw [get_append]
  rcases hget : (typedAttributes (readMembers fields)).get key with _ | w
  · rw [none_or]
    intro heq
    obtain ⟨s, hs, -⟩ := (get_strings hstrings).mp heq
    exact nomatch hs
  · rw [some_or]
    intro heq
    rcases h.get.mp hget with ⟨s, rfl, -⟩ | ⟨i, rfl, -⟩
    · exact nomatch heq
    · exact nomatch heq

/-- Fields of distinct names after the one of the attributes. -/
theorem fields_of (names : List String) (named : List (String × Option AnyValue)) (hnames : named.map Prod.fst = names)
    (hnodup : (names.map String.toList).Nodup) (habove : ∀ n ∈ names, "attributes".toList < n.toList)
    (hvalue : ∀ n ∈ named, ∀ v, n.2 = some v → (∃ s, v = .str s) ∨ ∃ i, v = .int i) :
    Fields (named.flatMap fun n => field n.1 n.2) := by
  have hmem {f : Text × AnyValue} (hf : f ∈ named.flatMap fun n => field n.1 n.2) :
      ∃ n ∈ named, f.1 = n.1.toList ∧ n.2 = some f.2 := by
    obtain ⟨n, hn, hf⟩ := mem_flatMap.mp hf
    obtain ⟨hkey, hv⟩ := mem_field.mp hf
    exact ⟨n, hn, hkey, hv⟩
  subst hnames
  refine ⟨?_, fun f hf => ?_, fun f hf => ?_⟩
  · refine hnodup.sublist ?_
    clear hnodup habove hvalue hmem
    induction named with
    | nil => exact Sublist.slnil
    | cons n named ih =>
      rw [flatMap_cons, map_append, map_cons, map_cons]
      rcases hv : n.2 with _ | v
      · exact ih.cons _
      · exact ih.cons_cons _
  · obtain ⟨n, hn, hkey, -⟩ := hmem hf
    rw [hkey]
    exact habove n.1 (mem_map_of_mem hn)
  · obtain ⟨n, hn, -, hv⟩ := hmem hf
    exact hvalue n hn _ hv

theorem value_nonemptyStr {t : Text} {v : AnyValue} (h : nonemptyStr t = some v) : ∃ s, v = .str s := by
  unfold nonemptyStr at h
  split at h
  · exact nomatch h
  · exact ⟨t, (some.inj h).symm⟩

theorem value_hexLower {b : Bytes} {v : AnyValue} (h : (if b = [] then none else some (.str (hexLower b))) = some v) :
    ∃ s, v = .str s := by
  split at h
  · exact nomatch h
  · exact ⟨_, (some.inj h).symm⟩

theorem fields_event (e : Event) : Fields (eventFields e) := by
  have h := fields_of ["time", "name"] [("time", if e.timeUnixNano ≠ 0 then some (.int e.timeUnixNano.toInt64) else none),
    ("name", nonemptyStr e.name)] rfl (by decide) (by decide) (by
      intro n hn v hv
      rcases mem_pair.mp hn with rfl | rfl
      · dsimp only at hv
        split at hv
        · exact .inr ⟨_, (some.inj hv).symm⟩
        · exact nomatch hv
      · exact .inl (value_nonemptyStr hv))
  simpa [eventFields] using h

theorem fields_link (l : Link) : Fields (linkFields l) := by
  have h := fields_of ["trace_id", "span_id", "trace_state"]
    [("trace_id", if l.traceId = [] then none else some (.str (hexLower l.traceId))),
    ("span_id", if l.spanId = [] then none else some (.str (hexLower l.spanId))),
    ("trace_state", nonemptyStr l.traceState)] rfl (by decide) (by decide) (by
      intro n hn v hv
      rcases mem_cons.mp hn with rfl | hn
      · exact .inl (value_hexLower hv)
      · rcases mem_pair.mp hn with rfl | rfl
        · exact .inl (value_hexLower hv)
        · exact .inl (value_nonemptyStr hv))
  simpa [linkFields] using h

theorem fields_scope (s : InstrumentationScope) : Fields (scopeFields s) := by
  have h := fields_of ["name", "version"] [("name", nonemptyStr s.name), ("version", nonemptyStr s.version)] rfl
    (by decide) (by decide) (by
      intro n hn v hv
      rcases mem_pair.mp hn with rfl | rfl
      · exact .inl (value_nonemptyStr hv)
      · exact .inl (value_nonemptyStr hv))
  simpa [scopeFields] using h

/-! ## Scopes -/

/-- What carries attributes, with its fields beside them. -/
structure Entity where
  fields : List (Text × AnyValue)
  attributes : List KeyValue

/-- The entities of a scope. -/
def entities (resource : Option (List KeyValue)) (scope : Option InstrumentationScope) (sp : OtlpSpan) :
    AttributeScope → List Entity
  | .span => [⟨[], sp.attributes⟩]
  | .resource => [⟨[], resource.getD []⟩]
  | .instrumentation => scope.toList.map fun s => ⟨scopeFields s, s.attributes⟩
  | .event => sp.events.map fun e => ⟨eventFields e, e.attributes⟩
  | .link => sp.links.map fun l => ⟨linkFields l, l.attributes⟩

/-- The entity has the attribute. -/
def Entity.Carries (e : Entity) (key v : Text) : Prop := (key, .string v) ∈ e.attributes

/-- A field of the entity beside its attributes is the key, with the value as its text. -/
def Entity.Names (e : Entity) (key v : Text) : Prop := (key, .str v) ∈ e.fields

/-- The attribute of the key is not to be seen: it is one of an instrumentation scope, a field beside the attributes
is the key, or the attributes look like the sentinel of a double. -/
def Entity.Hides (e : Entity) (scope : AttributeScope) (key : Text) : Prop :=
  scope = .instrumentation ∨ key ∈ e.fields.map Prod.fst ∨ Sentinel e.attributes

/-- The row of a span is stored. -/
structure Stores {reader : JsonReader} (row : SpanRow) (s : StoredSpan reader) : Prop where
  attributes : s.attributes = row.attributes
  resource : s.resource = row.resource
  scope : s.scope = row.scope
  events : s.events = row.events
  links : s.links = row.links

section

variable {reader : JsonReader} {write : Json → Text}

theorem typedAttributes_canonical {pairs : List (Text × AnyValue)} (hreads : ReadsBack reader write (.map pairs)) :
    typedAttributes (fromCanonicalJson reader (canonicalJsonObject write pairs)) =
      typedMap (ofJson (canonical (.map pairs))) := by
  rw [fromCanonicalJson, parseObject, parse, canonicalJsonObject, canonicalJsonValue, hreads, map_some]
  rcases ofJson (canonical (.map pairs)) with _ | _ | _ | _ | _ | _ | _ | _ <;> rfl

/-- The items of a scope are read back one by one. -/
theorem typedScopedItems_canonical {γ : Type} (l : List γ) (fields : γ → List (Text × AnyValue))
    (attributes : γ → List KeyValue) (hfields : ∀ c ∈ l, Fields (fields c))
    (hreads : ReadsBack reader write (.array (l.map fun c => .map (fields c ++ attributesField (attributes c))))) :
    typedScopedItems reader (some (canonicalJsonValue write
      (.array (l.map fun c => .map (fields c ++ attributesField (attributes c)))))) =
        l.map fun c => scopedItem (fields c) (attributes c) := by
  rw [typedScopedItems, Option.bind_some, parse, canonicalJsonValue, hreads, Option.map_some, canonical, ofJson,
    canonicalItems_eq, ofJsonList_eq, List.map_map, List.map_map]
  dsimp only
  rw [List.filterMap_map]
  clear hreads
  induction l with
  | nil => rfl
  | cons c l ih =>
    obtain ⟨hc, hl⟩ := List.forall_mem_cons.mp hfields
    have hitem := typedScopedItem_eq hc (attributes c)
    rw [List.filterMap_cons, List.map_cons, ih hl]
    dsimp only [Function.comp]
    rw [hitem]

/-- The typed attributes of a scope give its fields beside the attributes, and none of the attributes. -/
theorem get_scope (s : InstrumentationScope) (key : Text) :
    (∀ v, (typedMap (ofJson (canonical (.map (scopePairs s))))).get key = some (.string v) ↔
        (key, .str v) ∈ scopeFields s) ∧
      ∀ values, (typedMap (ofJson (canonical (.map (scopePairs s))))).get key ≠ some (.array values) := by
  have h := fields_scope s
  have hnodup : ((scopeFields s ++ attributesField s.attributes).map Prod.fst).Nodup := by
    rw [map_append, nodup_append']
    refine ⟨h.nodup, ?_, ?_⟩
    · unfold attributesField field
      split <;> simp
    · intro k hk hk'
      obtain ⟨f, hf, rfl⟩ := mem_map.mp hk
      obtain ⟨f', hf', heq⟩ := mem_map.mp hk'
      have hlt := h.above f hf
      rw [← heq, (mem_field.mp hf').1] at hlt
      exact lt_irrefl _ hlt
  have hmap : typedMap (ofJson (canonical (.map (scopePairs s)))) =
      typedAttributes (readMembers (scopeFields s ++ attributesField s.attributes)) := by
    rw [scopePairs, ofJson_canonical_map, sentinelOrMap, h.sentinelOf_eq_none]
    rfl
  have hattributes {v : SemanticValue} {a : AnyValue} (ha : (key, a) ∈ attributesField s.attributes)
      (hv : semanticValue (ofJson (canonical a)) = some v) : ∃ d, v = .float d := by
    have hvalue := (mem_field.mp ha).2
    split at hvalue
    · cases hvalue
    · rw [← some.inj hvalue, ofJson_canonical_map, sentinelOrMap] at hv
      split at hv
      · exact ⟨_, (some.inj hv).symm⟩
      · cases hv
  rw [hmap]
  constructor
  · intro v
    rw [get_typedAttributes hnodup]
    constructor
    · rintro ⟨a, ha, hv⟩
      rcases mem_append.mp ha with ha | ha
      · rcases h.value _ ha with ⟨t, ht⟩ | ⟨i, hi⟩
        · dsimp only at ht
          subst ht
          have hvt : t = v := SemanticValue.string.inj (some.inj hv)
          exact hvt ▸ ha
        · dsimp only at hi
          subst hi
          rw [ofJson_canonical_int] at hv
          cases hv
      · obtain ⟨d, hd⟩ := hattributes ha hv
        cases hd
    · intro hmem
      exact ⟨_, mem_append_left _ hmem, rfl⟩
  · intro values heq
    obtain ⟨a, ha, hv⟩ := (get_typedAttributes hnodup).mp heq
    rcases mem_append.mp ha with ha | ha
    · rcases h.value _ ha with ⟨t, ht⟩ | ⟨i, hi⟩
      · dsimp only at ht
        subst ht
        cases hv
      · dsimp only at hi
        subst hi
        rw [ofJson_canonical_int] at hv
        cases hv
    · obtain ⟨d, hd⟩ := hattributes ha hv
      cases hd

/-- The library writes and reads the documents of a row. -/
structure WritesAndReads (reader : JsonReader) (write : Json → Text) (values : List AnyValue) : Prop where
  empty : write (.map []) = "\x7b\x7d".toList
  reads : ∀ v ∈ values, ReadsBack reader write v

section

variable {regex : Text → Option (Text → Bool)} {resource : Option (List KeyValue)}
  {scope : Option InstrumentationScope} {sp : OtlpSpan} {s : StoredSpan reader} {trace : Option SemanticTrace}
  {spans : List SemanticSpan}

/-- A key of the attributes at the top of a column. -/
theorem compareValue_strings (h : Strings attributes) (key v : Text) :
    compareValue regex ((typedMap (ofJson (canonical (.map (kvsToPairs attributes))))).get key) .eq (.string v) =
        .ok true ↔ (key, .string v) ∈ attributes ∧ ¬Sentinel attributes := by
  have harray : ∀ values,
      (typedMap (ofJson (canonical (.map (kvsToPairs attributes))))).get key ≠ some (.array values) := by
    intro values heq
    obtain ⟨t, ht, -⟩ := (get_strings h).mp heq
    exact nomatch ht
  obtain ⟨b, hb, hiff⟩ := compareValue_string_iff regex harray v
  rw [hb, Except.ok.injEq, hiff, get_strings h]
  simp

/-- A key of the items of a column. -/
theorem anyItem_entities {γ : Type} {l : List γ} {fields : γ → List (Text × AnyValue)} {attributes : γ → List KeyValue}
    (hfields : ∀ c, Fields (fields c)) (hstrings : ∀ c ∈ l, Strings (attributes c)) (key v : Text) :
    anyItem regex key .eq (.string v) (l.map fun c => scopedItem (fields c) (attributes c)) = .ok true ↔
      ∃ c ∈ l, (key, .str v) ∈ fields c ∨
        (key, .string v) ∈ attributes c ∧ ¬(key ∈ (fields c).map Prod.fst ∨ Sentinel (attributes c)) := by
  rw [anyItem_string]
  · constructor
    · rintro ⟨item, hitem, hget⟩
      obtain ⟨c, hc, rfl⟩ := mem_map.mp hitem
      exact ⟨c, hc, (get_scopedItem (hfields c) (hstrings c hc)).mp hget⟩
    · rintro ⟨c, hc, h⟩
      exact ⟨_, mem_map_of_mem hc, (get_scopedItem (hfields c) (hstrings c hc)).mpr h⟩
  · intro item hitem values
    obtain ⟨c, hc, rfl⟩ := mem_map.mp hitem
    exact get_scopedItem_ne_array (hfields c) (hstrings c hc) key values

/-- A predicate on an attribute holds exactly if an entity of its scope names the value, or carries it and does not
hide it. -/
theorem predicateMatches_iff (hstores : Stores (spanRow write resource scope sp) s)
    (hlibrary : WritesAndReads reader write (rowValues resource scope sp))
    (hstrings : ∀ sc, ∀ e ∈ entities resource scope sp sc, Strings e.attributes) (sc : AttributeScope)
    (key v : Text) :
    predicateMatches regex (semanticSpan s) trace spans (.attribute sc key .eq (.string v)) = .ok true ↔
      ∃ e ∈ entities resource scope sp sc, e.Names key v ∨ e.Carries key v ∧ ¬e.Hides sc key := by
  have hreads := hlibrary.reads
  unfold rowValues at hreads
  cases sc with
  | span =>
    have hs := hstrings .span _ mem_cons_self
    simp only [predicateMatches]
    dsimp only [semanticSpan]
    rw [hstores.attributes, spanRow, typedAttributes_canonical (hreads _ (by simp)), compareValue_strings hs]
    simp [entities, Entity.Names, Entity.Carries, Entity.Hides]
  | resource =>
    have hs := hstrings .resource _ mem_cons_self
    simp only [predicateMatches]
    dsimp only [semanticSpan]
    rw [hstores.resource, spanRow, typedAttributes_canonical (hreads _ (by simp)), compareValue_strings hs]
    simp [entities, Entity.Names, Entity.Carries, Entity.Hides]
  | instrumentation =>
    simp only [predicateMatches]
    dsimp only [semanticSpan]
    rw [hstores.scope]
    dsimp only [spanRow]
    rcases scope with _ | scope
    · have hread : ReadsBack reader write (.map []) := hreads (.map []) (by simp)
      have hempty : scopeToJson write none = canonicalJsonObject write [] := hlibrary.empty.symm
      rw [hempty, typedAttributes_canonical hread]
      have hnone : compareValue regex ((typedMap (ofJson (canonical (.map [])))).get key) .eq (.string v) = .ok false :=
        rfl
      rw [hnone]
      simp [entities]
    · have hread : ReadsBack reader write (.map (scopePairs scope)) := hreads (.map (scopePairs scope)) (by simp)
      rw [scopeToJson, typedAttributes_canonical hread]
      obtain ⟨hget, harray⟩ := get_scope scope key
      obtain ⟨b, hb, hiff⟩ := compareValue_string_iff regex harray v
      rw [hb, Except.ok.injEq, hiff, hget]
      simp [entities, Entity.Names, Entity.Hides]
  | event =>
    have hs := hstrings .event
    simp only [predicateMatches]
    dsimp only [semanticSpan]
    rw [hstores.events]
    have hitems : typedScopedItems reader (spanRow write resource scope sp).events =
        sp.events.map fun e => scopedItem (eventFields e) e.attributes := by
      dsimp only [spanRow]
      unfold eventsJson
      split
      · rename_i hnil
        rw [hnil]
        rfl
      · exact typedScopedItems_canonical sp.events eventFields Event.attributes (fun e _ => fields_event e)
          (hreads _ (by simp [eventValue]))
    rw [hitems, anyItem_entities fields_event fun e he => hs _ (mem_map_of_mem he)]
    simp [entities, Entity.Names, Entity.Carries, Entity.Hides]
  | link =>
    have hs := hstrings .link
    simp only [predicateMatches]
    dsimp only [semanticSpan]
    rw [hstores.links]
    have hitems : typedScopedItems reader (spanRow write resource scope sp).links =
        sp.links.map fun l => scopedItem (linkFields l) l.attributes := by
      dsimp only [spanRow]
      unfold linksJson
      split
      · rename_i hnil
        rw [hnil]
        rfl
      · exact typedScopedItems_canonical sp.links linkFields Link.attributes (fun l _ => fields_link l)
          (hreads _ (by simp [linkValue]))
    rw [hitems, anyItem_entities fields_link fun l hl => hs _ (mem_map_of_mem hl)]
    simp [entities, Entity.Names, Entity.Carries, Entity.Hides]

/-- A predicate on an attribute agrees with the request exactly if what is carried is not hidden everywhere, and what
a field names is carried. -/
theorem attribute_visible_iff (hstores : Stores (spanRow write resource scope sp) s)
    (hlibrary : WritesAndReads reader write (rowValues resource scope sp))
    (hstrings : ∀ sc, ∀ e ∈ entities resource scope sp sc, Strings e.attributes) (sc : AttributeScope)
    (key v : Text) :
    (predicateMatches regex (semanticSpan s) trace spans (.attribute sc key .eq (.string v)) = .ok true ↔
        ∃ e ∈ entities resource scope sp sc, e.Carries key v) ↔
      (∀ e ∈ entities resource scope sp sc, e.Carries key v → e.Hides sc key →
          ∃ e' ∈ entities resource scope sp sc, e'.Names key v ∨ e'.Carries key v ∧ ¬e'.Hides sc key) ∧
        ∀ e ∈ entities resource scope sp sc, e.Names key v →
          ∃ e' ∈ entities resource scope sp sc, e'.Carries key v := by
  rw [predicateMatches_iff hstores hlibrary hstrings]
  constructor
  · intro h
    exact ⟨fun e he hcarries _ => h.mpr ⟨e, he, hcarries⟩, fun e he hnames => h.mp ⟨e, he, .inl hnames⟩⟩
  · rintro ⟨hhidden, hnamed⟩
    constructor
    · rintro ⟨e, he, hnames | ⟨hcarries, -⟩⟩
      · exact hnamed e he hnames
      · exact ⟨e, he, hcarries⟩
    · rintro ⟨e, he, hcarries⟩
      by_cases hhides : e.Hides sc key
      · exact hhidden e he hcarries hhides
      · exact ⟨e, he, .inr ⟨hcarries, hhides⟩⟩

end

end

/-! ## A span -/

mutual

/-- The text of a tree whose strings need no escape. -/
def plainText : Json → Text
  | .null => "null".toList
  | .bool b => (if b then "true" else "false").toList
  | .i64 v => textI64 v
  | .u64 v => textU64 v
  | .f64 _ => []
  | .str s => '"' :: s ++ ['"']
  | .seq items => '[' :: plainItems items ++ [']']
  | .map members => '\x7b' :: plainMembers members ++ ['\x7d']

def plainItems : List Json → Text
  | [] => []
  | [j] => plainText j
  | j :: js => plainText j ++ ',' :: plainItems js

def plainMembers : List (Text × Json) → Text
  | [] => []
  | [(k, j)] => '"' :: k ++ "\":".toList ++ plainText j
  | (k, j) :: ms => '"' :: k ++ "\":".toList ++ plainText j ++ ',' :: plainMembers ms

end

/-- A reader of the given documents. -/
def tableReader (documents : List AnyValue) : JsonReader where
  document input := (documents.map canonical).find? fun j => plainText j = input
  members _ := none

/-- A span with an attribute and a named event that has one. -/
def plainSpan : OtlpSpan where
  traceId := []
  spanId := []
  parentSpanId := []
  traceState := []
  flags := 0
  name := "s".toList
  kind := 2
  startTimeUnixNano := 0
  endTimeUnixNano := 0
  attributes := [("k".toList, .string "v".toList)]
  events := [⟨5, "e".toList, [("x".toList, .string "y".toList)]⟩]
  links := []
  status := none

/-- A scope with an attribute. -/
def builtScope : InstrumentationScope := ⟨"lib".toList, "1".toList, [("build".toList, .string "7".toList)]⟩

/-- The span as it is stored. -/
def storedPlain (scope : Option InstrumentationScope) :
    StoredSpan (tableReader (rowValues none scope plainSpan)) where
  traceId := []
  spanId := []
  parentSpanId := none
  name := "s".toList
  kind := "SERVER".toList
  startTime := 0
  durationNs := 0
  statusCode := "UNSET".toList
  statusMessage := none
  service := none
  attributes := (spanRow plainText none scope plainSpan).attributes
  resource := (spanRow plainText none scope plainSpan).resource
  scope := (spanRow plainText none scope plainSpan).scope
  events := (spanRow plainText none scope plainSpan).events
  links := (spanRow plainText none scope plainSpan).links
  promoted _ := none
  promoted_eq := by simp

/-- An attribute of an event is found by its scope. -/
theorem attribute_visible_event :
    predicateMatches (fun _ => none) (semanticSpan (storedPlain none)) none []
        (.attribute .event "x".toList .eq (.string "y".toList)) = .ok true ↔
      ∃ e ∈ entities none none plainSpan .event, e.Carries "x".toList "y".toList := by
  have hstores : Stores (spanRow plainText none none plainSpan) (storedPlain none) := ⟨rfl, rfl, rfl, rfl, rfl⟩
  have hlibrary : WritesAndReads (tableReader (rowValues none none plainSpan)) plainText
      (rowValues none none plainSpan) := by
    refine ⟨rfl, ?_⟩
    unfold rowValues
    simp only [forall_mem_cons]
    exact ⟨rfl, rfl, rfl, rfl, rfl, by simp⟩
  have hone (key v : Text) : Strings [(key, .string v)] := ⟨by simp, by simp⟩
  have hnone : Strings [] := ⟨by simp, by simp⟩
  have hstrings : ∀ sc, ∀ e ∈ entities none none plainSpan sc, Strings e.attributes := by
    intro sc
    cases sc with
    | span => simpa [entities, plainSpan] using hone _ _
    | resource => simpa [entities] using hnone
    | instrumentation => simp [entities]
    | event => simpa [entities, plainSpan] using hone _ _
    | link => simp [entities, plainSpan]
  have hcarries : ∃ e ∈ entities none none plainSpan .event, e.Carries "x".toList "y".toList :=
    ⟨_, mem_cons_self, mem_cons_self⟩
  refine (attribute_visible_iff hstores hlibrary hstrings .event _ _).mpr ⟨fun e he _ hhides => ?_, fun _ _ _ => hcarries⟩
  rw [mem_singleton.mp he] at hhides
  rcases hhides with hscope | hfield | ⟨tag, -, hsentinel⟩
  · cases hscope
  · exact absurd hfield (by decide)
  · exact absurd (Prod.mk.inj (List.cons.inj hsentinel).1).1 (by decide)

/-- The attribute of the scope is not seen. -/
theorem attribute_hidden_scope : ¬(
    predicateMatches (fun _ => none) (semanticSpan (storedPlain (some builtScope))) none []
        (.attribute .instrumentation "build".toList .eq (.string "7".toList)) = .ok true ↔
      ∃ e ∈ entities none (some builtScope) plainSpan .instrumentation, e.Carries "build".toList "7".toList) := by
  intro h
  have hcarries : ∃ e ∈ entities none (some builtScope) plainSpan .instrumentation,
      e.Carries "build".toList "7".toList :=
    ⟨_, mem_cons_self, mem_cons_self⟩
  have hunseen : predicateMatches (fun _ => none) (semanticSpan (storedPlain (some builtScope))) none []
      (.attribute .instrumentation "build".toList .eq (.string "7".toList)) = .ok false := rfl
  rw [hunseen] at h
  exact absurd (h.mpr hcarries) (by decide)

end Imbh.Lgtm
