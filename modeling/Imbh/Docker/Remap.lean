import Imbh.Lib.SortedMap
import Imbh.Docker.Container

/-!
# Remapping of lines

A script is run on the event of a line, which has the record that the line would become, and what it leaves
behind becomes the record. It may leave anything; what the driver depends on is asserted again, and a changed
resource is converted once for a run of lines that have it.

* `remap_iff` — the records of a run are as the driver depends on, if and only if each line keeps a name of
  a stream, a text as its service, and no resource that is only by its zeros another than the last one.
-/

namespace Imbh.Docker.Remap

open Lib List Option

/-! ## Events -/

/-- A double that is a number. Source: `ordered_float` `NotNan` -/
abbrev NotNan : Type := { f : F64 // F64.isNaN f = false }

/-- A timestamp is its nanoseconds, of which there may be more than 64 bits have. Source: `vrl` `Value` -/
inductive Value
  | bytes (b : Bytes)
  | regex (pattern : Text)
  | integer (i : Int64)
  | float (f : NotNan)
  | boolean (b : Bool)
  | timestamp (nanos : ℤ)
  | object (fields : List (Text × Value))
  | array (items : List Value)
  | null

def Value.isContainer : Value → Bool
  | .object _ | .array _ => true
  | _ => false

/-- Every object has each of its keys once. -/
inductive Value.Keyed : Value → Prop
  | leaf (v : Value) (h : v.isContainer = false) : Keyed v
  | array (items : List Value) (h : ∀ v ∈ items, Keyed v) : Keyed (.array items)
  | object (fields : List (Text × Value)) (keys : (fields.map Prod.fst).Nodup) (h : ∀ f ∈ fields, Keyed f.2) :
      Keyed (.object fields)

/-- What a script leaves behind. -/
structure Event where
  value : Value
  keyed : value.Keyed

/-- The field of a name. Source: `vrl` `ObjectMap::get` -/
def get (fields : List (Text × Value)) (name : Text) : Option Value :=
  (fields.find? fun f => f.1 = name).map Prod.snd

mutual
/-- `a == b`: two zeros are equal. -/
def Value.same : Value → Value → Bool
  | .bytes a, .bytes b => a = b
  | .regex a, .regex b => a = b
  | .integer a, .integer b => a = b
  | .float a, .float b => F64.eq a.1 b.1
  | .boolean a, .boolean b => a = b
  | .timestamp a, .timestamp b => a = b
  | .object fs, .object gs => sameFields fs gs
  | .array xs, .array ys => sameItems xs ys
  | .null, .null => true
  | _, _ => false

def sameFields : List (Text × Value) → List (Text × Value) → Bool
  | [], [] => true
  | (k, v) :: fs, (l, w) :: gs => k = l && v.same w && sameFields fs gs
  | _, _ => false

def sameItems : List Value → List Value → Bool
  | [], [] => true
  | v :: xs, w :: ys => v.same w && sameItems xs ys
  | _, _ => false
end

/-! ## Conversions -/

section

-- how `chrono` writes a timestamp
variable (rfc3339 : ℤ → Text)

mutual
/-- Source: `remap.rs` `any` -/
def any : Value → PbValue
  | .bytes b =>
      match decodeText b with
      | some s => .string s
      | none => .bytes b
  | .regex r => .string r
  | .integer i => .int i
  | .float f => .double f.1
  | .boolean b => .bool b
  | .timestamp t => .string (rfc3339 t)
  | .object fields => .kvlist (kvs fields)
  | .array items => .array (anyItems items)
  | .null => .absent

/-- Source: `remap.rs` `kvs` -/
def kvs : List (Text × Value) → List KeyValue
  | [] => []
  | (_, .null) :: fields => kvs fields
  | (key, value) :: fields => (key, any value) :: kvs fields

def anyItems : List Value → List PbValue
  | [] => []
  | value :: items => any value :: anyItems items
end

mutual
/-- Source: `remap.rs` `vrl_of` -/
def vrlOf : PbValue → Value
  | .absent => .null
  | .string s => .bytes (encodeText s)
  | .bool b => .boolean b
  | .int i => .integer i
  | .double d => if h : F64.isNaN d = false then .float ⟨d, h⟩ else .float ⟨0, by decide⟩
  | .bytes b => .bytes b
  | .array items => .array (vrlOfItems items)
  | .kvlist entries => .object (ofPairs (vrlOfEntries entries))

def vrlOfItems : List PbValue → List Value
  | [] => []
  | value :: items => vrlOf value :: vrlOfItems items

def vrlOfEntries : List (Text × PbValue) → List (Text × Value)
  | [] => []
  | (key, value) :: entries => (key, vrlOf value) :: vrlOfEntries entries
end

/-- Source: `remap.rs` `resource_to_vrl` -/
def resourceToVrl (resource : Resource) : Value := .object (ofPairs (vrlOfEntries resource))

/-- Source: `remap.rs` `nanos` -/
def nanos : Option Value → Option ℤ
  | some (.timestamp t) => if -2 ^ 63 ≤ t ∧ t < 2 ^ 63 then some t else none
  | some (.integer n) => some n.toInt
  | _ => none

/-- Source: `remap.rs` `integer` -/
def integer : Option Value → Option ℤ
  | some (.integer n) => some n.toInt
  | some (.float f) => some (F64.asI64 f.1)
  | _ => none

/-- Source: `remap.rs` `text` -/
def text : Option Value → Option Text
  | some (.bytes b) => decodeText b
  | _ => none

/-- Source: `char::to_digit`, of base 16 -/
def hexDigit (b : UInt8) : Option ℕ :=
  if 48 ≤ b ∧ b ≤ 57 then some (b.toNat - 48)
  else if 97 ≤ b ∧ b ≤ 102 then some (b.toNat - 87)
  else if 65 ≤ b ∧ b ≤ 70 then some (b.toNat - 55) else none

def hexPairs : Bytes → Option Bytes
  | [] => some []
  | hi :: lo :: rest => do
      let hi ← hexDigit hi
      let lo ← hexDigit lo
      let out ← hexPairs rest
      some (UInt8.ofNat (hi * 16 + lo) :: out)
  | [_] => none

/-- Source: `remap.rs` `hex_id` -/
def hexId (value : Option Value) (len : ℕ) : Option Bytes :=
  (text value).bind fun t =>
    let bytes := encodeText (trim t)
    if bytes.length ≠ len * 2 then none else (hexPairs bytes).filter fun out => out.any fun b => b ≠ 0

/-- Source: `i64::clamp` -/
def clamp (n low high : ℤ) : ℤ := max low (min high n)

/-! ## One line -/

/-- Source: `remap.rs` `force` -/
def force (attributes : List KeyValue) (key value : Text) : List KeyValue :=
  (attributes.filter fun a => a.1 ≠ key) ++ [kv key value]

/-- Source: `remap.rs` `is_empty` -/
def isEmpty (a : KeyValue) : Bool :=
  match a.2 with
  | .string s => s.isEmpty
  | .absent => true
  | _ => false

/-- The resource that a value of a script becomes. Source: `remap.rs` `Remapper::intern` -/
def convertResource (container : Container) (value : Value) : Resource :=
  let attributes :=
    match value with
    | .object fields => kvs rfc3339 fields
    | _ => []
  let attributes := force attributes "container.id".toList container.id
  if attributes.any fun a => a.1 = "service.name".toList && !isEmpty a then attributes
  else force attributes "service.name".toList container.service

/-- The last resource that a script changed and what it became. Source: `remap.rs` `Remapper`, its `interned` -/
abbrev Interned : Type := Option (Value × Resource)

/-- Source: `remap.rs` `Remapper::intern` -/
def intern (container : Container) (interned : Interned) (value : Value) : Resource × Interned :=
  let hit :=
    match interned with
    | some (last, resource) => if last.same value then some resource else none
    | none => none
  match hit with
  | some resource => (resource, interned)
  | none =>
      let resource := convertResource rfc3339 container value
      (resource, some (value, resource))

/-- What the line of a container says. -/
structure LineOf where
  stderr : Bool
  nanos : ℤ
  text : Text
  isPartial : Bool

def LineOf.of (entry : LogEntry) : LineOf :=
  ⟨entry.source = "stderr".toList, max entry.timeNano.toInt 0, fromUtf8Lossy (stripNewline entry.line),
    entry.isPartial⟩

/-- The event of a line; `info` is there where the script reads it. Source: `remap.rs` `Remapper::seed` -/
def seed (container : Container) (seedResource : Value) (info : Option Value) (entry : LogEntry) : Value :=
  let line := LineOf.of entry
  let stream := Value.bytes (encodeText (streamName line.stderr))
  let (number, band) := container.severityFor line.stderr
  .object (ofPairs ((info.map fun info => ("info".toList, info)).toList ++
    [("resource".toList, seedResource), ("source".toList, stream),
      ("time_nano".toList, .integer (Int64.ofInt line.nanos)), ("partial".toList, .boolean line.isPartial),
      ("line".toList, .bytes (encodeText line.text)), ("body".toList, .bytes (encodeText line.text)),
      ("timestamp".toList, .timestamp line.nanos), ("observed_timestamp".toList, .timestamp line.nanos),
      ("severity_number".toList, .integer (Int64.ofInt number)), ("severity_text".toList, .bytes (encodeText band)),
      ("attributes".toList, .object [("log.iostream".toList, stream)])]))

/-- What a remap produced. Source: `remap.rs` `Outcome` -/
inductive Outcome
  | record (record : LogRecord) (resource : Option Resource)
  | drop
  | failed

/-- The attributes of a record. Source: `remap.rs` `Remapper::build` -/
def buildAttributes (stderr : Bool) (root : List (Text × Value)) : List KeyValue :=
  let attributes :=
    match get root "attributes".toList with
    | some (.object fields) => kvs rfc3339 fields
    | _ => []
  if attributes.any fun a => a.1 = "log.iostream".toList then attributes
  else attributes ++ [kv "log.iostream".toList (streamName stderr)]

def notNull : Value → Bool
  | .null => false
  | _ => true

/-- The record of an event. Source: `remap.rs` `Remapper::build` -/
def buildRecord (container : Container) (line : LineOf) (root : List (Text × Value)) : LogRecord :=
  let (number, band) := container.severityFor line.stderr
  let observed := (nanos (get root "observed_timestamp".toList)).getD line.nanos
  let time := (nanos (get root "timestamp".toList)).getD observed
  { timeUnixNano := (max time 0).toNat
    observedTimeUnixNano := (max observed 0).toNat
    severityNumber := clamp ((integer (get root "severity_number".toList)).getD number) 0 24
    severityText := (text (get root "severity_text".toList)).getD band
    body := (((get root "body".toList).filter notNull).or (get root "line".toList)).map (any rfc3339)
    attributes := buildAttributes rfc3339 line.stderr root
    traceId := (hexId (get root "trace_id".toList) 16).getD []
    spanId := (hexId (get root "span_id".toList) 8).getD []
    flags := (clamp ((integer (get root "trace_flags".toList)).getD 0) 0 (2 ^ 32 - 1)).toNat }

/-- Source: `remap.rs` `Remapper::build` -/
def build (container : Container) (seedResource : Value) (interned : Interned) (entry : LogEntry) (event : Value) :
    Outcome × Interned :=
  match event with
  | .object root =>
      let record := buildRecord rfc3339 container (.of entry) root
      match get root "resource".toList with
      | some value =>
          if value.same seedResource then (.record record none, interned)
          else
            let (resource, interned) := intern rfc3339 container interned value
            (.record record (some resource), interned)
      | none => (.record record none, interned)
  | _ => (.failed, interned)

/-- What running the script on an event comes to. Source: `vrl` `Runtime::resolve` -/
inductive Resolved
  | ok (event : Event)
  | abort
  | error

/-- One line, the networks of its container at the time and what its script comes to. -/
structure Line where
  networks : List (Text × Text)
  info : Option Value
  entry : LogEntry
  resolved : Resolved

/-- Source: `remap.rs` `Remapper::apply` -/
def apply (container : Container) (seedResource : Value) (interned : Interned) (line : Line) :
    Outcome × Interned :=
  match line.resolved with
  | .ok event => build rfc3339 container seedResource interned line.entry event.value
  | .abort => (.drop, interned)
  | .error => (.failed, interned)

/-- The record that is sent, with the resource that is not the container's own. Source: `mod.rs`, its `emit` -/
def emit (container : Container) (entry : LogEntry) : Outcome → Option (LogRecord × Option Resource)
  | .record record resource => some (record, resource)
  | .drop => none
  | .failed => some (container.record entry, none)

/-- The lines of a run, each with what was interned before it and what it came to. -/
def remapRun (container : Container) (seedResource : Value) (interned : Interned) :
    List Line → List (Interned × Line × Outcome)
  | [] => []
  | line :: lines =>
      let (outcome, next) := apply rfc3339 container seedResource interned line
      (interned, line, outcome) :: remapRun container seedResource next lines

/-! ## What is depended on -/

/-- The text that a value becomes. -/
def asText : Value → Option Text
  | .bytes b => decodeText b
  | .regex r => some r
  | .timestamp t => some (rfc3339 t)
  | _ => none

/-- The resource that a record is stamped with. -/
def stamped (container : Container) (networks : List (Text × Text)) (resource : Option Resource) : Resource :=
  resource.getD (container.resource networks)

/-- An id is absent, or as long as it has to be and not of zeros. -/
def IdOk (id : Bytes) (length : ℕ) : Prop := id = [] ∨ id.length = length ∧ ∃ b ∈ id, b ≠ 0

/-- What the driver depends on of the record of a line and the resource that is sent with it. -/
structure Sound (container : Container) (seedResource : Value) (line : Line) (record : LogRecord)
    (resource : Option Resource) : Prop where
  id_once : withKey (stamped container line.networks resource) "container.id".toList =
    [kv "container.id".toList container.id]
  service : ∃ s, serviceName (stamped container line.networks resource) = some s ∧ s ≠ []
  stream : ∃ stderr, attrStr record.attributes "log.iostream".toList = some (streamName stderr)
  severity : 0 ≤ record.severityNumber ∧ record.severityNumber ≤ 24
  time : record.timeUnixNano < 2 ^ 63 ∧ record.observedTimeUnixNano < 2 ^ 63
  trace : IdOk record.traceId 16
  span : IdOk record.spanId 8
  fresh : ∀ r, resource = some r → ∃ event root v, line.resolved = .ok event ∧ event.value = .object root ∧
    get root "resource".toList = some v ∧ r = convertResource rfc3339 container v
  unchanged : ∀ event, line.resolved = .ok event →
    event.value = seed container seedResource line.info line.entry →
    record = container.record line.entry ∧ resource = none

/-- The script leaves the name of a stream, or none. -/
def StreamKept (root : List (Text × Value)) : Prop :=
  ∀ fields v, get root "attributes".toList = some (.object fields) →
    get fields "log.iostream".toList = some v →
    v = .null ∨ ∃ stderr, asText rfc3339 v = some (streamName stderr)

/-- The script leaves a service that is a text, or none; where it is empty there is that of the container. -/
def ServiceKept (container : Container) : Value → Prop
  | .object fields =>
      match get fields "service.name".toList with
      | none | some .null => container.service ≠ []
      | some v => ∃ s, asText rfc3339 v = some s ∧ (s = [] → container.service ≠ [])
  | _ => container.service ≠ []

/-- A resource that is equal to the last one becomes what that one would: where they differ in the signs of zeros, these
are not in an attribute. -/
def SameConverted (container : Container) (interned : Interned) (v : Value) : Prop :=
  ∀ last resource, interned = some (last, resource) → last.same v = true →
    convertResource rfc3339 container last = convertResource rfc3339 container v

/-- What a script may leave of a line. -/
def Meets (container : Container) (seedResource : Value) (interned : Interned) (line : Line) : Prop :=
  match line.resolved with
  | .abort => True
  | .error => container.id ≠ []
  | .ok event =>
      match event.value with
      | .object root =>
          StreamKept rfc3339 root ∧
            match get root "resource".toList with
            | some v =>
                if v.same seedResource then container.id ≠ []
                else ServiceKept rfc3339 container v ∧ SameConverted rfc3339 container interned v
            | none => container.id ≠ []
      | _ => container.id ≠ []

end

theorem get_cons_self (name : Text) (value : Value) (fields : List (Text × Value)) :
    get ((name, value) :: fields) name = some value := by
  simp [get]

theorem get_cons_ne {name key : Text} (h : name ≠ key) (value : Value) (fields : List (Text × Value)) :
    get ((name, value) :: fields) key = get fields key := by
  simp [get, h]

/-! ## Equal values -/

theorem eq_self (f : NotNan) : F64.eq f.1 f.1 = true := by
  have hcompare : compare (F64.value f.1) (F64.value f.1) = .eq := compare_eq_iff_eq.mpr rfl
  rw [F64.eq, F64.partialCmp, f.2, hcompare]
  rfl

mutual
/-- A value is the same as itself. -/
theorem same_self : ∀ v : Value, v.same v = true
  | .bytes _ | .regex _ | .integer _ | .boolean _ | .timestamp _ => by
      rw [Value.same]
      exact decide_eq_true rfl
  | .float f => by
      rw [Value.same]
      exact eq_self f
  | .object fields => by
      rw [Value.same]
      exact sameFields_self fields
  | .array items => by
      rw [Value.same]
      exact sameItems_self items
  | .null => by rw [Value.same]

theorem sameFields_self : ∀ fields : List (Text × Value), sameFields fields fields = true
  | [] => by rw [sameFields]
  | (key, value) :: fields => by
      rw [sameFields, same_self value, sameFields_self fields, decide_eq_true rfl]
      rfl

theorem sameItems_self : ∀ items : List Value, sameItems items items = true
  | [] => by rw [sameItems]
  | value :: items => by
      rw [sameItems, same_self value, sameItems_self items]
      rfl
end

/-! ## Attributes of a key -/

theorem attrStr_eq (l : List KeyValue) (key : Text) : attrStr l key = (withKey l key).head?.bind fun a => a.2.asStr := by
  rw [withKey, head?_filter]
  rfl

theorem any_key (l : List KeyValue) (key : Text) (p : KeyValue → Bool) :
    (l.any fun a => a.1 = key && p a) = (withKey l key).any p := by
  rw [withKey, List.any_filter]

theorem withKey_force (l : List KeyValue) (key value : Text) : withKey (force l key value) key = [kv key value] := by
  have hnot : withKey (l.filter fun a => a.1 ≠ key) key = [] :=
    withKey_eq_nil fun a ha => of_decide_eq_true (mem_filter.mp ha).2
  rw [force, withKey_append, hnot, nil_append]
  exact filter_cons_of_pos (decide_eq_true rfl)

/-- Forcing a key leaves the others as they are. -/
theorem withKey_force_ne (l : List KeyValue) {key key' : Text} (h : key' ≠ key) (value : Text) :
    withKey (force l key value) key' = withKey l key' := by
  have hnot : withKey [kv key value] key' = [] := by
    apply withKey_eq_nil
    intro a ha
    rw [mem_singleton.mp ha]
    exact h.symm
  rw [force, withKey_append, hnot, append_nil, withKey_filter]
  apply filter_eq_self.mpr
  intro a ha
  apply decide_eq_true
  rw [of_decide_eq_true (mem_filter.mp ha).2]
  exact h

section

variable {rfc3339 : ℤ → Text} {fields : List (Text × Value)} {container : Container} {seedResource : Value}
  {interned : Interned}

/-- The string of a converted value is the text of the value. -/
theorem asStr_any (v : Value) : (any rfc3339 v).asStr = asText rfc3339 v := by
  rcases v with b | r | i | f | b | t | fields | items | _
  case bytes =>
    rw [any, asText]
    split
    · rename_i h
      rw [h]
      rfl
    · rename_i h
      rw [h]
      rfl
  all_goals
    rw [any]
    rfl

/-- The keys that are converted are those of the fields. -/
theorem key_of_mem_kvs {a : KeyValue} (h : a ∈ kvs rfc3339 fields) : a.1 ∈ fields.map Prod.fst := by
  induction fields with
  | nil => exact absurd h not_mem_nil
  | cons f fields ih =>
    obtain ⟨key, value⟩ := f
    rw [map_cons]
    by_cases hnull : value = .null
    · rw [hnull, kvs] at h
      exact mem_cons_of_mem _ (ih h)
    · rw [kvs] at h
      · rcases mem_cons.mp h with rfl | h
        · exact mem_cons_self
        · exact mem_cons_of_mem _ (ih h)
      · exact hnull

/-- What a field becomes. -/
theorem withKey_kvs {fields : List (Text × Value)} (hkeys : (fields.map Prod.fst).Nodup) (key : Text) :
    withKey (kvs rfc3339 fields) key =
      match get fields key with
      | none | some .null => []
      | some v => [(key, any rfc3339 v)] := by
  induction fields with
  | nil => rfl
  | cons f fields ih =>
    obtain ⟨name, value⟩ := f
    obtain ⟨hname, hkeys⟩ := nodup_cons.mp hkeys
    by_cases hkey : name = key
    · subst hkey
      have hnot : withKey (kvs rfc3339 fields) name = [] := by
        apply withKey_eq_nil
        rintro a ha rfl
        exact hname (key_of_mem_kvs ha)
      rw [get_cons_self]
      by_cases hnull : value = .null
      · rw [hnull, kvs]
        exact hnot
      · rw [kvs]
        · have hcons : withKey ((name, any rfc3339 value) :: kvs rfc3339 fields) name =
              (name, any rfc3339 value) :: withKey (kvs rfc3339 fields) name :=
            filter_cons_of_pos (decide_eq_true rfl)
          rw [hcons, hnot]
          split
          · rename_i h
            exact nomatch h
          · rename_i h
            exact absurd (some.inj h) hnull
          · rename_i h
            rw [some.inj h]
        · exact hnull
    · rw [get_cons_ne hkey, ← ih hkeys]
      by_cases hnull : value = .null
      · rw [hnull, kvs]
      · rw [kvs]
        · exact filter_cons_of_neg fun hd => hkey (of_decide_eq_true hd)
        · exact hnull

/-- A field that is not null is converted under its key, once. -/
theorem withKey_kvs_some (hkeys : (fields.map Prod.fst).Nodup) {key : Text} {v : Value}
    (hget : get fields key = some v) (hnull : v ≠ .null) :
    withKey (kvs rfc3339 fields) key = [(key, any rfc3339 v)] := by
  rw [withKey_kvs hkeys, hget]
  split
  · rename_i h
    exact nomatch h
  · rename_i h
    exact absurd (some.inj h) hnull
  · rename_i h
    rw [some.inj h]

theorem withKey_kvs_nil (hkeys : (fields.map Prod.fst).Nodup) {key : Text}
    (hget : ∀ v, get fields key = some v → v = .null) : withKey (kvs rfc3339 fields) key = [] := by
  rw [withKey_kvs hkeys]
  rcases h : get fields key with _ | v
  · rfl
  · rw [hget v h]

/-! ## Records of events -/

theorem Value.Keyed.keys (h : (Value.object fields).Keyed) : (fields.map Prod.fst).Nodup := by
  cases h with
  | leaf _ h => exact nomatch h
  | object _ keys _ => exact keys

theorem Value.Keyed.get {name : Text} {v : Value} (h : (Value.object fields).Keyed)
    (hget : Remap.get fields name = some v) : v.Keyed := by
  cases h with
  | leaf _ h => exact nomatch h
  | object _ _ hfields =>
    obtain ⟨f, hf, rfl⟩ := map_eq_some_iff.mp hget
    exact hfields f (mem_of_find?_eq_some hf)

/-- A key that is there is kept, and one that is not is added. -/
theorem attrStr_added (l : List KeyValue) (key value : Text) :
    attrStr (if l.any fun a => a.1 = key then l else l ++ [kv key value]) key =
      if withKey l key = [] then some value else (withKey l key).head?.bind fun a => a.2.asStr := by
  have hany : (l.any fun a => a.1 = key) = true ↔ withKey l key ≠ [] := by
    rw [List.any_eq_true, withKey, ne_eq, List.filter_eq_nil_iff]
    constructor
    · rintro ⟨a, ha, hkey⟩ h
      exact h a ha hkey
    · intro h
      by_contra hnone
      exact h fun a ha hkey => hnone ⟨a, ha, hkey⟩
  by_cases hnil : withKey l key = []
  · have hadded : withKey (l ++ [kv key value]) key = [kv key value] := by
      rw [withKey_append, hnil, List.nil_append]
      exact List.filter_cons_of_pos (decide_eq_true rfl)
    rw [if_neg fun h => hany.mp h hnil, if_pos hnil, attrStr_eq, hadded]
    rfl
  · rw [if_pos (hany.mpr hnil), if_neg hnil, attrStr_eq]

/-- The stream of a record is one, if and only if the script leaves the name of one, or none. -/
theorem stream_buildAttributes (rfc3339 : ℤ → Text) (stderr : Bool) {root : List (Text × Value)}
    (hkeyed : (Value.object root).Keyed) :
    (∃ s, attrStr (buildAttributes rfc3339 stderr root) "log.iostream".toList = some (streamName s)) ↔
      StreamKept rfc3339 root := by
  unfold buildAttributes
  dsimp only
  rw [attrStr_added]
  have hnone : ∀ l : List KeyValue, withKey l "log.iostream".toList = [] →
      ∃ s, (if withKey l "log.iostream".toList = [] then some (streamName stderr)
        else (withKey l "log.iostream".toList).head?.bind fun a => a.2.asStr) = some (streamName s) :=
    fun l h => ⟨stderr, if_pos h⟩
  split
  · rename_i fields hattributes
    have hkeys := (hkeyed.get hattributes).keys
    have hkept : StreamKept rfc3339 root ↔ ∀ v, get fields "log.iostream".toList = some v →
        v = .null ∨ ∃ s, asText rfc3339 v = some (streamName s) := by
      constructor
      · intro h v hv
        exact h fields v hattributes hv
      · intro h fields' v hfields' hv
        rw [hattributes] at hfields'
        obtain rfl := Value.object.inj (some.inj hfields')
        exact h v hv
    rw [hkept]
    by_cases hnull : ∀ v, get fields "log.iostream".toList = some v → v = .null
    · exact iff_of_true (hnone _ (withKey_kvs_nil hkeys hnull)) fun v hv => .inl (hnull v hv)
    · obtain ⟨v, hnull⟩ := not_forall.mp hnull
      obtain ⟨hget, hnull⟩ := Classical.not_imp.mp hnull
      rw [withKey_kvs_some hkeys hget hnull, if_neg (cons_ne_nil _ _), head?_cons, bind_some,
        asStr_any, hget]
      constructor
      · rintro hs w hw
        rw [← some.inj hw]
        exact .inr hs
      · intro h
        exact (h v rfl).resolve_left hnull
  · rename_i hother
    refine iff_of_true (hnone [] rfl) ?_
    intro fields v hfields
    exact absurd hfields (hother fields)

/-! ## Resources of scripts -/

/-- The attributes that a script leaves of a resource. -/
def scriptAttributes (rfc3339 : ℤ → Text) : Value → List KeyValue
  | .object fields => kvs rfc3339 fields
  | _ => []

theorem convertResource_eq (container : Container) (v : Value) : convertResource rfc3339 container v =
    if (force (scriptAttributes rfc3339 v) "container.id".toList container.id).any fun a =>
        a.1 = "service.name".toList && !isEmpty a then
      force (scriptAttributes rfc3339 v) "container.id".toList container.id
    else force (force (scriptAttributes rfc3339 v) "container.id".toList container.id)
      "service.name".toList container.service := by
  cases v <;> rfl

/-- The id of the container is there once. -/
theorem ids_convertResource (container : Container) (v : Value) :
    withKey (convertResource rfc3339 container v) "container.id".toList =
      [kv "container.id".toList container.id] := by
  have hne : "container.id".toList ≠ "service.name".toList := by decide
  rw [convertResource_eq]
  split
  · exact withKey_force _ _ _
  · rw [withKey_force_ne _ hne, withKey_force]

/-- The service is the one that is kept, or else that of the container. -/
theorem serviceName_convertResource (container : Container) (v : Value) :
    serviceName (convertResource rfc3339 container v) =
      if (withKey (scriptAttributes rfc3339 v) "service.name".toList).any fun a => !isEmpty a then
        (withKey (scriptAttributes rfc3339 v) "service.name".toList).head?.bind fun a => a.2.asStr
      else some container.service := by
  have hne : "service.name".toList ≠ "container.id".toList := by decide
  rw [convertResource_eq, any_key, withKey_force_ne _ hne]
  split
  · rw [serviceName, attrStr_eq, withKey_force_ne _ hne]
  · rw [serviceName, attrStr_eq, withKey_force]
    rfl

/-- Only the empty text is converted to an empty value. -/
theorem isEmpty_any (rfc3339 : ℤ → Text) (key : Text) {v : Value} (hnull : v ≠ .null) :
    isEmpty (key, any rfc3339 v) = true ↔ asText rfc3339 v = some [] := by
  have hstring : ∀ s : Text, isEmpty (key, .string s) = true ↔ some s = some [] := by
    intro s
    show s.isEmpty = true ↔ _
    rw [List.isEmpty_iff, Option.some_inj]
  rcases v with b | r | i | f | b | t | fields | items | _
  case bytes =>
    rw [any, asText]
    rcases decodeText b with _ | s
    · exact iff_of_false Bool.false_ne_true (fun h => nomatch h)
    · exact hstring s
  case regex => exact hstring r
  case timestamp => exact hstring (rfc3339 t)
  case null => exact absurd rfl hnull
  all_goals exact iff_of_false Bool.false_ne_true (fun h => nomatch h)

theorem serviceKept_none (h : ∀ w, get fields "service.name".toList = some w → w = .null) :
    ServiceKept rfc3339 container (.object fields) ↔ container.service ≠ [] := by
  unfold ServiceKept
  dsimp only
  rcases hget : get fields "service.name".toList with _ | w
  · exact Iff.rfl
  · rw [h w hget]

theorem serviceKept_some {w : Value} (hget : get fields "service.name".toList = some w) (hnull : w ≠ .null) :
    ServiceKept rfc3339 container (.object fields) ↔
      ∃ s, asText rfc3339 w = some s ∧ (s = [] → container.service ≠ []) := by
  unfold ServiceKept
  dsimp only
  rw [hget]
  cases w with
  | null => exact absurd rfl hnull
  | _ => exact Iff.rfl

/-- The service is a text, if and only if the script leaves one, or none. -/
theorem service_convertResource {v : Value} (hkeyed : v.Keyed) :
    (∃ s, serviceName (convertResource rfc3339 container v) = some s ∧ s ≠ []) ↔
      ServiceKept rfc3339 container v := by
  rw [serviceName_convertResource]
  have hown : withKey (scriptAttributes rfc3339 v) "service.name".toList = [] →
      ((∃ s, (if (withKey (scriptAttributes rfc3339 v) "service.name".toList).any fun a => !isEmpty a then
        (withKey (scriptAttributes rfc3339 v) "service.name".toList).head?.bind fun a => a.2.asStr
      else some container.service) = some s ∧ s ≠ []) ↔ container.service ≠ []) := by
    intro hnil
    rw [hnil]
    constructor
    · rintro ⟨s, hs, hne⟩
      rw [some.inj hs]
      exact hne
    · intro hne
      exact ⟨container.service, rfl, hne⟩
  rcases v with b | r | i | f | b | t | fields | items | _
  case object =>
    have hkeys := hkeyed.keys
    by_cases hnull : ∀ w, get fields "service.name".toList = some w → w = .null
    · rw [serviceKept_none hnull]
      exact hown (withKey_kvs_nil hkeys hnull)
    · obtain ⟨w, hnull⟩ := not_forall.mp hnull
      obtain ⟨hget, hnull⟩ := Classical.not_imp.mp hnull
      have hone : withKey (scriptAttributes rfc3339 (.object fields)) "service.name".toList =
          [("service.name".toList, any rfc3339 w)] := withKey_kvs_some hkeys hget hnull
      have hempty := isEmpty_any rfc3339 "service.name".toList hnull
      rw [serviceKept_some hget hnull, hone, any_cons, any_nil, Bool.or_false, head?_cons,
        bind_some, asStr_any]
      by_cases hnil : asText rfc3339 w = some []
      · -- an empty service is replaced by the container's
        rw [hempty.mpr hnil, hnil]
        constructor
        · rintro ⟨s, hs, hne⟩
          rw [← some.inj hs] at hne
          exact ⟨[], rfl, fun _ => hne⟩
        · rintro ⟨s, hs, hne⟩
          exact ⟨container.service, rfl, hne (some.inj hs).symm⟩
      · rw [eq_false_of_ne_true fun h => hnil (hempty.mp h)]
        apply exists_congr
        intro s
        apply and_congr_right
        intro hs
        have hne : s ≠ [] := fun h => hnil (by rw [← h]; exact hs)
        exact iff_of_true hne fun h => absurd h hne
  all_goals exact hown rfl

/-! ## Ids -/

/-- Pairs of digits are twice the bytes. -/
theorem length_hexPairs {b out : Bytes} (h : hexPairs b = some out) : b.length = out.length * 2 := by
  induction b using hexPairs.induct generalizing out with
  | case1 =>
    rw [← some.inj h]
    rfl
  | case2 hi lo rest ih =>
    rw [hexPairs] at h
    obtain ⟨_, -, h⟩ := bind_eq_some_iff.mp h
    obtain ⟨_, -, h⟩ := bind_eq_some_iff.mp h
    obtain ⟨out', hout, h⟩ := bind_eq_some_iff.mp h
    rw [← some.inj h, length_cons, length_cons, length_cons, ih hout]
    omega
  | case3 => exact nomatch h

/-- An id is absent, or as long as it has to be and not of zeros. -/
theorem idOk_hexId (value : Option Value) (len : ℕ) : IdOk ((hexId value len).getD []) len := by
  rcases h : hexId value len with _ | out
  · exact .inl rfl
  · obtain ⟨t, -, h⟩ := bind_eq_some_iff.mp h
    dsimp only at h
    split at h
    · exact nomatch h
    · rename_i hlength
      obtain ⟨hpairs, hany⟩ := filter_eq_some_iff.mp h
      obtain ⟨b, hb, hne⟩ := any_eq_true.mp hany
      have hcount := length_hexPairs hpairs
      refine .inr ⟨?_, b, hb, of_decide_eq_true hne⟩
      show out.length = len
      omega

/-! ## Times -/

/-- The nanoseconds of a value are in range. -/
theorem nanos_lt {value : Option Value} {t : ℤ} (h : nanos value = some t) : t < 2 ^ 63 := by
  unfold nanos at h
  split at h
  · split at h
    · rename_i hrange
      rw [← some.inj h]
      exact hrange.2
    · exact nomatch h
  · rename_i n
    rw [← some.inj h]
    exact Int64.toInt_lt n
  · exact nomatch h

theorem nanos_of_lt (entry : LogEntry) : (LineOf.of entry).nanos < 2 ^ 63 :=
  max_lt (Int64.toInt_lt _) (by decide)

/-- The times of a record are not negative as they are stored. -/
theorem time_buildRecord (container : Container) (entry : LogEntry) (root : List (Text × Value)) :
    (buildRecord rfc3339 container (.of entry) root).timeUnixNano < 2 ^ 63 ∧
      (buildRecord rfc3339 container (.of entry) root).observedTimeUnixNano < 2 ^ 63 := by
  have hgetD : ∀ (value : Option Value) {d : ℤ}, d < 2 ^ 63 → (nanos value).getD d < 2 ^ 63 := by
    intro value d hd
    rcases h : nanos value with _ | t
    · exact hd
    · exact nanos_lt h
  have hnat : ∀ {t : ℤ}, t < 2 ^ 63 → (max t 0).toNat < 2 ^ 63 := by
    intro t ht
    omega
  have hobserved := hgetD (get root "observed_timestamp".toList) (nanos_of_lt entry)
  exact ⟨hnat (hgetD (get root "timestamp".toList) hobserved), hnat hobserved⟩

theorem clamp_range (n : ℤ) {low high : ℤ} (h : low ≤ high) : low ≤ clamp n low high ∧ clamp n low high ≤ high :=
  ⟨le_max_left _ _, max_le h (min_le_left _ _)⟩

/-! ## Unchanged events -/

/-- The fields of the event of a line. -/
def seedFields (container : Container) (seedResource : Value) (entry : LogEntry) : List (Text × Value) :=
  let line := LineOf.of entry
  let stream := Value.bytes (encodeText (streamName line.stderr))
  [("resource".toList, seedResource), ("source".toList, stream),
    ("time_nano".toList, .integer (Int64.ofInt line.nanos)), ("partial".toList, .boolean line.isPartial),
    ("line".toList, .bytes (encodeText line.text)), ("body".toList, .bytes (encodeText line.text)),
    ("timestamp".toList, .timestamp line.nanos), ("observed_timestamp".toList, .timestamp line.nanos),
    ("severity_number".toList, .integer (Int64.ofInt (container.severityFor line.stderr).1)),
    ("severity_text".toList, .bytes (encodeText (container.severityFor line.stderr).2)),
    ("attributes".toList, .object [("log.iostream".toList, stream)])]

/-- The fields of an event that is unchanged; that of the container is not read. -/
theorem get_seed (container : Container) (seedResource : Value) (info : Option Value) (entry : LogEntry)
    {name : Text} (h : name ≠ "info".toList) :
    get (ofPairs ((info.map fun info => ("info".toList, info)).toList ++
      seedFields container seedResource entry)) name = lastValue (seedFields container seedResource entry) name := by
  have hinfo : lastValue (info.map fun info => ("info".toList, info)).toList name = none := by
    rcases info with _ | info
    · rfl
    · by_contra hne
      have hmem := lastValue_ne_none.mp hne
      exact h (mem_singleton.mp hmem)
  have hfind := find?_ofPairs ((info.map fun info => ("info".toList, info)).toList ++
    seedFields container seedResource entry) name
  rw [lastValue_append, hinfo, or_none] at hfind
  rw [← hfind, get]
  congr!

/-- The record of an unchanged event is that of its line. -/
theorem buildRecord_seed (info : Info) (seedResource : Value) (i : Option Value) (entry : LogEntry) :
    buildRecord rfc3339 (.fromInfo info) (.of entry)
        (ofPairs ((i.map fun info => ("info".toList, info)).toList ++
          seedFields (.fromInfo info) seedResource entry)) =
      (Container.fromInfo info).record entry := by
  obtain ⟨root, hroot⟩ : ∃ root, root = ofPairs ((i.map fun info => ("info".toList, info)).toList ++
      seedFields (.fromInfo info) seedResource entry) := ⟨_, rfl⟩
  obtain ⟨line, hline⟩ : ∃ line, line = LineOf.of entry := ⟨_, rfl⟩
  have hget : ∀ {name : Text}, name ≠ "info".toList →
      get root name = lastValue (seedFields (.fromInfo info) seedResource entry) name := by
    intro name hname
    rw [hroot]
    exact get_seed _ _ _ _ hname
  have hrange := severityFor_range info line.stderr
  have hnanos : nanos (some (.timestamp line.nanos)) = some line.nanos := by
    have hlow : (0 : ℤ) ≤ line.nanos := by
      rw [hline]
      exact le_max_right _ _
    have hhigh : line.nanos < 2 ^ 63 := by
      rw [hline]
      exact nanos_of_lt entry
    exact if_pos ⟨le_trans (by decide) hlow, hhigh⟩
  have hobserved : get root "observed_timestamp".toList = some (.timestamp line.nanos) := by
    rw [hget (by decide), hline]
    rfl
  have htime : get root "timestamp".toList = some (.timestamp line.nanos) := by
    rw [hget (by decide), hline]
    rfl
  have hnumber : get root "severity_number".toList =
      some (.integer (Int64.ofInt ((Container.fromInfo info).severityFor line.stderr).1)) := by
    rw [hget (by decide), hline]
    rfl
  have hband : get root "severity_text".toList =
      some (.bytes (encodeText ((Container.fromInfo info).severityFor line.stderr).2)) := by
    rw [hget (by decide), hline]
    rfl
  have hbody : get root "body".toList = some (.bytes (encodeText line.text)) := by
    rw [hget (by decide), hline]
    rfl
  have hattributes : get root "attributes".toList =
      some (.object [("log.iostream".toList, .bytes (encodeText (streamName line.stderr)))]) := by
    rw [hget (by decide), hline]
    rfl
  have htrace : get root "trace_id".toList = none := by
    rw [hget (by decide)]
    rfl
  have hspan : get root "span_id".toList = none := by
    rw [hget (by decide)]
    rfl
  have hflags : get root "trace_flags".toList = none := by
    rw [hget (by decide)]
    rfl
  have hclamp : clamp (Int64.ofInt ((Container.fromInfo info).severityFor line.stderr).1).toInt 0 24 =
      ((Container.fromInfo info).severityFor line.stderr).1 := by
    rw [Int64.toInt_ofInt_of_le (by omega) (by omega), clamp]
    omega
  have hkvs : kvs rfc3339 [("log.iostream".toList, .bytes (encodeText (streamName line.stderr)))] =
      [kv "log.iostream".toList (streamName line.stderr)] := by
    rw [kvs]
    · rw [any, decodeText_encodeText, kvs]
      rfl
    · exact fun h => nomatch h
  have hstream : buildAttributes rfc3339 line.stderr root =
      [kv "log.iostream".toList (streamName line.stderr)] := by
    unfold buildAttributes
    rw [hattributes]
    dsimp only
    simp only [hkvs]
    exact if_pos rfl
  rw [← hroot, ← hline]
  unfold buildRecord
  dsimp only
  rw [hobserved, htime, hnumber, hband, hbody, htrace, hspan, hflags, hnanos, hstream]
  have htext : ∀ t : Text, text (some (.bytes (encodeText t))) = some t := fun t => decodeText_encodeText t
  have hinteger : ∀ n : Int64, integer (some (.integer n)) = some n.toInt := fun _ => rfl
  have hstring : any rfc3339 (.bytes (encodeText line.text)) = .string line.text := by
    rw [any, decodeText_encodeText]
  have hmap : (((some (Value.bytes (encodeText line.text))).filter notNull).or (get root "line".toList)).map
      (any rfc3339) = some (.string line.text) := congrArg some hstring
  have hmax : max line.nanos 0 = line.nanos := by
    rw [hline]
    exact max_eq_left (le_max_right _ _)
  rw [htext, hinteger, hmap]
  dsimp only [getD_some]
  rw [hclamp, hmax, hline]
  rfl

/-- An unchanged event becomes the record of its line. -/
theorem build_seed (info : Info) (seedResource : Value) (interned : Interned) (i : Option Value)
    (entry : LogEntry) :
    build rfc3339 (.fromInfo info) seedResource interned entry (seed (.fromInfo info) seedResource i entry) =
      (.record ((Container.fromInfo info).record entry) none, interned) := by
  have hseed : seed (.fromInfo info) seedResource i entry =
      .object (ofPairs ((i.map fun info => ("info".toList, info)).toList ++
        seedFields (.fromInfo info) seedResource entry)) := rfl
  have hresource : get (ofPairs ((i.map fun info => ("info".toList, info)).toList ++
      seedFields (.fromInfo info) seedResource entry)) "resource".toList = some seedResource := by
    rw [get_seed _ _ _ _ (by decide)]
    rfl
  rw [hseed, build]
  dsimp only
  rw [hresource, buildRecord_seed]
  dsimp only
  rw [if_pos (same_self seedResource)]

/-! ## One line -/

/-- What is interned is a conversion. -/
def InternedOk (rfc3339 : ℤ → Text) (container : Container) (interned : Interned) : Prop :=
  ∀ last resource, interned = some (last, resource) → resource = convertResource rfc3339 container last

theorem intern_ok (h : InternedOk rfc3339 container interned) (v : Value) :
    InternedOk rfc3339 container (intern rfc3339 container interned v).2 := by
  unfold intern
  dsimp only
  split
  · exact h
  · intro last resource heq
    obtain ⟨rfl, rfl⟩ := Prod.mk.inj (some.inj heq)
    rfl

/-- What is handed out is what the value becomes, if and only if a value that is equal to it became that. -/
theorem intern_iff (h : InternedOk rfc3339 container interned) (v : Value) :
    (intern rfc3339 container interned v).1 = convertResource rfc3339 container v ↔
      SameConverted rfc3339 container interned v := by
  rcases interned with _ | ⟨last, resource⟩
  · exact iff_of_true rfl fun last resource heq => nomatch heq
  · have hresource := h last resource rfl
    unfold intern
    dsimp only
    by_cases hsame : last.same v = true
    · rw [if_pos hsame]
      constructor
      · intro heq last' resource' hinterned _
        obtain ⟨rfl, rfl⟩ := Prod.mk.inj (some.inj hinterned)
        exact hresource.symm.trans heq
      · intro heq
        exact hresource.trans (heq last resource rfl hsame)
    · rw [if_neg hsame]
      refine iff_of_true rfl ?_
      intro last' resource' hinterned hsame'
      obtain ⟨rfl, rfl⟩ := Prod.mk.inj (some.inj hinterned)
      exact absurd hsame' hsame

/-- A line keeps what is interned right. -/
theorem apply_ok {line : Line} (h : InternedOk rfc3339 container interned) :
    InternedOk rfc3339 container (apply rfc3339 container seedResource interned line).2 := by
  unfold apply
  split
  · rename_i event _
    unfold build
    split
    · dsimp only
      split
      · split
        · exact h
        · exact intern_ok h _
      · exact h
    · exact h
  · exact h
  · exact h

/-- The container's own resource has its id and a service, if and only if the container has an id. -/
theorem stamped_own (info : Info) (networks : List (Text × Text)) :
    (withKey (stamped (.fromInfo info) networks none) "container.id".toList =
        [kv "container.id".toList (Container.fromInfo info).id] ∧
      ∃ s, serviceName (stamped (.fromInfo info) networks none) = some s ∧ s ≠ []) ↔
    (Container.fromInfo info).id ≠ [] := by
  have hids : withKey ((Container.fromInfo info).resource networks) "container.id".toList =
      if (Container.fromInfo info).id = [] then [] else [kv "container.id".toList info.containerId] :=
    ids_resource info networks
  constructor
  · rintro ⟨hid, -⟩ hnil
    rw [if_pos hnil] at hids
    exact absurd (hids.symm.trans hid) (fun h => nomatch h)
  · intro hne
    rw [if_neg hne] at hids
    exact ⟨hids, _, serviceName_resource info networks, service_ne_nil hne⟩

/-- The record of an event is as the driver depends on, if and only if its stream, its resource and what was
interned are. -/
theorem sound_buildRecord {info : Info} {line : Line} {root : List (Text × Value)}
    {resource : Option Resource} (hkeyed : (Value.object root).Keyed)
    (hunchanged : ∀ event, line.resolved = .ok event →
      event.value = seed (.fromInfo info) seedResource line.info line.entry →
      buildRecord rfc3339 (.fromInfo info) (.of line.entry) root = (Container.fromInfo info).record line.entry ∧
        resource = none) :
    Sound rfc3339 (.fromInfo info) seedResource line
        (buildRecord rfc3339 (.fromInfo info) (.of line.entry) root) resource ↔
      StreamKept rfc3339 root ∧
        (withKey (stamped (.fromInfo info) line.networks resource) "container.id".toList =
            [kv "container.id".toList (Container.fromInfo info).id] ∧
          ∃ s, serviceName (stamped (.fromInfo info) line.networks resource) = some s ∧ s ≠ []) ∧
        ∀ r, resource = some r → ∃ event root v, line.resolved = .ok event ∧ event.value = .object root ∧
          get root "resource".toList = some v ∧ r = convertResource rfc3339 (.fromInfo info) v := by
  have hstream := stream_buildAttributes rfc3339 (LineOf.of line.entry).stderr hkeyed
  constructor
  · intro h
    exact ⟨hstream.mp h.stream, ⟨h.id_once, h.service⟩, h.fresh⟩
  · rintro ⟨hkept, ⟨hid, hservice⟩, hfresh⟩
    exact
      { id_once := hid
        service := hservice
        stream := hstream.mpr hkept
        severity := clamp_range _ (by decide)
        time := time_buildRecord _ _ _
        trace := idOk_hexId _ _
        span := idOk_hexId _ _
        fresh := hfresh
        unchanged := hunchanged }

/-- The record of a line without its script is as the driver depends on, if and only if the container has an
id. -/
theorem sound_record (info : Info) (seedResource : Value) (line : Line) :
    Sound rfc3339 (.fromInfo info) seedResource line ((Container.fromInfo info).record line.entry) none ↔
      (Container.fromInfo info).id ≠ [] := by
  rw [← stamped_own info line.networks]
  constructor
  · intro h
    exact ⟨h.id_once, h.service⟩
  · rintro ⟨hid, hservice⟩
    have hseverity := severityFor_range info (line.entry.source = "stderr".toList)
    have htime : (max line.entry.timeNano.toInt 0).toNat < 2 ^ 63 := by
      have hlt := Int64.toInt_lt line.entry.timeNano
      omega
    exact
      { id_once := hid
        service := hservice
        stream := ⟨_, rfl⟩
        severity := ⟨le_trans (by decide) hseverity.1, hseverity.2⟩
        time := ⟨htime, htime⟩
        trace := .inl rfl
        span := .inl rfl
        fresh := fun r hr => nomatch hr
        unchanged := fun _ _ _ => ⟨rfl, rfl⟩ }

/-- What the driver depends on of what a line came to, where it came to a record. -/
def SoundOutcome (rfc3339 : ℤ → Text) (container : Container) (seedResource : Value) (line : Line)
    (outcome : Outcome) : Prop :=
  ∀ record resource, emit container line.entry outcome = some (record, resource) →
    Sound rfc3339 container seedResource line record resource

theorem soundOutcome_iff {line : Line} {outcome : Outcome} {record : LogRecord} {resource : Option Resource}
    (h : emit container line.entry outcome = some (record, resource)) :
    SoundOutcome rfc3339 container seedResource line outcome ↔
      Sound rfc3339 container seedResource line record resource := by
  constructor
  · intro hall
    exact hall record resource h
  · intro hsound record' resource' heq
    obtain ⟨rfl, rfl⟩ := Prod.mk.inj (some.inj (h.symm.trans heq))
    exact hsound

/-- One line is as the driver depends on, if and only if its script leaves what it may. -/
theorem soundOutcome_apply {info : Info} (line : Line) (hinterned : InternedOk rfc3339 (.fromInfo info) interned) :
    SoundOutcome rfc3339 (.fromInfo info) seedResource line
        (apply rfc3339 (.fromInfo info) seedResource interned line).1 ↔
      Meets rfc3339 (.fromInfo info) seedResource interned line := by
  unfold Meets
  rcases hresolved : line.resolved with event | _ | _
  case abort =>
    refine iff_of_true ?_ trivial
    intro record resource h
    rw [apply, hresolved] at h
    exact nomatch h
  case error =>
    have happly : emit (.fromInfo info) line.entry (apply rfc3339 (.fromInfo info) seedResource interned line).1 =
        some ((Container.fromInfo info).record line.entry, none) := by
      rw [apply, hresolved]
      rfl
    exact (soundOutcome_iff happly).trans (sound_record info seedResource line)
  case ok =>
    dsimp only
    have happly : (apply rfc3339 (.fromInfo info) seedResource interned line).1 =
        (build rfc3339 (.fromInfo info) seedResource interned line.entry event.value).1 := by
      rw [apply, hresolved]
    rw [happly]
    rcases hvalue : event.value with b | r | i | f | b | t | root | items | _
    case object =>
      have hkeyed : (Value.object root).Keyed := hvalue ▸ event.keyed
      -- an event that is unchanged becomes the record of the line, with no resource
      have hunchanged : ∀ {record : LogRecord} {resource : Option Resource},
          (build rfc3339 (.fromInfo info) seedResource interned line.entry (.object root)).1 =
            .record record resource → ∀ event', line.resolved = .ok event' →
          event'.value = seed (.fromInfo info) seedResource line.info line.entry →
          record = (Container.fromInfo info).record line.entry ∧ resource = none := by
        intro record resource hbuild event' hevent' hseed
        rw [hresolved] at hevent'
        obtain rfl := Resolved.ok.inj hevent'
        rw [← hvalue, hseed, build_seed] at hbuild
        obtain ⟨hrecord, hresource⟩ := Outcome.record.inj hbuild
        exact ⟨hrecord.symm, hresource.symm⟩
      dsimp only
      rcases hget : get root "resource".toList with _ | v
      · have hbuild : (build rfc3339 (.fromInfo info) seedResource interned line.entry (.object root)).1 =
            .record (buildRecord rfc3339 (.fromInfo info) (.of line.entry) root) none := by
          rw [build]
          dsimp only
          rw [hget]
        rw [soundOutcome_iff (by rw [hbuild]; rfl), sound_buildRecord hkeyed (hunchanged hbuild),
          stamped_own]
        apply and_congr_right
        intro _
        exact and_iff_left fun r hr => nomatch hr
      · dsimp only
        by_cases hsame : v.same seedResource = true
        · have hbuild : (build rfc3339 (.fromInfo info) seedResource interned line.entry (.object root)).1 =
              .record (buildRecord rfc3339 (.fromInfo info) (.of line.entry) root) none := by
            rw [build]
            dsimp only
            rw [hget]
            dsimp only
            rw [if_pos hsame]
          rw [soundOutcome_iff (by rw [hbuild]; rfl), sound_buildRecord hkeyed (hunchanged hbuild),
            stamped_own, if_pos hsame]
          apply and_congr_right
          intro _
          exact and_iff_left fun r hr => nomatch hr
        · have hbuild : (build rfc3339 (.fromInfo info) seedResource interned line.entry (.object root)).1 =
              .record (buildRecord rfc3339 (.fromInfo info) (.of line.entry) root)
                (some (intern rfc3339 (.fromInfo info) interned v).1) := by
            rw [build]
            dsimp only
            rw [hget]
            dsimp only
            rw [if_neg hsame]
          rw [soundOutcome_iff (by rw [hbuild]; rfl), sound_buildRecord hkeyed (hunchanged hbuild),
            if_neg hsame, ← intern_iff hinterned]
          have hfresh : (∀ r, some (intern rfc3339 (.fromInfo info) interned v).1 = some r →
              ∃ event root v, line.resolved = .ok event ∧ event.value = .object root ∧
                get root "resource".toList = some v ∧ r = convertResource rfc3339 (.fromInfo info) v) ↔
              (intern rfc3339 (.fromInfo info) interned v).1 = convertResource rfc3339 (.fromInfo info) v := by
            constructor
            · intro h
              obtain ⟨event', root', v', hevent', hvalue', hget', hr⟩ := h _ rfl
              rw [hresolved] at hevent'
              obtain rfl := Resolved.ok.inj hevent'
              rw [hvalue] at hvalue'
              obtain rfl := Value.object.inj hvalue'
              rw [hget] at hget'
              obtain rfl := some.inj hget'
              exact hr
            · rintro heq r hr
              exact ⟨event, root, v, hresolved, hvalue, hget, (some.inj hr).symm.trans heq⟩
          rw [hfresh]
          apply and_congr_right
          intro _
          apply and_congr_left
          intro heq
          have hstamped : stamped (.fromInfo info) line.networks
              (some (intern rfc3339 (.fromInfo info) interned v).1) =
                convertResource rfc3339 (.fromInfo info) v := heq
          rw [hstamped, service_convertResource (hkeyed.get hget)]
          exact and_iff_right (ids_convertResource _ _)
    all_goals
      have hfailed : emit (.fromInfo info) line.entry
          (build rfc3339 (.fromInfo info) seedResource interned line.entry event.value).1 =
            some ((Container.fromInfo info).record line.entry, none) := by
        rw [hvalue]
        rfl
      rw [hvalue] at hfailed
      exact (soundOutcome_iff hfailed).trans (sound_record info seedResource line)

/-! ## Runs -/

/-- Where what is interned is a conversion, the lines of a run are as the driver depends on, if and only if
each script leaves what it may. -/
theorem soundOutcome_run {info : Info} (lines : List Line)
    (hinterned : InternedOk rfc3339 (.fromInfo info) interned) :
    (∀ step ∈ remapRun rfc3339 (.fromInfo info) seedResource interned lines,
        SoundOutcome rfc3339 (.fromInfo info) seedResource step.2.1 step.2.2) ↔
      ∀ step ∈ remapRun rfc3339 (.fromInfo info) seedResource interned lines,
        Meets rfc3339 (.fromInfo info) seedResource step.1 step.2.1 := by
  induction lines generalizing interned with
  | nil => exact iff_of_true (fun _ h => absurd h not_mem_nil) (fun _ h => absurd h not_mem_nil)
  | cons line lines ih =>
    rw [remapRun, forall_mem_cons, forall_mem_cons]
    exact and_congr (soundOutcome_apply line hinterned) (ih (apply_ok hinterned))

/-- The records of a run through one remapper are as the driver depends on, if and only if each script leaves
what it may. -/
theorem remap_iff (rfc3339 : ℤ → Text) (info : Info) (networks : List (Text × Text)) (lines : List Line) :
    let container := Container.fromInfo info
    let seedResource := resourceToVrl (container.resource networks)
    (∀ step ∈ remapRun rfc3339 container seedResource none lines,
        SoundOutcome rfc3339 container seedResource step.2.1 step.2.2) ↔
      ∀ step ∈ remapRun rfc3339 container seedResource none lines,
        Meets rfc3339 container seedResource step.1 step.2.1 :=
  soundOutcome_run lines fun _ _ h => nomatch h

/-- A script that sets `.attributes."log.iostream"` to a number, on a line of a container. -/
def numberedStream : Line where
  networks := []
  info := none
  entry := ⟨"stderr".toList, 1, encodeText "oops".toList, false⟩
  resolved := .ok
    { value := .object [("attributes".toList, .object [("log.iostream".toList, .integer 2)])]
      keyed := by
        have hleaf : (Value.integer 2).Keyed := .leaf _ rfl
        have hattributes : (Value.object [("log.iostream".toList, .integer 2)]).Keyed := by
          apply Value.Keyed.object
          · decide
          · intro f hf
            rw [mem_singleton.mp hf]
            exact hleaf
        apply Value.Keyed.object
        · decide
        · intro f hf
          rw [mem_singleton.mp hf]
          exact hattributes }

/-- A number is kept as the stream of a record, from which no stream is restored. -/
theorem numbered_stream_kept :
    let container := Container.fromInfo ⟨"abc".toList, [], [], [], [], [], []⟩
    let seedResource := resourceToVrl (container.resource [])
    ¬∀ step ∈ remapRun (fun _ => []) container seedResource none [numberedStream],
        SoundOutcome (fun _ => []) container seedResource step.2.1 step.2.2 := by
  intro container seedResource h
  have hinterned : InternedOk (fun _ => []) container none := fun _ _ hnone => nomatch hnone
  have hmeets := (soundOutcome_apply numberedStream hinterned).mp (h _ mem_cons_self)
  have hkept := hmeets.1 _ (.integer 2) rfl rfl
  rcases hkept with hnull | ⟨stderr, htext⟩
  · exact nomatch hnull
  · exact nomatch htext

end

end Imbh.Docker.Remap
