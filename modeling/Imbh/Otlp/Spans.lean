import Imbh.Core.Canonical
import Imbh.Docker.Container

/-!
# Spans as they are normalized (`imbh-otlp`)

A span of a request becomes a row: its attributes, those of its resource and its scope, its events and its links are
canonical JSON. A scope, an event and a link are objects in which the attributes are one field beside others.
-/

namespace Imbh.Otlp

open Lib Imbh.Core
open Docker (PbValue KeyValue serviceName)

/-! ## Requests -/

/-- Source: `opentelemetry_proto` `Event` -/
structure Event where
  timeUnixNano : UInt64
  name : Text
  attributes : List KeyValue

/-- Source: `opentelemetry_proto` `Link` -/
structure Link where
  traceId : Bytes
  spanId : Bytes
  traceState : Text
  attributes : List KeyValue

/-- Source: `opentelemetry_proto` `InstrumentationScope` -/
structure InstrumentationScope where
  name : Text
  version : Text
  attributes : List KeyValue

/-- Source: `opentelemetry_proto` `Status` -/
structure Status where
  code : ℤ
  message : Text

/-- Source: `opentelemetry_proto` `Span` -/
structure OtlpSpan where
  traceId : Bytes
  spanId : Bytes
  parentSpanId : Bytes
  traceState : Text
  flags : ℕ
  name : Text
  kind : ℤ
  startTimeUnixNano : UInt64
  endTimeUnixNano : UInt64
  attributes : List KeyValue
  events : List Event
  links : List Link
  status : Option Status

/-! ## Values -/

mutual

/-- Source: `lib.rs` `pb_to_any` -/
def pbToAny : PbValue → AnyValue
  | .absent => .null
  | .string s => .str s
  | .bool b => .bool b
  | .int i => .int i
  | .double d => .double d
  | .bytes b => .bytes b
  | .array items => .array (pbItems items)
  | .kvlist entries => .map (kvsToPairs entries)

def pbItems : List PbValue → List AnyValue
  | [] => []
  | v :: vs => pbToAny v :: pbItems vs

/-- Source: `lib.rs` `kvs_to_pairs` -/
def kvsToPairs : List (Text × PbValue) → List (Text × AnyValue)
  | [] => []
  | (k, v) :: kvs => (k, pbToAny v) :: kvsToPairs kvs

end

/-- Source: `lib.rs` `hex_lower` -/
def hexLower (b : Bytes) : Text :=
  b.flatMap fun x => [Nat.digitChar (x.toNat / 16), Nat.digitChar (x.toNat % 16)]

/-- A field that is left out where it is empty. -/
def field (name : String) (value : Option AnyValue) : List (Text × AnyValue) :=
  (value.map fun v => (name.toList, v)).toList

/-- The text of a field, unless it is empty. -/
def nonemptyStr (s : Text) : Option AnyValue := if s = [] then none else some (.str s)

/-- The attributes as a field, unless there are none. -/
def attributesField (attributes : List KeyValue) : List (Text × AnyValue) :=
  field "attributes" (if attributes = [] then none else some (.map (kvsToPairs attributes)))

/-- The fields of an event beside its attributes. -/
def eventFields (e : Event) : List (Text × AnyValue) :=
  field "time" (if e.timeUnixNano ≠ 0 then some (.int e.timeUnixNano.toInt64) else none) ++
    field "name" (nonemptyStr e.name)

/-- The fields of a link beside its attributes. -/
def linkFields (l : Link) : List (Text × AnyValue) :=
  field "trace_id" (if l.traceId = [] then none else some (.str (hexLower l.traceId))) ++
    field "span_id" (if l.spanId = [] then none else some (.str (hexLower l.spanId))) ++
    field "trace_state" (nonemptyStr l.traceState)

/-- The fields of a scope beside its attributes. -/
def scopeFields (s : InstrumentationScope) : List (Text × AnyValue) :=
  field "name" (nonemptyStr s.name) ++ field "version" (nonemptyStr s.version)

/-- Source: `lib.rs` `events_json`, one event -/
def eventValue (e : Event) : AnyValue := .map (eventFields e ++ attributesField e.attributes)

/-- Source: `lib.rs` `links_json`, one link -/
def linkValue (l : Link) : AnyValue := .map (linkFields l ++ attributesField l.attributes)

/-- Source: `lib.rs` `scope_to_json`, the object of a scope -/
def scopePairs (s : InstrumentationScope) : List (Text × AnyValue) := scopeFields s ++ attributesField s.attributes

/-! ## Rows -/

/-- Source: imbh-core `row.rs` `SpanRow` -/
structure SpanRow where
  traceId : Bytes
  spanId : Bytes
  parentSpanId : Option Bytes
  name : Text
  kind : Text
  startTimeUnixNano : ℤ
  durationNs : ℕ
  statusCode : Text
  statusMessage : Option Text
  service : Option Text
  attributes : Text
  resource : Text
  scope : Text
  events : Option Text
  links : Option Text
  traceState : Option Text
  flags : ℕ

/-- Source: `lib.rs` `span_kind_str` -/
def spanKindStr (k : ℤ) : Text :=
  (if k = 1 then "INTERNAL" else if k = 2 then "SERVER" else if k = 3 then "CLIENT" else if k = 4 then "PRODUCER"
    else if k = 5 then "CONSUMER" else "UNSPECIFIED").toList

/-- Source: `lib.rs` `status_code_str` -/
def statusCodeStr (c : ℤ) : Text := (if c = 1 then "OK" else if c = 2 then "ERROR" else "UNSET").toList

/-- Source: `lib.rs` `nonempty` -/
def nonempty (s : Text) : Option Text := if s = [] then none else some s

/-- Source: `lib.rs` `fixed16`, `fixed8` -/
def fixed (n : ℕ) (b : Bytes) : Bytes := if b.length = n then b else List.replicate n 0

section

-- The text that the JSON library writes for a tree.
variable (write : Json → Text)

/-- Source: `lib.rs` `events_json` -/
def eventsJson (events : List Event) : Option Text :=
  if events = [] then none else some (canonicalJsonValue write (.array (events.map eventValue)))

/-- Source: `lib.rs` `links_json` -/
def linksJson (links : List Link) : Option Text :=
  if links = [] then none else some (canonicalJsonValue write (.array (links.map linkValue)))

/-- Source: `lib.rs` `scope_to_json` -/
def scopeToJson : Option InstrumentationScope → Text
  | none => "\x7b\x7d".toList
  | some s => canonicalJsonObject write (scopePairs s)

/-- Source: `lib.rs` `traces_request_to_rows`, one span -/
def spanRow (resource : Option (List KeyValue)) (scope : Option InstrumentationScope) (sp : OtlpSpan) : SpanRow where
  traceId := fixed 16 sp.traceId
  spanId := fixed 8 sp.spanId
  parentSpanId := if sp.parentSpanId.length = 8 then some sp.parentSpanId else none
  name := sp.name
  kind := spanKindStr sp.kind
  startTimeUnixNano := sp.startTimeUnixNano.toInt64.toInt
  durationNs := sp.endTimeUnixNano.toNat - sp.startTimeUnixNano.toNat
  statusCode := match sp.status with
    | some s => statusCodeStr s.code
    | none => "UNSET".toList
  statusMessage := sp.status.bind fun s => nonempty s.message
  service := serviceName (resource.getD [])
  attributes := canonicalJsonObject write (kvsToPairs sp.attributes)
  resource := canonicalJsonObject write (kvsToPairs (resource.getD []))
  scope := scopeToJson write scope
  events := eventsJson write sp.events
  links := linksJson write sp.links
  traceState := nonempty sp.traceState
  flags := sp.flags

end

/-- The values whose JSON a row has. -/
def rowValues (resource : Option (List KeyValue)) (scope : Option InstrumentationScope) (sp : OtlpSpan) :
    List AnyValue :=
  [.map (kvsToPairs sp.attributes), .map (kvsToPairs (resource.getD [])), .map ((scope.map scopePairs).getD []),
    .array (sp.events.map eventValue), .array (sp.links.map linkValue)]

theorem kvsToPairs_eq (kvs : List KeyValue) : kvsToPairs kvs = kvs.map fun kv => (kv.1, pbToAny kv.2) := by
  induction kvs with
  | nil => rfl
  | cons kv kvs ih => rw [kvsToPairs, ih, List.map_cons]

theorem map_fst_kvsToPairs (kvs : List KeyValue) : (kvsToPairs kvs).map Prod.fst = kvs.map Prod.fst := by
  rw [kvsToPairs_eq, List.map_map]
  rfl

theorem mem_field {name : String} {value : Option AnyValue} {key : Text} {v : AnyValue} :
    (key, v) ∈ field name value ↔ key = name.toList ∧ value = some v := by
  rcases value with _ | w
  · simp [field]
  · simp [field, eq_comm]

end Imbh.Otlp
