import Imbh.Lib.Float64
import Imbh.Lib.Text

/-!
# Containers of the log driver

A container is what the request that starts its logging says of it: its identity, the resource that its
records are stamped with, and the severities of its streams. A line becomes a record of it.
-/

namespace Imbh.Docker

open Lib List Option

/-! ## Attributes -/

/-- Source: `opentelemetry_proto` `AnyValue`, whose `value` may be absent -/
inductive PbValue
  | absent
  | string (s : Text)
  | bool (b : Bool)
  | int (i : Int64)
  | double (d : F64)
  | bytes (b : Bytes)
  | array (items : List PbValue)
  | kvlist (entries : List (Text × PbValue))

/-- The key and the value of an attribute. Source: `opentelemetry_proto` `KeyValue` -/
abbrev KeyValue : Type := Text × PbValue

/-- Source: `opentelemetry_proto` `Resource`, its attributes -/
abbrev Resource : Type := List KeyValue

def PbValue.asStr : PbValue → Option Text
  | .string s => some s
  | _ => none

/-- Source: `ingest.rs` `kv` -/
def kv (key value : Text) : KeyValue := (key, .string value)

/-- The string of the first attribute of a key. -/
def attrStr (attributes : List KeyValue) (key : Text) : Option Text :=
  (attributes.find? fun kv => kv.1 = key).bind fun kv => kv.2.asStr

/-- Source: imbh-otlp `service_name` -/
def serviceName (attributes : List KeyValue) : Option Text := attrStr attributes "service.name".toList

/-! ## Containers -/

/-- What the `Info` object of a `StartLogging` request says, as its accessors read it. -/
structure Info where
  containerId : Text
  containerName : Text
  imageName : Text
  imageId : Text
  config : List (Text × Text)
  labels : List (Text × Text)
  env : List Text

/-- An option that is set. Source: `ingest.rs` `Container::from_info`, its `opt` -/
def Info.opt (info : Info) (key : Text) : Option Text :=
  ((info.config.find? fun o => o.1 = key).map Prod.snd).filter fun v => v ≠ []

/-- Source: `ingest.rs` `selected` -/
def selected (value : Option Text) : List Text :=
  (((value.getD []).splitOn ',').map trim).filter fun s => s ≠ []

/-- Source: `ingest.rs` `name_for` -/
def nameFor (n : ℤ) : Text :=
  if n ≤ 4 then "TRACE".toList
  else if n ≤ 8 then "DEBUG".toList
  else if n ≤ 12 then "INFO".toList
  else if n ≤ 16 then "WARN".toList
  else if n ≤ 20 then "ERROR".toList else "FATAL".toList

/-- Source: `str::to_ascii_uppercase` -/
def asciiUppercase (s : Text) : Text :=
  s.map fun c => if 97 ≤ c.toNat ∧ c.toNat ≤ 122 then Char.ofNat (c.toNat - 32) else c

/-- Source: `ingest.rs` `severity` -/
def severity (value : Option Text) : Option (ℤ × Text) :=
  value.bind fun value =>
    let raw := trim value
    match parseI64 raw with
    | some n => if 1 ≤ n.toInt ∧ n.toInt ≤ 24 then some (n.toInt, nameFor n.toInt) else none
    | none =>
        let names : List (Text × ℤ) := [("TRACE".toList, 1), ("DEBUG".toList, 5), ("INFO".toList, 9),
          ("WARN".toList, 13), ("WARNING".toList, 13), ("ERROR".toList, 17), ("FATAL".toList, 21)]
        (names.find? fun n => n.1 = asciiUppercase raw).map fun n => (n.2, nameFor n.2)

/-- Source: `ingest.rs` `Container` -/
structure Container where
  id : Text
  name : Text
  service : Text
  base : Resource
  stdoutSeverity : ℤ × Text
  stderrSeverity : ℤ × Text

/-- Source: `ingest.rs` `Container::from_info` -/
def Container.fromInfo (info : Info) : Container :=
  let id := info.containerId
  let name := info.containerName.dropWhile (· = '/')
  let service := (info.opt "imbh-service".toList).getD (if name ≠ [] then name else id.take 12)
  { id := id
    name := name
    service := service
    base :=
      [kv "service.name".toList service, kv "container.runtime".toList "docker".toList] ++
        ([kv "container.id".toList id, kv "container.name".toList name,
          kv "container.image.name".toList info.imageName,
          kv "container.image.id".toList info.imageId].filter fun a => a.2.asStr ≠ some []) ++
        ((selected (info.opt "labels".toList)).filterMap fun want =>
          (info.labels.find? fun l => l.1 = want).map fun l => kv ("container.label.".toList ++ want) l.2) ++
        ((selected (info.opt "env".toList)).filterMap fun want =>
          (info.env.findSome? fun e => (want ++ "=".toList).isPrefixOf? e).map fun v =>
            kv ("container.env.".toList ++ want) v)
    stdoutSeverity := (severity (info.opt "imbh-stdout-severity".toList)).getD (9, "INFO".toList)
    stderrSeverity := (severity (info.opt "imbh-stderr-severity".toList)).getD (17, "ERROR".toList) }

/-- The resource, where the networks of the container and its addresses are known.
Source: `ingest.rs` `Container::set_networks`, `Container::resource` -/
def Container.resource (c : Container) (networks : List (Text × Text)) : Resource :=
  c.base ++
    if networks = [] then []
    else
      ("container.network.names".toList, .array (networks.map fun n => .string n.1)) ::
        networks.map fun n => kv ("container.network.".toList ++ n.1 ++ ".ip".toList) n.2

/-- Source: `ingest.rs` `Container::severity_for` -/
def Container.severityFor (c : Container) (stderr : Bool) : ℤ × Text :=
  if stderr then c.stderrSeverity else c.stdoutSeverity

/-! ## Records -/

/-- One reassembled line. Source: `entry.rs` `LogEntry` -/
structure LogEntry where
  source : Text
  timeNano : Int64
  line : Bytes
  isPartial : Bool

/-- Source: `opentelemetry_proto` `LogRecord` -/
structure LogRecord where
  timeUnixNano : ℕ
  observedTimeUnixNano : ℕ
  severityNumber : ℤ
  severityText : Text
  body : Option PbValue
  attributes : List KeyValue
  traceId : Bytes
  spanId : Bytes
  flags : ℕ

/-- Source: `ingest.rs` `strip_newline` -/
def stripNewline (line : Bytes) : Bytes :=
  if line.getLast? = some 10 then
    if line.dropLast.getLast? = some 13 then line.dropLast.dropLast else line.dropLast
  else line

/-- A byte that continues a character. -/
def isContinuation (b : UInt8) : Bool := 128 ≤ b ∧ b ≤ 191

/-- How many bytes at the front are one character, or else how many are none together: as many as could
have begun one. -/
def utf8Chunk : Bytes → Bool × ℕ
  | [] => (false, 0)
  | a :: rest =>
      let next (low high : UInt8) : Bool := rest.head?.any fun b => low ≤ b ∧ b ≤ high
      let third : Bool := (rest.drop 1).head?.any isContinuation
      let fourth : Bool := (rest.drop 2).head?.any isContinuation
      if a < 128 then (true, 1)
      else if 194 ≤ a ∧ a ≤ 223 then (if next 128 191 then (true, 2) else (false, 1))
      else if 224 ≤ a ∧ a ≤ 239 then
        if next (if a = 224 then 160 else 128) (if a = 237 then 159 else 191) then
          (if third then (true, 3) else (false, 2))
        else (false, 1)
      else if 240 ≤ a ∧ a ≤ 244 then
        if next (if a = 240 then 144 else 128) (if a = 244 then 143 else 191) then
          if third then (if fourth then (true, 4) else (false, 3)) else (false, 2)
        else (false, 1)
      else (false, 1)

/-- The text of the first characters, as many as there is fuel for. -/
def lossyText : ℕ → Bytes → Text
  | 0, _ => []
  | _ + 1, [] => []
  | fuel + 1, a :: rest =>
      let (valid, length) := utf8Chunk (a :: rest)
      (if valid then (decodeText ((a :: rest).take length)).getD [] else ['\uFFFD']) ++
        lossyText fuel ((a :: rest).drop length)

/-- Source: `String::from_utf8_lossy` -/
def fromUtf8Lossy (b : Bytes) : Text := lossyText b.length b

/-- The name of a stream. -/
def streamName (stderr : Bool) : Text := if stderr then "stderr".toList else "stdout".toList

/-- Source: `ingest.rs` `Container::record` -/
def Container.record (c : Container) (entry : LogEntry) : LogRecord :=
  let stderr : Bool := entry.source = "stderr".toList
  let time := (max entry.timeNano.toInt 0).toNat
  { timeUnixNano := time
    observedTimeUnixNano := time
    severityNumber := (c.severityFor stderr).1
    severityText := (c.severityFor stderr).2
    body := some (.string (fromUtf8Lossy (stripNewline entry.line)))
    attributes := [kv "log.iostream".toList (streamName stderr)]
    traceId := []
    spanId := []
    flags := 0 }

/-! ## What a resource says -/

/-- The attributes of a key. -/
def withKey (attributes : List KeyValue) (key : Text) : List KeyValue := attributes.filter fun a => a.1 = key

theorem withKey_append (l m : List KeyValue) (key : Text) : withKey (l ++ m) key = withKey l key ++ withKey m key :=
  filter_append ..

theorem withKey_eq_nil {l : List KeyValue} {key : Text} (h : ∀ a ∈ l, a.1 ≠ key) : withKey l key = [] :=
  filter_eq_nil_iff.mpr fun a ha hd => h a ha (of_decide_eq_true hd)

theorem withKey_filter (l : List KeyValue) (p : KeyValue → Bool) (key : Text) :
    withKey (l.filter p) key = (withKey l key).filter p := by
  rw [withKey, withKey, List.filter_filter, List.filter_filter]
  exact List.filter_congr fun a _ => Bool.and_comm _ _

/-- A key that begins as another does not is not of that one. -/
theorem append_ne_of_prefix {p s key : Text} (h : p.isPrefixOf key = false) : p ++ s ≠ key := by
  rintro rfl
  have hprefix : p.isPrefixOf (p ++ s) = true := isPrefixOf_iff_prefix.mpr (prefix_append p s)
  rw [h] at hprefix
  exact Bool.false_ne_true hprefix

/-- The resource has the id once, if there is one. -/
theorem ids_resource (info : Info) (networks : List (Text × Text)) :
    withKey ((Container.fromInfo info).resource networks) "container.id".toList =
      if info.containerId = [] then [] else [kv "container.id".toList info.containerId] := by
  have hlabels : ∀ a ∈ (selected (info.opt "labels".toList)).filterMap fun want =>
      (info.labels.find? fun l => l.1 = want).map fun l => kv ("container.label.".toList ++ want) l.2,
      a.1 ≠ "container.id".toList := by
    intro a ha
    obtain ⟨want, -, hwant⟩ := mem_filterMap.mp ha
    obtain ⟨l, -, rfl⟩ := map_eq_some_iff.mp hwant
    exact append_ne_of_prefix (by decide)
  have henv : ∀ a ∈ (selected (info.opt "env".toList)).filterMap fun want =>
      (info.env.findSome? fun e => (want ++ "=".toList).isPrefixOf? e).map fun v =>
        kv ("container.env.".toList ++ want) v, a.1 ≠ "container.id".toList := by
    intro a ha
    obtain ⟨want, -, hwant⟩ := mem_filterMap.mp ha
    obtain ⟨v, -, rfl⟩ := map_eq_some_iff.mp hwant
    exact append_ne_of_prefix (by decide)
  have hnetworks : ∀ a ∈ (if networks = [] then []
      else (("container.network.names".toList, .array (networks.map fun n => .string n.1)) ::
        networks.map fun n => kv ("container.network.".toList ++ n.1 ++ ".ip".toList) n.2 : List KeyValue)),
      a.1 ≠ "container.id".toList := by
    intro a ha
    split at ha
    · exact absurd ha not_mem_nil
    · rcases mem_cons.mp ha with rfl | ha
      · exact (by decide : "container.network.names".toList ≠ "container.id".toList)
      · obtain ⟨n, -, rfl⟩ := mem_map.mp ha
        show "container.network.".toList ++ n.1 ++ ".ip".toList ≠ _
        rw [append_assoc]
        exact append_ne_of_prefix (by decide)
  rw [Container.resource, withKey_append, withKey_eq_nil hnetworks, append_nil, Container.fromInfo]
  dsimp only
  rw [withKey_append, withKey_append, withKey_append, withKey_eq_nil hlabels, withKey_eq_nil henv,
    append_nil, append_nil, withKey_filter]
  have hfirst : ∀ service, withKey [kv "service.name".toList service,
      kv "container.runtime".toList "docker".toList] "container.id".toList = [] := fun _ => rfl
  have hidentity : ∀ name, withKey [kv "container.id".toList info.containerId, kv "container.name".toList name,
      kv "container.image.name".toList info.imageName, kv "container.image.id".toList info.imageId]
      "container.id".toList = [kv "container.id".toList info.containerId] := fun _ => rfl
  rw [hfirst, hidentity, nil_append]
  by_cases hid : info.containerId = []
  · rw [if_pos hid, hid]
    rfl
  · have hsome : (kv "container.id".toList info.containerId).2.asStr ≠ some [] := fun h => hid (some.inj h)
    rw [if_neg hid]
    exact filter_cons_of_pos (decide_eq_true hsome)

/-- The service of the resource is that of the container. -/
theorem serviceName_resource (info : Info) (networks : List (Text × Text)) :
    serviceName ((Container.fromInfo info).resource networks) = some (Container.fromInfo info).service := rfl

/-- A container with an id has a service. -/
theorem service_ne_nil {info : Info} (h : info.containerId ≠ []) : (Container.fromInfo info).service ≠ [] := by
  have hset : ∀ v ∈ info.opt "imbh-service".toList, v ≠ [] := by
    intro v hv
    exact of_decide_eq_true (filter_eq_some_iff.mp hv).2
  show (info.opt "imbh-service".toList).getD _ ≠ []
  rcases hopt : info.opt "imbh-service".toList with _ | v
  · show (if _ then _ else _) ≠ []
    split
    · assumption
    · obtain ⟨c, rest, hid⟩ := exists_cons_of_ne_nil h
      rw [hid]
      exact cons_ne_nil _ _
  · exact hset v hopt

/-- The severity that an option has is one of the numbers. -/
theorem severity_range {value : Option Text} {s : ℤ × Text} (h : severity value = some s) :
    1 ≤ s.1 ∧ s.1 ≤ 24 := by
  obtain ⟨v, -, h⟩ := bind_eq_some_iff.mp h
  dsimp only at h
  split at h
  · split at h
    · rename_i hrange
      rw [← some.inj h]
      exact hrange
    · exact nomatch h
  · obtain ⟨n, hn, rfl⟩ := map_eq_some_iff.mp h
    have hall : ∀ n ∈ [("TRACE".toList, 1), ("DEBUG".toList, 5), ("INFO".toList, 9), ("WARN".toList, 13),
        ("WARNING".toList, 13), ("ERROR".toList, 17), (("FATAL".toList, 21) : Text × ℤ)], 1 ≤ n.2 ∧ n.2 ≤ 24 := by
      decide
    exact hall n (mem_of_find?_eq_some hn)

/-- The severity of a line is one of the 24 numbers. -/
theorem severityFor_range (info : Info) (stderr : Bool) :
    1 ≤ ((Container.fromInfo info).severityFor stderr).1 ∧
      ((Container.fromInfo info).severityFor stderr).1 ≤ 24 := by
  have hgetD : ∀ (value : Option Text) (d : ℤ × Text), 1 ≤ d.1 ∧ d.1 ≤ 24 →
      1 ≤ ((severity value).getD d).1 ∧ ((severity value).getD d).1 ≤ 24 := by
    intro value d hd
    rcases hs : severity value with _ | s
    · exact hd
    · exact severity_range hs
  rcases stderr with _ | _
  · exact hgetD _ _ (by decide)
  · exact hgetD _ _ (by decide)

end Imbh.Docker
