import Imbh.Lib.Base64
import Imbh.Lib.SortedMap

/-!
# MCP messages

A message is answered by its method. A message that declares a protocol version is of the modern era: over
HTTP its headers have to agree with its body, and its version has to be the one that is implemented. Over
stdio there are no headers.
-/

namespace Imbh.Mcp

open Lib

/-! ## Values -/

/-- Source: `serde_json` `Value` -/
inductive Value
  | null
  | bool (b : Bool)
  | number (n : Text)
  | string (s : Text)
  | array (items : List Value)
  | object (members : List (Text × Value))

/-- Source: `serde_json` `Value::get` -/
def Value.get (v : Value) (name : Text) : Option Value :=
  match v with
  | .object members => (members.find? fun m => m.1 = name).map Prod.snd
  | _ => none

def Value.asStr : Value → Option Text
  | .string s => some s
  | _ => none

def Value.isNull : Value → Bool
  | .null => true
  | _ => false

/-- A member that is not null. -/
def Value.field (v : Value) (name : Text) : Option Value := (v.get name).filter fun m => !m.isNull

/-- The object with one more member. Source: `serde_json` `Map::insert` -/
def Value.insert (v : Value) (name : Text) (member : Value) : Value :=
  match v with
  | .object members => .object (ofPairs (members ++ [(name, member)]))
  | other => other

/-! ## Constants -/

/-- Source: `lib.rs` `LATEST_VERSION` -/
def latestVersion : Text := "2026-07-28".toList

/-- Source: `lib.rs` `LEGACY_VERSIONS` -/
def legacyVersions : List Text := ["2025-11-25".toList, "2025-06-18".toList, "2025-03-26".toList]

/-- Source: `lib.rs` `SERVER_NAME` -/
def serverName : Text := "imbhd".toList

def parseError : Text := "-32700".toList

def invalidRequest : Text := "-32600".toList

def methodNotFound : Text := "-32601".toList

def invalidParams : Text := "-32602".toList

def headerMismatch : Text := "-32020".toList

def unsupportedProtocolVersion : Text := "-32022".toList

/-- Source: `lib.rs` `META_VERSION` -/
def metaVersion : Text := "io.modelcontextprotocol/protocolVersion".toList

/-! ## Answers -/

/-- Source: `lib.rs` `error_body` -/
def errorBody (id : Option Value) (code message : Text) : Value :=
  .object [("error".toList, .object [("code".toList, .number code), ("message".toList, .string message)]),
    ("id".toList, id.getD .null), ("jsonrpc".toList, .string "2.0".toList)]

/-- Source: `lib.rs` `error_with_data` -/
def errorWithData (id : Option Value) (code message : Text) (data : Value) : Value :=
  .object [("error".toList, .object [("code".toList, .number code), ("data".toList, data),
      ("message".toList, .string message)]),
    ("id".toList, id.getD .null), ("jsonrpc".toList, .string "2.0".toList)]

/-- Source: `lib.rs` `result_body` -/
def resultBody (id result : Value) : Value :=
  .object [("id".toList, id), ("jsonrpc".toList, .string "2.0".toList), ("result".toList, result)]

/-- Source: `lib.rs` `tag` -/
def tag (modern : Bool) (result : Value) : Value :=
  if modern then result.insert "resultType".toList (.string "complete".toList) else result

/-- Source: `lib.rs` `Reply` -/
structure Reply where
  status : ℕ
  body : Option Value

/-- Source: `lib.rs` `Reply::json` -/
def Reply.json (status : ℕ) (body : Value) : Reply := ⟨status, some body⟩

/-- Source: `lib.rs` `Reply::accepted` -/
def Reply.accepted : Reply := ⟨202, none⟩

/-! ## Headers -/

/-- Source: `lib.rs` `Headers` -/
structure Headers where
  protocolVersion : Option Text
  method : Option Text
  name : Option Text

/-- Source: `lib.rs` `Transport` -/
inductive Transport
  | http (headers : Headers)
  | stdio

/-- Source: `lib.rs` `Transport::headers` -/
def Transport.headers : Transport → Option Headers
  | .http headers => some headers
  | .stdio => none

/-- A text without an end that it has. Source: `str::strip_suffix` -/
def stripSuffix (suffix value : Text) : Option Text :=
  (suffix.reverse.isPrefixOf? value.reverse).map List.reverse

/-- Source: `json.rs` `decode_header_value` -/
def decodeHeaderValue (value : Text) : Option Text :=
  match ("=?base64?".toList.isPrefixOf? value).bind (stripSuffix "?=".toList) with
  | none => some value
  | some inner => (base64Decode inner).bind decodeText

/-- Source: `json.rs` `encode_header_value` -/
def encodeHeaderValue (value : Text) : Text :=
  if value ≠ [] ∧ value.all (fun c => c.isAlphanum || c = '_' || c = '.' || c = '-') then value
  else "=?base64?".toList ++ base64Encode (encodeText value) ++ "?=".toList

/-- What answers the calls: the tools of the host and its texts. -/
structure Host where
  tools : List Value
  call : Text → Option Value → Option (Except Text Value)
  toText : Value → Text
  version : Text
  instructions : Text

section

variable (host : Host) {name : Option Value} {id : Value} {method : Text} {headers : Headers}

/-- Source: `lib.rs` `server_info` -/
def serverInfo : Value :=
  .object [("name".toList, .string serverName),
    ("title".toList, .string "imbh embedded observability database".toList),
    ("version".toList, .string host.version)]

/-- Source: `lib.rs` `discover` -/
def discover : Value :=
  tag true (.object [("_meta".toList, .object [("io.modelcontextprotocol/serverInfo".toList, serverInfo host)]),
    ("capabilities".toList, .object [("tools".toList, .object [])]),
    ("instructions".toList, .string host.instructions),
    ("supportedVersions".toList, .array [.string latestVersion])])

/-- Source: `lib.rs` `initialize` -/
def handshake (requested : Option Text) : Value :=
  let negotiated := (requested.filter fun v => v ∈ legacyVersions).getD "2025-11-25".toList
  .object [("capabilities".toList, .object [("tools".toList, .object [("listChanged".toList, .bool false)])]),
    ("instructions".toList, .string host.instructions), ("protocolVersion".toList, .string negotiated),
    ("serverInfo".toList, serverInfo host)]

/-- The refusal of a header. Source: `lib.rs` `validate_modern`, its `mismatch` -/
def mismatch (id : Value) (message : Text) : Option Reply :=
  some (.json 400 (errorBody (some id) headerMismatch message))

/-- The agreement of the headers with the body. Source: `lib.rs` `validate_modern` -/
def headerRefusal (id : Value) (method : Text) (declared : Option Text) (name : Option Value) (headers : Headers) :
    Option Reply :=
  match headers.protocolVersion with
  | none => mismatch id "missing required `MCP-Protocol-Version` header".toList
  | some version =>
      if some version ≠ declared then
        mismatch id ("header mismatch: `MCP-Protocol-Version: ".toList ++ version ++
          "` does not match the request body's ".toList ++ metaVersion)
      else
        match headers.method with
        | none => mismatch id "missing required `Mcp-Method` header".toList
        | some m =>
            if m ≠ method then
              mismatch id ("header mismatch: `Mcp-Method: ".toList ++ m ++
                "` does not match the request body's method `".toList ++ method ++ "`".toList)
            else if method = "tools/call".toList then
              let bodyName := (name.bind Value.asStr).getD []
              match headers.name.map decodeHeaderValue with
              | none => mismatch id "missing required `Mcp-Name` header".toList
              | some none => mismatch id "`Mcp-Name` header is not a valid Base64 sentinel".toList
              | some (some n) =>
                  if n ≠ bodyName then
                    mismatch id ("header mismatch: `Mcp-Name: ".toList ++ n ++
                      "` does not match the request body's tool name `".toList ++ bodyName ++ "`".toList)
                  else none
            else none

/-- The check of the version. Source: `lib.rs` `validate_modern` -/
def versionRefusal (id : Value) (method : Text) (requested : Option Text) : Option Reply :=
  if requested = some latestVersion then none
  else if requested = none ∧ method = "server/discover".toList then none
  else
    some (.json 400 (errorWithData (some id) unsupportedProtocolVersion "Unsupported protocol version".toList
      (.object [("requested".toList, (requested.map Value.string).getD .null),
        ("supported".toList, .array [.string latestVersion])])))

/-- Source: `lib.rs` `validate_modern` -/
def validateModern (id : Value) (method : Text) (declared : Option Text) (name : Option Value)
    (transport : Transport) : Option Reply :=
  let refusal :=
    match transport.headers with
    | some headers =>
        if method ≠ "server/discover".toList then headerRefusal id method declared name headers else none
    | none => none
  match refusal with
  | some reply => some reply
  | none =>
      versionRefusal id method (declared.or (transport.headers.bind Headers.protocolVersion))

/-- The answer to a method. Source: `lib.rs` `handle_with`, the match on the method -/
def answer (id : Value) (method : Text) (modern : Bool) (param : Text → Option Value) : Reply :=
  if method = "server/discover".toList then .json 200 (resultBody id (discover host))
  else if method = "initialize".toList ∧ modern = false then
    .json 200 (resultBody id (handshake host ((param "protocolVersion".toList).bind Value.asStr)))
  else if method = "ping".toList then .json 200 (resultBody id (tag modern (.object [])))
  else if method = "tools/list".toList then
    .json 200 (resultBody id (tag modern (.object [("tools".toList, .array host.tools)])))
  else if method = "tools/call".toList then
    match (param "name".toList).bind Value.asStr with
    | none =>
        .json 200 (errorBody (some id) invalidParams "missing tool name in `params.name`".toList)
    | some name =>
        match host.call name (param "arguments".toList) with
        | none => .json 200 (errorBody (some id) invalidParams ("Unknown tool: ".toList ++ name))
        | some outcome =>
            let (text, isError) :=
              match outcome with
              | .ok value => (host.toText value, false)
              | .error message => (message, true)
            .json 200 (resultBody id (tag modern (.object
              [("content".toList, .array [.object [("text".toList, .string text),
                ("type".toList, .string "text".toList)]]), ("isError".toList, .bool isError)])))
  else
    .json (if modern then 404 else 200)
      (errorBody (some id) methodNotFound ("Method not found: ".toList ++ method))

/-- The member of the parameters, where they are an object. -/
def paramOf (message : Value) (name : Text) : Option Value :=
  (message.field "params".toList).bind fun params => params.field name

/-- The version that a message declares. -/
def declaredVersion (message : Value) : Option Text :=
  ((paramOf message "_meta".toList).bind fun v => v.get metaVersion).bind Value.asStr

/-- The answer to a message that was parsed. Source: `lib.rs` `handle_with` -/
def handleMessage (message : Value) (transport : Transport) : Reply :=
  match message with
  | .object _ =>
      let id := message.field "id".toList
      match (message.field "method".toList).bind Value.asStr with
      | none =>
          match id with
          | some id => .json 400 (errorBody (some id) invalidRequest "missing `method`".toList)
          | none => .accepted
      | some method =>
          let declared := declaredVersion message
          let modern := declared.isSome || method = "server/discover".toList
          match id with
          | none => .accepted
          | some id =>
              match if modern then
                  validateModern id method declared (paramOf message "name".toList) transport
                else none with
              | some reply => reply
              | none => answer host id method modern (paramOf message)
  | _ => .json 400 (errorBody none invalidRequest "request body is not a JSON-RPC object".toList)

/-- The answer to a message. Source: `lib.rs` `handle_with` -/
def handle (parse : Bytes → Except Text Value) (body : Bytes) (transport : Transport) : Reply :=
  match parse body with
  | .error e => .json 400 (errorBody none parseError ("request body is not JSON: ".toList ++ e))
  | .ok message => handleMessage host message transport

/-! ## Answers are JSON-RPC -/

end

end Imbh.Mcp
