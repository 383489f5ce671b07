import Imbh.Lib.Bits
import Imbh.Lib.Split

/-!
# Internet addresses

The octets of an address and the texts that are parsed as one.
-/

namespace Imbh.Lib

/-- Source: `std::net::IpAddr` -/
inductive IpAddr
  | v4 (octets : Bytes) (h : octets.length = 4)
  | v6 (octets : Bytes) (h : octets.length = 16)
  deriving DecidableEq

namespace IpAddr

def octets : IpAddr → Bytes
  | v4 octets _ => octets
  | v6 octets _ => octets

/-- Are both addresses of one family? -/
def SameFamily (a b : IpAddr) : Prop := a.octets.length = b.octets.length

instance (a b : IpAddr) : Decidable (a.SameFamily b) := inferInstanceAs (Decidable (_ = _))

/-- The bits of an address. -/
def width (a : IpAddr) : ℕ := 8 * a.octets.length

/-- The octets behind `::ffff:`. Source: `Ipv6Addr::to_ipv4_mapped` -/
def mapped (octets : Bytes) : Option Bytes :=
  if octets.take 12 = [0, 0, 0, 0, 0, 0, 0, 0, 0, 0, 0xff, 0xff] then some (octets.drop 12) else none

theorem length_mapped {octets quad : Bytes} (h : octets.length = 16) (hmapped : mapped octets = some quad) :
    quad.length = 4 := by
  unfold mapped at hmapped
  split at hmapped
  · cases hmapped
    simp [h]
  · cases hmapped

theorem ext_octets {a b : IpAddr} (h : a.octets = b.octets) : a = b := by
  cases a with
  | v4 x hx =>
    cases b with
    | v4 y hy =>
      cases (h : x = y)
      rfl
    | v6 y hy =>
      have hxy : x = y := h
      rw [hxy] at hx
      omega
  | v6 x hx =>
    cases b with
    | v4 y hy =>
      have hxy : x = y := h
      rw [hxy] at hx
      omega
    | v6 y hy =>
      cases (h : x = y)
      rfl

/-! ## Parsing -/

/-- The value of a digit. -/
def digitValue (c : Char) : ℕ :=
  if c.isDigit then c.toNat - 48 else c.toLower.toNat - 87

/-- A number of at most so many digits. Source: `Parser::read_number` -/
def readNumber (isPart : Char → Bool) (radix maxDigits : ℕ) (zeroPrefix : Bool) (s : Text) :
    Option (ℕ × Text) :=
  let digits := s.takeWhile isPart
  if digits = [] ∨ maxDigits < digits.length ∨ (zeroPrefix = false ∧ digits.head? = some '0' ∧ 1 < digits.length) then none
  else some (digits.foldl (fun n c => n * radix + digitValue c) 0, s.dropWhile isPart)

/-- What is read behind a separator, but for the first of a sequence.
Source: `Parser::read_separator` -/
def readSeparator {α : Type} (separator : Char) (index : ℕ) (inner : Text → Option (α × Text)) (s : Text) :
    Option (α × Text) :=
  if index = 0 then inner s
  else
    match s with
    | c :: rest => if c = separator then inner rest else none
    | [] => none

/-- An octet without leading zeros. -/
def readOctet (s : Text) : Option (UInt8 × Text) :=
  (readNumber Char.isDigit 10 3 false s).bind fun (n, rest) => if n < 256 then some (UInt8.ofNat n, rest) else none

/-- Source: `Parser::read_ipv4_addr` -/
def readV4 (s : Text) : Option (Bytes × Text) := do
  let (a, s) ← readSeparator '.' 0 readOctet s
  let (b, s) ← readSeparator '.' 1 readOctet s
  let (c, s) ← readSeparator '.' 2 readOctet s
  let (d, s) ← readSeparator '.' 3 readOctet s
  return ([a, b, c, d], s)

def isHexDigit (c : Char) : Bool := c.isDigit || ('a' ≤ c.toLower && c.toLower ≤ 'f')

/-- The two octets of a group of hexadecimal digits. -/
def readGroup (s : Text) : Option (Bytes × Text) :=
  (readNumber isHexDigit 16 4 true s).map fun (n, rest) => ([UInt8.ofNat (n / 256), UInt8.ofNat (n % 256)], rest)

/-- At most so many groups, from an index on, the last two of which may be an IPv4 address; whether they
are. Source: `Parser::read_ipv6_addr`, `read_groups` -/
def readGroups (limit : ℕ) : ℕ → Text → Bytes × Bool × Text
  | 0, s => ([], false, s)
  | left + 1, s =>
      let index := limit - (left + 1)
      match if index + 1 < limit then readSeparator ':' index readV4 s else none with
      | some (quad, rest) => (quad, true, rest)
      | none =>
          match readSeparator ':' index readGroup s with
          | some (group, rest) =>
              let (groups, isV4, rest) := readGroups limit left rest
              (group ++ groups, isV4, rest)
          | none => ([], false, s)

/-- Source: `Parser::read_ipv6_addr` -/
def readV6 (s : Text) : Option (Bytes × Text) :=
  let (head, isV4, rest) := readGroups 8 8 s
  if head.length = 16 then some (head, rest)
  else if isV4 then none
  else
    match rest with
    | ':' :: ':' :: rest =>
        let limit := 8 - (head.length / 2 + 1)
        let (tail, _, rest) := readGroups limit limit rest
        some (head ++ List.replicate (16 - head.length - tail.length) 0 ++ tail, rest)
    | _ => none

def ofOctets (octets : Bytes) : Option IpAddr :=
  if h : octets.length = 4 then some (v4 octets h)
  else if h : octets.length = 16 then some (v6 octets h)
  else none

/-- Source: `IpAddr::from_str` -/
def parse (s : Text) : Option IpAddr := do
  let (octets, rest) ← (readV4 s).or (readV6 s)
  if rest = [] then ofOctets octets else none

example : (parse "::ffff:127.0.0.1".toList).map octets =
    some [0, 0, 0, 0, 0, 0, 0, 0, 0, 0, 0xff, 0xff, 127, 0, 0, 1] := by decide

/-! ## Texts of addresses -/

/-- The groups of two octets. Source: `Ipv6Addr::segments` -/
def segments : Bytes → List ℕ
  | high :: low :: rest => (high.toNat * 256 + low.toNat) :: segments rest
  | _ => []

/-- The first longest run of zeros, as its start and its length, behind a run that is being read.
Source: the span of zeros in `Ipv6Addr::fmt` -/
def longestZeros : List ℕ → ℕ → ℕ × ℕ → ℕ × ℕ → ℕ × ℕ
  | [], _, _, longest => longest
  | segment :: rest, i, current, longest =>
      if segment = 0 then
        let current := if current.2 = 0 then (i, 1) else (current.1, current.2 + 1)
        longestZeros rest (i + 1) current (if longest.2 < current.2 then current else longest)
      else longestZeros rest (i + 1) (0, 0) longest

/-- Source: `Ipv4Addr::fmt` -/
def displayV4 (octets : Bytes) : Text := ['.'].intercalate (octets.map fun octet => decimal octet.toNat)

def displaySegments (segments : List ℕ) : Text := [':'].intercalate (segments.map (Nat.toDigits 16))

/-- Source: `IpAddr::fmt` -/
def display : IpAddr → Text
  | v4 octets _ => displayV4 octets
  | v6 octets _ =>
      match mapped octets with
      | some quad => "::ffff:".toList ++ displayV4 quad
      | none =>
          let groups := segments octets
          let (start, length) := longestZeros groups 0 (0, 0) (0, 0)
          if 1 < length then
            displaySegments (groups.take start) ++ "::".toList ++ displaySegments (groups.drop (start + length))
          else displaySegments groups

example : (parse "2001:db8:0:0:1:0:0:1".toList).map display = some "2001:db8::1:0:0:1".toList := by decide

end IpAddr

end Imbh.Lib
