import MarketFeed.Config.Address
import MarketFeed.Yaml.Numeral

/-!
# Addresses in texts

How an address may be written in a configuration, and the one form in which it is shown.
-/

namespace MarketFeed

namespace Ipv4

def render (ip : Ipv4) : String := s!"{ip.a}.{ip.b}.{ip.c}.{ip.d}"

/-- A part of a dotted address: at most 255, without leading zeros. -/
def octet? (text : String) : Option UInt8 :=
  let cs := text.toList
  if 1 < cs.length && cs.head? == some '0' then none
  else ((numeral? 10 cs).filter (· < 256)).map UInt8.ofNat

/-- Reads a dotted address, four parts between three points. -/
def parse? (text : String) : Option Ipv4 :=
  match text.splitOn "." with
  | [a, b, c, d] => return ⟨← octet? a, ← octet? b, ← octet? c, ← octet? d⟩
  | _ => none

end Ipv4

namespace Ipv6

def ofGroups? (groups : List UInt16) : Option Ipv6 :=
  if h : groups.length = 8 then some ⟨groups, h⟩ else none

/-- One to four digits of base sixteen. -/
def group? (text : String) : Option UInt16 :=
  if 4 < text.length then none else (numeral? 16 text.toList).map UInt16.ofNat

/-- A dotted address as the two groups that it stands for. -/
def dotted? (text : String) : Option (List UInt16) :=
  (Ipv4.parse? text).map fun ip =>
    [256 * ip.a.toUInt16 + ip.b.toUInt16, 256 * ip.c.toUInt16 + ip.d.toUInt16]

/-- The groups between colons; the last piece may be a dotted address. -/
def pieces? : List String → Option (List UInt16)
  | [] => some []
  | [p] => (dotted? p).or ((group? p).map ([·]))
  | p :: ps => return (← group? p) :: (← pieces? ps)

/-- The groups of a part of an address, which may be empty. -/
def part? (text : String) : Option (List UInt16) :=
  if text.isEmpty then some [] else pieces? (text.splitOn ":")

/--
Reads an address: eight groups, or fewer with one double colon in place of at least one group of
zeros. Only the end of the address may be dotted.
-/
def parse? (text : String) : Option Ipv6 :=
  match text.splitOn "::" with
  | [whole] => (part? whole).bind ofGroups?
  | [head, tail] => do
    let front ← part? head
    let back ← part? tail
    if head.contains '.' || 7 < front.length + back.length then none
    else ofGroups? (front ++ List.replicate (8 - front.length - back.length) 0 ++ back)
  | _ => none

/-- Where the first of the longest runs of zeros begins, and how long it is. -/
def longestZeros : List UInt16 → Nat × Nat
  | [] => (0, 0)
  | g :: gs =>
    let here := ((g :: gs).takeWhile (· == 0)).length
    let (start, length) := longestZeros gs
    if length ≤ here then (0, here) else (start + 1, length)

def renderGroups (groups : List UInt16) : String :=
  ":".intercalate (groups.map fun g => hexNumeral g.toNat)

/--
The shortest form: the first of the longest runs of two zeros or more is left out, and an address of
the older kind is shown dotted.
-/
def render (ip : Ipv6) : String :=
  match ip.groups with
  | [0, 0, 0, 0, 0, 0xffff, g, h] =>
    "::ffff:" ++ (Ipv4.mk (g / 256).toUInt8 g.toUInt8 (h / 256).toUInt8 h.toUInt8).render
  | groups =>
    let (start, length) := longestZeros groups
    if length < 2 then renderGroups groups
    else renderGroups (groups.take start) ++ "::" ++ renderGroups (groups.drop (start + length))

end Ipv6

namespace Endpoint

def port? (text : String) : Option UInt16 :=
  ((numeral? 10 text.toList).filter (· < 0x10000)).map UInt16.ofNat

def scope? (text : String) : Option UInt32 :=
  ((numeral? 10 text.toList).filter (· < 0x100000000)).map UInt32.ofNat

/-- Reads a dotted address and a port behind a colon. -/
def parseV4? (text : String) : Option Endpoint :=
  match text.splitOn ":" with
  | [ip, port] => return .v4 (← Ipv4.parse? ip) (← port? port)
  | _ => none

/-- Reads an address in brackets, with its scope behind a percent sign if it has one, and a port. -/
def parseV6? (text : String) : Option Endpoint :=
  match text.toList with
  | '[' :: cs =>
    match (String.ofList cs).splitOn "]:" with
    | [inside, port] =>
      match inside.splitOn "%" with
      | [ip] => return .v6 (← Ipv6.parse? ip) 0 (← port? port)
      | [ip, scope] => return .v6 (← Ipv6.parse? ip) (← scope? scope) (← port? port)
      | _ => none
    | _ => none
  | _ => none

def parse? (text : String) : Option Endpoint := (parseV4? text).or (parseV6? text)

def render : Endpoint → String
  | v4 ip port => s!"{ip.render}:{port}"
  | v6 ip scope port =>
    if scope = 0 then s!"[{ip.render}]:{port}" else s!"[{ip.render}%{scope}]:{port}"

end Endpoint

end MarketFeed
