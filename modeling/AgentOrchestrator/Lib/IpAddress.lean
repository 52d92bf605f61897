import Mathlib.Data.List.Basic

/-!
# IP addresses

Addresses of both families, the networks in which they lie, and their textual form, all as in Python's `ipaddress`
module: `isPrivate` and `isLinkLocal` go by the lists of networks of its version in Python 3.11.
-/

/-- A network of addresses with `w` bits. -/
structure IpNetwork (w : Nat) where
  networkAddress : BitVec w
  prefixLen : Nat

namespace IpNetwork

variable {w : Nat}

def netmask (net : IpNetwork w) : BitVec w := BitVec.allOnes w <<< (w - net.prefixLen)

/-- `ip in net`. -/
def contains (net : IpNetwork w) (ip : BitVec w) : Bool := ip &&& net.netmask == net.networkAddress

end IpNetwork

inductive IpAddress where
  | v4 (ip : BitVec 32)
  | v6 (ip : BitVec 128)
deriving DecidableEq

namespace IpAddress

def ofDigits (base : Nat) (digits : List Nat) : Nat := digits.foldl (fun n d => base * n + d) 0

/-! ### Networks -/

def octets (l : List Nat) : BitVec 32 := BitVec.ofNat 32 (ofDigits 256 l)

/-- The address that begins with the given hextets. -/
def hextets (l : List Nat) : BitVec 128 := BitVec.ofNat 128 (ofDigits 65536 l) <<< (16 * (8 - l.length))

def privateNetworksV4 : List (IpNetwork 32) :=
  [⟨octets [0, 0, 0, 0], 8⟩, ⟨octets [10, 0, 0, 0], 8⟩, ⟨octets [127, 0, 0, 0], 8⟩, ⟨octets [169, 254, 0, 0], 16⟩,
    ⟨octets [172, 16, 0, 0], 12⟩, ⟨octets [192, 0, 0, 0], 24⟩, ⟨octets [192, 0, 0, 170], 31⟩,
    ⟨octets [192, 0, 2, 0], 24⟩, ⟨octets [192, 168, 0, 0], 16⟩, ⟨octets [198, 18, 0, 0], 15⟩,
    ⟨octets [198, 51, 100, 0], 24⟩, ⟨octets [203, 0, 113, 0], 24⟩, ⟨octets [240, 0, 0, 0], 4⟩,
    ⟨octets [255, 255, 255, 255], 32⟩]

def privateExceptionsV4 : List (IpNetwork 32) := [⟨octets [192, 0, 0, 9], 32⟩, ⟨octets [192, 0, 0, 10], 32⟩]

def privateNetworksV6 : List (IpNetwork 128) :=
  [⟨hextets [0, 0, 0, 0, 0, 0, 0, 1], 128⟩, ⟨hextets [], 128⟩, ⟨hextets [0, 0, 0, 0, 0, 0xffff], 96⟩,
    ⟨hextets [0x64, 0xff9b, 1], 48⟩, ⟨hextets [0x100], 64⟩, ⟨hextets [0x2001], 23⟩, ⟨hextets [0x2001, 0xdb8], 32⟩,
    ⟨hextets [0x2002], 16⟩, ⟨hextets [0xfc00], 7⟩, ⟨hextets [0xfe80], 10⟩]

def privateExceptionsV6 : List (IpNetwork 128) :=
  [⟨hextets [0x2001, 1, 0, 0, 0, 0, 0, 1], 128⟩, ⟨hextets [0x2001, 1, 0, 0, 0, 0, 0, 2], 128⟩,
    ⟨hextets [0x2001, 3], 32⟩, ⟨hextets [0x2001, 4, 0x112], 48⟩, ⟨hextets [0x2001, 0x20], 28⟩,
    ⟨hextets [0x2001, 0x30], 28⟩]

/-- The IPv4 address that an IPv6 address maps. -/
def ipv4Mapped (ip : BitVec 128) : Option (BitVec 32) :=
  if ip >>> 32 = 0xffff then some (ip.setWidth 32) else none

def isPrivateV4 (ip : BitVec 32) : Bool :=
  privateNetworksV4.any (·.contains ip) && privateExceptionsV4.all fun net => !net.contains ip

def isPrivate : IpAddress → Bool
  | v4 ip => isPrivateV4 ip
  | v6 ip =>
    match ipv4Mapped ip with
    | some mapped => isPrivateV4 mapped
    | none => privateNetworksV6.any (·.contains ip) && privateExceptionsV6.all fun net => !net.contains ip

def isLoopback : IpAddress → Bool
  | v4 ip => IpNetwork.contains ⟨octets [127, 0, 0, 0], 8⟩ ip
  | v6 ip => ip == 1

def isLinkLocal : IpAddress → Bool
  | v4 ip => IpNetwork.contains ⟨octets [169, 254, 0, 0], 16⟩ ip
  | v6 ip => IpNetwork.contains ⟨hextets [0xfe80], 10⟩ ip

/-! ### Texts -/

def hexDigit? (c : Char) : Option Nat :=
  if c.isDigit then some (c.toNat - '0'.toNat)
  else if 'a' ≤ c ∧ c ≤ 'f' then some (c.toNat - 'a'.toNat + 10)
  else if 'A' ≤ c ∧ c ≤ 'F' then some (c.toNat - 'A'.toNat + 10)
  else none

/-- `_parse_octet`. -/
def parseOctet (text : List Char) : Option Nat :=
  if text = [] ∨ text.all Char.isDigit = false ∨ 3 < text.length ∨ (text ≠ ['0'] ∧ text.head? = some '0') then none
  else
    match text.mapM hexDigit? with
    | some digits => if 255 < ofDigits 10 digits then none else some (ofDigits 10 digits)
    | none => none

/-- `IPv4Address(text)`. -/
def parseV4 (text : List Char) : Option (BitVec 32) :=
  let parts := text.splitOn '.'
  if parts.length = 4 then (parts.mapM parseOctet).map octets else none

/-- `_parse_hextet`. -/
def parseHextet (text : List Char) : Option Nat :=
  if text = [] ∨ 4 < text.length then none else (text.mapM hexDigit?).map (ofDigits 16)

/-- A suffix in the form of an IPv4 address is converted to two hextets. -/
def expandSuffix (parts : List (List Char)) : Option (List (List Char)) :=
  let last := parts.getLast?.getD []
  if '.' ∈ last then
    (parseV4 last).map fun ip =>
      parts.dropLast ++ [Nat.toDigits 16 (ip.toNat / 65536), Nat.toDigits 16 (ip.toNat % 65536)]
  else some parts

/-- The places at which there is nothing between two colons. -/
def skips (parts : List (List Char)) : List Nat :=
  (List.range parts.length).filter fun i => 0 < i ∧ i + 1 < parts.length ∧ parts[i]? = some []

/-- The parts on one side of `::`; a colon at the end of the text is only permitted as part of it. -/
def side (endmost : Option (List Char)) (parts : List (List Char)) : Option (List (List Char)) :=
  if endmost ≠ some [] then some parts else if parts.length = 1 then some [] else none

/-- The hextets that are written, with the zeros that `::` stands for. -/
def spread (parts : List (List Char)) : Option (List (List Char)) :=
  match skips parts with
  | [] =>
    if parts.length = 8 ∧ parts.head? ≠ some [] ∧ parts.getLast? ≠ some [] then some parts else none
  | [i] => do
    let hi ← side parts.head? (parts.take i)
    let lo ← side parts.getLast? (parts.drop (i + 1))
    if hi.length + lo.length < 8 then
      some (hi ++ List.replicate (8 - (hi.length + lo.length)) ['0'] ++ lo)
    else none
  | _ => none

/-- The address without its scope id. -/
def dropScopeId (text : List Char) : Option (List Char) :=
  if '%' ∈ text then
    let scopeId := (text.dropWhile (· ≠ '%')).tail
    if scopeId = [] ∨ '%' ∈ scopeId then none else some (text.takeWhile (· ≠ '%'))
  else some text

/-- `IPv6Address(text)`. -/
def parseV6 (text : List Char) : Option (BitVec 128) := do
  guard ('/' ∉ text)
  let addr ← dropScopeId text
  let written := addr.splitOn ':'
  guard (3 ≤ written.length)
  let parts ← expandSuffix written
  guard (parts.length ≤ 9)
  let spreaded ← spread parts
  return hextets (← spreaded.mapM parseHextet)

/-- `ip_address(text)`. -/
def ipAddress (text : String) : Option IpAddress :=
  match parseV4 text.toList with
  | some ip => some (v4 ip)
  | none => (parseV6 text.toList).map v6

example : ipAddress "192.168.0.1" = some (v4 (octets [192, 168, 0, 1])) := by decide +kernel

example : ipAddress "fe80::1%eth0" = some (v6 (hextets [0xfe80, 0, 0, 0, 0, 0, 0, 1])) := by decide +kernel

example : ipAddress "::ffff:10.0.0.1" = some (v6 (hextets [0, 0, 0, 0, 0, 0xffff, 0x0a00, 1])) := by decide +kernel

end IpAddress
