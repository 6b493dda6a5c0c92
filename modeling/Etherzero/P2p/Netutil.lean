import Mathlib

/-!
# IP addresses and distinct network sets (p2p/netutil/net.go, and the parts of net/ip.go they call)

An IP is its bytes: four for IPv4, sixteen for IPv6, where `::ffff:a.b.c.d` also stands for an IPv4 address
(`To4`). `IsLAN` holds of loopback addresses and of the private ranges of `lan4` and `lan6`, written here as the
network numbers and masks that `net.ParseCIDR` makes of their texts; the special-purpose ranges are left out, since
nothing modelled reads them. A `DistinctNetSet` counts the members of each network range: its key is the address's
type byte followed by the first `Subnet` bits, and a key whose count drops to zero is deleted, which a Go map reads
back as zero, so the counts are a function to `Nat`.
-/

namespace Etherzero.Netutil

/-- `net.IP`. -/
abbrev IP := List UInt8

/-- `IP.To4`: the four bytes of an IPv4 address, also when it is written in sixteen bytes after `::ffff:`. -/
def to4 (ip : IP) : Option IP :=
  if ip.length = 4 then some ip
  else if ip.length = 16 ∧ ip.take 10 = List.replicate 10 0 ∧ ip.getD 10 0 = 0xff ∧ ip.getD 11 0 = 0xff then
    some (ip.drop 12)
  else none

/-- `net.IPv6loopback`, `::1`. -/
def ipv6Loopback : IP := List.replicate 15 0 ++ [1]

/-- `IP.IsLoopback`; `Equal` against the sixteen bytes of `::1` is byte equality, as the address is not IPv4. -/
def isLoopback (ip : IP) : Bool :=
  match to4 ip with
  | some ip4 => ip4.getD 0 0 == 127
  | none => ip == ipv6Loopback

/-- `net.IPNet`. -/
structure IPNet where
  ip : IP
  mask : List UInt8

/-- `networkNumberAndMask`: a nil result is the empty list. -/
def networkNumberAndMask (n : IPNet) : IP × List UInt8 :=
  let ip := (to4 n.ip).getD n.ip
  if (to4 n.ip).isNone ∧ ip.length ≠ 16 then ([], [])
  else if n.mask.length = 4 then
    if ip.length ≠ 4 then ([], []) else (ip, n.mask)
  else if n.mask.length = 16 then
    (ip, if ip.length = 4 then n.mask.drop 12 else n.mask)
  else ([], [])

/-- `IPNet.Contains`. -/
def IPNet.contains (n : IPNet) (ip : IP) : Bool :=
  let (nn, m) := networkNumberAndMask n
  let ip := (to4 ip).getD ip
  ip.length == nn.length &&
    (List.range ip.length).all fun i => nn.getD i 0 &&& m.getD i 0 == ip.getD i 0 &&& m.getD i 0

/-- `lan4`: 0.0.0.0/8, 10.0.0.0/8, 172.16.0.0/12, 192.168.0.0/16. -/
def lan4 : List IPNet :=
  [⟨[0, 0, 0, 0], [255, 0, 0, 0]⟩, ⟨[10, 0, 0, 0], [255, 0, 0, 0]⟩, ⟨[172, 16, 0, 0], [255, 240, 0, 0]⟩,
    ⟨[192, 168, 0, 0], [255, 255, 0, 0]⟩]

/-- `lan6`: fe80::/10, fc00::/7. -/
def lan6 : List IPNet :=
  [⟨0xfe :: 0x80 :: List.replicate 14 0, 0xff :: 0xc0 :: List.replicate 14 0⟩,
    ⟨0xfc :: List.replicate 15 0, 0xfe :: List.replicate 15 0⟩]

/-- `IsLAN`. -/
def isLAN (ip : IP) : Bool :=
  if isLoopback ip then true
  else
    match to4 ip with
    | some v4 => lan4.any (·.contains v4)
    | none => lan6.any (·.contains ip)

/-- `DistinctNetSet`: the members of each range, by key. -/
structure DistinctNetSet where
  subnet : Nat
  limit : Nat
  members : List UInt8 → Nat

/-- `DistinctNetSet.key`: `'4'` or `'6'`, then the address cut to `Subnet` bits. -/
def DistinctNetSet.key (s : DistinctNetSet) (ip : IP) : List UInt8 :=
  let (typ, ip) : UInt8 × IP :=
    match to4 ip with
    | some ip4 => (52, ip4)
    | none => (54, ip)
  let bits := min s.subnet (ip.length * 8)
  let nb := bits / 8
  let mask : UInt8 := ~~~(0xFF >>> UInt8.ofNat (bits % 8))
  typ :: ip.take nb ++ if nb < ip.length ∧ mask ≠ 0 then [ip.getD nb 0 &&& mask] else []

/-- `DistinctNetSet.Add`: false, and nothing added, when the range is full. -/
def DistinctNetSet.add (s : DistinctNetSet) (ip : IP) : DistinctNetSet × Bool :=
  let key := s.key ip
  let n := s.members key
  if n < s.limit then ({ s with members := Function.update s.members key (n + 1) }, true) else (s, false)

/-- `DistinctNetSet.Remove`: a count of one is deleted and reads back as zero; an absent key stays absent. -/
def DistinctNetSet.remove (s : DistinctNetSet) (ip : IP) : DistinctNetSet :=
  let key := s.key ip
  { s with members := Function.update s.members key (s.members key - 1) }

end Etherzero.Netutil
