/-
  File:      CuteMuduo/InetAddress.lean
  Subject:   `InetAddress` (inet_address.hpp, inet_address.cpp): an IPv4 address and port, as
             far as the server's and the connections' names need it.
-/
import Mathlib.Logic.Basic

namespace CuteMuduo

/-- The address, in dotted order, and the port of a `sockaddr_in`. -/
structure InetAddress where
  a : UInt8
  b : UInt8
  c : UInt8
  d : UInt8
  port : UInt16
  deriving DecidableEq

namespace InetAddress

/-- `inet_ntop` of an IPv4 address. -/
def toIp (addr : InetAddress) : List Char :=
  Nat.toDigits 10 addr.a.toNat ++ ['.'] ++ Nat.toDigits 10 addr.b.toNat ++ ['.'] ++
    Nat.toDigits 10 addr.c.toNat ++ ['.'] ++ Nat.toDigits 10 addr.d.toNat

/-- `InetAddress::ToIpPort()`; the text fits into its 64 bytes. -/
def toIpPort (addr : InetAddress) : List Char :=
  addr.toIp ++ [':'] ++ Nat.toDigits 10 addr.port.toNat

end InetAddress

end CuteMuduo
