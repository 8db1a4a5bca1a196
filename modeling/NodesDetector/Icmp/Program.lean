import NodesDetector.Library.Bytes
import NodesDetector.Library.OnesComplement
import NodesDetector.Library.Traced

/-! The ICMP codec as the source computes it, on a little-endian LP64 host. -/
namespace NodesDetector

open Bytes Traced

def icmpHdrLen : ℕ := 8
def icmpDataLen : ℕ := 56
def icmpTotalLen : ℕ := 64

def icmpEcho : ℕ := 8
def icmpEchoReply : UInt8 := 0
def ipprotoIcmp : UInt8 := 1

/-- `struct timeval`: two signed 64-bit fields, 16 bytes. -/
structure Timeval where
  tvSec : Int64
  tvUsec : Int64
deriving DecidableEq, Repr

structure PingInfo where
  cost : Int16
  dstIp : UInt32
  taskId : UInt64
deriving DecidableEq, Repr

structure Icmp where
  srcIp : UInt32
  icmpId : UInt16
deriving DecidableEq, Repr

/-- What a run does besides computing its result. -/
inductive Event
  /-- byte `i` of the packet buffer is loaded -/
  | read (i : ℕ)
  /-- the `size_t` subtraction `a - b` -/
  | sizeSub (a b : ℕ)
  /-- a signed 64-bit operation whose exact result is `z` -/
  | arith (z : ℤ)
  /-- a call of `TimeDiff` -/
  | timeDiff (recvTime sendTime : Timeval)
deriving DecidableEq

/-! ### CheckSum -/

/-- The word loop and the left-over byte; `int len` is never negative at a call. -/
def sumWords (buffer : Memory) (p : ℕ) (sum : UInt32) : (count : ℕ) → UInt32
  | 0 => sum
  | 1 => sum + (buffer p).toUInt32
  | count + 2 => sumWords buffer (p + 2) (sum + UInt32.ofNat (load buffer p 2)) count

theorem toNat_carry (sum : UInt32) :
    ((sum &&& (0xffff : UInt32)) + (sum >>> 16)).toNat =
      sum.toNat % 65536 + sum.toNat / 65536 := by
  have hlt := sum.toNat_lt
  have hand : sum.toNat &&& 0xffff = sum.toNat % 65536 := Nat.and_two_pow_sub_one_eq_mod _ 16
  have hshift : sum.toNat >>> 16 = sum.toNat / 65536 := Nat.shiftRight_eq_div_pow _ 16
  simp only [UInt32.toNat_add, UInt32.toNat_and, UInt32.toNat_shiftRight, UInt32.reduceToNat,
    Nat.reduceMod, hand, hshift]
  omega

theorem shift_ne_zero_iff {sum : UInt32} : sum >>> 16 ≠ 0 ↔ 65536 ≤ sum.toNat := by
  have hshift : (sum >>> 16).toNat = sum.toNat / 65536 := by
    simpa using Nat.shiftRight_eq_div_pow sum.toNat 16
  rw [ne_eq, ← UInt32.toNat_inj, hshift]
  simp only [UInt32.reduceToNat]
  omega

/-- `while (sum >> 16) sum = (sum & 0xffff) + (sum >> 16);` -/
def foldSum (sum : UInt32) : UInt32 :=
  if sum >>> 16 ≠ 0 then foldSum ((sum &&& (0xffff : UInt32)) + (sum >>> 16)) else sum
termination_by sum.toNat
decreasing_by
  rename_i h
  rw [toNat_carry]
  exact OnesComplement.carry_lt (by decide) (shift_ne_zero_iff.mp h)

def checkSum (buffer : Memory) (p len : ℕ) (csum : UInt16) : UInt16 :=
  (~~~ foldSum (sumWords buffer p csum.toUInt32 len)).toUInt16

/-! ### TimeDiff -/

def addI64 (a b : Int64) : Traced Event Int64 := do
  emit (.arith (a.toInt + b.toInt))
  return a + b

def subI64 (a b : Int64) : Traced Event Int64 := do
  emit (.arith (a.toInt - b.toInt))
  return a - b

def mulI64 (a b : Int64) : Traced Event Int64 := do
  emit (.arith (a.toInt * b.toInt))
  return a * b

/-- An operation that overflows is undefined in C: the log shows it, the result wraps. -/
def timeDiff (recvTime sendTime : Timeval) : Traced Event UInt16 := do
  emit (.timeDiff recvTime sendTime)
  if recvTime.tvUsec ≥ sendTime.tvUsec then
    let sec ← subI64 recvTime.tvSec sendTime.tvSec
    let msec ← mulI64 sec 1000
    let usec ← subI64 recvTime.tvUsec sendTime.tvUsec
    let diff ← addI64 msec (usec / 1000)
    return diff.toUInt64.toUInt16
  else
    let sec ← subI64 recvTime.tvSec sendTime.tvSec
    let sec ← subI64 sec 1
    let msec ← mulI64 sec 1000
    let usec ← addI64 recvTime.tvUsec 1000
    let usec ← subI64 usec sendTime.tvUsec
    let diff ← addI64 msec (usec / 1000)
    return diff.toUInt64.toUInt16

/-! ### Packing -/

def htons (x : UInt16) : UInt16 := (x <<< 8) ||| (x >>> 8)

def storeTimeval (m : Memory) (p : ℕ) (t : Timeval) : Memory :=
  store (store m p 8 t.tvSec.toUInt64.toNat) (p + 8) 8 t.tvUsec.toUInt64.toNat

def loadTimeval (m : Memory) (p : ℕ) : Timeval where
  tvSec := (UInt64.ofNat (load m p 8)).toInt64
  tvUsec := (UInt64.ofNat (load m (p + 8) 8)).toInt64

/-- `Icmp::PackIcmpPacket`: the return value and the buffer; `now` is what `gettimeofday` stores.
The header is type at 0, code at 1, checksum at 2, echo id at 4, sequence at 6; `dst_ip` is
unused in the source. -/
def packIcmpPacket (icmp : Icmp) (_dstIp : UInt32) (seqNum : UInt16) (taskId : UInt64)
    (buffer : Memory) (bufferLen : ℕ) (now : Timeval) : Bool × Memory :=
  if bufferLen < icmpTotalLen then (false, buffer)
  else
    let datalen := icmpDataLen
    let buffer := store buffer 0 1 icmpEcho
    let buffer := store buffer 1 1 0
    let buffer := store buffer 4 2 icmp.icmpId.toNat
    let buffer := store buffer 6 2 (htons seqNum).toNat
    let buffer := store buffer 2 2 0
    let buffer := store buffer 8 16 0
    let buffer := store buffer 2 2 (checkSum buffer 0 icmpTotalLen 0).toNat
    let buffer := storeTimeval buffer 8 now
    let buffer := store buffer 24 8 taskId.toNat
    -- `~` works on the promoted `int`; the argument is narrowed back to 16 bits
    let seed := (~~~ (UInt32.ofNat (load buffer 2 2))).toUInt16
    let buffer := store buffer 2 2 (checkSum buffer 0 (icmpHdrLen + datalen) seed).toNat
    (true, buffer)

/-! ### Parsing -/

/-- Load `n` bytes of the packet buffer, logging each index. -/
def readBytes (packet : Memory) (p n : ℕ) : Traced Event ℕ := do
  emitAll ((List.range n).map fun i => .read (p + i))
  return load packet p n

def readTimeval (packet : Memory) (p : ℕ) : Traced Event Timeval := do
  emitAll ((List.range 16).map fun i => .read (p + i))
  return loadTimeval packet p

/-- Unsigned subtraction modulo 2^64. -/
def wrapSub (a b : ℕ) : ℕ := (2 ^ 64 - b + a) % 2 ^ 64

def sizeSub (a b : ℕ) : Traced Event ℕ := do
  emit (.sizeSub a b)
  return wrapSub a b

/-- The return value of `ParseIcmpPakcet` with `*info` and `*not_my_pkt` after the call. -/
structure Parsed where
  ret : Bool
  info : PingInfo
  notMyPkt : Bool
deriving DecidableEq, Repr

/-- The condition of the echo check; its second operand is read only when the first is false. -/
def notOurReply (icmp : Icmp) (packet : Memory) (icmpHdr : ℕ) : Traced Event Bool := do
  let type ← readBytes packet icmpHdr 1
  if UInt8.ofNat type ≠ icmpEchoReply then
    return true
  let id ← readBytes packet (icmpHdr + 4) 2
  return UInt16.ofNat id ≠ icmp.icmpId

/-- `Icmp::ParseIcmpPakcet`; `recvTime` is what `gettimeofday` stores. -/
def parseIcmpPakcet (icmp : Icmp) (packet : Memory) (len : ℕ) (recvTime : Timeval)
    (info : PingInfo) (notMyPkt : Bool) : Traced Event Parsed := do
  let versionHl ← readBytes packet 0 1
  let ipHdrLen := (versionHl % 16) <<< 2
  let ipP ← readBytes packet 9 1
  if UInt8.ofNat ipP ≠ ipprotoIcmp then
    return ⟨false, info, notMyPkt⟩
  let icmpLen ← sizeSub len ipHdrLen
  if icmpLen < icmpTotalLen then
    return ⟨false, info, notMyPkt⟩
  if ← notOurReply icmp packet ipHdrLen then
    return ⟨false, info, true⟩
  let sendTime ← readTimeval packet (ipHdrLen + icmpHdrLen)
  let cost ← timeDiff recvTime sendTime
  let taskId ← readBytes packet (ipHdrLen + icmpHdrLen + 16) 8
  return ⟨true, { info with cost := cost.toInt16, taskId := UInt64.ofNat taskId }, notMyPkt⟩

end NodesDetector
