import NodesDetector.Icmp.Program

/-! The receive and send paths of `Pinger` as the source computes them, with the system calls
they make. -/
namespace NodesDetector

open Bytes Traced

def eagain : ℕ := 11
def einval : ℕ := 22
def afInet : ℕ := 2

/-- `ips_` is a `std::vector`, so its size is a `size_t`. -/
structure Pinger where
  icmp : Icmp
  ips : List String
  size_lt : ips.length < 2 ^ 64

/-- `Icmp::Icmp`. -/
def Icmp.new (srcIp : UInt32) (processId : UInt16) : Icmp := ⟨srcIp, processId⟩

def ips : List String :=
  ["220.181.57.216", "123.125.115.110", "111.161.64.40", "111.161.64.48"]

/-- `Pinger::Pinger`; `pid` is what `getpid` returns. -/
def Pinger.new (srcIp : UInt32) (pid : Int32) : Pinger where
  icmp := Icmp.new srcIp pid.toUInt32.toUInt16
  ips := NodesDetector.ips
  size_lt := by decide

/-! ### Receiving -/

/-- `char buffer[512]`. -/
def bufferSize : ℕ := 512

/-- The receive buffer after a datagram was copied into it. -/
def received (buffer : Memory) (datagram : List UInt8) : Memory :=
  blit buffer 0 (datagram.take bufferSize)

/-- The bytes stored of a datagram. -/
def receivedLen (datagram : List UInt8) : ℕ := min datagram.length bufferSize

/-- `sin_addr.s_addr` of a `sockaddr_in`. -/
def sinAddr (sockaddr : Memory) : UInt32 := UInt32.ofNat (load sockaddr 4 4)

theorem sinAddr_eq_iff {p q : Memory} : sinAddr p = sinAddr q ↔ ∀ i < 4, p (4 + i) = q (4 + i) := by
  rw [sinAddr, sinAddr, ← UInt32.toNat_inj, UInt32.toNat_ofNat_of_lt' (load_lt p 4 4),
    UInt32.toNat_ofNat_of_lt' (load_lt q 4 4), load_eq_iff]

/-- What the raw socket holds when `recvfrom` is called. -/
inductive Incoming
  | error (errno : ℕ)
  | datagram (bytes : List UInt8) (sender : Memory)

/-- The return value of `recvfrom`, `errno`, and the three objects it writes. -/
structure Recvfrom where
  ret : ℤ
  errno : ℕ
  buffer : Memory
  srcAddr : Memory
  addrLen : Int32

/-- `recvfrom` on a 512-byte buffer: the address length is read as a capacity, a negative one
fails after the datagram was taken. -/
def recvfrom (incoming : Incoming) (buffer srcAddr : Memory) (addrLen : Int32) : Recvfrom :=
  match incoming with
  | .error errno => ⟨-1, errno, buffer, srcAddr, addrLen⟩
  | .datagram bytes sender =>
    if addrLen < 0 then ⟨-1, einval, received buffer bytes, srcAddr, addrLen⟩
    else ⟨receivedLen bytes, 0, received buffer bytes,
      blit srcAddr 0 (slice sender 0 (min addrLen.toInt.toNat 16)), 16⟩

/-- The automatic variables of `HandleRecv`, none of them initialised. -/
structure RecvLocals where
  buffer : Memory
  srcAddr : Memory
  addrLen : Int32
  info : PingInfo

inductive RecvOutcome
  /-- `recvfrom` failed; silent on `EAGAIN` -/
  | failed (logged : Bool)
  /-- shorter than one ICMP message -/
  | ignored
  | rejected (info : PingInfo) (logged : Bool)
  | accepted (info : PingInfo)
deriving DecidableEq

/-- `Pinger::HandleRecv`. -/
def handleRecv (pinger : Pinger) (locals : RecvLocals) (incoming : Incoming)
    (recvTime : Timeval) : Traced Event RecvOutcome := do
  let r := recvfrom incoming locals.buffer locals.srcAddr locals.addrLen
  if r.ret = -1 then
    return .failed (r.errno ≠ eagain)
  if r.ret < icmpTotalLen then
    return .ignored
  let info := { locals.info with dstIp := sinAddr r.srcAddr }
  let parsed ← parseIcmpPakcet pinger.icmp r.buffer r.ret.toNat recvTime info false
  if parsed.ret then
    return .accepted parsed.info
  else
    return .rejected parsed.info (!parsed.notMyPkt)

/-! ### Sending -/

/-- The message of `ping_task.proto`, with the defaults of its fields. -/
structure PingRequest where
  ip : String := ""
  count : UInt32 := 0
  seqId : UInt32 := 0
  taskId : UInt64 := 0
deriving DecidableEq, Repr

/-- The datagram and the destination of one `sendto`. -/
structure SendTo where
  packet : List UInt8
  sockaddr : List UInt8
deriving DecidableEq, Repr

/-- `c_str()` ends at the first null character. -/
def cStr (s : String) : String := String.ofList (s.toList.takeWhile (· ≠ Char.ofNat 0))

/-- `Pinger::SendIcmp`: the request afterwards and the `sendto` it makes, if any. `sockaddr` is
the uninitialised destination and `inetPton` gives the address of a dotted-decimal string; the
outcome of `sendto` changes nothing. -/
def sendIcmp (icmp : Icmp) (inetPton : String → Option UInt32) (sockaddr : Memory)
    (now : Timeval) (request : PingRequest) : PingRequest × Option SendTo :=
  let packet : Memory := fun _ => 0
  let len := 64
  let sockaddr := store sockaddr 0 2 afInet
  let sockaddr := match inetPton (cStr request.ip) with
    | some addr => store sockaddr 4 4 addr.toNat
    | none => sockaddr
  let seqId := request.seqId.toUInt16
  -- `seq_id + 1` is an `int`, so 65535 becomes 65536
  let request := { request with seqId := seqId.toUInt32 + 1 }
  match packIcmpPacket icmp (sinAddr sockaddr) seqId request.taskId packet len now with
  | (false, _) => (request, none)
  | (true, packet) => (request, some ⟨slice packet 0 len, slice sockaddr 0 16⟩)

/-- The loop of `Pinger::SendRequest`: the requests it posts, with `id` counting up. -/
def sendRequestFrom (id : UInt64) : List String → List PingRequest
  | [] => []
  | ip :: ips => { ip := ip, count := 5, taskId := id } :: sendRequestFrom (id + 1) ips

/-- `Pinger::SendRequest`, which ignores what `PostTask` returns. -/
def sendRequest (pinger : Pinger) : List PingRequest := sendRequestFrom 0 pinger.ips

end NodesDetector
