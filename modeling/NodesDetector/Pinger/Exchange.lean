import NodesDetector.Icmp.CheckSum
import NodesDetector.Icmp.Delay
import NodesDetector.Pinger.Program

/-! What a packed request says, its echo reply, and how the parser reads the reply back. -/
namespace NodesDetector

open Bytes Traced OnesComplement

variable {icmp : Icmp} {m m' buffer : Memory} {csum : UInt16} {taskId : UInt64} {now : Timeval}
  {seqNum : UInt16} {i k n : ℕ} {info : PingInfo} {recvTime : Timeval} {notMyPkt : Bool}

/-! ### Requests -/

/-- The message of a request, as the parser of the same process reads it. -/
structure Carries (icmp : Icmp) (seqNum : UInt16) (taskId : UInt64) (now : Timeval)
    (m : Memory) : Prop where
  id : load m 4 2 = icmp.icmpId.toNat
  sequence : load m 6 2 = (htons seqNum).toNat
  sendTime : loadTimeval m 8 = now
  taskId : load m 24 8 = taskId.toNat

theorem loadTimeval_storeTimeval (m : Memory) (a : ℕ) (t : Timeval) :
    loadTimeval (storeTimeval m a t) a = t := by
  have hsec : load (storeTimeval m a t) a 8 = t.tvSec.toUInt64.toNat := by
    rw [storeTimeval, load_store_of_disjoint (by omega), load_store_self (UInt64.toNat_lt _)]
  have husec : load (storeTimeval m a t) (a + 8) 8 = t.tvUsec.toUInt64.toNat :=
    load_store_self (UInt64.toNat_lt _)
  rw [loadTimeval, hsec, husec]
  simp

/-- Only the bytes from 4 to 31 carry a request, so the type and the checksum may change. -/
theorem Carries.congr (h : Carries icmp seqNum taskId now m)
    (he : ∀ i, 4 ≤ i → i < 32 → m' i = m i) : Carries icmp seqNum taskId now m' where
  id := by rw [load_congr fun i hi hi' => he i hi (by omega), h.id]
  sequence := by rw [load_congr fun i hi hi' => he i (by omega) (by omega), h.sequence]
  sendTime := by rw [loadTimeval_congr fun i hi hi' => he i (by omega) (by omega), h.sendTime]
  taskId := by rw [load_congr fun i hi hi' => he i (by omega) (by omega), h.taskId]

theorem packBody_carries (icmp : Icmp) (seqNum : UInt16) (taskId : UInt64) (buffer : Memory)
    (now : Timeval) :
    Carries icmp seqNum taskId now (packBody icmp seqNum taskId buffer now) where
  id := by
    simp (disch := omega) only [packBody, storeTimeval, load_store_of_disjoint]
    exact load_store_self (UInt16.toNat_lt _)
  sequence := by
    simp (disch := omega) only [packBody, storeTimeval, load_store_of_disjoint]
    exact load_store_self (UInt16.toNat_lt _)
  sendTime := by
    rw [packBody, loadTimeval_congr fun i _ _ => store_apply_of_not_mem (by omega)]
    exact loadTimeval_storeTimeval _ 8 now
  taskId := load_store_self (UInt64.toNat_lt _)

/-- A packed request carries its own fields, whatever was in the buffer. -/
theorem packIcmpPacket_carries (icmp : Icmp) (dstIp : UInt32) (seqNum : UInt16)
    (taskId : UInt64) (buffer : Memory) {bufferLen : ℕ} (now : Timeval)
    (h : icmpTotalLen ≤ bufferLen) :
    Carries icmp seqNum taskId now
      (packIcmpPacket icmp dstIp seqNum taskId buffer bufferLen now).2 := by
  rw [packIcmpPacket_eq icmp dstIp seqNum taskId buffer now h]
  exact (packBody_carries icmp seqNum taskId buffer now).congr fun i hi _ =>
    store_apply_of_not_mem (by omega)

/-! ### Replies -/

/-- The echo reply to a message: its type is changed and its checksum replaced. -/
def echoReply (m : Memory) (csum : UInt16) : Memory := store (store m 0 1 0) 2 2 csum.toNat

theorem echoReply_type (m : Memory) (csum : UInt16) : echoReply m csum 0 = icmpEchoReply := by
  simp [echoReply, store, icmpEchoReply]

theorem Carries.echoReply (h : Carries icmp seqNum taskId now m) :
    Carries icmp seqNum taskId now (echoReply m csum) := by
  apply h.congr
  intro i hi _
  rw [NodesDetector.echoReply, store_apply_of_not_mem (by omega),
    store_apply_of_not_mem (by omega)]

/-- An IPv4 header of any legal length that announces ICMP; options and the other fields are
arbitrary. -/
structure IpHeader where
  bytes : List UInt8
  hl : ℕ
  hl_ge : 5 ≤ hl
  hl_eq : (bytes.getD 0 0).toNat % 16 = hl
  length_eq : bytes.length = 4 * hl
  proto_eq : bytes.getD 9 0 = ipprotoIcmp

theorem IpHeader.hl_le (h : IpHeader) : h.hl ≤ 15 := by
  have heq := h.hl_eq
  omega

/-- The datagram that brings a 64-byte message under a header, with whatever follows it. -/
def IpHeader.datagram (h : IpHeader) (m : Memory) (trailing : List UInt8) : List UInt8 :=
  h.bytes ++ slice m 0 icmpTotalLen ++ trailing

section Received

variable (h : IpHeader) (m buffer : Memory) (trailing : List UInt8)

/-- Header and message survive the truncation to the receive buffer. -/
theorem received_datagram : received buffer (h.datagram m trailing) =
    blit buffer 0 (h.bytes ++ slice m 0 icmpTotalLen ++
      trailing.take (bufferSize - (h.bytes.length + icmpTotalLen))) := by
  have hlen := h.length_eq
  have hle := h.hl_le
  have htake : (h.bytes ++ slice m 0 icmpTotalLen).take bufferSize =
      h.bytes ++ slice m 0 icmpTotalLen := by
    apply List.take_of_length_le
    simp only [List.length_append, slice_length, icmpTotalLen, bufferSize]
    omega
  rw [received, IpHeader.datagram, List.take_append, htake, List.length_append, slice_length]

theorem received_header (hi : i < 4 * h.hl) :
    received buffer (h.datagram m trailing) i = h.bytes.getD i 0 := by
  have hlen := h.length_eq
  rw [received_datagram, blit_apply_of_mem (by omega) (by simp; omega)]
  simp [List.getElem?_append_left, hi, hlen]

theorem received_message (hi : i < icmpTotalLen) :
    received buffer (h.datagram m trailing) (4 * h.hl + i) = m i := by
  rw [received_datagram, ← h.length_eq]
  exact blit_append_slice hi

theorem load_received (hk : k + n ≤ icmpTotalLen) :
    load (received buffer (h.datagram m trailing)) (4 * h.hl + k) n = load m k n := by
  apply load_shift
  intro i hi
  rw [Nat.add_assoc]
  exact received_message h m buffer trailing (by omega)

theorem ipHdrLen_received : ipHdrLen (received buffer (h.datagram m trailing)) = 4 * h.hl := by
  have hge := h.hl_ge
  rw [ipHdrLen_eq, received_header h m buffer trailing (by omega), h.hl_eq]

theorem receivedLen_datagram :
    4 * h.hl + icmpTotalLen ≤ receivedLen (h.datagram m trailing) ∧
      receivedLen (h.datagram m trailing) ≤ bufferSize := by
  have hlen := h.length_eq
  have hle := h.hl_le
  simp only [receivedLen, IpHeader.datagram, List.length_append, slice_length, icmpTotalLen,
    bufferSize]
  omega

/-- `HandleRecv` does not ignore it. -/
theorem not_short_datagram : ¬ receivedLen (h.datagram m trailing) < icmpTotalLen := by
  have hlen := (receivedLen_datagram h m trailing).1
  exact not_lt.mpr ((Nat.le_add_left _ _).trans hlen)

/-- Under a legal header the parser decides on type and identifier alone. -/
theorem accepts_received_iff :
    Accepts icmp (received buffer (h.datagram m trailing))
        (receivedLen (h.datagram m trailing)) ↔
      m 0 = icmpEchoReply ∧ UInt16.ofNat (load m 4 2) = icmp.icmpId := by
  have hge := h.hl_ge
  obtain ⟨hlen, hle⟩ := receivedLen_datagram h m trailing
  simp only [bufferSize] at hle
  have hhdr := ipHdrLen_received h m buffer trailing
  have htype := received_message h m buffer trailing (show 0 < icmpTotalLen by decide)
  have hid := load_received h m buffer trailing (show 4 + 2 ≤ icmpTotalLen by decide)
  rw [Nat.add_zero] at htype
  constructor
  · rintro ⟨_, _, ht, hi⟩
    rw [hhdr] at ht hi
    exact ⟨htype ▸ ht, hid ▸ hi⟩
  · rintro ⟨ht, hi⟩
    refine ⟨?_, ?_, ?_, ?_⟩
    · rw [received_header h m buffer trailing (by omega), h.proto_eq]
    · rw [hhdr, wrapSub_of_le (by omega) (by omega)]
      omega
    · rw [hhdr, htype, ht]
    · rw [hhdr, hid, hi]

theorem sendTimeOf_received :
    sendTimeOf (received buffer (h.datagram m trailing)) = loadTimeval m 8 := by
  rw [sendTimeOf, ipHdrLen_received, loadTimeval, loadTimeval, icmpHdrLen,
    load_received h m buffer trailing (by decide), Nat.add_assoc,
    load_received h m buffer trailing (by decide)]

theorem taskIdOf_received :
    taskIdOf (received buffer (h.datagram m trailing)) = UInt64.ofNat (load m 24 8) := by
  rw [taskIdOf, ipHdrLen_received, icmpHdrLen, Nat.add_assoc,
    load_received h m buffer trailing (by decide)]

end Received

end NodesDetector
