import NodesDetector.Pinger.Exchange

/-! The receive path: bounds of its reads, replies to this process, to another one, and replies
changed on the way. -/
namespace NodesDetector

open Bytes Traced OnesComplement

variable {icmp : Icmp} {m : Memory} {csum : UInt16} {taskId : UInt64} {now : Timeval}
  {seqNum : UInt16} {info : PingInfo} {recvTime : Timeval} {notMyPkt : Bool}

/-! ### Bounds -/

theorem receivedLen_le (bytes : List UInt8) : receivedLen bytes ≤ bufferSize := by
  simp only [receivedLen]
  omega

/-- What was in the buffer before shows only past the received bytes. -/
theorem received_congr (p q : Memory) (bytes : List UInt8) :
    ∀ i < receivedLen bytes, received p bytes i = received q bytes i := by
  intro i hi
  simp only [receivedLen] at hi
  have hlen : i < 0 + (bytes.take bufferSize).length := by
    rw [List.length_take]
    omega
  rw [received, received, blit_apply_of_mem (by omega) hlen, blit_apply_of_mem (by omega) hlen]

/-- `src_addr` after `recvfrom` took `addr_len` for its size. -/
def srcAddrAfter (locals : RecvLocals) (sender : Memory) : Memory :=
  blit locals.srcAddr 0 (slice sender 0 (min locals.addrLen.toInt.toNat 16))

/-- `HandleRecv` after a datagram was delivered with a usable address length. -/
theorem handleRecv_datagram (pinger : Pinger) (locals : RecvLocals) (bytes : List UInt8)
    (sender : Memory) (recvTime : Timeval) (haddr : ¬ locals.addrLen < 0) :
    handleRecv pinger locals (.datagram bytes sender) recvTime =
      if receivedLen bytes < icmpTotalLen then pure .ignored
      else do
        let parsed ← parseIcmpPakcet pinger.icmp (received locals.buffer bytes)
          (receivedLen bytes) recvTime
          { locals.info with dstIp := sinAddr (srcAddrAfter locals sender) } false
        if parsed.ret then
          return .accepted parsed.info
        else
          return .rejected parsed.info (!parsed.notMyPkt) := by
  have hret : ¬ ((receivedLen bytes : ℕ) : ℤ) = -1 := by omega
  simp only [handleRecv, recvfrom, haddr, if_false, hret, Nat.cast_lt, Int.toNat_natCast]
  rfl

theorem handleRecv_datagram_of_neg (pinger : Pinger) (locals : RecvLocals) (bytes : List UInt8)
    (sender : Memory) (recvTime : Timeval) (haddr : locals.addrLen < 0) :
    handleRecv pinger locals (.datagram bytes sender) recvTime = pure (.failed true) := by
  simp [handleRecv, recvfrom, haddr, einval, eagain]

theorem handleRecv_reads_inBounds (pinger : Pinger) (locals : RecvLocals) (bytes : List UInt8)
    (sender : Memory) (recvTime : Timeval) :
    Always (InBounds (receivedLen bytes))
      (handleRecv pinger locals (.datagram bytes sender) recvTime) := by
  have hle := receivedLen_le bytes
  simp only [bufferSize] at hle
  by_cases haddr : locals.addrLen < 0
  · rw [handleRecv_datagram_of_neg pinger locals bytes sender recvTime haddr]
    exact always_pure _
  · rw [handleRecv_datagram pinger locals bytes sender recvTime haddr, always_ite]
    refine ⟨fun _ => always_pure _, fun hlong => ?_⟩
    simp only [always_bind, always_ite, always_pure, implies_true, and_true]
    exact parse_inBounds (by omega) (by omega)

/-- The leftovers of the buffer do not reach the parser. -/
theorem handleRecv_buffer_congr (pinger : Pinger) (locals : RecvLocals) (bytes : List UInt8)
    (sender : Memory) (recvTime : Timeval) (buffer : Memory) :
    handleRecv pinger { locals with buffer := buffer } (.datagram bytes sender) recvTime =
      handleRecv pinger locals (.datagram bytes sender) recvTime := by
  have hle := receivedLen_le bytes
  simp only [bufferSize] at hle
  by_cases haddr : locals.addrLen < 0
  · rw [handleRecv_datagram_of_neg pinger locals bytes sender recvTime haddr,
      handleRecv_datagram_of_neg pinger { locals with buffer := buffer } bytes sender recvTime
        haddr]
  · rw [handleRecv_datagram pinger locals bytes sender recvTime haddr,
      handleRecv_datagram pinger { locals with buffer := buffer } bytes sender recvTime haddr]
    split
    · rfl
    · rename_i hlong
      exact bind_congr
        (parse_congr (by omega) (by omega) (received_congr buffer locals.buffer bytes)) rfl

/-- Every byte index read lies inside the received bytes, no size subtraction wraps, and what
the buffer held before the datagram has no influence. -/
theorem handleRecv_inBounds (pinger : Pinger) (locals : RecvLocals) (bytes : List UInt8)
    (sender : Memory) (recvTime : Timeval) :
    Always (InBounds (receivedLen bytes))
        (handleRecv pinger locals (.datagram bytes sender) recvTime) ∧
      ∀ buffer : Memory,
        handleRecv pinger { locals with buffer := buffer } (.datagram bytes sender) recvTime =
          handleRecv pinger locals (.datagram bytes sender) recvTime :=
  ⟨handleRecv_reads_inBounds pinger locals bytes sender recvTime,
    handleRecv_buffer_congr pinger locals bytes sender recvTime⟩

/-! ### Replies -/

section Reply

variable (h : IpHeader) (m buffer : Memory) (trailing : List UInt8)

/-- The verdict on a message under a legal header: only its type and identifier count. -/
theorem val_parse_received (icmp : Icmp) (recvTime : Timeval) (info : PingInfo)
    (notMyPkt : Bool) :
    val (parseIcmpPakcet icmp (received buffer (h.datagram m trailing))
        (receivedLen (h.datagram m trailing)) recvTime info notMyPkt) =
      if m 0 = icmpEchoReply ∧ UInt16.ofNat (load m 4 2) = icmp.icmpId then
        ⟨true, { info with
          cost := storedCost recvTime (loadTimeval m 8)
          taskId := UInt64.ofNat (load m 24 8) }, notMyPkt⟩
      else ⟨false, info, true⟩ := by
  have hge := h.hl_ge
  have hhdr := ipHdrLen_received h m buffer trailing
  obtain ⟨hlen, hle⟩ := receivedLen_datagram h m trailing
  simp only [bufferSize] at hle
  by_cases hacc : m 0 = icmpEchoReply ∧ UInt16.ofNat (load m 4 2) = icmp.icmpId
  · rw [if_pos hacc, val_parse_of_accepts ((accepts_received_iff h m buffer trailing).mpr hacc),
      sendTimeOf_received, taskIdOf_received]
  · have hproto : received buffer (h.datagram m trailing) 9 = ipprotoIcmp := by
      rw [received_header h m buffer trailing (by omega), h.proto_eq]
    have hlong : icmpTotalLen ≤ wrapSub (receivedLen (h.datagram m trailing))
        (ipHdrLen (received buffer (h.datagram m trailing))) := by
      rw [hhdr, wrapSub_of_le (by omega) (by omega)]
      omega
    rw [if_neg hacc,
      val_parse_of_not_accepts fun hno => hacc ((accepts_received_iff h m buffer trailing).mp hno)]
    simp [hproto, hlong]

/-- A message that carries a request of this process, come back as an echo reply. -/
theorem val_parse_reply (hm : Carries icmp seqNum taskId now m) (icmp' : Icmp)
    (csum : UInt16) (recvTime : Timeval) (info : PingInfo) (notMyPkt : Bool) :
    val (parseIcmpPakcet icmp' (received buffer (h.datagram (echoReply m csum) trailing))
        (receivedLen (h.datagram (echoReply m csum) trailing)) recvTime info notMyPkt) =
      if icmp.icmpId = icmp'.icmpId then
        ⟨true, { info with cost := storedCost recvTime now, taskId := taskId }, notMyPkt⟩
      else ⟨false, info, true⟩ := by
  have hr : Carries icmp seqNum taskId now (echoReply m csum) := hm.echoReply
  rw [val_parse_received, hr.id, hr.sendTime, hr.taskId, UInt16.ofNat_toNat, UInt64.ofNat_toNat]
  simp [echoReply_type]

/-- `HandleRecv` on such a reply: the address is the sender's, as far as it was copied. -/
theorem val_handleRecv_reply (hm : Carries icmp seqNum taskId now m) (pinger : Pinger)
    (csum : UInt16) (locals : RecvLocals) (sender : Memory) (recvTime : Timeval)
    (haddr : ¬ locals.addrLen < 0) :
    let dst := sinAddr (srcAddrAfter locals sender)
    val (handleRecv pinger locals (.datagram (h.datagram (echoReply m csum) trailing) sender)
        recvTime) =
      if icmp.icmpId = pinger.icmp.icmpId then .accepted ⟨storedCost recvTime now, dst, taskId⟩
      else .rejected { locals.info with dstIp := dst } false := by
  intro dst
  rw [handleRecv_datagram pinger locals _ sender recvTime haddr, if_neg (not_short_datagram h _ _)]
  simp only [val_bind]
  rw [val_parse_reply h m locals.buffer trailing hm]
  by_cases hid : icmp.icmpId = pinger.icmp.icmpId
  · rw [if_pos hid, if_pos hid]
    rfl
  · rw [if_neg hid, if_neg hid]
    rfl

/-- What `HandleRecv` accepts, it accepts under the task id that was sent. -/
theorem taskId_of_accepted (hm : Carries icmp seqNum taskId now m) (pinger : Pinger)
    (csum : UInt16) (locals : RecvLocals) (sender : Memory) {got : PingInfo}
    (hacc : val (handleRecv pinger locals
      (.datagram (h.datagram (echoReply m csum) trailing) sender) recvTime) = .accepted got) :
    got.taskId = taskId := by
  by_cases haddr : locals.addrLen < 0
  · rw [handleRecv_datagram_of_neg pinger locals _ sender recvTime haddr] at hacc
    cases hacc
  · rw [val_handleRecv_reply h m trailing hm pinger csum locals sender recvTime haddr] at hacc
    split at hacc
    · cases hacc
      rfl
    · cases hacc

end Reply

/-- A 20-byte header without options. -/
def plainHeader : IpHeader where
  bytes := [69, 0, 0, 84, 0, 0, 0, 0, 64, 1, 0, 0, 220, 181, 57, 216, 192, 168, 242, 133]
  hl := 5
  hl_ge := by decide
  hl_eq := by decide
  length_eq := by decide
  proto_eq := by decide

/-- The log of a `TimeDiff` call names its own arguments only. -/
theorem timeDiff_mem_log {r s sendTime : Timeval} :
    .timeDiff r s ∈ log (timeDiff recvTime sendTime) ↔ r = recvTime ∧ s = sendTime := by
  by_cases hge : recvTime.tvUsec ≥ sendTime.tvUsec <;>
    simp [timeDiff, subI64, mulI64, addI64, hge]

/-- The one call of `TimeDiff` on an accepted datagram gets the receive time and the send time
of the datagram. -/
theorem timeDiff_mem_log_parse {r s : Timeval} {packet : Memory} {len : ℕ}
    (h : Accepts icmp packet len) :
    .timeDiff r s ∈ log (parseIcmpPakcet icmp packet len recvTime info notMyPkt) ↔
      r = recvTime ∧ s = sendTimeOf packet := by
  obtain ⟨pre, post, hlog, hpre, hpost⟩ := log_parse_of_accepts recvTime info notMyPkt h
  rw [hlog, List.mem_append, List.mem_append, timeDiff_mem_log]
  constructor
  · rintro ((hmem | hargs) | hmem)
    · exact (hpre _ hmem).elim
    · exact hargs
    · exact (hpost _ hmem).elim
  · intro hargs
    exact .inl (.inr hargs)

/-- What a process packs, its own parser reads back: any header, any checksum, any trailing
bytes, any stale buffer on either side. -/
theorem parse_packed_reply (icmp icmp' : Icmp) (dstIp : UInt32) (seqNum : UInt16)
    (taskId : UInt64) (buffer : Memory) (bufferLen : ℕ) (now : Timeval) (h : IpHeader)
    (csum : UInt16) (trailing : List UInt8) (locals : RecvLocals) (recvTime : Timeval)
    (info : PingInfo) (notMyPkt : Bool) (hbuf : icmpTotalLen ≤ bufferLen)
    (hid : icmp'.icmpId = icmp.icmpId) :
    let packed := packIcmpPacket icmp dstIp seqNum taskId buffer bufferLen now
    let datagram := h.datagram (echoReply packed.2 csum) trailing
    let run := parseIcmpPakcet icmp' (received locals.buffer datagram) (receivedLen datagram)
      recvTime info notMyPkt
    ¬ receivedLen datagram < icmpTotalLen ∧
      val run = ⟨true, { info with cost := storedCost recvTime now, taskId := taskId }, notMyPkt⟩ ∧
      (∀ r s, .timeDiff r s ∈ log run ↔ r = recvTime ∧ s = now) ∧
      ∀ (pinger : Pinger) (sender : Memory), pinger.icmp = icmp' → 0 ≤ locals.addrLen →
        ∃ dst, val (handleRecv pinger locals (.datagram datagram sender) recvTime) =
          .accepted ⟨storedCost recvTime now, dst, taskId⟩ := by
  intro packed datagram run
  have hm : Carries icmp seqNum taskId now packed.2 :=
    packIcmpPacket_carries icmp dstIp seqNum taskId buffer now hbuf
  have hr : Carries icmp seqNum taskId now (echoReply packed.2 csum) := hm.echoReply
  have hacc : Accepts icmp' (received locals.buffer datagram) (receivedLen datagram) := by
    apply (accepts_received_iff h _ _ _).mpr
    rw [hr.id, UInt16.ofNat_toNat]
    exact ⟨echoReply_type _ _, hid.symm⟩
  have hsend : sendTimeOf (received locals.buffer datagram) = now := by
    rw [sendTimeOf_received, hr.sendTime]
  refine ⟨not_short_datagram h _ _, ?_, ?_, ?_⟩
  · exact (val_parse_reply h packed.2 locals.buffer trailing hm icmp' csum recvTime info
      notMyPkt).trans (if_pos hid.symm)
  · intro r s
    rw [timeDiff_mem_log_parse hacc, hsend]
  · rintro pinger sender rfl haddr
    exact ⟨_, (val_handleRecv_reply h packed.2 trailing hm pinger csum locals sender recvTime
      (Int32.not_lt.mpr haddr)).trans (if_pos hid.symm)⟩

/-- A reply after 50 ms, packed over a stale buffer and read in one with other leftovers. -/
theorem parse_packed_reply_plain :
    let packed := packIcmpPacket ⟨0, 4660⟩ 0 3 7 (fun _ => 255) 128 ⟨100, 250⟩
    let datagram := plainHeader.datagram (echoReply packed.2 0) []
    val (parseIcmpPakcet ⟨9, 4660⟩ (received (fun _ => 1) datagram) (receivedLen datagram)
        ⟨100, 50250⟩ ⟨-1, 5, 6⟩ false) =
      ⟨true, ⟨storedCost ⟨100, 50250⟩ ⟨100, 250⟩, 5, 7⟩, false⟩ :=
  (parse_packed_reply ⟨0, 4660⟩ ⟨9, 4660⟩ 0 3 7 (fun _ => 255) 128 ⟨100, 250⟩ plainHeader 0 []
    ⟨fun _ => 1, fun _ => 2, 16, ⟨-1, 5, 6⟩⟩ ⟨100, 50250⟩ ⟨-1, 5, 6⟩ false (by decide) rfl).2.1

/-- Whatever becomes of a reply in transit, its checksum is not looked at: the parser believes it
exactly when type and identifier are still those of the reply. -/
theorem changed_reply_verdict (icmp : Icmp) (dstIp : UInt32) (seqNum : UInt16)
    (taskId : UInt64) (buffer : Memory) (bufferLen : ℕ) (now : Timeval) (h : IpHeader)
    (csum : UInt16) (changed recvBuffer : Memory) (trailing : List UInt8) (recvTime : Timeval)
    (info : PingInfo) (notMyPkt : Bool) (hbuf : icmpTotalLen ≤ bufferLen) :
    let reply :=
      echoReply (packIcmpPacket icmp dstIp seqNum taskId buffer bufferLen now).2 csum
    let datagram := h.datagram changed trailing
    val (parseIcmpPakcet icmp (received recvBuffer datagram) (receivedLen datagram) recvTime info
        notMyPkt) =
      if changed 0 = reply 0 ∧ load changed 4 2 = load reply 4 2 then
        ⟨true, { info with
          cost := storedCost recvTime (loadTimeval changed 8)
          taskId := UInt64.ofNat (load changed 24 8) }, notMyPkt⟩
      else ⟨false, info, true⟩ := by
  intro reply datagram
  have hr : Carries icmp seqNum taskId now reply :=
    (packIcmpPacket_carries icmp dstIp seqNum taskId buffer now hbuf).echoReply
  have hid : UInt16.ofNat (load changed 4 2) = icmp.icmpId ↔
      load changed 4 2 = load reply 4 2 := by
    rw [hr.id, ← UInt16.toNat_inj, UInt16.toNat_ofNat_of_lt' (load_lt changed 4 2)]
  have htype : reply 0 = icmpEchoReply := echoReply_type _ _
  rw [val_parse_received, htype]
  exact if_congr (and_congr_right' hid) rfl rfl

theorem changed_reply_verdict_plain :
    let reply := echoReply (packIcmpPacket ⟨0, 4660⟩ 0 3 7 (fun _ => 255) 128 ⟨100, 250⟩).2 0
    let datagram := plainHeader.datagram (store reply 4 1 0) []
    val (parseIcmpPakcet ⟨0, 4660⟩ (received (fun _ => 1) datagram) (receivedLen datagram)
        ⟨100, 900⟩ ⟨-1, 5, 6⟩ false) = ⟨false, ⟨-1, 5, 6⟩, true⟩ :=
  (changed_reply_verdict ⟨0, 4660⟩ 0 3 7 (fun _ => 255) 128 ⟨100, 250⟩ plainHeader 0 _ (fun _ => 1)
    [] ⟨100, 900⟩ ⟨-1, 5, 6⟩ false (by decide)).trans (if_neg (by decide +kernel))

/-- One bit of the task id flipped: the sum is no longer valid, task 8 is reported for task 7. -/
theorem changed_reply_believed :
    let packed := packIcmpPacket ⟨0, 4660⟩ 0 0 7 (fun _ => 0) 128 ⟨100, 250⟩
    let reply := echoReply packed.2 60518
    let changed := store reply 24 1 8
    let datagram := plainHeader.datagram changed []
    sum 65536 (words reply 0 icmpTotalLen) = 65535 ∧
      sum 65536 (words changed 0 icmpTotalLen) ≠ 65535 ∧
      val (parseIcmpPakcet ⟨0, 4660⟩ (received (fun _ => 0) datagram) (receivedLen datagram)
        ⟨100, 900⟩ ⟨-1, 5, 6⟩ false) = ⟨true, ⟨0, 5, 8⟩, false⟩ := by
  decide +kernel

/-! ### Identifiers -/

theorem toNat_icmpId (srcIp : UInt32) (pid : Int32) :
    ((Pinger.new srcIp pid).icmp.icmpId.toNat : ℤ) = pid.toInt % 65536 := by
  have hcond := BitVec.toInt_eq_toNat_cond pid.toBitVec
  have hid : (Pinger.new srcIp pid).icmp.icmpId.toNat = pid.toBitVec.toNat % 65536 :=
    UInt32.toNat_toUInt16 _
  rw [hid]
  change pid.toInt = _ at hcond
  rw [hcond]
  split <;> omega

theorem icmpId_eq_iff (srcIp srcIp' : UInt32) (p q : Int32) :
    (Pinger.new srcIp p).icmp.icmpId = (Pinger.new srcIp' q).icmp.icmpId ↔
      p.toInt % 65536 = q.toInt % 65536 := by
  rw [← UInt16.toNat_inj, ← toNat_icmpId srcIp, ← toNat_icmpId srcIp', Nat.cast_inj]

/-- An echo reply to process `q` is turned away by process `p`, nothing written, exactly when
the two ids differ in their low 16 bits. -/
theorem foreign_reply_rejected_iff (p q : Int32) (srcIp srcIp' dstIp : UInt32)
    (seqNum : UInt16) (taskId : UInt64) (buffer : Memory) (bufferLen : ℕ) (now : Timeval)
    (h : IpHeader) (csum : UInt16) (recvBuffer : Memory) (trailing : List UInt8)
    (recvTime : Timeval) (info : PingInfo) (notMyPkt : Bool) (hbuf : icmpTotalLen ≤ bufferLen) :
    let packed := packIcmpPacket (Pinger.new srcIp q).icmp dstIp seqNum taskId buffer bufferLen now
    let datagram := h.datagram (echoReply packed.2 csum) trailing
    val (parseIcmpPakcet (Pinger.new srcIp' p).icmp (received recvBuffer datagram)
        (receivedLen datagram) recvTime info notMyPkt) = ⟨false, info, true⟩ ↔
      p.toInt % 65536 ≠ q.toInt % 65536 := by
  intro packed datagram
  have hm := packIcmpPacket_carries (Pinger.new srcIp q).icmp dstIp seqNum taskId buffer now hbuf
  rw [val_parse_reply h packed.2 recvBuffer trailing hm, ne_comm, ne_eq,
    ← icmpId_eq_iff srcIp srcIp' q p]
  by_cases hid : (Pinger.new srcIp q).icmp.icmpId = (Pinger.new srcIp' p).icmp.icmpId <;>
    simp [hid]

theorem foreign_reply_rejected_iff_neighbour :
    let packed := packIcmpPacket (Pinger.new 0 4661).icmp 0 0 7 (fun _ => 0) 128 ⟨100, 250⟩
    let datagram := plainHeader.datagram (echoReply packed.2 0) []
    val (parseIcmpPakcet (Pinger.new 0 4660).icmp (received (fun _ => 0) datagram)
        (receivedLen datagram) ⟨100, 900⟩ ⟨-1, 5, 6⟩ false) = ⟨false, ⟨-1, 5, 6⟩, true⟩ :=
  (foreign_reply_rejected_iff 4660 4661 0 0 0 0 7 (fun _ => 0) 128 ⟨100, 250⟩ plainHeader 0
    (fun _ => 0) [] ⟨100, 900⟩ ⟨-1, 5, 6⟩ false (by decide)).mpr (by decide)

/-- Processes 1 and 65537 share an identifier, and one accepts the reply to the other. -/
theorem foreign_reply_accepted :
    let packed := packIcmpPacket (Pinger.new 0 65537).icmp 0 0 7 (fun _ => 0) 128 ⟨100, 250⟩
    let datagram := plainHeader.datagram (echoReply packed.2 60518) []
    val (parseIcmpPakcet (Pinger.new 0 1).icmp (received (fun _ => 0) datagram)
        (receivedLen datagram) ⟨100, 900⟩ ⟨-1, 5, 6⟩ false) = ⟨true, ⟨0, 5, 7⟩, false⟩ := by
  decide +kernel

end NodesDetector
