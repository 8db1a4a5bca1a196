import NodesDetector.Pinger.Exchange

/-! What `SendRequest` posts, and what the packet of a posted request carries. -/
namespace NodesDetector

open Bytes

variable {icmp : Icmp} {pinger : Pinger} {inetPton : String → Option UInt32} {i j : ℕ}
  {request request' : PingRequest} {call call' : SendTo}

/-! ### Requests of one call -/

theorem sendRequestFrom_getElem? (id : UInt64) (ips : List String) (i : ℕ) :
    (sendRequestFrom id ips)[i]? =
      ips[i]?.map fun ip => { ip := ip, count := 5, taskId := id + UInt64.ofNat i } := by
  induction ips generalizing id i with
  | nil => rfl
  | cons ip ips ih =>
    cases i with
    | zero => simp [sendRequestFrom]
    | succ i =>
      have hid : id + 1 + UInt64.ofNat i = id + UInt64.ofNat (i + 1) := by
        rw [UInt64.ofNat_add, UInt64.add_assoc, UInt64.add_comm 1]
        rfl
      rw [sendRequestFrom, List.getElem?_cons_succ, ih, List.getElem?_cons_succ, hid]

/-- `request` is the one for position `i` of `ips_`. -/
def IsRequest (pinger : Pinger) (i : ℕ) (request : PingRequest) : Prop :=
  (sendRequest pinger)[i]? = some request

theorem isRequest_iff : IsRequest pinger i request ↔
    ∃ ip, pinger.ips[i]? = some ip ∧
      request = { ip := ip, count := 5, taskId := UInt64.ofNat i } := by
  rw [IsRequest, sendRequest, sendRequestFrom_getElem?, Option.map_eq_some_iff]
  simp only [UInt64.zero_add, eq_comm]

/-- The task id is the position: no list is long enough for the counter to wrap. -/
theorem IsRequest.toNat_taskId (h : IsRequest pinger i request) : request.taskId.toNat = i := by
  obtain ⟨ip, hip, rfl⟩ := isRequest_iff.mp h
  have hi : i < pinger.ips.length := (List.getElem?_eq_some_iff.mp hip).1
  exact UInt64.toNat_ofNat_of_lt' (hi.trans pinger.size_lt)

theorem IsRequest.seqId (h : IsRequest pinger i request) : request.seqId = 0 := by
  obtain ⟨ip, _, rfl⟩ := isRequest_iff.mp h
  rfl

theorem IsRequest.taskId_eq_iff (h : IsRequest pinger i request)
    (h' : IsRequest pinger j request') : request.taskId = request'.taskId ↔ i = j := by
  rw [← UInt64.toNat_inj, h.toNat_taskId, h'.toNat_taskId]

theorem sendRequest_nodup (pinger : Pinger) :
    ((sendRequest pinger).map PingRequest.taskId).Nodup := by
  apply List.pairwise_iff_getElem.mpr
  intro i j hi hj hij heq
  rw [List.length_map] at hi hj
  rw [List.getElem_map, List.getElem_map] at heq
  have hri : IsRequest pinger i (sendRequest pinger)[i] := List.getElem?_eq_getElem hi
  have hrj : IsRequest pinger j (sendRequest pinger)[j] := List.getElem?_eq_getElem hj
  exact hij.ne ((hri.taskId_eq_iff hrj).mp heq)

/-! ### Packets -/

/-- `sockaddr` after `inet_pton`, whose return value `SendIcmp` ignores. -/
def destination (inetPton : String → Option UInt32) (sockaddr : Memory) (ip : String) : Memory :=
  match inetPton (cStr ip) with
  | some addr => store (store sockaddr 0 2 afInet) 4 4 addr.toNat
  | none => store sockaddr 0 2 afInet

/-- The packet buffer is long enough, so `sendto` is always reached. -/
theorem sendIcmp_eq (icmp : Icmp) (inetPton : String → Option UInt32) (sockaddr : Memory)
    (now : Timeval) (request : PingRequest) :
    ∃ call dstIp, sendIcmp icmp inetPton sockaddr now request =
        ({ request with seqId := request.seqId.toUInt16.toUInt32 + 1 }, some call) ∧
      call.packet = slice (packIcmpPacket icmp dstIp request.seqId.toUInt16 request.taskId
        (fun _ => 0) icmpTotalLen now).2 0 icmpTotalLen ∧
      call.sockaddr = slice (destination inetPton sockaddr request.ip) 0 16 := by
  have hpack := fun dstIp => packIcmpPacket_eq icmp dstIp request.seqId.toUInt16 request.taskId
    (fun _ => 0) now (show icmpTotalLen ≤ 64 by decide)
  simp only [sendIcmp, hpack]
  exact ⟨_, 0, rfl, congrArg (fun m => slice m 0 64) (congrArg Prod.snd (hpack 0)).symm, rfl⟩

/-- A `sendto` that `SendIcmp` may make for a request. -/
def Produces (icmp : Icmp) (inetPton : String → Option UInt32) (request : PingRequest)
    (call : SendTo) : Prop :=
  ∃ sockaddr now, (sendIcmp icmp inetPton sockaddr now request).2 = some call

theorem exists_produces (icmp : Icmp) (inetPton : String → Option UInt32)
    (request : PingRequest) : ∃ call, Produces icmp inetPton request call := by
  obtain ⟨call, _, heq, _⟩ := sendIcmp_eq icmp inetPton (fun _ => 0) ⟨0, 0⟩ request
  exact ⟨call, _, _, congrArg Prod.snd heq⟩

/-- The bytes of a packet, as the peer finds them. -/
def wire (packet : List UInt8) : Memory := blit (fun _ => 0) 0 packet

/-- The task id and the sequence number in a packet. -/
def tag (packet : List UInt8) : UInt64 × UInt16 :=
  (UInt64.ofNat (load (wire packet) 24 8), UInt16.ofNat (load (wire packet) 6 2))

theorem carries_of_produces (h : Produces icmp inetPton request call) :
    ∃ now, Carries icmp request.seqId.toUInt16 request.taskId now (wire call.packet) := by
  obtain ⟨sockaddr, now, hcall⟩ := h
  obtain ⟨call₀, dstIp, heq, hpacket, _⟩ := sendIcmp_eq icmp inetPton sockaddr now request
  rw [heq] at hcall
  cases hcall
  refine ⟨now, (packIcmpPacket_carries icmp dstIp _ _ (fun _ => 0) now (le_refl _)).congr ?_⟩
  intro i _ hi
  rw [wire, hpacket, blit_slice (hi.trans (by decide))]

theorem tag_of_produces (h : Produces icmp inetPton request call) :
    tag call.packet = (request.taskId, htons request.seqId.toUInt16) := by
  obtain ⟨now, hc⟩ := carries_of_produces h
  rw [tag, hc.taskId, hc.sequence, UInt64.ofNat_toNat, UInt16.ofNat_toNat]

theorem tag_eq_iff (hi : IsRequest pinger i request)
    (hj : IsRequest pinger j request') (h : Produces icmp inetPton request call)
    (h' : Produces icmp inetPton request' call') : tag call.packet = tag call'.packet ↔ i = j := by
  rw [tag_of_produces h, tag_of_produces h', hi.seqId, hj.seqId, Prod.mk.injEq,
    ← hi.taskId_eq_iff hj]
  exact and_iff_left rfl

end NodesDetector
