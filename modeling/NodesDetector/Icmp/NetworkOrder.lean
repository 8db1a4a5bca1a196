import NodesDetector.Icmp.CheckSum
import NodesDetector.Library.ByteOrder

/-! `CheckSum` on a little-endian host writes the bytes of the checksum taken in network order. -/
namespace NodesDetector

open Bytes OnesComplement ByteOrder

variable {m : Memory} {p n : ℕ} {csum : UInt16}

/-- Swapped, the result is the checksum of the big-endian words under the swapped seed. -/
theorem swap_checkSum (hn : n ≤ 131072) :
    swap 256 (checkSum m p n csum).toNat =
      checksum 65536 (swap 256 csum.toNat :: netWords m p n) := by
  have hdigits : ∀ y ∈ csum.toNat :: words m p n, y < 256 * 256 :=
    List.forall_mem_cons.mpr ⟨csum.toNat_lt, words_lt m p n⟩
  rw [checkSum_eq_checksum hn, netWords_eq, ← List.map_cons]
  exact (checksum_map_swap (by decide) hdigits).symm

/-- Stored low byte first, the result of `CheckSum` is the network-order checksum, high byte
first. -/
theorem checkSum_network_order (m : Memory) (p n : ℕ) (csum : UInt16) (packet : Memory) (a : ℕ)
    (hn : n ≤ 131072) :
    let net := checksum 65536 (swap 256 csum.toNat :: netWords m p n)
    slice (store packet a 2 (checkSum m p n csum).toNat) a 2 =
      [UInt8.ofNat (net / 256), UInt8.ofNat net] := by
  intro net
  have hswap : swap 256 (checkSum m p n csum).toNat = net := swap_checkSum hn
  rw [slice_store_eq (UInt16.toNat_lt _), hswap]

theorem checkSum_network_order_odd :
    let net := checksum 65536 (swap 256 0x1234 :: netWords (fun i => UInt8.ofNat i) 7 5)
    slice (store (fun _ => 0) 2 2 (checkSum (fun i => UInt8.ofNat i) 7 5 0x1234).toNat) 2 2 =
      [UInt8.ofNat (net / 256), UInt8.ofNat net] :=
  checkSum_network_order (fun i => UInt8.ofNat i) 7 5 0x1234 (fun _ => 0) 2 (by decide)

/-- A peer that sums a packed request in network order finds all ones. -/
theorem packIcmpPacket_network_order (icmp : Icmp) (dstIp : UInt32) (seqNum : UInt16)
    (taskId : UInt64) (buffer : Memory) {bufferLen : ℕ} (now : Timeval)
    (h : icmpTotalLen ≤ bufferLen) :
    sum 65536 (netWords (packIcmpPacket icmp dstIp seqNum taskId buffer bufferLen now).2 0
      icmpTotalLen) = 65535 := by
  have hpos := packBody_sum_pos icmp seqNum taskId buffer now
  rw [packIcmpPacket_eq icmp dstIp seqNum taskId buffer now h, netWords_eq]
  exact (sum_map_swap (by decide) (words_lt _ _ _)).trans
    (congrArg (swap 256) (sum_store_secondPass hpos))

end NodesDetector
