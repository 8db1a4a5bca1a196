import NodesDetector.Icmp.Delay

/-! Two replies to one send time: when the stored costs are in the order of the delays. -/
namespace NodesDetector

open Bytes Traced

variable {icmp : Icmp} {packet : Memory} {len : ℕ} {recvTime sendTime : Timeval}
  {info : PingInfo} {notMyPkt : Bool} {x y : ℤ}

/-- Cut to 16 signed bits, two numbers stay nonnegative and ordered exactly when their remainders
are ordered and below the sign bit. -/
theorem bmod_order_iff : 0 ≤ x.bmod (2 ^ 16) ∧ x.bmod (2 ^ 16) ≤ y.bmod (2 ^ 16) ↔
    x % 65536 ≤ y % 65536 ∧ y % 65536 < 32768 := by
  have hcut (z : ℤ) : z.bmod (2 ^ 16) =
      if z % 65536 < 32768 then z % 65536 else z % 65536 - 65536 := by
    rw [Int.bmod_def]
    norm_num
  have hx := Int.emod_nonneg x (show (65536 : ℤ) ≠ 0 by decide)
  have hy := Int.emod_lt_of_pos y (show (0 : ℤ) < 65536 by decide)
  rw [hcut, hcut]
  split <;> split <;> omega

/-- Without a borrow the cost is the elapsed time in whole milliseconds, cut to 16 signed bits. -/
theorem toInt_cost_of_accepts (h : Accepts icmp packet len) (hsend : sendTimeOf packet = sendTime)
    (hs : sendTime.Normalised) (hr : recvTime.Normalised)
    (hu : sendTime.tvUsec.toInt ≤ recvTime.tvUsec.toInt) :
    (val (parseIcmpPakcet icmp packet len recvTime info notMyPkt)).info.cost.toInt =
      (elapsed recvTime sendTime / 1000).bmod (2 ^ 16) := by
  rw [cost_of_accepts h, hsend, toInt_storedCost hs hr, millis_of_le hu]

theorem elapsed_add (t : Timeval) :
    elapsed recvTime sendTime = elapsed recvTime t + elapsed t sendTime := by
  simp only [elapsed]
  omega

/-- Of two replies to one send time, the later is stored with a cost not below that of the earlier,
and both not below 0, exactly when the delays modulo 65536 ms are in this order and below 32768 ms;
a later delay below 32768 ms is enough. -/
theorem late_reply_order_iff (icmp : Icmp) (sendTime r₁ r₂ : Timeval) (packet₁ packet₂ : Memory)
    (len₁ len₂ : ℕ) (info₁ info₂ : PingInfo) (notMyPkt₁ notMyPkt₂ : Bool)
    (h₁ : Accepts icmp packet₁ len₁) (hsend₁ : sendTimeOf packet₁ = sendTime)
    (h₂ : Accepts icmp packet₂ len₂) (hsend₂ : sendTimeOf packet₂ = sendTime)
    (hs : sendTime.Normalised) (hr₁ : r₁.Normalised) (hr₂ : r₂.Normalised)
    (hu₁ : sendTime.tvUsec.toInt ≤ r₁.tvUsec.toInt)
    (hu₂ : sendTime.tvUsec.toInt ≤ r₂.tvUsec.toInt)
    (hle₁ : 0 ≤ elapsed r₁ sendTime) (hle₂ : 0 ≤ elapsed r₂ r₁) :
    let cost₁ := (val (parseIcmpPakcet icmp packet₁ len₁ r₁ info₁ notMyPkt₁)).info.cost.toInt
    let cost₂ := (val (parseIcmpPakcet icmp packet₂ len₂ r₂ info₂ notMyPkt₂)).info.cost.toInt
    let delay₁ := elapsed r₁ sendTime / 1000
    let delay₂ := elapsed r₂ sendTime / 1000
    (0 ≤ cost₁ ∧ cost₁ ≤ cost₂ ↔ delay₁ % 65536 ≤ delay₂ % 65536 ∧ delay₂ % 65536 < 32768) ∧
      (delay₂ < 32768 → 0 ≤ cost₁ ∧ cost₁ ≤ cost₂) := by
  intro cost₁ cost₂ delay₁ delay₂
  have hcost₁ : cost₁ = delay₁.bmod (2 ^ 16) := toInt_cost_of_accepts h₁ hsend₁ hs hr₁ hu₁
  have hcost₂ : cost₂ = delay₂.bmod (2 ^ 16) := toInt_cost_of_accepts h₂ hsend₂ hs hr₂ hu₂
  have hadd : elapsed r₂ sendTime = elapsed r₂ r₁ + elapsed r₁ sendTime := elapsed_add r₁
  have hiff : 0 ≤ cost₁ ∧ cost₁ ≤ cost₂ ↔
      delay₁ % 65536 ≤ delay₂ % 65536 ∧ delay₂ % 65536 < 32768 := by
    rw [hcost₁, hcost₂]
    exact bmod_order_iff
  refine ⟨hiff, fun hlt => hiff.mpr ?_⟩
  constructor <;> omega

/-- The same reply after 50 ms and, duplicated, after the longest delay that fits. -/
theorem late_reply_order_iff_duplicate :
    0 ≤ (val (parseIcmpPakcet ⟨0, 0⟩ (bareReply ⟨7, 0⟩) 84 ⟨7, 50000⟩ ⟨0, 0, 0⟩
        false)).info.cost.toInt ∧
      (val (parseIcmpPakcet ⟨0, 0⟩ (bareReply ⟨7, 0⟩) 84 ⟨7, 50000⟩ ⟨0, 0, 0⟩
          false)).info.cost.toInt ≤
        (val (parseIcmpPakcet ⟨0, 0⟩ (bareReply ⟨7, 0⟩) 84 ⟨39, 767999⟩ ⟨0, 0, 0⟩
          false)).info.cost.toInt := by
  have hacc : Accepts ⟨0, 0⟩ (bareReply ⟨7, 0⟩) 84 :=
    (parse_ret_iff ⟨7, 50000⟩ ⟨0, 0, 0⟩ false).mp (by decide +kernel)
  have hsend : sendTimeOf (bareReply ⟨7, 0⟩) = ⟨7, 0⟩ := by decide +kernel
  exact (late_reply_order_iff ⟨0, 0⟩ ⟨7, 0⟩ ⟨7, 50000⟩ ⟨39, 767999⟩ (bareReply ⟨7, 0⟩)
    (bareReply ⟨7, 0⟩) 84 84 ⟨0, 0, 0⟩ ⟨0, 0, 0⟩ false false hacc hsend hacc hsend (by decide)
    (by decide) (by decide) (by decide) (by decide) (by decide) (by decide)).2 (by decide)

/-- After one second the cost is 1000; after 65536 ms it is 0. -/
theorem late_reply_faster :
    sendTimeOf (bareReply ⟨0, 0⟩) = ⟨0, 0⟩ ∧
      elapsed ⟨1, 0⟩ ⟨0, 0⟩ / 1000 = 1000 ∧
      elapsed ⟨65, 536000⟩ ⟨0, 0⟩ / 1000 = 65536 ∧
      val (parseIcmpPakcet ⟨0, 0⟩ (bareReply ⟨0, 0⟩) 84 ⟨1, 0⟩ ⟨0, 0, 0⟩ false) =
        ⟨true, ⟨1000, 0, 0⟩, false⟩ ∧
      val (parseIcmpPakcet ⟨0, 0⟩ (bareReply ⟨0, 0⟩) 84 ⟨65, 536000⟩ ⟨0, 0, 0⟩ false) =
        ⟨true, ⟨0, 0, 0⟩, false⟩ := by
  decide +kernel

end NodesDetector
