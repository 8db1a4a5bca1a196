import NodesDetector.Icmp.Parsing
import NodesDetector.Library.SignedRange

/-! `TimeDiff` against elapsed time, and the overflows of its signed arithmetic. -/
namespace NodesDetector

open Bytes Traced SignedRange

variable {recvTime sendTime : Timeval}

/-- The microsecond field holds a fraction of a second. -/
def Timeval.Normalised (t : Timeval) : Prop := 0 ≤ t.tvUsec.toInt ∧ t.tvUsec.toInt < 1000000

instance (t : Timeval) : Decidable t.Normalised := inferInstanceAs (Decidable (_ ∧ _))

/-- Microseconds from the send to the receive time. -/
def elapsed (recvTime sendTime : Timeval) : ℤ :=
  (recvTime.tvSec.toInt - sendTime.tvSec.toInt) * 1000000 +
    (recvTime.tvUsec.toInt - sendTime.tvUsec.toInt)

/-- The expression of `TimeDiff` over the integers. -/
def millis (recvTime sendTime : Timeval) : ℤ :=
  if sendTime.tvUsec.toInt ≤ recvTime.tvUsec.toInt then
    (recvTime.tvSec.toInt - sendTime.tvSec.toInt) * 1000 +
      (recvTime.tvUsec.toInt - sendTime.tvUsec.toInt).tdiv 1000
  else
    (recvTime.tvSec.toInt - sendTime.tvSec.toInt - 1) * 1000 +
      (recvTime.tvUsec.toInt + 1000 - sendTime.tvUsec.toInt).tdiv 1000

/-- A signed operation of the log stays in range. -/
def NoOverflow : Event → Prop
  | .arith z => Fits z
  | .read _ | .sizeSub _ _ | .timeDiff _ _ => True

/-- The operations of the branch taken, in the order they are made. -/
def OpsFit (recvTime sendTime : Timeval) : Prop :=
  let sec := recvTime.tvSec.toInt - sendTime.tvSec.toInt
  if sendTime.tvUsec.toInt ≤ recvTime.tvUsec.toInt then
    let usec := recvTime.tvUsec.toInt - sendTime.tvUsec.toInt
    Fits sec ∧ Fits (sec * 1000) ∧ Fits usec ∧ Fits (sec * 1000 + usec.tdiv 1000)
  else
    let usec := recvTime.tvUsec.toInt + 1000 - sendTime.tvUsec.toInt
    Fits sec ∧ Fits (sec - 1) ∧ Fits ((sec - 1) * 1000) ∧ Fits (recvTime.tvUsec.toInt + 1000) ∧
      Fits usec ∧ Fits ((sec - 1) * 1000 + usec.tdiv 1000)

theorem ge_iff : recvTime.tvUsec ≥ sendTime.tvUsec ↔
    sendTime.tvUsec.toInt ≤ recvTime.tvUsec.toInt := Int64.le_iff_toInt_le

@[simp] theorem always_addI64 {a b : Int64} :
    Always NoOverflow (addI64 a b) ↔ Fits (a.toInt + b.toInt) := by
  simp [addI64, NoOverflow]

@[simp] theorem always_subI64 {a b : Int64} :
    Always NoOverflow (subI64 a b) ↔ Fits (a.toInt - b.toInt) := by
  simp [subI64, NoOverflow]

@[simp] theorem always_mulI64 {a b : Int64} :
    Always NoOverflow (mulI64 a b) ↔ Fits (a.toInt * b.toInt) := by
  simp [mulI64, NoOverflow]

@[simp] theorem val_addI64 (a b : Int64) : val (addI64 a b) = a + b := rfl

@[simp] theorem val_subI64 (a b : Int64) : val (subI64 a b) = a - b := rfl

@[simp] theorem val_mulI64 (a b : Int64) : val (mulI64 a b) = a * b := rfl

theorem toInt_one : (1 : Int64).toInt = 1 := rfl

theorem toInt_thousand : (1000 : Int64).toInt = 1000 := rfl

theorem toInt_div_thousand {a : Int64} {x : ℤ} (ha : a.toInt = x) :
    (a / 1000).toInt = x.tdiv 1000 := toInt_div_eq ha toInt_thousand (by decide)

/-- While the operations fit, each machine operand is its exact value. -/
theorem timeDiff_noOverflow_iff :
    Always NoOverflow (timeDiff recvTime sendTime) ↔ OpsFit recvTime sendTime := by
  by_cases h : sendTime.tvUsec.toInt ≤ recvTime.tvUsec.toInt
  · have hge := ge_iff.mpr h
    simp only [timeDiff, OpsFit, always_bind, always_emit, always_pure, always_addI64,
      always_subI64, always_mulI64, val_addI64, val_subI64, val_mulI64, hge, h, if_true,
      toInt_thousand, and_true]
    refine (and_iff_right trivial).trans (and_congr_right fun hsec => ?_)
    have hsec' := toInt_sub_eq rfl rfl hsec
    rw [hsec']
    refine and_congr_right fun hmsec => and_congr_right fun husec => ?_
    rw [toInt_mul_eq hsec' toInt_thousand hmsec,
      toInt_div_thousand (toInt_sub_eq rfl rfl husec)]
  · have hge : ¬ recvTime.tvUsec ≥ sendTime.tvUsec := fun hge => h (ge_iff.mp hge)
    simp only [timeDiff, OpsFit, always_bind, always_emit, always_pure, always_addI64,
      always_subI64, always_mulI64, val_addI64, val_subI64, val_mulI64, hge, h, if_false,
      toInt_thousand, toInt_one, and_true]
    refine (and_iff_right trivial).trans (and_congr_right fun hsec => ?_)
    have hsec' := toInt_sub_eq rfl rfl hsec
    rw [hsec']
    refine and_congr_right fun hpred => ?_
    have hpred' := toInt_sub_eq hsec' toInt_one hpred
    rw [hpred']
    refine and_congr_right fun hmsec => and_congr_right fun husum => ?_
    have husum' := toInt_add_eq rfl toInt_thousand husum
    rw [husum']
    refine and_congr_right fun husec => ?_
    rw [toInt_mul_eq hpred' toInt_thousand hmsec,
      toInt_div_thousand (toInt_sub_eq husum' rfl husec)]

/-- The 64-bit value that `TimeDiff` narrows. -/
def wrappedMillis (recvTime sendTime : Timeval) : Int64 :=
  if recvTime.tvUsec ≥ sendTime.tvUsec then
    (recvTime.tvSec - sendTime.tvSec) * 1000 + (recvTime.tvUsec - sendTime.tvUsec) / 1000
  else
    (recvTime.tvSec - sendTime.tvSec - 1) * 1000 +
      (recvTime.tvUsec + 1000 - sendTime.tvUsec) / 1000

theorem val_timeDiff :
    val (timeDiff recvTime sendTime) = (wrappedMillis recvTime sendTime).toUInt64.toUInt16 := by
  by_cases h : recvTime.tvUsec ≥ sendTime.tvUsec <;> simp [timeDiff, wrappedMillis, h]

/-- Only the seconds can wrap, and a wrap is a multiple of 2^16. -/
theorem wrappedMillis_modEq (hs : sendTime.Normalised) (hr : recvTime.Normalised) :
    (wrappedMillis recvTime sendTime).toInt ≡ millis recvTime sendTime [ZMOD 2 ^ 16] := by
  obtain ⟨hs0, hs1⟩ := hs
  obtain ⟨hr0, hr1⟩ := hr
  have hd : (2 ^ 16 : ℤ) ∣ 2 ^ 64 := by decide
  have hsec := toInt_sub_modEq (a := recvTime.tvSec) (b := sendTime.tvSec) hd .rfl .rfl
  have hone : (1 : Int64).toInt ≡ 1 [ZMOD 2 ^ 16] := .rfl
  have hthousand : (1000 : Int64).toInt ≡ 1000 [ZMOD 2 ^ 16] := .rfl
  by_cases hle : sendTime.tvUsec.toInt ≤ recvTime.tvUsec.toInt
  · have husec := toInt_sub_eq (a := recvTime.tvUsec) (b := sendTime.tvUsec) rfl rfl
      ⟨by omega, by omega⟩
    simp only [wrappedMillis, millis, ge_iff.mpr hle, hle, if_true]
    exact toInt_add_modEq hd (toInt_mul_modEq hd hsec hthousand)
      (congrArg (· % 2 ^ 16) (toInt_div_thousand husec))
  · have hge : ¬ recvTime.tvUsec ≥ sendTime.tvUsec := fun hge => hle (ge_iff.mp hge)
    have husum := toInt_add_eq (a := recvTime.tvUsec) rfl toInt_thousand ⟨by omega, by omega⟩
    have husec := toInt_sub_eq (b := sendTime.tvUsec) husum rfl ⟨by omega, by omega⟩
    simp only [wrappedMillis, millis, hge, hle, if_false]
    exact toInt_add_modEq hd (toInt_mul_modEq hd (toInt_sub_modEq hd hsec hone) hthousand)
      (congrArg (· % 2 ^ 16) (toInt_div_thousand husec))

/-- The stored cost is the exact value cut to 16 signed bits. -/
theorem toInt_storedCost (hs : sendTime.Normalised) (hr : recvTime.Normalised) :
    (storedCost recvTime sendTime).toInt = (millis recvTime sendTime).bmod (2 ^ 16) := by
  rw [storedCost, val_timeDiff, toInt16_narrow]
  exact toInt_toInt16_of_modEq (wrappedMillis_modEq hs hr)

/-! ### The reported delay -/

variable {icmp : Icmp} {packet : Memory} {len : ℕ} {info : PingInfo} {notMyPkt : Bool}

theorem cost_of_accepts (h : Accepts icmp packet len) :
    (val (parseIcmpPakcet icmp packet len recvTime info notMyPkt)).info.cost =
      storedCost recvTime (sendTimeOf packet) := by
  rw [val_parse_of_accepts h]

theorem millis_of_le (h : sendTime.tvUsec.toInt ≤ recvTime.tvUsec.toInt) :
    millis recvTime sendTime = elapsed recvTime sendTime / 1000 := by
  obtain ⟨_, hlo, hnonneg, _⟩ :=
    tdiv_bounds (recvTime.tvUsec.toInt - sendTime.tvUsec.toInt) (d := 1000) (by decide)
  have hhi := hnonneg (by omega)
  simp only [millis, elapsed, h, if_true]
  omega

/-- The borrowed second comes back as 1000 microseconds: at most 999 milliseconds are lost, and
some always are. -/
theorem millis_of_borrow (hs : sendTime.Normalised) (hr : recvTime.Normalised)
    (h : ¬ sendTime.tvUsec.toInt ≤ recvTime.tvUsec.toInt) :
    elapsed recvTime sendTime / 1000 - 999 ≤ millis recvTime sendTime ∧
      millis recvTime sendTime < elapsed recvTime sendTime / 1000 := by
  obtain ⟨hs0, hs1⟩ := hs
  obtain ⟨hr0, hr1⟩ := hr
  obtain ⟨hhi, hlo, _, _⟩ :=
    tdiv_bounds (recvTime.tvUsec.toInt + 1000 - sendTime.tvUsec.toInt) (d := 1000) (by decide)
  simp only [millis, elapsed, h, if_false]
  constructor <;> omega

theorem millis_bounds (hs : sendTime.Normalised) (hr : recvTime.Normalised) :
    elapsed recvTime sendTime / 1000 - 999 ≤ millis recvTime sendTime ∧
      millis recvTime sendTime ≤ elapsed recvTime sendTime / 1000 := by
  by_cases h : sendTime.tvUsec.toInt ≤ recvTime.tvUsec.toInt
  · rw [millis_of_le h]
    constructor <;> omega
  · obtain ⟨hlo, hhi⟩ := millis_of_borrow hs hr h
    exact ⟨hlo, hhi.le⟩

theorem millis_eq_iff (hs : sendTime.Normalised) (hr : recvTime.Normalised) :
    millis recvTime sendTime = elapsed recvTime sendTime / 1000 ↔
      sendTime.tvUsec.toInt ≤ recvTime.tvUsec.toInt := by
  constructor
  · intro heq
    by_contra h
    exact (millis_of_borrow hs hr h).2.ne heq
  · exact millis_of_le

/-- Delays below the 16-bit limit are stored without a further wrap. -/
theorem toInt_storedCost_of_elapsed (hs : sendTime.Normalised) (hr : recvTime.Normalised)
    (hle : 0 ≤ elapsed recvTime sendTime) (hlt : elapsed recvTime sendTime < 32768 * 1000) :
    (storedCost recvTime sendTime).toInt = millis recvTime sendTime := by
  have hbounds := millis_bounds hs hr
  rw [toInt_storedCost hs hr]
  apply Int.bmod_eq_of_le <;> norm_num <;> omega

/-- The stored cost is the elapsed time in whole milliseconds exactly when no second is
borrowed. -/
theorem storedCost_eq_elapsed_iff (icmp : Icmp) (packet : Memory) (len : ℕ) (recvTime : Timeval)
    (info : PingInfo) (notMyPkt : Bool)
    (hret : (val (parseIcmpPakcet icmp packet len recvTime info notMyPkt)).ret = true)
    (hs : (sendTimeOf packet).Normalised) (hr : recvTime.Normalised)
    (hle : 0 ≤ elapsed recvTime (sendTimeOf packet))
    (hlt : elapsed recvTime (sendTimeOf packet) < 32768 * 1000) :
    (val (parseIcmpPakcet icmp packet len recvTime info notMyPkt)).info.cost.toInt =
        elapsed recvTime (sendTimeOf packet) / 1000 ↔
      (sendTimeOf packet).tvUsec.toInt ≤ recvTime.tvUsec.toInt := by
  rw [cost_of_accepts ((parse_ret_iff _ _ _).mp hret), toInt_storedCost_of_elapsed hs hr hle hlt]
  exact millis_eq_iff hs hr

/-- A reply to process 0 with nothing in it but its send time. -/
def bareReply (sendTime : Timeval) : Memory :=
  storeTimeval (store (store (fun _ => 0) 0 1 69) 9 1 1) 28 sendTime

theorem storedCost_eq_elapsed_iff_same_second :
    (val (parseIcmpPakcet ⟨0, 0⟩ (bareReply ⟨7, 100000⟩) 84 ⟨7, 350000⟩ ⟨0, 0, 0⟩
        false)).info.cost.toInt =
        elapsed ⟨7, 350000⟩ (sendTimeOf (bareReply ⟨7, 100000⟩)) / 1000 ↔
      (sendTimeOf (bareReply ⟨7, 100000⟩)).tvUsec.toInt ≤ 350000 :=
  storedCost_eq_elapsed_iff ⟨0, 0⟩ (bareReply ⟨7, 100000⟩) 84 ⟨7, 350000⟩ ⟨0, 0, 0⟩ false
    (by decide +kernel) (by decide +kernel) (by decide +kernel) (by decide +kernel)
    (by decide +kernel)

/-- 200 ms across a second boundary are stored as -799. -/
theorem storedCost_borrow :
    (sendTimeOf (bareReply ⟨0, 900000⟩)).Normalised ∧
      elapsed ⟨1, 100000⟩ (sendTimeOf (bareReply ⟨0, 900000⟩)) / 1000 = 200 ∧
      val (parseIcmpPakcet ⟨0, 0⟩ (bareReply ⟨0, 900000⟩) 84 ⟨1, 100000⟩ ⟨0, 0, 0⟩ false) =
        ⟨true, ⟨-799, 0, 0⟩, false⟩ := by
  decide +kernel

/-! ### Overflow on hostile send times -/

/-- The send times on which every operation of `TimeDiff` stays in range: bounds on the gap of
the seconds, on the gap of the microseconds and on the elapsed time. -/
def SendTimeSafe (recvTime sendTime : Timeval) : Prop :=
  let sec := recvTime.tvSec.toInt - sendTime.tvSec.toInt
  let usec := recvTime.tvUsec.toInt - sendTime.tvUsec.toInt
  if 0 ≤ usec then
    -9223372036854775 ≤ sec ∧ usec < 2 ^ 63 ∧ elapsed recvTime sendTime < 2 ^ 63 * 1000
  else
    sec ≤ 9223372036854776 ∧ -((2 ^ 63 - 998) * 1000) < elapsed recvTime sendTime

theorem opsFit_iff (hr : recvTime.Normalised) (h0 : 0 ≤ recvTime.tvSec.toInt)
    (h1 : recvTime.tvSec.toInt < 2 ^ 40) :
    OpsFit recvTime sendTime ↔ SendTimeSafe recvTime sendTime := by
  obtain ⟨hr0, hr1⟩ := hr
  obtain ⟨hsec0, hsec1⟩ := fits_toInt sendTime.tvSec
  obtain ⟨husec0, husec1⟩ := fits_toInt sendTime.tvUsec
  by_cases h : sendTime.tvUsec.toInt ≤ recvTime.tvUsec.toInt
  · obtain ⟨_, hlo, hnonneg, _⟩ :=
      tdiv_bounds (recvTime.tvUsec.toInt - sendTime.tvUsec.toInt) (d := 1000) (by decide)
    have hhi := hnonneg (by omega)
    simp only [OpsFit, SendTimeSafe, h, if_true, elapsed, sub_nonneg, Fits]
    constructor
    · rintro ⟨_, _, _, _⟩
      refine ⟨?_, ?_, ?_⟩ <;> omega
    · rintro ⟨_, _, _⟩
      refine ⟨?_, ?_, ?_, ?_⟩ <;> constructor <;> omega
  · obtain ⟨_, hlo, hnonneg, hnonpos⟩ :=
      tdiv_bounds (recvTime.tvUsec.toInt + 1000 - sendTime.tvUsec.toInt) (d := 1000) (by decide)
    simp only [OpsFit, SendTimeSafe, h, if_false, elapsed, sub_nonneg, Fits]
    constructor
    · rintro ⟨_, _, _, _, _, _⟩
      refine ⟨?_, ?_⟩ <;> omega
    · rintro ⟨_, _⟩
      refine ⟨?_, ?_, ?_, ?_, ?_, ?_⟩ <;> constructor <;> omega

/-- A clock reading within 2^52 seconds of the epoch is safe at any receive time in range. -/
theorem sendTimeSafe_of_normalised (hs : sendTime.Normalised) (hr : recvTime.Normalised)
    (h0 : 0 ≤ recvTime.tvSec.toInt) (h1 : recvTime.tvSec.toInt < 2 ^ 40)
    (hlo : -2 ^ 52 ≤ sendTime.tvSec.toInt) (hhi : sendTime.tvSec.toInt ≤ 2 ^ 52) :
    SendTimeSafe recvTime sendTime := by
  obtain ⟨hs0, hs1⟩ := hs
  obtain ⟨hr0, hr1⟩ := hr
  simp only [SendTimeSafe, elapsed]
  split
  · refine ⟨?_, ?_, ?_⟩ <;> omega
  · refine ⟨?_, ?_⟩ <;> omega

theorem parse_noOverflow_of_accepts (h : Accepts icmp packet len) :
    Always NoOverflow (parseIcmpPakcet icmp packet len recvTime info notMyPkt) ↔
      Always NoOverflow (timeDiff recvTime (sendTimeOf packet)) := by
  obtain ⟨pre, post, hlog, hpre, hpost⟩ := log_parse_of_accepts recvTime info notMyPkt h
  have hskip : ∀ e, IsAccess e → NoOverflow e := by
    intro e he
    cases e with
    | read | sizeSub => trivial
    | arith | timeDiff => exact he.elim
  simp only [Always, hlog, List.forall_mem_append]
  constructor
  · rintro ⟨⟨_, hdiff⟩, _⟩
    exact hdiff
  · intro hdiff
    exact ⟨⟨fun e he => hskip e (hpre e he), hdiff⟩, fun e he => hskip e (hpost e he)⟩

/-- On an accepted datagram nothing overflows exactly when its send time is safe. -/
theorem parse_noOverflow_iff (icmp : Icmp) (packet : Memory) (len : ℕ) (recvTime : Timeval)
    (info : PingInfo) (notMyPkt : Bool) (h : Accepts icmp packet len)
    (hr : recvTime.Normalised) (h0 : 0 ≤ recvTime.tvSec.toInt)
    (h1 : recvTime.tvSec.toInt < 2 ^ 40) :
    Always NoOverflow (parseIcmpPakcet icmp packet len recvTime info notMyPkt) ↔
      SendTimeSafe recvTime (sendTimeOf packet) :=
  (parse_noOverflow_of_accepts h).trans (timeDiff_noOverflow_iff.trans (opsFit_iff hr h0 h1))

theorem parse_noOverflow_iff_bare :
    Always NoOverflow (parseIcmpPakcet ⟨0, 0⟩ (bareReply ⟨7, 100000⟩) 84 ⟨7, 350000⟩ ⟨0, 0, 0⟩
        false) ↔
      SendTimeSafe ⟨7, 350000⟩ (sendTimeOf (bareReply ⟨7, 100000⟩)) :=
  parse_noOverflow_iff ⟨0, 0⟩ (bareReply ⟨7, 100000⟩) 84 ⟨7, 350000⟩ ⟨0, 0, 0⟩ false
    ((parse_ret_iff ⟨7, 350000⟩ ⟨0, 0, 0⟩ false).mp (by decide +kernel))
    (by decide +kernel) (by decide +kernel) (by decide +kernel)

instance : DecidablePred NoOverflow
  | .arith _ => inferInstanceAs (Decidable (Fits _))
  | .read _ | .sizeSub _ _ | .timeDiff _ _ => .isTrue trivial

/-- The earliest second a reply can carry overflows the first subtraction. -/
theorem parse_overflow_earliest :
    Accepts ⟨0, 0⟩ (bareReply ⟨Int64.minValue, 0⟩) 84 ∧
      Timeval.Normalised ⟨1, 0⟩ ∧
      ¬ Always NoOverflow (parseIcmpPakcet ⟨0, 0⟩ (bareReply ⟨Int64.minValue, 0⟩) 84 ⟨1, 0⟩
        ⟨0, 0, 0⟩ false) := by
  refine ⟨?_, by decide +kernel, ?_⟩
  · apply (parse_ret_iff ⟨1, 0⟩ ⟨0, 0, 0⟩ false).mp
    decide +kernel
  · intro h
    have hall := List.all_eq_true.mpr fun e he => decide_eq_true (h e he)
    revert hall
    decide +kernel

end NodesDetector
