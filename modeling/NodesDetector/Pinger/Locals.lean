import NodesDetector.Pinger.Receive

/-! Two runs of `HandleRecv` on one datagram whose uninitialised locals differ. -/
namespace NodesDetector

open Bytes Traced

variable {pinger : Pinger} {locals l₁ l₂ : RecvLocals} {bytes : List UInt8} {sender : Memory}
  {recvTime : Timeval}

/-! ### The sender's address -/

/-- The bytes of the IPv4 address that are not copied already are the sender's. -/
def AddrKnown (locals : RecvLocals) (sender : Memory) : Prop :=
  ∀ j : ℕ, 4 ≤ j → j < 8 → locals.addrLen.toInt ≤ j → locals.srcAddr j = sender j

theorem srcAddrAfter_apply_of_lt {j : ℕ} (hj : (j : ℤ) < locals.addrLen.toInt) (h : j < 16) :
    srcAddrAfter locals sender j = sender j :=
  blit_slice (lt_min (Int.lt_toNat.mpr hj) h)

theorem srcAddrAfter_apply_of_le {j : ℕ} (hj : locals.addrLen.toInt ≤ j) :
    srcAddrAfter locals sender j = locals.srcAddr j := by
  have hcap : locals.addrLen.toInt.toNat ≤ j := Int.toNat_le.mpr hj
  rw [srcAddrAfter, blit, if_neg]
  rintro ⟨_, hlt⟩
  rw [slice_length, Nat.zero_add] at hlt
  exact absurd (hlt.trans_le (min_le_left _ _)) (not_lt.mpr hcap)

theorem sinAddr_srcAddrAfter_iff :
    sinAddr (srcAddrAfter locals sender) = sinAddr sender ↔ AddrKnown locals sender := by
  rw [sinAddr_eq_iff]
  constructor
  · intro h j h4 h8 hj
    have hbyte := h (j - 4) (by omega)
    rwa [show 4 + (j - 4) = j by omega, srcAddrAfter_apply_of_le hj] at hbyte
  · intro h i hi
    by_cases hj : ((4 + i : ℕ) : ℤ) < locals.addrLen.toInt
    · exact srcAddrAfter_apply_of_lt hj (by omega)
    · rw [srcAddrAfter_apply_of_le (by omega)]
      exact h (4 + i) (by omega) (by omega) (by omega)

/-! ### One run -/

/-- The ways out of `HandleRecv`. -/
inductive Branch
  | failed
  | ignored
  | rejected
  | accepted
deriving DecidableEq

def RecvOutcome.branch : RecvOutcome → Branch
  | .failed _ => .failed
  | .ignored => .ignored
  | .rejected _ _ => .rejected
  | .accepted _ => .accepted

/-- What the buffer holds of the datagram itself. -/
def payload (bytes : List UInt8) : Memory := received (fun _ => 0) bytes

/-- The datagram is long enough and an answer to this process. -/
structure IsReply (pinger : Pinger) (bytes : List UInt8) : Prop where
  long : ¬ receivedLen bytes < icmpTotalLen
  accepts : Accepts pinger.icmp (payload bytes) (receivedLen bytes)

/-- The info that the datagram and its sender determine. -/
def infoOf (bytes : List UInt8) (sender : Memory) (recvTime : Timeval) : PingInfo where
  cost := storedCost recvTime (sendTimeOf (payload bytes))
  dstIp := sinAddr sender
  taskId := taskIdOf (payload bytes)

/-- A long datagram goes to the parser, on its own bytes. -/
theorem handleRecv_payload (pinger : Pinger) (locals : RecvLocals) (bytes : List UInt8)
    (sender : Memory) (recvTime : Timeval) (haddr : ¬ locals.addrLen < 0)
    (hlong : ¬ receivedLen bytes < icmpTotalLen) :
    handleRecv pinger locals (.datagram bytes sender) recvTime = do
      let parsed ← parseIcmpPakcet pinger.icmp (payload bytes) (receivedLen bytes) recvTime
        { locals.info with dstIp := sinAddr (srcAddrAfter locals sender) } false
      if parsed.ret then
        return .accepted parsed.info
      else
        return .rejected parsed.info (!parsed.notMyPkt) := by
  rw [← handleRecv_buffer_congr pinger locals bytes sender recvTime fun _ => 0]
  exact (handleRecv_datagram pinger { locals with buffer := fun _ => 0 } bytes sender recvTime
    haddr).trans (if_neg hlong)

theorem handleRecv_of_isReply (haddr : ¬ locals.addrLen < 0) (h : IsReply pinger bytes) :
    val (handleRecv pinger locals (.datagram bytes sender) recvTime) =
      .accepted { infoOf bytes sender recvTime with
        dstIp := sinAddr (srcAddrAfter locals sender) } := by
  rw [handleRecv_payload pinger locals bytes sender recvTime haddr h.long]
  simp only [val_bind]
  rw [val_parse_of_accepts h.accepts]
  rfl

theorem branch_of_isReply (haddr : ¬ locals.addrLen < 0) (h : IsReply pinger bytes) :
    (val (handleRecv pinger locals (.datagram bytes sender) recvTime)).branch = .accepted := by
  rw [handleRecv_of_isReply haddr h]
  rfl

theorem branch_of_not_isReply (haddr : ¬ locals.addrLen < 0) (h : ¬ IsReply pinger bytes) :
    (val (handleRecv pinger locals (.datagram bytes sender) recvTime)).branch =
      if receivedLen bytes < icmpTotalLen then .ignored else .rejected := by
  by_cases hlong : receivedLen bytes < icmpTotalLen
  · rw [handleRecv_datagram pinger locals bytes sender recvTime haddr, if_pos hlong, if_pos hlong]
    rfl
  · rw [handleRecv_payload pinger locals bytes sender recvTime haddr hlong, if_neg hlong]
    simp only [val_bind]
    rw [val_parse_of_not_accepts fun hacc => h ⟨hlong, hacc⟩]
    rfl

theorem branch_of_neg (haddr : locals.addrLen < 0) :
    (val (handleRecv pinger locals (.datagram bytes sender) recvTime)).branch = .failed := by
  rw [handleRecv_datagram_of_neg pinger locals bytes sender recvTime haddr]
  rfl

theorem not_accepted_of_neg (haddr : locals.addrLen < 0) (info : PingInfo) :
    val (handleRecv pinger locals (.datagram bytes sender) recvTime) ≠ .accepted info := by
  intro hacc
  have hbranch : (val (handleRecv pinger locals (.datagram bytes sender) recvTime)).branch =
      .failed := branch_of_neg haddr
  rw [hacc] at hbranch
  cases hbranch

theorem branch_ne_failed (haddr : ¬ locals.addrLen < 0) :
    (val (handleRecv pinger locals (.datagram bytes sender) recvTime)).branch ≠ .failed := by
  by_cases h : IsReply pinger bytes
  · rw [branch_of_isReply haddr h]
    exact nofun
  · rw [branch_of_not_isReply haddr h]
    split <;> exact nofun

/-- What one run accepts is right exactly when the address was copied or known. -/
theorem info_correct_iff (haddr : ¬ locals.addrLen < 0) :
    (∀ info, val (handleRecv pinger locals (.datagram bytes sender) recvTime) = .accepted info →
        info = infoOf bytes sender recvTime) ↔
      (IsReply pinger bytes → AddrKnown locals sender) := by
  by_cases h : IsReply pinger bytes
  · rw [handleRecv_of_isReply haddr h, ← sinAddr_srcAddrAfter_iff]
    constructor
    · intro hinfo _
      have hdst := congrArg PingInfo.dstIp (hinfo _ rfl)
      exact hdst
    · intro hknown info hacc
      cases hacc
      rw [hknown h]
      rfl
  · constructor
    · intro _ hreply
      exact absurd hreply h
    · intro _ info hacc
      have hbranch : (val (handleRecv pinger locals (.datagram bytes sender) recvTime)).branch =
          _ := branch_of_not_isReply haddr h
      rw [hacc] at hbranch
      split at hbranch <;> cases hbranch

/-! ### Two runs -/

/-- Two runs on one datagram take the same branch, and what either accepts is what the datagram,
its sender and the receive time say. -/
structure DatagramOnly (bytes : List UInt8) (sender : Memory) (recvTime : Timeval)
    (o₁ o₂ : RecvOutcome) : Prop where
  branch : o₁.branch = o₂.branch
  info₁ : ∀ info, o₁ = .accepted info → info = infoOf bytes sender recvTime
  info₂ : ∀ info, o₂ = .accepted info → info = infoOf bytes sender recvTime

/-- Short of a failure, the branch does not depend on the locals. -/
theorem branch_eq (h₁ : ¬ l₁.addrLen < 0) (h₂ : ¬ l₂.addrLen < 0) :
    (val (handleRecv pinger l₁ (.datagram bytes sender) recvTime)).branch =
      (val (handleRecv pinger l₂ (.datagram bytes sender) recvTime)).branch := by
  by_cases h : IsReply pinger bytes
  · rw [branch_of_isReply h₁ h, branch_of_isReply h₂ h]
  · rw [branch_of_not_isReply h₁ h, branch_of_not_isReply h₂ h]

/-- Only `addr_len` and `src_addr` show through: a negative length fails the call, and a short one
leaves bytes of an older address in the info of a reply. -/
theorem handleRecv_datagramOnly_iff (pinger : Pinger) (l₁ l₂ : RecvLocals) (bytes : List UInt8)
    (sender : Memory) (recvTime : Timeval) :
    DatagramOnly bytes sender recvTime
        (val (handleRecv pinger l₁ (.datagram bytes sender) recvTime))
        (val (handleRecv pinger l₂ (.datagram bytes sender) recvTime)) ↔
      (l₁.addrLen < 0 ↔ l₂.addrLen < 0) ∧
        (¬ l₁.addrLen < 0 → IsReply pinger bytes →
          AddrKnown l₁ sender ∧ AddrKnown l₂ sender) := by
  by_cases h₁ : l₁.addrLen < 0 <;> by_cases h₂ : l₂.addrLen < 0
  · refine iff_of_true ⟨?_, ?_, ?_⟩ ⟨iff_of_true h₁ h₂, fun h => absurd h₁ h⟩
    · rw [branch_of_neg h₁, branch_of_neg h₂]
    · exact fun info hacc => (not_accepted_of_neg h₁ info hacc).elim
    · exact fun info hacc => (not_accepted_of_neg h₂ info hacc).elim
  · refine iff_of_false ?_ fun h => h₂ (h.1.mp h₁)
    rintro ⟨hbranch, _, _⟩
    rw [branch_of_neg h₁] at hbranch
    exact branch_ne_failed h₂ hbranch.symm
  · refine iff_of_false ?_ fun h => h₁ (h.1.mpr h₂)
    rintro ⟨hbranch, _, _⟩
    rw [branch_of_neg h₂] at hbranch
    exact branch_ne_failed h₁ hbranch
  · constructor
    · rintro ⟨_, hinfo₁, hinfo₂⟩
      exact ⟨iff_of_false h₁ h₂, fun _ h =>
        ⟨(info_correct_iff h₁).mp hinfo₁ h, (info_correct_iff h₂).mp hinfo₂ h⟩⟩
    · rintro ⟨_, hknown⟩
      exact ⟨branch_eq h₁ h₂, (info_correct_iff h₁).mpr fun h => (hknown h₁ h).1,
        (info_correct_iff h₂).mpr fun h => (hknown h₁ h).2⟩

/-- One reply of the sender 4.5.6.7, with room for its address and with none: the second run
reports the address that was there before. -/
theorem handleRecv_leftover_address :
    let bytes := slice (bareReply ⟨7, 0⟩) 0 84
    let sender : Memory := fun i => UInt8.ofNat i
    let outcome := fun addrLen => val (handleRecv (Pinger.new 0 0)
      ⟨fun _ => 0, fun _ => 9, addrLen, ⟨0, 0, 0⟩⟩ (.datagram bytes sender) ⟨7, 50000⟩)
    outcome 16 = .accepted ⟨50, 0x07060504, 0⟩ ∧ outcome 0 = .accepted ⟨50, 0x09090909, 0⟩ := by
  decide +kernel

end NodesDetector
