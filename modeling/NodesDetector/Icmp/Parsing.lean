import NodesDetector.Icmp.Program

/-! What `ParseIcmpPakcet` decides, what it reads, and what it cannot see. -/
namespace NodesDetector

open Bytes Traced

variable {icmp : Icmp} {packet p q : Memory} {a c len n : ℕ} {recvTime : Timeval}
  {info : PingInfo} {notMyPkt : Bool} {P : Event → Prop}

/-- `ip->ip_hl << 2`. -/
def ipHdrLen (packet : Memory) : ℕ := ((packet 0).toNat % 16) <<< 2

theorem ipHdrLen_eq (packet : Memory) : ipHdrLen packet = 4 * ((packet 0).toNat % 16) := by
  rw [ipHdrLen, Nat.shiftLeft_eq, Nat.mul_comm]

theorem ipHdrLen_le (packet : Memory) : ipHdrLen packet ≤ 60 := by
  rw [ipHdrLen_eq]
  omega

/-- The datagrams the parser takes for an answer to this process. -/
structure Accepts (icmp : Icmp) (packet : Memory) (len : ℕ) : Prop where
  proto : packet 9 = ipprotoIcmp
  long : icmpTotalLen ≤ wrapSub len (ipHdrLen packet)
  type : packet (ipHdrLen packet) = icmpEchoReply
  id : UInt16.ofNat (load packet (ipHdrLen packet + 4) 2) = icmp.icmpId

/-- The send time the parser hands to `TimeDiff`. -/
def sendTimeOf (packet : Memory) : Timeval := loadTimeval packet (ipHdrLen packet + icmpHdrLen)

def taskIdOf (packet : Memory) : UInt64 :=
  UInt64.ofNat (load packet (ipHdrLen packet + icmpHdrLen + 16) 8)

/-- `info->cost` for a send and a receive time. -/
def storedCost (recvTime sendTime : Timeval) : Int16 := (val (timeDiff recvTime sendTime)).toInt16

@[simp] theorem val_readBytes : val (readBytes packet a n) = load packet a n := rfl

@[simp] theorem val_readTimeval : val (readTimeval packet a) = loadTimeval packet a := rfl

@[simp] theorem val_sizeSub : val (sizeSub a c) = wrapSub a c := rfl

@[simp] theorem always_readBytes :
    Always P (readBytes packet a n) ↔ ∀ i < n, P (.read (a + i)) := by
  simp [readBytes]

@[simp] theorem always_readTimeval :
    Always P (readTimeval packet a) ↔ ∀ i < 16, P (.read (a + i)) := by
  simp [readTimeval]

@[simp] theorem always_sizeSub : Always P (sizeSub a c) ↔ P (.sizeSub a c) := by
  simp [sizeSub]

theorem ofNat_load_one (packet : Memory) (a : ℕ) : UInt8.ofNat (load packet a 1) = packet a := by
  rw [load_one, UInt8.ofNat_toNat]

@[simp] theorem val_notOurReply (icmp : Icmp) (packet : Memory) (a : ℕ) :
    val (notOurReply icmp packet a) =
      decide (packet a ≠ icmpEchoReply ∨ UInt16.ofNat (load packet (a + 4) 2) ≠ icmp.icmpId) := by
  by_cases h : packet a = icmpEchoReply
  · simp [notOurReply, ofNat_load_one, h]
    rfl
  · simp [notOurReply, ofNat_load_one, h]

/-- The result of the parser, check by check. -/
theorem val_parse (icmp : Icmp) (packet : Memory) (len : ℕ) (recvTime : Timeval)
    (info : PingInfo) (notMyPkt : Bool) :
    val (parseIcmpPakcet icmp packet len recvTime info notMyPkt) =
      if packet 9 ≠ ipprotoIcmp then ⟨false, info, notMyPkt⟩
      else if wrapSub len (ipHdrLen packet) < icmpTotalLen then ⟨false, info, notMyPkt⟩
      else if packet (ipHdrLen packet) ≠ icmpEchoReply ∨
          UInt16.ofNat (load packet (ipHdrLen packet + 4) 2) ≠ icmp.icmpId then
        ⟨false, info, true⟩
      else ⟨true, { info with
        cost := storedCost recvTime (sendTimeOf packet)
        taskId := taskIdOf packet }, notMyPkt⟩ := by
  simp only [parseIcmpPakcet, val_bind, val_ite, val_pure]
  simp only [val_readBytes, val_sizeSub, val_notOurReply, val_readTimeval, ofNat_load_one,
    load_one packet 0, decide_eq_true_eq]
  rfl

theorem val_parse_of_accepts (h : Accepts icmp packet len) :
    val (parseIcmpPakcet icmp packet len recvTime info notMyPkt) =
      ⟨true, { info with
        cost := storedCost recvTime (sendTimeOf packet)
        taskId := taskIdOf packet }, notMyPkt⟩ := by
  simp [val_parse, h.proto, h.long, h.type, h.id]

/-- A rejected datagram leaves `*info` alone, and sets `*not_my_pkt` exactly when the echo
check is what failed. -/
theorem val_parse_of_not_accepts (h : ¬ Accepts icmp packet len) :
    val (parseIcmpPakcet icmp packet len recvTime info notMyPkt) =
      ⟨false, info, notMyPkt || decide (packet 9 = ipprotoIcmp ∧
        icmpTotalLen ≤ wrapSub len (ipHdrLen packet))⟩ := by
  rw [val_parse]
  split
  · rename_i hproto
    simp [hproto]
  · split
    · rename_i hproto hshort
      simp [hshort]
    · split
      · rename_i hproto hlong _
        push Not at hproto hlong
        simp [hproto, hlong]
      · rename_i hproto hlong hecho
        push Not at hproto hlong hecho
        exact (h ⟨hproto, hlong, hecho.1, hecho.2⟩).elim

/-- The event touches the packet or its length, not a time. -/
def IsAccess : Event → Prop
  | .read _ | .sizeSub _ _ => True
  | .arith _ | .timeDiff _ _ => False

theorem notOurReply_isAccess : Always IsAccess (notOurReply icmp packet a) := by
  by_cases h : UInt8.ofNat (load packet a 1) = icmpEchoReply <;>
    simp [notOurReply, IsAccess, h]

/-- On an accepted datagram the parser adds only loads and one size to what `TimeDiff` does. -/
theorem log_parse_of_accepts (recvTime : Timeval) (info : PingInfo) (notMyPkt : Bool)
    (h : Accepts icmp packet len) : ∃ pre post,
    log (parseIcmpPakcet icmp packet len recvTime info notMyPkt) =
      pre ++ log (timeDiff recvTime (sendTimeOf packet)) ++ post ∧
    (∀ e ∈ pre, IsAccess e) ∧ ∀ e ∈ post, IsAccess e := by
  have hhdr : (load packet 0 1 % 16) <<< 2 = ipHdrLen packet := by rw [load_one]; rfl
  have hreply : ¬ val (notOurReply icmp packet (ipHdrLen packet)) = true := by
    simp [h.type, h.id]
  refine ⟨log (readBytes packet 0 1) ++ log (readBytes packet 9 1) ++
    log (sizeSub len (ipHdrLen packet)) ++ log (notOurReply icmp packet (ipHdrLen packet)) ++
    log (readTimeval packet (ipHdrLen packet + icmpHdrLen)),
    log (readBytes packet (ipHdrLen packet + icmpHdrLen + 16) 8), ?_, ?_, ?_⟩
  · simp only [parseIcmpPakcet, log_bind, log_ite, log_pure, val_readBytes, hhdr, ofNat_load_one,
      h.proto, ne_eq, not_true_eq_false, if_false, val_sizeSub, not_lt.mpr h.long, hreply,
      val_readTimeval]
    simp [sendTimeOf, List.append_assoc]
  · have hreads : ∀ p n, Always IsAccess (readBytes packet p n) := by simp [IsAccess]
    have htime : ∀ p, Always IsAccess (readTimeval packet p) := by simp [IsAccess]
    have hsize : ∀ c, Always IsAccess (sizeSub len c) := by simp [IsAccess]
    simp only [List.forall_mem_append]
    exact ⟨⟨⟨⟨hreads _ _, hreads _ _⟩, hsize _⟩, notOurReply_isAccess⟩, htime _⟩
  · exact always_readBytes.mpr fun _ _ => trivial

theorem parse_ret_iff (recvTime : Timeval) (info : PingInfo) (notMyPkt : Bool) :
    (val (parseIcmpPakcet icmp packet len recvTime info notMyPkt)).ret = true ↔
      Accepts icmp packet len := by
  by_cases h : Accepts icmp packet len
  · simp [val_parse_of_accepts h, h]
  · simp [val_parse_of_not_accepts h, h]

/-! ### Bounds -/

/-- The event stays inside the first `len` bytes and, for a subtraction, above zero. -/
def InBounds (len : ℕ) : Event → Prop
  | .read i => i < len
  | .sizeSub a b => b ≤ a
  | .arith _ | .timeDiff _ _ => True

theorem wrapSub_of_le (h : c ≤ a) (ha : a < 2 ^ 64) : wrapSub a c = a - c := by
  unfold wrapSub
  omega

theorem timeDiff_inBounds (sendTime : Timeval) :
    Always (InBounds len) (timeDiff recvTime sendTime) := by
  simp [timeDiff, subI64, mulI64, addI64, InBounds]

/-- A buffer as long as one ICMP message outlasts every header length the nibble can name, so
the length check means what it says and nothing past `len` is read. -/
theorem parse_inBounds (hlen : icmpTotalLen ≤ len) (hlt : len < 2 ^ 64) :
    Always (InBounds len) (parseIcmpPakcet icmp packet len recvTime info notMyPkt) := by
  have hle := ipHdrLen_le packet
  have hsub : wrapSub len (ipHdrLen packet) = len - ipHdrLen packet :=
    wrapSub_of_le (by simp only [icmpTotalLen] at hlen; omega) hlt
  have hhdr : (load packet 0 1 % 16) <<< 2 = ipHdrLen packet := by rw [load_one]; rfl
  simp only [icmpTotalLen] at hlen
  simp only [parseIcmpPakcet, notOurReply, always_bind, always_ite, always_pure,
    always_readBytes, always_readTimeval, always_sizeSub, timeDiff_inBounds]
  simp only [val_readBytes, val_sizeSub, hhdr, hsub, InBounds, icmpTotalLen, icmpHdrLen]
  refine ⟨?_, ?_, fun _ => trivial, fun _ => ⟨?_, fun _ => trivial, fun hlong =>
    ⟨⟨?_, fun _ => trivial, fun _ => ⟨?_, trivial⟩⟩, fun _ => trivial, fun _ =>
      ⟨?_, trivial, ?_, trivial⟩⟩⟩⟩
  all_goals omega

theorem readBytes_congr (h : ∀ i, a ≤ i → i < a + n → p i = q i) :
    readBytes p a n = readBytes q a n := by
  rw [readBytes, readBytes, load_congr h]

theorem loadTimeval_congr (h : ∀ i, a ≤ i → i < a + 16 → p i = q i) :
    loadTimeval p a = loadTimeval q a := by
  rw [loadTimeval, loadTimeval, load_congr fun i hi hi' => h i hi (by omega),
    load_congr fun i hi hi' => h i (by omega) (by omega)]

theorem readTimeval_congr (h : ∀ i, a ≤ i → i < a + 16 → p i = q i) :
    readTimeval p a = readTimeval q a := by
  rw [readTimeval, readTimeval, loadTimeval_congr h]

/-- Buffers that agree on the datagram are parsed alike, result and log. -/
theorem parse_congr (hlen : icmpTotalLen ≤ len) (hlt : len < 2 ^ 64) (h : ∀ i < len, p i = q i) :
    parseIcmpPakcet icmp p len recvTime info notMyPkt =
      parseIcmpPakcet icmp q len recvTime info notMyPkt := by
  have hle := ipHdrLen_le q
  simp only [icmpTotalLen] at hlen
  have hhdr (m : Memory) : (load m 0 1 % 16) <<< 2 = ipHdrLen m := by rw [load_one]; rfl
  have hsub : wrapSub len (ipHdrLen q) = len - ipHdrLen q := wrapSub_of_le (by omega) hlt
  unfold parseIcmpPakcet
  apply bind_congr (readBytes_congr fun i _ hi => h i (by omega))
  simp only [val_readBytes, hhdr]
  apply bind_congr (readBytes_congr fun i _ hi => h i (by omega))
  split
  · rfl
  apply bind_congr rfl
  rw [val_sizeSub, hsub]
  split
  · rfl
  rename_i hlong
  simp only [icmpTotalLen, not_lt] at hlong
  have hreply : notOurReply icmp p (ipHdrLen q) = notOurReply icmp q (ipHdrLen q) := by
    apply bind_congr (readBytes_congr fun i _ hi => h i (by omega))
    split
    · rfl
    · exact bind_congr (readBytes_congr fun i _ hi => h i (by omega)) rfl
  apply bind_congr hreply
  split
  · rfl
  simp only [icmpHdrLen]
  apply bind_congr (readTimeval_congr fun i _ hi => h i (by omega))
  apply bind_congr rfl
  exact bind_congr (readBytes_congr fun i _ hi => h i (by omega)) rfl

end NodesDetector
