import NodesDetector.Pinger.Conservation

/-! Where a `sendto` goes: to the address its request names, or to what the stack held. -/
namespace NodesDetector

open Bytes

variable {icmp : Icmp} {inetPton : String → Option UInt32} {sockaddr m : Memory} {now : Timeval}
  {request : PingRequest} {call : SendTo} {addr : UInt32} {i : ℕ}

/-- `sin_family` of the destination. -/
def SendTo.family (call : SendTo) : ℕ := load (wire call.sockaddr) 0 2

/-- `sin_addr` of the destination. -/
def SendTo.address (call : SendTo) : UInt32 := sinAddr (wire call.sockaddr)

theorem wire_slice (hi : i < 16) : wire (slice m 0 16) i = m i := blit_slice hi

theorem sockaddr_of_sendIcmp (h : (sendIcmp icmp inetPton sockaddr now request).2 = some call) :
    call.sockaddr = slice (destination inetPton sockaddr request.ip) 0 16 := by
  obtain ⟨call₀, _, heq, _, hsockaddr⟩ := sendIcmp_eq icmp inetPton sockaddr now request
  rw [heq] at h
  cases h
  exact hsockaddr

theorem family_of_sendIcmp (h : (sendIcmp icmp inetPton sockaddr now request).2 = some call) :
    call.family = afInet := by
  have hfamily : load (store sockaddr 0 2 afInet) 0 2 = afInet := load_store_self (by decide)
  rw [SendTo.family, sockaddr_of_sendIcmp h, load_congr fun i _ hi => wire_slice (by omega),
    destination]
  cases inetPton (cStr request.ip) with
  | none => exact hfamily
  | some addr => exact (load_store_of_disjoint (by omega)).trans hfamily

/-- A rejected string leaves whatever the stack held. -/
theorem address_of_sendIcmp (h : (sendIcmp icmp inetPton sockaddr now request).2 = some call) :
    call.address = (inetPton (cStr request.ip)).getD (sinAddr sockaddr) := by
  have hwire : call.address = sinAddr (destination inetPton sockaddr request.ip) := by
    rw [SendTo.address, sockaddr_of_sendIcmp h]
    exact sinAddr_eq_iff.mpr fun i hi => wire_slice (by omega)
  rw [hwire, destination]
  cases inetPton (cStr request.ip) with
  | none => exact sinAddr_eq_iff.mpr fun i hi => store_apply_of_not_mem (by omega)
  | some addr =>
    rw [sinAddr, load_store_self addr.toNat_lt, UInt32.ofNat_toNat]
    rfl

namespace Sending

open ProducerQueue

variable {π : Type} {s t : State π} {a : Label π} {e : Posted π}

/-- Every `sendto` went to the address the request of it names, so none was made for a request
that names none. -/
def SentAsNamed (inetPton : String → Option UInt32) (s : State π) : Prop :=
  ∀ e call, (e, call) ∈ s.sent →
    call.family = afInet ∧ inetPton e.request.ip = some call.address

section Reachable

variable [DecidableEq π]

/-- A request was given to `SendIcmp` when it left the queue and is no longer held. -/
theorem mem_sent_iff (h : Reachable icmp inetPton s) :
    e ∈ s.sent.map Prod.fst ↔ e ∈ s.posted ∧ e ∉ s.queue ∧ s.held ≠ some e := by
  have hperm := posted_perm h
  have hnodup : s.taken.Nodup :=
    hperm.nodup_iff.mp (tickets_nodup (invariant_reachable h).numbered).of_map
  have hheld : e ∈ s.held.toList ↔ s.held = some e := Option.mem_toList
  rw [State.taken, List.append_assoc] at hnodup
  obtain ⟨_, _, hdisjoint⟩ := List.nodup_append'.mp hnodup
  rw [hperm.mem_iff, State.taken, List.append_assoc]
  constructor
  · intro hsent
    refine ⟨List.mem_append_left _ hsent, ?_, ?_⟩
    · exact fun hqueue => hdisjoint hsent (List.mem_append_right _ hqueue)
    · exact fun hmem => hdisjoint hsent (List.mem_append_left _ (hheld.mpr hmem))
  · rintro ⟨hmem, hqueue, hne⟩
    rcases List.mem_append.mp hmem with hsent | hrest
    · exact hsent
    · rcases List.mem_append.mp hrest with hmem | hmem
      · exact absurd (hheld.mp hmem) hne
      · exact absurd hmem hqueue

/-- The packets go where their requests say exactly when every request that was taken from the
queue and given to `SendIcmp` names an IPv4 address. -/
theorem sentAsNamed_iff (hpton : ∀ ip addr, inetPton ip = some addr → cStr ip = ip)
    (h : Reachable icmp inetPton s) :
    SentAsNamed inetPton s ↔
      ∀ e ∈ s.posted, e ∉ s.queue → s.held ≠ some e → (inetPton e.request.ip).isSome := by
  constructor
  · intro hnamed e hposted hqueue hheld
    obtain ⟨⟨e', call⟩, hsent, rfl⟩ :=
      List.mem_map.mp ((mem_sent_iff h).mpr ⟨hposted, hqueue, hheld⟩)
    rw [(hnamed e' call hsent).2]
    rfl
  · intro hvalid e call hsent
    obtain ⟨hposted, hqueue, hheld⟩ := (mem_sent_iff h).mp (List.mem_map_of_mem hsent)
    obtain ⟨addr, haddr⟩ := Option.isSome_iff_exists.mp (hvalid e hposted hqueue hheld)
    obtain ⟨sockaddr, now, hcall⟩ := (invariant_reachable h).sentByRequest e call hsent
    refine ⟨family_of_sendIcmp hcall, ?_⟩
    rw [address_of_sendIcmp hcall, hpton _ _ haddr, haddr]
    rfl

end Reachable

theorem cStr_of_firstAddr (ip : String) (addr : UInt32) (h : firstAddr ip = some addr) :
    cStr ip = ip := by
  unfold firstAddr at h
  split at h
  · rename_i hip
    subst ip
    decide +kernel
  · cases h

def addressRequest : PingRequest := { ip := "220.181.57.216", taskId := 7 }

theorem sentAsNamed_iff_address :
    ∃ s : State ℕ, Reachable ⟨0, 4660⟩ firstAddr s ∧ s.sent.length = 1 ∧
      SentAsNamed firstAddr s := by
  have hposted : Reachable ⟨0, 4660⟩ firstAddr (State.initial.post 0 addressRequest) :=
    (initial_reachable _ _).tail (Step.post _ 0 _)
  have hheld := (hposted.tail (Step.start rfl)).tail (Step.dequeue rfl (by decide) (.head _ []))
  obtain ⟨after, call, _, hsent⟩ := send_reachable hheld rfl (fun _ => 0) ⟨5, 6⟩
  refine ⟨_, hsent, rfl, (sentAsNamed_iff cStr_of_firstAddr hsent).mpr ?_⟩
  intro e he _ _
  cases List.mem_singleton.mp he
  decide +kernel

def namedRequest : PingRequest := { ip := "localhost", taskId := 8 }

/-- The packet for the host name goes to the address of the request before. -/
theorem sent_to_stale_address :
    ∃ s : State ℕ, Reachable ⟨0, 4660⟩ firstAddr s ∧ ∃ e call, (e, call) ∈ s.sent ∧
      firstAddr e.request.ip = none ∧ call.address = 3627660764 := by
  have hposted : Reachable ⟨0, 4660⟩ firstAddr
      ((State.initial.post 0 addressRequest).post 0 namedRequest) :=
    ((initial_reachable _ _).tail (Step.post _ 0 _)).tail (Step.post _ 0 _)
  have hheld := (hposted.tail (Step.start rfl)).tail (Step.dequeue rfl (by decide) (.head _ _))
  obtain ⟨after, call, hcall, hsent⟩ := send_reachable hheld rfl (fun _ => 0) ⟨5, 6⟩
  have hheld' := hsent.tail (Step.dequeue rfl (by decide) (.head _ []))
  obtain ⟨after', call', hcall', hsent'⟩ :=
    send_reachable hheld' rfl (wire call.sockaddr) ⟨5, 7⟩
  refine ⟨_, hsent', _, call', List.mem_append_right _ List.mem_cons_self, ?_, ?_⟩
  · decide +kernel
  · have hstale : call'.address = call.address := address_of_sendIcmp hcall'
    rw [hstale]
    exact address_of_sendIcmp hcall

end Sending

end NodesDetector
