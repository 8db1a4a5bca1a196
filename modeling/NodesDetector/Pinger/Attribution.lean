import NodesDetector.Pinger.Conservation
import NodesDetector.Pinger.Receive

/-! `SendRequest` calls, `HandleSend` callbacks and the network side by side: whose reply is it? -/
namespace NodesDetector.Attribution

open Bytes Traced Sending ProducerQueue

/-! ### The system -/

/-- The queue and the loop thread, what each `SendRequest` call has yet to post, and what
`HandleRecv` accepted, with the request it answers. The producer of a post is its call. -/
structure State where
  sending : Sending.State ℕ
  calls : List (List PingRequest)
  reports : List (Posted ℕ × PingInfo)

def State.initial : State := ⟨.initial, [], []⟩

def report (e : Posted ℕ) : RecvOutcome → List (Posted ℕ × PingInfo)
  | .accepted info => [(e, info)]
  | .failed _ | .ignored | .rejected _ _ => []

inductive Label
  | call
  | post (k : ℕ) (ok : Bool)
  | loop (a : Sending.Label ℕ)
  | reply

/-- A reply may answer any packet sent so far, however long ago and however often it did. -/
inductive Step (pinger : Pinger) (inetPton : String → Option UInt32) : State → Label → State → Prop
  | call (s : State) :
      Step pinger inetPton s .call { s with calls := s.calls ++ [sendRequest pinger] }
  | post {s : State} {k : ℕ} {request : PingRequest} {rest : List PingRequest} {ok : Bool}
      {sending : Sending.State ℕ} (hk : s.calls[k]? = some (request :: rest))
      (hs : Sending.Step pinger.icmp inetPton s.sending (.post k request ok) sending) :
      Step pinger inetPton s (.post k ok)
        { s with sending := sending, calls := s.calls.set k rest }
  | loop {s : State} {a : Sending.Label ℕ} {sending : Sending.State ℕ}
      (ha : ∀ k request ok, a ≠ .post k request ok)
      (hs : Sending.Step pinger.icmp inetPton s.sending a sending) :
      Step pinger inetPton s (.loop a) { s with sending := sending }
  | reply {s : State} {e : Posted ℕ} {call : SendTo} (h : IpHeader) (csum : UInt16)
      (trailing : List UInt8) (locals : RecvLocals) (sender : Memory) (recvTime : Timeval)
      (hsent : (e, call) ∈ s.sending.sent) :
      Step pinger inetPton s .reply { s with
        reports := s.reports ++ report e (val (handleRecv pinger locals
          (.datagram (h.datagram (echoReply (wire call.packet) csum) trailing) sender) recvTime)) }

abbrev Reachable (pinger : Pinger) (inetPton : String → Option UInt32) (s : State) : Prop :=
  Transition.Reachable (Step pinger inetPton) (· = State.initial) s

variable {pinger : Pinger} {inetPton : String → Option UInt32} {s t : State} {a : Label}
  {e e' : Posted ℕ} {info : PingInfo} {request : PingRequest} {j k : ℕ}

theorem mem_report {outcome : RecvOutcome} (h : (e', info) ∈ report e outcome) :
    e' = e ∧ outcome = .accepted info := by
  cases outcome with
  | accepted got =>
    cases List.mem_singleton.mp h
    exact ⟨rfl, rfl⟩
  | failed | ignored | rejected => cases h

/-- What a call posted, then what it has yet to post, is what it set out to post, less the
requests `PostTask` refused. -/
structure FromCalls (pinger : Pinger) (s : State) : Prop where
  unbegun : ∀ k, s.calls[k]? = none → ofProducer Posted.producer k s.sending.posted = []
  begun : ∀ k rest, s.calls[k]? = some rest →
    ((ofProducer Posted.producer k s.sending.posted).map Posted.request ++ rest).Sublist
      (sendRequest pinger)

section Post

variable {rest : List PingRequest} {ok : Bool} {sending : Sending.State ℕ}

theorem posted_of_other
    (hs : Sending.Step pinger.icmp inetPton s.sending (.post k request ok) sending)
    (hj : j ≠ k) : ofProducer Posted.producer j sending.posted =
      ofProducer Posted.producer j s.sending.posted := by
  cases hs with
  | post =>
    rw [Sending.State.post, ofProducer_append, ofProducer_cons_of_ne hj.symm]
    exact List.append_nil _
  | postFailed => rfl

theorem posted_of_self
    (hs : Sending.Step pinger.icmp inetPton s.sending (.post k request ok) sending) :
    ((ofProducer Posted.producer k sending.posted).map Posted.request ++ rest).Sublist
      ((ofProducer Posted.producer k s.sending.posted).map Posted.request ++ request :: rest) := by
  cases hs with
  | post =>
    have hself : ofProducer Posted.producer k [⟨k, s.sending.posted.length, request⟩] =
        [⟨k, s.sending.posted.length, request⟩] := ofProducer_cons_of_eq rfl
    rw [Sending.State.post, ofProducer_append, hself, List.map_append, List.append_assoc]
    exact List.Sublist.refl _
  | postFailed =>
    -- a refused request is dropped
    exact (List.sublist_cons_self request rest).append_left _

theorem fromCalls_post (hk : s.calls[k]? = some (request :: rest))
    (hs : Sending.Step pinger.icmp inetPton s.sending (.post k request ok) sending)
    (hi : FromCalls pinger s) :
    FromCalls pinger { s with sending := sending, calls := s.calls.set k rest } := by
  have hlen : k < s.calls.length := (List.getElem?_eq_some_iff.mp hk).1
  have hself : (s.calls.set k rest)[k]? = some rest := List.getElem?_set_self hlen
  have hother : ∀ j, j ≠ k → (s.calls.set k rest)[j]? = s.calls[j]? :=
    fun j hj => List.getElem?_set_ne hj.symm
  constructor
  · intro j hj
    by_cases hjk : j = k
    · subst j
      rw [hself] at hj
      cases hj
    · rw [posted_of_other hs hjk]
      exact hi.unbegun j ((hother j hjk).symm.trans hj)
  · intro j rest' hj
    by_cases hjk : j = k
    · subst j
      rw [hself] at hj
      cases hj
      exact (posted_of_self hs).trans (hi.begun k _ hk)
    · rw [posted_of_other hs hjk]
      exact hi.begun j rest' ((hother j hjk).symm.trans hj)

end Post

theorem fromCalls_call (hi : FromCalls pinger s) :
    FromCalls pinger { s with calls := s.calls ++ [sendRequest pinger] } := by
  constructor
  · intro j hj
    have hlen : s.calls.length ≤ j := by
      have hle := List.getElem?_eq_none_iff.mp hj
      rw [List.length_append] at hle
      omega
    exact hi.unbegun j (List.getElem?_eq_none_iff.mpr hlen)
  · intro j rest hj
    by_cases hlt : j < s.calls.length
    · rw [List.getElem?_append_left hlt] at hj
      exact hi.begun j rest hj
    · have hnone : ofProducer Posted.producer j s.sending.posted = [] :=
        hi.unbegun j (List.getElem?_eq_none_iff.mpr (not_lt.mp hlt))
      rw [List.getElem?_append_right (not_lt.mp hlt)] at hj
      have hrest : rest = sendRequest pinger :=
        (List.mem_singleton.mp (List.mem_of_getElem? hj))
      rw [hnone, hrest]
      exact List.Sublist.refl _

theorem fromCalls_step (hs : Step pinger inetPton s a t) (hi : FromCalls pinger s) :
    FromCalls pinger t := by
  cases hs with
  | call => exact fromCalls_call hi
  | post hk hs => exact fromCalls_post hk hs hi
  | loop ha hs =>
    have hposted := posted_step_of_not_post hs fun p request => ha p request true
    exact ⟨hposted ▸ hi.unbegun, hposted ▸ hi.begun⟩
  | reply h csum trailing locals sender recvTime hsent => exact ⟨hi.unbegun, hi.begun⟩

theorem sending_step (hs : Step pinger inetPton s a t)
    (hr : Sending.Reachable pinger.icmp inetPton s.sending) :
    Sending.Reachable pinger.icmp inetPton t.sending := by
  cases hs with
  | call => exact hr
  | post hk hs => exact hr.tail hs
  | loop ha hs => exact hr.tail hs
  | reply h csum trailing locals sender recvTime hsent => exact hr

/-- An accepted reply names the task of the request it answers. -/
def Truthful (s : State) : Prop :=
  ∀ e info, (e, info) ∈ s.reports → e ∈ s.sending.posted ∧ info.taskId = e.request.taskId

theorem truthful_step (hs : Step pinger inetPton s a t)
    (hr : Sending.Reachable pinger.icmp inetPton s.sending) (hi : Truthful s) : Truthful t := by
  cases hs with
  | call => exact hi
  | post hk hs =>
    intro e info hmem
    obtain ⟨he, hid⟩ := hi e info hmem
    exact ⟨(posted_step hs).subset he, hid⟩
  | loop ha hs =>
    intro e info hmem
    obtain ⟨he, hid⟩ := hi e info hmem
    exact ⟨(posted_step hs).subset he, hid⟩
  | @reply e call h csum trailing locals sender recvTime hsent =>
    intro e' info hmem
    rcases List.mem_append.mp hmem with hold | hnew
    · exact hi e' info hold
    · obtain ⟨rfl, hacc⟩ := mem_report hnew
      obtain ⟨now, hm⟩ := carries_of_produces
        ((Sending.invariant_reachable hr).sentByRequest e' call hsent)
      exact ⟨mem_posted_of_sent hr hsent,
        taskId_of_accepted h _ trailing hm pinger csum locals sender hacc⟩

structure Invariant (pinger : Pinger) (inetPton : String → Option UInt32) (s : State) : Prop where
  sending : Sending.Reachable pinger.icmp inetPton s.sending
  fromCalls : FromCalls pinger s
  truthful : Truthful s

theorem invariant_initial : Invariant pinger inetPton State.initial where
  sending := initial_reachable _ _
  fromCalls := ⟨fun _ _ => rfl, nofun⟩
  truthful := nofun

theorem invariant_step (hs : Step pinger inetPton s a t) (hi : Invariant pinger inetPton s) :
    Invariant pinger inetPton t where
  sending := sending_step hs hi.sending
  fromCalls := fromCalls_step hs hi.fromCalls
  truthful := truthful_step hs hi.sending hi.truthful

theorem invariant_reachable (h : Reachable pinger inetPton s) :
    Invariant pinger inetPton s := by
  refine h.invariant ?_ fun _ _ _ hs hi => invariant_step hs hi
  rintro _ rfl
  exact invariant_initial

/-! ### Attribution -/

/-- What was posted came from a call begun before, and was among its requests. -/
theorem FromCalls.of_posted (hi : FromCalls pinger s) (he : e ∈ s.sending.posted) :
    e.producer < s.calls.length ∧
      ((ofProducer Posted.producer e.producer s.sending.posted).map Posted.request).Sublist
        (sendRequest pinger) := by
  have hmem : e ∈ ofProducer Posted.producer e.producer s.sending.posted :=
    mem_ofProducer.mpr ⟨he, rfl⟩
  cases hcall : s.calls[e.producer]? with
  | some rest =>
    exact ⟨(List.getElem?_eq_some_iff.mp hcall).1,
      (List.sublist_append_left _ rest).trans (hi.begun _ rest hcall)⟩
  | none =>
    rw [hi.unbegun _ hcall] at hmem
    cases hmem

theorem FromCalls.isRequest (hi : FromCalls pinger s) (he : e ∈ s.sending.posted) :
    ∃ i, IsRequest pinger i e.request := by
  have hmem : e ∈ ofProducer Posted.producer e.producer s.sending.posted :=
    mem_ofProducer.mpr ⟨he, rfl⟩
  exact List.mem_iff_getElem?.mp ((hi.of_posted he).2.subset (List.mem_map_of_mem hmem))

/-- Within one call a task id is used once. -/
theorem FromCalls.eq_of_taskId (hi : FromCalls pinger s) (he : e ∈ s.sending.posted)
    (he' : e' ∈ s.sending.posted) (hp : e'.producer = e.producer)
    (hid : e'.request.taskId = e.request.taskId) : e' = e := by
  have hnodup := (sendRequest_nodup pinger).sublist
    ((hi.of_posted he).2.map PingRequest.taskId)
  rw [List.map_map] at hnodup
  exact List.inj_on_of_nodup_map hnodup (mem_ofProducer.mpr ⟨he', hp⟩)
    (mem_ofProducer.mpr ⟨he, rfl⟩) hid

/-- Both requests are for the same position of `ips_`. -/
def SamePosition (pinger : Pinger) (e e' : Posted ℕ) : Prop :=
  ∃ i, IsRequest pinger i e.request ∧ IsRequest pinger i e'.request

theorem samePosition_iff (hi : FromCalls pinger s) (he : e ∈ s.sending.posted)
    (he' : e' ∈ s.sending.posted) :
    SamePosition pinger e e' ↔ e.request.taskId = e'.request.taskId := by
  obtain ⟨i, hr⟩ := hi.isRequest he
  obtain ⟨j, hr'⟩ := hi.isRequest he'
  constructor
  · rintro ⟨k, hk, hk'⟩
    exact (hk.taskId_eq_iff hk').mpr rfl
  · intro hid
    have hij : i = j := (hr.taskId_eq_iff hr').mp hid
    exact ⟨i, hr, hij ▸ hr'⟩

/-- The packets of two requests agree in task id and sequence number exactly when both are for the
same position of `ips_`, so only requests of different calls are confused; an accepted reply
names the position it answers, and with it one request of each call. -/
theorem replies_attributed (h : Reachable pinger inetPton s) :
    (∀ e ∈ s.sending.posted, ∀ e' ∈ s.sending.posted, ∀ call call',
        Produces pinger.icmp inetPton e.request call →
        Produces pinger.icmp inetPton e'.request call' →
        (tag call.packet = tag call'.packet ↔ SamePosition pinger e e')) ∧
      (∀ e ∈ s.sending.posted, ∀ e' ∈ s.sending.posted, SamePosition pinger e e' →
        e'.producer = e.producer ∨ s.calls.length ≤ 1 → e' = e) ∧
      ∀ e info, (e, info) ∈ s.reports →
        e ∈ s.sending.posted ∧ info.taskId = e.request.taskId ∧
          ∀ e' ∈ s.sending.posted, e'.request.taskId = info.taskId ↔ SamePosition pinger e e' := by
  have hi := invariant_reachable h
  refine ⟨?_, ?_, ?_⟩
  · intro e he e' he' call call' hcall hcall'
    obtain ⟨i, hr⟩ := hi.fromCalls.isRequest he
    obtain ⟨j, hr'⟩ := hi.fromCalls.isRequest he'
    rw [tag_eq_iff hr hr' hcall hcall', samePosition_iff hi.fromCalls he he', hr.taskId_eq_iff hr']
  · intro e he e' he' hsame hcalls
    have hid := (samePosition_iff hi.fromCalls he he').mp hsame
    refine hi.fromCalls.eq_of_taskId he he' ?_ hid.symm
    rcases hcalls with hp | hone
    · exact hp
    · have hlt := (hi.fromCalls.of_posted he).1
      have hlt' := (hi.fromCalls.of_posted he').1
      omega
  · intro e info hreport
    obtain ⟨he, hid⟩ := hi.truthful e info hreport
    refine ⟨he, hid, ?_⟩
    intro e' he'
    rw [samePosition_iff hi.fromCalls he he', hid]
    exact eq_comm

/-- What `SendRequest` posts first. -/
def firstRequest : PingRequest := { ip := "220.181.57.216", count := 5 }

/-- The loop thread sends what it holds. -/
theorem loop_send (h : Reachable pinger inetPton s) {batchNum : ℤ}
    (hl : s.sending.loop = .send batchNum e request) (sockaddr : Memory) (now : Timeval) :
    ∃ after call, (sendIcmp pinger.icmp inetPton sockaddr now request).2 = some call ∧
      Reachable pinger inetPton
        { s with sending := { s.sending with
          loop := .test batchNum after
          sent := s.sending.sent ++ [(e, call)]
          sends := s.sending.sends + 1 } } := by
  obtain ⟨after, call, hcall, heq⟩ :=
    s.sending.sendIcmp_eq pinger.icmp inetPton batchNum e sockaddr now request
  have hnext := h.tail (Step.loop (by rintro k request ok ⟨⟩) (.send sockaddr now true hl))
  rw [heq] at hnext
  exact ⟨after, call, congrArg Prod.snd hcall, hnext⟩

/-- Two calls have each posted their first request; one was sent, and its reply accepted. -/
theorem two_calls_replied :
    ∃ (s : State) (call : SendTo) (info : PingInfo), Reachable (Pinger.new 0 4660) firstAddr s ∧
      s.sending.posted = [⟨0, 0, firstRequest⟩, ⟨1, 1, firstRequest⟩] ∧
      s.sending.sent = [(⟨0, 0, firstRequest⟩, call)] ∧
      s.reports = [(⟨0, 0, firstRequest⟩, info)] := by
  have hinit : Reachable (Pinger.new 0 4660) firstAddr State.initial := .initial rfl
  have hcalls := (hinit.tail (Step.call _)).tail (Step.call _)
  have hfirst := hcalls.tail (Step.post rfl (Sending.Step.post _ 0 _))
  have hsecond := hfirst.tail (Step.post rfl (Sending.Step.post _ 1 _))
  have hstarted := hsecond.tail (Step.loop (by rintro k request ok ⟨⟩) (.start rfl))
  have hheld := hstarted.tail
    (Step.loop (by rintro k request ok ⟨⟩) (.dequeue rfl (by decide) (.head _ _)))
  obtain ⟨after, call, hcall, hsent⟩ := loop_send hheld rfl (fun _ => 0) ⟨5, 6⟩
  obtain ⟨now, hm⟩ := carries_of_produces ⟨_, _, hcall⟩
  have hreplied := hsent.tail (Step.reply plainHeader 0 [] ⟨fun _ => 1, fun _ => 2, 16, ⟨-1, 5, 6⟩⟩
    (fun _ => 0) ⟨5, 50006⟩ List.mem_cons_self)
  rw [val_handleRecv_reply plainHeader _ [] hm _ 0 _ _ _ (by decide), if_pos rfl] at hreplied
  exact ⟨_, call, _, hreplied, rfl, rfl, rfl⟩

theorem replies_attributed_two_calls :
    ∃ s : State, Reachable (Pinger.new 0 4660) firstAddr s ∧ s.sending.posted.length = 2 ∧
      (∀ e ∈ s.sending.posted, ∀ e' ∈ s.sending.posted, SamePosition (Pinger.new 0 4660) e e' →
        e'.producer = e.producer ∨ s.calls.length ≤ 1 → e' = e) ∧
      ∃ e info, (e, info) ∈ s.reports ∧ info.taskId = e.request.taskId ∧
        ∀ e' ∈ s.sending.posted,
          e'.request.taskId = info.taskId ↔ SamePosition (Pinger.new 0 4660) e e' := by
  obtain ⟨s, call, info, h, hposted, -, hreports⟩ := two_calls_replied
  have hmem : ((⟨0, 0, firstRequest⟩ : Posted ℕ), info) ∈ s.reports := by
    rw [hreports]
    exact List.mem_cons_self
  have hall := replies_attributed h
  exact ⟨s, h, congrArg List.length hposted, hall.2.1, _, info, hmem, (hall.2.2 _ _ hmem).2⟩

/-- Both produce packets with the same task id and the same sequence number. -/
theorem replies_confused_two_calls :
    ∃ s : State, Reachable (Pinger.new 0 4660) firstAddr s ∧
      ∃ e ∈ s.sending.posted, ∃ e' ∈ s.sending.posted, e ≠ e' ∧
        ∃ call call', Produces (Pinger.new 0 4660).icmp firstAddr e.request call ∧
          Produces (Pinger.new 0 4660).icmp firstAddr e'.request call' ∧
          tag call.packet = tag call'.packet := by
  obtain ⟨s, -, -, h, hposted, -⟩ := two_calls_replied
  obtain ⟨call, hcall⟩ := exists_produces (Pinger.new 0 4660).icmp firstAddr firstRequest
  refine ⟨s, h, ⟨0, 0, firstRequest⟩, ?_, ⟨1, 1, firstRequest⟩, ?_, by decide, call, call, hcall,
    hcall, rfl⟩
  · rw [hposted]
    exact List.mem_cons_self
  · rw [hposted]
    exact List.mem_cons_of_mem _ List.mem_cons_self

end NodesDetector.Attribution
