import NodesDetector.Queue.Implicit

/-! The four 64-bit counters of an implicit producer carry the optimistic tickets. -/
namespace NodesDetector.Queue

variable {α β C : Type}

/-- A consumer's locals against the ticket it holds. -/
def Agrees : ConsumerPc α β → Tickets.Phase → Prop
  | .idle, p | .start, p | .tailRead _, p | .done none, p => p = .idle
  | .overcommitRead _ o, p | .optimistic o, p => ∃ n, p = .read n ∧ o = .ofNat n
  | .counted o m, p => ∃ n k, p = .ticket n k ∧ o = .ofNat n ∧ m = .ofNat k
  | .granted, p => ∃ k, p = .granted k
  | .refused, p => ∃ k, p = .refused k
  | .index i, p | .header i _, p | .tail i _ _, p | .entry i _, p | .block i _ _, p
  | .moved i _ _ _, p | .destroyed i _ _ _, p | .emptied i _ _ _, p | .recycle i _ _, p =>
    ∃ n, p = .claimed n ∧ i = .ofNat n
  | .done (some _), p => ∃ n, p = .claimed n

/-- The counters are the exact ones modulo 2^64. -/
structure Counters (s : State α β C) : Prop where
  tickets : Tickets.Inv s.history.tickets
  produced : s.history.tickets.produced = s.history.enqueued.length
  tailIndex : s.tailIndex = .ofNat s.history.enqueued.length
  headIndex : s.headIndex = .ofNat s.history.tickets.claims
  optimisticCount : s.dequeueOptimisticCount = .ofNat s.history.tickets.tickets
  overcommit : s.dequeueOvercommit = .ofNat s.history.tickets.refusals
  agrees : ∀ c, Agrees (s.consumer c) (s.history.tickets.phase c)

/-- No consumer draws a ticket 2^63 or more beyond what it saw come back and what is there. -/
def TicketsNear (s : State α β C) : Prop :=
  ∀ c n k, s.history.tickets.phase c = .ticket n k → k ≤ n + s.history.enqueued.length + 2 ^ 63

variable {s t : State α β C}

theorem counters_initial (h : Initial s) : Counters s := by
  obtain ⟨blocks, entries, junk, rfl | rfl⟩ := h
  all_goals exact ⟨Tickets.inv_initial, rfl, rfl, rfl, rfl, rfl, fun _ => rfl⟩

theorem Counters.of_pc (h : Counters s) {c : C} {pc : ConsumerPc α β}
    (hc : s.consumer c = pc) : Agrees pc (s.history.tickets.phase c) := hc ▸ h.agrees c

/-- A claimed index is one that was enqueued. -/
theorem Counters.claimed_lt (h : Counters s) {c : C} {i : ℕ}
    (hi : s.history.tickets.phase c = .claimed i) : i < s.history.enqueued.length := by
  have hlt : Tickets.Ok s.history.tickets (.claimed i) := hi ▸ h.tickets.ok c
  exact (hlt.trans_le h.tickets.claims_le).trans_eq h.produced

theorem ofNat_succ' (n : ℕ) : UInt64.ofNat (n + 1) = UInt64.ofNat n + 1 := by
  rw [Circular.ofNat_succ, UInt64.add_comm]

/-- Compared as they are, counter and tail never let a consumer past the tail. -/
theorem lt_of_circularLessThan (h : Counters s) (hn : TicketsNear s) {c : C} {n k : ℕ}
    (hp : s.history.tickets.phase c = .ticket n k)
    (hl : circularLessThan (.ofNat k - .ofNat n) s.tailIndex) :
    k < n + s.history.enqueued.length := by
  obtain ⟨hle, -, -, -⟩ : Tickets.Ok s.history.tickets (.ticket n k) := hp ▸ h.tickets.ok c
  have hnk : n ≤ k := hle.trans (Tickets.card_lostBelow_le _ k)
  have hnear := hn c n k hp
  rw [h.tailIndex, Circular.ofNat_sub hnk] at hl
  by_contra hge
  have hiff := circularLessThan_ofNat (m := k - n) (n := s.history.enqueued.length) (by omega)
    (by omega)
  have := hiff.mp hl
  omega

variable [DecidableEq C]

/-- `c` moves and so does its ticket. -/
theorem agrees_update {consumer : C → ConsumerPc α β} {phase : C → Tickets.Phase} {c : C}
    {pc : ConsumerPc α β} {p : Tickets.Phase} (h : ∀ c, Agrees (consumer c) (phase c))
    (hc : Agrees pc p) :
    ∀ c', Agrees (Function.update consumer c pc c') (Function.update phase c p c') := by
  intro c'
  rcases eq_or_ne c' c with rfl | hne
  · simpa using hc
  · simpa [Function.update_of_ne hne] using h c'

theorem agrees_move {consumer : C → ConsumerPc α β} {phase : C → Tickets.Phase} {c : C}
    {pc : ConsumerPc α β} (h : ∀ c, Agrees (consumer c) (phase c)) (hc : Agrees pc (phase c)) :
    ∀ c', Agrees (Function.update consumer c pc c') (phase c') := by
  have := agrees_update (c := c) h hc
  rwa [Function.update_eq_self] at this

variable [DecidableEq β] {noexceptCtor : Bool} {a : Label α C}

theorem counters_step (hs : Step noexceptCtor s a t) (h : Counters s) (hn : TicketsNear s) :
    Counters t := by
  cases hs with
  | call | boundary | insert | insertNull | key | growFailed | grow | grown | tail | requisition
  | requisitionFailed | rewind | nullify | giveUp | link | fill | fillThrows | linkFilled
  | construct | constructThrows => exact { h with }
  | publish hp =>
    refine { h with tickets := h.tickets.produce, produced := ?_, tailIndex := ?_ }
    · simp [History.publish, Tickets.State.produce, h.produced]
    · simp [History.publish, h.tailIndex, Circular.ofNat_succ]
  | start hc | readTail hc | optimistic hc | readHeader hc | readHeaderTail hc
  | readKey hc | readValue hc | move hc | destroy hc =>
    have hp := h.of_pc hc
    exact { h with agrees := agrees_move h.agrees hp }
  | @readOvercommit c _ hc =>
    have hinv := h.tickets.read c
    have hp := h.of_pc hc
    simp only [State.withTickets, State.toConsumer, Tickets.State.read_eq hp] at hinv ⊢
    exact { h with tickets := hinv, agrees := agrees_update h.agrees ⟨_, rfl, h.overcommit⟩ }
  | @hopeless c _ _ hc hl =>
    have hinv := h.tickets.leave c
    obtain ⟨n, hp, -⟩ := h.of_pc hc
    simp only [State.withTickets, State.toConsumer, Tickets.State.leave_eq hp] at hinv ⊢
    exact { h with tickets := hinv, agrees := agrees_update h.agrees rfl }
  | @count c _ hc =>
    have hinv := h.tickets.draw c
    obtain ⟨n, hp, ho⟩ := h.of_pc hc
    simp only [State.withTickets, State.toConsumer, Tickets.State.draw_eq hp] at hinv ⊢
    refine { h with tickets := hinv, optimisticCount := ?_, agrees := ?_ }
    · rw [ofNat_succ', ← h.optimisticCount]
    · exact agrees_update h.agrees ⟨n, _, rfl, ho, h.optimisticCount⟩
  | @grant c _ _ hc hl =>
    obtain ⟨n, k, hp, rfl, rfl⟩ := h.of_pc hc
    have hlt := lt_of_circularLessThan h hn hp hl
    have hinv := h.tickets.grant hp (h.produced.symm ▸ hlt)
    simp only [State.withTickets, State.toConsumer, Tickets.State.grant_eq hp] at hinv ⊢
    exact { h with tickets := hinv, agrees := agrees_update h.agrees ⟨_, rfl⟩ }
  | @refuse c _ _ hc hl =>
    have hinv := h.tickets.refuse c
    obtain ⟨n, k, hp, -, -⟩ := h.of_pc hc
    simp only [State.withTickets, State.toConsumer, Tickets.State.refuse_eq hp] at hinv ⊢
    exact { h with tickets := hinv, agrees := agrees_update h.agrees ⟨_, rfl⟩ }
  | @giveBack c hc =>
    have hinv := h.tickets.giveBack c
    obtain ⟨k, hp⟩ := h.of_pc hc
    simp only [State.withTickets, State.toConsumer, Tickets.State.giveBack_eq hp] at hinv ⊢
    refine { h with tickets := hinv, overcommit := ?_, agrees := agrees_update h.agrees rfl }
    rw [ofNat_succ', ← h.overcommit]
  | @claim c hc =>
    have hinv := h.tickets.claim c
    obtain ⟨k, hp⟩ := h.of_pc hc
    simp only [State.withTickets, State.toConsumer, Tickets.State.claim_eq hp] at hinv ⊢
    refine { h with tickets := hinv, headIndex := ?_, agrees := ?_ }
    · rw [ofNat_succ', ← h.headIndex]
    · exact agrees_update h.agrees ⟨_, rfl, h.headIndex⟩
  | @setEmpty c _ _ _ _ hc hb =>
    obtain ⟨n, hp, hi⟩ := h.of_pc hc
    simp only [History.finish, hp]
    exact { h with agrees := agrees_move h.agrees ⟨n, hp⟩ }
  | @setEmptyLast c _ _ _ _ hc hb =>
    obtain ⟨n, hp, hi⟩ := h.of_pc hc
    simp only [History.finish, hp]
    exact { h with agrees := agrees_move h.agrees ⟨n, hp, hi⟩ }
  | @unlink c _ _ _ _ hc =>
    obtain ⟨n, hp, hi⟩ := h.of_pc hc
    simp only [History.unlink, hp]
    exact { h with agrees := agrees_move h.agrees ⟨n, hp, hi⟩ }
  | @recycle c _ _ _ hc =>
    obtain ⟨n, hp, -⟩ := h.of_pc hc
    exact { h with agrees := agrees_move h.agrees ⟨n, hp⟩ }
  | @ret c result hc =>
    have hinv := h.tickets.release c
    cases result with
    | none =>
      have hp := h.of_pc hc
      have hsame : s.history.tickets.release c = s.history.tickets := by
        simp only [Tickets.State.release]
        split
        case h_1 hp' => simp [Agrees, hp'] at hp
        case h_2 => rfl
      simp only [State.withTickets, State.toConsumer, hsame]
      exact { h with agrees := agrees_move h.agrees hp }
    | some x =>
      obtain ⟨n, hp⟩ := h.of_pc hc
      simp only [State.withTickets, State.toConsumer, Tickets.State.release_eq hp] at hinv ⊢
      exact { h with tickets := hinv, agrees := agrees_update h.agrees rfl }

/-! ### The capacity check -/

/-- The producer works on the first index of a block. -/
def ProducerPc.AtFirst : ProducerPc α β → Prop
  | .boundary _ | .insert _ | .grow _ | .grown _ | .key _ _ _ | .tail _ _ _ | .requisition _ _
  | .rewind _ _ | .nullify _ _ | .giveUp _ | .ready _ _ _ | .filled _ _ _ => True
  | .idle | .construct _ | .publish _ => False

/-- The producer has passed the comparison of head and tail, or did so earlier in this block. -/
def ProducerPc.Admitted : ProducerPc α β → Prop
  | .idle | .boundary _ => False
  | _ => True

/-- Fewer than 2^63 elements are ever in the queue. -/
structure Room (s : State α β C) : Prop where
  first : s.producer.AtFirst → s.history.enqueued.length % 32 = 0
  near : s.history.enqueued.length < s.history.tickets.claims + 2 ^ 63
  block : s.history.enqueued.length % 32 ≠ 0 ∨ s.producer.Admitted →
    32 * (s.history.enqueued.length / 32) + 32 < s.history.tickets.claims + 2 ^ 63

omit [DecidableEq β] [DecidableEq C] in
theorem room_initial (h : Initial s) : Room s := by
  obtain ⟨blocks, entries, junk, rfl | rfl⟩ := h
  all_goals
    refine ⟨nofun, ?_, ?_⟩
    · simp only [List.length_nil]
      omega
    · rintro (hne | had)
      · exact (hne rfl).elim
      · exact had.elim

omit [DecidableEq β] [DecidableEq C]

theorem and_eq_zero_iff (n : ℕ) : UInt64.ofNat n &&& (blockSize - 1) = 0 ↔ n % 32 = 0 := by
  rw [← slot_ofNat, slot, ← UInt64.toNat_inj]
  rfl

/-- `!circular_less_than(head, currentTailIndex + BLOCK_SIZE)` is false exactly while a whole block
more stays within half of the index range. -/
theorem admitted_iff (hc : Counters s) (h : Room s) :
    circularLessThan s.headIndex (s.tailIndex + blockSize) = true ↔
      s.history.enqueued.length + 32 < s.history.tickets.claims + 2 ^ 63 := by
  have hle := hc.tickets.claims_le
  have hnear := h.near
  rw [hc.produced] at hle
  have htail : s.tailIndex + blockSize = .ofNat (s.history.enqueued.length + 32) := by
    rw [hc.tailIndex, UInt64.ofNat_add]
    rfl
  rw [htail, hc.headIndex, circularLessThan_iff, Circular.two_pow_lt_sub_iff_near (by omega)
    (by omega)]
  omega

/-- Where nothing is enqueued, more claims only make room. -/
theorem Room.mono (h : Room s) (he : t.history.enqueued = s.history.enqueued)
    (hp : t.producer = s.producer)
    (hc : s.history.tickets.claims ≤ t.history.tickets.claims) : Room t := by
  obtain ⟨h₁, h₂, h₃⟩ := h
  refine ⟨?_, ?_, ?_⟩
  · rwa [he, hp]
  · rw [he]
    omega
  · intro hor
    rw [he, hp] at hor
    have := h₃ hor
    rw [he]
    omega

/-- The producer moves on without publishing. -/
theorem Room.of_producer (h : Room s) (he : t.history.enqueued = s.history.enqueued)
    (hc : t.history.tickets.claims = s.history.tickets.claims)
    (hf : t.producer.AtFirst → s.history.enqueued.length % 32 = 0)
    (ha : t.producer.Admitted → s.history.enqueued.length % 32 ≠ 0 ∨ s.producer.Admitted) :
    Room t := by
  refine ⟨he ▸ hf, ?_, ?_⟩
  · rw [he, hc]
    exact h.near
  · rw [he, hc]
    exact fun hor => h.block (hor.elim .inl ha)

variable [DecidableEq β] [DecidableEq C]

theorem room_step (hs : Step noexceptCtor s a t) (hc : Counters s) (h : Room s) : Room t := by
  cases hs with
  | call x hp =>
    have hmod : s.tailIndex &&& (blockSize - 1) = 0 ↔ s.history.enqueued.length % 32 = 0 := by
      rw [hc.tailIndex, and_eq_zero_iff]
    by_cases hzero : s.tailIndex &&& (blockSize - 1) = 0
    · rw [if_pos hzero]
      exact h.of_producer rfl rfl (fun _ => hmod.mp hzero) fun hx => hx.elim
    · rw [if_neg hzero]
      exact h.of_producer rfl rfl (fun hx => hx.elim) fun _ => .inl (mt hmod.mpr hzero)
  | @boundary x hp =>
    have hfirst : s.history.enqueued.length % 32 = 0 := h.first (by simp [hp, ProducerPc.AtFirst])
    by_cases had : circularLessThan s.headIndex (s.tailIndex + blockSize)
    · rw [if_pos had]
      have hroom := (admitted_iff hc h).mp had
      refine ⟨fun _ => hfirst, h.near, fun _ => ?_⟩
      simp only [State.toProducer]
      omega
    · rw [if_neg had]
      exact h.of_producer rfl rfl (fun hx => hx.elim) fun hx => hx.elim
  | insert hp hh he =>
    refine h.of_producer rfl rfl (fun _ => h.first ?_) (fun _ => .inr ?_) <;>
      simp [hp, ProducerPc.AtFirst, ProducerPc.Admitted]
  | publish hp =>
    have hblock := h.block (.inr (by simp [hp, ProducerPc.Admitted]))
    refine ⟨fun hx => hx.elim, ?_, ?_⟩
    · simp only [History.publish, Tickets.State.produce, List.length_append, List.length_singleton]
      omega
    · simp only [History.publish, Tickets.State.produce, List.length_append, List.length_singleton]
      rintro (hne | had)
      · omega
      · exact had.elim
  | nullify hp =>
    refine h.of_producer rfl rfl (fun _ => h.first ?_) (fun _ => .inr ?_) <;>
      simp [hp, ProducerPc.AtFirst, ProducerPc.Admitted]
  | insertNull | growFailed | giveUp | constructThrows =>
    exact h.of_producer rfl rfl (fun hx => hx.elim) fun hx => hx.elim
  | key hp | grow _ hp | grown hp | tail hp | requisition _ _ hp | requisitionFailed hp | rewind hp
  | fill _ hp | fillThrows _ hp =>
    refine h.of_producer rfl rfl (fun _ => h.first ?_) (fun _ => .inr ?_) <;>
      simp [hp, ProducerPc.AtFirst, ProducerPc.Admitted]
  | link _ hp | linkFilled hp | construct hp =>
    exact h.of_producer rfl rfl (fun hx => hx.elim) fun _ =>
      .inr (by simp [hp, ProducerPc.Admitted])
  | start | readTail | optimistic | readHeader | readHeaderTail | readKey | readValue | move
  | destroy | recycle => exact h.mono rfl rfl le_rfl
  | readOvercommit | hopeless | count | grant | refuse | giveBack | ret =>
    refine h.mono rfl rfl (le_of_eq (Eq.symm ?_))
    simp [State.withTickets, State.toConsumer]
  | claim => exact h.mono rfl rfl (Tickets.State.le_claims_claim _ _)
  | setEmpty | setEmptyLast | unlink =>
    refine h.mono ?_ rfl (le_of_eq (Eq.symm ?_)) <;> simp

end NodesDetector.Queue
