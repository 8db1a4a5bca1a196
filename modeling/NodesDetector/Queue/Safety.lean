import NodesDetector.Queue.Near

/-! What never goes wrong in an implicit producer: its assertions, its pointers, its slots and the
blocks it gives back. -/
namespace NodesDetector.Queue

variable {α β C : Type}

/-- The assertions of `enqueue`, `dequeue`, `set_empty` and the block index, where they stand. The
one on `overcommit` compares two counters that wrap; `copied` is that of the loop that copies the
index, however many turns the loop may take. -/
structure Asserts (s : State α β C) : Prop where
  boundary : ∀ x, s.producer = .boundary x → circularLessThan s.tailIndex s.headIndex = false
  copied : ∀ x prev n, s.producer = .grow x → s.index.headers.getLast? = some prev →
    prev.capacity.toNat ≤ n → (copyFrom prev n prev.tail).length = prev.capacity.toNat
  grown : ∀ x header, s.producer = .grown x → s.index.headers.getLast? = some header →
    (s.index.entries (header.entry header.newTail)).key = invalidBlockBase
  overcommit : ∀ c overcommit myDequeueCount, s.consumer c = .counted overcommit myDequeueCount →
    s.history.tickets.tickets ≤ 2 ^ 64 → overcommit ≤ myDequeueCount
  tailBase : ∀ c i h tail header, s.consumer c = .tail i h tail →
    s.index.headers[h]? = some header →
    (s.index.entries (header.entry tail)).key ≠ invalidBlockBase
  entry : ∀ c i e, s.consumer c = .entry i e →
    (s.index.entries e).key = i &&& ~~~(blockSize - 1) ∧ (s.index.entries e).value ≠ none
  setEmpty : ∀ c i e b x, s.consumer c = .destroyed i e b x →
    (s.blocks b).elementsCompletelyDequeued < blockSize

variable {noexceptCtor : Bool} {s t : State α β C} {a : Label α C} {c c' : C}

/-- Without an index nobody has claimed anything. -/
theorem Inv.lookup_of_claimed (h : Inv noexceptCtor s) {i : ℕ}
    (hp : s.history.tickets.phase c = .claimed i) :
    ∃ header k, Lookup s.index s.history s.producer s.consumer header k := by
  refine h.lookup.resolve_left fun hno => ?_
  have hlt := h.counters.claimed_lt hp
  simp [hno.enqueued] at hlt

/-- The producer uses its index only when it has one. -/
theorem Inv.lookup_of_producer (h : Inv noexceptCtor s) (hi : s.producer ≠ .idle)
    (hb : ∀ x, s.producer ≠ .boundary x) (hins : ∀ x, s.producer ≠ .insert x) :
    ∃ header k, Lookup s.index s.history s.producer s.consumer header k := by
  refine h.lookup.resolve_left fun hno => ?_
  rcases hno.producer with hp | ⟨x, hp⟩ | ⟨x, hp⟩
  · exact hi hp
  · exact hb x hp
  · exact hins x hp

theorem Inv.asserts (h : Inv noexceptCtor s) : Asserts s := by
  refine ⟨?_, ?_, ?_, ?_, ?_, ?_, ?_⟩
  · intro x hp
    have hle := h.counters.tickets.claims_le
    have hroom := h.room.near
    rw [h.counters.produced] at hle
    rw [h.counters.tailIndex, h.counters.headIndex, Bool.eq_false_iff, Ne,
      circularLessThan_ofNat (by omega) (by omega)]
    omega
  · intro x prev n hp hh hn
    obtain ⟨header, k, hl⟩ := h.lookup_of_producer (by simp [hp]) (by simp [hp]) (by simp [hp])
    obtain rfl := Option.some.inj (hh.symm.trans hl.entries.getLast)
    exact copyFrom_length hl.entries.ring hn
  · intro x header hp hh
    obtain ⟨header', k, hl⟩ := h.lookup_of_producer (by simp [hp]) (by simp [hp]) (by simp [hp])
    obtain rfl := Option.some.inj (hh.symm.trans hl.entries.getLast)
    have hprod := hl.producer
    rw [hp] at hprod
    obtain ⟨-, -, hkey⟩ := hprod
    rw [hl.entries.ring.entry_newTail]
    exact hkey
  · intro c o m hp ht
    obtain ⟨n, k, hph, rfl, rfl⟩ := h.counters.of_pc hp
    obtain ⟨hle, -, -, hlt⟩ : Tickets.Ok s.history.tickets (.ticket n k) :=
      hph ▸ h.counters.tickets.ok c
    have hnk := Tickets.card_lostBelow_le s.history.tickets k
    rw [UInt64.le_iff_toNat_le, UInt64.toNat_ofNat', UInt64.toNat_ofNat',
      Nat.mod_eq_of_lt (by omega), Nat.mod_eq_of_lt (by omega)]
    omega
  · intro c i h' tail old hp hh
    obtain ⟨n, hph, -⟩ := h.counters.of_pc hp
    obtain ⟨header, k, hl⟩ := h.lookup_of_claimed hph
    obtain ⟨m, -, -, -, -, -, -, hkey⟩ := h.lookup_tail hl hph hp hh
    rw [hkey]
    exact ofNat_mul_ne_invalidBlockBase m
  · intro c i e hp
    obtain ⟨n, hph, rfl⟩ := h.counters.of_pc hp
    obtain ⟨header, k, hl⟩ := h.lookup_of_claimed hph
    obtain ⟨rfl, x, hx, hvalue⟩ := h.lookup_value hl hph hp
    have hlive : s.history.Live (n / 32) := ⟨x, hx⟩
    rw [hl.entries.keys _ _ hlive le_rfl (hl.entries.live_lt _ hlive), and_not_blockSize, hvalue]
    exact ⟨rfl, nofun⟩
  · intro c i e b x hp
    obtain ⟨n, hph, -⟩ := h.counters.of_pc hp
    have hblock := h.found c n b hph (by rw [hp]; rfl)
    have hnot := h.finishing.reading c n hph (by rw [hp]; trivial)
    have hlt := card_finishedIn_lt hnot
    rw [h.storage.counter _ b hblock, UInt64.lt_iff_toNat_lt, UInt64.toNat_ofNat',
      Nat.mod_eq_of_lt (by omega)]
    exact hlt

variable [DecidableEq β] [DecidableEq C]

/-- No assertion of the source fails, however the threads interleave; the one on `overcommit` while
at most 2^64 tickets were drawn. -/
theorem asserts_hold (h : Transition.Reachable (NearStep noexceptCtor) Initial s) : Asserts s :=
  (reachable_inv h).asserts

/-- In the middle of things: the producer is in its second `enqueue`, one consumer has found the
entry of its index, the other has drawn the second ticket. -/
theorem middle_run : ∃ t,
    Transition.Run (Step true) fresh [.call 7, .producer, .producer, .producer, .producer,
      .producer, .producer, .producer, .publish 7, .call 8, .start true, .consumer true,
      .consumer true, .consumer true, .start false, .consumer false, .consumer false,
      .consumer false, .consumer true, .consumer false, .consumer true, .claim true,
      .consumer true, .consumer true, .consumer true] t ∧
    t.producer = .construct 8 ∧ t.consumer true = .entry 0 0 ∧ t.consumer false = .counted 0 1 ∧
      t.history.tickets.tickets = 2 := by
  apply Transition.Run.exists_stepL (.call 7 rfl)
  apply Transition.Run.exists_stepL (.boundary (x := 7) rfl)
  apply Transition.Run.exists_stepL (.insert (x := 7) rfl rfl rfl)
  apply Transition.Run.exists_stepL (.key (x := 7) rfl)
  apply Transition.Run.exists_stepL (.tail (x := 7) rfl)
  apply Transition.Run.exists_stepL
    (.requisition () ⟨fun _ => none, 0⟩ (x := 7) rfl (Set.notMem_empty ()))
  apply Transition.Run.exists_stepL (.link (x := 7) rfl rfl)
  apply Transition.Run.exists_stepL (.construct (x := 7) rfl rfl)
  apply Transition.Run.exists_stepL (.publish (x := 7) rfl)
  apply Transition.Run.exists_stepL (.call 8 rfl)
  apply Transition.Run.exists_stepL (.start rfl)
  apply Transition.Run.exists_stepL (.readTail rfl)
  apply Transition.Run.exists_stepL (.readOvercommit rfl)
  apply Transition.Run.exists_stepL (.optimistic rfl rfl)
  apply Transition.Run.exists_stepL (.start rfl)
  apply Transition.Run.exists_stepL (.readTail rfl)
  apply Transition.Run.exists_stepL (.readOvercommit rfl)
  apply Transition.Run.exists_stepL (.optimistic rfl rfl)
  apply Transition.Run.exists_stepL (.count rfl)
  apply Transition.Run.exists_stepL (.count rfl)
  apply Transition.Run.exists_stepL (.grant rfl rfl)
  apply Transition.Run.exists_stepL (.claim rfl)
  apply Transition.Run.exists_stepL (.readHeader rfl nofun)
  apply Transition.Run.exists_stepL (.readHeaderTail rfl rfl)
  apply Transition.Run.exists_stepL (.readKey rfl rfl)
  exact ⟨_, .refl, rfl, rfl, rfl, rfl⟩

theorem asserts_hold_first : ∃ s : State ℕ Unit Bool,
    s.consumer true = .entry 0 0 ∧ s.consumer false = .counted 0 1 ∧
      s.history.tickets.tickets ≤ 2 ^ 64 ∧ Asserts s := by
  obtain ⟨s, hs, -, hentry, hcounted, ht⟩ := middle_run
  exact ⟨s, hentry, hcounted, by rw [ht]; decide,
    asserts_hold ⟨_, _, fresh_initial, run_near fresh_initial hs (by simp)⟩⟩

/-! ### Every pointer that is followed is good -/

/-- A step of consumer `c`. -/
def Label.By (c : C) (a : Label α C) : Prop :=
  a = .start c ∨ a = .consumer c ∨ a = .claim c ∨ ∃ result, a = .ret c result

theorem Inv.consumer_not_stuck (h : Inv noexceptCtor s) (c : C) :
    ∃ a t, a.By c ∧ Step noexceptCtor s a t := by
  have hby : (Label.consumer c : Label α C).By c := .inr (.inl rfl)
  cases hp : s.consumer c with
  | idle => exact ⟨_, _, .inl rfl, .start hp⟩
  | start => exact ⟨_, _, hby, .readTail hp⟩
  | tailRead t => exact ⟨_, _, hby, .readOvercommit hp⟩
  | overcommitRead t o =>
    by_cases hl : circularLessThan (s.dequeueOptimisticCount - o) t
    · exact ⟨_, _, hby, .optimistic hp hl⟩
    · exact ⟨_, _, hby, .hopeless hp hl⟩
  | optimistic o => exact ⟨_, _, hby, .count hp⟩
  | counted o m =>
    by_cases hl : circularLessThan (m - o) s.tailIndex
    · exact ⟨_, _, hby, .grant hp hl⟩
    · exact ⟨_, _, hby, .refuse hp hl⟩
  | granted => exact ⟨_, _, .inr (.inr (.inl rfl)), .claim hp⟩
  | refused => exact ⟨_, _, hby, .giveBack hp⟩
  | index i =>
    obtain ⟨n, hph, -⟩ := h.counters.of_pc hp
    obtain ⟨header, k, hl⟩ := h.lookup_of_claimed hph
    exact ⟨_, _, hby, .readHeader hp hl.entries.headers_ne_nil⟩
  | header i h' =>
    obtain ⟨n, hph, -⟩ := h.counters.of_pc hp
    obtain ⟨header, k, hl⟩ := h.lookup_of_claimed hph
    have hok : ConsumerOk s.index s.history header s.producer (.header i h') n :=
      hp ▸ hl.consumers c n hph
    obtain ⟨old, hold, -⟩ := hok
    exact ⟨_, _, hby, .readHeaderTail hp hold⟩
  | tail i h' t =>
    obtain ⟨n, hph, -⟩ := h.counters.of_pc hp
    obtain ⟨header, k, hl⟩ := h.lookup_of_claimed hph
    have hok : ConsumerOk s.index s.history header s.producer (.tail i h' t) n :=
      hp ▸ hl.consumers c n hph
    obtain ⟨old, -, hold, -⟩ := hok
    exact ⟨_, _, hby, .readKey hp hold⟩
  | entry i e =>
    obtain ⟨n, hph, -⟩ := h.counters.of_pc hp
    obtain ⟨header, k, hl⟩ := h.lookup_of_claimed hph
    obtain ⟨-, x, -, hvalue⟩ := h.lookup_value hl hph hp
    exact ⟨_, _, hby, .readValue hp hvalue⟩
  | block i e b =>
    obtain ⟨n, hph, -⟩ := h.counters.of_pc hp
    obtain ⟨hlt, hslot⟩ := h.contents.read h.counters h.finishing h.found hp hph
    rw [List.getElem?_eq_getElem hlt] at hslot
    exact ⟨_, _, hby, .move hp hslot⟩
  | moved i e b x => exact ⟨_, _, hby, .destroy hp⟩
  | destroyed i e b x =>
    cases hb : (s.blocks b).setEmpty.1 with
    | false => exact ⟨_, _, hby, .setEmpty hp hb⟩
    | true => exact ⟨_, _, hby, .setEmptyLast hp hb⟩
  | emptied i e b x => exact ⟨_, _, hby, .unlink hp⟩
  | recycle i b x => exact ⟨_, _, hby, .recycle hp⟩
  | done result => exact ⟨_, _, .inr (.inr (.inr ⟨result, rfl⟩)), .ret hp⟩

/-- A consumer, or the producer (`none`), is about to construct, move from or destroy the object in
a slot of a block. -/
inductive Accesses (s : State α β C) : Option C → β → ℕ → Prop
  | move {c : C} {i : Index} {e : ℕ} {b : β} (hc : s.consumer c = .block i e b) :
      Accesses s (some c) b (slot i)
  | destroy {c : C} {i : Index} {e : ℕ} {b : β} {x : α} (hc : s.consumer c = .moved i e b x) :
      Accesses s (some c) b (slot i)
  | fill {x : α} {e : ℕ} {b : β} (hp : s.producer = .ready x e b) :
      Accesses s none b (slot s.tailIndex)
  | construct {x : α} {b : β} (hp : s.producer = .construct x) (hb : s.tailBlock = some b) :
      Accesses s none b (slot s.tailIndex)

variable {b : β} {n : ℕ}

omit [DecidableEq β] [DecidableEq C] in
/-- A consumer is in the slot of the index it claimed. -/
theorem Inv.access_consumer (h : Inv noexceptCtor s) (ha : Accesses s (some c) b n) :
    ∃ i, s.history.tickets.phase c = .claimed i ∧ s.history.blockOf (i / 32) = some b ∧
      i % 32 = n := by
  cases ha with
  | move hc =>
    obtain ⟨i, hp, rfl⟩ := h.counters.of_pc hc
    exact ⟨i, hp, h.found c i b hp (by rw [hc]; rfl), (slot_ofNat i).symm⟩
  | destroy hc =>
    obtain ⟨i, hp, rfl⟩ := h.counters.of_pc hc
    exact ⟨i, hp, h.found c i b hp (by rw [hc]; rfl), (slot_ofNat i).symm⟩

omit [DecidableEq β] [DecidableEq C] in
/-- The producer is in the slot of the next index. -/
theorem Inv.access_producer (h : Inv noexceptCtor s) (ha : Accesses s none b n) :
    s.history.enqueued.length % 32 = n ∧
      (s.history.blockOf (s.history.enqueued.length / 32) = some b ∨
        ∀ m, s.history.blockOf m ≠ some b) := by
  cases ha with
  | fill hp =>
    rw [h.counters.tailIndex, slot_ofNat]
    exact ⟨rfl, .inr (h.storage.spare b (by rw [hp]; rfl)).2⟩
  | construct hp hb =>
    obtain ⟨b', hb', hlinked⟩ := h.storage.tailBlock (.inr (by rw [hp]; trivial))
    obtain rfl := Option.some.inj (hb.symm.trans hb')
    rw [h.counters.tailIndex, slot_ofNat]
    exact ⟨rfl, .inl hlinked⟩

omit [DecidableEq β] [DecidableEq C] in
theorem Inv.access_ne (h : Inv noexceptCtor s) (ha : Accesses s (some c) b n)
    (ha' : Accesses s none b n) : False := by
  obtain ⟨i, hp, hb, hi⟩ := h.access_consumer ha
  obtain ⟨hT, hb'⟩ := h.access_producer ha'
  have hlt := h.counters.claimed_lt hp
  rcases hb' with hb' | hb'
  · have := h.storage.inj _ _ b hb hb'
    omega
  · exact hb' _ hb

omit [DecidableEq β] [DecidableEq C] in
theorem Inv.access_exclusive (h : Inv noexceptCtor s) {p p' : Option C} (ha : Accesses s p b n)
    (ha' : Accesses s p' b n) : p = p' := by
  cases p with
  | none =>
    cases p' with
    | none => rfl
    | some c' => exact (h.access_ne ha' ha).elim
  | some c =>
    cases p' with
    | none => exact (h.access_ne ha ha').elim
    | some c' =>
      obtain ⟨i, hp, hb, hi⟩ := h.access_consumer ha
      obtain ⟨i', hp', hb', hi'⟩ := h.access_consumer ha'
      have hdiv := h.storage.inj _ _ b hb hb'
      obtain rfl : i = i' := by omega
      exact congrArg some (h.counters.tickets.claimed_inj c c' i hp hp')

/-- The block a party is about to call `add_block_to_free_list` with. -/
def State.gives (s : State α β C) : Option C → Option β
  | some c => (s.consumer c).freed
  | none =>
    match s.producer with
    | .giveUp b => some b
    | _ => none

/-- A party has a block that it got by `requisition_block` or found through the index. -/
def State.Holds (s : State α β C) : Option C → β → Prop
  | some c, b => (s.consumer c).found = some b ∨ (s.consumer c).freed = some b
  | none, b => s.producer.newBlock = some b ∨ s.producer.Linked ∧ s.tailBlock = some b

omit [DecidableEq β] [DecidableEq C] in
/-- What a consumer has found is in the index. -/
theorem Inv.blockOf_of_found (h : Inv noexceptCtor s) (hb : (s.consumer c).found = some b) :
    ∃ m, s.history.blockOf m = some b := by
  have hag := h.counters.agrees c
  have hp : ∃ i, s.history.tickets.phase c = .claimed i := by
    generalize s.consumer c = pc at hb hag
    cases pc with
    | block | moved | destroyed | emptied =>
      obtain ⟨i, hi, -⟩ := hag
      exact ⟨i, hi⟩
    | _ => cases hb
  obtain ⟨i, hi⟩ := hp
  exact ⟨_, h.found c i b hi hb⟩

/-- The block is in an entry of the current header, or in one that a consumer is about to read. The
value of an entry means nothing before the producer is done with it. -/
def State.Indexed (s : State α β C) (b : β) : Prop :=
  (∃ header e, s.index.headers.getLast? = some header ∧ e ∈ header.index ∧
    (s.index.entries e).key ≠ invalidBlockBase ∧ s.producer.pending ≠ some e ∧
    (s.index.entries e).value = some b) ∨
  ∃ c i e, s.consumer c = .entry i e ∧ (s.index.entries e).value = some b

omit [DecidableEq β] [DecidableEq C] in
/-- What the entries say is what was linked and not taken out again. -/
theorem Inv.blockOf_of_indexed (h : Inv noexceptCtor s) (hb : s.Indexed b) :
    ∃ m, s.history.blockOf m = some b := by
  rcases hb with ⟨header, e, hh, he, hkey, hpending, hvalue⟩ | ⟨c, i, e, hc, hvalue⟩
  · rcases h.lookup with hno | ⟨header', k, hl⟩
    · rw [hno.headers] at hh
      cases hh
    · obtain rfl := Option.some.inj (hh.symm.trans hl.entries.getLast)
      obtain ⟨m, ⟨x, hx⟩, rfl⟩ := hl.dead e he hkey (by simp [hvalue]) hpending
      obtain rfl := Option.some.inj (hvalue.symm.trans (hl.entries.values m x hx))
      exact ⟨m, hx⟩
  · obtain ⟨n, hp, -⟩ := h.counters.of_pc hc
    obtain ⟨header, k, hl⟩ := h.lookup_of_claimed hp
    obtain ⟨-, x, hx, hvalue'⟩ := h.lookup_value hl hp hc
    obtain rfl := Option.some.inj (hvalue.symm.trans hvalue')
    exact ⟨_, hx⟩

omit [DecidableEq β] [DecidableEq C] in
/-- A block goes back when it is out of the index and nobody else has it. -/
theorem Inv.gives_unused (h : Inv noexceptCtor s) {p : Option C} (hg : s.gives p = some b) :
    b ∈ s.owned ∧ ¬ s.Indexed b ∧ ∀ p', s.Holds p' b → p' = p := by
  have hfound : (∀ m, s.history.blockOf m ≠ some b) → ∀ c, (s.consumer c).found ≠ some b := by
    intro hb c hc
    obtain ⟨m, hm⟩ := h.blockOf_of_found hc
    exact hb m hm
  have hindexed : (∀ m, s.history.blockOf m ≠ some b) → ¬ s.Indexed b := by
    intro hb hi
    obtain ⟨m, hm⟩ := h.blockOf_of_indexed hi
    exact hb m hm
  cases p with
  | some c =>
    obtain ⟨howned, hb, hnew⟩ := h.storage.freed c b hg
    refine ⟨howned, hindexed hb, ?_⟩
    rintro (_ | c') (hold | hold)
    · exact (hnew hold).elim
    · obtain ⟨x, hx, hlinked⟩ := h.storage.tailBlock (.inr hold.1)
      obtain rfl := Option.some.inj (hold.2.symm.trans hx)
      exact (hb _ hlinked).elim
    · exact (hfound hb c' hold).elim
    · exact congrArg some (h.storage.freed_inj c' c b hold hg)
  | none =>
    have hp : s.producer = .giveUp b := by
      simp only [State.gives] at hg
      split at hg
      case h_1 hp => rw [hp, Option.some.inj hg]
      case h_2 => cases hg
    have hnew : s.producer.newBlock = some b := by rw [hp]; rfl
    obtain ⟨howned, hb⟩ := h.storage.spare b hnew
    refine ⟨howned, hindexed hb, ?_⟩
    rintro (_ | c') (hold | hold)
    · rfl
    · rfl
    · exact (hfound hb c' hold).elim
    · exact ((h.storage.freed c' b hold).2.2 hnew).elim

/-- No two threads are in the same slot of a block, and a block goes back to the free list when it
is out of the index and nobody else has it: once. -/
theorem blocks_exclusive (h : Transition.Reachable (NearStep noexceptCtor) Initial s) :
    (∀ p p' b n, Accesses s p b n → Accesses s p' b n → p = p') ∧
      ∀ p b, s.gives p = some b → b ∈ s.owned ∧ ¬ s.Indexed b ∧ ∀ p', s.Holds p' b → p' = p :=
  ⟨fun _ _ _ _ => (reachable_inv h).access_exclusive, fun _ _ => (reachable_inv h).gives_unused⟩

/-- The first element cannot be copied and its block goes back; the second gets in, and is about to
be moved out while the producer is about to construct the third. -/
theorem thrown_run : ∃ s,
    Transition.Run (Step false) fresh [.call 7, .producer, .producer, .producer, .producer,
      .producer, .producer, .producer, .producer] s ∧ s.gives none = some () ∧
    ∃ t, Transition.Run (Step false) s [.producer, .call 8, .producer, .producer, .producer,
      .producer, .producer, .producer, .producer, .publish 8, .call 9, .start true,
      .consumer true, .consumer true, .consumer true, .consumer true, .consumer true, .claim true,
      .consumer true, .consumer true, .consumer true, .consumer true] t ∧
    t.consumer true = .block 0 0 () ∧ t.producer = .construct 9 ∧ t.tailBlock = some () ∧
      t.tailIndex = 1 := by
  apply Transition.Run.exists_stepL (.call 7 rfl)
  apply Transition.Run.exists_stepL (.boundary (x := 7) rfl)
  apply Transition.Run.exists_stepL (.insert (x := 7) rfl rfl rfl)
  apply Transition.Run.exists_stepL (.key (x := 7) rfl)
  apply Transition.Run.exists_stepL (.tail (x := 7) rfl)
  apply Transition.Run.exists_stepL
    (.requisition () ⟨fun _ => none, 0⟩ (x := 7) rfl (Set.notMem_empty ()))
  apply Transition.Run.exists_stepL (.fillThrows (x := 7) rfl rfl)
  apply Transition.Run.exists_stepL (.rewind rfl rfl)
  apply Transition.Run.exists_stepL (.nullify rfl)
  refine ⟨_, .refl, rfl, ?_⟩
  apply Transition.Run.exists_stepL (.giveUp rfl)
  apply Transition.Run.exists_stepL (.call 8 rfl)
  apply Transition.Run.exists_stepL (.boundary (x := 8) rfl)
  apply Transition.Run.exists_stepL (.insert (x := 8) rfl rfl rfl)
  apply Transition.Run.exists_stepL (.key (x := 8) rfl)
  apply Transition.Run.exists_stepL (.tail (x := 8) rfl)
  apply Transition.Run.exists_stepL
    (.requisition () ⟨fun _ => none, 0⟩ (x := 8) rfl fun hb => hb.2 rfl)
  apply Transition.Run.exists_stepL (.fill (x := 8) rfl rfl)
  apply Transition.Run.exists_stepL (.linkFilled (x := 8) rfl)
  apply Transition.Run.exists_stepL (.publish (x := 8) rfl)
  apply Transition.Run.exists_stepL (.call 9 rfl)
  apply Transition.Run.exists_stepL (.start rfl)
  apply Transition.Run.exists_stepL (.readTail rfl)
  apply Transition.Run.exists_stepL (.readOvercommit rfl)
  apply Transition.Run.exists_stepL (.optimistic rfl rfl)
  apply Transition.Run.exists_stepL (.count rfl)
  apply Transition.Run.exists_stepL (.grant rfl rfl)
  apply Transition.Run.exists_stepL (.claim rfl)
  apply Transition.Run.exists_stepL (.readHeader rfl nofun)
  apply Transition.Run.exists_stepL (.readHeaderTail rfl rfl)
  apply Transition.Run.exists_stepL (.readKey rfl rfl)
  apply Transition.Run.exists_stepL (.readValue rfl rfl)
  exact ⟨_, .refl, rfl, rfl, rfl, rfl⟩

theorem blocks_exclusive_first :
    (∃ s : State ℕ Unit Bool, s.gives none = some () ∧ () ∈ s.owned ∧ ¬ s.Indexed () ∧
      ∀ p', s.Holds p' () → p' = none) ∧
    ∃ s : State ℕ Unit Bool, Accesses s (some true) () 0 ∧ Accesses s none () 1 ∧
      ∀ p, Accesses s p () 0 → p = some true := by
  obtain ⟨s, hs, hgives, t, ht, hconsumer, hproducer, hblock, htail⟩ := thrown_run
  refine ⟨⟨s, hgives, (blocks_exclusive
    ⟨_, _, fresh_initial, run_near fresh_initial hs (by simp)⟩).2 _ _ hgives⟩, t, ?_, ?_, ?_⟩
  · exact .move hconsumer
  · have ha : Accesses t none () (slot t.tailIndex) := .construct hproducer hblock
    rwa [htail] at ha
  · intro p hp
    exact (blocks_exclusive ⟨_, _, fresh_initial,
      run_near fresh_initial (hs.append ht) (by simp)⟩).1 _ _ _ _ hp (.move hconsumer)

end NodesDetector.Queue
