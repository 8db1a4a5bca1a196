import NodesDetector.Queue.Contents

/-! All that holds at every moment of an implicit producer's life. -/
namespace NodesDetector.Queue

variable {α β C : Type}

/-- No consumer lags half of the index range behind: neither with the ticket it draws nor with the
index it works on. -/
structure Near (s : State α β C) : Prop where
  tickets : TicketsNear s
  claimed : ∀ c i, s.history.tickets.phase c = .claimed i →
    s.history.enqueued.length ≤ i + 2 ^ 63

/-- Where the element cannot be moved without an exception, the block of the next index is only
linked once its first element stands. -/
def FilledFirst (noexceptCtor : Bool) (s : State α β C) : Prop :=
  noexceptCtor = false → ∀ x, s.producer = .construct x → s.history.enqueued.length % 32 ≠ 0

structure Inv (noexceptCtor : Bool) (s : State α β C) : Prop where
  counters : Counters s
  room : Room s
  filledFirst : FilledFirst noexceptCtor s
  finishing : Finishing s.history s.consumer
  storage : Storage s
  contents : Contents s.history s.blocks s.producer s.consumer
  lookup : NoIndex s ∨ ∃ header k, Lookup s.index s.history s.producer s.consumer header k

variable {noexceptCtor : Bool} {s t : State α β C} {a : Label α C} {header : BlockIndexHeader}
  {k : ℕ}

theorem finishing_initial (h : Initial s) : Finishing s.history s.consumer := by
  obtain ⟨blocks, entries, junk, rfl | rfl⟩ := h
  all_goals exact ⟨nofun, nofun, nofun, nofun, nofun⟩

/-- The index the constructor builds is empty. -/
theorem lookup_newBlockIndex (entries : ℕ → BlockIndexEntry β) (junk : ℕ → Option β)
    (consumer : C → ConsumerPc α β) :
    Lookup (BlockIndex.newBlockIndex ⟨[], entries, 0, initialIndexSize⟩ junk)
      (⟨[], .initial, ∅, fun _ => none, fun _ => 0, fun _ => 0⟩ : History α β C) .idle consumer
      (BlockIndex.newHeader ⟨[], entries, 0, initialIndexSize⟩) 5 := by
  have hring : Ring (BlockIndex.newHeader ⟨[], entries, 0, initialIndexSize⟩) 0 0 5 :=
    ring_newHeader rfl rfl
  have hlt : ∀ e ∈ (BlockIndex.newHeader ⟨[], entries, 0, initialIndexSize⟩).index, e < 32 := by
    intro e he
    have hmem : e ∈ List.range' 0 32 := he
    have := List.mem_range'_1.mp hmem
    omega
  refine ⟨⟨rfl, hring, rfl, hlt, ?_, fun _ _ _ => le_rfl, nofun, nofun, nofun, nofun, nofun⟩,
    ?_, ?_, nofun⟩
  · intro h old ho
    obtain rfl := List.mem_singleton.mp (List.mem_of_getElem? ho)
    exact ⟨5, hring⟩
  · show (0 : ℕ) = 31 / 32
    rfl
  · intro e he hkey
    have hnew : 0 ≤ e ∧ e < 0 + BlockIndex.entryCount (β := β) ⟨[], entries, 0, initialIndexSize⟩ :=
      ⟨e.zero_le, (hlt e he).trans_eq (Nat.zero_add _).symm⟩
    refine (hkey ?_).elim
    simp only [BlockIndex.newBlockIndex]
    rw [if_pos hnew]

theorem lookup_initial (h : Initial s) :
    NoIndex s ∨ ∃ header k, Lookup s.index s.history s.producer s.consumer header k := by
  obtain ⟨blocks, entries, junk, rfl | rfl⟩ := h
  · exact .inl ⟨rfl, rfl, .inl rfl, fun _ => rfl⟩
  · exact .inr ⟨_, 5, lookup_newBlockIndex entries junk _⟩

/-! ### The producer looks at the next entry -/

section

variable {b : BlockIndex β} {w : History α β C} {p : ProducerPc α β} {n : ℕ}

theorem ProducerOk.inserted_bounds (h : ProducerOk b w header k p) :
    (w.enqueued.length + 31) / 32 ≤ inserted b w ∧ inserted b w ≤ w.enqueued.length / 32 + 1 := by
  cases p with
  | idle | boundary | insert | giveUp | construct | publish =>
    have hcount := h
    simp only [ProducerOk] at hcount
    omega
  | grow | grown | key | tail | nullify =>
    have hcount := h.1
    omega
  | requisition | ready | filled | rewind =>
    have hcount := h.count
    omega

/-- A live block that stands a whole turn back has the next entry. -/
theorem Entries.entryOf_next (h : Entries b w header k) (hn : w.Live n)
    (hle : n + 2 ^ k ≤ inserted b w) :
    inserted b w = n + 2 ^ k ∧ entryOf b w header n = entryOf b w header (inserted b w) := by
  have heq : inserted b w = n + 2 ^ k := le_antisymm (h.inserted_le hn) hle
  refine ⟨heq, ?_⟩
  rw [heq, entryOf, entryOf, BlockIndexHeader.at, BlockIndexHeader.at, h.ring.size,
    Nat.add_right_comm n, Nat.add_mod_right]

theorem ofNat_mul_ne_invalidBlockBase (n : ℕ) : UInt64.ofNat (32 * n) ≠ invalidBlockBase := by
  intro he
  have hnat := congrArg UInt64.toNat he
  rw [UInt64.toNat_ofNat', show invalidBlockBase.toNat = 1 from rfl] at hnat
  omega

/-- An invalid key or a missing block: the next entry is free. -/
theorem Entries.nextFree (h : Entries b w header k)
    (he : (b.entries (entryOf b w header (inserted b w))).key = invalidBlockBase ∨
      (b.entries (entryOf b w header (inserted b w))).value = none) : NextFree b w k := by
  intro n hn
  by_contra hge
  obtain ⟨-, heq⟩ := h.entryOf_next hn (Nat.le_of_not_lt hge)
  rw [← heq] at he
  rcases he with hkey | hvalue
  · rw [h.keys n n hn le_rfl (h.live_lt n hn)] at hkey
    exact ofNat_mul_ne_invalidBlockBase n hkey
  · obtain ⟨x, hx⟩ := hn
    rw [h.values n x hx] at hvalue
    cases hvalue

end

/-- A live block is less than half of the index range back. -/
theorem Inv.live_near (h : Inv noexceptCtor s) (hn : Near s) {n : ℕ} (hlive : s.history.Live n) :
    s.history.enqueued.length < 32 * n + 32 + 2 ^ 63 := by
  have hroom := h.room.near
  rcases h.storage.live_open n hlive with ⟨i, hi, hfin⟩ | ⟨c, i, hp, -, hi⟩
  · rcases Nat.lt_or_ge i s.history.tickets.claims with hlt | hge
    · obtain ⟨c, hp, -⟩ := (h.finishing.claimed i hlt).resolve_left hfin
      have := hn.claimed c i hp
      omega
    · omega
  · have := hn.claimed c i hp
    omega

/-- A full index has room to be doubled. -/
theorem Inv.grow_bound (h : Inv noexceptCtor s) (hn : Near s)
    (hl : Lookup s.index s.history s.producer s.consumer header k) {x : α} {e : ℕ}
    (hp : s.producer = .insert x)
    (he : e = entryOf s.index s.history header (inserted s.index s.history))
    (hkey : (s.index.entries e).key ≠ invalidBlockBase)
    (hvalue : (s.index.entries e).value ≠ none) : k + 1 ≤ 59 := by
  subst he
  have hmem := hl.entries.ring.at_mem (inserted s.index s.history)
  obtain ⟨n, hlive, heq⟩ := hl.dead _ hmem hkey hvalue (by rw [hp]; nofun)
  have hlt := hl.entries.live_lt n hlive
  have hge : n + 2 ^ k ≤ inserted s.index s.history := by
    by_contra hno
    have := hl.entries.ring.at_inj hlt.le (by omega) heq
    omega
  have hbounds := hl.entries.ring.bounds
  have hnear := h.live_near hn hlive
  have hle := hl.producer.inserted_bounds.2
  rcases hbounds.2.lt_or_eq with hk | rfl <;> omega

/-! ### A consumer looks its block up -/

/-- The block of an index that is being worked on is in the block index. -/
theorem Inv.live (h : Inv noexceptCtor s) {c : C} {i : ℕ}
    (hp : s.history.tickets.phase c = .claimed i) (hin : (s.consumer c).InBlock) :
    s.history.Live (i / 32) := by
  rcases (s.consumer c).inBlock_iff.mp hin with hread | hem
  · exact h.storage.live i (h.counters.claimed_lt hp) (h.finishing.reading c i hp hread)
  · exact h.storage.emptied c i hp hem

/-- Whatever header and tail a consumer has loaded, the key there is that of a block from its own
on: also where that block has been taken back. -/
theorem Inv.lookup_tail (h : Inv noexceptCtor s)
    (hl : Lookup s.index s.history s.producer s.consumer header k) {c : C} {i h' : ℕ} {j : Index}
    {t : UInt64} {old : BlockIndexHeader} (hp : s.history.tickets.phase c = .claimed i)
    (hc : s.consumer c = .tail j h' t) (hh : s.index.headers[h']? = some old) :
    ∃ m k', Ring old (s.history.count h') (s.history.offset h') k' ∧
      i / 32 < s.history.count h' ∧ i / 32 ≤ m ∧ m ≤ inserted s.index s.history ∧
      t = .ofNat ((m + s.history.offset h') % 2 ^ k') ∧
      (s.index.entries (old.entry t)).key = .ofNat (32 * m) := by
  have hlive : s.history.Live (i / 32) := h.live hp (by rw [hc]; trivial)
  have hok : ConsumerOk s.index s.history header s.producer (.tail j h' t) i :=
    hc ▸ hl.consumers c i hp
  obtain ⟨old', m, hold, hlt, hle, rfl, hm⟩ := hok
  obtain rfl : old = old' := Option.some.inj (hh.symm.trans hold)
  obtain ⟨k', hring⟩ := hl.entries.rings h' old hold
  rw [hring.size, hring.entry_ofNat]
  rcases hm with hm | ⟨rfl, rfl, hrew⟩
  · have hcount := hl.entries.count_le h' old hold
    refine ⟨m, k', hring, hlt, hle, by omega, rfl, ?_⟩
    rw [hl.entries.shared h' old _ m hold hlive hle hm]
    exact hl.entries.keys _ m hlive hle (hm.trans_le hcount)
  · obtain rfl : old = header := Option.some.inj (hold.symm.trans hl.entries.last)
    exact ⟨_, k', hring, hlt, hle, le_rfl, rfl, hrew.key⟩

/-- The offset from that key leads to the entry of the consumer's block. -/
theorem Inv.lookup_entry (h : Inv noexceptCtor s) (hn : Near s)
    (hl : Lookup s.index s.history s.producer s.consumer header k) {c : C} {i h' : ℕ} {j : Index}
    {t : UInt64} {old : BlockIndexHeader} (hp : s.history.tickets.phase c = .claimed i)
    (hc : s.consumer c = .tail j h' t) (hh : s.index.headers[h']? = some old) :
    old.entry (blockIndexIndex old.capacity t (s.index.entries (old.entry t)).key j) =
      entryOf s.index s.history header (i / 32) := by
  have hlive : s.history.Live (i / 32) := h.live hp (by rw [hc]; trivial)
  obtain ⟨m, k', hring, hlt, hle, hm, rfl, hkey⟩ := h.lookup_tail hl hp hc hh
  obtain ⟨n, hn', rfl⟩ := h.counters.of_pc hc
  obtain rfl : i = n := by simpa [hp] using hn'
  have hnear := hn.claimed c i hp
  have hins := hl.producer.inserted_bounds.2
  have hpos := toNat_blockIndexIndex (s.history.offset h') hring.bounds.2 hle (by omega)
  rw [hkey, ← hl.entries.shared h' old _ _ hh hlive le_rfl hlt, hring.capacity,
    BlockIndexHeader.entry, hpos, BlockIndexHeader.at, hring.size]

/-- A consumer with a claimed index finds a header. -/
theorem Inv.lookup_header (h : Inv noexceptCtor s)
    (hl : Lookup s.index s.history s.producer s.consumer header k) {c : C} {i : ℕ}
    (hp : s.history.tickets.phase c = .claimed i) : i / 32 < inserted s.index s.history := by
  have hlt := h.counters.claimed_lt hp
  have hle := hl.producer.inserted_bounds.1
  omega

theorem Inv.lookup_value (h : Inv noexceptCtor s)
    (hl : Lookup s.index s.history s.producer s.consumer header k) {c : C} {i e : ℕ} {j : Index}
    (hp : s.history.tickets.phase c = .claimed i) (hc : s.consumer c = .entry j e) :
    e = entryOf s.index s.history header (i / 32) ∧
      ∃ x, s.history.blockOf (i / 32) = some x ∧ (s.index.entries e).value = some x := by
  have hok : ConsumerOk s.index s.history header s.producer (.entry j e) i :=
    hc ▸ hl.consumers c i hp
  obtain ⟨x, hx⟩ := h.live hp (by rw [hc]; trivial)
  have he : e = entryOf s.index s.history header (i / 32) := hok
  exact ⟨he, x, hx, he ▸ hl.entries.values _ x hx⟩

/-- What a consumer found is the block of its index. -/
theorem Inv.found (h : Inv noexceptCtor s) : Found s := by
  intro c i x hp hx
  rcases h.lookup with hno | ⟨header, k, hl⟩
  · have hlt := h.counters.claimed_lt hp
    rw [hno.enqueued] at hlt
    exact (Nat.not_lt_zero _ hlt).elim
  · have hok := hl.consumers c i hp
    generalize s.consumer c = pc at hx hok
    cases pc with
    | block | moved | destroyed | emptied =>
      obtain rfl : _ = x := Option.some.inj hx
      exact hok.2
    | _ => cases hx

/-! ### Every step keeps the index -/

variable [DecidableEq C]

/-- A consumer moves where the index stays as it is. -/
theorem Lookup.move {b : BlockIndex β} {w w' : History α β C} {p : ProducerPc α β}
    {consumer : C → ConsumerPc α β} {c : C} {pc : ConsumerPc α β} {q : Tickets.Phase}
    (h : Lookup b w p consumer header k) (he : w'.enqueued = w.enqueued)
    (hb : w'.blockOf = w.blockOf) (hc : w'.count = w.count) (ho : w'.offset = w.offset)
    (hq : w'.tickets.phase = Function.update w.tickets.phase c q)
    (hok : ∀ i, q = .claimed i → ConsumerOk b w header p pc i) :
    Lookup b w' p (Function.update consumer c pc) header k := by
  refine h.of_consumer he hb hc ho ?_
  intro c' i hp
  rw [hq] at hp
  rcases eq_or_ne c' c with rfl | hne
  · rw [Function.update_self] at hp ⊢
    exact .inr (hok i hp)
  · rw [Function.update_of_ne hne] at hp ⊢
    exact .inl ⟨hp, rfl⟩

theorem Lookup.move_pc {b : BlockIndex β} {w : History α β C} {p : ProducerPc α β}
    {consumer : C → ConsumerPc α β} {c : C} {pc : ConsumerPc α β}
    (h : Lookup b w p consumer header k)
    (hok : ∀ i, w.tickets.phase c = .claimed i → ConsumerOk b w header p pc i) :
    Lookup b w p (Function.update consumer c pc) header k :=
  h.move rfl rfl rfl rfl (Function.update_eq_self _ _).symm hok

variable [DecidableEq β]

theorem NoIndex.step (hs : Step noexceptCtor s a t) (hc : Counters s) (h : NoIndex s) :
    NoIndex t := by
  obtain ⟨hheaders, henq, hprod, hblock⟩ := h
  cases hs with
  | call x hp =>
    have hzero : s.tailIndex &&& (blockSize - 1) = 0 := by
      rw [hc.tailIndex, henq, and_eq_zero_iff]
      rfl
    rw [if_pos hzero]
    exact ⟨hheaders, henq, .inr (.inl ⟨x, rfl⟩), hblock⟩
  | @boundary x hp =>
    split_ifs
    · exact ⟨hheaders, henq, .inr (.inr ⟨x, rfl⟩), hblock⟩
    · exact ⟨hheaders, henq, .inl rfl, hblock⟩
  | insert hp hh => simp [hheaders] at hh
  | insertNull => exact ⟨hheaders, henq, .inl rfl, hblock⟩
  | key hp | growFailed hp | grow _ hp | grown hp | tail hp | requisition _ _ hp
  | requisitionFailed hp | rewind hp | nullify hp | giveUp hp | link _ hp | fill _ hp
  | fillThrows _ hp | linkFilled hp | construct hp | constructThrows _ hp | publish hp =>
    simp [hp] at hprod
  | start | readTail | readOvercommit | optimistic | hopeless | count | grant | refuse | giveBack
  | claim | readHeader | readHeaderTail | readKey | readValue | move | destroy | recycle | ret =>
    exact ⟨hheaders, henq, hprod, hblock⟩
  | setEmpty | setEmptyLast =>
    refine ⟨hheaders, ?_, hprod, ?_⟩
    · rwa [History.finish_enqueued]
    · rwa [History.finish_blockOf]
  | @unlink c _ _ _ _ hp =>
    obtain ⟨i, hi, -⟩ := hc.of_pc hp
    have hlt := hc.claimed_lt hi
    simp [henq] at hlt

theorem lookup_step (hs : Step noexceptCtor s a t) (hn : Near s) (h : Inv noexceptCtor s) :
    NoIndex t ∨ ∃ header k, Lookup t.index t.history t.producer t.consumer header k := by
  rcases h.lookup with hno | ⟨header, k, hl⟩
  · exact .inl (hno.step hs h.counters)
  right
  have hprod := hl.producer
  have hlast : ∀ {header' : BlockIndexHeader}, s.index.headers.getLast? = some header' →
      header' = header := fun hh => Option.some.inj (hh.symm.trans hl.entries.getLast)
  have hfirst : s.producer.AtFirst →
      inserted s.index s.history = (s.history.enqueued.length + 31) / 32 →
        s.tailIndex = .ofNat (32 * inserted s.index s.history) := by
    intro hat hcount
    have hmod := h.room.first hat
    rw [h.counters.tailIndex, hcount]
    congr 1
    omega
  cases hs with
  | @call x hp =>
    rw [hp] at hprod
    refine ⟨header, k, hl.of_pc_keeps ?_ (by rw [hp]; rfl) ?_⟩
    · split_ifs with hzero
      · exact hprod
      · rw [h.counters.tailIndex, and_eq_zero_iff] at hzero
        have hcount : inserted s.index s.history = (s.history.enqueued.length + 31) / 32 := hprod
        show inserted s.index s.history = s.history.enqueued.length / 32 + 1
        omega
    · split_ifs <;> trivial
  | boundary hp =>
    rw [hp] at hprod
    refine ⟨header, k, hl.of_pc_keeps ?_ (by rw [hp]; rfl) ?_⟩
    · split_ifs <;> exact hprod
    · split_ifs <;> trivial
  | @insert x header' e hp hh he =>
    obtain rfl := hlast hh
    rw [hp] at hprod
    rw [hl.entries.ring.entry_newTail] at he
    have he' : e = entryOf s.index s.history header' (inserted s.index s.history) := he.symm
    refine ⟨header', k, hl.of_pc ?_ (by simp [hp, ProducerPc.pending]) ?_⟩
    · split_ifs with hfree
      · exact ⟨hprod, hl.entries.nextFree (he' ▸ hfree), he', rfl⟩
      · rw [not_or] at hfree
        exact ⟨hprod, h.grow_bound hn hl hp he' hfree.1 hfree.2⟩
    · intro hr
      split_ifs with hfree
      · exact hr.of_pc (by simp [hp]) trivial
      · -- a block taken back left its entry without a value
        rw [not_or] at hfree
        have hvalue := hr.value.resolve_right (by simp [hp])
        exact (hfree.2 (he' ▸ hvalue)).elim
  | insertNull hp hh => exact (hl.entries.headers_ne_nil hh).elim
  | @key x e newTail hp =>
    rw [hp] at hprod
    obtain ⟨hcount, hfree, rfl, rfl⟩ := hprod
    refine ⟨header, k, ?_⟩
    simp only [State.toProducer]
    rw [hfirst (by rw [hp]; trivial) hcount]
    exact hl.setKey (by rw [hp]; rfl) hcount hfree
  | growFailed hp =>
    rw [hp] at hprod
    exact ⟨header, k, hl.of_pc_keeps hprod.1 (by rw [hp]; rfl) trivial⟩
  | grow junk hp hh =>
    obtain rfl := hlast hh
    exact ⟨_, k + 1, hl.grow hp junk fun c i => h.live⟩
  | @grown x header' hp hh =>
    obtain rfl := hlast hh
    rw [hp] at hprod
    obtain ⟨hcount, hfree, -⟩ := hprod
    refine ⟨header', k, ?_⟩
    simp only [State.toProducer]
    rw [hfirst (by rw [hp]; trivial) hcount, hl.entries.ring.entry_newTail]
    exact hl.setKey (by rw [hp]; rfl) hcount hfree
  | tail hp =>
    rw [hp] at hprod
    obtain ⟨-, -, -, rfl, -⟩ := hprod
    exact ⟨_, k, hl.push hp (h.room.first (by rw [hp]; trivial))⟩
  | requisition _ _ hp | requisitionFailed hp | fill _ hp | fillThrows _ hp =>
    rw [hp] at hprod
    exact ⟨header, k, hl.of_pc_pending hprod (by rw [hp]; rfl) (by rw [hp]; exact id)⟩
  | rewind hp hh =>
    obtain rfl := hlast hh
    have hmod := h.room.first (by rw [hp]; trivial)
    refine ⟨_, k, hl.pop hp hmod ?_⟩
    intro c i hc _
    have := h.counters.claimed_lt hc
    omega
  | @nullify e newBlock hp =>
    rw [hp] at hprod
    obtain ⟨hcount, hfree, rfl⟩ := hprod
    have hpend : ∀ e, s.producer.pending = some e →
        e = entryOf s.index s.history header (inserted s.index s.history) := by
      rw [hp]
      exact fun e he => (Option.some.inj he).symm
    refine ⟨header, k, hl.clearNext hpend hfree ?_ ?_⟩
    · cases newBlock <;> exact hcount
    · cases newBlock with
      | none => exact .inl rfl
      | some b => exact .inr ⟨b, rfl⟩
  | giveUp hp | construct hp =>
    rw [hp] at hprod
    exact ⟨header, k, hl.of_pc_keeps hprod (by rw [hp]; rfl) trivial⟩
  | link _ hp =>
    rw [hp] at hprod
    exact ⟨header, k, hl.link hprod (by rw [hp]; rfl) (by rw [hp]; exact id) _ (.inl rfl)⟩
  | linkFilled hp =>
    rw [hp] at hprod
    exact ⟨header, k, hl.link hprod (by rw [hp]; rfl) (by rw [hp]; exact id) _ (.inr rfl)⟩
  | constructThrows hne hp =>
    rw [hp] at hprod
    have hmod := h.filledFirst hne _ hp
    have hcount : inserted s.index s.history = s.history.enqueued.length / 32 + 1 := hprod
    refine ⟨header, k, hl.of_pc_keeps ?_ (by rw [hp]; rfl) trivial⟩
    show inserted s.index s.history = (s.history.enqueued.length + 31) / 32
    omega
  | publish hp => exact ⟨header, k, hl.publish hp⟩
  | start hp | readTail hp | optimistic hp =>
    exact ⟨header, k, hl.move_pc fun _ _ => trivial⟩
  | readOvercommit hp =>
    have hph := h.counters.of_pc hp
    exact ⟨header, k, hl.move rfl rfl rfl rfl (Tickets.State.phase_read hph) (by simp)⟩
  | hopeless hp hlt =>
    obtain ⟨n, hph, -⟩ := h.counters.of_pc hp
    exact ⟨header, k, hl.move rfl rfl rfl rfl (Tickets.State.phase_leave hph) (by simp)⟩
  | count hp =>
    obtain ⟨n, hph, -⟩ := h.counters.of_pc hp
    exact ⟨header, k, hl.move rfl rfl rfl rfl (Tickets.State.phase_draw hph) (by simp)⟩
  | grant hp hlt =>
    obtain ⟨n, m, hph, -, -⟩ := h.counters.of_pc hp
    exact ⟨header, k, hl.move rfl rfl rfl rfl (Tickets.State.phase_grant hph) (by simp)⟩
  | refuse hp hlt =>
    obtain ⟨n, m, hph, -, -⟩ := h.counters.of_pc hp
    exact ⟨header, k, hl.move rfl rfl rfl rfl (Tickets.State.phase_refuse hph) (by simp)⟩
  | giveBack hp =>
    obtain ⟨m, hph⟩ := h.counters.of_pc hp
    exact ⟨header, k, hl.move rfl rfl rfl rfl (Tickets.State.phase_giveBack hph) (by simp)⟩
  | claim hp =>
    obtain ⟨m, hph⟩ := h.counters.of_pc hp
    exact ⟨header, k, hl.move rfl rfl rfl rfl (Tickets.State.phase_claim hph)
      fun _ _ => trivial⟩
  | readHeader hp hh =>
    exact ⟨header, k, hl.move_pc fun i hi => ⟨header, hl.entries.last, h.lookup_header hl hi⟩⟩
  | @readHeaderTail c j h' old hp hh =>
    refine ⟨header, k, hl.move_pc fun i hi => ?_⟩
    have hok : ConsumerOk s.index s.history header s.producer (.header j h') i :=
      hp ▸ hl.consumers c i hi
    obtain ⟨old', hold, hlt⟩ := hok
    obtain rfl : old = old' := Option.some.inj (hh.symm.trans hold)
    obtain ⟨k', hring⟩ := hl.entries.rings h' old hold
    obtain ⟨m, hm⟩ := Nat.exists_eq_add_one_of_ne_zero (Nat.ne_zero_of_lt hlt)
    refine ⟨old, m, hold, hlt, by omega, ?_, .inl (by omega)⟩
    rw [hm] at hring
    rw [hring.tail_eq, hring.size]
  | readKey hp hh =>
    exact ⟨header, k, hl.move_pc fun i hi => h.lookup_entry hn hl hi hp hh⟩
  | readValue hp hv =>
    refine ⟨header, k, hl.move_pc fun i hi => ?_⟩
    obtain ⟨he, x, hx, hvalue⟩ := h.lookup_value hl hi hp
    obtain rfl := Option.some.inj (hv.symm.trans hvalue)
    exact ⟨he, hx⟩
  | @move c j e b y hp hy =>
    refine ⟨header, k, hl.move_pc fun i hi => ?_⟩
    have hok : ConsumerOk s.index s.history header s.producer (.block j e b) i :=
      hp ▸ hl.consumers c i hi
    exact hok
  | @destroy c j e b y hp =>
    refine ⟨header, k, hl.move_pc fun i hi => ?_⟩
    have hok : ConsumerOk s.index s.history header s.producer (.moved j e b y) i :=
      hp ▸ hl.consumers c i hi
    exact hok
  | @setEmpty c j e b y hp hb =>
    obtain ⟨n, hph, -⟩ := h.counters.of_pc hp
    simp only [History.finish, hph]
    exact ⟨header, k, hl.move rfl rfl rfl rfl (Function.update_eq_self _ _).symm fun _ _ => trivial⟩
  | @setEmptyLast c j e b y hp hb =>
    obtain ⟨n, hph, -⟩ := h.counters.of_pc hp
    have hok : ConsumerOk s.index s.history header s.producer (.destroyed j e b y) n :=
      hp ▸ hl.consumers c n hph
    simp only [History.finish, hph]
    refine ⟨header, k, hl.move rfl rfl rfl rfl (Function.update_eq_self _ _).symm fun i hi => ?_⟩
    obtain rfl := Tickets.Phase.claimed.inj (hph.symm.trans hi)
    exact hok
  | @unlink c j e b y hp =>
    obtain ⟨i, hph, -⟩ := h.counters.of_pc hp
    have hok : ConsumerOk s.index s.history header s.producer (.emptied j e b y) i :=
      hp ▸ hl.consumers c i hph
    have hem : (s.consumer c).Emptied := by rw [hp]; trivial
    obtain ⟨rfl, hblock⟩ := hok
    simp only [History.unlink, hph]
    refine ⟨header, k, hl.unlink ⟨b, hblock⟩ fun c' i' hi' => ?_⟩
    rcases eq_or_ne c' c with rfl | hne
    · exact .inr ⟨j, b, y, Function.update_self _ _ _⟩
    · refine .inl ⟨Function.update_of_ne hne _ _, fun hfound heq => ?_⟩
      -- nobody else is left in a block that is empty
      have hin : (s.consumer c').InBlock := by
        generalize s.consumer c' = pc at hfound
        cases pc <;> simp_all [ConsumerPc.found, ConsumerPc.InBlock]
      rcases (s.consumer c').inBlock_iff.mp hin with hread | hem'
      · exact h.finishing.reading c' i' hi' hread (h.finishing.emptied c i hph hem i' heq)
      · exact hne (h.finishing.emptied_inj c' c i' i hi' hph hem' hem heq)
  | recycle hp => exact ⟨header, k, hl.move_pc fun _ _ => trivial⟩
  | ret hp =>
    have hph := phase_of_done h.counters hp
    exact ⟨header, k, hl.move rfl rfl rfl rfl (Tickets.State.phase_release hph) (by simp)⟩

/-! ### The invariant -/

theorem filledFirst_step (hs : Step noexceptCtor s a t) (hc : Counters s)
    (h : FilledFirst noexceptCtor s) : FilledFirst noexceptCtor t := by
  intro hne x hx
  cases hs with
  | call y hp =>
    simp only [State.toProducer] at hx ⊢
    split_ifs at hx with hzero
    rwa [hc.tailIndex, and_eq_zero_iff] at hzero
  | boundary | insert =>
    simp only [State.toProducer] at hx
    split_ifs at hx
  | @nullify e newBlock hp => cases newBlock <;> cases hx
  | link hn => exact (Bool.false_ne_true (hne.symm.trans hn)).elim
  | insertNull | key | growFailed | grow | grown | tail | requisition | requisitionFailed | rewind
  | giveUp | fill | fillThrows | linkFilled | construct | constructThrows | publish => cases hx
  | setEmpty | setEmptyLast =>
    rw [History.finish_enqueued]
    exact h hne x hx
  | unlink =>
    rw [History.unlink_enqueued]
    exact h hne x hx
  | start | readTail | readOvercommit | optimistic | hopeless | count | grant | refuse | giveBack
  | claim | readHeader | readHeaderTail | readKey | readValue | move | destroy | recycle | ret =>
    exact h hne x hx

omit [DecidableEq C] [DecidableEq β] in
theorem inv_initial (h : Initial s) : Inv noexceptCtor s where
  counters := counters_initial h
  room := room_initial h
  filledFirst := by
    obtain ⟨blocks, entries, junk, rfl | rfl⟩ := h
    all_goals exact fun _ _ => nofun
  finishing := finishing_initial h
  storage := storage_initial h
  contents := contents_initial h
  lookup := lookup_initial h

theorem inv_step (hs : Step noexceptCtor s a t) (hn : Near s) (h : Inv noexceptCtor s) :
    Inv noexceptCtor t where
  counters := counters_step hs h.counters hn.tickets
  room := room_step hs h.counters h.room
  filledFirst := filledFirst_step hs h.counters h.filledFirst
  finishing := finishing_step hs h.counters
    (fun c i x hi hx _ => h.storage.counter _ x (h.found c i x hi hx)) h.finishing
  storage := storage_step hs h.counters h.room h.finishing h.found h.storage
  contents := contents_step hs h.counters h.room h.finishing h.storage h.found h.contents
  lookup := lookup_step hs hn h

end NodesDetector.Queue
