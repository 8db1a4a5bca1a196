import NodesDetector.Queue.Refinement

/-! `~ImplicitProducer`: every element that is left is destroyed and every block goes back. -/
namespace NodesDetector.Queue

variable {α β C : Type}

/-! ### The model -/

/-- `get_block_index_entry_for_index(index)->value` with nobody else around; `none` where a null
pointer would be followed. -/
def State.blockAt (s : State α β C) (index : Index) : Option β := do
  let header ← s.index.headers.getLast?
  let tailBase := (s.index.entries (header.entry header.tail)).key
  (s.index.entries (header.entry
    (blockIndexIndex header.capacity header.tail tailBase index))).value

/-- What the loop of the destructor has done: the elements it destroyed and the blocks it gave
back. -/
structure Destroyed (α β : Type) where
  elements : List α
  blocks : List β

/-- The block of `index`, after giving back the one in hand where a new one begins. -/
def State.advance (s : State α β C) (index : Index) (block : Option β) (freed : List β) :
    Option (β × List β) :=
  if index &&& (blockSize - 1) = 0 ∨ block = none then
    (s.blockAt index).map fun b => (b, freed ++ block.toList)
  else block.map fun b => (b, freed)

/-- The `while (index != tail)` loop; `none` where it would follow a null pointer or destroy what
is not there. -/
def State.destroyLoop (s : State α β C) (index : Index) (block : Option β)
    (done : Destroyed α β) : Option (Destroyed α β) :=
  if _h : index = s.tailIndex then some done
  else do
    let (b, freed) ← s.advance index block done.blocks
    let x ← (s.blocks b).elements (slot index)
    s.destroyLoop (index + 1) (some b) ⟨done.elements ++ [x], freed⟩
termination_by (s.tailIndex - index).toNat
decreasing_by
  have hne : index.toNat ≠ s.tailIndex.toNat := mt UInt64.toNat_inj.mp _h
  have hlt := s.tailIndex.toNat_lt
  have hlt' := index.toNat_lt
  rw [UInt64.toNat_sub, UInt64.toNat_sub, UInt64.toNat_add, UInt64.toNat_one]
  omega

/-- The destructor, but for the memory of the block index itself. The last block goes back when the
loop was entered or the block is not full. -/
def State.destructor (s : State α β C) : Option (Destroyed α β) :=
  (s.destroyLoop s.headIndex none ⟨[], []⟩).map fun done =>
    if s.headIndex ≠ s.tailIndex ∨ s.tailIndex &&& (blockSize - 1) ≠ 0 then
      { done with blocks := done.blocks ++ s.tailBlock.toList }
    else done

/-! ### No block is lost -/

/-- Every block that is out is in the index, with the producer or about to go back. -/
def Accounted (s : State α β C) : Prop :=
  ∀ x ∈ s.owned, (∃ n, s.history.blockOf n = some x) ∨ s.producer.newBlock = some x ∨
    ∃ c, (s.consumer c).freed = some x

/-- At the end of a block `tailBlock` still is that block, if it is in the index. -/
def LastBlock (s : State α β C) : Prop :=
  s.history.enqueued.length % 32 = 0 → ¬ s.producer.Linked → ∀ n x,
    s.history.enqueued.length / 32 = n + 1 → s.history.blockOf n = some x → s.tailBlock = some x

variable {noexceptCtor : Bool} {s t : State α β C} {a : Label α C}

theorem accounted_initial (h : Initial s) : Accounted s := by
  obtain ⟨blocks, entries, junk, rfl | rfl⟩ := h
  all_goals exact fun x hx => (Set.notMem_empty x hx).elim

theorem lastBlock_initial (h : Initial s) : LastBlock s := by
  obtain ⟨blocks, entries, junk, rfl | rfl⟩ := h
  all_goals exact fun _ _ _ _ _ => nofun

variable [DecidableEq β] [DecidableEq C]

omit [DecidableEq β] [DecidableEq C] in
/-- The new block is linked behind all others. -/
theorem Inv.live_before (h : Inv noexceptCtor s) {x : β} {n : ℕ}
    (hp : s.producer.resetBlock = some x) (hn : s.history.Live n) :
    n < s.history.enqueued.length / 32 := by
  rcases h.lookup with hno | ⟨header, k, hl⟩
  · obtain ⟨y, hy⟩ := hn
    rw [hno.blockOf] at hy
    cases hy
  · have hprod := hl.producer
    generalize s.producer = p at hp hprod
    cases p with
    | ready | filled => exact hprod.before n hn
    | _ => cases hp

theorem accounted_step (hs : Step noexceptCtor s a t) (hi : Inv noexceptCtor s)
    (h : Accounted s) : Accounted t := by
  -- the producer keeps its new block, and no consumer moves
  have hprod : ∀ {u : State α β C}, u.owned = s.owned → u.history.blockOf = s.history.blockOf →
      u.consumer = s.consumer → (∀ x, s.producer.newBlock = some x → u.producer.newBlock = some x) →
      Accounted u := by
    intro u ho hb hcons hn x hx
    rw [hb, hcons]
    rcases h x (ho ▸ hx) with hlinked | hnew | hfreed
    · exact .inl hlinked
    · exact .inr (.inl (hn x hnew))
    · exact .inr (.inr hfreed)
  -- consumer `c` moves and had no block to give back
  have hcons : ∀ {u : State α β C} {c : C} {pc : ConsumerPc α β}, u.owned = s.owned →
      u.history.blockOf = s.history.blockOf → u.producer = s.producer →
      u.consumer = Function.update s.consumer c pc → (s.consumer c).freed = none → Accounted u := by
    intro u c pc ho hb hp hu hf x hx
    rw [hb, hp, hu]
    rcases h x (ho ▸ hx) with hlinked | hnew | ⟨c', hfreed⟩
    · exact .inl hlinked
    · exact .inr (.inl hnew)
    · have hne : c' ≠ c := by
        rintro rfl
        rw [hf] at hfreed
        cases hfreed
      exact .inr (.inr ⟨c', by rwa [Function.update_of_ne hne]⟩)
  cases hs with
  | call x hp | boundary hp | insert hp | insertNull hp | key hp | growFailed hp | grow _ hp
  | grown hp | tail hp | requisitionFailed hp | construct hp | constructThrows _ hp | publish hp =>
    exact hprod rfl rfl rfl (by simp [hp, ProducerPc.newBlock])
  | rewind hp | fill _ hp | fillThrows _ hp =>
    exact hprod rfl rfl rfl (by rw [hp]; exact fun _ hx => hx)
  | @nullify e newBlock hp =>
    refine hprod rfl rfl rfl ?_
    rw [hp]
    cases newBlock <;> exact fun _ hx => hx
  | requisition b block hp hb =>
    intro x hx
    rcases Set.mem_insert_iff.mp hx with rfl | hx
    · exact .inr (.inl rfl)
    · rcases h x hx with hlinked | hnew | hfreed
      · exact .inl hlinked
      · rw [hp] at hnew
        cases hnew
      · exact .inr (.inr hfreed)
  | giveUp hp =>
    rintro x ⟨hx, hne⟩
    rcases h x hx with hlinked | hnew | hfreed
    · exact .inl hlinked
    · rw [hp] at hnew
      exact (hne (Option.some.inj hnew).symm).elim
    · exact .inr (.inr hfreed)
  | link _ hp | linkFilled hp =>
    have hnew := newBlock_of_resetBlock (p := s.producer) (by rw [hp]; rfl)
    intro x hx
    rcases h x hx with ⟨n, hn⟩ | hx | hfreed
    · have hne : n ≠ s.history.enqueued.length / 32 := (hi.live_before (by rw [hp]; rfl) ⟨x, hn⟩).ne
      exact .inl ⟨n, by simpa [History.link, Function.update_of_ne hne] using hn⟩
    · obtain rfl := Option.some.inj (hnew.symm.trans hx)
      exact .inl ⟨_, Function.update_self _ _ _⟩
    · exact .inr (.inr hfreed)
  | start hp | readTail hp | readOvercommit hp | optimistic hp | hopeless hp | count hp | grant hp
  | refuse hp | giveBack hp | claim hp | readHeader hp | readHeaderTail hp | readKey hp
  | readValue hp | move hp | destroy hp | ret hp =>
    exact hcons rfl rfl rfl rfl (by rw [hp]; rfl)
  | setEmpty hp | setEmptyLast hp =>
    exact hcons rfl (History.finish_blockOf _ _) rfl rfl (by rw [hp]; rfl)
  | @unlink c j e b y hp =>
    obtain ⟨i, hph, -⟩ := hi.counters.of_pc hp
    have hblock := hi.found c i b hph (by rw [hp]; rfl)
    simp only [History.unlink, hph]
    intro x hx
    rcases h x hx with ⟨n, hn⟩ | hnew | ⟨c', hfreed⟩
    · rcases eq_or_ne n (i / 32) with rfl | hne
      · obtain rfl := Option.some.inj (hblock.symm.trans hn)
        exact .inr (.inr ⟨c, by simp [State.toConsumer, ConsumerPc.freed]⟩)
      · exact .inl ⟨n, by simpa [Function.update_of_ne hne] using hn⟩
    · exact .inr (.inl hnew)
    · have hne : c' ≠ c := by
        rintro rfl
        rw [hp] at hfreed
        cases hfreed
      exact .inr (.inr ⟨c', by simpa [State.toConsumer, Function.update_of_ne hne] using hfreed⟩)
  | @recycle c j b y hp =>
    rintro x ⟨hx, hxb⟩
    rcases h x hx with hlinked | hnew | ⟨c', hfreed⟩
    · exact .inl hlinked
    · exact .inr (.inl hnew)
    · have hne : c' ≠ c := by
        rintro rfl
        rw [hp] at hfreed
        exact hxb (Option.some.inj hfreed).symm
      exact .inr (.inr ⟨c', by simpa [State.toConsumer, Function.update_of_ne hne] using hfreed⟩)

theorem lastBlock_step (hs : Step noexceptCtor s a t) (hi : Inv noexceptCtor s)
    (h : LastBlock s) : LastBlock t := by
  cases hs with
  | call x hp =>
    intro hmod _
    exact h hmod (by rw [hp]; exact id)
  | boundary hp | insert hp | insertNull hp | key hp | growFailed hp | grow _ hp | grown hp
  | tail hp | requisition _ _ hp | requisitionFailed hp | rewind hp | nullify hp | giveUp hp
  | fill _ hp | fillThrows _ hp =>
    exact fun hmod _ => h hmod (by rw [hp]; exact id)
  | link | linkFilled | construct => exact fun _ hl => (hl trivial).elim
  | constructThrows hn hp => exact fun hmod _ => (hi.filledFirst hn _ hp hmod).elim
  | @publish y hp =>
    intro hmod _ n x hn hx
    have hlen := s.history.length_publish y
    have hmod' : (s.history.enqueued.length + 1) % 32 = 0 := hlen ▸ hmod
    have hn' : (s.history.enqueued.length + 1) / 32 = n + 1 := hlen ▸ hn
    obtain ⟨b, htail, hb⟩ := hi.storage.tailBlock (.inl (by omega))
    obtain rfl : s.history.enqueued.length / 32 = n := by omega
    exact htail.trans (hb.symm.trans hx)
  | start | readTail | readOvercommit | optimistic | hopeless | count | grant | refuse | giveBack
  | claim | readHeader | readHeaderTail | readKey | readValue | move | destroy | recycle | ret =>
    exact h
  | setEmpty | setEmptyLast =>
    intro hmod hl n x hn hx
    simp only [History.finish_enqueued, History.finish_blockOf] at hmod hn hx
    exact h hmod hl n x hn hx
  | @unlink c _ _ _ _ hp =>
    obtain ⟨i, hph, -⟩ := hi.counters.of_pc hp
    simp only [History.unlink, hph]
    intro hmod hl n x hn hx
    rcases eq_or_ne n (i / 32) with rfl | hne
    · simp at hx
    · exact h hmod hl n x hn (by simpa [Function.update_of_ne hne] using hx)

/-! ### Nothing is left behind -/

/-- All operations have completed. -/
structure Quiescent (s : State α β C) : Prop where
  producer : s.producer = .idle
  consumer : ∀ c, s.consumer c = .idle

omit [DecidableEq β] [DecidableEq C]

theorem Quiescent.mem_finished (hq : Quiescent s) (h : Inv noexceptCtor s) {i : ℕ} :
    i ∈ s.history.finished ↔ i < s.history.tickets.claims := by
  refine ⟨h.finishing.lt i, fun hi => (h.finishing.claimed i hi).resolve_right ?_⟩
  rintro ⟨c, -, hread⟩
  rw [hq.consumer c] at hread
  exact hread

/-- The blocks in the index are those of the elements that are left. -/
theorem Quiescent.live_ge (hq : Quiescent s) (h : Inv noexceptCtor s) {n : ℕ}
    (hn : s.history.Live n) : s.history.tickets.claims / 32 ≤ n := by
  rcases h.storage.live_open n hn with ⟨i, hi, hfin⟩ | ⟨c, i, -, hem, -⟩
  · rw [hq.mem_finished h] at hfin
    omega
  · rw [hq.consumer c] at hem
    exact hem.elim

theorem Quiescent.live (hq : Quiescent s) (h : Inv noexceptCtor s) {i : ℕ}
    (hi : s.history.tickets.claims ≤ i) (hlt : i < s.history.enqueued.length) :
    s.history.Live (i / 32) := by
  refine h.storage.live i hlt ?_
  rw [hq.mem_finished h]
  omega

theorem Quiescent.slot_eq (hq : Quiescent s) (h : Inv noexceptCtor s) {i : ℕ} {x : β}
    (hi : s.history.tickets.claims ≤ i) (hlt : i < s.history.enqueued.length)
    (hx : s.history.blockOf (i / 32) = some x) :
    (s.blocks x).elements (slot (.ofNat i)) = some s.history.enqueued[i] := by
  rw [slot_ofNat, h.contents.slots i x hlt ?_ hx ?_, List.getElem?_eq_getElem hlt]
  · rw [hq.mem_finished h]
    omega
  · intro c _ hdes
    rw [hq.consumer c] at hdes
    exact hdes

/-- The lookup finds the block of every element that is left. -/
theorem Quiescent.blockAt_eq (hq : Quiescent s) (h : Inv noexceptCtor s) {i : ℕ}
    (hi : s.history.tickets.claims ≤ i) (hlt : i < s.history.enqueued.length) :
    s.blockAt (.ofNat i) = s.history.blockOf (i / 32) := by
  obtain ⟨x, hx⟩ := hq.live h hi hlt
  have hlive : s.history.Live (i / 32) := ⟨x, hx⟩
  have hroom := h.room.near
  rcases h.lookup with hno | ⟨header, k, hl⟩
  · simp [hno.enqueued] at hlt
  have hprod := hl.producer
  rw [hq.producer] at hprod
  have hcount : inserted s.index s.history = (s.history.enqueued.length + 31) / 32 := hprod
  obtain ⟨m, hm⟩ : ∃ m, inserted s.index s.history = m + 1 :=
    Nat.exists_eq_add_one_of_ne_zero (by omega)
  have hring := hl.entries.ring
  have hmlt : m < inserted s.index s.history := by omega
  have hkey := hl.entries.keys _ m hlive (by omega) hmlt
  rw [hm] at hring
  have hpos := toNat_blockIndexIndex (s.history.offset s.index.current) (m := m) (i := i)
    hring.bounds.2 (by omega) (by omega)
  have hentry : header.entry (blockIndexIndex header.capacity header.tail
      (s.index.entries (header.entry header.tail)).key (.ofNat i)) =
        entryOf s.index s.history header (i / 32) := by
    rw [hring.tail_eq, hring.entry_ofNat]
    have hkey' : (s.index.entries (header.at (s.history.offset s.index.current) m)).key =
        .ofNat (32 * m) := hkey
    rw [hkey', hring.capacity, BlockIndexHeader.entry, hpos, entryOf, BlockIndexHeader.at,
      hring.size]
  rw [hx, ← hl.entries.values _ x hx, ← hentry]
  simp [State.blockAt, hl.entries.getLast]

/-- The blocks number `m` to `n - 1`. -/
def History.linked (w : History α β C) (m n : ℕ) : List β :=
  (List.range' m (n - m)).filterMap w.blockOf

theorem linked_of_le {w : History α β C} {m n : ℕ} (h : n ≤ m) : w.linked m n = [] := by
  simp [History.linked, Nat.sub_eq_zero_of_le h]

theorem linked_append {w : History α β C} {l m n : ℕ} (hlm : l ≤ m) (hmn : m ≤ n) :
    w.linked l m ++ w.linked m n = w.linked l n := by
  obtain ⟨d, rfl⟩ := Nat.exists_eq_add_of_le hlm
  obtain ⟨e, rfl⟩ := Nat.exists_eq_add_of_le hmn
  rw [History.linked, History.linked, History.linked, ← List.filterMap_append,
    show l + d + e - l = d + e by omega, show l + d - l = d by omega,
    show l + d + e - (l + d) = e by omega, ← List.range'_append_1]

theorem linked_succ {w : History α β C} {m : ℕ} : w.linked m (m + 1) = (w.blockOf m).toList := by
  cases hx : w.blockOf m <;> simp [History.linked, hx]

/-- The block in hand is number `m`, or there is none and `m` is that of the first index. -/
def InHand (w : History α β C) (i m : ℕ) (block : Option β) : Prop :=
  block = none ∧ m = i / 32 ∨ block ≠ none ∧ w.blockOf m = block ∧ 32 * m < i ∧ i ≤ 32 * m + 32

theorem InHand.bounds {w : History α β C} {i m : ℕ} {block : Option β} (h : InHand w i m block) :
    m ≤ i / 32 ∧ i ≤ 32 * m + 32 := by
  rcases h with ⟨-, rfl⟩ | ⟨-, -, hm, hm'⟩ <;> omega

theorem Quiescent.advance_eq (hq : Quiescent s) (h : Inv noexceptCtor s) {i m : ℕ}
    {block : Option β} {freed : List β} (hi : s.history.tickets.claims ≤ i)
    (hlt : i < s.history.enqueued.length) (hm : InHand s.history i m block) :
    s.advance (.ofNat i) block freed =
      (s.history.blockOf (i / 32)).map (·, freed ++ s.history.linked m (i / 32)) := by
  rw [State.advance, hq.blockAt_eq h hi hlt]
  rcases hm with ⟨rfl, rfl⟩ | ⟨hsome, hblock, hm, hm'⟩
  · rw [if_pos (.inr rfl), linked_of_le le_rfl]
    rfl
  · by_cases hmod : i % 32 = 0
    · rw [if_pos (.inl ((and_eq_zero_iff i).mpr hmod)), show i / 32 = m + 1 by omega, linked_succ,
        hblock]
    · have hnot : ¬ (UInt64.ofNat i &&& (blockSize - 1) = 0 ∨ block = none) := by
        rw [and_eq_zero_iff]
        exact not_or.mpr ⟨hmod, hsome⟩
      rw [if_neg hnot, show i / 32 = m by omega, linked_of_le le_rfl, hblock, List.append_nil]

/-- The loop from index `i` on. -/
theorem Quiescent.destroyLoop_eq (hq : Quiescent s) (h : Inv noexceptCtor s) :
    ∀ (d i m : ℕ) (block : Option β) (done : Destroyed α β),
      i + d = s.history.enqueued.length → s.history.tickets.claims ≤ i →
      InHand s.history i m block →
      s.destroyLoop (.ofNat i) block done =
        some ⟨done.elements ++ s.history.enqueued.drop i,
          done.blocks ++ s.history.linked m ((s.history.enqueued.length - 1) / 32)⟩ := by
  intro d
  induction d with
  | zero =>
    intro i m block done hd hi hm
    have hbounds := hm.bounds
    obtain rfl : i = s.history.enqueued.length := by omega
    rw [State.destroyLoop, dif_pos h.counters.tailIndex.symm, linked_of_le (by omega),
      List.drop_length, List.append_nil, List.append_nil]
  | succ d ih =>
    intro i m block done hd hi hm
    have hlt : i < s.history.enqueued.length := by omega
    have hroom := h.room.near
    have hne : UInt64.ofNat i ≠ s.tailIndex := by
      rw [h.counters.tailIndex, Ne, ← UInt64.toNat_inj, UInt64.toNat_ofNat', UInt64.toNat_ofNat']
      omega
    obtain ⟨x, hx⟩ := hq.live h hi hlt
    have hnext : InHand s.history (i + 1) (i / 32) (some x) := .inr ⟨nofun, hx, by omega, by omega⟩
    rw [State.destroyLoop, dif_neg hne, hq.advance_eq h hi hlt hm, hx]
    simp only [Option.map_some, Option.bind_eq_bind, Option.bind_some, hq.slot_eq h hi hlt hx]
    have happ : s.history.linked m (i / 32) ++ s.history.linked (i / 32)
        ((s.history.enqueued.length - 1) / 32) =
          s.history.linked m ((s.history.enqueued.length - 1) / 32) :=
      linked_append hm.bounds.1 (by omega)
    rw [← ofNat_succ', ih (i + 1) (i / 32) (some x) _ (by omega) (by omega) hnext,
      List.drop_eq_getElem_cons hlt, ← happ]
    simp

/-- The last block, which the loop leaves. -/
theorem Quiescent.tailBlock_eq (hq : Quiescent s) (h : Inv noexceptCtor s) (hl : LastBlock s)
    {n : ℕ} (hn : 32 * n < s.history.enqueued.length ∧ s.history.enqueued.length ≤ 32 * n + 32)
    (hlive : s.history.Live n) : s.history.blockOf n = s.tailBlock := by
  obtain ⟨x, hx⟩ := hlive
  by_cases hmod : s.history.enqueued.length % 32 = 0
  · rw [hx, hl hmod (by rw [hq.producer]; exact id) n x (by omega) hx]
  · obtain ⟨b, hb, hblock⟩ := h.storage.tailBlock (.inl hmod)
    rw [hb, ← hblock]
    congr 1
    omega

theorem Quiescent.destructor_eq (hq : Quiescent s) (h : Inv noexceptCtor s) (hl : LastBlock s) :
    s.destructor = some ⟨s.history.enqueued.drop s.history.tickets.claims,
      s.history.linked (s.history.tickets.claims / 32)
        ((s.history.enqueued.length + 31) / 32)⟩ := by
  have hle := h.counters.tickets.claims_le
  have hroom := h.room.near
  rw [h.counters.produced] at hle
  have hloop := hq.destroyLoop_eq h (s.history.enqueued.length - s.history.tickets.claims)
    s.history.tickets.claims _ none ⟨[], []⟩ (by omega) le_rfl (.inl ⟨rfl, rfl⟩)
  rw [← h.counters.headIndex, List.nil_append, List.nil_append] at hloop
  have hcond : (s.headIndex ≠ s.tailIndex ∨ s.tailIndex &&& (blockSize - 1) ≠ 0) ↔
      s.history.tickets.claims < s.history.enqueued.length ∨
        s.history.enqueued.length % 32 ≠ 0 := by
    rw [h.counters.headIndex, h.counters.tailIndex, Ne, Ne, and_eq_zero_iff, ← UInt64.toNat_inj,
      UInt64.toNat_ofNat', UInt64.toNat_ofNat']
    omega
  rw [State.destructor, hloop, Option.map_some]
  congr 1
  split_ifs with hforce
  · rw [hcond] at hforce
    obtain ⟨n, hn⟩ : ∃ n, 32 * n < s.history.enqueued.length ∧
        s.history.enqueued.length ≤ 32 * n + 32 := ⟨(s.history.enqueued.length - 1) / 32, by omega⟩
    have hlive : s.history.Live n := by
      rcases hforce with hlt | hmod
      · have hlast := hq.live h (i := s.history.enqueued.length - 1) (by omega) (by omega)
        rwa [show (s.history.enqueued.length - 1) / 32 = n by omega] at hlast
      · obtain ⟨x, -, hx⟩ := h.storage.tailBlock (.inl hmod)
        rw [show s.history.enqueued.length / 32 = n by omega] at hx
        exact ⟨x, hx⟩
    rw [← hq.tailBlock_eq h hl hn hlive, ← linked_succ,
      show (s.history.enqueued.length - 1) / 32 = n by omega,
      show (s.history.enqueued.length + 31) / 32 = n + 1 by omega,
      linked_append (by omega) (by omega)]
  · rw [hcond, not_or, not_lt, not_not] at hforce
    rw [linked_of_le (by omega), linked_of_le (by omega)]

/-- The blocks that are out are those the destructor gives back. -/
theorem Quiescent.mem_linked (hq : Quiescent s) (h : Inv noexceptCtor s) (ha : Accounted s)
    {x : β} :
    x ∈ s.history.linked (s.history.tickets.claims / 32) ((s.history.enqueued.length + 31) / 32) ↔
      x ∈ s.owned := by
  rw [History.linked, List.mem_filterMap]
  constructor
  · rintro ⟨n, -, hx⟩
    exact h.storage.owned n x hx
  · intro hx
    rcases ha x hx with ⟨n, hn⟩ | hnew | ⟨c, hfreed⟩
    · have hge := hq.live_ge h ⟨x, hn⟩
      have hlt : n < (s.history.enqueued.length + 31) / 32 := by
        rcases h.lookup with hno | ⟨header, k, hl⟩
        · rw [hno.blockOf] at hn
          cases hn
        · have hprod := hl.producer
          rw [hq.producer] at hprod
          exact (hl.entries.live_lt n ⟨x, hn⟩).trans_eq hprod
      exact ⟨n, List.mem_range'_1.mpr (by omega), hn⟩
    · rw [hq.producer] at hnew
      cases hnew
    · rw [hq.consumer c] at hfreed
      cases hfreed

theorem nodup_linked (h : Inv noexceptCtor s) (m n : ℕ) : (s.history.linked m n).Nodup :=
  (List.nodup_range' _).filterMap fun i i' x hx hx' => h.storage.inj i i' x hx hx'

theorem reachable_destructor [DecidableEq β] [DecidableEq C]
    (h : Transition.Reachable (NearStep noexceptCtor) Initial s) :
    Inv noexceptCtor s ∧ Accounted s ∧ LastBlock s := by
  refine h.invariant (I := fun s => Inv noexceptCtor s ∧ Accounted s ∧ LastBlock s)
    (fun s hs => ⟨inv_initial hs, accounted_initial hs, lastBlock_initial hs⟩) ?_
  rintro s a t ⟨hn, hs⟩ ⟨hi, ha, hl⟩
  exact ⟨inv_step hs hn hi, accounted_step hs hi ha, lastBlock_step hs hi hl⟩

/-- When all operations have completed, the destructor destroys what is left in line, oldest first,
and gives back every block that is out, each once. -/
theorem destructor_frees_all [DecidableEq β] [DecidableEq C]
    (h : Transition.Reachable (NearStep noexceptCtor) Initial s) (hq : Quiescent s) :
    ∃ done, s.destructor = some done ∧ done.elements = s.fifo.queue ∧ done.blocks.Nodup ∧
      ∀ x, x ∈ done.blocks ↔ x ∈ s.owned := by
  obtain ⟨hi, ha, hl⟩ := reachable_destructor h
  exact ⟨_, hq.destructor_eq hi hl, rfl, nodup_linked hi _ _, fun _ => hq.mem_linked hi ha⟩

theorem destructor_frees_all_first : ∃ s : State ℕ Unit Bool, ∃ done, s.destructor = some done ∧
    done.elements = s.fifo.queue ∧ done.blocks.Nodup := by
  obtain ⟨t, ht, ⟨hp, hc⟩, -⟩ := first_run
  obtain ⟨done, hdone, helements, hblocks, -⟩ := destructor_frees_all
    ⟨_, _, fresh_initial, run_near fresh_initial ht (by simp)⟩ ⟨hp, hc⟩
  exact ⟨t, done, hdone, helements, hblocks⟩

end NodesDetector.Queue
