import NodesDetector.Queue.Finishing

/-! Who owns which block: the index, the producer before it links one, or the consumer that found
one empty. -/
namespace NodesDetector.Queue

variable {α β C : Type}

/-- The block the producer has requisitioned and not linked. -/
def ProducerPc.newBlock : ProducerPc α β → Option β
  | .ready _ _ x | .filled _ _ x | .giveUp x => some x
  | .rewind _ x | .nullify _ x => x
  | _ => none

/-- Its new block is still as `reset_empty` left it. -/
def ProducerPc.resetBlock : ProducerPc α β → Option β
  | .ready _ _ x | .filled _ _ x => some x
  | _ => none

/-- The block of the next index is linked. -/
def ProducerPc.Linked : ProducerPc α β → Prop
  | .construct _ | .publish _ => True
  | _ => False

/-- The block the consumer is about to give back. -/
def ConsumerPc.freed : ConsumerPc α β → Option β
  | .recycle _ x _ => some x
  | _ => none

structure Storage (s : State α β C) : Prop where
  live : ∀ i, i < s.history.enqueued.length → i ∉ s.history.finished → s.history.Live (i / 32)
  emptied : ∀ c i, s.history.tickets.phase c = .claimed i → (s.consumer c).Emptied →
    s.history.Live (i / 32)
  live_open : ∀ n, s.history.Live n → (∃ i, i / 32 = n ∧ i ∉ s.history.finished) ∨
    ∃ c i, s.history.tickets.phase c = .claimed i ∧ (s.consumer c).Emptied ∧ i / 32 = n
  counter : ∀ n x, s.history.blockOf n = some x →
    (s.blocks x).elementsCompletelyDequeued = .ofNat (s.history.finishedIn n).card
  inj : ∀ n n' x, s.history.blockOf n = some x → s.history.blockOf n' = some x → n = n'
  owned : ∀ n x, s.history.blockOf n = some x → x ∈ s.owned
  spare : ∀ x, s.producer.newBlock = some x → x ∈ s.owned ∧ ∀ n, s.history.blockOf n ≠ some x
  reset : ∀ x, s.producer.resetBlock = some x → (s.blocks x).elementsCompletelyDequeued = 0
  freed : ∀ c x, (s.consumer c).freed = some x →
    x ∈ s.owned ∧ (∀ n, s.history.blockOf n ≠ some x) ∧ s.producer.newBlock ≠ some x
  freed_inj : ∀ c c' x, (s.consumer c).freed = some x → (s.consumer c').freed = some x → c = c'
  tailBlock : s.history.enqueued.length % 32 ≠ 0 ∨ s.producer.Linked →
    ∃ x, s.tailBlock = some x ∧ s.history.blockOf (s.history.enqueued.length / 32) = some x

theorem storage_initial {s : State α β C} (h : Initial s) : Storage s := by
  obtain ⟨blocks, entries, junk, rfl | rfl⟩ := h
  all_goals
    refine ⟨nofun, nofun, ?_, nofun, nofun, nofun, nofun, nofun, nofun, nofun, ?_⟩
    · rintro n ⟨x, hx⟩
      cases hx
    · rintro (hne | hl)
      · exact (hne rfl).elim
      · exact hl.elim

variable {s : State α β C}

/-- Only the producer's position and the index change. -/
theorem Storage.of_producer (h : Storage s) {p : ProducerPc α β} {b : BlockIndex β}
    {w : History α β C} (hw : w.enqueued = s.history.enqueued ∧ w.blockOf = s.history.blockOf ∧
      w.finished = s.history.finished ∧ w.tickets = s.history.tickets)
    (hn : ∀ x, p.newBlock = some x → s.producer.newBlock = some x)
    (hr : ∀ x, p.resetBlock = some x → s.producer.resetBlock = some x)
    (hl : p.Linked → s.history.enqueued.length % 32 ≠ 0 ∨ s.producer.Linked) :
    Storage { s with producer := p, index := b, history := w } := by
  obtain ⟨_, _, _, _, _, _⟩ := w
  obtain ⟨he, hb, hf, ht⟩ := hw
  simp only at he hb hf ht
  subst he hb hf ht
  refine { h with spare := ?_, reset := ?_, freed := ?_, tailBlock := ?_ }
  · exact fun x hx => h.spare x (hn x hx)
  · exact fun x hx => h.reset x (hr x hx)
  · intro c x hx
    obtain ⟨howned, hblock, hne⟩ := h.freed c x hx
    exact ⟨howned, hblock, fun hp => hne (hn x hp)⟩
  · exact fun hor => h.tailBlock (hor.elim .inl hl)

/-- Consumers that hold no block move. -/
theorem Storage.of_consumer (h : Storage s) {consumer : C → ConsumerPc α β}
    {tickets : Tickets.State C}
    (he : ∀ c i, tickets.phase c = .claimed i ∧ (consumer c).Emptied ↔
      s.history.tickets.phase c = .claimed i ∧ (s.consumer c).Emptied)
    (hf : ∀ c x, (consumer c).freed = some x → (s.consumer c).freed = some x) :
    Storage { s with consumer := consumer, history := { s.history with tickets := tickets } } := by
  refine { h with emptied := ?_, live_open := ?_, freed := ?_, freed_inj := ?_ }
  · intro c i hp hem
    obtain ⟨hp', hem'⟩ := (he c i).mp ⟨hp, hem⟩
    exact h.emptied c i hp' hem'
  · intro n hn
    rcases h.live_open n hn with hopen | ⟨c, i, hp, hem, hi⟩
    · exact .inl hopen
    · obtain ⟨hp', hem'⟩ := (he c i).mpr ⟨hp, hem⟩
      exact .inr ⟨c, i, hp', hem', hi⟩
  · exact fun c x hx => h.freed c x (hf c x hx)
  · exact fun c c' x hx hx' => h.freed_inj c c' x (hf c x hx) (hf c' x hx')

theorem newBlock_of_resetBlock {p : ProducerPc α β} {x : β} (h : p.resetBlock = some x) :
    p.newBlock = some x := by
  cases p <;> simp_all [ProducerPc.newBlock, ProducerPc.resetBlock]

/-- Elements are written or destroyed, the counters stay. -/
theorem Storage.of_blocks (h : Storage s) {blocks : β → Block α}
    (hb : ∀ x, (blocks x).elementsCompletelyDequeued = (s.blocks x).elementsCompletelyDequeued) :
    Storage { s with blocks := blocks } :=
  { h with
    counter := fun n x hx => (hb x).trans (h.counter n x hx)
    reset := fun x hx => (hb x).trans (h.reset x hx) }

variable [DecidableEq β]

theorem counter_update (b : β) {block : Block α}
    (hb : block.elementsCompletelyDequeued = (s.blocks b).elementsCompletelyDequeued) (x : β) :
    (Function.update s.blocks b block x).elementsCompletelyDequeued =
      (s.blocks x).elementsCompletelyDequeued := by
  rcases eq_or_ne x b with rfl | hne
  · rw [Function.update_self, hb]
  · rw [Function.update_of_ne hne]

/-- A block that nobody has comes in. -/
theorem Storage.requisition (h : Storage s) {b : β} (hb : b ∉ s.owned) (block : Block α) (x : α)
    (e : ℕ) :
    Storage { s with
      producer := .ready x e b
      blocks := Function.update s.blocks b block.resetEmpty
      owned := insert b s.owned } := by
  refine { h with
    counter := ?_, owned := ?_, spare := ?_, reset := ?_, freed := ?_, tailBlock := ?_ }
  · intro n y hy
    have hne : y ≠ b := by
      rintro rfl
      exact hb (h.owned n y hy)
    simpa [Function.update_of_ne hne] using h.counter n y hy
  · exact fun n y hy => Set.mem_insert_of_mem b (h.owned n y hy)
  · intro y hy
    obtain rfl : b = y := Option.some.inj hy
    exact ⟨Set.mem_insert _ _, fun n hn => hb (h.owned n b hn)⟩
  · intro y hy
    obtain rfl : b = y := Option.some.inj hy
    simp [Block.resetEmpty]
  · intro c y hy
    obtain ⟨howned, hblock, -⟩ := h.freed c y hy
    refine ⟨Set.mem_insert_of_mem b howned, hblock, fun hp => hb ?_⟩
    obtain rfl : b = y := Option.some.inj hp
    exact howned
  · rintro (hne | hl)
    · exact h.tailBlock (.inl hne)
    · exact hl.elim

omit [DecidableEq β] in
/-- A block goes back unused. -/
theorem Storage.giveUp (h : Storage s) {b : β} (hp : s.producer = .giveUp b) :
    Storage { s with producer := .idle, owned := s.owned \ {b} } := by
  have hnew : s.producer.newBlock = some b := by rw [hp]; rfl
  refine { h with owned := ?_, spare := nofun, reset := nofun, freed := ?_, tailBlock := ?_ }
  · intro n y hy
    refine ⟨h.owned n y hy, ?_⟩
    rintro rfl
    exact (h.spare y hnew).2 n hy
  · intro c y hy
    obtain ⟨howned, hblock, hne⟩ := h.freed c y hy
    refine ⟨⟨howned, ?_⟩, hblock, nofun⟩
    rintro rfl
    exact hne hnew
  · rintro (hne | hl)
    · exact h.tailBlock (.inl hne)
    · exact hl.elim

omit [DecidableEq β] in
/-- The new block is linked for the next index. -/
theorem Storage.link (h : Storage s) {p : ProducerPc α β} {b : β} {index : BlockIndex β}
    (hr : s.producer.resetBlock = some b) (hp : p.newBlock = none)
    (hfirst : s.history.enqueued.length % 32 = 0)
    (hfin : ∀ i ∈ s.history.finished, i < s.history.enqueued.length) :
    Storage { s with
      producer := p, index := index, tailBlock := some b, history := s.history.link b } := by
  have hnew := newBlock_of_resetBlock hr
  have hspare := h.spare b hnew
  have hlink : ∀ n x, (s.history.link b).blockOf n = some x →
      n = s.history.enqueued.length / 32 ∧ x = b ∨ s.history.blockOf n = some x := by
    intro n x hx
    rcases eq_or_ne n (s.history.enqueued.length / 32) with rfl | hne
    · simp only [History.link, Function.update_self] at hx
      exact .inl ⟨rfl, (Option.some.inj hx).symm⟩
    · simp only [History.link, Function.update_of_ne hne] at hx
      exact .inr hx
  have hlive : ∀ n, s.history.Live n → (s.history.link b).Live n := by
    rintro n ⟨x, hx⟩
    rcases eq_or_ne n (s.history.enqueued.length / 32) with rfl | hne
    · exact ⟨b, by simp [History.link]⟩
    · exact ⟨x, by simpa [History.link, Function.update_of_ne hne] using hx⟩
  refine ⟨fun i hi hf => hlive _ (h.live i hi hf), fun c i hc he => hlive _ (h.emptied c i hc he),
    ?_, ?_, ?_, ?_, ?_, ?_, ?_, h.freed_inj, fun _ => ⟨b, rfl, by simp [History.link]⟩⟩
  · rintro n ⟨x, hx⟩
    rcases hlink n x hx with ⟨rfl, -⟩ | hx
    · exact .inl ⟨s.history.enqueued.length, rfl, fun hmem => (hfin _ hmem).false⟩
    · exact h.live_open n ⟨x, hx⟩
  · intro n x hx
    rcases hlink n x hx with ⟨rfl, rfl⟩ | hx
    · have hempty : (s.history.link x).finishedIn (s.history.enqueued.length / 32) = ∅ := by
        apply Finset.filter_eq_empty_iff.mpr
        intro i hi
        have := hfin i hi
        omega
      rw [hempty]
      exact h.reset x hr
    · exact h.counter n x hx
  · intro n n' x hx hx'
    rcases hlink n x hx with ⟨hn, hxb⟩ | hold <;> rcases hlink n' x hx' with ⟨hn', hxb'⟩ | hold'
    · exact hn.trans hn'.symm
    · exact (hspare.2 n' (hxb ▸ hold')).elim
    · exact (hspare.2 n (hxb' ▸ hold)).elim
    · exact h.inj n n' x hold hold'
  · intro n x hx
    rcases hlink n x hx with ⟨-, rfl⟩ | hx
    · exact hspare.1
    · exact h.owned n x hx
  · intro x hx
    rw [hp] at hx
    cases hx
  · intro x hx
    have := newBlock_of_resetBlock hx
    rw [hp] at this
    cases this
  · intro c x hx
    obtain ⟨howned, hblock, hne⟩ := h.freed c x hx
    refine ⟨howned, ?_, by simp [hp]⟩
    intro n hn
    rcases hlink n x hn with ⟨-, rfl⟩ | hn
    · exact hne hnew
    · exact hblock n hn

omit [DecidableEq β] in
theorem Storage.publish (h : Storage s) {x : α} (hp : s.producer = .publish x) (tailIndex : Index) :
    Storage { s with
      producer := .idle, tailIndex := tailIndex, history := s.history.publish x } := by
  obtain ⟨b, htail, hlinked⟩ := h.tailBlock (.inr (by rw [hp]; trivial))
  refine { h with live := ?_, spare := nofun, reset := nofun, freed := ?_, tailBlock := ?_ }
  · intro i hi hf
    have hlen := s.history.length_publish x
    rcases Nat.lt_succ_iff_lt_or_eq.mp (hlen ▸ hi) with hlt | rfl
    · exact h.live i hlt hf
    · exact ⟨b, hlinked⟩
  · intro c y hy
    obtain ⟨howned, hblock, -⟩ := h.freed c y hy
    exact ⟨howned, hblock, nofun⟩
  · intro hor
    have hlen := s.history.length_publish x
    have hmod : (s.history.enqueued.length + 1) % 32 ≠ 0 := hlen ▸ hor.resolve_right id
    have hdiv : (s.history.enqueued.length + 1) / 32 = s.history.enqueued.length / 32 := by omega
    refine ⟨b, htail, ?_⟩
    rw [hlen, hdiv]
    exact hlinked

/-! ### Consumers -/

omit [DecidableEq β] in
theorem exists_open_of_card {w : History α β C} {n : ℕ} (h : (w.finishedIn n).card < 32) :
    ∃ i, i / 32 = n ∧ i ∉ w.finished := by
  by_contra hno
  push Not at hno
  have hsub : Finset.Ico (32 * n) (32 * n + 32) ⊆ w.finishedIn n := by
    intro i hi
    have hi' := Finset.mem_Ico.mp hi
    have hn : i / 32 = n := by omega
    exact Finset.mem_filter.mpr ⟨hno i hn, hn⟩
  have := Finset.card_le_card hsub
  rw [Nat.card_Ico] at this
  omega

variable [DecidableEq C] {c : C} {i : ℕ} {b : β}

/-- A consumer that counts its slot out of its block. -/
theorem Storage.finish (h : Storage s) {pc : ConsumerPc α β} {block : Block α}
    (hp : s.history.tickets.phase c = .claimed i) (hread : (s.consumer c).Reading)
    (hb : s.history.blockOf (i / 32) = some b) (hi : i ∉ s.history.finished)
    (hpc : pc.Emptied ↔ (s.history.finishedIn (i / 32)).card = 31) (hfreed : pc.freed = none)
    (hblock : block.elementsCompletelyDequeued = (s.blocks b).elementsCompletelyDequeued + 1) :
    Storage { s with
      consumer := Function.update s.consumer c pc
      blocks := Function.update s.blocks b block
      history := { s.history with finished := insert i s.history.finished } } := by
  have hne : ∀ c', (s.consumer c').Emptied → c' ≠ c := by
    rintro c' he rfl
    generalize s.consumer c' = pc' at hread he
    cases pc' <;> simp_all [ConsumerPc.Reading, ConsumerPc.Emptied]
  have hold : ∀ c' x, (Function.update s.consumer c pc c').freed = some x →
      (s.consumer c').freed = some x := by
    intro c' x hx
    rcases eq_or_ne c' c with rfl | hcc
    · simp [hfreed] at hx
    · rwa [Function.update_of_ne hcc] at hx
  have hcard := card_finishedIn_insert hi
  refine { h with
    live := ?_, emptied := ?_, live_open := ?_, counter := ?_, reset := ?_, freed := ?_
    freed_inj := ?_ }
  · intro j hj hf
    exact h.live j hj fun hmem => hf (Finset.mem_insert_of_mem hmem)
  · intro c' j hj he
    rcases eq_or_ne c' c with rfl | hcc
    · obtain rfl : i = j := by simpa [hp] using hj
      exact ⟨b, hb⟩
    · simp only [Function.update_of_ne hcc] at he
      exact h.emptied c' j hj he
  · intro n hn
    rcases eq_or_ne n (i / 32) with rfl | hni
    · by_cases hlast : (s.history.finishedIn (i / 32)).card = 31
      · exact .inr ⟨c, i, hp, by simpa using hpc.mpr hlast, rfl⟩
      · have hlt := card_finishedIn_lt hi
        left
        apply exists_open_of_card
        refine hcard.trans_lt ?_
        omega
    · rcases h.live_open n hn with ⟨j, hj, hf⟩ | ⟨c', j, hj, he, hjn⟩
      · refine .inl ⟨j, hj, fun hmem => ?_⟩
        rcases Finset.mem_insert.mp hmem with rfl | hmem
        · exact hni hj.symm
        · exact hf hmem
      · exact .inr ⟨c', j, hj, by simpa [Function.update_of_ne (hne c' he)] using he, hjn⟩
  · intro n x hx
    have hx' : s.history.blockOf n = some x := hx
    rcases eq_or_ne x b with rfl | hxb
    · obtain rfl : n = i / 32 := h.inj n _ x hx' hb
      rw [hcard, Circular.ofNat_succ, UInt64.add_comm, ← h.counter _ x hb]
      simpa using hblock
    · have hni : i / 32 ≠ n := by
        rintro rfl
        exact hxb (Option.some.inj (hx'.symm.trans hb))
      rw [finishedIn_insert_of_ne hni]
      simpa [Function.update_of_ne hxb] using h.counter n x hx'
  · intro x hx
    have hxb : x ≠ b := by
      rintro rfl
      exact (h.spare x (newBlock_of_resetBlock hx)).2 _ hb
    simpa [Function.update_of_ne hxb] using h.reset x hx
  · exact fun c' x hx => h.freed c' x (hold c' x hx)
  · exact fun c₁ c₂ x h₁ h₂ => h.freed_inj c₁ c₂ x (hold c₁ x h₁) (hold c₂ x h₂)

omit [DecidableEq β] in
/-- A consumer takes its block out of the index. -/
theorem Storage.unlink (h : Storage s) (hf : Finishing s.history s.consumer)
    (hlt : ∀ i ∈ s.history.finished, i < s.history.enqueued.length)
    (hp : s.history.tickets.phase c = .claimed i) (hem : (s.consumer c).Emptied)
    (hb : s.history.blockOf (i / 32) = some b) (index : BlockIndex β) (j : Index) (x : α) :
    Storage { s with
      consumer := Function.update s.consumer c (.recycle j b x)
      index := index
      history := { s.history with
        blockOf := Function.update s.history.blockOf (i / 32) none } } := by
  have hall := hf.emptied c i hp hem
  have hof : ∀ n y, Function.update s.history.blockOf (i / 32) none n = some y →
      n ≠ i / 32 ∧ s.history.blockOf n = some y := by
    intro n y hy
    rcases eq_or_ne n (i / 32) with rfl | hne
    · simp at hy
    · exact ⟨hne, by rwa [Function.update_of_ne hne] at hy⟩
  have hkeep : ∀ n, n ≠ i / 32 → s.history.Live n → History.Live { s.history with
      blockOf := Function.update s.history.blockOf (i / 32) none } n := by
    rintro n hne ⟨y, hy⟩
    exact ⟨y, by simpa [Function.update_of_ne hne] using hy⟩
  have hother : ∀ c', (Function.update s.consumer c (.recycle j b x) c').Emptied →
      c' ≠ c ∧ (s.consumer c').Emptied := by
    intro c' he
    rcases eq_or_ne c' c with rfl | hcc
    · simp [ConsumerPc.Emptied] at he
    · exact ⟨hcc, by rwa [Function.update_of_ne hcc] at he⟩
  have hfreed : ∀ c' y, (Function.update s.consumer c (.recycle j b x) c').freed = some y →
      c' = c ∧ y = b ∨ (s.consumer c').freed = some y := by
    intro c' y hy
    rcases eq_or_ne c' c with rfl | hcc
    · left
      simpa [ConsumerPc.freed, eq_comm] using hy
    · right
      rwa [Function.update_of_ne hcc] at hy
  refine { h with
    live := ?_, emptied := ?_, live_open := ?_, counter := ?_, inj := ?_, owned := ?_, spare := ?_
    freed := ?_, freed_inj := ?_, tailBlock := ?_ }
  · intro i' hi' hfin
    exact hkeep _ (fun heq => hfin (hall i' heq)) (h.live i' hi' hfin)
  · intro c' i' hp' he
    obtain ⟨hcc, he'⟩ := hother c' he
    exact hkeep _ (fun heq => hcc (hf.emptied_inj c' c i' i hp' hp he' hem heq))
      (h.emptied c' i' hp' he')
  · rintro n ⟨y, hy⟩
    obtain ⟨hne, hy⟩ := hof n y hy
    rcases h.live_open n ⟨y, hy⟩ with hopen | ⟨c', i', hp', he, rfl⟩
    · exact .inl hopen
    · have hcc : c' ≠ c := by
        rintro rfl
        obtain rfl : i = i' := by simpa [hp] using hp'
        exact hne rfl
      exact .inr ⟨c', i', hp', by simpa [Function.update_of_ne hcc] using he, rfl⟩
  · exact fun n y hy => h.counter n y (hof n y hy).2
  · exact fun n n' y hy hy' => h.inj n n' y (hof n y hy).2 (hof n' y hy').2
  · exact fun n y hy => h.owned n y (hof n y hy).2
  · intro y hy
    obtain ⟨howned, hnot⟩ := h.spare y hy
    exact ⟨howned, fun n hn => hnot n (hof n y hn).2⟩
  · intro c' y hy
    rcases hfreed c' y hy with ⟨-, rfl⟩ | hy
    · refine ⟨h.owned _ y hb, ?_, fun hnew => (h.spare y hnew).2 _ hb⟩
      intro n hn
      obtain ⟨hne, hn⟩ := hof n y hn
      exact hne (h.inj n _ y hn hb)
    · obtain ⟨howned, hblock, hnew⟩ := h.freed c' y hy
      exact ⟨howned, fun n hn => hblock n (hof n y hn).2, hnew⟩
  · intro c₁ c₂ y h₁ h₂
    rcases hfreed c₁ y h₁ with ⟨hc₁, hy₁⟩ | hold₁ <;>
      rcases hfreed c₂ y h₂ with ⟨hc₂, hy₂⟩ | hold₂
    · exact hc₁.trans hc₂.symm
    · exact ((h.freed c₂ y hold₂).2.1 _ (hy₁ ▸ hb)).elim
    · exact ((h.freed c₁ y hold₁).2.1 _ (hy₂ ▸ hb)).elim
    · exact h.freed_inj c₁ c₂ y hold₁ hold₂
  · intro hor
    obtain ⟨y, htail, hy⟩ := h.tailBlock hor
    have hne : s.history.enqueued.length / 32 ≠ i / 32 := fun heq =>
      (hlt _ (hall _ heq)).false
    exact ⟨y, htail, by simpa [Function.update_of_ne hne] using hy⟩

omit [DecidableEq β] in
/-- A consumer gives the block back. -/
theorem Storage.recycle (h : Storage s) {j : Index} {x : α}
    (hc : s.consumer c = .recycle j b x) :
    Storage { s with
      consumer := Function.update s.consumer c (.done (some x)), owned := s.owned \ {b} } := by
  have hfreed : (s.consumer c).freed = some b := by rw [hc]; rfl
  have hne : ∀ c', (s.consumer c').Emptied → c' ≠ c := by
    rintro c' he rfl
    rw [hc] at he
    exact he
  have hother : ∀ c' y, (Function.update s.consumer c (.done (some x)) c').freed = some y →
      c' ≠ c ∧ (s.consumer c').freed = some y := by
    intro c' y hy
    rcases eq_or_ne c' c with rfl | hcc
    · simp [ConsumerPc.freed] at hy
    · exact ⟨hcc, by rwa [Function.update_of_ne hcc] at hy⟩
  refine { h with
    emptied := ?_, live_open := ?_, owned := ?_, spare := ?_, freed := ?_, freed_inj := ?_ }
  · intro c' i hp he
    rcases eq_or_ne c' c with rfl | hcc
    · simp [ConsumerPc.Emptied] at he
    · exact h.emptied c' i hp (by simpa [Function.update_of_ne hcc] using he)
  · intro n hn
    rcases h.live_open n hn with hopen | ⟨c', i, hp, he, hi⟩
    · exact .inl hopen
    · exact .inr ⟨c', i, hp, by simpa [Function.update_of_ne (hne c' he)] using he, hi⟩
  · intro n y hy
    refine ⟨h.owned n y hy, ?_⟩
    rintro rfl
    exact (h.freed c y hfreed).2.1 n hy
  · intro y hy
    obtain ⟨howned, hblock⟩ := h.spare y hy
    refine ⟨⟨howned, ?_⟩, hblock⟩
    rintro rfl
    exact (h.freed c y hfreed).2.2 hy
  · intro c' y hy
    obtain ⟨hcc, hold⟩ := hother c' y hy
    obtain ⟨howned, hrest⟩ := h.freed c' y hold
    refine ⟨⟨howned, ?_⟩, hrest⟩
    rintro rfl
    exact hcc (h.freed_inj c' c y hold hfreed)
  · exact fun c₁ c₂ y h₁ h₂ => h.freed_inj c₁ c₂ y (hother c₁ y h₁).2 (hother c₂ y h₂).2

omit [DecidableEq β] in
/-- A consumer that holds no block moves. -/
theorem Storage.move (h : Storage s) {p : Tickets.Phase} {pc : ConsumerPc α β}
    {tickets : Tickets.State C}
    (hphase : tickets.phase = Function.update s.history.tickets.phase c p)
    (hold : ¬ (s.consumer c).Emptied) (he : ¬ pc.Emptied) (hf : pc.freed = none) :
    Storage { s with
      consumer := Function.update s.consumer c pc
      history := { s.history with tickets := tickets } } := by
  apply h.of_consumer
  · intro c' i
    rw [hphase]
    rcases eq_or_ne c' c with rfl | hne
    · simp [hold, he]
    · simp [Function.update_of_ne hne]
  · intro c' x hx
    rcases eq_or_ne c' c with rfl | hne
    · simp [hf] at hx
    · simpa [Function.update_of_ne hne] using hx

omit [DecidableEq β] in
/-- A consumer's position changes, not its ticket. -/
theorem Storage.move_pc (h : Storage s) {pc : ConsumerPc α β} (hold : ¬ (s.consumer c).Emptied)
    (he : ¬ pc.Emptied) (hf : pc.freed = none) :
    Storage { s with consumer := Function.update s.consumer c pc } :=
  h.move (Function.update_eq_self _ _).symm hold he hf

/-- Whoever found a block found that of its index. -/
def Found (s : State α β C) : Prop :=
  ∀ c i x, s.history.tickets.phase c = .claimed i → (s.consumer c).found = some x →
    s.history.blockOf (i / 32) = some x

variable {noexceptCtor : Bool} {t : State α β C} {a : Label α C}

theorem storage_step (hs : Step noexceptCtor s a t) (hc : Counters s) (hr : Room s)
    (hfin : Finishing s.history s.consumer) (hfound : Found s) (h : Storage s) : Storage t := by
  have hlt : ∀ i ∈ s.history.finished, i < s.history.enqueued.length := by
    intro i hi
    have := hfin.lt i hi
    have := hc.tickets.claims_le
    have := hc.produced
    omega
  cases hs with
  | call x hp =>
    have hpc : ∀ p : ProducerPc α β, p = .boundary x ∨ p = .construct x ∧
        s.history.enqueued.length % 32 ≠ 0 → Storage (s.toProducer p) := by
      rintro p (rfl | ⟨rfl, hmod⟩)
      · exact h.of_producer ⟨rfl, rfl, rfl, rfl⟩ nofun nofun nofun
      · exact h.of_producer ⟨rfl, rfl, rfl, rfl⟩ nofun nofun fun _ => .inl hmod
    apply hpc
    split_ifs with hzero
    · exact .inl rfl
    · refine .inr ⟨rfl, ?_⟩
      rwa [hc.tailIndex, and_eq_zero_iff] at hzero
  | boundary hp | insert hp =>
    refine h.of_producer ⟨rfl, rfl, rfl, rfl⟩ ?_ ?_ ?_ <;> split_ifs <;> exact nofun
  | insertNull | key | growFailed | grow | grown | tail | requisitionFailed | constructThrows =>
    exact h.of_producer ⟨rfl, rfl, rfl, rfl⟩ nofun nofun nofun
  | requisition b block hp hb => exact h.requisition hb block _ _
  | rewind hp =>
    exact h.of_producer ⟨rfl, rfl, rfl, rfl⟩ (by rw [hp]; exact fun _ hx => hx) nofun nofun
  | @nullify e newBlock hp =>
    cases newBlock with
    | none => exact h.of_producer ⟨rfl, rfl, rfl, rfl⟩ nofun nofun nofun
    | some b =>
      exact h.of_producer ⟨rfl, rfl, rfl, rfl⟩ (by rw [hp]; exact fun _ hx => hx) nofun nofun
  | giveUp hp => exact h.giveUp hp
  | link hn hp | linkFilled hp =>
    have hfirst : s.history.enqueued.length % 32 = 0 := hr.first (by rw [hp]; trivial)
    exact h.link (by rw [hp]; rfl) rfl hfirst hlt
  | fill hn hp =>
    exact (h.of_producer (p := .filled _ _ _) (b := s.index) (w := s.history) ⟨rfl, rfl, rfl, rfl⟩
      (by rw [hp]; exact fun _ hx => hx) (by rw [hp]; exact fun _ hx => hx) nofun).of_blocks
      (counter_update _ rfl)
  | fillThrows hn hp =>
    exact h.of_producer ⟨rfl, rfl, rfl, rfl⟩ (by rw [hp]; exact fun _ hx => hx) nofun nofun
  | construct hp hb =>
    have hlinked : s.producer.Linked := by rw [hp]; trivial
    exact (h.of_producer (p := .publish _) (b := s.index) (w := s.history) ⟨rfl, rfl, rfl, rfl⟩
      nofun nofun fun _ => .inr hlinked).of_blocks (counter_update _ rfl)
  | publish hp => exact h.publish hp _
  | start hp | readTail hp | optimistic hp | readHeader hp | readHeaderTail hp | readKey hp
  | readValue hp | move hp =>
    exact h.move_pc (by simp [hp, ConsumerPc.Emptied]) (by simp [ConsumerPc.Emptied]) rfl
  | readOvercommit hp =>
    have hph := hc.of_pc hp
    exact h.move (Tickets.State.phase_read hph) (by simp [hp, ConsumerPc.Emptied])
      (by simp [ConsumerPc.Emptied]) rfl
  | hopeless hp hl =>
    obtain ⟨n, hph, -⟩ := hc.of_pc hp
    exact h.move (Tickets.State.phase_leave hph) (by simp [hp, ConsumerPc.Emptied])
      (by simp [ConsumerPc.Emptied]) rfl
  | @count c o hp =>
    obtain ⟨n, hph, -⟩ := hc.of_pc hp
    have hm : Storage ((s.toConsumer c (.counted o s.dequeueOptimisticCount)).withTickets
        (·.draw c)) :=
      h.move (Tickets.State.phase_draw hph) (by simp [hp, ConsumerPc.Emptied])
        (by simp [ConsumerPc.Emptied]) rfl
    exact { hm with }
  | grant hp hl =>
    obtain ⟨n, k, hph, -, -⟩ := hc.of_pc hp
    exact h.move (Tickets.State.phase_grant hph) (by simp [hp, ConsumerPc.Emptied])
      (by simp [ConsumerPc.Emptied]) rfl
  | refuse hp hl =>
    obtain ⟨n, k, hph, -, -⟩ := hc.of_pc hp
    exact h.move (Tickets.State.phase_refuse hph) (by simp [hp, ConsumerPc.Emptied])
      (by simp [ConsumerPc.Emptied]) rfl
  | @giveBack c hp =>
    obtain ⟨k, hph⟩ := hc.of_pc hp
    have hm : Storage ((s.toConsumer c (.done none)).withTickets (·.giveBack c)) :=
      h.move (Tickets.State.phase_giveBack hph) (by simp [hp, ConsumerPc.Emptied])
        (by simp [ConsumerPc.Emptied]) rfl
    exact { hm with }
  | @claim c hp =>
    obtain ⟨k, hph⟩ := hc.of_pc hp
    have hm : Storage ((s.toConsumer c (.index s.headIndex)).withTickets (·.claim c)) :=
      h.move (Tickets.State.phase_claim hph) (by simp [hp, ConsumerPc.Emptied])
        (by simp [ConsumerPc.Emptied]) rfl
    exact { hm with }
  | @destroy c i e b x hp =>
    have hm : Storage (s.toConsumer c (.destroyed i e b x)) :=
      h.move_pc (by simp [hp, ConsumerPc.Emptied]) (by simp [ConsumerPc.Emptied]) rfl
    exact hm.of_blocks (counter_update (s := s) b rfl)
  | @setEmpty c j e b x hp hb =>
    obtain ⟨i, hph, -⟩ := hc.of_pc hp
    have hread : (s.consumer c).Reading := by rw [hp]; trivial
    have hblock := hfound c i b hph (by rw [hp]; rfl)
    have hnot := hfin.reading c i hph hread
    simp only [History.finish, hph]
    refine h.finish hph hread hblock hnot ?_ rfl rfl
    simp only [ConsumerPc.Emptied, false_iff]
    intro h31
    have hcount := h.counter _ b hblock
    rw [h31] at hcount
    simp [Block.setEmpty, hcount, blockSize] at hb
  | @setEmptyLast c j e b x hp hb =>
    obtain ⟨i, hph, -⟩ := hc.of_pc hp
    have hread : (s.consumer c).Reading := by rw [hp]; trivial
    have hblock := hfound c i b hph (by rw [hp]; rfl)
    have hnot := hfin.reading c i hph hread
    simp only [History.finish, hph]
    refine h.finish hph hread hblock hnot ?_ rfl rfl
    simp only [ConsumerPc.Emptied, true_iff]
    exact card_of_setEmpty (h.counter _ b hblock) (card_finishedIn_le _ _) hb
  | @unlink c j e b x hp =>
    obtain ⟨i, hph, -⟩ := hc.of_pc hp
    have hblock := hfound c i b hph (by rw [hp]; rfl)
    simp only [History.unlink, hph]
    exact h.unlink hfin hlt hph (by rw [hp]; trivial) hblock _ j x
  | recycle hp => exact h.recycle hp
  | ret hp =>
    have hph := phase_of_done hc hp
    exact h.move (Tickets.State.phase_release hph) (by simp [hp, ConsumerPc.Emptied])
      (by simp [ConsumerPc.Emptied]) rfl

end NodesDetector.Queue
