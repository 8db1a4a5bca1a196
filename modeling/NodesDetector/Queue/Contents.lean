import NodesDetector.Queue.Storage

/-! Which element stands in which slot, and which one a consumer carries away. -/
namespace NodesDetector.Queue

variable {α β C : Type}

/-- The consumer has destroyed its element and not yet called `set_empty`. -/
def ConsumerPc.Destroyed : ConsumerPc α β → Prop
  | .destroyed _ _ _ _ => True
  | _ => False

/-- The element a consumer has moved out. -/
def ConsumerPc.element : ConsumerPc α β → Option α
  | .moved _ _ _ y | .destroyed _ _ _ y | .emptied _ _ _ y | .recycle _ _ y => some y
  | .done y => y
  | _ => none

structure Contents (w : History α β C) (blocks : β → Block α) (p : ProducerPc α β)
    (consumer : C → ConsumerPc α β) : Prop where
  slots : ∀ i x, i < w.enqueued.length → i ∉ w.finished → w.blockOf (i / 32) = some x →
    (∀ c, w.tickets.phase c = .claimed i → ¬ (consumer c).Destroyed) →
    (blocks x).elements (i % 32) = w.enqueued[i]?
  filled : ∀ y e x, p = .filled y e x → (blocks x).elements (w.enqueued.length % 32) = some y
  written : ∀ y x, p = .publish y → w.blockOf (w.enqueued.length / 32) = some x →
    (blocks x).elements (w.enqueued.length % 32) = some y
  results : ∀ c i y, w.tickets.phase c = .claimed i → (consumer c).element = some y →
    w.enqueued[i]? = some y

theorem contents_initial {s : State α β C} (h : Initial s) :
    Contents s.history s.blocks s.producer s.consumer := by
  obtain ⟨blocks, entries, junk, rfl | rfl⟩ := h
  all_goals exact ⟨nofun, nofun, nofun, nofun⟩

variable {w : History α β C} {blocks : β → Block α} {p p' : ProducerPc α β}
  {consumer : C → ConsumerPc α β} {b x : β} {i j : ℕ} {y : α}

/-- The producer moves and neither fills nor publishes. -/
theorem Contents.of_producer (h : Contents w blocks p consumer) (hf : ∀ y e x, p' ≠ .filled y e x)
    (hp : ∀ y, p' ≠ .publish y) : Contents w blocks p' consumer :=
  { h with
    filled := fun y e x he => (hf y e x he).elim
    written := fun y _ he => (hp y he).elim }

/-- An element is published. -/
theorem Contents.publish (h : Contents w blocks p consumer) (hp : p = .publish y) :
    Contents (w.publish y) blocks .idle consumer := by
  have hlen := w.length_publish y
  refine ⟨?_, nofun, nofun, ?_⟩
  · intro i x hi hfin hx hd
    rcases Nat.lt_succ_iff_lt_or_eq.mp (hlen ▸ hi) with hlt | rfl
    · rw [h.slots i x hlt hfin hx hd]
      simp [History.publish, List.getElem?_append_left hlt]
    · rw [h.written y x hp hx]
      simp [History.publish]
  · intro c i z hc hz
    have hold := h.results c i z hc hz
    have hlt := (List.getElem?_eq_some_iff.mp hold).1
    simpa [History.publish, List.getElem?_append_left hlt] using hold

variable [DecidableEq β]

theorem elements_update {block : Block α} (hne : x ≠ b ∨ block.elements i = (blocks b).elements i) :
    (Function.update blocks b block x).elements i = (blocks x).elements i := by
  rcases eq_or_ne x b with rfl | hxb
  · simpa using hne
  · rw [Function.update_of_ne hxb]

theorem elements_construct {block : Block α} {n : ℕ} (hne : i ≠ n % 32) (y : α) :
    (block.construct (.ofNat n) y).elements i = block.elements i := by
  rw [Block.construct, slot_ofNat]
  exact Function.update_of_ne hne _ _

theorem elements_destroy {block : Block α} {n : ℕ} (hne : i ≠ n % 32) :
    (block.destroy (.ofNat n)).elements i = block.elements i := by
  rw [Block.destroy, slot_ofNat]
  exact Function.update_of_ne hne _ _

/-- A block that is not in the index is written. -/
theorem Contents.of_spare (h : Contents w blocks p consumer) {block : Block α}
    (hb : ∀ n, w.blockOf n ≠ some b)
    (hf : ∀ y e x, p' = .filled y e x → x = b ∧ block.elements (w.enqueued.length % 32) = some y)
    (hp : ∀ y, p' ≠ .publish y) :
    Contents w (Function.update blocks b block) p' consumer := by
  refine { h with slots := ?_, filled := ?_, written := fun y _ he => (hp y he).elim }
  · intro i x hi hfin hx hd
    have hxb : x ≠ b := fun heq => hb _ (heq ▸ hx)
    rw [elements_update (.inl hxb)]
    exact h.slots i x hi hfin hx hd
  · intro y e x he
    obtain ⟨rfl, hy⟩ := hf y e x he
    rwa [Function.update_self]

/-- The producer writes the next slot of the last block. -/
theorem Contents.construct (h : Contents w blocks p consumer)
    (hinj : ∀ n n' x, w.blockOf n = some x → w.blockOf n' = some x → n = n')
    (hb : w.blockOf (w.enqueued.length / 32) = some b) (y : α) :
    Contents w
      (Function.update blocks b ((blocks b).construct (.ofNat w.enqueued.length) y))
      (.publish y) consumer := by
  refine { h with slots := ?_, filled := nofun, written := ?_ }
  · intro i x hi hfin hx hd
    rw [← h.slots i x hi hfin hx hd]
    apply elements_update
    rcases eq_or_ne x b with rfl | hxb
    · right
      have := hinj _ _ x hx hb
      exact elements_construct (by omega) y
    · exact .inl hxb
  · rintro z x he hx
    obtain rfl : b = x := Option.some.inj (hb.symm.trans hx)
    obtain rfl : y = z := by simpa using he
    simp [Block.construct, slot_ofNat]

omit [DecidableEq β] in
/-- The new block is linked for the next index. -/
theorem Contents.link (h : Contents w blocks p consumer) (hfirst : w.enqueued.length % 32 = 0)
    (hf : ∀ y e x, p' ≠ .filled y e x)
    (hp : ∀ y, p' = .publish y → ∃ e, p = .filled y e b) :
    Contents (w.link b) blocks p' consumer := by
  refine { h with
    slots := ?_, filled := fun y e x he => (hf y e x he).elim, written := ?_ }
  · intro i x hi hfin hx hd
    have hi' : i < w.enqueued.length := hi
    have hne : i / 32 ≠ w.enqueued.length / 32 := by omega
    simp only [History.link, Function.update_of_ne hne] at hx
    exact h.slots i x hi hfin hx hd
  · intro y x he hx
    obtain ⟨e, he⟩ := hp y he
    have hx' : (w.link b).blockOf (w.enqueued.length / 32) = some x := hx
    simp only [History.link, Function.update_self] at hx'
    obtain rfl : b = x := Option.some.inj hx'
    exact h.filled y e b he

/-! ### Consumers -/

variable [DecidableEq C] {c : C} {pc : ConsumerPc α β}

omit [DecidableEq β] in
/-- A consumer moves and its slot stays as it is. -/
theorem Contents.move {q : Tickets.Phase} {w' : History α β C} (h : Contents w blocks p consumer)
    (he : w'.enqueued = w.enqueued) (hf : w'.finished = w.finished)
    (hb : ∀ n x, w'.blockOf n = some x → w.blockOf n = some x)
    (hq : w'.tickets.phase = Function.update w.tickets.phase c q)
    (hold : ¬ (consumer c).Destroyed)
    (hy : ∀ i y, q = .claimed i → pc.element = some y → w.enqueued[i]? = some y) :
    Contents w' blocks p (Function.update consumer c pc) := by
  refine ⟨?_, ?_, ?_, ?_⟩
  · intro i x hi hfin hx hd
    rw [he] at hi ⊢
    rw [hf] at hfin
    refine h.slots i x hi hfin (hb _ x hx) fun c' hc' hdes => ?_
    rcases eq_or_ne c' c with rfl | hne
    · exact hold hdes
    · refine hd c' ?_ ?_
      · rw [hq, Function.update_of_ne hne, hc']
      · rwa [Function.update_of_ne hne]
  · intro y e x hp
    rw [he]
    exact h.filled y e x hp
  · intro y x hp hx
    rw [he] at hx ⊢
    exact h.written y x hp (hb _ x hx)
  · intro c' i y hc' hy'
    rw [he]
    rw [hq] at hc'
    rcases eq_or_ne c' c with rfl | hne
    · simp only [Function.update_self] at hc' hy'
      exact hy i y hc' hy'
    · simp only [Function.update_of_ne hne] at hc' hy'
      exact h.results c' i y hc' hy'

/-- A consumer destroys its element. -/
theorem Contents.destroy (h : Contents w blocks p consumer)
    (hinj : ∀ n n' x, w.blockOf n = some x → w.blockOf n' = some x → n = n')
    (hc : w.tickets.phase c = .claimed i) (hi : i < w.enqueued.length)
    (hb : w.blockOf (i / 32) = some b) (hpc : pc.Destroyed)
    (hy : pc.element = (consumer c).element) (hspare : ∀ y e, p ≠ .filled y e b) :
    Contents w (Function.update blocks b ((blocks b).destroy (.ofNat i))) p
      (Function.update consumer c pc) := by
  have hother : ∀ j x, w.blockOf (j / 32) = some x → j ≠ i →
      (Function.update blocks b ((blocks b).destroy (.ofNat i)) x).elements (j % 32) =
        (blocks x).elements (j % 32) := by
    intro j x hx hne
    apply elements_update
    rcases eq_or_ne x b with rfl | hxb
    · right
      have := hinj _ _ x hx hb
      exact elements_destroy (by omega)
    · exact .inl hxb
  refine ⟨?_, ?_, ?_, ?_⟩
  · intro j x hj hfin hx hd
    have hne : j ≠ i := by
      rintro rfl
      exact hd c hc (by simpa using hpc)
    rw [hother j x hx hne]
    refine h.slots j x hj hfin hx fun c' hc' hdes => ?_
    have hcc : c' ≠ c := by
      rintro rfl
      rw [hc] at hc'
      exact hne (Tickets.Phase.claimed.inj hc').symm
    exact hd c' hc' (by rwa [Function.update_of_ne hcc])
  · intro y e x hp
    have hxb : x ≠ b := by
      rintro rfl
      exact hspare y e hp
    rw [Function.update_of_ne hxb]
    exact h.filled y e x hp
  · intro y x hp hx
    rw [hother _ x hx (by omega)]
    exact h.written y x hp hx
  · intro c' j y hc' hy'
    rcases eq_or_ne c' c with rfl | hne
    · rw [Function.update_self, hy] at hy'
      exact h.results c' j y hc' hy'
    · rw [Function.update_of_ne hne] at hy'
      exact h.results c' j y hc' hy'

/-- A consumer counts its slot out; the elements stay as they are. -/
theorem Contents.finish (h : Contents w blocks p consumer) {block : Block α}
    (hc : w.tickets.phase c = .claimed i)
    (hblock : block.elements = (blocks b).elements) (hy : pc.element = (consumer c).element) :
    Contents { w with finished := insert i w.finished } (Function.update blocks b block) p
      (Function.update consumer c pc) := by
  have hsame : ∀ x j, (Function.update blocks b block x).elements j = (blocks x).elements j :=
    fun x j => elements_update (.inr (congrFun hblock j))
  refine ⟨?_, ?_, ?_, ?_⟩
  · intro j x hj hfin hx hd
    rw [hsame]
    refine h.slots j x hj (fun hmem => hfin (Finset.mem_insert_of_mem hmem)) hx
      fun c' hc' hdes => ?_
    have hcc : c' ≠ c := by
      rintro rfl
      rw [hc] at hc'
      cases hc'
      exact hfin (Finset.mem_insert_self _ _)
    exact hd c' hc' (by rwa [Function.update_of_ne hcc])
  · intro y e x hp
    rw [hsame]
    exact h.filled y e x hp
  · intro y x hp hx
    rw [hsame]
    exact h.written y x hp hx
  · intro c' j y hc' hy'
    rcases eq_or_ne c' c with rfl | hne
    · rw [Function.update_self, hy] at hy'
      exact h.results c' j y hc' hy'
    · rw [Function.update_of_ne hne] at hy'
      exact h.results c' j y hc' hy'

omit [DecidableEq β] in
/-- A consumer's position changes, not its ticket. -/
theorem Contents.move_pc (h : Contents w blocks p consumer) (hold : ¬ (consumer c).Destroyed)
    (hy : ∀ i y, w.tickets.phase c = .claimed i → pc.element = some y → w.enqueued[i]? = some y) :
    Contents w blocks p (Function.update consumer c pc) :=
  h.move rfl rfl (fun _ _ hx => hx) (Function.update_eq_self _ _).symm hold hy

variable {noexceptCtor : Bool} {s t : State α β C} {a : Label α C}

omit [DecidableEq β] [DecidableEq C] in
/-- The slot a consumer reads holds the element of its index. -/
theorem Contents.read (h : Contents s.history s.blocks s.producer s.consumer) (hc : Counters s)
    (hfin : Finishing s.history s.consumer) (hfound : Found s) {j : Index} {e : ℕ}
    (hp : s.consumer c = .block j e b) (hi : s.history.tickets.phase c = .claimed i) :
    i < s.history.enqueued.length ∧
      (s.blocks b).elements (slot j) = s.history.enqueued[i]? := by
  have hlt := hc.claimed_lt hi
  obtain ⟨n, hn, rfl⟩ := hc.of_pc hp
  obtain rfl : i = n := by simpa [hi] using hn
  refine ⟨hlt, ?_⟩
  rw [slot_ofNat]
  refine h.slots i b hlt (hfin.reading c i hi (by rw [hp]; trivial))
    (hfound c i b hi (by rw [hp]; rfl)) fun c' hc' hdes => ?_
  obtain rfl := hc.tickets.claimed_inj c' c i hc' hi
  rw [hp] at hdes
  exact hdes

theorem contents_step (hs : Step noexceptCtor s a t) (hc : Counters s) (hr : Room s)
    (hfin : Finishing s.history s.consumer) (hstore : Storage s) (hfound : Found s)
    (h : Contents s.history s.blocks s.producer s.consumer) :
    Contents t.history t.blocks t.producer t.consumer := by
  cases hs with
  | call | boundary | insert =>
    refine h.of_producer ?_ ?_ <;> split_ifs <;> exact nofun
  | insertNull | key | growFailed | grow | grown | tail | requisitionFailed | rewind | giveUp
  | fillThrows | constructThrows => exact { h with filled := nofun, written := nofun }
  | @nullify e newBlock hp =>
    cases newBlock <;> exact h.of_producer nofun nofun
  | requisition b block hp hb =>
    exact h.of_spare (fun n hn => hb (hstore.owned n b hn)) nofun nofun
  | fill hn hp =>
    have hnot := (hstore.spare _ (by rw [hp]; rfl)).2
    rw [hc.tailIndex]
    refine h.of_spare hnot ?_ nofun
    intro y e x he
    cases he
    exact ⟨rfl, by simp [Block.construct, slot_ofNat]⟩
  | link hn hp =>
    exact h.link (hr.first (by rw [hp]; trivial)) nofun nofun
  | @linkFilled x e b hp =>
    refine h.link (hr.first (by rw [hp]; trivial)) nofun ?_
    intro y he
    cases he
    exact ⟨e, hp⟩
  | construct hp hb =>
    obtain ⟨b', hb', hlinked⟩ := hstore.tailBlock (.inr (by rw [hp]; trivial))
    obtain rfl := Option.some.inj (hb.symm.trans hb')
    rw [hc.tailIndex]
    exact h.construct hstore.inj hlinked _
  | publish hp => exact h.publish hp
  | start hp | readTail hp | optimistic hp | readHeader hp | readHeaderTail hp | readKey hp
  | readValue hp =>
    exact h.move_pc (by simp [hp, ConsumerPc.Destroyed]) (by simp [ConsumerPc.element])
  | readOvercommit hp =>
    have hph := hc.of_pc hp
    exact h.move rfl rfl (fun _ _ hx => hx) (Tickets.State.phase_read hph)
      (by simp [hp, ConsumerPc.Destroyed]) (by simp)
  | hopeless hp hl =>
    obtain ⟨n, hph, -⟩ := hc.of_pc hp
    exact h.move rfl rfl (fun _ _ hx => hx) (Tickets.State.phase_leave hph)
      (by simp [hp, ConsumerPc.Destroyed]) (by simp)
  | count hp =>
    obtain ⟨n, hph, -⟩ := hc.of_pc hp
    exact h.move rfl rfl (fun _ _ hx => hx) (Tickets.State.phase_draw hph)
      (by simp [hp, ConsumerPc.Destroyed]) (by simp)
  | grant hp hl =>
    obtain ⟨n, k, hph, -, -⟩ := hc.of_pc hp
    exact h.move rfl rfl (fun _ _ hx => hx) (Tickets.State.phase_grant hph)
      (by simp [hp, ConsumerPc.Destroyed]) (by simp)
  | refuse hp hl =>
    obtain ⟨n, k, hph, -, -⟩ := hc.of_pc hp
    exact h.move rfl rfl (fun _ _ hx => hx) (Tickets.State.phase_refuse hph)
      (by simp [hp, ConsumerPc.Destroyed]) (by simp)
  | giveBack hp =>
    obtain ⟨k, hph⟩ := hc.of_pc hp
    exact h.move rfl rfl (fun _ _ hx => hx) (Tickets.State.phase_giveBack hph)
      (by simp [hp, ConsumerPc.Destroyed]) (by simp)
  | claim hp =>
    obtain ⟨k, hph⟩ := hc.of_pc hp
    exact h.move rfl rfl (fun _ _ hx => hx) (Tickets.State.phase_claim hph)
      (by simp [hp, ConsumerPc.Destroyed]) (by simp [ConsumerPc.element])
  | @move c j e b y hp hy =>
    refine h.move_pc (by simp [hp, ConsumerPc.Destroyed]) ?_
    intro i z hi hz
    obtain rfl : y = z := by simpa [ConsumerPc.element] using hz
    rw [← (h.read hc hfin hfound hp hi).2, hy]
  | @destroy c j e b y hp =>
    obtain ⟨i, hph, rfl⟩ := hc.of_pc hp
    have hlinked := hfound c i b hph (by rw [hp]; rfl)
    refine h.destroy hstore.inj hph (hc.claimed_lt hph) hlinked trivial (by rw [hp]; rfl) ?_
    intro z e' hz
    exact (hstore.spare b (by rw [hz]; rfl)).2 _ hlinked
  | @setEmpty c j e b y hp hb =>
    obtain ⟨i, hph, -⟩ := hc.of_pc hp
    simp only [History.finish, hph]
    exact h.finish hph rfl (by rw [hp]; rfl)
  | @setEmptyLast c j e b y hp hb =>
    obtain ⟨i, hph, -⟩ := hc.of_pc hp
    simp only [History.finish, hph]
    exact h.finish hph rfl (by rw [hp]; rfl)
  | @unlink c j e b y hp =>
    obtain ⟨i, hph, -⟩ := hc.of_pc hp
    simp only [History.unlink, hph]
    refine h.move rfl rfl ?_ (Function.update_eq_self _ _).symm (by simp [hp, ConsumerPc.Destroyed])
      ?_
    · intro n x hx
      rcases eq_or_ne n (i / 32) with rfl | hne
      · simp at hx
      · simpa [Function.update_of_ne hne] using hx
    · intro i' z hi' hz
      exact h.results c i' z hi' (by rw [hp]; exact hz)
  | @recycle c j b y hp =>
    exact h.move_pc (by simp [hp, ConsumerPc.Destroyed]) fun i z hi hz =>
      h.results c i z hi (by rw [hp]; exact hz)
  | ret hp =>
    have hph := phase_of_done hc hp
    exact h.move rfl rfl (fun _ _ hx => hx) (Tickets.State.phase_release hph)
      (by simp [hp, ConsumerPc.Destroyed]) (by simp)

end NodesDetector.Queue
