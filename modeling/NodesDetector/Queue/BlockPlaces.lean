import NodesDetector.Queue.BlockPoolInvariant

/-! Every block is in one place: the initial pool, the free list, in use, or in the hands of one
thread. -/
namespace NodesDetector.BlockPool

open LinkedList (Chain)

variable {β T : Type} [DecidableEq β] [Fintype T] {s s' : State β T} {a : Label β T} {t : T}
  {p : Pc β} {v w : β}

theorem counted_initial (h : Initial s) (v : β) : Counted s v := by
  have hpc : ∀ t, s.pc t = .idle := h.pc
  have hpooled : s.place v ≠ .absent → s.place v = .pooled ∧ s.freeListRefs v = 0 := by
    intro hv
    obtain ⟨i, hi, rfl⟩ := h.absent v hv
    obtain ⟨hp, hr, -⟩ := h.pooled i hi
    exact ⟨hp, hr⟩
  have hplace : s.place v = .absent ∨ s.place v = .pooled := by
    by_cases hv : s.place v = .absent
    · exact .inl hv
    · exact .inr (hpooled hv).1
  have hnone : s.holders v = 0 := by
    rw [State.holders, Threads.count_eq_zero]
    intro u
    simp [hpc, Pc.holds]
  refine ⟨?_, ?_, ?_, ?_, ?_⟩
  · intro hv
    obtain ⟨hp, hr⟩ := hpooled hv
    simp [State.base, hp, hr, hnone]
  · intro u
    rcases hplace with hp | hp <;> simp [hpc, hp, Pc.charge]
  · rcases hplace with hp | hp <;> simp [hp]
  · rcases hplace with hp | hp <;> simp [hp]
  · simp [hpc, Pc.next]

theorem inv_initial (h : Initial s)
    (hsize : s.initialBlockPoolSize.toNat + Fintype.card T < 2 ^ 64) : Inv s := by
  have hnone : s.incrementing = 0 := by
    rw [State.incrementing, Threads.count_eq_zero]
    simp [h.pc, Pc.isPoolIndex]
  refine ⟨h.injective, hsize, counted_initial h, ?_, ?_, ?_, ?_, ?_⟩
  · simp [h.pc, Pc.follows]
  · simp [h.pc]
  · refine ⟨[], h.head, List.nodup_nil, ?_⟩
    intro v
    constructor
    · intro hv
      cases hv
    · intro hv
      obtain ⟨i, hi, rfl⟩ := h.absent v (by simp [hv])
      simp [(h.pooled i hi).1] at hv
  · intro v
    constructor
    · intro hv
      obtain ⟨i, hi, rfl⟩ := h.absent v (by simp [hv])
      exact ⟨i, by simp [h.index], hi, rfl⟩
    · rintro ⟨i, -, hi, rfl⟩
      exact (h.pooled i hi).1
  · simp [h.index, hnone]

/-- A step that neither changes the list nor a node of it. -/
theorem Inv.listed_of_same (h : Inv s) (hhead : s'.freeListHead = s.freeListHead)
    (hlink : ∀ w, s.place w = .listed → s'.freeListNext w = s.freeListNext w)
    (hplace : ∀ w, s'.place w = .listed ↔ s.place w = .listed) :
    ∃ l, Chain s'.freeListNext s'.freeListHead l ∧ l.Nodup ∧
      ∀ v, v ∈ l ↔ s'.place v = .listed := by
  obtain ⟨l, hc, hnodup, hl⟩ := h.listed
  refine ⟨l, ?_, hnodup, ?_⟩
  · rw [hhead]
    exact hc.congr fun w hw => hlink w ((hl w).mp hw)
  · intro w
    rw [hl w, hplace w]

variable [DecidableEq T]

omit [Fintype T] in
/-- Blocks stay until the queue is destroyed. -/
theorem place_ne_absent (hs : Step s a s') (hv : s.place v ≠ .absent) : s'.place v ≠ .absent := by
  have hput : ∀ {w q}, q ≠ .absent → Function.update s.place w q v ≠ .absent := by
    intro w q hq
    rcases eq_or_ne v w with rfl | hne
    · rwa [Function.update_self]
    · rwa [Function.update_of_ne hne]
  cases hs with
  | give | addLater | push | pushLater | poolTaken | pop | release | create | take =>
    exact hput (by simp)
  | _ => exact hv

omit [Fintype T] in
/-- A thread knows the nodes it knew, the head it reads, and what it gets. -/
theorem follows_step (hs : Step s a s') : ∃ t, (∀ u, u ≠ t → s'.pc u = s.pc u) ∧
    ∀ v ∈ (s'.pc t).follows, v ∈ (s.pc t).follows ∨ s.freeListHead = some v ∨
      s'.place v = .held t := by
  cases hs with
  | @give t v ht | @create t v ht =>
    refine ⟨t, fun u hu => Function.update_of_ne hu .., ?_⟩
    intro w hw
    obtain rfl : w = v := by
      simpa [State.put, State.setNext, State.setRefs, State.goto, Pc.follows] using hw
    exact .inr (.inr (Function.update_self ..))
  | @poolTaken t ht =>
    refine ⟨t, fun u hu => Function.update_of_ne hu .., ?_⟩
    intro w hw
    obtain rfl : w = s.initialBlockPool s.initialBlockPoolIndex := by
      simpa [State.put, State.goto, Pc.follows] using hw
    exact .inr (.inr (Function.update_self ..))
  | @push t v head back ht | @pushLater t v head back ht =>
    refine ⟨t, fun u hu => Function.update_of_ne hu .., ?_⟩
    intro w hw
    have hw : w ∈ (resume back).follows := by
      simpa [State.put, State.setRefs, State.goto] using hw
    simp [ht, Pc.follows, mem_follows_resume.mp hw]
  | @tryGet t ht =>
    refine ⟨t, fun u hu => Function.update_of_ne hu .., ?_⟩
    intro w hw
    have hw : w ∈ (loop s.freeListHead).follows := by
      simpa [State.goto] using hw
    exact .inr (.inl (mem_follows_loop.mp hw))
  | @releaseOnly t v head ht =>
    refine ⟨t, fun u hu => Function.update_of_ne hu .., ?_⟩
    intro w hw
    have hw : w ∈ (loop head).follows := by
      simpa [State.setRefs, State.goto] using hw
    simp [ht, Pc.follows, mem_follows_loop.mp hw]
  | @pool t ht =>
    refine ⟨t, fun u hu => Function.update_of_ne hu .., ?_⟩
    intro w hw
    simp only [State.goto, Function.update_self] at hw
    split at hw <;> simp [Pc.follows] at hw
  | @loadRefs t v ht =>
    refine ⟨t, fun u hu => Function.update_of_ne hu .., ?_⟩
    intro w hw
    simp only [State.goto, Function.update_self] at hw
    split at hw <;> simp_all [Pc.follows]
  | @addLater t _ ht | @requisition t ht | @poolEmpty t ht | @acquireFailed t _ _ ht
  | @createFailed t ht | @take t _ ht | @refuse t ht =>
    refine ⟨t, fun u hu => Function.update_of_ne hu .., ?_⟩
    intro w hw
    simp [State.goto, State.setRefs, State.put, Pc.follows] at hw
  | @add t _ ht | @loadHead t _ _ ht | @storeNext t _ _ _ ht | @storeRefs t _ _ _ ht
  | @pushFailed t _ _ _ ht | @pushAgain t _ _ _ ht | @acquire t _ _ ht | @loadNext t _ ht
  | @pop t _ _ ht | @popFailed t _ _ ht | @popped t _ ht | @release t _ _ ht =>
    refine ⟨t, fun u hu => Function.update_of_ne hu .., ?_⟩
    intro w hw
    simp only [State.goto, State.setRefs, State.setNext, State.put, Function.update_self,
      Pc.follows, List.mem_cons, Option.mem_toList, Option.some.injEq] at hw
    simp only [ht, Pc.follows, List.mem_cons, Option.mem_toList]
    tauto

theorem Inv.follows_step (h : Inv s) (hs : Step s a s') (u : T) :
    ∀ v ∈ (s'.pc u).follows, s'.place v ≠ .absent := by
  intro v hv
  obtain ⟨t, hother, hself⟩ := BlockPool.follows_step hs
  rcases eq_or_ne u t with rfl | hne
  · rcases hself v hv with hold | hhead | hheld
    · exact place_ne_absent hs (h.follows u v hold)
    · exact place_ne_absent hs (by simp [h.listed_of_head hhead])
    · simp [hheld]
  · rw [hother u hne] at hv
    exact place_ne_absent hs (h.follows u v hv)

theorem Inv.acquire_step (h : Inv s) (hs : Step s a s') (u : T) (v : β) (refs : UInt32)
    (hu : s'.pc u = .acquire v refs) : refs &&& refsMask ≠ 0 := by
  have hother : ∀ {t : T} {q : Pc β}, s'.pc = Function.update s.pc t q →
      q ≠ .acquire v refs → refs &&& refsMask ≠ 0 := by
    intro t q hpc hq
    rw [hpc] at hu
    rcases eq_or_ne u t with rfl | hne
    · rw [Function.update_self] at hu
      exact (hq hu).elim
    · rw [Function.update_of_ne hne] at hu
      exact h.acquire u v refs hu
  cases hs with
  | @loadRefs t v' ht =>
    simp only [State.goto] at hu
    rcases eq_or_ne u t with rfl | hne
    · rw [Function.update_self] at hu
      split at hu
      · cases hu
      · cases hu
        assumption
    · rw [Function.update_of_ne hne] at hu
      exact h.acquire u v refs hu
  | @push t v' head back | @pushLater t v' head back =>
    refine hother rfl ?_
    rcases back with - | - | head <;> simp [resume, loop]
  | tryGet =>
    refine hother rfl ?_
    cases s.freeListHead <;> simp [loop]
  | @releaseOnly t v' head =>
    refine hother rfl ?_
    cases head <;> simp [loop]
  | pool =>
    refine hother rfl ?_
    split <;> simp
  | _ => exact hother rfl (by simp)

omit [DecidableEq T] [Fintype T] in
theorem place_iff {q r : Place T} (hplace : s'.place = Function.update s.place v q)
    (hv : s.place v ≠ r) (hq : q ≠ r) (w : β) : s'.place w = r ↔ s.place w = r := by
  rw [hplace]
  rcases eq_or_ne w v with rfl | hne
  · simp [hv, hq]
  · rw [Function.update_of_ne hne]

theorem Inv.listed_step (h : Inv s) (hs : Step s a s') (hT : Fintype.card T < 2 ^ 31 - 1) :
    ∃ l, Chain s'.freeListNext s'.freeListHead l ∧ l.Nodup ∧
      ∀ v, v ∈ l ↔ s'.place v = .listed := by
  cases hs with
  | @give t v ht hv =>
    exact h.listed_of_same rfl (fun _ _ => rfl) (place_iff rfl (by simp [hv]) (by simp))
  | @addLater t v ht h0 =>
    have hv := h.held_of_charge (t := t) (v := v) (by rw [ht]; rfl)
    exact h.listed_of_same rfl (fun _ _ => rfl) (place_iff rfl (by simp [hv]) (by simp))
  | @pushLater t v head back ht h1 =>
    have hv := h.held_of_charge (t := t) (v := v) (by rw [ht]; rfl)
    exact h.listed_of_same rfl (fun _ _ => rfl) (place_iff rfl (by simp [hv]) (by simp))
  | @take t v ht =>
    have hv := h.held_of_charge (t := t) (v := v) (by rw [ht]; rfl)
    exact h.listed_of_same rfl (fun _ _ => rfl) (place_iff rfl (by simp [hv]) (by simp))
  | @release t v head ht hv =>
    have hp := (h.pending_of_release hT ht hv).1
    exact h.listed_of_same rfl (fun _ _ => rfl) (place_iff rfl (by simp [hp]) (by simp))
  | @poolTaken t ht hi =>
    have hp := (h.pooled _).mpr ⟨_, UInt64.le_refl _, hi, rfl⟩
    exact h.listed_of_same rfl (fun _ _ => rfl) (place_iff rfl (by simp [hp]) (by simp))
  | @create t v ht hv =>
    refine h.listed_of_same rfl ?_ (place_iff rfl (by simp [hv]) (by simp))
    intro w hw
    refine Function.update_of_ne ?_ ..
    rintro rfl
    simp [hv] at hw
  | @storeNext t v head back ht =>
    have hv := h.held_of_charge (t := t) (v := v) (by rw [ht]; rfl)
    refine h.listed_of_same rfl ?_ fun w => Iff.rfl
    intro w hw
    refine Function.update_of_ne ?_ ..
    rintro rfl
    simp [hv] at hw
  | @push t v head back ht hh =>
    have hv := h.held_of_charge (t := t) (v := v) (by rw [ht]; rfl)
    have hn := (h.counted v).next t head (by rw [ht]; rfl)
    obtain ⟨l, hc, hnodup, hl⟩ := h.listed
    have hnot : v ∉ l := by simp [hl, hv]
    refine ⟨v :: l, ⟨rfl, ?_⟩, List.nodup_cons.mpr ⟨hnot, hnodup⟩, ?_⟩
    · show Chain s.freeListNext (s.freeListNext v) l
      rw [hn, ← hh]
      exact hc
    · intro w
      show _ ↔ Function.update s.place v .listed w = .listed
      rcases eq_or_ne w v with rfl | hne
      · simp
      · simp [hne, hl]
  | @pop t v next ht hh =>
    have hn := (h.counted v).next t next (by rw [ht]; rfl)
    obtain ⟨l, hc, hnodup, hl⟩ := h.listed
    rw [hh] at hc
    obtain ⟨rest, rfl, hrest⟩ := hc.exists_eq_cons
    obtain ⟨hnot, hnodup⟩ := List.nodup_cons.mp hnodup
    refine ⟨rest, ?_, hnodup, ?_⟩
    · show Chain s.freeListNext next rest
      rw [← hn]
      exact hrest
    · intro w
      show _ ↔ Function.update s.place v (.held t) w = .listed
      rcases eq_or_ne w v with rfl | hne
      · simp [hnot]
      · rw [Function.update_of_ne hne, ← hl w, List.mem_cons]
        simp [hne]
  | _ => exact h.listed_of_same rfl (fun _ _ => rfl) fun w => Iff.rfl

/-! ### The initial pool -/

/-- A thread increments the index only if the pool was not empty when it looked. -/
theorem Inv.index_step (h : Inv s) (hs : Step s a s') :
    s'.initialBlockPoolIndex.toNat + s'.incrementing ≤
      s'.initialBlockPoolSize.toNat + Fintype.card T := by
  have hi := h.index
  have hsize := h.size
  have hless : ∀ {t : T} {q : Pc β}, s'.pc = Function.update s.pc t q →
      q.isPoolIndex = false → s'.incrementing ≤ s.incrementing := by
    intro t q hpc hq
    have := incrementing_step hpc
    simp only [hq, Bool.false_eq_true, if_false] at this
    omega
  have hkeep : s'.initialBlockPoolIndex = s.initialBlockPoolIndex →
      s'.initialBlockPoolSize = s.initialBlockPoolSize → s'.incrementing ≤ s.incrementing →
      s'.initialBlockPoolIndex.toNat + s'.incrementing ≤
        s'.initialBlockPoolSize.toNat + Fintype.card T := by
    intro hindex hs hle
    rw [hindex, hs]
    omega
  have hincrement : ∀ {t : T} {q : Pc β}, s.pc t = .poolIndex →
      s'.pc = Function.update s.pc t q → q.isPoolIndex = false →
      s'.initialBlockPoolIndex = s.initialBlockPoolIndex + 1 →
      s'.initialBlockPoolSize = s.initialBlockPoolSize →
      s'.initialBlockPoolIndex.toNat + s'.incrementing ≤
        s'.initialBlockPoolSize.toNat + Fintype.card T := by
    intro t q ht hpc hq hindex hs
    have hold : (s.pc t).isPoolIndex = true := by
      rw [ht]
      rfl
    have := incrementing_step hpc
    simp only [hold, hq, if_true, Bool.false_eq_true, if_false] at this
    rw [hindex, hs, UInt64.toNat_add, UInt64.toNat_one]
    omega
  cases hs with
  | @pool t ht =>
    split
    · rename_i hlt
      have hle : (s.goto t .poolIndex).incrementing ≤ Fintype.card T := Threads.count_le
      have hlt := UInt64.lt_iff_toNat_lt.mp hlt
      show s.initialBlockPoolIndex.toNat + _ ≤ s.initialBlockPoolSize.toNat + _
      omega
    · rename_i hlt
      rw [if_neg hlt] at hless hkeep
      exact hkeep rfl rfl (hless rfl rfl)
  | poolTaken ht | poolEmpty ht => exact hincrement ht rfl rfl rfl rfl
  | push | pushLater => exact hkeep rfl rfl (hless rfl (isPoolIndex_resume _))
  | releaseOnly | tryGet => exact hkeep rfl rfl (hless rfl (isPoolIndex_loop _))
  | @loadRefs t v =>
    refine hkeep rfl rfl (hless (t := t) rfl ?_)
    split <;> rfl
  | _ => exact hkeep rfl rfl (hless rfl rfl)

theorem Inv.pooled_step (h : Inv s) (hs : Step s a s') (hT : Fintype.card T < 2 ^ 31 - 1) (v : β) :
    s'.place v = .pooled ↔ ∃ i, s'.initialBlockPoolIndex ≤ i ∧ i < s'.initialBlockPoolSize ∧
      s'.initialBlockPool i = v := by
  have hkeep : s'.initialBlockPool = s.initialBlockPool →
      s'.initialBlockPoolSize = s.initialBlockPoolSize →
      s'.initialBlockPoolIndex = s.initialBlockPoolIndex →
      (∀ w, s'.place w = .pooled ↔ s.place w = .pooled) →
      (s'.place v = .pooled ↔ ∃ i, s'.initialBlockPoolIndex ≤ i ∧ i < s'.initialBlockPoolSize ∧
        s'.initialBlockPool i = v) := by
    intro hpool hsize hindex hplace
    rw [hpool, hsize, hindex, hplace]
    exact h.pooled v
  have hsucc : ∀ {t : T} {i : UInt64}, s.pc t = .poolIndex →
      (s.initialBlockPoolIndex + 1 ≤ i ↔
        s.initialBlockPoolIndex ≤ i ∧ i ≠ s.initialBlockPoolIndex) := by
    intro t i ht
    have hpos : 0 < s.incrementing := Threads.count_pos (i := t) (by rw [ht]; rfl)
    have hi := h.index
    have hsize := h.size
    rw [UInt64.le_iff_toNat_le, UInt64.le_iff_toNat_le, ne_eq, ← UInt64.toNat_inj,
      UInt64.toNat_add, UInt64.toNat_one]
    omega
  cases hs with
  | @give t w ht hw =>
    exact hkeep rfl rfl rfl (place_iff rfl (by simp [hw]) (by simp))
  | @addLater t w ht h0 =>
    have hw := h.held_of_charge (t := t) (v := w) (by rw [ht]; rfl)
    exact hkeep rfl rfl rfl (place_iff rfl (by simp [hw]) (by simp))
  | @push t w head back ht hh =>
    have hw := h.held_of_charge (t := t) (v := w) (by rw [ht]; rfl)
    exact hkeep rfl rfl rfl (place_iff rfl (by simp [hw]) (by simp))
  | @pushLater t w head back ht h1 =>
    have hw := h.held_of_charge (t := t) (v := w) (by rw [ht]; rfl)
    exact hkeep rfl rfl rfl (place_iff rfl (by simp [hw]) (by simp))
  | @take t w ht =>
    have hw := h.held_of_charge (t := t) (v := w) (by rw [ht]; rfl)
    exact hkeep rfl rfl rfl (place_iff rfl (by simp [hw]) (by simp))
  | @release t w head ht hw =>
    have hw := (h.pending_of_release hT ht hw).1
    exact hkeep rfl rfl rfl (place_iff rfl (by simp [hw]) (by simp))
  | @pop t w next ht hh =>
    have hw := h.listed_of_head hh
    exact hkeep rfl rfl rfl (place_iff rfl (by simp [hw]) (by simp))
  | @create t w ht hw =>
    exact hkeep rfl rfl rfl (place_iff rfl (by simp [hw]) (by simp))
  | @poolTaken t ht hlt =>
    show Function.update s.place _ _ v = _ ↔ ∃ i, s.initialBlockPoolIndex + 1 ≤ i ∧
      i < s.initialBlockPoolSize ∧ s.initialBlockPool i = v
    simp only [hsucc ht]
    rcases eq_or_ne v (s.initialBlockPool s.initialBlockPoolIndex) with rfl | hne
    · rw [Function.update_self]
      constructor
      · simp
      · rintro ⟨i, ⟨-, hne⟩, hi, hv⟩
        exact (hne (h.injective i _ hi hlt hv)).elim
    · rw [Function.update_of_ne hne, h.pooled v]
      constructor
      · rintro ⟨i, hle, hi, rfl⟩
        refine ⟨i, ⟨hle, ?_⟩, hi, rfl⟩
        rintro rfl
        exact hne rfl
      · rintro ⟨i, ⟨hle, -⟩, hi, rfl⟩
        exact ⟨i, hle, hi, rfl⟩
  | @poolEmpty t ht hlt =>
    show s.place v = _ ↔ ∃ i, s.initialBlockPoolIndex + 1 ≤ i ∧
      i < s.initialBlockPoolSize ∧ s.initialBlockPool i = v
    rw [h.pooled v]
    have hnone : ∀ i, s.initialBlockPoolIndex ≤ i → ¬ i < s.initialBlockPoolSize := by
      intro i hle hi
      exact hlt (UInt64.lt_of_le_of_lt hle hi)
    constructor
    · rintro ⟨i, hle, hi, -⟩
      exact (hnone i hle hi).elim
    · rintro ⟨i, hle, hi, -⟩
      exact (hnone i ((hsucc ht).mp hle).1 hi).elim
  | _ => exact hkeep rfl rfl rfl fun _ => Iff.rfl

theorem Inv.step (h : Inv s) (hs : Step s a s') (hT : Fintype.card T < 2 ^ 31 - 1) : Inv s' := by
  have hconst : s'.initialBlockPool = s.initialBlockPool ∧
      s'.initialBlockPoolSize = s.initialBlockPoolSize := by
    cases hs <;> exact ⟨rfl, rfl⟩
  refine ⟨?_, ?_, h.counted_step hs hT, h.follows_step hs, h.acquire_step hs, h.listed_step hs hT,
    h.pooled_step hs hT, h.index_step hs⟩
  · rw [hconst.1, hconst.2]
    exact h.injective
  · rw [hconst.2]
    exact h.size

end NodesDetector.BlockPool
