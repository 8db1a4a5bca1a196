import NodesDetector.Queue.FreeList

/-! Every block is in one place, and the free list links the blocks whose place it is. -/
namespace NodesDetector.BlockPool

open LinkedList (Chain)

variable {β T : Type} [DecidableEq β] [Fintype T] {s s' : State β T} {a : Label β T} {t : T}
  {p : Pc β} {v w : β}

/-- The threads that are about to increment `initialBlockPoolIndex`. -/
def State.incrementing (s : State β T) : ℕ := Threads.count s.pc fun p => p.isPoolIndex

structure Inv (s : State β T) : Prop where
  injective : ∀ i j, i < s.initialBlockPoolSize → j < s.initialBlockPoolSize →
    s.initialBlockPool i = s.initialBlockPool j → i = j
  size : s.initialBlockPoolSize.toNat + Fintype.card T < 2 ^ 64
  counted : ∀ v, Counted s v
  follows : ∀ t, ∀ v ∈ (s.pc t).follows, s.place v ≠ .absent
  acquire : ∀ t v refs, s.pc t = .acquire v refs → refs &&& refsMask ≠ 0
  listed : ∃ l, Chain s.freeListNext s.freeListHead l ∧ l.Nodup ∧ ∀ v, v ∈ l ↔ s.place v = .listed
  pooled : ∀ v, s.place v = .pooled ↔
    ∃ i, s.initialBlockPoolIndex ≤ i ∧ i < s.initialBlockPoolSize ∧ s.initialBlockPool i = v
  index : s.initialBlockPoolIndex.toNat + s.incrementing ≤
    s.initialBlockPoolSize.toNat + Fintype.card T

theorem Inv.holders_eq_zero (h : Inv s) (hv : s.place v = .absent) : s.holders v = 0 := by
  rw [State.holders, Threads.count_eq_zero]
  intro u hu
  exact h.follows u v (Pc.mem_follows_of_holds hu) hv

theorem Inv.held_of_charge (h : Inv s) (hv : (s.pc t).charge = some v) : s.place v = .held t :=
  ((h.counted v).charge t).mp hv

/-- What the references are where nobody else has the block in hand. -/
theorem Inv.refs_held (h : Inv s) (hv : (s.pc t).charge = some v) :
    s.place v = .held t ∧ (s.freeListRefs v).toNat = (s.pc t).base + s.holders v := by
  have hp := h.held_of_charge hv
  have hr := (h.counted v).refs (by simp [hp])
  simp only [State.base, hp] at hr
  exact ⟨hp, hr⟩

/-- What another thread knows of the `freeListNext` of a node it learned while it held it. -/
theorem Inv.next_ne (h : Inv s) (hold : ∀ u, u ≠ t → s.place v ≠ .held u) (h0 : s.holders v = 0)
    {u : T} (hu : u ≠ t) {n : Option β} : (s.pc u).next ≠ some (v, n) := by
  intro hn
  rcases Pc.holds_or_charge_of_next hn with hh | hh
  · exact (Threads.count_eq_zero.mp h0) u hh
  · exact hold u hu (((h.counted v).charge u).mp hh)

theorem Inv.listed_of_head (h : Inv s) (hv : s.freeListHead = some v) : s.place v = .listed := by
  obtain ⟨l, hc, -, hl⟩ := h.listed
  rw [hv] at hc
  obtain ⟨l', rfl, -⟩ := hc.exists_eq_cons
  exact (hl v).mp List.mem_cons_self

omit [DecidableEq β] [Fintype T] in
theorem base_le (s : State β T) (v : β) : s.base v ≤ 2 ^ 31 := by
  cases hp : s.place v with
  | held u =>
    simp only [State.base, hp]
    cases s.pc u <;> simp [Pc.base]
  | _ => simp [State.base, hp]

/-- The node is pending, and nobody else holds it: otherwise its references were fewer, or more. -/
theorem Inv.pending_of_release {head : Option β} (h : Inv s) (hT : Fintype.card T < 2 ^ 31 - 1)
    (ht : s.pc t = .release v head) (hv : s.freeListRefs v = shouldBeOnFreeList + 1) :
    s.place v = .pending ∧ s.holders v = 1 := by
  have hr := (h.counted v).refs (h.follows t v (by simp [ht, Pc.follows]))
  have hpos : 0 < s.holders v := Threads.count_pos (i := t) (by simp [ht, Pc.holds])
  have hle : s.holders v ≤ Fintype.card T := Threads.count_le
  have hbit : (shouldBeOnFreeList + 1).toNat = 2 ^ 31 + 1 := rfl
  rw [hv, hbit] at hr
  cases hp : s.place v with
  | pending =>
    simp only [State.base, hp] at hr
    exact ⟨rfl, by omega⟩
  | held u =>
    have hb : (s.pc u).base ≤ 1 ∨ (s.pc u).base = 2 ^ 31 := by
      cases s.pc u <;> simp [Pc.base]
    simp only [State.base, hp] at hr
    rcases hb with hb | hb
    · omega
    · have := (h.counted v).alone u hp hb
      omega
  | _ =>
    simp only [State.base, hp] at hr
    omega

variable [DecidableEq T]

omit [DecidableEq β] in
theorem incrementing_step (hpc : s'.pc = Function.update s.pc t p) :
    s'.incrementing + (if (s.pc t).isPoolIndex then 1 else 0) =
      s.incrementing + (if p.isPoolIndex then 1 else 0) := by
  rw [State.incrementing, hpc]
  exact Threads.count_update

/-! ### Adding to the free list -/

theorem Inv.counted_give (h : Inv s) (ht : s.pc t = .idle) (hv : s.place v = .out)
    (hpc : s'.pc = Function.update s.pc t (.add v)) (hplace : s'.place v = .held t)
    (hrefs : s'.freeListRefs v = s.freeListRefs v)
    (hlink : s'.freeListNext v = s.freeListNext v) : Counted s' v := by
  have hr := (h.counted v).refs (by simp [hv])
  have hh : s'.holders v = s.holders v := holders_same hpc (by simp [ht, Pc.holds])
  simp only [State.base, hv] at hr
  refine (h.counted v).held hpc hplace (by simp [hv]) rfl (by simp [Pc.next]) hlink ?_ ?_
  · rw [hrefs, hh, hr, Pc.base]
  · simp [Pc.base]

theorem Inv.counted_add (h : Inv s) (ht : s.pc t = .add v) (h0 : s.freeListRefs v = 0)
    (hpc : s'.pc = Function.update s.pc t (.loadHead v none)) (hplace : s'.place v = s.place v)
    (hrefs : s'.freeListRefs v = s.freeListRefs v + shouldBeOnFreeList)
    (hlink : s'.freeListNext v = s.freeListNext v) : Counted s' v := by
  obtain ⟨hp, hr⟩ := h.refs_held (t := t) (v := v) (by rw [ht]; rfl)
  have hh : s'.holders v = s.holders v := holders_same hpc (by simp [ht, Pc.holds])
  have hnone : s.holders v = 0 := by
    simp only [ht, Pc.base, h0, UInt32.toNat_zero] at hr
    omega
  refine (h.counted v).held hpc (hplace.trans hp) (fun u hu => held_ne hp hu) rfl
    (by simp [Pc.next]) hlink ?_ ?_
  · rw [hrefs, hh, h0, hnone]
    rfl
  · rw [hh, hnone]
    simp

/-- Somebody still holds the node and will add it. -/
theorem Inv.counted_addLater (h : Inv s) (hT : Fintype.card T < 2 ^ 31 - 1)
    (ht : s.pc t = .add v) (h0 : s.freeListRefs v ≠ 0)
    (hpc : s'.pc = Function.update s.pc t .idle) (hplace : s'.place v = .pending)
    (hrefs : s'.freeListRefs v = s.freeListRefs v + shouldBeOnFreeList)
    (hlink : s'.freeListNext v = s.freeListNext v) : Counted s' v := by
  obtain ⟨hp, hr⟩ := h.refs_held (t := t) (v := v) (by rw [ht]; rfl)
  have hh : s'.holders v = s.holders v := holders_same hpc (by simp [ht, Pc.holds])
  have hle : s.holders v ≤ Fintype.card T := Threads.count_le
  have hsome := toNat_ne h0
  simp only [ht, Pc.base, UInt32.toNat_zero] at hr hsome
  refine (h.counted v).free hpc (fun u hu => held_ne hp hu) (by simp [hplace])
    (by simp [Pc.charge]) (by simp [Pc.holds]) hlink ?_ ?_
  · simp only [hrefs, toNat_add_shouldBeOnFreeList (x := s.freeListRefs v) (by omega), State.base,
      hplace]
    omega
  · omega

theorem Inv.counted_storeNext {head : Option β} {back : Option (Option β)} (h : Inv s)
    (ht : s.pc t = .storeNext v head back)
    (hpc : s'.pc = Function.update s.pc t (.storeRefs v head back))
    (hplace : s'.place v = s.place v) (hrefs : s'.freeListRefs v = s.freeListRefs v)
    (hlink : s'.freeListNext v = head) : Counted s' v := by
  obtain ⟨hp, hr⟩ := h.refs_held (t := t) (v := v) (by rw [ht]; rfl)
  have hh : s'.holders v = s.holders v := holders_same hpc (by simp [ht, Pc.holds])
  have hnone := (h.counted v).alone t hp (by rw [ht]; rfl)
  have hold : ∀ u, u ≠ t → s.place v ≠ .held u := fun u hu => held_ne hp hu
  refine (h.counted v).move hpc hold (by rwa [hplace]) ?_ ?_ ?_ ?_ ?_ ?_
  · simp [Pc.charge, hplace, hp]
  · simp [Pc.next, hlink]
  · intro u n hu hn
    exact (h.next_ne hold hnone hu hn).elim
  · simp [State.base, hplace, hp, hpc, hrefs, hr, hh, ht, Pc.base]
  · simp [hplace, hp]
  · simp [hh, hnone]

theorem Inv.counted_storeRefs {head : Option β} {back : Option (Option β)} (h : Inv s)
    (ht : s.pc t = .storeRefs v head back)
    (hpc : s'.pc = Function.update s.pc t (.push v head back))
    (hplace : s'.place v = s.place v) (hrefs : s'.freeListRefs v = 1)
    (hlink : s'.freeListNext v = s.freeListNext v) : Counted s' v := by
  obtain ⟨hp, hr⟩ := h.refs_held (t := t) (v := v) (by rw [ht]; rfl)
  have hh : s'.holders v = s.holders v := holders_same hpc (by simp [ht, Pc.holds])
  have hnone := (h.counted v).alone t hp (by rw [ht]; rfl)
  refine (h.counted v).held hpc (hplace.trans hp) (fun u hu => held_ne hp hu) rfl ?_ hlink ?_ ?_
  · intro n hn
    exact (h.counted v).next t n (by rw [ht]; exact hn)
  · simp [hrefs, hh, hnone, Pc.base]
  · simp [Pc.base]

theorem Inv.counted_push {head : Option β} {back : Option (Option β)} (h : Inv s)
    (ht : s.pc t = .push v head back) (hpc : s'.pc = Function.update s.pc t (resume back))
    (hplace : s'.place v = .listed) (hrefs : s'.freeListRefs v = s.freeListRefs v)
    (hlink : s'.freeListNext v = s.freeListNext v) : Counted s' v := by
  obtain ⟨hp, hr⟩ := h.refs_held (t := t) (v := v) (by rw [ht]; rfl)
  have hh : s'.holders v = s.holders v := holders_same hpc (by
    rw [holds_resume, ht]
    rfl)
  refine (h.counted v).free hpc (fun u hu => held_ne hp hu) (by simp [hplace]) (by simp)
    (by simp) hlink ?_ (by simp [hplace])
  simp [State.base, hplace, hrefs, hr, hh, ht, Pc.base]

/-- Nobody holds the node, so nobody else adds it. -/
theorem Inv.counted_pushAgain {head : Option β} {back : Option (Option β)} (h : Inv s)
    (ht : s.pc t = .pushFailed v head back) (h1 : s.freeListRefs v = 1)
    (hpc : s'.pc = Function.update s.pc t (.storeNext v head back))
    (hplace : s'.place v = s.place v)
    (hrefs : s'.freeListRefs v = s.freeListRefs v + (shouldBeOnFreeList - 1))
    (hlink : s'.freeListNext v = s.freeListNext v) : Counted s' v := by
  obtain ⟨hp, hr⟩ := h.refs_held (t := t) (v := v) (by rw [ht]; rfl)
  have hh : s'.holders v = s.holders v := holders_same hpc (by simp [ht, Pc.holds])
  have hnone : s.holders v = 0 := by
    simp only [ht, Pc.base, h1, UInt32.toNat_one] at hr
    omega
  refine (h.counted v).held hpc (hplace.trans hp) (fun u hu => held_ne hp hu) rfl
    (by simp [Pc.next]) hlink ?_ ?_
  · rw [hrefs, hh, h1, hnone]
    rfl
  · rw [hh, hnone]
    simp

theorem Inv.counted_pushLater {head : Option β} {back : Option (Option β)} (h : Inv s)
    (hT : Fintype.card T < 2 ^ 31 - 1) (ht : s.pc t = .pushFailed v head back)
    (h1 : s.freeListRefs v ≠ 1) (hpc : s'.pc = Function.update s.pc t (resume back))
    (hplace : s'.place v = .pending)
    (hrefs : s'.freeListRefs v = s.freeListRefs v + (shouldBeOnFreeList - 1))
    (hlink : s'.freeListNext v = s.freeListNext v) : Counted s' v := by
  obtain ⟨hp, hr⟩ := h.refs_held (t := t) (v := v) (by rw [ht]; rfl)
  have hh : s'.holders v = s.holders v := holders_same hpc (by
    rw [holds_resume, ht]
    rfl)
  have hle : s.holders v ≤ Fintype.card T := Threads.count_le
  have hsome := toNat_ne h1
  simp only [ht, Pc.base, UInt32.toNat_one] at hr hsome
  refine (h.counted v).free hpc (fun u hu => held_ne hp hu) (by simp [hplace]) (by simp)
    (by simp) hlink ?_ ?_
  · simp only [hrefs, State.base, hplace,
      toNat_add_shouldBeOnFreeList_sub_one (x := s.freeListRefs v) (by omega)]
    omega
  · omega

/-! ### Taking from the free list -/

/-- Only a node with references gets another one. -/
theorem Inv.counted_acquire {refs : UInt32} (h : Inv s) (hT : Fintype.card T < 2 ^ 31 - 1)
    (ht : s.pc t = .acquire v refs) (hv : s.freeListRefs v = refs)
    (hpc : s'.pc = Function.update s.pc t (.loadNext v)) (hplace : s'.place v = s.place v)
    (hrefs : s'.freeListRefs v = refs + 1) (hlink : s'.freeListNext v = s.freeListNext v) :
    Counted s' v := by
  have hr := (h.counted v).refs (h.follows t v (by simp [ht, Pc.follows]))
  have hh : s'.holders v = s.holders v + 1 :=
    holders_more hpc (by simp [ht, Pc.holds]) (by simp [Pc.holds])
  have hle : s'.holders v ≤ Fintype.card T := Threads.count_le
  have hmask : refs.toNat % 2 ^ 31 ≠ 0 := by
    rw [← toNat_and_refsMask]
    exact toNat_ne (h.acquire t v refs ht)
  have hbase := base_le s v
  refine (h.counted v).stay hpc ?_ ?_ ?_ hplace hlink ?_ ?_ ?_
  · simp [Pc.charge, ht]
  · simp [Pc.charge]
  · simp [Pc.next]
  · rw [hrefs, UInt32.toNat_add, hv, UInt32.toNat_one]
    rw [hv] at hr
    omega
  · intro _
    omega
  · intro u hu hb
    have hnone := (h.counted v).alone u hu hb
    simp only [hv, State.base, hu, hb, hnone] at hr
    omega

theorem Inv.counted_pop {next : Option β} (h : Inv s) (ht : s.pc t = .pop v next)
    (hv : s.place v = .listed) (hpc : s'.pc = Function.update s.pc t (.popped v))
    (hplace : s'.place v = .held t) (hrefs : s'.freeListRefs v = s.freeListRefs v)
    (hlink : s'.freeListNext v = s.freeListNext v) : Counted s' v := by
  have hr := (h.counted v).refs (by simp [hv])
  have hh : s'.holders v = s.holders v := holders_same hpc (by simp [ht, Pc.holds])
  simp only [State.base, hv] at hr
  refine (h.counted v).held hpc hplace (by simp [hv]) rfl (by simp [Pc.next]) hlink ?_ ?_
  · rw [hrefs, hh, hr, Pc.base]
  · simp [Pc.base]

theorem Inv.counted_popped (h : Inv s) (ht : s.pc t = .popped v)
    (hpc : s'.pc = Function.update s.pc t (.done (some v))) (hplace : s'.place v = s.place v)
    (hrefs : s'.freeListRefs v = s.freeListRefs v - 2)
    (hlink : s'.freeListNext v = s.freeListNext v) : Counted s' v := by
  obtain ⟨hp, hr⟩ := h.refs_held (t := t) (v := v) (by rw [ht]; rfl)
  have hh : s'.holders v + 1 = s.holders v :=
    holders_less hpc (by simp [ht, Pc.holds]) (by simp [Pc.holds])
  have htwo : (2 : UInt32).toNat = 2 := rfl
  have hlt := (s.freeListRefs v).toNat_lt
  simp only [ht, Pc.base] at hr
  refine (h.counted v).held hpc (hplace.trans hp) (fun u hu => held_ne hp hu) rfl
    (by simp [Pc.next]) hlink ?_ ?_
  · rw [hrefs, UInt32.toNat_sub, htwo, Pc.base]
    omega
  · simp [Pc.base]

theorem Inv.counted_release {head : Option β} (h : Inv s) (hT : Fintype.card T < 2 ^ 31 - 1)
    (ht : s.pc t = .release v head) (hv : s.freeListRefs v = shouldBeOnFreeList + 1)
    (hpc : s'.pc = Function.update s.pc t (.loadHead v (some head)))
    (hplace : s'.place v = .held t) (hrefs : s'.freeListRefs v = s.freeListRefs v - 1)
    (hlink : s'.freeListNext v = s.freeListNext v) : Counted s' v := by
  obtain ⟨hp, hone⟩ := h.pending_of_release hT ht hv
  have hh : s'.holders v + 1 = s.holders v :=
    holders_less hpc (by simp [ht, Pc.holds]) (by simp [Pc.holds])
  have hnone : s'.holders v = 0 := by omega
  refine (h.counted v).held hpc hplace (by simp [hp]) rfl (by simp [Pc.next]) hlink ?_ ?_
  · rw [hrefs, hv, hnone, UInt32.add_sub_cancel]
    rfl
  · rw [hnone]
    simp

theorem Inv.counted_releaseOnly {head : Option β} (h : Inv s) (ht : s.pc t = .release v head)
    (hv : s.freeListRefs v ≠ shouldBeOnFreeList + 1)
    (hpc : s'.pc = Function.update s.pc t (loop head)) (hplace : s'.place v = s.place v)
    (hrefs : s'.freeListRefs v = s.freeListRefs v - 1)
    (hlink : s'.freeListNext v = s.freeListNext v) : Counted s' v := by
  have hr := (h.counted v).refs (h.follows t v (by simp [ht, Pc.follows]))
  have hh : s'.holders v + 1 = s.holders v :=
    holders_less hpc (by simp [ht, Pc.holds]) (by simp)
  have hlt := (s.freeListRefs v).toNat_lt
  refine (h.counted v).stay hpc ?_ ?_ ?_ hplace hlink ?_ ?_ ?_
  · rw [charge_loop, ht]
    simp [Pc.charge]
  · simp
  · simp
  · rw [hrefs, UInt32.toNat_sub, UInt32.toNat_one]
    omega
  · intro hp
    have hbit : (shouldBeOnFreeList + 1).toNat = 2 ^ 31 + 1 := rfl
    have hne := toNat_ne hv
    simp only [State.base, hp, hbit] at hr hne
    omega
  · intro u hu hb
    have := (h.counted v).alone u hu hb
    omega

/-! ### Blocks from elsewhere -/

theorem Inv.counted_poolTaken (h : Inv s) (ht : s.pc t = .poolIndex) (hv : s.place v = .pooled)
    (hpc : s'.pc = Function.update s.pc t (.done (some v))) (hplace : s'.place v = .held t)
    (hrefs : s'.freeListRefs v = s.freeListRefs v)
    (hlink : s'.freeListNext v = s.freeListNext v) : Counted s' v := by
  have hr := (h.counted v).refs (by simp [hv])
  have hh : s'.holders v = s.holders v := holders_same hpc (by simp [ht, Pc.holds])
  simp only [State.base, hv] at hr
  refine (h.counted v).held hpc hplace (by simp [hv]) rfl (by simp [Pc.next]) hlink ?_ ?_
  · rw [hrefs, hh, hr, Pc.base]
  · simp [Pc.base]

theorem Inv.counted_create (h : Inv s) (ht : s.pc t = .create) (hv : s.place v = .absent)
    (hpc : s'.pc = Function.update s.pc t (.done (some v))) (hplace : s'.place v = .held t)
    (hrefs : s'.freeListRefs v = 0) : Counted s' v := by
  have hnone := h.holders_eq_zero hv
  have hh : s'.holders v = s.holders v := holders_same hpc (by simp [ht, Pc.holds])
  have hold : ∀ u, u ≠ t → s.place v ≠ .held u := by simp [hv]
  refine (h.counted v).move hpc hold (fun u hu => held_ne hplace hu) ?_ ?_ ?_ ?_ ?_ ?_
  · simp [Pc.charge, hplace]
  · simp [Pc.next]
  · intro u n hu hn
    exact (h.next_ne hold hnone hu hn).elim
  · simp [State.base, hplace, hpc, hrefs, hh, hnone, Pc.base]
  · simp [hplace]
  · simp [Pc.base]

theorem Inv.counted_take (h : Inv s) (ht : s.pc t = .done (some v))
    (hpc : s'.pc = Function.update s.pc t .idle) (hplace : s'.place v = .out)
    (hrefs : s'.freeListRefs v = s.freeListRefs v)
    (hlink : s'.freeListNext v = s.freeListNext v) : Counted s' v := by
  obtain ⟨hp, hr⟩ := h.refs_held (t := t) (v := v) (by rw [ht]; rfl)
  have hh : s'.holders v = s.holders v := holders_same hpc (by simp [ht, Pc.holds])
  refine (h.counted v).free hpc (fun u hu => held_ne hp hu) (by simp [hplace])
    (by simp [Pc.charge]) (by simp [Pc.holds]) hlink ?_ (by simp [hplace])
  simp [State.base, hplace, hrefs, hr, hh, ht, Pc.base]

theorem Inv.counted_step (hs : Step s a s') (h : Inv s) (hT : Fintype.card T < 2 ^ 31 - 1)
    (w : β) : Counted s' w := by
  have hw := h.counted w
  cases hs with
  | @give t v ht hv =>
    rcases eq_or_ne w v with rfl | hne
    · exact h.counted_give ht hv rfl (Function.update_self ..) rfl rfl
    · exact hw.other hne rfl (by simp [ht, Pc.Only, Pc.holds, Pc.charge])
        (by simp [Pc.Only, Pc.holds, Pc.charge]) rfl (Function.update_of_ne hne ..) rfl
  | @add t v ht h0 =>
    rcases eq_or_ne w v with rfl | hne
    · exact h.counted_add ht h0 rfl rfl (Function.update_self ..) rfl
    · exact hw.other hne rfl (by simp [ht, Pc.Only, Pc.holds, Pc.charge])
        (by simp [Pc.Only, Pc.holds, Pc.charge]) (Function.update_of_ne hne ..) rfl rfl
  | @addLater t v ht h0 =>
    rcases eq_or_ne w v with rfl | hne
    · exact h.counted_addLater hT ht h0 rfl (Function.update_self ..) (Function.update_self ..) rfl
    · exact hw.other hne rfl (by simp [ht, Pc.Only, Pc.holds, Pc.charge])
        (by simp [Pc.Only, Pc.holds, Pc.charge]) (Function.update_of_ne hne ..)
        (Function.update_of_ne hne ..) rfl
  | @storeNext t v head back ht =>
    rcases eq_or_ne w v with rfl | hne
    · exact h.counted_storeNext ht rfl rfl rfl (Function.update_self ..)
    · exact hw.other hne rfl (by simp [ht, Pc.Only, Pc.holds, Pc.charge])
        (by simp [Pc.Only, Pc.holds, Pc.charge]) rfl rfl (Function.update_of_ne hne ..)
  | @storeRefs t v head back ht =>
    rcases eq_or_ne w v with rfl | hne
    · exact h.counted_storeRefs ht rfl rfl (Function.update_self ..) rfl
    · exact hw.other hne rfl (by simp [ht, Pc.Only, Pc.holds, Pc.charge])
        (by simp [Pc.Only, Pc.holds, Pc.charge]) (Function.update_of_ne hne ..) rfl rfl
  | @push t v head back ht hh =>
    rcases eq_or_ne w v with rfl | hne
    · exact h.counted_push ht rfl (Function.update_self ..) rfl rfl
    · exact hw.other hne rfl (by simp [ht, Pc.Only, Pc.holds, Pc.charge]) (by simp [Pc.Only]) rfl
        (Function.update_of_ne hne ..) rfl
  | @pushAgain t v head back ht h1 =>
    rcases eq_or_ne w v with rfl | hne
    · exact h.counted_pushAgain ht h1 rfl rfl (Function.update_self ..) rfl
    · exact hw.other hne rfl (by simp [ht, Pc.Only, Pc.holds, Pc.charge])
        (by simp [Pc.Only, Pc.holds, Pc.charge]) (Function.update_of_ne hne ..) rfl rfl
  | @pushLater t v head back ht h1 =>
    rcases eq_or_ne w v with rfl | hne
    · exact h.counted_pushLater hT ht h1 rfl (Function.update_self ..) (Function.update_self ..) rfl
    · exact hw.other hne rfl (by simp [ht, Pc.Only, Pc.holds, Pc.charge]) (by simp [Pc.Only])
        (Function.update_of_ne hne ..) (Function.update_of_ne hne ..) rfl
  | @acquire t v refs ht hv =>
    rcases eq_or_ne w v with rfl | hne
    · exact h.counted_acquire hT ht hv rfl rfl (Function.update_self ..) rfl
    · exact hw.other hne rfl (by simp [ht, Pc.Only, Pc.holds, Pc.charge])
        (by simp [Pc.Only, Pc.holds, Pc.charge]) (Function.update_of_ne hne ..) rfl rfl
  | @pop t v next ht hh =>
    rcases eq_or_ne w v with rfl | hne
    · exact h.counted_pop ht (h.listed_of_head hh) rfl (Function.update_self ..) rfl rfl
    · exact hw.other hne rfl (by simp [ht, Pc.Only, Pc.holds, Pc.charge])
        (by simp [Pc.Only, Pc.holds, Pc.charge]) rfl (Function.update_of_ne hne ..) rfl
  | @popped t v ht =>
    rcases eq_or_ne w v with rfl | hne
    · exact h.counted_popped ht rfl rfl (Function.update_self ..) rfl
    · exact hw.other hne rfl (by simp [ht, Pc.Only, Pc.holds, Pc.charge])
        (by simp [Pc.Only, Pc.holds, Pc.charge]) (Function.update_of_ne hne ..) rfl rfl
  | @release t v head ht hv =>
    rcases eq_or_ne w v with rfl | hne
    · exact h.counted_release hT ht hv rfl (Function.update_self ..) (Function.update_self ..) rfl
    · exact hw.other hne rfl (by simp [ht, Pc.Only, Pc.holds, Pc.charge])
        (by simp [Pc.Only, Pc.holds, Pc.charge]) (Function.update_of_ne hne ..)
        (Function.update_of_ne hne ..) rfl
  | @releaseOnly t v head ht hv =>
    rcases eq_or_ne w v with rfl | hne
    · exact h.counted_releaseOnly ht hv rfl rfl (Function.update_self ..) rfl
    · exact hw.other hne rfl (by simp [ht, Pc.Only, Pc.holds, Pc.charge]) (by simp [Pc.Only])
        (Function.update_of_ne hne ..) rfl rfl
  | @create t v ht hv =>
    rcases eq_or_ne w v with rfl | hne
    · exact h.counted_create ht hv rfl (Function.update_self ..) (Function.update_self ..)
    · exact hw.other hne rfl (by simp [ht, Pc.Only, Pc.holds, Pc.charge])
        (by simp [Pc.Only, Pc.holds, Pc.charge]) (Function.update_of_ne hne ..)
        (Function.update_of_ne hne ..) (Function.update_of_ne hne ..)
  | @take t v ht =>
    rcases eq_or_ne w v with rfl | hne
    · exact h.counted_take ht rfl (Function.update_self ..) rfl rfl
    · exact hw.other hne rfl (by simp [ht, Pc.Only, Pc.holds, Pc.charge])
        (by simp [Pc.Only, Pc.holds, Pc.charge]) rfl (Function.update_of_ne hne ..) rfl
  | @poolTaken t ht hi =>
    generalize hv : s.initialBlockPool s.initialBlockPoolIndex = v
    have hp : s.place v = .pooled := (h.pooled v).mpr ⟨_, UInt64.le_refl _, hi, hv⟩
    rcases eq_or_ne w v with rfl | hne
    · exact h.counted_poolTaken ht hp rfl (Function.update_self ..) rfl rfl
    · exact hw.other hne rfl (by simp [ht, Pc.Only, Pc.holds, Pc.charge])
        (by simp [Pc.Only, Pc.holds, Pc.charge]) rfl (Function.update_of_ne hne ..) rfl
  | @tryGet t ht =>
    refine hw.same rfl ?_ ?_ ?_ ?_ rfl rfl rfl
    · rw [holds_loop, ht]
      rfl
    · rw [charge_loop, ht]
      rfl
    · simp
    · simp
  | @pool t ht | @loadRefs t v ht =>
    refine hw.same rfl ?_ ?_ ?_ ?_ rfl rfl rfl
    all_goals
      split <;> simp [ht, Pc.holds, Pc.charge, Pc.next]
  | @loadHead t v back ht | @pushFailed t v head back ht hh | @requisition t ht
  | @poolEmpty t ht hi | @acquireFailed t v refs ht hv | @loadNext t v ht
  | @popFailed t v next ht hh | @createFailed t ht | @refuse t ht =>
    refine hw.same rfl ?_ ?_ ?_ ?_ rfl rfl rfl <;>
      simp +contextual [ht, Pc.holds, Pc.charge, Pc.base, Pc.next]

end NodesDetector.BlockPool
