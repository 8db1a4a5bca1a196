import NodesDetector.Queue.BlockPool

/-! The references of a block: one for the free list, one for each thread that holds it, and the
bit that says it is to be added to the list. -/
namespace NodesDetector.BlockPool

variable {β T : Type} {s s' : State β T} {t : T} {p : Pc β} {v : β}

theorem Pc.mem_follows_of_holds (h : p.holds = some v) : v ∈ p.follows := by
  cases p <;> simp_all [Pc.holds, Pc.follows]

/-- What a thread has read from a node it read while holding it or while it was its charge. -/
theorem Pc.holds_or_charge_of_next {n : Option β} (h : p.next = some (v, n)) :
    p.holds = some v ∨ p.charge = some v := by
  cases p <;> simp_all [Pc.next, Pc.holds, Pc.charge]

theorem mem_follows_loop {head : Option β} : v ∈ (loop head).follows ↔ head = some v := by
  cases head <;> simp [loop, Pc.follows, eq_comm]

theorem mem_follows_resume {back : Option (Option β)} :
    v ∈ (resume back).follows ↔ back.getD none = some v := by
  cases back with
  | none => simp [resume, Pc.follows]
  | some head => exact mem_follows_loop

@[simp] theorem holds_loop (head : Option β) : (loop head).holds = none := by
  cases head <;> rfl

@[simp] theorem charge_loop (head : Option β) : (loop head).charge = none := by
  cases head <;> rfl

@[simp] theorem next_loop (head : Option β) : (loop head).next = none := by
  cases head <;> rfl

@[simp] theorem holds_resume (back : Option (Option β)) : (resume back).holds = none := by
  cases back with
  | none => rfl
  | some head => exact holds_loop head

@[simp] theorem charge_resume (back : Option (Option β)) : (resume back).charge = none := by
  cases back with
  | none => rfl
  | some head => exact charge_loop head

theorem isPoolIndex_loop (head : Option β) : (loop head).isPoolIndex = false := by
  cases head <;> rfl

theorem isPoolIndex_resume (back : Option (Option β)) : (resume back).isPoolIndex = false := by
  cases back with
  | none => rfl
  | some head => exact isPoolIndex_loop head

def State.base (s : State β T) (v : β) : ℕ :=
  match s.place v with
  | .held t => (s.pc t).base
  | .pending => 2 ^ 31
  | .listed => 1
  | .absent | .pooled | .out => 0

section

variable [DecidableEq β] [DecidableEq T] [Fintype T]

def State.holders (s : State β T) (v : β) : ℕ := Threads.count s.pc fun p => p.holds = some v

theorem holders_step (hpc : s'.pc = Function.update s.pc t p) (v : β) :
    s'.holders v + (if (s.pc t).holds = some v then 1 else 0) =
      s.holders v + (if p.holds = some v then 1 else 0) := by
  rw [State.holders, hpc]
  exact Threads.count_update

theorem holders_same (hpc : s'.pc = Function.update s.pc t p)
    (h : p.holds = some v ↔ (s.pc t).holds = some v) : s'.holders v = s.holders v := by
  have := holders_step hpc v
  simp only [h] at this
  omega

theorem holders_more (hpc : s'.pc = Function.update s.pc t p) (hold : (s.pc t).holds ≠ some v)
    (hnew : p.holds = some v) : s'.holders v = s.holders v + 1 := by
  have := holders_step hpc v
  rw [if_neg hold, if_pos hnew] at this
  omega

theorem holders_less (hpc : s'.pc = Function.update s.pc t p) (hold : (s.pc t).holds = some v)
    (hnew : p.holds ≠ some v) : s'.holders v + 1 = s.holders v := by
  have := holders_step hpc v
  rw [if_pos hold, if_neg hnew] at this
  omega

/-- The references of `v` are accounted for. -/
structure Counted (s : State β T) (v : β) : Prop where
  refs : s.place v ≠ .absent → (s.freeListRefs v).toNat = s.base v + s.holders v
  charge : ∀ t, (s.pc t).charge = some v ↔ s.place v = .held t
  pending : s.place v = .pending → 0 < s.holders v
  alone : ∀ t, s.place v = .held t → (s.pc t).base = 2 ^ 31 → s.holders v = 0
  next : ∀ t n, (s.pc t).next = some (v, n) → s.freeListNext v = n

/-- A step of `t` that leaves `v` where it is. -/
theorem Counted.stay (h : Counted s v) (hpc : s'.pc = Function.update s.pc t p)
    (hcharge : p.charge = some v ↔ (s.pc t).charge = some v)
    (hbase : p.charge = some v → p.base = (s.pc t).base)
    (hnext : ∀ n, p.next = some (v, n) → s.freeListNext v = n)
    (hplace : s'.place v = s.place v) (hlink : s'.freeListNext v = s.freeListNext v)
    (hrefs : (s'.freeListRefs v).toNat + s.holders v = (s.freeListRefs v).toNat + s'.holders v)
    (hpending : s.place v = .pending → 0 < s'.holders v)
    (halone : ∀ u, s.place v = .held u → (s.pc u).base = 2 ^ 31 → s'.holders v = 0) :
    Counted s' v := by
  have hch : ∀ u, (s'.pc u).charge = some v ↔ s'.place v = .held u := by
    intro u
    rw [hplace, ← h.charge u, hpc]
    rcases eq_or_ne u t with rfl | hu
    · rw [Function.update_self, hcharge]
    · rw [Function.update_of_ne hu]
  have hb : ∀ u, s.place v = .held u → (s'.pc u).base = (s.pc u).base := by
    intro u hu
    rw [hpc]
    rcases eq_or_ne u t with rfl | hne
    · rw [Function.update_self]
      exact hbase (hcharge.mpr ((h.charge u).mpr hu))
    · rw [Function.update_of_ne hne]
  have hsame : s'.base v = s.base v := by
    unfold State.base
    rw [hplace]
    split
    · exact hb _ ‹_›
    all_goals rfl
  refine ⟨?_, hch, ?_, ?_, ?_⟩
  · intro hv
    have := h.refs (hplace ▸ hv)
    omega
  · intro hv
    exact hpending (hplace ▸ hv)
  · intro u hu hub
    rw [hplace] at hu
    exact halone u hu (hb u hu ▸ hub)
  · intro u n hu
    rw [hlink]
    rw [hpc] at hu
    rcases eq_or_ne u t with rfl | hne
    · rw [Function.update_self] at hu
      exact hnext n hu
    · rw [Function.update_of_ne hne] at hu
      exact h.next u n hu

/-- A step of `t` that has to do with other nodes, or changes nothing of `v`. -/
theorem Counted.same (h : Counted s v) (hpc : s'.pc = Function.update s.pc t p)
    (hholds : p.holds = some v ↔ (s.pc t).holds = some v)
    (hcharge : p.charge = some v ↔ (s.pc t).charge = some v)
    (hbase : p.charge = some v → p.base = (s.pc t).base)
    (hnext : ∀ n, p.next = some (v, n) → s.freeListNext v = n)
    (hrefs : s'.freeListRefs v = s.freeListRefs v) (hplace : s'.place v = s.place v)
    (hlink : s'.freeListNext v = s.freeListNext v) : Counted s' v := by
  have hholders : s'.holders v = s.holders v := holders_same hpc hholds
  refine h.stay hpc hcharge hbase hnext hplace hlink ?_ ?_ ?_
  · rw [hrefs, hholders]
  · rw [hholders]
    exact h.pending
  · rw [hholders]
    exact h.alone

/-- A step of `t` that has `v` in its hands, and maybe puts it elsewhere. -/
theorem Counted.move (h : Counted s v) (hpc : s'.pc = Function.update s.pc t p)
    (hold : ∀ u, u ≠ t → s.place v ≠ .held u) (hnew : ∀ u, u ≠ t → s'.place v ≠ .held u)
    (hcharge : p.charge = some v ↔ s'.place v = .held t)
    (hnext : ∀ n, p.next = some (v, n) → s'.freeListNext v = n)
    (hlink : ∀ u n, u ≠ t → (s.pc u).next = some (v, n) → s'.freeListNext v = n)
    (hrefs : (s'.freeListRefs v).toNat = s'.base v + s'.holders v)
    (hpending : s'.place v = .pending → 0 < s'.holders v)
    (halone : s'.place v = .held t → p.base = 2 ^ 31 → s'.holders v = 0) : Counted s' v := by
  have hother : ∀ u, u ≠ t → s'.pc u = s.pc u := by
    intro u hu
    rw [hpc, Function.update_of_ne hu]
  have hself : s'.pc t = p := by rw [hpc, Function.update_self]
  refine ⟨fun _ => hrefs, ?_, hpending, ?_, ?_⟩
  · intro u
    rcases eq_or_ne u t with rfl | hu
    · rw [hself, hcharge]
    · simp only [hother u hu, h.charge u, hold u hu, hnew u hu]
  · intro u hu hub
    rcases eq_or_ne u t with rfl | hne
    · exact halone hu (hself ▸ hub)
    · exact (hnew u hne hu).elim
  · intro u n hu
    rcases eq_or_ne u t with rfl | hne
    · exact hnext n (hself ▸ hu)
    · exact hlink u n hne (hother u hne ▸ hu)

omit [DecidableEq β] [DecidableEq T] [Fintype T] in
theorem held_ne {u : T} (hv : s.place v = .held t) (hu : u ≠ t) : s.place v ≠ .held u := by
  rw [hv]
  rintro ⟨⟩
  exact hu rfl

/-- `v` comes into the hands of `t`, or stays there. -/
theorem Counted.held (h : Counted s v) (hpc : s'.pc = Function.update s.pc t p)
    (hplace : s'.place v = .held t) (hold : ∀ u, u ≠ t → s.place v ≠ .held u)
    (hcharge : p.charge = some v) (hnext : ∀ n, p.next = some (v, n) → s.freeListNext v = n)
    (hlink : s'.freeListNext v = s.freeListNext v)
    (hrefs : (s'.freeListRefs v).toNat = p.base + s'.holders v)
    (halone : p.base = 2 ^ 31 → s'.holders v = 0) : Counted s' v := by
  refine h.move hpc hold (fun u hu => held_ne hplace hu) ?_ ?_ ?_ ?_ ?_ fun _ => halone
  · simp [hcharge, hplace]
  · rw [hlink]
    exact hnext
  · intro u n _ hu
    rw [hlink]
    exact h.next u n hu
  · simp [hrefs, State.base, hplace, hpc]
  · simp [hplace]

/-- `t` lets go of `v`. -/
theorem Counted.free (h : Counted s v) (hpc : s'.pc = Function.update s.pc t p)
    (hold : ∀ u, u ≠ t → s.place v ≠ .held u) (hplace : ∀ u, s'.place v ≠ .held u)
    (hcharge : p.charge ≠ some v) (hholds : p.holds ≠ some v)
    (hlink : s'.freeListNext v = s.freeListNext v)
    (hrefs : (s'.freeListRefs v).toNat = s'.base v + s'.holders v)
    (hpending : s'.place v = .pending → 0 < s'.holders v) : Counted s' v := by
  refine h.move hpc hold (fun u _ => hplace u) ?_ ?_ ?_ hrefs hpending ?_
  · simp [hcharge, hplace]
  · intro n hn
    rcases Pc.holds_or_charge_of_next hn with hh | hh
    · exact (hholds hh).elim
    · exact (hcharge hh).elim
  · intro u n _ hu
    rw [hlink]
    exact h.next u n hu
  · intro hu
    exact (hplace t hu).elim

/-- A thread that has nothing to do with nodes other than `v`. -/
def Pc.Only (p : Pc β) (v : β) : Prop := ∀ w, p.holds = some w ∨ p.charge = some w → w = v

theorem Counted.other {w : β} (h : Counted s w) (hw : w ≠ v)
    (hpc : s'.pc = Function.update s.pc t p) (hold : (s.pc t).Only v) (hnew : p.Only v)
    (hrefs : s'.freeListRefs w = s.freeListRefs w) (hplace : s'.place w = s.place w)
    (hlink : s'.freeListNext w = s.freeListNext w) : Counted s' w := by
  have hnot : ∀ {q : Pc β}, q.Only v → q.holds ≠ some w ∧ q.charge ≠ some w := by
    intro q hq
    exact ⟨fun hh => hw (hq w (.inl hh)), fun hh => hw (hq w (.inr hh))⟩
  refine h.same hpc ?_ ?_ ?_ ?_ hrefs hplace hlink
  · simp [(hnot hold).1, (hnot hnew).1]
  · simp [(hnot hold).2, (hnot hnew).2]
  · intro hh
    exact ((hnot hnew).2 hh).elim
  · intro n hn
    rcases Pc.holds_or_charge_of_next hn with hh | hh
    · exact ((hnot hnew).1 hh).elim
    · exact ((hnot hnew).2 hh).elim

end

/-! ### The references as numbers -/

theorem toNat_shouldBeOnFreeList : shouldBeOnFreeList.toNat = 2 ^ 31 := rfl

theorem toNat_and_refsMask (refs : UInt32) : (refs &&& refsMask).toNat = refs.toNat % 2 ^ 31 := by
  have h : refsMask.toNat = 2 ^ 31 - 1 := rfl
  rw [UInt32.toNat_and, h, Nat.and_two_pow_sub_one_eq_mod]

theorem toNat_ne {x y : UInt32} (h : x ≠ y) : x.toNat ≠ y.toNat := fun hn =>
  h (UInt32.toNat_inj.mp hn)

theorem toNat_add_shouldBeOnFreeList {x : UInt32} (h : x.toNat < 2 ^ 31) :
    (x + shouldBeOnFreeList).toNat = x.toNat + 2 ^ 31 := by
  rw [UInt32.toNat_add, toNat_shouldBeOnFreeList]
  omega

theorem toNat_add_shouldBeOnFreeList_sub_one {x : UInt32} (h : x.toNat ≤ 2 ^ 31) :
    (x + (shouldBeOnFreeList - 1)).toNat = x.toNat + (2 ^ 31 - 1) := by
  have h1 : (shouldBeOnFreeList - 1).toNat = 2 ^ 31 - 1 := rfl
  rw [UInt32.toNat_add, h1]
  omega

end NodesDetector.BlockPool
