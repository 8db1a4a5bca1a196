import Mathlib.Data.Nat.Bitwise
import NodesDetector.Queue.BlockPlaces

/-! What callers see of the blocks: nobody gets one that is in use, and none is lost. -/
namespace NodesDetector.BlockPool

open Transition
open LinkedList (walk)

variable {β T : Type} [DecidableEq β] [DecidableEq T] {s s₀ s' : State β T} {a : Label β T}
  {t : T} {v w : β} {place : β → Place T} {dynamic : β → Bool}

/-- What a step can do to the blocks: `place` and `dynamicallyAllocated` after it. -/
inductive Moves (s : State β T) : Label β T → (β → Place T) → (β → Bool) → Prop
  | stay : Moves s none s.place s.dynamicallyAllocated
  | give {t : T} {v : β} (hv : s.place v = .out) :
      Moves s (some (.give t v)) (Function.update s.place v (.held t)) s.dynamicallyAllocated
  | take {t : T} {v : β} (hv : s.place v = .held t) :
      Moves s (some (.take t v)) (Function.update s.place v .out) s.dynamicallyAllocated
  | refuse {t : T} : Moves s (some (.refuse t)) s.place s.dynamicallyAllocated
  | leave {t : T} {v : β} {q : Place T} (hv : s.place v = .held t)
      (hq : q = .pending ∨ q = .listed) :
      Moves s none (Function.update s.place v q) s.dynamicallyAllocated
  | get {t : T} {v : β} (hv : s.place v = .pooled ∨ s.place v = .pending ∨ s.place v = .listed) :
      Moves s none (Function.update s.place v (.held t)) s.dynamicallyAllocated
  | create {t : T} {v : β} (hv : s.place v = .absent) :
      Moves s none (Function.update s.place v (.held t))
        (Function.update s.dynamicallyAllocated v true)

theorem Inv.moves [Fintype T] (h : Inv s) (hs : Step s a s')
    (hT : Fintype.card T < 2 ^ 31 - 1) : Moves s a s'.place s'.dynamicallyAllocated := by
  cases hs with
  | give ht hv => exact .give hv
  | @take t v ht => exact .take (h.held_of_charge (by rw [ht]; rfl))
  | refuse => exact .refuse
  | @addLater t v ht => exact .leave (h.held_of_charge (t := t) (by rw [ht]; rfl)) (.inl rfl)
  | @pushLater t v head back ht =>
    exact .leave (h.held_of_charge (t := t) (by rw [ht]; rfl)) (.inl rfl)
  | @push t v head back ht => exact .leave (h.held_of_charge (t := t) (by rw [ht]; rfl)) (.inr rfl)
  | @poolTaken t ht hlt => exact .get (.inl ((h.pooled _).mpr ⟨_, UInt64.le_refl _, hlt, rfl⟩))
  | release ht hv => exact .get (.inr (.inl (h.pending_of_release hT ht hv).1))
  | pop ht hh => exact .get (.inr (.inr (h.listed_of_head hh)))
  | create ht hv => exact .create hv
  | _ => exact .stay

/-! ### Blocks in use -/

def out (place : β → Place T) : Set β := {v | place v = .out}

omit [DecidableEq T] in
theorem out_put {q : Place T} (hq : q ≠ .out) :
    out (Function.update place v q) = out place \ {v} := by
  ext w
  rcases eq_or_ne w v with rfl | hne
  · simp [out, hq]
  · simp [out, hne]

omit [DecidableEq T] in
theorem out_put_out : out (Function.update place v .out) = insert v (out place) := by
  ext w
  rcases eq_or_ne w v with rfl | hne
  · simp [out]
  · simp [out, hne]

omit [DecidableEq T] in
theorem Moves.exclusive {l : Exclusive.Label T β} (h : Moves s (some l) place dynamic) :
    Exclusive.Step (out s.place) l (out place) := by
  cases h with
  | give hv =>
    rw [out_put (by simp)]
    exact .give hv
  | take hv =>
    rw [out_put_out]
    refine .take ?_
    simp [out, hv]
  | refuse => exact .refuse

omit [DecidableEq T] in
theorem Moves.out_eq (h : Moves s none place dynamic) : out place = out s.place := by
  have hnot : ∀ {v q}, s.place v ≠ .out → q ≠ .out →
      out (Function.update s.place v q) = out s.place := by
    intro v q hv hq
    rw [out_put hq]
    exact Set.sdiff_singleton_eq_self hv
  cases h with
  | stay => rfl
  | leave hv hq => exact hnot (by simp [hv]) (by rcases hq with rfl | rfl <;> simp)
  | get hv => exact hnot (by rcases hv with hv | hv | hv <;> simp [hv]) (by simp)
  | create hv => exact hnot (by simp [hv]) (by simp)

omit [DecidableEq β] [DecidableEq T] in
theorem out_initial (h : Initial s) : out s.place = ∅ := by
  apply Set.eq_empty_of_forall_notMem
  intro v (hv : s.place v = .out)
  obtain ⟨i, hi, rfl⟩ := h.absent v (by simp [hv])
  simp [(h.pooled i hi).1] at hv

/-- A pool of one block and two threads. -/
def fresh : State ℕ Bool where
  initialBlockPool _ := 0
  initialBlockPoolSize := 1
  initialBlockPoolIndex := 0
  freeListHead := none
  freeListRefs _ := 0
  freeListNext _ := none
  dynamicallyAllocated _ := false
  pc _ := .idle
  place v := if v = 0 then .pooled else .absent

theorem fresh_initial : Initial fresh := by
  refine ⟨?_, rfl, rfl, fun _ => rfl, ?_, ?_⟩
  · intro i j hi hj _
    rw [UInt64.lt_iff_toNat_lt, show fresh.initialBlockPoolSize.toNat = 1 from rfl] at hi hj
    exact UInt64.toNat_inj.mp (by omega)
  · intro i _
    exact ⟨rfl, rfl, rfl, rfl⟩
  · intro v hv
    refine ⟨0, by decide, ?_⟩
    by_contra hne
    exact hv (if_neg fun h => hne h.symm)

/-- One thread has put the block on the free list and is about to take it from there when the other
one does. The first is left with a reference to it. -/
theorem first_run : ∃ s, Run Step fresh
      ([none, none, none, some (.take true 0), some (.give true 0)] ++ List.replicate 18 none) s ∧
    (s.pc true = .pop 0 none ∧ s.pc false = .popped 0 ∧ s.freeListRefs 0 = 3) ∧
    ∃ s', Run Step s
      ([none, some (.take false 0), some (.give false 0)] ++ List.replicate 8 none ++
        [some (.take true 1), some (.give true 1)] ++ List.replicate 5 none) s' ∧
      (∀ t, s'.pc t = .idle) ∧ out s'.place = ∅ ∧ s'.freeListHead = some 1 ∧
        s'.freeListNext 1 = some 0 := by
  apply Run.exists_stepL (.requisition (t := true) rfl)
  apply Run.exists_stepL (.pool (t := true) rfl)
  apply Run.exists_stepL (.poolTaken (t := true) rfl (by decide))
  apply Run.exists_stepL (.take (t := true) (v := 0) rfl)
  apply Run.exists_stepL (.give (t := true) (v := 0) rfl rfl)
  apply Run.exists_stepL (.add (t := true) (v := 0) rfl rfl)
  apply Run.exists_stepL (.loadHead (t := true) rfl)
  apply Run.exists_stepL (.storeNext (t := true) rfl)
  apply Run.exists_stepL (.storeRefs (t := true) rfl)
  apply Run.exists_stepL (.push (t := true) rfl rfl)
  apply Run.exists_stepL (.requisition (t := true) rfl)
  apply Run.exists_stepL (.pool (t := true) rfl)
  apply Run.exists_stepL (.tryGet (t := true) rfl)
  apply Run.exists_stepL (.loadRefs (t := true) rfl)
  apply Run.exists_stepL (.acquire (t := true) (v := 0) rfl rfl)
  apply Run.exists_stepL (.loadNext (t := true) rfl)
  apply Run.exists_stepL (.requisition (t := false) rfl)
  apply Run.exists_stepL (.pool (t := false) rfl)
  apply Run.exists_stepL (.tryGet (t := false) rfl)
  apply Run.exists_stepL (.loadRefs (t := false) rfl)
  apply Run.exists_stepL (.acquire (t := false) (v := 0) rfl rfl)
  apply Run.exists_stepL (.loadNext (t := false) rfl)
  apply Run.exists_stepL (.pop (t := false) rfl rfl)
  refine ⟨_, .refl, ⟨rfl, rfl, rfl⟩, ?_⟩
  apply Run.exists_stepL (.popped (t := false) rfl)
  apply Run.exists_stepL (.take (t := false) (v := 0) rfl)
  apply Run.exists_stepL (.give (t := false) (v := 0) rfl rfl)
  apply Run.exists_stepL (.addLater (t := false) (v := 0) rfl (by decide))
  apply Run.exists_stepL (.popFailed (t := true) rfl (by decide))
  apply Run.exists_stepL (.release (t := true) (show _ = Pc.release 0 none from rfl) rfl)
  apply Run.exists_stepL (.loadHead (t := true) rfl)
  apply Run.exists_stepL (.storeNext (t := true) (show _ = Pc.storeNext 0 none _ from rfl))
  apply Run.exists_stepL (.storeRefs (t := true) rfl)
  apply Run.exists_stepL (.push (t := true) rfl rfl)
  apply Run.exists_stepL (.create (t := true) (v := 1) rfl rfl)
  apply Run.exists_stepL (.take (t := true) (v := 1) rfl)
  apply Run.exists_stepL (.give (t := true) (v := 1) rfl rfl)
  apply Run.exists_stepL (.add (t := true) (v := 1) rfl rfl)
  apply Run.exists_stepL (.loadHead (t := true) rfl)
  apply Run.exists_stepL
    (.storeNext (t := true) (show _ = Pc.storeNext 1 (some 0) _ from rfl))
  apply Run.exists_stepL (.storeRefs (t := true) rfl)
  apply Run.exists_stepL (.push (t := true) rfl rfl)
  refine ⟨_, .refl, ?_, ?_, rfl, rfl⟩
  · rintro (_ | _) <;> rfl
  · apply Set.eq_empty_of_forall_notMem
    intro v (hv : _ = Place.out)
    rcases eq_or_ne v 0 with rfl | hne
    · cases hv
    · rcases eq_or_ne v 1 with rfl | hne'
      · cases hv
      · simp [State.put, State.goto, State.setRefs, State.setNext, fresh, hne, hne'] at hv

theorem fresh_small : Fintype.card Bool < 2 ^ 31 - 1 ∧
    fresh.initialBlockPoolSize.toNat + Fintype.card Bool < 2 ^ 64 := by decide

/-- What was seen of the pool so far is a run of the abstract one, up to the blocks in use. -/
theorem inv_exclusive [Fintype T] (h₀ : Initial s₀) (hT : Fintype.card T < 2 ^ 31 - 1)
    (hsize : s₀.initialBlockPoolSize.toNat + Fintype.card T < 2 ^ 64)
    {as : List (Exclusive.Label T β)} (h : WeakRun Step s₀ as s) :
    Inv s ∧ Run Exclusive.Step ∅ as (out s.place) := by
  have hrefl : Run Exclusive.Step ∅ ([] : List (Exclusive.Label T β)) (out s₀.place) := by
    rw [out_initial h₀]
    exact .refl
  refine h.invariant (I := fun as s => Inv s ∧ Run Exclusive.Step ∅ as (out s.place)) ?_
    ⟨inv_initial h₀ hsize, hrefl⟩
  rintro as s a s' hs ⟨hi, hr⟩
  refine ⟨hi.step hs hT, ?_⟩
  cases a with
  | none =>
    rw [Option.toList_none, List.append_nil, (hi.moves hs hT).out_eq]
    exact hr
  | some l => exact hr.snoc (hi.moves hs hT).exclusive

/-- However the threads take turns, no block is handed out while it is in use. -/
theorem handed_out_once [Fintype T] (h₀ : Initial s₀) (hT : Fintype.card T < 2 ^ 31 - 1)
    (hsize : s₀.initialBlockPoolSize.toNat + Fintype.card T < 2 ^ 64)
    {as : List (Exclusive.Label T β)} (h : WeakRun Step s₀ as s) :
    Run Exclusive.Step ∅ as (out s.place) :=
  (inv_exclusive h₀ hT hsize h).2

theorem handed_out_once_first : ∃ s : State ℕ Bool,
    Run Exclusive.Step ∅ [.take true 0, .give true 0, .take false 0, .give false 0, .take true 1,
      .give true 1] (out s.place) := by
  obtain ⟨s, hs, -, s', hs', -⟩ := first_run
  exact ⟨s', handed_out_once fresh_initial fresh_small.1 fresh_small.2 ⟨_, hs.append hs', rfl⟩⟩

theorem inv_reachable [Fintype T] (h₀ : Initial s₀) (hT : Fintype.card T < 2 ^ 31 - 1)
    (hsize : s₀.initialBlockPoolSize.toNat + Fintype.card T < 2 ^ 64) {as : List (Label β T)}
    (h : Run Step s₀ as s) : Inv s :=
  h.invariant (fun _ _ _ hs h => h.step hs hT) (inv_initial h₀ hsize)

/-! ### The assertion of `try_get` -/

/-- What `try_get` relies on. -/
structure Safe (s : State β T) : Prop where
  follows : ∀ t, ∀ v ∈ (s.pc t).follows, s.place v ≠ .absent
  taken : ∀ t v, s.pc t = .popped v → s.freeListRefs v &&& shouldBeOnFreeList = 0
  head : ∀ t v next, s.pc t = .pop v next → s.freeListHead = some v → s.freeListNext v = next
  alone : ∀ t u v, (s.pc t).charge = some v → (s.pc u).charge = some v → t = u
  unused : ∀ t v, (s.pc t).charge = some v → s.place v ≠ .out

theorem and_shouldBeOnFreeList {x : UInt32} (h : x.toNat < 2 ^ 31) :
    x &&& shouldBeOnFreeList = 0 := by
  apply UInt32.toNat_inj.mp
  rw [UInt32.toNat_and, toNat_shouldBeOnFreeList, Nat.and_two_pow, Nat.testBit_lt_two_pow h]
  rfl

omit [DecidableEq T] in
theorem Inv.safe [Fintype T] (h : Inv s) (hT : Fintype.card T < 2 ^ 31 - 1) : Safe s := by
  refine ⟨h.follows, ?_, ?_, ?_, ?_⟩
  · intro t v ht
    obtain ⟨-, hr⟩ := h.refs_held (t := t) (v := v) (by rw [ht]; rfl)
    have hle : s.holders v ≤ Fintype.card T := Threads.count_le
    rw [ht] at hr
    simp only [Pc.base] at hr
    exact and_shouldBeOnFreeList (by omega)
  · intro t v next ht _
    exact (h.counted v).next t next (by rw [ht]; rfl)
  · intro t u v ht hu
    have hplace := h.held_of_charge ht
    rw [h.held_of_charge hu] at hplace
    cases hplace
    rfl
  · intro t v ht
    simp [h.held_of_charge ht]

/-- In every reachable state the assertion of `try_get` holds, the head is only replaced by the
node behind it, and no pointer leads to where there is no block. -/
theorem always_safe [Fintype T] (h₀ : Initial s₀) (hT : Fintype.card T < 2 ^ 31 - 1)
    (hsize : s₀.initialBlockPoolSize.toNat + Fintype.card T < 2 ^ 64) {as : List (Label β T)}
    (h : Run Step s₀ as s) : Safe s :=
  (inv_reachable h₀ hT hsize h).safe hT

theorem always_safe_first : ∃ s : State ℕ Bool,
    s.pc true = .pop 0 none ∧ s.pc false = .popped 0 ∧ s.freeListRefs 0 = 3 ∧ Safe s := by
  obtain ⟨s, hs, ⟨hpop, hpopped, hrefs⟩, -⟩ := first_run
  exact ⟨s, hpop, hpopped, hrefs, always_safe fresh_initial fresh_small.1 fresh_small.2 hs⟩

def State.poolBlocks (s : State β T) : List β :=
  (List.range s.initialBlockPoolSize.toNat).map fun i => s.initialBlockPool (UInt64.ofNat i)

/-- What `~ConcurrentQueue` destroys of the blocks: those of the free list that were allocated one
by one, then the initial pool. `none` where the walk takes more than `n` steps. -/
def State.destroyBlocks (s : State β T) (n : ℕ) : Option (List β) :=
  (walk s.freeListNext n s.freeListHead).map fun l =>
    l.filter (s.dynamicallyAllocated ·) ++ s.poolBlocks

omit [DecidableEq β] [DecidableEq T] in
theorem mem_poolBlocks :
    v ∈ s.poolBlocks ↔ ∃ i, i < s.initialBlockPoolSize ∧ s.initialBlockPool i = v := by
  simp only [State.poolBlocks, List.mem_map, List.mem_range]
  constructor
  · rintro ⟨i, hi, rfl⟩
    refine ⟨UInt64.ofNat i, ?_, rfl⟩
    have hlt := s.initialBlockPoolSize.toNat_lt
    rw [UInt64.lt_iff_toNat_lt, UInt64.toNat_ofNat', Nat.mod_eq_of_lt (by omega)]
    exact hi
  · rintro ⟨i, hi, rfl⟩
    exact ⟨i.toNat, UInt64.lt_iff_toNat_lt.mp hi, by rw [UInt64.ofNat_toNat]⟩

/-- Which blocks were allocated one by one. -/
structure Allocated (s : State β T) : Prop where
  pool : ∀ v ∈ s.poolBlocks, s.place v ≠ .absent
  dynamic : ∀ v, s.place v ≠ .absent → (s.dynamicallyAllocated v = true ↔ v ∉ s.poolBlocks)

omit [DecidableEq β] [DecidableEq T] in
theorem allocated_initial (h : Initial s) : Allocated s := by
  have hpool : ∀ v ∈ s.poolBlocks, s.place v = .pooled ∧ s.dynamicallyAllocated v = false := by
    intro v hv
    obtain ⟨i, hi, rfl⟩ := mem_poolBlocks.mp hv
    exact ⟨(h.pooled i hi).1, (h.pooled i hi).2.2.2⟩
  refine ⟨?_, ?_⟩
  · intro v hv
    simp [(hpool v hv).1]
  · intro v hv
    have hmem : v ∈ s.poolBlocks := mem_poolBlocks.mpr (h.absent v hv)
    simp [hmem, (hpool v hmem).2]

omit [DecidableEq T] in
theorem Moves.absent_iff (h : Moves s a place dynamic) :
    (dynamic = s.dynamicallyAllocated ∧ ∀ v, place v = .absent ↔ s.place v = .absent) ∨
      ∃ t v, s.place v = .absent ∧ place = Function.update s.place v (.held t) ∧
        dynamic = Function.update s.dynamicallyAllocated v true := by
  have hput : ∀ {v q}, s.place v ≠ .absent → q ≠ .absent →
      ∀ w, Function.update s.place v q w = .absent ↔ s.place w = .absent := by
    intro v q hv hq w
    rcases eq_or_ne w v with rfl | hne
    · simp [hv, hq]
    · rw [Function.update_of_ne hne]
  cases h with
  | stay | refuse => exact .inl ⟨rfl, fun _ => Iff.rfl⟩
  | give hv | take hv => exact .inl ⟨rfl, hput (by simp [hv]) (by simp)⟩
  | leave hv hq => exact .inl ⟨rfl, hput (by simp [hv]) (by rcases hq with rfl | rfl <;> simp)⟩
  | get hv => exact .inl ⟨rfl, hput (by rcases hv with hv | hv | hv <;> simp [hv]) (by simp)⟩
  | create hv => exact .inr ⟨_, _, hv, rfl, rfl⟩

theorem allocated_step [Fintype T] (hs : Step s a s') (hi : Inv s)
    (hT : Fintype.card T < 2 ^ 31 - 1) (h : Allocated s) : Allocated s' := by
  have hpool : s'.poolBlocks = s.poolBlocks := by
    cases hs <;> rfl
  refine ⟨?_, ?_⟩
  · intro v hv
    rw [hpool] at hv
    exact place_ne_absent hs (h.pool v hv)
  · intro v hv
    rw [hpool]
    rcases (hi.moves hs hT).absent_iff with ⟨hdyn, hplace⟩ | ⟨t, u, hu, hplace, hdyn⟩
    · rw [hdyn]
      exact h.dynamic v ((not_congr (hplace v)).mp hv)
    · rw [hdyn]
      rcases eq_or_ne v u with rfl | hne
      · simp only [Function.update_self, true_iff]
        intro hmem
        exact h.pool v hmem hu
      · rw [hplace, Function.update_of_ne hne] at hv
        rw [Function.update_of_ne hne]
        exact h.dynamic v hv

omit [DecidableEq T] in
theorem nodup_poolBlocks [Fintype T] (h : Inv s) : s.poolBlocks.Nodup := by
  refine List.Nodup.map_on ?_ List.nodup_range
  intro i hi j hj hij
  have hlt := s.initialBlockPoolSize.toNat_lt
  rw [List.mem_range] at hi hj
  have hbound : ∀ k, k < s.initialBlockPoolSize.toNat →
      (UInt64.ofNat k).toNat = k ∧ UInt64.ofNat k < s.initialBlockPoolSize := by
    intro k hk
    have hk' : (UInt64.ofNat k).toNat = k := by
      rw [UInt64.toNat_ofNat', Nat.mod_eq_of_lt (by omega)]
    exact ⟨hk', by rwa [UInt64.lt_iff_toNat_lt, hk']⟩
  have heq := h.injective _ _ (hbound i hi).2 (hbound j hj).2 hij
  rw [← (hbound i hi).1, heq, (hbound j hj).1]

omit [DecidableEq T] in
/-- Where nobody is at work a block is in the pool, in use or on the list. -/
theorem Inv.listed_of_rest [Fintype T] (h : Inv s) (hidle : ∀ t, s.pc t = .idle)
    (hout : out s.place = ∅) (hv : s.place v ≠ .absent) (hpool : v ∉ s.poolBlocks) :
    s.place v = .listed := by
  have hnone : s.holders v = 0 := by
    rw [State.holders, Threads.count_eq_zero]
    simp [hidle, Pc.holds]
  cases hp : s.place v with
  | absent => exact (hv hp).elim
  | pooled =>
    obtain ⟨i, -, hi, rfl⟩ := (h.pooled v).mp hp
    exact (hpool (mem_poolBlocks.mpr ⟨i, hi, rfl⟩)).elim
  | out =>
    have hmem : v ∈ out s.place := hp
    rw [hout] at hmem
    exact hmem.elim
  | held t =>
    have hc := ((h.counted v).charge t).mpr hp
    simp [hidle, Pc.charge] at hc
  | pending =>
    have := (h.counted v).pending hp
    omega
  | listed => rfl

/-- Where nobody is at work and nothing is in use, the destructor destroys every block there is,
each once. -/
theorem destroys_every_block [Fintype T] (h₀ : Initial s₀) (hT : Fintype.card T < 2 ^ 31 - 1)
    (hsize : s₀.initialBlockPoolSize.toNat + Fintype.card T < 2 ^ 64) {as : List (Label β T)}
    (h : Run Step s₀ as s) (hidle : ∀ t, s.pc t = .idle) (hout : out s.place = ∅) :
    ∃ l n, (∀ m, n ≤ m → s.destroyBlocks m = some l) ∧ l.Nodup ∧
      ∀ v, v ∈ l ↔ s.place v ≠ .absent := by
  obtain ⟨hi, ha⟩ := h.invariant (I := fun s => Inv s ∧ Allocated s)
    (fun _ _ _ hs h => ⟨h.1.step hs hT, allocated_step hs h.1 hT h.2⟩)
    ⟨inv_initial h₀ hsize, allocated_initial h₀⟩
  obtain ⟨l, hc, hnodup, hl⟩ := hi.listed
  have hdyn : ∀ v ∈ l.filter (s.dynamicallyAllocated ·), v ∉ s.poolBlocks := by
    intro v hv
    obtain ⟨hv, hd⟩ := List.mem_filter.mp hv
    exact (ha.dynamic v (by simp [(hl v).mp hv])).mp hd
  refine ⟨l.filter (s.dynamicallyAllocated ·) ++ s.poolBlocks, l.length, ?_, ?_, ?_⟩
  · intro m hm
    simp [State.destroyBlocks, hc.walk_eq hm]
  · refine List.nodup_append.mpr ⟨hnodup.filter _, nodup_poolBlocks hi, ?_⟩
    rintro v hv w hw rfl
    exact hdyn v hv hw
  · intro v
    rw [List.mem_append, List.mem_filter]
    constructor
    · rintro (⟨hv, -⟩ | hv)
      · simp [(hl v).mp hv]
      · exact ha.pool v hv
    · intro hv
      by_cases hmem : v ∈ s.poolBlocks
      · exact .inr hmem
      · exact .inl ⟨(hl v).mpr (hi.listed_of_rest hidle hout hv hmem), (ha.dynamic v hv).mpr hmem⟩

theorem destroys_every_block_first : ∃ s : State ℕ Bool,
    s.freeListHead = some 1 ∧ s.freeListNext 1 = some 0 ∧
      ∃ l n, (∀ m, n ≤ m → s.destroyBlocks m = some l) ∧ l.Nodup ∧
        ∀ v, v ∈ l ↔ s.place v ≠ .absent := by
  obtain ⟨s, hs, -, s', hs', hidle, hout, hhead, hnext⟩ := first_run
  exact ⟨s', hhead, hnext, destroys_every_block fresh_initial fresh_small.1 fresh_small.2
    (hs.append hs') hidle hout⟩

end NodesDetector.BlockPool
