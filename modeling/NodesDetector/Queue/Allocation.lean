import Mathlib.Data.Fintype.Sum
import NodesDetector.Library.Client
import NodesDetector.Queue.BlockPoolSafety
import NodesDetector.Queue.Progress

/-! The queue with its block pool: what the queue takes for granted of `requisition_block`, the pool
does, and what the pool takes for granted of its callers, the queue does. -/
namespace NodesDetector.Allocation

open Transition
open ConcurrentQueue (Enqueues Near NearStep Sound)

variable {π α β C : Type} [DecidableEq π] [DecidableEq β] [DecidableEq C]

/-- The threads that come for blocks: the producers, and the consumers that empty a block. -/
abbrev Thread (π C : Type) := π ⊕ C

/-- A step of the queue together with its call of the pool. Here a thread may ask for a block before
it needs it, and need not wait for `add_block_to_free_list` to return: the source has fewer runs. -/
inductive Uses (noexceptCtor : Bool) : ConcurrentQueue.State π α β C →
    Option (Exclusive.Label (Thread π C) β) → Option (ConcurrentQueue.Label π α C) →
    ConcurrentQueue.State π α β C → Prop
  | produce {q : ConcurrentQueue.State π α β C} {p : π} {a : Queue.Label α C}
      {u : Queue.State α β C} (hp : q.listing p = .listed) (ha : Enqueues a)
      (hs : Queue.Step noexceptCtor (q.producers p) a u)
      (hreq : ∀ x e, (q.producers p).producer ≠ .requisition x e)
      (hg : (q.producers p).gives none = none) :
      Uses noexceptCtor q none (some (.producer p a)) (q.setProducer p u)
  | requisition {q : ConcurrentQueue.State π α β C} {p : π} {x : α} {e : ℕ} (b : β)
      (block : Queue.Block α) (hp : q.listing p = .listed)
      (hreq : (q.producers p).producer = .requisition x e) :
      Uses noexceptCtor q (some (.take (.inl p) b)) (some (.producer p .producer))
        (q.setProducer p
          { ((q.producers p).toProducer (.ready x e b)).setBlock b block.resetEmpty with
            owned := insert b (q.producers p).owned })
  | requisitionFailed {q : ConcurrentQueue.State π α β C} {p : π} {x : α} {e : ℕ}
      (hp : q.listing p = .listed) (hreq : (q.producers p).producer = .requisition x e) :
      Uses noexceptCtor q (some (.refuse (.inl p))) (some (.producer p .producer))
        (q.setProducer p ((q.producers p).toProducer (.rewind e none)))
  | giveUp {q : ConcurrentQueue.State π α β C} {p : π} {b : β} {u : Queue.State α β C}
      (hp : q.listing p = .listed) (hg : (q.producers p).gives none = some b)
      (hs : Queue.Step noexceptCtor (q.producers p) .producer u) :
      Uses noexceptCtor q (some (.give (.inl p) b)) (some (.producer p .producer))
        (q.setProducer p u)
  | recycle {q : ConcurrentQueue.State π α β C} {c : C} {p : π} {b : β} {u : Queue.State α β C}
      (hin : (q.consumer c).inside = some p) (hg : (q.producers p).gives (some c) = some b)
      (hs : Queue.Step noexceptCtor (q.producers p) (.consumer c) u) :
      Uses noexceptCtor q (some (.give (.inr c) b)) (some (.consumer c)) (q.setProducer p u)
  | other {q q' : ConcurrentQueue.State π α β C} {a : ConcurrentQueue.Label π α C}
      (hs : ConcurrentQueue.Step noexceptCtor q a q') (ha : ∀ p b, a ≠ .producer p b)
      (hg : ∀ c p, a = .consumer c → (q.consumer c).inside = some p →
        (q.producers p).gives (some c) = none) :
      Uses noexceptCtor q none (some a) q'

/-- While no consumer lags behind. -/
def NearUses (noexceptCtor : Bool) (q : ConcurrentQueue.State π α β C)
    (l : Option (Exclusive.Label (Thread π C) β)) (a : Option (ConcurrentQueue.Label π α C))
    (q' : ConcurrentQueue.State π α β C) : Prop :=
  Near q ∧ Uses noexceptCtor q l a q'

variable {noexceptCtor : Bool} {q q₀ q' : ConcurrentQueue.State π α β C} {out out' : Set β}
  {p : π} {b : β}

/-- The blocks in use are those of the producers. -/
def InUse (q : ConcurrentQueue.State π α β C) (out : Set β) : Prop :=
  ∀ b, b ∈ out ↔ ∃ p, b ∈ (q.producers p).owned

/-! ### The blocks of a producer -/

omit [DecidableEq π] in
theorem owned_giveUp {s u : Queue.State α β C} (hg : s.gives none = some b)
    (hs : Queue.Step noexceptCtor s .producer u) : u.owned = s.owned \ {b} := by
  cases hs with
  | giveUp hp =>
    simp only [Queue.State.gives, hp, Option.some.injEq] at hg
    rw [hg]
  | boundary hp | insert hp | insertNull hp | key hp | growFailed hp | grow _ hp | grown hp
  | tail hp | requisition _ _ hp | requisitionFailed hp | rewind hp | nullify hp | link _ hp
  | fill _ hp | fillThrows _ hp | linkFilled hp | construct hp | constructThrows _ hp =>
    simp [Queue.State.gives, hp] at hg

omit [DecidableEq π] in
theorem owned_recycle {s u : Queue.State α β C} {c : C} (hg : s.gives (some c) = some b)
    (hs : Queue.Step noexceptCtor s (.consumer c) u) : u.owned = s.owned \ {b} := by
  cases hs with
  | recycle hc =>
    simp only [Queue.State.gives, hc, Queue.ConsumerPc.freed, Option.some.injEq] at hg
    rw [hg]
  | _ => simp_all [Queue.State.gives, Queue.ConsumerPc.freed]

omit [DecidableEq π] in
theorem owned_same {s u : Queue.State α β C} {a : Queue.Label α C}
    (hs : Queue.Step noexceptCtor s a u)
    (hp : a = .producer → (∀ x e, s.producer ≠ .requisition x e) ∧ s.gives none = none)
    (hc : ∀ c, a = .consumer c → s.gives (some c) = none) : u.owned = s.owned := by
  cases hs with
  | requisition b block hreq => exact ((hp rfl).1 _ _ hreq).elim
  | giveUp hg => simp [Queue.State.gives, hg] at hp
  | recycle hg => simpa [Queue.State.gives, hg, Queue.ConsumerPc.freed] using hc _ rfl
  | _ => rfl

theorem owned_other {a : ConcurrentQueue.Label π α C}
    (hs : ConcurrentQueue.Step noexceptCtor q a q') (ha : ∀ p b, a ≠ .producer p b)
    (hg : ∀ c p, a = .consumer c → (q.consumer c).inside = some p →
      (q.producers p).gives (some c) = none) (p : π) :
    (q'.producers p).owned = (q.producers p).owned := by
  have hset : ∀ {r : ConcurrentQueue.State π α β C} {p' u}, r.producers = q.producers →
      u.owned = (q.producers p').owned →
      ((r.setProducer p' u).producers p).owned = (q.producers p).owned := by
    intro r p' u hr hu
    rcases eq_or_ne p p' with rfl | hne
    · simp [ConcurrentQueue.State.setProducer, hu]
    · simp [ConcurrentQueue.State.setProducer, Function.update_of_ne hne, hr]
  cases hs with
  | produce => exact (ha _ _ rfl).elim
  | callBest _ _ _ hs | callOther _ _ hs | claim _ hs | success _ hs | bestFailed _ hs
  | otherFailed _ hs => exact hset rfl (owned_same hs (by simp) (by simp))
  | dequeue hin hs =>
    refine hset rfl (owned_same hs (by simp) ?_)
    rintro c ⟨⟩
    exact hg _ _ rfl hin
  | _ => rfl

omit [DecidableEq β] [DecidableEq C] in
/-- A block is with `p`, or with another producer. -/
theorem exists_owned {u : Queue.State α β C} :
    (∃ r, b ∈ ((q.setProducer p u).producers r).owned) ↔
      b ∈ u.owned ∨ ∃ r, r ≠ p ∧ b ∈ (q.producers r).owned := by
  constructor
  · rintro ⟨r, hr⟩
    rcases eq_or_ne r p with rfl | hne
    · simp only [ConcurrentQueue.State.setProducer, Function.update_self] at hr
      exact .inl hr
    · simp only [ConcurrentQueue.State.setProducer, Function.update_of_ne hne] at hr
      exact .inr ⟨r, hne, hr⟩
  · rintro (hu | ⟨r, hne, hr⟩)
    · refine ⟨p, ?_⟩
      simpa [ConcurrentQueue.State.setProducer] using hu
    · refine ⟨r, ?_⟩
      simpa [ConcurrentQueue.State.setProducer, Function.update_of_ne hne] using hr

omit [DecidableEq β] [DecidableEq C] in
/-- One producer gets a block that nobody has. -/
theorem InUse.insert {u : Queue.State α β C} (h : InUse q out)
    (hu : u.owned = insert b (q.producers p).owned) :
    InUse (q.setProducer p u) (insert b out) := by
  intro b'
  rw [exists_owned, hu, Set.mem_insert_iff, Set.mem_insert_iff, h b']
  constructor
  · rintro (rfl | ⟨r, hr⟩)
    · exact .inl (.inl rfl)
    · rcases eq_or_ne r p with rfl | hne
      · exact .inl (.inr hr)
      · exact .inr ⟨r, hne, hr⟩
  · rintro ((rfl | hr) | ⟨r, -, hr⟩)
    · exact .inl rfl
    · exact .inr ⟨p, hr⟩
    · exact .inr ⟨r, hr⟩

omit [DecidableEq β] [DecidableEq C] in
/-- One producer gives away a block that nobody else has. -/
theorem InUse.remove {u : Queue.State α β C} (h : InUse q out)
    (howner : ∀ p r b, b ∈ (q.producers p).owned → b ∈ (q.producers r).owned → r = p)
    (hb : b ∈ (q.producers p).owned) (hu : u.owned = (q.producers p).owned \ {b}) :
    InUse (q.setProducer p u) (out \ {b}) := by
  intro b'
  rw [exists_owned, hu, Set.mem_sdiff, Set.mem_sdiff, Set.mem_singleton_iff, h b']
  constructor
  · rintro ⟨⟨r, hr⟩, hne⟩
    rcases eq_or_ne r p with rfl | hrp
    · exact .inl ⟨hr, hne⟩
    · exact .inr ⟨r, hrp, hr⟩
  · rintro (⟨hr, hne⟩ | ⟨r, hrp, hr⟩)
    · exact ⟨⟨p, hr⟩, hne⟩
    · refine ⟨⟨r, hr⟩, ?_⟩
      rintro rfl
      exact hrp (howner p r _ hb hr)

omit [DecidableEq π] [DecidableEq β] [DecidableEq C] in
theorem InUse.same (h : InUse q out) (hq : ∀ p, (q'.producers p).owned = (q.producers p).owned) :
    InUse q' out := by
  intro b
  simp only [hq]
  exact h b

/-! ### The queue keeps to the pool, and the pool to the queue -/

theorem uses_quiet {a : Option (ConcurrentQueue.Label π α C)} (hu : Uses noexceptCtor q none a q')
    (h : Sound noexceptCtor q) (hin : InUse q out) :
    ∃ x, a = some x ∧ ConcurrentQueue.Step noexceptCtor q x q' ∧ InUse q' out := by
  cases hu with
  | @produce p x u hp ha hs hreq hg =>
    have howned : u.owned = (q.producers p).owned := by
      refine owned_same hs (fun _ => ⟨hreq, hg⟩) ?_
      rintro c rfl
      exact ha.elim
    refine ⟨_, rfl, .produce hp ha hs ?_, hin.same ?_⟩
    · intro r b hb
      exact h.owner p r b (howned ▸ hb)
    · intro r
      rcases eq_or_ne r p with rfl | hne
      · simp [ConcurrentQueue.State.setProducer, howned]
      · simp [ConcurrentQueue.State.setProducer, Function.update_of_ne hne]
  | other hs ha hg => exact ⟨_, rfl, hs, hin.same (owned_other hs ha hg)⟩

/-- The pool hands out a block that no producer has, and gets back one that it handed out. -/
theorem uses_pool {l : Exclusive.Label (Thread π C) β} {a : Option (ConcurrentQueue.Label π α C)}
    (hu : Uses noexceptCtor q (some l) a q') (ho : Exclusive.Step out l out')
    (h : Sound noexceptCtor q) (hin : InUse q out) :
    ∃ x, a = some x ∧ ConcurrentQueue.Step noexceptCtor q x q' ∧ InUse q' out' := by
  have henq : Enqueues (.producer : Queue.Label α C) := trivial
  have hgives : ∀ {p t b}, (q.producers p).gives t = some b → b ∈ (q.producers p).owned :=
    fun hg => ((h.inv.producers _).gives_unused hg).1
  cases hu with
  | @requisition p x e b block hp hreq =>
    cases ho with
    | take hb =>
      have hnot : ∀ r, b ∉ (q.producers r).owned := fun r hr => hb ((hin b).mpr ⟨r, hr⟩)
      refine ⟨_, rfl, .produce hp henq (.requisition b block hreq (hnot p)) ?_, hin.insert rfl⟩
      rintro r b' (rfl | hb') hr
      · exact (hnot r hr).elim
      · exact h.owner p r b' hb' hr
  | @requisitionFailed p x e hp hreq =>
    cases ho with
    | refuse =>
      refine ⟨_, rfl, .produce hp henq (.requisitionFailed hreq) fun r => h.owner p r, hin.same ?_⟩
      intro r
      rcases eq_or_ne r p with rfl | hne
      · simp [ConcurrentQueue.State.setProducer, Queue.State.toProducer]
      · simp [ConcurrentQueue.State.setProducer, Function.update_of_ne hne]
  | @giveUp p b u hp hg hs =>
    cases ho with
    | give =>
      have howned := owned_giveUp hg hs
      refine ⟨_, rfl, .produce hp henq hs ?_, hin.remove h.owner (hgives hg) howned⟩
      intro r b' hb'
      rw [howned] at hb'
      exact h.owner p r b' hb'.1
  | @recycle c p b u hc hg hs =>
    cases ho with
    | give =>
      exact ⟨_, rfl, .dequeue hc hs, hin.remove h.owner (hgives hg) (owned_recycle hg hs)⟩

omit [DecidableEq π] [DecidableEq β] [DecidableEq C] in
theorem inUse_initial (h : ConcurrentQueue.Initial q) : InUse q (∅ : Set β) := by
  intro b
  have hnone : ∀ p, (q.producers p).owned = ∅ := by
    intro p
    obtain ⟨blocks, entries, junk, hq | hq⟩ := h.2.2.1 p <;> rw [hq]
  simp [hnone]

theorem steps_together {as : List (ConcurrentQueue.Label π α C)}
    (h₀ : ConcurrentQueue.Initial q₀)
    (h : WeakRun (Client.Step (NearUses noexceptCtor) Exclusive.Object) (q₀, (∅ : Set β)) as
      (q, out)) :
    Run (NearStep noexceptCtor) q₀ as q ∧ Sound noexceptCtor q ∧ InUse q out := by
  refine h.invariant (I := fun as x => Run (NearStep noexceptCtor) q₀ as x.1 ∧
    Sound noexceptCtor x.1 ∧ InUse x.1 x.2) ?_
    ⟨.refl, ConcurrentQueue.sound_initial h₀, inUse_initial h₀⟩
  rintro as x a y hs ⟨hrun, hsound, hin⟩
  cases hs with
  | own hk =>
    obtain ⟨hn, hu⟩ := hk
    obtain ⟨l, rfl, hstep, hin⟩ := uses_quiet hu hsound hin
    exact ⟨hrun.snoc ⟨hn, hstep⟩, ConcurrentQueue.sound_step hstep hn hsound, hin⟩
  | sync hk ho =>
    obtain ⟨hn, hu⟩ := hk
    obtain ⟨l, hl, ho⟩ := ho
    cases hl
    obtain ⟨l, rfl, hstep, hin⟩ := uses_pool hu ho hsound hin
    exact ⟨hrun.snoc ⟨hn, hstep⟩, ConcurrentQueue.sound_step hstep hn hsound, hin⟩
  | object ho =>
    obtain ⟨l, hl, -⟩ := ho
    cases hl

/-- Over the block pool the queue is as over a pool that works at one stroke. -/
theorem sound_over_pool [Fintype π] [Fintype C] {s₀ s : BlockPool.State β (Thread π C)}
    {as : List (ConcurrentQueue.Label π α C)} (hq : ConcurrentQueue.Initial q₀)
    (hs : BlockPool.Initial s₀) (hT : Fintype.card (Thread π C) < 2 ^ 31 - 1)
    (hsize : s₀.initialBlockPoolSize.toNat + Fintype.card (Thread π C) < 2 ^ 64)
    (h : WeakRun (Client.Step (NearUses noexceptCtor) BlockPool.Step) (q₀, s₀) as (q, s)) :
    Run (NearStep noexceptCtor) q₀ as q ∧ Sound noexceptCtor q ∧
      InUse q (BlockPool.out s.place) := by
  obtain ⟨ls, hcalls, hpool⟩ := Client.calls_of_weakRun h
  have hout := Exclusive.weakRun_of_run (BlockPool.inv_exclusive hs hT hsize hpool).2
  exact steps_together hq (Client.weakRun_of_calls hcalls hout)

/-- The queue over the block pool, one access to shared memory at a time, is the queue whose
`requisition_block` gives it what it asks for; and a block that goes back to the pool is in use. -/
theorem queue_over_pool [Fintype π] [Fintype C] {s₀ s : BlockPool.State β (Thread π C)}
    {as : List (ConcurrentQueue.Label π α C)} (hq : ConcurrentQueue.Initial q₀)
    (hs : BlockPool.Initial s₀) (hT : Fintype.card (Thread π C) < 2 ^ 31 - 1)
    (hsize : s₀.initialBlockPoolSize.toNat + Fintype.card (Thread π C) < 2 ^ 64)
    (h : WeakRun (Client.Step (NearUses noexceptCtor) BlockPool.Step) (q₀, s₀) as (q, s)) :
    Run (NearStep noexceptCtor) q₀ as q ∧
      (∀ b, s.place b = .out ↔ ∃ p, b ∈ (q.producers p).owned) ∧
      ∀ p t b, (q.producers p).gives t = some b → s.place b = .out := by
  obtain ⟨hrun, hsound, hin⟩ := sound_over_pool hq hs hT hsize h
  refine ⟨hrun, hin, ?_⟩
  intro p t b hg
  exact (hin b).mpr ⟨p, ((hsound.inv.producers p).gives_unused hg).1⟩

/-! ### Nothing is stuck -/

/-- What a thread gives back is in use. -/
def Allowed (s : BlockPool.State β (Thread π C)) :
    Option (Exclusive.Label (Thread π C) β) → Prop
  | some (.give _ b) => s.place b = .out
  | some (.take _ _) | some (.refuse _) | none => True

/-- The queue over the pool is in order: every thread can take its next step, in the pool and
outside, and gives back only what is in use; the assertions hold; and every block has one owner. -/
structure InOrder (noexceptCtor : Bool) (q : ConcurrentQueue.State π α β C)
    (s : BlockPool.State β (Thread π C)) : Prop where
  consumer : ∀ c, ∃ l a q', ConcurrentQueue.Label.By c a ∧ Uses noexceptCtor q l (some a) q' ∧
    Allowed s l
  add : ∀ p, q.listing p ≠ .listed →
    ∃ l q', Uses noexceptCtor q l (some (.add p)) q' ∧ Allowed s l
  producer : ∀ p, q.listing p = .listed → (q.producers p).producer ≠ .idle →
    ∃ l a q', Uses noexceptCtor q l (some (.producer p a)) q' ∧ Allowed s l
  pool : ∀ t, ∃ l s', BlockPool.Step s l s' ∧ s'.pc t ≠ s.pc t
  safe : BlockPool.Safe s
  asserts : ∀ p, Queue.Asserts (q.producers p)
  owner : ∀ p r b, b ∈ (q.producers p).owned → b ∈ (q.producers r).owned → r = p

/-- An initial pool of one block. -/
def freshPool : BlockPool.State Unit (Thread Unit Unit) where
  initialBlockPool _ := ()
  initialBlockPoolSize := 1
  initialBlockPoolIndex := 0
  freeListHead := none
  freeListRefs _ := 0
  freeListNext _ := none
  dynamicallyAllocated _ := false
  pc _ := .idle
  place _ := .pooled

theorem freshPool_initial : BlockPool.Initial freshPool := by
  refine ⟨?_, rfl, rfl, fun _ => rfl, fun _ _ => ⟨rfl, rfl, rfl, rfl⟩, ?_⟩
  · intro i j hi hj _
    rw [UInt64.lt_iff_toNat_lt, show freshPool.initialBlockPoolSize.toNat = 1 from rfl] at hi hj
    exact UInt64.toNat_inj.mp (by omega)
  · intro v _
    exact ⟨0, by decide, rfl⟩

omit [DecidableEq π] [DecidableEq β] [DecidableEq C] in
theorem near_of_idle (h : ∀ p c, (q.producers p).history.tickets.phase c = .idle) : Near q := by
  intro p
  refine ⟨?_, ?_⟩
  · intro c n k hc
    rw [h] at hc
    cases hc
  · intro c i hc
    rw [h] at hc
    cases hc

/-- The producer is listed and gets a block from the pool. -/
theorem first_block : ∃ x, Run
    (Client.Step (NearUses (α := ℕ) true) BlockPool.Step) (ConcurrentQueue.fresh, freshPool)
      [some (.add ()), some (.add ()), some (.producer () (.call 7)), some (.producer () .producer),
        some (.producer () .producer), some (.producer () .producer),
        some (.producer () .producer), none, none, none, some (.producer () .producer)] x ∧
    x.2.place () = .out := by
  have hn : ∀ q : ConcurrentQueue.State Unit ℕ Unit Unit,
      (∀ p c, (q.producers p).history.tickets.phase c = .idle) → Near q := fun _ => near_of_idle
  apply Run.exists_stepL (.own ⟨hn _ fun _ _ => rfl, .other (.create rfl) (by simp) (by simp)⟩)
  apply Run.exists_stepL (.own ⟨hn _ fun _ _ => rfl, .other (.link rfl rfl) (by simp) (by simp)⟩)
  apply Run.exists_stepL (.own ⟨hn _ fun _ _ => rfl,
    .produce rfl trivial (.call 7 rfl) (by rintro x e ⟨⟩) rfl⟩)
  apply Run.exists_stepL (.own ⟨hn _ fun _ _ => rfl,
    .produce rfl trivial (.boundary (x := 7) rfl) (by rintro x e ⟨⟩) rfl⟩)
  apply Run.exists_stepL (.own ⟨hn _ fun _ _ => rfl,
    .produce rfl trivial (.insert (x := 7) rfl rfl rfl) (by rintro x e ⟨⟩) rfl⟩)
  apply Run.exists_stepL (.own ⟨hn _ fun _ _ => rfl,
    .produce rfl trivial (.key (x := 7) rfl) (by rintro x e ⟨⟩) rfl⟩)
  apply Run.exists_stepL (.own ⟨hn _ fun _ _ => rfl,
    .produce rfl trivial (.tail (x := 7) rfl) (by rintro x e ⟨⟩) rfl⟩)
  apply Run.exists_stepL (.object (.requisition (t := .inl ()) rfl))
  apply Run.exists_stepL (.object (.pool (t := .inl ()) rfl))
  apply Run.exists_stepL (.object (.poolTaken (t := .inl ()) rfl (by decide)))
  apply Run.exists_stepL (.sync ⟨hn _ fun _ _ => rfl,
    .requisition (x := 7) () ⟨fun _ => none, 0⟩ rfl rfl⟩ (.take (t := Sum.inl ()) (v := ()) rfl))
  exact ⟨_, .refl, rfl⟩

theorem queue_over_pool_first : ∃ (q : ConcurrentQueue.State Unit ℕ Unit Unit)
    (s : BlockPool.State Unit (Thread Unit Unit)), s.place () = .out ∧
      ∃ p, () ∈ (q.producers p).owned := by
  obtain ⟨⟨q, s⟩, hrun, hout⟩ := first_block
  have h := queue_over_pool ConcurrentQueue.fresh_initial freshPool_initial (by decide) (by decide)
    ⟨_, hrun, rfl⟩
  exact ⟨q, s, hout, (h.2.1 ()).mp hout⟩

/-! ### Two producers -/

end NodesDetector.Allocation
