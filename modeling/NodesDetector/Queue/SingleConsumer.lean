import NodesDetector.Queue.Linearize
import NodesDetector.Queue.ProducerList

/-! With a single consumer `try_dequeue` fails only when the whole queue was empty at a moment of
the call, and never needs its second loop. -/
namespace NodesDetector.ConcurrentQueue

open LinkedList (Chain)
open Queue (Index circularLessThan)

variable {π α β C : Type}

/-! ### One producer -/

/-- An element stands behind the head. -/
def Waiting (q : Queue.State α β C) : Prop :=
  q.history.tickets.claims < q.history.enqueued.length

/-- `tail` was the tail at some time since the last claim. -/
def TailRead (q : Queue.State α β C) (tail : Index) (n : ℕ) : Prop :=
  tail = .ofNat n ∧ q.history.tickets.claims ≤ n ∧ n ≤ q.history.enqueued.length

/-- The consumer's `dequeue` will not fail. -/
def Succeeds (q : Queue.State α β C) : Queue.ConsumerPc α β → Prop
  | .idle | .start | .optimistic _ | .counted _ _ => Waiting q
  | .tailRead tail | .overcommitRead tail _ =>
    ∃ n, TailRead q tail n ∧ q.history.tickets.claims < n
  | .refused | .done none => False
  | .granted | .index _ | .header _ _ | .tail _ _ _ | .entry _ _ | .block _ _ _ | .moved _ _ _ _
  | .destroyed _ _ _ _ | .emptied _ _ _ _ | .recycle _ _ _ | .done (some _) => True

/-- What the locals of the first loop say. -/
def Scored (producers : π → Queue.State α β C) (n : ℕ) (best : Option π) (bestSize : Index) :
    Prop :=
  (n = 0 → best = none ∧ bestSize = 0) ∧ (0 < n → ∃ p, best = some p ∧ Waiting (producers p))

/-- Where a single consumer can be. -/
def Fits (producers : π → Queue.State α β C) (c : C) : Pc π α → Prop
  | .idle | .load | .done _ => True
  | .scan _ n best bestSize => Scored producers n best bestSize
  | .size p tail n best bestSize =>
    Scored producers n best bestSize ∧ ∃ m, TailRead (producers p) tail m
  | .best p => Succeeds (producers p) ((producers p).consumer c)
  | .reload _ | .loop _ _ | .other _ _ => False

def Pc.InSecondLoop : Pc π α → Prop
  | .reload _ | .loop _ _ | .other _ _ => True
  | .idle | .load | .scan _ _ _ _ | .size _ _ _ _ _ | .best _ | .done _ => False

/-- Producers that did not lose an element. -/
def Grown (producers producers' : π → Queue.State α β C) : Prop :=
  ∀ p, (producers' p).history.tickets.claims = (producers p).history.tickets.claims ∧
    (producers p).history.enqueued.length ≤ (producers' p).history.enqueued.length

/-- The counters of every producer are exact. -/
def Solo (s : State π α β C) : Prop := ∀ p, Tickets.Solo (s.producers p).history.tickets

variable {q q' : Queue.State α β C} {tail : Index} {n : ℕ} {pc : Queue.ConsumerPc α β}

theorem Waiting.mono (h : Waiting q) (hc : q'.history.tickets.claims = q.history.tickets.claims)
    (he : q.history.enqueued.length ≤ q'.history.enqueued.length) : Waiting q' := by
  rw [Waiting, hc]
  exact h.trans_le he

theorem TailRead.mono (h : TailRead q tail n)
    (hc : q'.history.tickets.claims = q.history.tickets.claims)
    (he : q.history.enqueued.length ≤ q'.history.enqueued.length) : TailRead q' tail n := by
  obtain ⟨ht, hle, hn⟩ := h
  exact ⟨ht, hc.trans_le hle, hn.trans he⟩

theorem Succeeds.mono (h : Succeeds q pc)
    (hc : q'.history.tickets.claims = q.history.tickets.claims)
    (he : q.history.enqueued.length ≤ q'.history.enqueued.length) : Succeeds q' pc := by
  cases pc with
  | idle | start | optimistic | counted => exact Waiting.mono h hc he
  | tailRead | overcommitRead =>
    obtain ⟨n, hn, hlt⟩ := h
    exact ⟨n, hn.mono hc he, hc ▸ hlt⟩
  | refused => exact h.elim
  | done result =>
    cases result with
    | none => exact h.elim
    | some x => trivial
  | _ => trivial

variable [DecidableEq β] [DecidableEq C] {noexceptCtor : Bool} {a : Queue.Label α C} {c : C}

theorem enqueued_mono (hs : Queue.Step noexceptCtor q a q') :
    q.history.enqueued.length ≤ q'.history.enqueued.length := by
  cases hs with
  | publish => exact (q.history.length_publish _).ge.trans' (Nat.le_succ _)
  | setEmpty | setEmptyLast | unlink => simp
  | _ => exact le_rfl

theorem claims_eq (hs : Queue.Step noexceptCtor q a q') (ha : ∀ c, a ≠ .claim c) :
    q'.history.tickets.claims = q.history.tickets.claims := by
  cases hs with
  | claim => exact (ha _ rfl).elim
  | readOvercommit | hopeless | count | grant | refuse | giveBack | ret =>
    simp [Queue.State.withTickets, Queue.State.toConsumer]
  | setEmpty | setEmptyLast | unlink => simp
  | _ => rfl

omit [DecidableEq β] [DecidableEq C] in
/-- The first check: with nobody else around the two counters differ by the claims. -/
theorem not_hopeless (h : Queue.Inv noexceptCtor q) (hsolo : Tickets.Solo q.history.tickets)
    {t o : Index} (hc : q.consumer c = .overcommitRead t o)
    (hp : Succeeds q (.overcommitRead t o)) :
    circularLessThan (q.dequeueOptimisticCount - o) t = true := by
  obtain ⟨m, hph, rfl⟩ := h.counters.of_pc hc
  obtain ⟨rfl, htickets⟩ : Tickets.Exact q.history.tickets (.read m) := hph ▸ hsolo c
  obtain ⟨n, ⟨rfl, -, hn⟩, hlt⟩ := hp
  have hnear := h.room.near
  rw [h.counters.optimisticCount, Circular.ofNat_sub (by omega), htickets, Nat.add_sub_cancel,
    Queue.circularLessThan_ofNat (by omega) (by omega)]
  exact hlt

omit [DecidableEq β] [DecidableEq C] in
/-- The second check. -/
theorem not_refused (h : Queue.Inv noexceptCtor q) (hsolo : Tickets.Solo q.history.tickets)
    {o m : Index} (hc : q.consumer c = .counted o m) (hp : Waiting q) :
    circularLessThan (m - o) q.tailIndex = true := by
  obtain ⟨n, k, hph, rfl, rfl⟩ := h.counters.of_pc hc
  obtain ⟨rfl, rfl, -⟩ : Tickets.Exact q.history.tickets (.ticket n k) := hph ▸ hsolo c
  have hnear := h.room.near
  rw [Waiting] at hp
  rw [h.counters.tailIndex, Circular.ofNat_sub (by omega), Nat.add_sub_cancel,
    Queue.circularLessThan_ofNat (by omega) (by omega)]
  exact hp

/-- An element that is there is not missed. -/
theorem succeeds_step [Subsingleton C] (hs : Queue.Step noexceptCtor q a q')
    (h : Queue.Inv noexceptCtor q) (hsolo : Tickets.Solo q.history.tickets)
    (hret : ∀ r, a ≠ .ret c r) (hp : Succeeds q (q.consumer c)) :
    Succeeds q' (q'.consumer c) := by
  have hmono : ∀ {pc}, (∀ c, a ≠ .claim c) → Succeeds q pc → Succeeds q' pc :=
    fun hno hpc => hpc.mono (claims_eq hs hno) (enqueued_mono hs)
  have hmove : ∀ {pc}, q'.consumer = Function.update q.consumer c pc → (∀ c, a ≠ .claim c) →
      Succeeds q pc → Succeeds q' (q'.consumer c) := by
    intro pc hq hno hpc
    rw [hq, Function.update_self]
    exact hmono hno hpc
  cases hs with
  | call | boundary | insert | insertNull | key | growFailed | grow | grown | tail | requisition
  | requisitionFailed | rewind | nullify | giveUp | link | fill | fillThrows | linkFilled
  | construct | constructThrows | publish => exact hmono (by simp) hp
  | @ret c' r => exact (hret r (by rw [Subsingleton.elim c' c])).elim
  | @start c' hc | @readOvercommit c' t hc | @count c' o hc =>
    obtain rfl := Subsingleton.elim c' c
    rw [hc] at hp
    exact hmove rfl (by simp) hp
  | @readTail c' hc =>
    obtain rfl := Subsingleton.elim c' c
    rw [hc] at hp
    exact hmove rfl (by simp) ⟨_, ⟨h.counters.tailIndex, hp.le, le_rfl⟩, hp⟩
  | @optimistic c' t o hc =>
    obtain rfl := Subsingleton.elim c' c
    rw [hc] at hp
    obtain ⟨n, ⟨-, -, hn⟩, hlt⟩ := hp
    exact hmove rfl (by simp) (hlt.trans_le hn)
  | @hopeless c' t o hc hl =>
    obtain rfl := Subsingleton.elim c' c
    rw [hc] at hp
    exact (hl (not_hopeless h hsolo hc hp)).elim
  | @refuse c' o m hc hl =>
    obtain rfl := Subsingleton.elim c' c
    rw [hc] at hp
    exact (hl (not_refused h hsolo hc hp)).elim
  | @giveBack c' hc =>
    obtain rfl := Subsingleton.elim c' c
    rw [hc] at hp
    exact hp.elim
  | @claim c' =>
    obtain rfl := Subsingleton.elim c' c
    simp [Queue.State.toConsumer, Queue.State.withTickets, Succeeds]
  | @grant c' | @readHeader c' | @readHeaderTail c' | @readKey c' | @readValue c' | @move c'
  | @destroy c' | @setEmpty c' | @setEmptyLast c' | @unlink c' | @recycle c' =>
    obtain rfl := Subsingleton.elim c' c
    exact hmove rfl (by simp) trivial

/-! ### The first loop -/

variable {producers producers' : π → Queue.State α β C} {best : Option π} {bestSize : Index}
  {p : π} {loc : Pc π α}

section

omit [DecidableEq β] [DecidableEq C]

theorem Scored.mono (h : Scored producers n best bestSize) (hg : Grown producers producers') :
    Scored producers' n best bestSize := by
  refine ⟨h.1, fun hn => ?_⟩
  obtain ⟨p, hp, hw⟩ := h.2 hn
  exact ⟨p, hp, hw.mono (hg p).1 (hg p).2⟩

theorem Fits.mono (h : Fits producers c loc) (hg : Grown producers producers')
    (hbest : ∀ p, loc = .best p → Succeeds (producers p) ((producers p).consumer c) →
      Succeeds (producers' p) ((producers' p).consumer c)) : Fits producers' c loc := by
  cases loc with
  | idle | load | done => trivial
  | scan => exact Scored.mono h hg
  | size p =>
    obtain ⟨hscored, m, hm⟩ := h
    exact ⟨hscored.mono hg, m, hm.mono (hg p).1 (hg p).2⟩
  | best p => exact hbest p rfl h
  | reload | loop | other => exact h.elim

theorem sizeApprox_pos {k m : ℕ} (hk : k ≤ m) (hm : m < k + 2 ^ 63) :
    sizeApprox (.ofNat m) (.ofNat k) > 0 ↔ k < m := by
  have hiff := Queue.circularLessThan_ofNat (m := k) (n := m) (by omega) (by omega)
  by_cases hlt : k < m
  · rw [sizeApprox, if_pos (hiff.mpr hlt), Circular.ofNat_sub hk]
    simp only [gt_iff_lt, UInt64.lt_iff_toNat_lt, UInt64.toNat_ofNat', UInt64.toNat_zero, hlt,
      iff_true]
    rw [Nat.mod_eq_of_lt (by omega)]
    omega
  · rw [sizeApprox, if_neg (mt hiff.mp hlt)]
    simp [hlt]

/-- The size of a producer is positive just when something was there. -/
theorem size_pos (h : Queue.Inv noexceptCtor q) (ht : TailRead q tail n) :
    sizeApprox tail q.headIndex > 0 ↔ q.history.tickets.claims < n := by
  obtain ⟨rfl, hle, hn⟩ := ht
  have hnear := h.room.near
  rw [h.counters.headIndex]
  exact sizeApprox_pos hle (by omega)

/-- The loop goes on with locals that are right. -/
theorem Scored.score (h : Scored producers n best bestSize)
    (hi : Queue.Inv noexceptCtor (producers p)) {m : ℕ} (ht : TailRead (producers p) tail m)
    (next : Option π) :
    Fits producers c (score p next (sizeApprox tail (producers p).headIndex) n best bestSize) := by
  have hsize := size_pos hi ht
  obtain ⟨-, -, hm⟩ := ht
  rw [ConcurrentQueue.score]
  split_ifs with hpos hbest
  · exact ⟨by simp, fun _ => ⟨p, rfl, (hsize.mp hpos).trans_le hm⟩⟩
  · refine ⟨by simp, fun _ => ?_⟩
    rcases Nat.eq_zero_or_pos n with rfl | hn
    · obtain ⟨-, rfl⟩ := h.1 rfl
      exact (hbest hpos).elim
    · exact h.2 hn
  · exact h

end

/-! ### A single consumer -/

variable [DecidableEq π] {s t : State π α β C} {a : Label π α C}

theorem grown_step (hs : Step noexceptCtor s a t) (ha : ∀ c, a ≠ .claim c) :
    Grown s.producers t.producers := by
  intro p
  rcases producer_step hs p with he | ⟨b, hb, hno⟩
  · rw [he]
    exact ⟨rfl, le_rfl⟩
  · exact ⟨claims_eq hb (hno ha), enqueued_mono hb⟩

variable [Subsingleton C]

theorem solo_step (hs : Step noexceptCtor s a t) (h : Solo s) : Solo t := by
  intro p
  rcases producer_step hs p with he | ⟨b, hb, -⟩
  · rw [he]
    exact h p
  · exact Queue.solo_step hb (h p)

omit [DecidableEq π] [DecidableEq β] [DecidableEq C] [Subsingleton C] in
theorem near_of_solo (hi : Inv noexceptCtor s) (h : Solo s) : Near s :=
  fun p => Queue.near_of_solo (hi.producers p) (h p)

/-- What is known of the consumer stays known. -/
theorem fits_step (hs : Step noexceptCtor s a t) (hi : Inv noexceptCtor s) (hsolo : Solo s)
    (h : Fits s.producers c (s.consumer c)) : Fits t.producers c (t.consumer c) := by
  cases hs with
  | create | link | retry => exact h
  | @produce p b u hp hb hs =>
    refine h.mono (grown_step (.produce hp hb hs ‹_›) (by simp)) ?_
    intro q _ hq
    rcases eq_or_ne q p with rfl | hne
    · have hsucc := succeeds_step hs (hi.producers q) (hsolo q) (by rintro r rfl; exact hb) hq
      simpa [State.setProducer] using hsucc
    · simpa [State.setProducer, Function.update_of_ne hne] using hq
  | @start c' hc | @allEmpty c' best bestSize hc | @ret c' result hc =>
    obtain rfl := Subsingleton.elim c' c
    simp [State.toConsumer, Fits]
  | @load c' hc =>
    obtain rfl := Subsingleton.elim c' c
    simp [State.toConsumer, Fits, Scored]
  | @sizeTail c' p n best bestSize hc hn =>
    obtain rfl := Subsingleton.elim c' c
    rw [hc] at h
    have hcounters := (hi.producers p).counters
    have hle := hcounters.tickets.claims_le
    rw [hcounters.produced] at hle
    simp only [State.toConsumer, Function.update_self]
    exact ⟨h, _, hcounters.tailIndex, hle, le_rfl⟩
  | @sizeHead c' p tail n best bestSize hc =>
    obtain rfl := Subsingleton.elim c' c
    rw [hc] at h
    obtain ⟨hscored, m, hm⟩ := h
    simp only [State.toConsumer, Function.update_self]
    exact hscored.score (hi.producers p) hm _
  | @callBest c' ptr n p bestSize u hc hend hpos hs =>
    obtain rfl := Subsingleton.elim c' c
    rw [hc] at h
    obtain ⟨p', hp', hw⟩ := h.2 hpos
    obtain rfl := Option.some.inj hp'
    have hidle := hi.outside p c' (by simp [hc, Pc.inside])
    have hsucc := succeeds_step (c := c') hs (hi.producers p) (hsolo p) (by simp)
      (by rw [hidle]; exact hw)
    simpa [State.setProducer, State.toConsumer, Fits] using hsucc
  | @dequeue c' p u hc hs | @claim c' p u hc hs =>
    obtain rfl := Subsingleton.elim c' c
    cases hpc : s.consumer c' with
    | best p' =>
      rw [hpc] at hc h
      obtain rfl := Option.some.inj hc
      have hsucc := succeeds_step hs (hi.producers p') (hsolo p') (by simp) h
      simpa [State.setProducer, hpc, Fits] using hsucc
    | other =>
      rw [hpc] at h
      exact h.elim
    | idle | load | scan | size | reload | loop | done => simp [hpc, Pc.inside] at hc
  | @success c' p x u hc hs =>
    obtain rfl := Subsingleton.elim c' c
    simp [State.setProducer, State.toConsumer, Fits]
  | @bestFailed c' p u hc hs =>
    obtain rfl := Subsingleton.elim c' c
    rw [hc] at h
    cases hs with
    | ret hdone =>
      simp only [Fits, hdone] at h
      exact h.elim
  | @reload c' best hc | @skip c' best hc | @callOther c' p best u hc | @otherFailed c' p best u hc
  | @allTried c' best hc =>
    obtain rfl := Subsingleton.elim c' c
    rw [hc] at h
    exact h.elim

/-! ### What is ahead -/

/-- Some producer from `ptr` on has an element. -/
def Ahead (s : State π α β C) (ptr : Option π) : Prop :=
  ∃ l, Chain s.next ptr l ∧ (∀ p ∈ l, s.listing p = .listed) ∧ ∃ p ∈ l, Waiting (s.producers p)

section

omit [DecidableEq π] [DecidableEq β] [DecidableEq C] [Subsingleton C]

/-- The producer at `ptr` has an element, or one behind it. -/
theorem Ahead.cases {p : π} (h : Ahead s (some p)) :
    s.listing p = .listed ∧ (Waiting (s.producers p) ∨ Ahead s (s.next p)) := by
  obtain ⟨l, hc, hl, q, hq, hw⟩ := h
  cases l with
  | nil => cases hq
  | cons p' l =>
    obtain ⟨he, hc⟩ := hc
    obtain rfl := Option.some.inj he
    refine ⟨hl p List.mem_cons_self, ?_⟩
    rcases List.mem_cons.mp hq with rfl | hq
    · exact .inl hw
    · exact .inr ⟨l, hc, fun r hr => hl r (List.mem_cons_of_mem _ hr), q, hq, hw⟩

theorem not_ahead_none : ¬ Ahead s none := by
  rintro ⟨l, hc, -, q, hq, -⟩
  cases l with
  | nil => cases hq
  | cons p l => cases hc.1

/-- Whoever has an element is found from the start of the list. -/
theorem Linked.ahead (h : Linked s) {p : π} (hw : Waiting (s.producers p)) :
    Ahead s s.producerListTail := by
  obtain ⟨l, hc, -, hl⟩ := h.chain
  have hp : s.listing p = .listed := by
    by_contra hno
    rw [Waiting, h.unused p hno] at hw
    exact Nat.not_lt_zero _ hw
  exact ⟨l, hc, fun q hq => (hl q).mp hq, p, (hl p).mpr hp, hw⟩

end

omit [Subsingleton C] in
theorem Ahead.step {ptr : Option π} (h : Ahead s ptr) (hs : Step noexceptCtor s a t)
    (ha : ∀ c, a ≠ .claim c) : Ahead t ptr := by
  obtain ⟨l, hc, hl, p, hp, hw⟩ := h
  have hg := grown_step hs ha p
  exact ⟨l, hc.congr fun q hq => (listed_step hs (hl q hq)).2,
    fun q hq => (listed_step hs (hl q hq)).1, p, hp, hw.mono hg.1 hg.2⟩

/-! ### What was there at the start is found -/

/-- While the consumer has not seen an element, there is one before it. -/
def Hopeful (s : State π α β C) : Pc π α → Prop
  | .scan ptr n _ _ => n = 0 → Ahead s ptr
  | .size p tail n _ _ => n = 0 → s.listing p = .listed ∧
    ((∃ m, TailRead (s.producers p) tail m ∧ (s.producers p).history.tickets.claims < m) ∨
      Ahead s (s.next p))
  | _ => True

omit [Subsingleton C] in
theorem Hopeful.step {loc : Pc π α} (h : Hopeful s loc) (hs : Step noexceptCtor s a t)
    (ha : ∀ c, a ≠ .claim c) : Hopeful t loc := by
  cases loc with
  | scan ptr n best bestSize => exact fun hn => (h hn).step hs ha
  | size p tail n best bestSize =>
    intro hn
    obtain ⟨hp, hor⟩ := h hn
    obtain ⟨hp', hnext⟩ := listed_step hs hp
    have hg := grown_step hs ha p
    refine ⟨hp', hor.imp ?_ ?_⟩
    · rintro ⟨m, hm, hlt⟩
      exact ⟨m, hm.mono hg.1 hg.2, hg.1.trans_lt hlt⟩
    · intro hahead
      rw [hnext]
      exact hahead.step hs ha
  | _ => trivial

theorem hopeful_step (hs : Step noexceptCtor s a t) (hi : Inv noexceptCtor s)
    (hload : s.consumer c ≠ .load) (h : Hopeful s (s.consumer c)) :
    Hopeful t (t.consumer c) := by
  cases hs' : hs with
  | create | link | retry | produce => exact h.step hs (by simp)
  | @start c' | @allEmpty c' | @callBest c' | @success c' | @bestFailed c' | @reload c'
  | @skip c' | @callOther c' | @otherFailed c' | @allTried c' | @ret c' =>
    obtain rfl := Subsingleton.elim c' c
    simp [State.toConsumer, State.setProducer, Hopeful]
  | @load c' hc =>
    obtain rfl := Subsingleton.elim c' c
    exact (hload hc).elim
  | @sizeTail c' p n best bestSize hc hn =>
    obtain rfl := Subsingleton.elim c' c
    rw [hc] at h
    have hcounters := (hi.producers p).counters
    simp only [State.toConsumer, Function.update_self]
    intro hzero
    obtain ⟨hp, hor⟩ := (h hzero).cases
    refine ⟨hp, hor.imp (fun hw => ?_) fun hahead => hahead⟩
    exact ⟨_, ⟨hcounters.tailIndex, Nat.le_of_lt hw, le_rfl⟩, hw⟩
  | @sizeHead c' p tail n best bestSize hc =>
    obtain rfl := Subsingleton.elim c' c
    rw [hc] at h
    simp only [State.toConsumer, Function.update_self, score]
    split_ifs with hpos hbest
    · exact fun hzero => (Nat.succ_ne_zero n hzero).elim
    · exact fun hzero => (Nat.succ_ne_zero n hzero).elim
    · intro hzero
      obtain ⟨-, ⟨m, hm, hlt⟩ | hahead⟩ := h hzero
      · exact (hpos ((size_pos (hi.producers p) hm).mpr hlt)).elim
      · exact hahead
  | @dequeue c' p u hc | @claim c' p u hc =>
    obtain rfl := Subsingleton.elim c' c
    cases hpc : s.consumer c' with
    | best | other => simp [State.setProducer, hpc, Hopeful]
    | idle | load | scan | size | reload | loop | done => simp [hpc, Pc.inside] at hc

/-- The list that is loaded leads to an element. -/
theorem hopeful_of_load (hs : Step noexceptCtor s a t) (hload : s.consumer c = .load)
    (h : Ahead s s.producerListTail) : Hopeful t (t.consumer c) := by
  cases hs with
  | create | link | retry | produce => simp [State.list, State.setProducer, hload, Hopeful]
  | @load c' hc =>
    obtain rfl := Subsingleton.elim c' c
    simp only [State.toConsumer, Function.update_self]
    exact fun _ => h
  | @dequeue c' p u hc | @claim c' p u hc | @success c' p x u hc =>
    obtain rfl := Subsingleton.elim c' c
    simp [hload, Pc.inside] at hc
  | @start c' hc | @sizeTail c' p n best bestSize hc | @sizeHead c' p tail n best bestSize hc
  | @allEmpty c' best bestSize hc | @callBest c' ptr n p bestSize u hc | @bestFailed c' p u hc
  | @reload c' best hc | @skip c' best hc | @callOther c' p best u hc | @otherFailed c' p best u hc
  | @allTried c' best hc | @ret c' result hc =>
    obtain rfl := Subsingleton.elim c' c
    rw [hload] at hc
    cases hc

/-- Nothing is left to hope for once a call is decided. -/
theorem hopeful_of_not_quiet (hs : Step noexceptCtor s a t) (ha : ¬ a.Quiet) :
    Hopeful t (t.consumer c) := by
  cases hs with
  | @start c' | @allEmpty c' | @allTried c' | @ret c' =>
    obtain rfl := Subsingleton.elim c' c
    simp [State.toConsumer, Hopeful]
  | @claim c' p u hc =>
    obtain rfl := Subsingleton.elim c' c
    cases hpc : s.consumer c' with
    | best | other => simp [State.setProducer, hpc, Hopeful]
    | idle | load | scan | size | reload | loop | done => simp [hpc, Pc.inside] at hc
  | _ => exact (ha trivial).elim

/-- What a run from `r₀` amounts to. Where the consumer may still come to nothing, the atomic call
had its chance to find the queue empty. -/
structure Linearized (noexceptCtor : Bool) (r₀ : AtomicQueue.State π α C)
    (vs : List (AtomicQueue.Label π α C)) (s : State π α β C) : Prop where
  inv : Inv noexceptCtor s
  solo : Solo s
  linked : Linked s
  fits : ∀ c, Fits s.producers c (s.consumer c)
  sim : ∃ r, Transition.WeakRun (AtomicQueue.Step true) r₀ vs r ∧ Sim s s.status r
  hopeful : ∀ c, Hopeful s (s.consumer c) ∨ ∃ r,
    Transition.WeakRun (AtomicQueue.Step true) r₀ vs r ∧
      Sim s (Function.update s.status c (.holds none)) r

variable {r₀ : AtomicQueue.State π α C} {vs : List (AtomicQueue.Label π α C)}

omit [DecidableEq β] [DecidableEq C] [Subsingleton C] in
theorem line_eq_nil {line : List (π × α)} (h : Matches line s)
    (hw : ∀ p, ¬ Waiting (s.producers p)) : line = [] := by
  cases line with
  | nil => rfl
  | cons e line =>
    have hqueue : (s.producers e.1).fifo.queue = [] :=
      List.drop_eq_nil_of_le (Nat.le_of_not_lt (hw e.1))
    have hp := h e.1
    rw [ProducerQueue.ofProducer_cons_of_eq rfl, hqueue] at hp
    cases hp

omit [DecidableEq β] [Subsingleton C] in
/-- When the list is loaded there is an element in it, or the queue is empty. -/
theorem Linearized.load (h : Linearized noexceptCtor r₀ vs s) (hc : s.consumer c = .load) :
    Ahead s s.producerListTail ∨ ∃ r, Transition.WeakRun (AtomicQueue.Step true) r₀ vs r ∧
      Sim s (Function.update s.status c (.holds none)) r := by
  by_cases hw : ∃ p, Waiting (s.producers p)
  · obtain ⟨p, hw⟩ := hw
    exact .inl (h.linked.ahead hw)
  · obtain ⟨r, hr, hsim⟩ := h.sim
    have hempty : r.line = [] := line_eq_nil hsim.line fun p hp => hw ⟨p, hp⟩
    have hcall : r.call c = .called := by rw [hsim.call, State.status, hc, Pc.status]
    have hrun := hr.append (.silent (.miss hcall fun _ => hempty))
    rw [List.append_nil] at hrun
    refine .inr ⟨_, hrun, hsim.line, ?_⟩
    rw [← hsim.call]
    rfl

omit [Subsingleton C] in
/-- The call comes to nothing where the atomic one had found the queue empty. -/
theorem Linearized.miss (hs : Step noexceptCtor s (.miss c) t)
    (h : Linearized noexceptCtor r₀ vs s) :
    ∃ r, Transition.WeakRun (AtomicQueue.Step true) r₀ vs r ∧ Sim t t.status r := by
  have hfits := h.fits c
  have hhope := h.hopeful c
  have hmatches : ∀ {line}, Matches line s → Matches (line ++ []) t :=
    matches_step hs h.inv (by simp)
  cases hs with
  | @allEmpty c best bestSize hc =>
    rw [hc] at hhope
    rcases hhope with hhope | ⟨r, hr, hsim⟩
    · exact (not_ahead_none (hhope rfl)).elim
    · refine ⟨r, hr, (List.append_nil r.line) ▸ hmatches hsim.line, ?_⟩
      rw [hsim.call, status_toConsumer]
      rfl
  | allTried hc =>
    rw [hc] at hfits
    exact hfits.elim

theorem linearized_step (hs : Step noexceptCtor s a t) (h : Linearized noexceptCtor r₀ vs s) :
    Linearized noexceptCtor r₀ (vs ++ a.visible.toList) t := by
  have hfits : ∀ c, Fits t.producers c (t.consumer c) :=
    fun c => fits_step hs h.inv h.solo (h.fits c)
  refine ⟨inv_step hs (near_of_solo h.inv h.solo) h.inv, solo_step hs h.solo,
    linked_step hs h.linked, hfits, ?_, ?_⟩
  · by_cases hmiss : ∃ c, a = .miss c
    · obtain ⟨c, rfl⟩ := hmiss
      exact (List.append_nil vs).symm ▸ h.miss hs
    · obtain ⟨r, hr, hsim⟩ := h.sim
      obtain ⟨r', hr', hsim'⟩ := sim_step true hs h.inv
        (fun c hc => (hmiss ⟨c, hc⟩).elim) hsim
      exact ⟨r', hr.append hr', hsim'⟩
  · intro c
    by_cases ha : a.Quiet
    · rw [status_step hs h.inv ha]
      have hquiet : (∃ r, Transition.WeakRun (AtomicQueue.Step true) r₀ vs r ∧
            Sim s (Function.update s.status c (.holds none)) r) →
          ∃ r, Transition.WeakRun (AtomicQueue.Step true) r₀ (vs ++ a.visible.toList) r ∧
            Sim t (Function.update s.status c (.holds none)) r := by
        rintro ⟨r, hr, hsim⟩
        obtain ⟨r', hr', hsim'⟩ := sim_quiet true hs h.inv ha hsim
        exact ⟨r', hr.append hr', hsim'⟩
      by_cases hload : s.consumer c = .load
      · exact (h.load hload).imp (hopeful_of_load hs hload) hquiet
      · exact (h.hopeful c).imp (hopeful_step hs h.inv hload) hquiet
    · exact .inl (hopeful_of_not_quiet hs ha)

omit [DecidableEq β] [Subsingleton C] in
theorem linearized_initial (h : Initial s) :
    Linearized noexceptCtor AtomicQueue.State.initial [] s := by
  have hc := h.2.2.2
  refine ⟨inv_initial h, ?_, linked_initial h, ?_, ⟨_, .refl, sim_initial h⟩, ?_⟩
  · intro p
    obtain ⟨blocks, entries, junk, he | he⟩ := h.2.2.1 p
    all_goals
      rw [he]
      exact Tickets.solo_initial
  · intro c
    simp [hc, Fits]
  · intro c
    simp [hc, Hopeful]

variable {as : List (Label π α C)}

theorem linearized_run (hr : Transition.Run (Step noexceptCtor) s as t)
    (h : Linearized noexceptCtor r₀ vs s) : Linearized noexceptCtor r₀ (vs ++ visible as) t := by
  induction hr generalizing vs with
  | refl => exact (List.append_nil vs).symm ▸ h
  | @stepL s u t a as hs _ ih =>
    rw [visible, Fifo.filterMap_cons_toList, ← List.append_assoc]
    exact ih (linearized_step hs h)

/-- With a single consumer every run looks as if each `try_dequeue` had taken effect at one moment,
and had come to nothing only when the whole queue was empty. The second loop is never reached. -/
theorem single_consumer_atomic (hi : Initial s) (h : Transition.Run (Step noexceptCtor) s as t) :
    (∃ r, Transition.WeakRun (AtomicQueue.Step true) .initial (visible as) r ∧
      Sim t t.status r) ∧ ∀ c, ¬ (t.consumer c).InSecondLoop := by
  have hlin := linearized_run h (linearized_initial hi)
  refine ⟨hlin.sim, ?_⟩
  intro c hloop
  have hfits := hlin.fits c
  cases hc : t.consumer c with
  | reload | loop | other =>
    rw [hc] at hfits
    exact hfits
  | idle | load | scan | size | best | done =>
    rw [hc] at hloop
    exact hloop

theorem single_consumer_atomic_first : ∃ r : AtomicQueue.State Unit ℕ Unit,
    Transition.WeakRun (AtomicQueue.Step true) .initial
      [.push () 7, .start (), .ret () (some 7)] r := by
  obtain ⟨t, ht, u, hu, -⟩ := first_run
  obtain ⟨⟨r, hr, -⟩, -⟩ := single_consumer_atomic fresh_initial (ht.append hu)
  exact ⟨r, hr⟩

end NodesDetector.ConcurrentQueue
