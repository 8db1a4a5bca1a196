import NodesDetector.Queue.Counters
import NodesDetector.Queue.Entries

/-! What the producer and each consumer know about the block index while the others move. -/
namespace NodesDetector.Queue

variable {α β C : Type}

/-- The entry the producer has begun to fill. -/
def ProducerPc.pending : ProducerPc α β → Option ℕ
  | .tail _ e _ | .requisition _ e | .ready _ e _ | .filled _ e _ | .rewind e _ | .nullify e _ =>
    some e
  | _ => none

/-- The producer is where a block that was taken back may still be seen. -/
def ProducerPc.Keeps : ProducerPc α β → Prop
  | .grow _ | .grown _ | .requisition _ _ | .ready _ _ _ | .filled _ _ _ | .rewind _ _ => False
  | _ => True

/-- The block a consumer has looked up. -/
def ConsumerPc.found : ConsumerPc α β → Option β
  | .block _ _ x | .moved _ _ x _ | .destroyed _ _ x _ | .emptied _ _ x _ => some x
  | _ => none

/-- The consumer's block is still in the index. -/
def ConsumerPc.InBlock : ConsumerPc α β → Prop
  | .index _ | .header _ _ | .tail _ _ _ | .entry _ _ | .block _ _ _ | .moved _ _ _ _
  | .destroyed _ _ _ _ | .emptied _ _ _ _ => True
  | _ => False

/-- A block was inserted and taken back: a consumer may have seen it, its key stays. -/
structure Rewound (b : BlockIndex β) (w : History α β C) (header : BlockIndexHeader)
    (p : ProducerPc α β) : Prop where
  key : (b.entries (entryOf b w header (inserted b w))).key = .ofNat (32 * inserted b w)
  value : (b.entries (entryOf b w header (inserted b w))).value = none ∨
    ∃ e x, p = .nullify e x
  kept : p.Keeps

/-- A block was inserted for the next index and is not linked yet. -/
structure Inserted (b : BlockIndex β) (w : History α β C) (header : BlockIndexHeader) (e : ℕ) :
    Prop where
  count : inserted b w = w.enqueued.length / 32 + 1
  entry : e = entryOf b w header (w.enqueued.length / 32)
  key : (b.entries e).key = .ofNat (32 * (w.enqueued.length / 32))
  before : ∀ n, w.Live n → n < w.enqueued.length / 32
  old : ∀ h old, b.headers[h]? = some old → h ≠ b.current →
    w.count h ≤ w.enqueued.length / 32

/-- Where the producer is against the number of blocks inserted. -/
def ProducerOk (b : BlockIndex β) (w : History α β C) (header : BlockIndexHeader) (k : ℕ) :
    ProducerPc α β → Prop
  | .idle | .boundary _ | .insert _ | .giveUp _ => inserted b w = (w.enqueued.length + 31) / 32
  | .grow _ => inserted b w = (w.enqueued.length + 31) / 32 ∧ k + 1 ≤ 59
  | .grown _ => inserted b w = (w.enqueued.length + 31) / 32 ∧ NextFree b w k ∧
      (b.entries (entryOf b w header (inserted b w))).key = invalidBlockBase
  | .key _ e newTail => inserted b w = (w.enqueued.length + 31) / 32 ∧ NextFree b w k ∧
      e = entryOf b w header (inserted b w) ∧ newTail = header.newTail
  | .tail _ e newTail => inserted b w = (w.enqueued.length + 31) / 32 ∧ NextFree b w k ∧
      e = entryOf b w header (inserted b w) ∧ newTail = header.newTail ∧
      (b.entries e).key = .ofNat (32 * inserted b w)
  | .requisition _ e | .ready _ e _ | .filled _ e _ | .rewind e _ => Inserted b w header e
  | .nullify e _ => inserted b w = (w.enqueued.length + 31) / 32 ∧ NextFree b w k ∧
      e = entryOf b w header (inserted b w)
  | .construct _ | .publish _ => inserted b w = w.enqueued.length / 32 + 1

/-- Where a consumer that claimed index `i` is in its lookup. -/
def ConsumerOk (b : BlockIndex β) (w : History α β C) (header : BlockIndexHeader)
    (p : ProducerPc α β) : ConsumerPc α β → ℕ → Prop
  | .header _ h, i => ∃ old, b.headers[h]? = some old ∧ i / 32 < w.count h
  | .tail _ h t, i => ∃ old m, b.headers[h]? = some old ∧ i / 32 < w.count h ∧ i / 32 ≤ m ∧
      t = .ofNat ((m + w.offset h) % old.capacity.toNat) ∧
      (m < w.count h ∨ h = b.current ∧ m = inserted b w ∧ Rewound b w header p)
  | .entry _ e, i => e = entryOf b w header (i / 32)
  | .block _ e x, i | .moved _ e x _, i | .destroyed _ e x _, i | .emptied _ e x _, i =>
    e = entryOf b w header (i / 32) ∧ w.blockOf (i / 32) = some x
  | _, _ => True

structure Lookup (b : BlockIndex β) (w : History α β C) (p : ProducerPc α β)
    (consumer : C → ConsumerPc α β) (header : BlockIndexHeader) (k : ℕ) : Prop where
  entries : Entries b w header k
  producer : ProducerOk b w header k p
  dead : ∀ e ∈ header.index, (b.entries e).key ≠ invalidBlockBase →
    (b.entries e).value ≠ none → p.pending ≠ some e →
    ∃ n, w.Live n ∧ entryOf b w header n = e
  consumers : ∀ c i, w.tickets.phase c = .claimed i → ConsumerOk b w header p (consumer c) i

/-- The constructor could not allocate the index: nothing is ever enqueued. -/
structure NoIndex (s : State α β C) : Prop where
  headers : s.index.headers = []
  enqueued : s.history.enqueued = []
  producer : s.producer = .idle ∨ (∃ x, s.producer = .boundary x) ∨ ∃ x, s.producer = .insert x
  blockOf : ∀ n, s.history.blockOf n = none

variable {b b' : BlockIndex β} {w w' : History α β C} {header : BlockIndexHeader} {k e i m : ℕ}
  {p p' : ProducerPc α β} {pc : ConsumerPc α β} {consumer consumer' : C → ConsumerPc α β}

/-! ### The producer moves without touching the index -/

theorem Rewound.of_pc (h : Rewound b w header p) (hn : ∀ e x, p ≠ .nullify e x)
    (hk : p'.Keeps) : Rewound b w header p' :=
  ⟨h.key, .inl (h.value.resolve_right fun ⟨e, x, he⟩ => hn e x he), hk⟩

/-- What a consumer knows survives a change of the entries, but for a block taken back. -/
theorem ConsumerOk.of_pc (h : ConsumerOk b w header p pc i) (hh : b'.headers = b.headers)
    (hr : Rewound b w header p → Rewound b' w header p') : ConsumerOk b' w header p' pc i := by
  obtain ⟨_, _, _, _⟩ := b
  obtain ⟨_, _, _, _⟩ := b'
  subst hh
  cases pc with
  | tail j h' t =>
    obtain ⟨old, m, hold, hlt, hle, ht, hm⟩ := h
    refine ⟨old, m, hold, hlt, hle, ht, ?_⟩
    rcases hm with hm | ⟨hcur, hm, hrew⟩
    · exact .inl hm
    · exact .inr ⟨hcur, hm, hr hrew⟩
  | _ => exact h

/-- Only the producer's position changes. -/
theorem Lookup.of_pc (h : Lookup b w p consumer header k) (hp : ProducerOk b w header k p')
    (hpending : p.pending ≠ none → p'.pending = p.pending)
    (hr : Rewound b w header p → Rewound b w header p') :
    Lookup b w p' consumer header k := by
  refine ⟨h.entries, hp, ?_, fun c i hc => (h.consumers c i hc).of_pc rfl hr⟩
  intro e he hkey hvalue hne
  refine h.dead e he hkey hvalue ?_
  intro hpe
  exact hne ((hpending (by simp [hpe])).trans hpe)

/-- Outside the index a block that was taken back may stay seen. -/
theorem Lookup.of_pc_keeps (h : Lookup b w p consumer header k) (hp : ProducerOk b w header k p')
    (hpending : p.pending = none) (hk : p'.Keeps) : Lookup b w p' consumer header k := by
  refine h.of_pc hp (fun hne => (hne hpending).elim) fun hr => hr.of_pc ?_ hk
  rintro e x rfl
  cases hpending

/-- While a block is inserted and not linked, no block that was taken back can be seen. -/
theorem Lookup.of_pc_pending (h : Lookup b w p consumer header k) (hp : ProducerOk b w header k p')
    (hpending : p'.pending = p.pending) (hk : ¬ p.Keeps) : Lookup b w p' consumer header k :=
  h.of_pc hp (fun _ => hpending) fun hr => (hk hr.kept).elim

/-! ### The history of other parts changes -/

theorem ConsumerOk.congr (h : ConsumerOk b w header p pc i) (hb : w'.blockOf = w.blockOf)
    (hc : w'.count = w.count) (ho : w'.offset = w.offset) : ConsumerOk b w' header p pc i := by
  obtain ⟨_, _, _, _, _, _⟩ := w
  obtain ⟨_, _, _, _, _, _⟩ := w'
  subst hb hc ho
  cases pc with
  | tail j h' t =>
    obtain ⟨old, m, hold, hlt, hle, ht, hm⟩ := h
    refine ⟨old, m, hold, hlt, hle, ht, ?_⟩
    rcases hm with hm | ⟨hcur, hm, hrew⟩
    · exact .inl hm
    · exact .inr ⟨hcur, hm, hrew.key, hrew.value, hrew.kept⟩
  | _ => exact h

theorem ProducerOk.congr (h : ProducerOk b w header k p) (he : w'.enqueued = w.enqueued)
    (hb : w'.blockOf = w.blockOf) (hc : w'.count = w.count) (ho : w'.offset = w.offset) :
    ProducerOk b w' header k p := by
  obtain ⟨_, _, _, _, _, _⟩ := w
  obtain ⟨_, _, _, _, _, _⟩ := w'
  subst he hb hc ho
  cases p with
  | requisition | ready | filled | rewind => exact { h with }
  | _ => exact h

/-- A consumer moves; it may have used its ticket. -/
theorem Lookup.of_consumer (h : Lookup b w p consumer header k) (he : w'.enqueued = w.enqueued)
    (hb : w'.blockOf = w.blockOf) (hc : w'.count = w.count) (ho : w'.offset = w.offset)
    (hcons : ∀ c i, w'.tickets.phase c = .claimed i →
      w.tickets.phase c = .claimed i ∧ consumer' c = consumer c ∨
        ConsumerOk b w header p (consumer' c) i) :
    Lookup b w' p consumer' header k := by
  refine ⟨h.entries.congr hb hc ho, h.producer.congr he hb hc ho, ?_, ?_⟩
  · intro e he hkey hvalue hne
    obtain ⟨n, ⟨x, hx⟩, hn⟩ := h.dead e he hkey hvalue hne
    refine ⟨n, ⟨x, by rw [hb, hx]⟩, ?_⟩
    rw [entryOf, ho]
    exact hn
  · intro c i hp
    rcases hcons c i hp with ⟨hp', heq⟩ | hok
    · rw [heq]
      exact (h.consumers c i hp').congr hb hc ho
    · exact hok.congr hb hc ho

/-! ### The producer writes to the index -/

variable {x : α}

/-- The key of the next entry is stored. -/
theorem Lookup.setKey (h : Lookup b w p consumer header k) (hp : p.pending = none)
    (hcount : inserted b w = (w.enqueued.length + 31) / 32) (hfree : NextFree b w k) :
    Lookup (b.setKey (entryOf b w header (inserted b w)) (.ofNat (32 * inserted b w))) w
      (.tail x (entryOf b w header (inserted b w)) header.newTail) consumer header k := by
  refine ⟨h.entries.setKey hfree _, ⟨hcount, hfree, rfl, rfl, key_setKey _⟩, ?_, ?_⟩
  · intro e he hkey hvalue hne
    have hne' : e ≠ entryOf b w header (inserted b w) := by
      rintro rfl
      exact hne rfl
    rw [entries_setKey_of_ne hne'] at hkey hvalue
    exact h.dead e he hkey hvalue (by simp [hp])
  · intro c i hc
    refine (h.consumers c i hc).of_pc rfl fun hr => ⟨key_setKey _, ?_, trivial⟩
    left
    refine (value_setKey _ _).trans (hr.value.resolve_right ?_)
    rintro ⟨e, y, rfl⟩
    cases hp

/-- A rewound entry is cleared. -/
theorem Lookup.clearNext (h : Lookup b w p consumer header k)
    (hpend : ∀ e, p.pending = some e → e = entryOf b w header (inserted b w))
    (hfree : NextFree b w k) (hp : ProducerOk b w header k p')
    (hp' : p' = .idle ∨ ∃ y, p' = .giveUp y) :
    Lookup (b.setValue (entryOf b w header (inserted b w)) none) w p' consumer header k := by
  refine ⟨h.entries.clearNext hfree, ?_, ?_, ?_⟩
  · rcases hp' with rfl | ⟨y, rfl⟩ <;> exact hp
  · intro e he hkey hvalue hne
    rw [key_setValue] at hkey
    by_cases heq : e = entryOf b w header (inserted b w)
    · rw [heq, value_setValue] at hvalue
      exact (hvalue rfl).elim
    · rw [entries_setValue_of_ne heq] at hvalue
      exact h.dead e he hkey hvalue fun hpe => heq (hpend e hpe)
  · intro c i hc
    refine (h.consumers c i hc).of_pc rfl fun hr => ⟨?_, .inl (value_setValue _), ?_⟩
    · exact (key_setValue _ _).trans hr.key
    · rcases hp' with rfl | ⟨y, rfl⟩ <;> trivial

/-- Fewer live blocks: what the producer knows stays true. -/
theorem ProducerOk.unlink (h : ProducerOk b w header k p) (hh : b'.headers = b.headers)
    (hkeys : ∀ e, (b'.entries e).key = (b.entries e).key)
    (hlive : ∀ n, w'.Live n → w.Live n) (he : w'.enqueued = w.enqueued)
    (hc : w'.count = w.count) (ho : w'.offset = w.offset) : ProducerOk b' w' header k p := by
  obtain ⟨_, _, _, _⟩ := b
  obtain ⟨_, _, _, _⟩ := b'
  obtain ⟨_, _, _, _, _, _⟩ := w
  obtain ⟨_, _, _, _, _, _⟩ := w'
  subst hh he hc ho
  cases p with
  | grown x =>
    obtain ⟨hcount, hfree, hkey⟩ := h
    exact ⟨hcount, fun n hn => hfree n (hlive n hn), (hkeys _).trans hkey⟩
  | key x e newTail =>
    obtain ⟨hcount, hfree, he, ht⟩ := h
    exact ⟨hcount, fun n hn => hfree n (hlive n hn), he, ht⟩
  | tail x e newTail =>
    obtain ⟨hcount, hfree, he, ht, hkey⟩ := h
    exact ⟨hcount, fun n hn => hfree n (hlive n hn), he, ht, (hkeys _).trans hkey⟩
  | requisition | ready | filled | rewind =>
    exact { h with key := (hkeys _).trans h.key, before := fun n hn => h.before n (hlive n hn) }
  | nullify e x =>
    obtain ⟨hcount, hfree, he⟩ := h
    exact ⟨hcount, fun n hn => hfree n (hlive n hn), he⟩
  | idle | boundary | insert | grow | giveUp | construct | publish => exact h

/-- A consumer takes a finished block out of the index. -/
theorem Lookup.unlink (h : Lookup b w p consumer header k) (hn : w.Live m)
    (hcons : ∀ c i, w.tickets.phase c = .claimed i →
      consumer' c = consumer c ∧ ((consumer c).found ≠ none → i / 32 ≠ m) ∨
        ∃ j y z, consumer' c = .recycle j y z) :
    Lookup (b.setValue (entryOf b w header m) none)
      { w with blockOf := Function.update w.blockOf m none } p consumer' header k := by
  have hlive : ∀ n, History.Live { w with blockOf := Function.update w.blockOf m none } n →
      w.Live n := by
    rintro n ⟨y, hy⟩
    rcases eq_or_ne n m with rfl | hne
    · simp at hy
    · exact ⟨y, by simpa [Function.update_of_ne hne] using hy⟩
  refine ⟨h.entries.unlink hn, ?_, ?_, ?_⟩
  · exact h.producer.unlink rfl (fun e => key_setValue e none) hlive rfl rfl rfl
  · intro e he hkey hvalue hne
    rw [key_setValue] at hkey
    by_cases heq : e = entryOf b w header m
    · rw [heq, value_setValue] at hvalue
      exact (hvalue rfl).elim
    · rw [entries_setValue_of_ne heq] at hvalue
      obtain ⟨n, ⟨y, hy⟩, rfl⟩ := h.dead e he hkey hvalue hne
      have hnm : n ≠ m := by
        rintro rfl
        exact heq rfl
      exact ⟨n, ⟨y, by simpa [Function.update_of_ne hnm] using hy⟩, rfl⟩
  · intro c i hc
    rcases hcons c i hc with ⟨heq, hfound⟩ | ⟨j, y, z, heq⟩
    · rw [heq]
      have hok := h.consumers c i hc
      have hr : Rewound b w header p →
          Rewound (b.setValue (entryOf b w header m) none) w header p := by
        intro hr
        refine ⟨(key_setValue _ _).trans hr.key, ?_, hr.kept⟩
        rcases hr.value with hv | hv
        · left
          by_cases heq : entryOf b w header (inserted b w) = entryOf b w header m
          · exact (congrArg (fun e => ((b.setValue (entryOf b w header m) none).entries e).value)
              heq).trans (value_setValue _)
          · exact (congrArg _ (entries_setValue_of_ne heq none)).trans hv
        · exact .inr hv
      have hok' : ConsumerOk (b.setValue (entryOf b w header m) none) w header p (consumer c) i :=
        hok.of_pc rfl hr
      generalize consumer c = pc at hok' hfound
      cases pc with
      | tail j h' t =>
        obtain ⟨old, m', hold, hlt, hle, ht, hm⟩ := hok'
        refine ⟨old, m', hold, hlt, hle, ht, ?_⟩
        rcases hm with hm | ⟨hcur, hm, hrew⟩
        · exact .inl hm
        · exact .inr ⟨hcur, hm, hrew.key, hrew.value, hrew.kept⟩
      | block | moved | destroyed | emptied =>
        have hne : i / 32 ≠ m := hfound (by simp [ConsumerPc.found])
        exact ⟨hok'.1, by simpa [Function.update_of_ne hne] using hok'.2⟩
      | _ => exact hok'
    · rw [heq]
      trivial

/-- The last block inserted is linked. -/
theorem Lookup.link (h : Lookup b w p consumer header k) (hi : Inserted b w header e)
    (hpend : p.pending = some e) (hk : ¬ p.Keeps) (y : β)
    (hp : p' = .construct x ∨ p' = .publish x) :
    Lookup (b.setValue e (some y)) (w.link y) p' consumer header k := by
  obtain ⟨hcount, rfl, hkey, hbefore, hold⟩ := hi
  have hself : (w.link y).blockOf (w.enqueued.length / 32) = some y := by simp [History.link]
  have hother : ∀ n x, w.blockOf n = some x → (w.link y).blockOf n = some x := by
    intro n x hx
    have hne : n ≠ w.enqueued.length / 32 := (hbefore n ⟨x, hx⟩).ne
    simpa [History.link, Function.update_of_ne hne] using hx
  refine ⟨h.entries.link hcount hkey hbefore hold y, ?_, ?_, ?_⟩
  · rcases hp with rfl | rfl <;> exact hcount
  · intro e he hkey hvalue hne
    rw [key_setValue] at hkey
    by_cases heq : e = entryOf b w header (w.enqueued.length / 32)
    · exact ⟨_, ⟨y, hself⟩, heq.symm⟩
    · rw [entries_setValue_of_ne heq] at hvalue
      obtain ⟨n, ⟨x, hx⟩, hn⟩ := h.dead e he hkey hvalue fun hpe =>
        heq (Option.some.inj (hpe.symm.trans hpend))
      exact ⟨n, ⟨x, hother n x hx⟩, hn⟩
  · intro c i hc
    have hok : ConsumerOk (b.setValue (entryOf b w header (w.enqueued.length / 32)) (some y)) w
        header p' (consumer c) i :=
      (h.consumers c i hc).of_pc rfl fun hr => (hk hr.kept).elim
    generalize consumer c = pc at hok
    cases pc with
    | tail j h' t =>
      obtain ⟨old, m', hold', hlt, hle, ht, hm⟩ := hok
      refine ⟨old, m', hold', hlt, hle, ht, ?_⟩
      rcases hm with hm | ⟨hcur, hm, hrew⟩
      · exact .inl hm
      · exact .inr ⟨hcur, hm, hrew.key, hrew.value, hrew.kept⟩
    | block | moved | destroyed | emptied => exact ⟨hok.1, hother _ _ hok.2⟩
    | _ => exact hok

/-! ### The producer moves the tail -/

/-- What a consumer knows when the current header gets `n` blocks. -/
theorem ConsumerOk.setTail {tail : UInt64} {n : ℕ} (h : ConsumerOk b w header p pc i)
    (hi : i / 32 < inserted b w → i / 32 < n)
    (hm : ∀ m, m < inserted b w ∨ m = inserted b w ∧ Rewound b w header p →
      m < n ∨ m = n ∧ Rewound (b.setTail tail) (w.setCount b.current n)
        { header with tail := tail } p') :
    ConsumerOk (b.setTail tail) (w.setCount b.current n) { header with tail := tail } p' pc i := by
  have hheader : ∀ (h' : ℕ) (old : BlockIndexHeader), b.headers[h']? = some old →
      ∃ new, (b.setTail tail).headers[h']? = some new ∧ new.capacity = old.capacity := by
    intro h' old hold
    rw [BlockIndex.setTail, List.getElem?_modify, hold]
    refine ⟨_, rfl, ?_⟩
    split <;> rfl
  have hself : (w.setCount b.current n).count b.current = n := by simp [History.setCount]
  have hcount : ∀ h', h' ≠ b.current → (w.setCount b.current n).count h' = w.count h' := by
    intro h' hne
    simp [History.setCount, Function.update_of_ne hne]
  have hlt' : ∀ h', i / 32 < w.count h' → i / 32 < (w.setCount b.current n).count h' := by
    intro h' hlt
    rcases eq_or_ne h' b.current with rfl | hne
    · rw [hself]
      exact hi hlt
    · rwa [hcount h' hne]
  cases pc with
  | header j h' =>
    obtain ⟨old, hold, hlt⟩ := h
    obtain ⟨new, hnew, -⟩ := hheader h' old hold
    exact ⟨new, hnew, hlt' h' hlt⟩
  | tail j h' t =>
    obtain ⟨old, m, hold, hlt, hle, ht, hm'⟩ := h
    obtain ⟨new, hnew, hcap⟩ := hheader h' old hold
    refine ⟨new, m, hnew, hlt' h' hlt, hle, by rw [hcap]; exact ht, ?_⟩
    rcases eq_or_ne h' b.current with rfl | hne
    · rw [hself, inserted_setTail, current_setTail]
      have hor : m < inserted b w ∨ m = inserted b w ∧ Rewound b w header p :=
        hm'.imp_right fun hr => hr.2
      exact (hm m hor).imp_right fun hr => ⟨rfl, hr⟩
    · rw [hcount h' hne]
      exact .inl (hm'.resolve_right fun hr => hne hr.1)
  | entry | block | moved | destroyed | emptied =>
    simp only [ConsumerOk, entryOf_setTail]
    exact h
  | _ => trivial

/-- The next block is inserted: nobody is left beyond the tail. -/
theorem Lookup.push (h : Lookup b w p consumer header k) (hp : p = .tail x e header.newTail)
    (hfirst : w.enqueued.length % 32 = 0) :
    Lookup (b.setTail header.newTail) (w.setCount b.current (inserted b w + 1))
      (.requisition x e) consumer { header with tail := header.newTail } k := by
  subst hp
  obtain ⟨hcount, hfree, rfl, -, hkey⟩ := h.producer
  have hT : inserted b w = w.enqueued.length / 32 := by omega
  refine ⟨h.entries.push hfree hkey, ⟨?_, ?_, ?_, ?_, ?_⟩, ?_, ?_⟩
  · rw [inserted_setTail, hT]
    rfl
  · rw [entryOf_setTail, hT]
    rfl
  · exact hkey.trans (by rw [hT]; rfl)
  · intro n hn
    exact (h.entries.live_lt n hn).trans_eq hT
  · intro h' old hold hne
    rw [current_setTail] at hne
    obtain ⟨old', hold', -⟩ := headers_setTail hold
    have hle := h.entries.count_le h' old' hold'
    rw [hT] at hle
    simpa [History.setCount, Function.update_of_ne hne] using hle
  · intro e he hkey' hvalue hne
    obtain ⟨n, hn, hne'⟩ := h.dead e he hkey' hvalue hne
    exact ⟨n, hn, (entryOf_setTail _ _ _ _).trans hne'⟩
  · intro c i hc
    refine (h.consumers c i hc).setTail (by omega) fun m hm => .inl ?_
    rcases hm with hm | ⟨rfl, -⟩ <;> omega

/-- The last block inserted is taken back: who saw it finds its key in place. -/
theorem Lookup.pop {y : Option β} (h : Lookup b w p consumer header k) (hp : p = .rewind e y)
    (hfirst : w.enqueued.length % 32 = 0)
    (hlive : ∀ c i, w.tickets.phase c = .claimed i → i / 32 < inserted b w →
      i / 32 < w.enqueued.length / 32) :
    Lookup (b.setTail ((header.tail - 1) &&& (header.capacity - 1)))
      (w.setCount b.current (inserted b w - 1)) (.nullify e y) consumer
      { header with tail := (header.tail - 1) &&& (header.capacity - 1) } k := by
  subst hp
  obtain ⟨hcount, rfl, hkey, hbefore, hold⟩ := h.producer
  have hT : inserted b w - 1 = w.enqueued.length / 32 := by omega
  have hentries := h.entries.pop hcount hbefore hold
  rw [hT] at hentries ⊢
  refine ⟨hentries, ⟨?_, ?_, ?_⟩, ?_, ?_⟩
  · rw [inserted_setTail]
    show w.enqueued.length / 32 = (w.enqueued.length + 31) / 32
    omega
  · intro n hn
    rw [inserted_setTail]
    have := h.entries.inserted_le hn
    omega
  · rw [inserted_setTail, entryOf_setTail]
  · intro e he hkey' hvalue hne
    obtain ⟨n, hn, hne'⟩ := h.dead e he hkey' hvalue hne
    exact ⟨n, hn, (entryOf_setTail _ _ _ _).trans hne'⟩
  · intro c i hc
    refine (h.consumers c i hc).setTail (hlive c i hc) fun m hm => ?_
    rcases hm with hm | ⟨-, hr⟩
    · rcases Nat.lt_or_ge m (w.enqueued.length / 32) with hlt | hge
      · exact .inl hlt
      · obtain rfl : m = w.enqueued.length / 32 := by omega
        refine .inr ⟨rfl, ?_, .inr ⟨_, _, rfl⟩, trivial⟩
        rw [inserted_setTail, entryOf_setTail]
        exact hkey
    · exact hr.kept.elim

/-! ### A larger index -/

/-- Every consumer still finds its block through the header it holds. -/
theorem Lookup.grow (h : Lookup b w p consumer header k) (hp : p = .grow x)
    (junk : ℕ → Option β)
    (hlive : ∀ c i, w.tickets.phase c = .claimed i → (consumer c).InBlock → w.Live (i / 32)) :
    Lookup (b.newBlockIndex junk) (w.grow b.current header.capacity.toNat) (.grown x) consumer
      b.newHeader (k + 1) := by
  subst hp
  obtain ⟨hcount, hk⟩ := h.producer
  have hentries := h.entries.grow hk junk
  have hnew : b.entryCount = 2 ^ k := by
    rw [BlockIndex.entryCount, h.entries.getLast]
    exact h.entries.ring.size
  have hpos := Nat.two_pow_pos k
  refine ⟨hentries, ⟨?_, ?_, ?_⟩, ?_, ?_⟩
  · rw [h.entries.inserted_grow]
    exact hcount
  · intro n hn
    have := h.entries.inserted_le hn
    rw [h.entries.inserted_grow, Nat.pow_succ]
    omega
  · rw [h.entries.inserted_grow, h.entries.entryOf_grow_next hk, BlockIndex.newBlockIndex]
    simp only [hnew]
    rw [if_pos ⟨le_rfl, by omega⟩]
  · intro e he hkey hvalue _
    have hlt : e < b.allocated := by
      by_contra hge
      have hmem := hentries.allocated e he
      have hpair : b.allocated ≤ e ∧ e < b.allocated + b.entryCount :=
        ⟨Nat.le_of_not_lt hge, hmem⟩
      apply hkey
      rw [BlockIndex.newBlockIndex]
      simp only [if_pos hpair]
    rw [entries_newBlockIndex hlt] at hkey hvalue
    rw [newHeader_of_last h.entries.getLast] at he
    have hmem : e ∈ header.index := by
      rcases List.mem_append.mp he with he | he
      · exact copyIndex_sub h.entries.ring he
      · have := (List.mem_range'_1.mp he).1
        omega
    obtain ⟨n, hn, heq⟩ := h.dead e hmem hkey hvalue (by simp [ProducerPc.pending])
    refine ⟨n, hn, ?_⟩
    rw [h.entries.entryOf_grow hk (h.entries.live_lt n hn) (h.entries.inserted_le hn)]
    exact heq
  · intro c i hc
    have hok := h.consumers c i hc
    have hlive' := hlive c i hc
    have hheader : ∀ (h' : ℕ) (old : BlockIndexHeader), b.headers[h']? = some old →
        (b.newBlockIndex junk).headers[h']? = some old := by
      intro h' old hold
      rw [BlockIndex.newBlockIndex, List.getElem?_append_left (List.getElem?_eq_some_iff.mp hold).1]
      exact hold
    have hat : w.Live (i / 32) → entryOf (b.newBlockIndex junk)
        (w.grow b.current header.capacity.toNat) b.newHeader (i / 32) =
          entryOf b w header (i / 32) := fun hn =>
      h.entries.entryOf_grow hk (h.entries.live_lt _ hn) (h.entries.inserted_le hn)
    generalize consumer c = pc at hok hlive'
    cases pc with
    | header j h' =>
      obtain ⟨old, hold, hlt⟩ := hok
      have hne := h.entries.lt_current_succ hold
      exact ⟨old, hheader h' old hold, by rwa [(Entries.count_grow_of_ne hne w _).1]⟩
    | tail j h' t =>
      obtain ⟨old, m, hold, hlt, hle, ht, hm⟩ := hok
      have hne := h.entries.lt_current_succ hold
      refine ⟨old, m, hheader h' old hold, ?_, hle, ?_, .inl ?_⟩
      · rwa [(Entries.count_grow_of_ne hne w _).1]
      · rwa [(Entries.count_grow_of_ne hne w _).2]
      · rw [(Entries.count_grow_of_ne hne w _).1]
        exact hm.resolve_right fun hr => hr.2.2.kept
    | entry j e => exact Eq.trans hok (hat (hlive' trivial)).symm
    | block | moved | destroyed | emptied =>
      exact ⟨hok.1.trans (hat (hlive' trivial)).symm, hok.2⟩
    | _ => trivial

/-- An element is published. -/
theorem Lookup.publish (h : Lookup b w p consumer header k) (hp : p = .publish x) :
    Lookup b (w.publish x) .idle consumer header k := by
  subst hp
  have hcount : inserted b w = w.enqueued.length / 32 + 1 := h.producer
  refine ⟨h.entries.congr rfl rfl rfl, ?_, ?_, ?_⟩
  · show inserted b w = ((w.enqueued ++ [x]).length + 31) / 32
    rw [List.length_append, List.length_singleton]
    omega
  · intro e he hkey hvalue hne
    exact h.dead e he hkey hvalue (by simp [ProducerPc.pending])
  · intro c i hc
    have hok : ConsumerOk b w header .idle (consumer c) i :=
      (h.consumers c i hc).of_pc rfl fun hr => hr.of_pc (by simp) trivial
    exact hok.congr rfl rfl rfl

end NodesDetector.Queue
