import NodesDetector.Queue.Implicit
import NodesDetector.Queue.Ring

/-! The entries of the block index: every header, current or old, still finds the blocks that were
in it when it was current. -/
namespace NodesDetector.Queue

variable {α β C : Type} {b : BlockIndex β} {w : History α β C} {header : BlockIndexHeader}
  {k e m n : ℕ}

/-- Block `n` is linked into the index. -/
def History.Live (w : History α β C) (n : ℕ) : Prop := ∃ x, w.blockOf n = some x

/-- How many blocks were inserted up to the current tail. -/
def inserted (b : BlockIndex β) (w : History α β C) : ℕ := w.count b.current

/-- The entry of block `n` by way of the current header. -/
def entryOf (b : BlockIndex β) (w : History α β C) (header : BlockIndexHeader) (n : ℕ) : ℕ :=
  header.at (w.offset b.current) n

/-- The next entry is not that of a live block. -/
def NextFree (b : BlockIndex β) (w : History α β C) (k : ℕ) : Prop :=
  ∀ n, w.Live n → inserted b w < n + 2 ^ k

structure Entries (b : BlockIndex β) (w : History α β C) (header : BlockIndexHeader) (k : ℕ) :
    Prop where
  last : b.headers[b.current]? = some header
  ring : Ring header (inserted b w) (w.offset b.current) k
  next : b.nextBlockIndexCapacity = .ofNat (2 ^ (k + 1))
  allocated : ∀ e ∈ header.index, e < b.allocated
  rings : ∀ h old, b.headers[h]? = some old → ∃ k', Ring old (w.count h) (w.offset h) k'
  count_le : ∀ h old, b.headers[h]? = some old → w.count h ≤ inserted b w
  live_lt : ∀ n, w.Live n → n < inserted b w
  window : ∀ h old n, b.headers[h]? = some old → w.Live n → n < w.count h →
    w.count h ≤ n + old.capacity.toNat
  shared : ∀ h old n m, b.headers[h]? = some old → w.Live n → n ≤ m → m < w.count h →
    old.at (w.offset h) m = entryOf b w header m
  keys : ∀ n m, w.Live n → n ≤ m → m < inserted b w →
    (b.entries (entryOf b w header m)).key = .ofNat (32 * m)
  values : ∀ n x, w.blockOf n = some x → (b.entries (entryOf b w header n)).value = some x

/-! ### One store to an entry -/

theorem entries_setKey_of_ne {e' : ℕ} (hne : e' ≠ e) (key : Index) :
    (b.setKey e key).entries e' = b.entries e' := by
  simp [BlockIndex.setKey, Function.update_of_ne hne]

theorem entries_setValue_of_ne {e' : ℕ} (hne : e' ≠ e) (value : Option β) :
    (b.setValue e value).entries e' = b.entries e' := by
  simp [BlockIndex.setValue, Function.update_of_ne hne]

theorem key_setKey (key : Index) : ((b.setKey e key).entries e).key = key := by
  simp [BlockIndex.setKey]

theorem value_setKey (e' : ℕ) (key : Index) :
    ((b.setKey e key).entries e').value = (b.entries e').value := by
  rcases eq_or_ne e' e with rfl | hne
  · simp [BlockIndex.setKey]
  · rw [entries_setKey_of_ne hne]

theorem key_setValue (e' : ℕ) (value : Option β) :
    ((b.setValue e value).entries e').key = (b.entries e').key := by
  rcases eq_or_ne e' e with rfl | hne
  · simp [BlockIndex.setValue]
  · rw [entries_setValue_of_ne hne]

theorem value_setValue (value : Option β) : ((b.setValue e value).entries e).value = value := by
  simp [BlockIndex.setValue]

namespace Entries

theorem inserted_le (h : Entries b w header k) (hn : w.Live n) : inserted b w ≤ n + 2 ^ k := by
  have := h.window _ _ n h.last hn (h.live_lt n hn)
  rwa [h.ring.size] at this

/-- Live blocks and those after them have entries of their own. -/
theorem entryOf_ne (h : Entries b w header k) (hn : w.Live n) (hle : n ≤ m) {m' : ℕ} (hm : m < m')
    (hm' : m' < inserted b w ∨ m' = inserted b w ∧ NextFree b w k) :
    entryOf b w header m ≠ entryOf b w header m' := by
  intro he
  have hwin := h.inserted_le hn
  have hlt : m' < m + 2 ^ k := by
    rcases hm' with hm' | ⟨rfl, hfree⟩
    · omega
    · have := hfree n hn
      omega
  have := h.ring.at_inj hm.le hlt he
  omega

theorem live_ne_next (h : Entries b w header k) (hfree : NextFree b w k) (hn : w.Live n)
    (hle : n ≤ m) (hm : m < inserted b w) :
    entryOf b w header m ≠ entryOf b w header (inserted b w) :=
  h.entryOf_ne hn hle hm (.inr ⟨rfl, hfree⟩)

/-- Nothing but other parts of the history changed. -/
theorem congr {w' : History α β C} (h : Entries b w header k) (hb : w'.blockOf = w.blockOf)
    (hc : w'.count = w.count) (ho : w'.offset = w.offset) : Entries b w' header k := by
  obtain ⟨_, _, _, _, _, _⟩ := w
  obtain ⟨_, _, _, _, _, _⟩ := w'
  subst hb hc ho
  exact { h with }

/-- The key of the next entry is stored. -/
theorem setKey (h : Entries b w header k) (hfree : NextFree b w k) (key : Index) :
    Entries (b.setKey (entryOf b w header (inserted b w)) key) w header k := by
  refine { h with keys := ?_, values := ?_ }
  · intro n m hn hle hm
    exact (congrArg _ (entries_setKey_of_ne (h.live_ne_next hfree hn hle hm) key)).trans
      (h.keys n m hn hle hm)
  · intro n x hx
    exact (value_setKey _ key).trans (h.values n x hx)

/-- The next entry is cleared. -/
theorem clearNext (h : Entries b w header k) (hfree : NextFree b w k) :
    Entries (b.setValue (entryOf b w header (inserted b w)) none) w header k := by
  refine { h with keys := ?_, values := ?_ }
  · intro n m hn hle hm
    exact (key_setValue _ none).trans (h.keys n m hn hle hm)
  · intro n x hx
    have hn : w.Live n := ⟨x, hx⟩
    have hne := h.live_ne_next hfree hn le_rfl (h.live_lt n hn)
    exact (congrArg _ (entries_setValue_of_ne hne none)).trans (h.values n x hx)

/-- A live block leaves the index. -/
theorem unlink (h : Entries b w header k) (hn : w.Live n) :
    Entries (b.setValue (entryOf b w header n) none)
      { w with blockOf := Function.update w.blockOf n none } header k := by
  have hlive : ∀ n' x, Function.update w.blockOf n none n' = some x →
      n' ≠ n ∧ w.blockOf n' = some x := by
    intro n' x hx
    rcases eq_or_ne n' n with rfl | hne
    · simp at hx
    · exact ⟨hne, by rwa [Function.update_of_ne hne] at hx⟩
  refine { h with live_lt := ?_, window := ?_, shared := ?_, keys := ?_, values := ?_ }
  · rintro n' ⟨x, hx⟩
    exact h.live_lt n' ⟨x, (hlive n' x hx).2⟩
  · rintro h' old n' hold ⟨x, hx⟩ hlt
    exact h.window h' old n' hold ⟨x, (hlive n' x hx).2⟩ hlt
  · rintro h' old n' m' hold ⟨x, hx⟩ hle hlt
    exact h.shared h' old n' m' hold ⟨x, (hlive n' x hx).2⟩ hle hlt
  · rintro n' m' ⟨x, hx⟩ hle hlt
    exact (key_setValue _ none).trans (h.keys n' m' ⟨x, (hlive n' x hx).2⟩ hle hlt)
  · intro n' x hx
    obtain ⟨hne, hx⟩ := hlive n' x hx
    have hn' : w.Live n' := ⟨x, hx⟩
    have hentry : entryOf b w header n' ≠ entryOf b w header n := by
      rcases Nat.lt_or_gt_of_ne hne with hlt | hgt
      · exact h.entryOf_ne hn' le_rfl hlt (.inl (h.live_lt n hn))
      · exact (h.entryOf_ne hn le_rfl hgt (.inl (h.live_lt n' hn'))).symm
    exact (congrArg _ (entries_setValue_of_ne hentry none)).trans (h.values n' x hx)

/-- The last block inserted is linked; the old headers end before it. -/
theorem link (h : Entries b w header k) (hcount : inserted b w = m + 1)
    (hkey : (b.entries (entryOf b w header m)).key = .ofNat (32 * m))
    (hbefore : ∀ n, w.Live n → n < m)
    (hold : ∀ h old, b.headers[h]? = some old → h ≠ b.current → w.count h ≤ m) (x : β) :
    Entries (b.setValue (entryOf b w header m) (some x))
      { w with blockOf := Function.update w.blockOf m (some x) } header k := by
  have hlive : ∀ n x', Function.update w.blockOf m (some x) n = some x' →
      (n < m ∧ w.blockOf n = some x') ∨ n = m ∧ x' = x := by
    intro n x' hx
    rcases eq_or_ne n m with rfl | hne
    · rw [Function.update_self] at hx
      exact .inr ⟨rfl, (Option.some.inj hx).symm⟩
    · rw [Function.update_of_ne hne] at hx
      exact .inl ⟨hbefore n ⟨x', hx⟩, hx⟩
  refine { h with live_lt := ?_, window := ?_, shared := ?_, keys := ?_, values := ?_ }
  · rintro n ⟨x', hx⟩
    show n < inserted b w
    rcases hlive n x' hx with ⟨hlt, -⟩ | ⟨rfl, -⟩ <;> omega
  · rintro h' old n hold' ⟨x', hx⟩ hlt
    rcases hlive n x' hx with ⟨-, hx⟩ | ⟨rfl, -⟩
    · exact h.window h' old n hold' ⟨x', hx⟩ hlt
    · have hle := h.count_le h' old hold'
      obtain ⟨k', hring⟩ := h.rings h' old hold'
      have hsize := hring.size
      have hpos := Nat.two_pow_pos k'
      show w.count h' ≤ n + old.capacity.toNat
      omega
  · rintro h' old n m' hold' ⟨x', hx⟩ hle hlt
    rcases hlive n x' hx with ⟨-, hx⟩ | ⟨rfl, -⟩
    · exact h.shared h' old n m' hold' ⟨x', hx⟩ hle hlt
    · by_cases hcur : h' = b.current
      · subst hcur
        obtain rfl : old = header := Option.some.inj (hold'.symm.trans h.last)
        rfl
      · have hle' := hold h' old hold' hcur
        have hlt' : m' < w.count h' := hlt
        omega
  · rintro n m' ⟨x', hx⟩ hle hlt
    refine (key_setValue _ _).trans ?_
    rcases hlive n x' hx with ⟨-, hx⟩ | ⟨rfl, -⟩
    · exact h.keys n m' ⟨x', hx⟩ hle hlt
    · have hlt' : m' < inserted b w := hlt
      obtain rfl : m' = n := by omega
      exact hkey
  · intro n x' hx
    rcases hlive n x' hx with ⟨hlt, hx⟩ | ⟨rfl, rfl⟩
    · have hne := h.entryOf_ne ⟨x', hx⟩ le_rfl hlt (.inl (by omega))
      exact (congrArg _ (entries_setValue_of_ne hne _)).trans (h.values n x' hx)
    · exact value_setValue _

end Entries

/-! ### The tail of the current header -/

theorem current_setTail (tail : UInt64) : (b.setTail tail).current = b.current := by
  simp [BlockIndex.setTail, BlockIndex.current]

theorem headers_setTail {tail : UInt64} {h : ℕ} {new : BlockIndexHeader}
    (hnew : (b.setTail tail).headers[h]? = some new) :
    ∃ old, b.headers[h]? = some old ∧
      (h = b.current ∧ new = { old with tail := tail } ∨ h ≠ b.current ∧ new = old) := by
  rw [BlockIndex.setTail, List.getElem?_modify] at hnew
  obtain ⟨old, hold, rfl⟩ := Option.map_eq_some_iff.mp hnew
  refine ⟨old, hold, ?_⟩
  by_cases hcur : b.current = h
  · exact .inl ⟨hcur.symm, by rw [if_pos hcur]⟩
  · exact .inr ⟨Ne.symm hcur, by rw [if_neg hcur]⟩

theorem last_setTail {tail : UInt64} (hlast : b.headers[b.current]? = some header) :
    (b.setTail tail).headers[(b.setTail tail).current]? = some { header with tail := tail } := by
  rw [current_setTail, BlockIndex.setTail, List.getElem?_modify, hlast]
  simp

theorem inserted_setTail (tail : UInt64) (n : ℕ) :
    inserted (b.setTail tail) (w.setCount b.current n) = n := by
  simp [inserted, current_setTail, History.setCount]

theorem entryOf_setTail (tail tail' : UInt64) (n m : ℕ) :
    entryOf (b.setTail tail) (w.setCount b.current n) { header with tail := tail' } m =
      entryOf b w header m := by
  simp [entryOf, current_setTail, History.setCount, BlockIndexHeader.at]

namespace Entries

/-- The tail moves to `n` blocks; no live block is beyond either tail. -/
theorem setTail (h : Entries b w header k) {tail : UInt64}
    (hring : Ring { header with tail := tail } n (w.offset b.current) k)
    (hlive : ∀ n', w.Live n' → n' < n ∧ n ≤ n' + 2 ^ k)
    (hold : ∀ h old, b.headers[h]? = some old → h ≠ b.current → w.count h ≤ n)
    (hkeys : ∀ n' m, w.Live n' → n' ≤ m → m < n →
      (b.entries (entryOf b w header m)).key = .ofNat (32 * m)) :
    Entries (b.setTail tail) (w.setCount b.current n) { header with tail := tail } k := by
  have hcount : ∀ h', h' ≠ b.current → (w.setCount b.current n).count h' = w.count h' := by
    intro h' hne
    simp [History.setCount, Function.update_of_ne hne]
  have hself : (w.setCount b.current n).count b.current = n := by simp [History.setCount]
  refine ⟨last_setTail h.last, ?_, h.next, h.allocated, ?_, ?_, ?_, ?_, ?_, ?_, ?_⟩
  · rw [inserted_setTail, current_setTail]
    exact hring
  · intro h' new hnew
    obtain ⟨old, hold', ⟨rfl, rfl⟩ | ⟨hne, rfl⟩⟩ := headers_setTail hnew
    · obtain rfl : old = header := Option.some.inj (hold'.symm.trans h.last)
      rw [hself]
      exact ⟨k, hring⟩
    · rw [hcount h' hne]
      exact h.rings h' new hold'
  · intro h' new hnew
    rw [inserted_setTail]
    obtain ⟨old, hold', ⟨rfl, rfl⟩ | ⟨hne, rfl⟩⟩ := headers_setTail hnew
    · exact hself.le
    · rw [hcount h' hne]
      exact hold h' new hold' hne
  · intro n' hn'
    rw [inserted_setTail]
    exact (hlive n' hn').1
  · intro h' new n' hnew hn' hlt
    obtain ⟨old, hold', ⟨rfl, rfl⟩ | ⟨hne, rfl⟩⟩ := headers_setTail hnew
    · obtain rfl : old = header := Option.some.inj (hold'.symm.trans h.last)
      rw [hself, h.ring.size]
      exact (hlive n' hn').2
    · rw [hcount h' hne] at hlt ⊢
      exact h.window h' new n' hold' hn' hlt
  · intro h' new n' m hnew hn' hle hlt
    rw [entryOf_setTail]
    obtain ⟨old, hold', ⟨rfl, rfl⟩ | ⟨hne, rfl⟩⟩ := headers_setTail hnew
    · obtain rfl : old = header := Option.some.inj (hold'.symm.trans h.last)
      rfl
    · rw [hcount h' hne] at hlt
      exact h.shared h' new n' m hold' hn' hle hlt
  · intro n' m hn' hle hlt
    rw [inserted_setTail] at hlt
    rw [entryOf_setTail]
    exact hkeys n' m hn' hle hlt
  · intro n' x hx
    rw [entryOf_setTail]
    exact h.values n' x hx

/-- The next block is inserted. -/
theorem push (h : Entries b w header k) (hfree : NextFree b w k)
    (hkey : (b.entries (entryOf b w header (inserted b w))).key = .ofNat (32 * inserted b w)) :
    Entries (b.setTail header.newTail) (w.setCount b.current (inserted b w + 1))
      { header with tail := header.newTail } k := by
  apply h.setTail
  · rw [h.ring.newTail_eq]
    exact h.ring.push
  · intro n hn
    have := h.live_lt n hn
    have := hfree n hn
    omega
  · intro h' old hold _
    have := h.count_le h' old hold
    omega
  · intro n m hn hle hm
    rcases Nat.lt_succ_iff_lt_or_eq.mp hm with hlt | rfl
    · exact h.keys n m hn hle hlt
    · exact hkey

/-- The last block inserted is taken back; it has not been linked. -/
theorem pop (h : Entries b w header k) (hcount : inserted b w = m + 1)
    (hbefore : ∀ n, w.Live n → n < m)
    (hold : ∀ h old, b.headers[h]? = some old → h ≠ b.current → w.count h ≤ m) :
    Entries (b.setTail ((header.tail - 1) &&& (header.capacity - 1)))
      (w.setCount b.current (inserted b w - 1))
      { header with tail := (header.tail - 1) &&& (header.capacity - 1) } k := by
  have hm : inserted b w - 1 = m := by omega
  have hring := h.ring
  rw [hcount] at hring
  rw [hm]
  apply h.setTail hring.pop
  · intro n hn
    have := hbefore n hn
    have := h.inserted_le hn
    omega
  · exact hold
  · intro n m' hn hle hlt
    exact h.keys n m' hn hle (by omega)

end Entries

/-! ### A larger index -/

theorem current_newBlockIndex (junk : ℕ → Option β) (h : b.headers ≠ []) :
    (b.newBlockIndex junk).current = b.current + 1 := by
  have := List.length_pos_of_ne_nil h
  simp only [BlockIndex.newBlockIndex, BlockIndex.current, List.length_append,
    List.length_singleton]
  omega

theorem headers_newBlockIndex {junk : ℕ → Option β} {h : ℕ} {new : BlockIndexHeader}
    (hne : b.headers ≠ []) (hnew : (b.newBlockIndex junk).headers[h]? = some new) :
    h = b.current + 1 ∧ new = b.newHeader ∨ h ≠ b.current + 1 ∧ b.headers[h]? = some new := by
  have hlen := List.length_pos_of_ne_nil hne
  rw [BlockIndex.newBlockIndex] at hnew
  rcases Nat.lt_trichotomy h b.headers.length with hlt | rfl | hgt
  · rw [List.getElem?_append_left hlt] at hnew
    refine .inr ⟨?_, hnew⟩
    rw [BlockIndex.current]
    omega
  · rw [List.getElem?_append_right le_rfl, Nat.sub_self] at hnew
    refine .inl ⟨?_, (Option.some.inj hnew).symm⟩
    rw [BlockIndex.current]
    omega
  · rw [List.getElem?_append_right hgt.le, List.getElem?_eq_none] at hnew
    · cases hnew
    · simp only [List.length_singleton]
      omega

theorem entries_newBlockIndex {junk : ℕ → Option β} (he : e < b.allocated) :
    (b.newBlockIndex junk).entries e = b.entries e := by
  rw [BlockIndex.newBlockIndex]
  exact if_neg fun h => absurd h.1 (Nat.not_le_of_lt he)

namespace Entries

theorem headers_ne_nil (h : Entries b w header k) : b.headers ≠ [] := by
  intro he
  have := h.last
  simp [he] at this

theorem getLast (h : Entries b w header k) : b.headers.getLast? = some header := by
  rw [List.getLast?_eq_getElem?]
  exact h.last

theorem lt_current_succ (h : Entries b w header k) {h' : ℕ} {old : BlockIndexHeader}
    (hold : b.headers[h']? = some old) : h' ≠ b.current + 1 := by
  have hlen := (List.getElem?_eq_some_iff.mp hold).1
  have := List.length_pos_of_ne_nil h.headers_ne_nil
  rw [BlockIndex.current]
  omega

variable {junk : ℕ → Option β}

theorem count_grow (w : History α β C) (h capacity : ℕ) :
    (w.grow h capacity).count (h + 1) = w.count h := by
  simp [History.grow]

theorem count_grow_of_ne {h h' : ℕ} (hne : h' ≠ h + 1) (w : History α β C) (capacity : ℕ) :
    (w.grow h capacity).count h' = w.count h' ∧ (w.grow h capacity).offset h' = w.offset h' := by
  simp [History.grow, Function.update_of_ne hne]

theorem inserted_grow (h : Entries b w header k) :
    inserted (b.newBlockIndex junk) (w.grow b.current header.capacity.toNat) = inserted b w := by
  rw [inserted, current_newBlockIndex junk h.headers_ne_nil, count_grow]
  rfl

/-- The new header has the same entries for the blocks that were in the old one. -/
theorem entryOf_grow (h : Entries b w header k) (hk : k + 1 ≤ 59) (hm : m < inserted b w)
    (hwin : inserted b w ≤ m + 2 ^ k) :
    entryOf (b.newBlockIndex junk) (w.grow b.current header.capacity.toNat) b.newHeader m =
      entryOf b w header m := by
  rw [entryOf, current_newBlockIndex junk h.headers_ne_nil, h.ring.size]
  have hoff : (w.grow b.current (2 ^ k)).offset (b.current + 1) =
      2 ^ k + (2 * 2 ^ k - 1) * inserted b w := by
    simp [History.grow, inserted]
  rw [hoff]
  exact at_newHeader h.ring hk h.getLast h.next hm hwin

theorem entryOf_grow_next (h : Entries b w header k) (hk : k + 1 ≤ 59) :
    entryOf (b.newBlockIndex junk) (w.grow b.current header.capacity.toNat) b.newHeader
      (inserted b w) = b.allocated := by
  rw [entryOf, current_newBlockIndex junk h.headers_ne_nil, h.ring.size]
  have hoff : (w.grow b.current (2 ^ k)).offset (b.current + 1) =
      2 ^ k + (2 * 2 ^ k - 1) * inserted b w := by
    simp [History.grow, inserted]
  rw [hoff]
  exact at_newHeader_count h.ring hk h.getLast h.next

theorem entryOf_lt (h : Entries b w header k) (m : ℕ) : entryOf b w header m < b.allocated :=
  h.allocated _ (h.ring.at_mem m)

theorem shiftLeft_one_ofNat (k : ℕ) :
    UInt64.ofNat (2 ^ k) <<< 1 = UInt64.ofNat (2 ^ (k + 1)) := by
  apply UInt64.toNat_inj.mp
  rw [UInt64.toNat_shiftLeft, UInt64.toNat_ofNat', UInt64.toNat_ofNat', UInt64.toNat_one,
    Nat.shiftLeft_eq, Nat.pow_succ]
  exact (Nat.mod_modEq (2 ^ k) (2 ^ 64)).mul_right 2

/-- `new_block_index` keeps what every header finds. -/
theorem grow (h : Entries b w header k) (hk : k + 1 ≤ 59) (junk : ℕ → Option β) :
    Entries (b.newBlockIndex junk) (w.grow b.current header.capacity.toNat) b.newHeader
      (k + 1) := by
  have hne := h.headers_ne_nil
  have hcur := current_newBlockIndex junk hne
  have hcount : (b.entryCount) = 2 ^ k := by
    rw [BlockIndex.entryCount, h.getLast]
    exact h.ring.size
  have hring : Ring b.newHeader (inserted b w)
      ((w.grow b.current header.capacity.toNat).offset (b.current + 1)) (k + 1) := by
    have hoff : (w.grow b.current header.capacity.toNat).offset (b.current + 1) =
        2 ^ k + (2 * 2 ^ k - 1) * inserted b w := by
      simp [History.grow, inserted, h.ring.size]
    rw [hoff]
    exact h.ring.grow hk h.getLast h.next h.allocated
  have hwin : ∀ n m, w.Live n → n ≤ m → inserted b w ≤ m + 2 ^ k := by
    intro n m hn hle
    have := h.inserted_le hn
    omega
  refine ⟨?_, ?_, ?_, ?_, ?_, ?_, ?_, ?_, ?_, ?_, ?_⟩
  · rw [hcur, BlockIndex.newBlockIndex, BlockIndex.current]
    have := List.length_pos_of_ne_nil hne
    rw [List.getElem?_append_right (by omega), Nat.sub_add_cancel this, Nat.sub_self]
    rfl
  · rw [h.inserted_grow, hcur]
    exact hring
  · show b.nextBlockIndexCapacity <<< 1 = _
    rw [h.next]
    exact shiftLeft_one_ofNat (k + 1)
  · intro e he
    show e < b.allocated + b.entryCount
    rw [newHeader_of_last h.getLast] at he
    rcases List.mem_append.mp he with he | he
    · have := h.allocated e (copyIndex_sub h.ring he)
      omega
    · rw [h.ring.size] at he
      have := (List.mem_range'_1.mp he).2
      omega
  · intro h' new hnew
    rcases headers_newBlockIndex hne hnew with ⟨rfl, rfl⟩ | ⟨hne', hold⟩
    · rw [count_grow]
      exact ⟨k + 1, hring⟩
    · rw [(count_grow_of_ne hne' w _).1, (count_grow_of_ne hne' w _).2]
      exact h.rings h' new hold
  · intro h' new hnew
    rw [h.inserted_grow]
    rcases headers_newBlockIndex hne hnew with ⟨rfl, rfl⟩ | ⟨hne', hold⟩
    · rw [count_grow]
      exact le_rfl
    · rw [(count_grow_of_ne hne' w _).1]
      exact h.count_le h' new hold
  · intro n hn
    rw [h.inserted_grow]
    exact h.live_lt n hn
  · intro h' new n hnew hn hlt
    rcases headers_newBlockIndex hne hnew with ⟨rfl, rfl⟩ | ⟨hne', hold⟩
    · have hle := h.inserted_le hn
      have hpos := Nat.two_pow_pos k
      rw [count_grow, hring.size, Nat.pow_succ]
      rw [inserted] at hle
      omega
    · rw [(count_grow_of_ne hne' w _).1] at hlt ⊢
      exact h.window h' new n hold hn hlt
  · intro h' new n m hnew hn hle hlt
    rcases headers_newBlockIndex hne hnew with ⟨rfl, rfl⟩ | ⟨hne', hold⟩
    · rw [entryOf, hcur]
    · rw [(count_grow_of_ne hne' w _).1] at hlt
      rw [(count_grow_of_ne hne' w _).2, h.entryOf_grow hk _ (hwin n m hn hle)]
      · exact h.shared h' new n m hold hn hle hlt
      · exact hlt.trans_le (h.count_le h' new hold)
  · intro n m hn hle hlt
    rw [h.inserted_grow] at hlt
    rw [h.entryOf_grow hk hlt (hwin n m hn hle), entries_newBlockIndex (h.entryOf_lt m)]
    exact h.keys n m hn hle hlt
  · intro n x hx
    have hn : w.Live n := ⟨x, hx⟩
    rw [h.entryOf_grow hk (h.live_lt n hn) (hwin n n hn le_rfl),
      entries_newBlockIndex (h.entryOf_lt n)]
    exact h.values n x hx

end Entries

end NodesDetector.Queue
