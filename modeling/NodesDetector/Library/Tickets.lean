import Mathlib.Data.Finset.Card
import Mathlib.Data.Finset.Max

/-! Optimistic tickets: any number of takers draw a ticket first and learn afterwards whether an
item stands behind it; a refused ticket is given back in a counter of its own. -/
namespace Tickets

/-- Where a taker is. `refusals` is the number of returned tickets it read before it drew. -/
inductive Phase
  | idle
  | read (refusals : ℕ)
  | ticket (refusals m : ℕ)
  | granted (m : ℕ)
  | refused (m : ℕ)
  | claimed (i : ℕ)
deriving DecidableEq

/-- The number of the ticket a taker holds. -/
def Phase.number : Phase → Option ℕ
  | .ticket _ m | .granted m | .refused m => some m
  | .idle | .read _ | .claimed _ => none

/-- The four counters, the takers, and which tickets were granted (`won`), claimed (`used`),
refused (`lost`) and given back (`returned`). -/
structure State (ι : Type*) where
  produced : ℕ
  tickets : ℕ
  refusals : ℕ
  claims : ℕ
  phase : ι → Phase
  won : Finset ℕ
  used : Finset ℕ
  lost : Finset ℕ
  returned : Finset ℕ

namespace State

variable {ι : Type*}

def initial : State ι := ⟨0, 0, 0, 0, fun _ => .idle, ∅, ∅, ∅, ∅⟩

/-- One item more. -/
def produce (s : State ι) : State ι := { s with produced := s.produced + 1 }

variable [DecidableEq ι]

def goto (s : State ι) (c : ι) (p : Phase) : State ι :=
  { s with phase := Function.update s.phase c p }

/-- Read how many tickets were given back. -/
def read (s : State ι) (c : ι) : State ι :=
  match s.phase c with
  | .idle => s.goto c (.read s.refusals)
  | _ => s

/-- Give up before drawing. -/
def leave (s : State ι) (c : ι) : State ι :=
  match s.phase c with
  | .read _ => s.goto c .idle
  | _ => s

def draw (s : State ι) (c : ι) : State ι :=
  match s.phase c with
  | .read o => { s.goto c (.ticket o s.tickets) with tickets := s.tickets + 1 }
  | _ => s

def grant (s : State ι) (c : ι) : State ι :=
  match s.phase c with
  | .ticket _ m => { s.goto c (.granted m) with won := insert m s.won }
  | _ => s

def refuse (s : State ι) (c : ι) : State ι :=
  match s.phase c with
  | .ticket _ m => { s.goto c (.refused m) with lost := insert m s.lost }
  | _ => s

/-- A granted ticket buys the next index. -/
def claim (s : State ι) (c : ι) : State ι :=
  match s.phase c with
  | .granted m =>
    { s.goto c (.claimed s.claims) with claims := s.claims + 1, used := insert m s.used }
  | _ => s

/-- A refused ticket is counted as given back. -/
def giveBack (s : State ι) (c : ι) : State ι :=
  match s.phase c with
  | .refused m =>
    { s.goto c .idle with refusals := s.refusals + 1, returned := insert m s.returned }
  | _ => s

def release (s : State ι) (c : ι) : State ι :=
  match s.phase c with
  | .claimed _ => s.goto c .idle
  | _ => s

variable {s : State ι} {c : ι} {m o i : ℕ}

theorem read_eq (hc : s.phase c = .idle) : s.read c = s.goto c (.read s.refusals) := by
  simp [read, hc]

theorem leave_eq (hc : s.phase c = .read o) : s.leave c = s.goto c .idle := by
  simp [leave, hc]

theorem draw_eq (hc : s.phase c = .read o) :
    s.draw c = { s.goto c (.ticket o s.tickets) with tickets := s.tickets + 1 } := by
  simp [draw, hc]

theorem grant_eq (hc : s.phase c = .ticket o m) :
    s.grant c = { s.goto c (.granted m) with won := insert m s.won } := by
  simp [grant, hc]

theorem refuse_eq (hc : s.phase c = .ticket o m) :
    s.refuse c = { s.goto c (.refused m) with lost := insert m s.lost } := by
  simp [refuse, hc]

theorem claim_eq (hc : s.phase c = .granted m) :
    s.claim c =
      { s.goto c (.claimed s.claims) with claims := s.claims + 1, used := insert m s.used } := by
  simp [claim, hc]

theorem giveBack_eq (hc : s.phase c = .refused m) :
    s.giveBack c =
      { s.goto c .idle with refusals := s.refusals + 1, returned := insert m s.returned } := by
  simp [giveBack, hc]

theorem release_eq (hc : s.phase c = .claimed i) : s.release c = s.goto c .idle := by
  simp [release, hc]

theorem phase_read (hc : s.phase c = .idle) :
    (s.read c).phase = Function.update s.phase c (.read s.refusals) :=
  congrArg State.phase (read_eq hc)

theorem phase_leave (hc : s.phase c = .read o) :
    (s.leave c).phase = Function.update s.phase c .idle :=
  congrArg State.phase (leave_eq hc)

theorem phase_draw (hc : s.phase c = .read o) :
    (s.draw c).phase = Function.update s.phase c (.ticket o s.tickets) :=
  congrArg State.phase (draw_eq hc)

theorem phase_grant (hc : s.phase c = .ticket o m) :
    (s.grant c).phase = Function.update s.phase c (.granted m) :=
  congrArg State.phase (grant_eq hc)

theorem phase_refuse (hc : s.phase c = .ticket o m) :
    (s.refuse c).phase = Function.update s.phase c (.refused m) :=
  congrArg State.phase (refuse_eq hc)

theorem phase_claim (hc : s.phase c = .granted m) :
    (s.claim c).phase = Function.update s.phase c (.claimed s.claims) :=
  congrArg State.phase (claim_eq hc)

theorem phase_giveBack (hc : s.phase c = .refused m) :
    (s.giveBack c).phase = Function.update s.phase c .idle :=
  congrArg State.phase (giveBack_eq hc)

/-- Whoever returns is idle afterwards. -/
theorem phase_release (hc : s.phase c = .idle ∨ ∃ i, s.phase c = .claimed i) :
    (s.release c).phase = Function.update s.phase c .idle := by
  rcases hc with hc | ⟨i, hc⟩
  · have hself : Function.update s.phase c .idle = s.phase := hc ▸ Function.update_eq_self c s.phase
    simp [release, hc, hself]
  · rw [release_eq hc]
    rfl

@[simp] theorem claims_read (s : State ι) (c : ι) : (s.read c).claims = s.claims := by
  unfold read
  split <;> rfl

@[simp] theorem claims_leave (s : State ι) (c : ι) : (s.leave c).claims = s.claims := by
  unfold leave
  split <;> rfl

@[simp] theorem claims_draw (s : State ι) (c : ι) : (s.draw c).claims = s.claims := by
  unfold draw
  split <;> rfl

@[simp] theorem claims_grant (s : State ι) (c : ι) : (s.grant c).claims = s.claims := by
  unfold grant
  split <;> rfl

@[simp] theorem claims_refuse (s : State ι) (c : ι) : (s.refuse c).claims = s.claims := by
  unfold refuse
  split <;> rfl

@[simp] theorem claims_giveBack (s : State ι) (c : ι) : (s.giveBack c).claims = s.claims := by
  unfold giveBack
  split <;> rfl

@[simp] theorem claims_release (s : State ι) (c : ι) : (s.release c).claims = s.claims := by
  unfold release
  split <;> rfl

theorem le_claims_claim (s : State ι) (c : ι) : s.claims ≤ (s.claim c).claims := by
  unfold claim
  split
  case h_1 => exact Nat.le_succ _
  case h_2 => exact le_rfl

@[simp] theorem tickets_read (s : State ι) (c : ι) : (s.read c).tickets = s.tickets := by
  unfold read
  split <;> rfl

@[simp] theorem tickets_leave (s : State ι) (c : ι) : (s.leave c).tickets = s.tickets := by
  unfold leave
  split <;> rfl

@[simp] theorem tickets_grant (s : State ι) (c : ι) : (s.grant c).tickets = s.tickets := by
  unfold grant
  split <;> rfl

@[simp] theorem tickets_refuse (s : State ι) (c : ι) : (s.refuse c).tickets = s.tickets := by
  unfold refuse
  split <;> rfl

@[simp] theorem tickets_claim (s : State ι) (c : ι) : (s.claim c).tickets = s.tickets := by
  unfold claim
  split <;> rfl

@[simp] theorem tickets_giveBack (s : State ι) (c : ι) : (s.giveBack c).tickets = s.tickets := by
  unfold giveBack
  split <;> rfl

@[simp] theorem tickets_release (s : State ι) (c : ι) : (s.release c).tickets = s.tickets := by
  unfold release
  split <;> rfl

theorem tickets_draw_le (s : State ι) (c : ι) : (s.draw c).tickets ≤ s.tickets + 1 := by
  unfold draw
  split
  case h_1 => exact le_rfl
  case h_2 => exact Nat.le_succ _

end State

/-- Refused tickets below `m`. -/
def lostBelow {ι : Type*} (s : State ι) (m : ℕ) : Finset ℕ := s.lost.filter (· < m)

theorem card_lostBelow_le {ι : Type*} (s : State ι) (m : ℕ) : (lostBelow s m).card ≤ m := by
  have hsub : lostBelow s m ⊆ Finset.range m := fun n hn =>
    Finset.mem_range.mpr (Finset.mem_filter.mp hn).2
  exact (Finset.card_le_card hsub).trans_eq (Finset.card_range m)

/-- What a taker relies on. -/
def Ok {ι : Type*} (s : State ι) : Phase → Prop
  | .idle => True
  | .read o => o ≤ s.lost.card
  | .ticket o m => o ≤ (lostBelow s m).card ∧ m ∉ s.won ∧ m ∉ s.lost ∧ m < s.tickets
  | .granted m => m ∈ s.won ∧ m ∉ s.used
  | .refused m => m ∈ s.lost ∧ m ∉ s.returned
  | .claimed i => i < s.claims

/-- What holds at any moment, whatever the takers do. -/
structure Inv {ι : Type*} (s : State ι) : Prop where
  ok : ∀ c, Ok s (s.phase c)
  number_inj : ∀ c c' m, (s.phase c).number = some m → (s.phase c').number = some m → c = c'
  claimed_inj : ∀ c c' i, s.phase c = .claimed i → s.phase c' = .claimed i → c = c'
  won_lt : ∀ m ∈ s.won, m < s.tickets
  lost_lt : ∀ m ∈ s.lost, m < s.tickets
  disjoint : Disjoint s.won s.lost
  used_sub : s.used ⊆ s.won
  returned_sub : s.returned ⊆ s.lost
  claims_eq : s.claims = s.used.card
  refusals_eq : s.refusals = s.returned.card
  won_le : ∀ m ∈ s.won, m < s.produced + (lostBelow s m).card

variable {ι : Type*} {s : State ι} {c : ι} {i m o : ℕ}

theorem inv_initial : Inv (State.initial : State ι) := by
  constructor <;> simp [State.initial, lostBelow, Phase.number, Ok]

/-- Among the tickets up to the highest granted one, all but the refused ones have an item. -/
theorem Inv.won_card_le (h : Inv s) : s.won.card ≤ s.produced := by
  rcases s.won.eq_empty_or_nonempty with he | hne
  · simp [he]
  · obtain ⟨hM, hmax⟩ := (⟨s.won.max'_mem hne, s.won.le_max'⟩ :
      s.won.max' hne ∈ s.won ∧ ∀ m ∈ s.won, m ≤ s.won.max' hne)
    have hle := h.won_le _ hM
    generalize s.won.max' hne = M at hM hmax hle
    have hdisj : Disjoint s.won (lostBelow s M) :=
      h.disjoint.mono_right (Finset.filter_subset _ _)
    have hsub : s.won ∪ lostBelow s M ⊆ Finset.range (M + 1) := by
      intro m hm
      rcases Finset.mem_union.mp hm with hw | hl
      · exact Finset.mem_range.mpr (Nat.lt_succ_of_le (hmax m hw))
      · exact Finset.mem_range.mpr (Nat.lt_succ_of_lt (Finset.mem_filter.mp hl).2)
    have hcard := Finset.card_le_card hsub
    rw [Finset.card_union_of_disjoint hdisj, Finset.card_range] at hcard
    omega

theorem Inv.claims_le (h : Inv s) : s.claims ≤ s.produced := by
  rw [h.claims_eq]
  exact (Finset.card_le_card h.used_sub).trans h.won_card_le

/-- Behind a granted ticket stands an item nobody has claimed. -/
theorem Inv.claims_lt (h : Inv s) (hc : s.phase c = .granted m) : s.claims < s.produced := by
  obtain ⟨hw, hu⟩ : Ok s (.granted m) := hc ▸ h.ok c
  have hss : s.used ⊂ s.won := by
    refine ⟨h.used_sub, ?_⟩
    intro hsub
    exact hu (hsub hw)
  have hlt := Finset.card_lt_card hss
  have hle := h.won_card_le
  have heq := h.claims_eq
  omega

theorem Inv.number_lt (h : Inv s) (hc : (s.phase c).number = some m) : m < s.tickets := by
  have hok := h.ok c
  cases hp : s.phase c with
  | ticket o m' =>
    rw [hp] at hok hc
    obtain rfl : m' = m := by simpa [Phase.number] using hc
    exact hok.2.2.2
  | granted m' =>
    rw [hp] at hok hc
    obtain rfl : m' = m := by simpa [Phase.number] using hc
    exact h.won_lt _ hok.1
  | refused m' =>
    rw [hp] at hok hc
    obtain rfl : m' = m := by simpa [Phase.number] using hc
    exact h.lost_lt _ hok.1
  | idle | read _ | claimed _ => simp [hp, Phase.number] at hc

/-- A number nobody else holds. -/
theorem Inv.number_ne {c' : ι} {n : ℕ} (h : Inv s) (hc : (s.phase c).number = some m)
    (hne : c' ≠ c) (hn : (s.phase c').number = some n) : n ≠ m := by
  rintro rfl
  exact hne (h.number_inj c' c n hn hc)

/-! ### Every operation keeps the invariant -/

/-- The books only grow; what must not grow is the taker's own ticket becoming decided. -/
theorem Ok.mono {t : State ι} {p : Phase} (h : Ok s p) (hwon : s.won ⊆ t.won)
    (hlost : s.lost ⊆ t.lost) (htickets : s.tickets ≤ t.tickets) (hclaims : s.claims ≤ t.claims)
    (hnew : ∀ m, p.number = some m → (m ∈ t.won → m ∈ s.won) ∧ (m ∈ t.used → m ∈ s.used) ∧
      (m ∈ t.lost → m ∈ s.lost) ∧ (m ∈ t.returned → m ∈ s.returned)) : Ok t p := by
  cases p with
  | idle => trivial
  | read o => exact h.trans (Finset.card_le_card hlost)
  | ticket o m =>
    obtain ⟨ho, hw, hl, hm⟩ := h
    obtain ⟨hw', -, hl', -⟩ := hnew m rfl
    exact ⟨ho.trans (Finset.card_le_card (Finset.filter_subset_filter _ hlost)), mt hw' hw,
      mt hl' hl, hm.trans_le htickets⟩
  | granted m => exact ⟨hwon h.1, mt (hnew m rfl).2.1 h.2⟩
  | refused m => exact ⟨hlost h.1, mt (hnew m rfl).2.2.2 h.2⟩
  | claimed i => exact Nat.lt_of_lt_of_le h hclaims

theorem Inv.produce (h : Inv s) : Inv s.produce := by
  refine { h with won_le := ?_, ok := h.ok }
  intro m hm
  have := h.won_le m hm
  simp only [State.produce, lostBelow] at this ⊢
  omega

variable [DecidableEq ι]

/-- Taker `c` moves to phase `p`: at most the newest ticket and the newest index are new. -/
theorem Inv.move {t : State ι} {p : Phase} (h : Inv s)
    (hphase : t.phase = Function.update s.phase c p) (hp : Ok t p)
    (hother : ∀ c', c' ≠ c → Ok t (s.phase c'))
    (hn : ∀ m, p.number = some m → (s.phase c).number = some m ∨ m = s.tickets)
    (hi : ∀ i, p = .claimed i → i = s.claims) :
    (∀ c, Ok t (t.phase c)) ∧
      (∀ c c' m, (t.phase c).number = some m → (t.phase c').number = some m → c = c') ∧
      ∀ c c' i, t.phase c = .claimed i → t.phase c' = .claimed i → c = c' := by
  have hself : t.phase c = p := by simp [hphase]
  have hne : ∀ c', c' ≠ c → t.phase c' = s.phase c' := by
    intro c' hc'
    simp [hphase, Function.update_of_ne hc']
  -- nobody else holds what `c` holds now
  have hnumber : ∀ c' m, c' ≠ c → p.number = some m → (s.phase c').number ≠ some m := by
    intro c' m hc' hm hm'
    rcases hn m hm with hold | rfl
    · exact hc' (h.number_inj c' c m hm' hold)
    · exact (h.number_lt hm').false
  have hclaimed : ∀ c' i, p = .claimed i → s.phase c' ≠ .claimed i := by
    intro c' i hpi hc'
    obtain rfl := hi i hpi
    have hlt : Ok s (.claimed s.claims) := hc' ▸ h.ok c'
    exact Nat.lt_irrefl _ hlt
  refine ⟨?_, ?_, ?_⟩
  · intro c'
    rcases eq_or_ne c' c with rfl | hc'
    · exact hself ▸ hp
    · exact hne c' hc' ▸ hother c' hc'
  · intro c₁ c₂ m h₁ h₂
    rcases eq_or_ne c₁ c with he₁ | hc₁ <;> rcases eq_or_ne c₂ c with he₂ | hc₂
    · exact he₁.trans he₂.symm
    · exact (hnumber c₂ m hc₂ (hself ▸ he₁ ▸ h₁) (hne c₂ hc₂ ▸ h₂)).elim
    · exact (hnumber c₁ m hc₁ (hself ▸ he₂ ▸ h₂) (hne c₁ hc₁ ▸ h₁)).elim
    · exact h.number_inj c₁ c₂ m (hne c₁ hc₁ ▸ h₁) (hne c₂ hc₂ ▸ h₂)
  · intro c₁ c₂ i h₁ h₂
    rcases eq_or_ne c₁ c with he₁ | hc₁ <;> rcases eq_or_ne c₂ c with he₂ | hc₂
    · exact he₁.trans he₂.symm
    · exact (hclaimed c₂ i (hself ▸ he₁ ▸ h₁) (hne c₂ hc₂ ▸ h₂)).elim
    · exact (hclaimed c₁ i (hself ▸ he₂ ▸ h₂) (hne c₁ hc₁ ▸ h₁)).elim
    · exact h.claimed_inj c₁ c₂ i (hne c₁ hc₁ ▸ h₁) (hne c₂ hc₂ ▸ h₂)

/-- A move that touches no counter. -/
theorem Inv.goto {p : Phase} (h : Inv s) (hp : Ok s p)
    (hn : ∀ m, p.number = some m → (s.phase c).number = some m) (hi : ∀ i, p ≠ .claimed i) :
    Inv (s.goto c p) := by
  obtain ⟨hok, hnum, hcl⟩ := h.move (t := s.goto c p) rfl hp (fun c' _ => h.ok c')
    (fun m hm => .inl (hn m hm)) (fun i hpi => (hi i hpi).elim)
  exact { h with ok := hok, number_inj := hnum, claimed_inj := hcl }

theorem Inv.read (h : Inv s) (c : ι) : Inv (s.read c) := by
  unfold State.read
  split
  case h_1 hc =>
    refine h.goto ?_ (by simp [Phase.number]) (by simp)
    have := Finset.card_le_card h.returned_sub
    have := h.refusals_eq
    simp only [Ok]
    omega
  case h_2 => exact h

theorem Inv.leave (h : Inv s) (c : ι) : Inv (s.leave c) := by
  unfold State.leave
  split
  case h_1 hc => exact h.goto trivial (by simp [Phase.number]) (by simp)
  case h_2 => exact h

theorem Inv.release (h : Inv s) (c : ι) : Inv (s.release c) := by
  unfold State.release
  split
  case h_1 hc => exact h.goto trivial (by simp [Phase.number]) (by simp)
  case h_2 => exact h

theorem Inv.draw (h : Inv s) (c : ι) : Inv (s.draw c) := by
  unfold State.draw
  split
  case h_1 o hc =>
    have hread : Ok s (.read o) := hc ▸ h.ok c
    have hall : s.lost.filter (· < s.tickets) = s.lost := Finset.filter_true_of_mem h.lost_lt
    obtain ⟨hok, hnum, hcl⟩ := h.move (c := c) (p := .ticket o s.tickets)
      (t := { s.goto c (.ticket o s.tickets) with tickets := s.tickets + 1 }) rfl
      ⟨hread.trans_eq (congrArg Finset.card hall.symm), fun hw => (h.won_lt _ hw).false,
        fun hl => (h.lost_lt _ hl).false, Nat.lt_succ_self _⟩
      (fun c' _ => (h.ok c').mono (Finset.Subset.refl _) (Finset.Subset.refl _) (Nat.le_succ _)
        le_rfl fun m _ => ⟨id, id, id, id⟩)
      (by simp [Phase.number, eq_comm]) (by simp)
    exact { h with
      ok := hok
      number_inj := hnum
      claimed_inj := hcl
      won_lt := fun m hm => Nat.lt_succ_of_lt (h.won_lt m hm)
      lost_lt := fun m hm => Nat.lt_succ_of_lt (h.lost_lt m hm) }
  case h_2 => exact h

/-- A ticket within the items that are left may be granted. -/
theorem Inv.grant (h : Inv s) (hc : s.phase c = .ticket o m) (hm : m < o + s.produced) :
    Inv (s.grant c) := by
  obtain ⟨ho, hw, hl, hlt⟩ : Ok s (.ticket o m) := hc ▸ h.ok c
  have hcn : (s.phase c).number = some m := by simp [hc, Phase.number]
  have hused : m ∉ s.used := fun hu => hw (h.used_sub hu)
  simp only [State.grant, hc]
  obtain ⟨hok, hnum, hcl⟩ := h.move (c := c) (p := .granted m)
    (t := { s.goto c (.granted m) with won := insert m s.won }) rfl
    ⟨Finset.mem_insert_self _ _, hused⟩
    (fun c' hne => (h.ok c').mono (Finset.subset_insert _ _) (Finset.Subset.refl _) le_rfl le_rfl
      fun n hn => ⟨fun hmem => (Finset.mem_insert.mp hmem).resolve_left (h.number_ne hcn hne hn),
        id, id, id⟩)
    (by simp [hc, Phase.number]) (by simp)
  exact { h with
    ok := hok
    number_inj := hnum
    claimed_inj := hcl
    won_lt := by
      intro n hn
      rcases Finset.mem_insert.mp hn with rfl | hn
      · exact hlt
      · exact h.won_lt n hn
    disjoint := Finset.disjoint_insert_left.mpr ⟨hl, h.disjoint⟩
    used_sub := h.used_sub.trans (Finset.subset_insert _ _)
    won_le := by
      intro n hn
      rcases Finset.mem_insert.mp hn with rfl | hn
      · exact Nat.lt_of_lt_of_le hm (Nat.add_comm o _ ▸ Nat.add_le_add_left ho _)
      · exact h.won_le n hn }

theorem Inv.refuse (h : Inv s) (c : ι) : Inv (s.refuse c) := by
  unfold State.refuse
  split
  case h_1 o m hc =>
    obtain ⟨ho, hw, hl, hlt⟩ : Ok s (.ticket o m) := hc ▸ h.ok c
    have hcn : (s.phase c).number = some m := by simp [hc, Phase.number]
    have hreturned : m ∉ s.returned := fun hr => hl (h.returned_sub hr)
    obtain ⟨hok, hnum, hcl⟩ := h.move (c := c) (p := .refused m)
      (t := { s.goto c (.refused m) with lost := insert m s.lost }) rfl
      ⟨Finset.mem_insert_self _ _, hreturned⟩
      (fun c' hne => (h.ok c').mono (Finset.Subset.refl _) (Finset.subset_insert _ _) le_rfl le_rfl
        fun n hn => ⟨id, id,
          fun hmem => (Finset.mem_insert.mp hmem).resolve_left (h.number_ne hcn hne hn), id⟩)
      (by simp [hc, Phase.number]) (by simp)
    exact { h with
      ok := hok
      number_inj := hnum
      claimed_inj := hcl
      lost_lt := by
        intro n hn
        rcases Finset.mem_insert.mp hn with rfl | hn
        · exact hlt
        · exact h.lost_lt n hn
      disjoint := Finset.disjoint_insert_right.mpr ⟨hw, h.disjoint⟩
      returned_sub := h.returned_sub.trans (Finset.subset_insert _ _)
      won_le := by
        intro n hn
        have hsub : lostBelow s n ⊆ (insert m s.lost).filter (· < n) :=
          Finset.filter_subset_filter _ (Finset.subset_insert _ _)
        exact (h.won_le n hn).trans_le (Nat.add_le_add_left (Finset.card_le_card hsub) _) }
  case h_2 => exact h

theorem Inv.claim (h : Inv s) (c : ι) : Inv (s.claim c) := by
  unfold State.claim
  split
  case h_1 m hc =>
    obtain ⟨hw, hu⟩ : Ok s (.granted m) := hc ▸ h.ok c
    have hcn : (s.phase c).number = some m := by simp [hc, Phase.number]
    obtain ⟨hok, hnum, hcl⟩ := h.move (c := c) (p := .claimed s.claims)
      (t := { s.goto c (.claimed s.claims) with
        claims := s.claims + 1, used := insert m s.used }) rfl (Nat.lt_succ_self _)
      (fun c' hne => (h.ok c').mono (Finset.Subset.refl _) (Finset.Subset.refl _) le_rfl
        (Nat.le_succ _) fun n hn => ⟨id,
          fun hmem => (Finset.mem_insert.mp hmem).resolve_left (h.number_ne hcn hne hn), id, id⟩)
      (by simp [Phase.number]) (by simp [eq_comm])
    exact { h with
      ok := hok
      number_inj := hnum
      claimed_inj := hcl
      used_sub := Finset.insert_subset hw h.used_sub
      claims_eq := by
        rw [Finset.card_insert_of_notMem hu, ← h.claims_eq] }
  case h_2 => exact h

theorem Inv.giveBack (h : Inv s) (c : ι) : Inv (s.giveBack c) := by
  unfold State.giveBack
  split
  case h_1 m hc =>
    obtain ⟨hl, hr⟩ : Ok s (.refused m) := hc ▸ h.ok c
    have hcn : (s.phase c).number = some m := by simp [hc, Phase.number]
    obtain ⟨hok, hnum, hcl⟩ := h.move (c := c) (p := .idle)
      (t := { s.goto c .idle with
        refusals := s.refusals + 1, returned := insert m s.returned }) rfl trivial
      (fun c' hne => (h.ok c').mono (Finset.Subset.refl _) (Finset.Subset.refl _) le_rfl le_rfl
        fun n hn => ⟨id, id, id,
          fun hmem => (Finset.mem_insert.mp hmem).resolve_left (h.number_ne hcn hne hn)⟩)
      (by simp [Phase.number]) (by simp)
    exact { h with
      ok := hok
      number_inj := hnum
      claimed_inj := hcl
      returned_sub := Finset.insert_subset hl h.returned_sub
      refusals_eq := by
        rw [Finset.card_insert_of_notMem hr, ← h.refusals_eq] }
  case h_2 => exact h

/-! ### A single taker -/

/-- With nobody else around the counters are exact. -/
def Exact (s : State ι) : Phase → Prop
  | .idle => s.tickets = s.claims + s.refusals
  | .read o => o = s.refusals ∧ s.tickets = s.claims + s.refusals
  | .ticket o m =>
    o = s.refusals ∧ m = s.claims + s.refusals ∧ s.tickets = s.claims + s.refusals + 1
  | .granted _ | .refused _ => s.tickets = s.claims + s.refusals + 1
  | .claimed i => i + 1 = s.claims ∧ s.tickets = s.claims + s.refusals

def Solo (s : State ι) : Prop := ∀ c, Exact s (s.phase c)

omit [DecidableEq ι] in
theorem solo_initial : Solo (State.initial : State ι) := fun _ => rfl

omit [DecidableEq ι] in
theorem Solo.produce (h : Solo s) : Solo s.produce := h

variable [Subsingleton ι]

omit [DecidableEq ι] in
theorem Solo.of_self (h : Exact s (s.phase c)) : Solo s := by
  intro c'
  obtain rfl := Subsingleton.elim c' c
  exact h

theorem Solo.read (h : Solo s) (c : ι) : Solo (s.read c) := by
  have hc := h c
  apply Solo.of_self (c := c)
  unfold State.read
  split <;> simp_all [State.goto, Exact]

theorem Solo.leave (h : Solo s) (c : ι) : Solo (s.leave c) := by
  have hc := h c
  apply Solo.of_self (c := c)
  unfold State.leave
  split <;> simp_all [State.goto, Exact]

theorem Solo.draw (h : Solo s) (c : ι) : Solo (s.draw c) := by
  have hc := h c
  apply Solo.of_self (c := c)
  unfold State.draw
  split <;> simp_all [State.goto, Exact]

theorem Solo.grant (h : Solo s) (c : ι) : Solo (s.grant c) := by
  have hc := h c
  apply Solo.of_self (c := c)
  unfold State.grant
  split <;> simp_all [State.goto, Exact]

theorem Solo.refuse (h : Solo s) (c : ι) : Solo (s.refuse c) := by
  have hc := h c
  apply Solo.of_self (c := c)
  unfold State.refuse
  split <;> simp_all [State.goto, Exact]

theorem Solo.claim (h : Solo s) (c : ι) : Solo (s.claim c) := by
  have hc := h c
  apply Solo.of_self (c := c)
  unfold State.claim
  split <;> simp_all [State.goto, Exact]
  omega

theorem Solo.giveBack (h : Solo s) (c : ι) : Solo (s.giveBack c) := by
  have hc := h c
  apply Solo.of_self (c := c)
  unfold State.giveBack
  split <;> simp_all [State.goto, Exact]
  omega

theorem Solo.release (h : Solo s) (c : ι) : Solo (s.release c) := by
  have hc := h c
  apply Solo.of_self (c := c)
  unfold State.release
  split <;> simp_all [State.goto, Exact]

end Tickets
