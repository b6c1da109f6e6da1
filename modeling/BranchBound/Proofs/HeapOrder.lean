import Mathlib
import BranchBound.Heap

/-!
# Heaps stay heaps

The operations of `BranchBound.Heap` rearrange entries and keep the first one
first.  Both are shown for an arbitrary relation `before`; order needs it to be a
strict weak order.

An entry that is being moved is a *hole*: every pair of a child and its parent that does
not touch the hole is in order, and the children of the hole come no earlier than
its parent.  Rising and sinking move the hole and keep this; where they stop, the
pairs at the hole are in order as well.  The range `lo`, `hi` restricts the pairs:
sinking builds heaps from the last parent down, rising extends a heap at its end.
-/

namespace BranchBound.Heap

variable {β : Type} {n : Nat} {before : β → β → Bool}

/-! ## Rearrangement -/

section Rearrangement

variable (before)

theorem rise_perm (v : Vector β n) (i : Nat) (h : i < n) : Vector.Perm (rise before v i h) v := by
  fun_induction rise before v i h with
  | case1 v i h hpos hb ih => exact ih.trans (Vector.swap_perm _ _)
  | case2 v i h hpos hb => exact .rfl
  | case3 v i h hpos => exact .rfl

theorem sinkAndRise_perm (v : Vector β n) (i : Nat) (h : i < n) :
    Vector.Perm (sinkAndRise before v i h) v := by
  fun_induction sinkAndRise before v i h with
  | case1 v i h hc => exact rise_perm before v i h
  | case2 v i h c hc hlt ih => exact ih.trans (Vector.swap_perm _ _)

theorem sink_perm (v : Vector β n) (i : Nat) (h : i < n) : Vector.Perm (sink before v i h) v := by
  fun_induction sink before v i h with
  | case1 v i h hc => exact .rfl
  | case2 v i h c hc hlt hb ih => exact ih.trans (Vector.swap_perm _ _)
  | case3 v i h c hc hlt hb => exact .rfl

theorem sinkAll_perm (count : Nat) (v : Vector β n) :
    Vector.Perm (sinkAll before count v) v := by
  induction count generalizing v with
  | zero => exact .rfl
  | succ count ih =>
      rw [sinkAll]
      refine (ih _).trans ?_
      split
      · exact sink_perm before v count ‹_›
      · exact .rfl

theorem riseAll_perm (count : Nat) (v : Vector β n) :
    Vector.Perm (riseAll before count v) v := by
  induction count generalizing v with
  | zero => exact .rfl
  | succ count ih =>
      rw [riseAll]
      refine (ih _).trans ?_
      split
      · exact rise_perm before v _ ‹_›
      · exact .rfl

theorem push_perm (a : Array β) (x : β) : (push before a x).toList.Perm (x :: a.toList) := by
  have h := (rise_perm before (a.push x).toVector a.size (by simp)).toList
  refine h.trans ?_
  simp

theorem restore_perm (a : Array β) (start : Nat) :
    (restore before a start).toList.Perm a.toList := by
  unfold restore
  split
  · exact .refl _
  · split
    · exact (sinkAll_perm before _ a.toVector).toList
    · exact (riseAll_perm before _ a.toVector).toList

theorem filter_perm (keep : β → Bool) (a : Array β) :
    (filter before keep a).toList.Perm (a.toList.filter keep) := by
  have h := restore_perm before (a.filter keep) (a.toList.takeWhile keep).length
  rwa [Array.toList_filter] at h

end Rearrangement

theorem pop?_eq_none_iff {a : Array β} : pop? before a = none ↔ a = #[] := by
  unfold pop?
  cases hb : a.back? with
  | none => simpa using hb
  | some last =>
      have hne : a ≠ #[] := by
        rintro rfl
        simp at hb
      simp only [hne, iff_false]
      split <;> simp

/-- What `pop?` does to the entries: the last one is put in place of the first. -/
theorem pop?_cases {a rest : Array β} {x : β} (h : pop? before a = some (x, rest)) :
    ∃ (front : Array β) (last : β), a = front.push last ∧
      ((∃ hpos : 0 < front.size, x = front[0] ∧
          rest = (sinkAndRise before (front.toVector.set 0 last hpos) 0 hpos).toArray) ∨
        front = #[] ∧ x = last ∧ rest = #[]) := by
  unfold pop? at h
  cases hb : a.back? with
  | none => simp [hb] at h
  | some last =>
      obtain ⟨front, rfl⟩ := Array.back?_eq_some_iff.mp hb
      simp only [hb] at h
      generalize hpop : (front.push last).pop = f at h
      rw [Array.pop_push] at hpop
      subst hpop
      refine ⟨front, last, rfl, ?_⟩
      by_cases hpos : 0 < front.size
      · rw [dif_pos hpos] at h
        obtain ⟨rfl, rfl⟩ := Prod.mk.inj (Option.some.inj h)
        exact Or.inl ⟨hpos, rfl, rfl⟩
      · rw [dif_neg hpos] at h
        obtain ⟨rfl, rfl⟩ := Prod.mk.inj (Option.some.inj h)
        have hnil : front = #[] := Array.eq_empty_of_size_eq_zero (by omega)
        exact Or.inr ⟨hnil, rfl, hnil⟩

theorem pop?_perm {a rest : Array β} {x : β} (h : pop? before a = some (x, rest)) :
    a.toList.Perm (x :: rest.toList) := by
  obtain ⟨front, last, rfl, ⟨hpos, hx, hrest⟩ | ⟨rfl, rfl, rfl⟩⟩ := pop?_cases h
  · have hperm := (sinkAndRise_perm before (front.toVector.set 0 last hpos) 0 hpos).toList
    rcases front with ⟨_ | ⟨y, ys⟩⟩
    · simp at hpos
    · have hxy : x = y := hx
      have hset : (((y :: ys).toArray).toVector.set 0 last hpos).toList = last :: ys := by
        simp
      rw [hset] at hperm
      rw [Array.toList_push, hrest, hxy]
      refine List.Perm.cons y ?_
      exact (List.perm_append_singleton last ys).trans hperm.symm
  · simp

/-! ## Order -/

/-- A strict weak order: it is asymmetric, and coming no earlier is transitive. -/
structure IsWeakOrder (before : β → β → Bool) : Prop where
  asymm {a b : β} : before a b = true → before b a = false
  trans {a b c : β} : before b a = false → before c b = false → before c a = false

theorem parent_lt {i : Nat} (h : i < n) : (i - 1) / 2 < n := by
  omega

/-- Every entry in the range whose parent is at `lo` or behind it comes no earlier
than its parent. -/
def Ordered (before : β → β → Bool) (v : Vector β n) (lo hi : Nat) : Prop :=
  ∀ j (hj : j < n), 0 < j → lo ≤ (j - 1) / 2 → j < hi →
    before v[j] (getElem v ((j - 1) / 2) (parent_lt hj)) = false

/-- Order up to a hole at `i`. -/
structure OrderedExcept (before : β → β → Bool) (v : Vector β n) (lo hi i : Nat) :
    Prop where
  /-- Pairs that do not touch the hole are in order. -/
  off : ∀ j (hj : j < n), 0 < j → lo ≤ (j - 1) / 2 → j < hi → j ≠ i → (j - 1) / 2 ≠ i →
    before v[j] (getElem v ((j - 1) / 2) (parent_lt hj)) = false
  /-- Children of the hole come no earlier than its parent. -/
  across : ∀ j (hj : j < n), 0 < i → lo ≤ (i - 1) / 2 → 0 < j → j < hi →
    (hp : (j - 1) / 2 = i) → before v[j] v[(i - 1) / 2] = false

/-- No child in the range comes before the hole. -/
def Below (before : β → β → Bool) (v : Vector β n) (hi i : Nat) : Prop :=
  ∀ j (hj : j < n), 0 < j → j < hi → (hp : (j - 1) / 2 = i) →
    before v[j] v[(j - 1) / 2] = false

/-- The hole comes no earlier than its parent. -/
def Above (before : β → β → Bool) (v : Vector β n) (lo i : Nat) : Prop :=
  ∀ h : i < n, 0 < i → lo ≤ (i - 1) / 2 →
    before v[i] (getElem v ((i - 1) / 2) (parent_lt h)) = false

/-- Where nothing is wrong at the hole, there is none. -/
theorem OrderedExcept.ordered {v : Vector β n} {lo hi i : Nat}
    (hexcept : OrderedExcept before v lo hi i)
    (habove : Above before v lo i) (hbelow : Below before v hi i) :
    Ordered before v lo hi := by
  intro j hj hpos hlo hhi
  by_cases hji : j = i
  · subst hji
    exact habove hj hpos hlo
  · by_cases hp : (j - 1) / 2 = i
    · exact hbelow j hj hpos hhi hp
    · exact hexcept.off j hj hpos hlo hhi hji hp

theorem Ordered.orderedExcept {v : Vector β n} {lo hi : Nat}
    (hordered : Ordered before v (lo + 1) hi) :
    OrderedExcept before v lo hi lo where
  off j hj hpos hlo hhi hji hp := hordered j hj hpos (by omega) hhi
  across j hj hpos hlo hj' hhi hp := by omega

/-! ### Rising -/

/-- Swapping the hole with its parent, which it comes before, moves the hole up. -/
theorem OrderedExcept.swap_parent (horder : IsWeakOrder before) {v : Vector β n}
    {hi i p : Nat} (h : i < n) (hpos : 0 < i) (hp : p = (i - 1) / 2) (hpn : p < n)
    (hexcept : OrderedExcept before v 0 hi i) (hhi : i < hi)
    (hb : before v[i] v[p] = true) :
    OrderedExcept before (v.swap i p h hpn) 0 hi p ∧ Below before (v.swap i p h hpn) hi p := by
  have hpi : p < i := by omega
  -- Siblings of the hole come no earlier than the parent it trades places with.
  have hsibling : ∀ j (hj : j < n), 0 < j → j < hi → j ≠ i → (j - 1) / 2 = p →
      before v[j] v[p] = false := by
    intro j hj hj0 hjhi hji hjp
    have hoff := hexcept.off j hj hj0 (Nat.zero_le _) hjhi hji (by omega)
    simpa only [hjp] using hoff
  refine ⟨⟨?_, ?_⟩, ?_⟩
  · intro j hj hj0 _ hjhi hjp hpp
    have hji : j ≠ i := by omega
    rw [Vector.getElem_swap_of_ne hji hjp]
    by_cases hpj : (j - 1) / 2 = i
    · have hacross := hexcept.across j hj hpos (Nat.zero_le _) hj0 hjhi hpj
      simpa [hpj, ← hp] using hacross
    · rw [Vector.getElem_swap_of_ne hpj hpp]
      exact hexcept.off j hj hj0 (Nat.zero_le _) hjhi hji hpj
  · intro j hj hp0 _ hj0 hjhi hjp
    have hup : before v[p] v[(p - 1) / 2] = false :=
      hexcept.off p hpn hp0 (Nat.zero_le _) (by omega) (by omega) (by omega)
    rw [Vector.getElem_swap_of_ne (k := (p - 1) / 2) (by omega) (by omega)]
    by_cases hji : j = i
    · subst hji
      rwa [Vector.getElem_swap_left]
    · rw [Vector.getElem_swap_of_ne hji (by omega)]
      exact horder.trans hup (hsibling j hj hj0 hjhi hji hjp)
  · intro j hj hj0 hjhi hjp
    simp only [hjp, Vector.getElem_swap_right]
    by_cases hji : j = i
    · subst hji
      rw [Vector.getElem_swap_left]
      exact horder.asymm hb
    · rw [Vector.getElem_swap_of_ne hji (by omega)]
      exact horder.trans (horder.asymm hb) (hsibling j hj hj0 hjhi hji hjp)

/-- Rising from a hole without earlier children leaves the range in order. -/
theorem rise_ordered (horder : IsWeakOrder before) (v : Vector β n) (i : Nat) (h : i < n)
    {hi : Nat} (hhi : i < hi) (hexcept : OrderedExcept before v 0 hi i)
    (hbelow : Below before v hi i) :
    Ordered before (rise before v i h) 0 hi := by
  fun_induction rise before v i h with
  | case1 v i h hpos hb ih =>
      obtain ⟨hexcept', hbelow'⟩ :=
        hexcept.swap_parent horder h hpos rfl (by omega) hhi hb
      exact ih (by omega) hexcept' hbelow'
  | case2 v i h hpos hb =>
      refine hexcept.ordered ?_ hbelow
      intro _ _ _
      exact Bool.not_eq_true _ ▸ hb
  | case3 v i h hpos =>
      refine hexcept.ordered ?_ hbelow
      intro _ h0 _
      exact absurd h0 hpos

/-! ### Sinking -/

theorem child?_eq_none {v : Vector β n} {i : Nat} (h : child? before v i = none) {j : Nat}
    (hj : j < n) (hj0 : 0 < j) : (j - 1) / 2 ≠ i := by
  unfold child? at h
  split at h
  · split at h <;> cases h
  · split at h
    · cases h
    · omega

/-- The child that is to go up is a child, and no other child comes before it. -/
theorem child?_eq_some (horder : IsWeakOrder before) {v : Vector β n} {i : Nat} {c : Fin n}
    (h : child? before v i = some c) :
    (c.val - 1) / 2 = i ∧ 0 < c.val ∧
      ∀ j (hj : j < n), 0 < j → (j - 1) / 2 = i → before v[j] v[c.val] = false := by
  have hirrefl : ∀ x : β, before x x = false := by
    intro x
    cases hx : before x x with
    | false => rfl
    | true => exact hx ▸ horder.asymm hx
  unfold child? at h
  split at h
  next h2 =>
    split at h
    next hb =>
      obtain rfl := Option.some.inj h
      refine ⟨by simp only; omega, by simp only; omega, ?_⟩
      intro j hj hj0 hji
      have hcases : j = 2 * i + 1 ∨ j = 2 * i + 2 := by omega
      rcases hcases with rfl | rfl
      · exact hirrefl _
      · exact horder.asymm hb
    next hb =>
      obtain rfl := Option.some.inj h
      refine ⟨by simp only; omega, by simp only; omega, ?_⟩
      intro j hj hj0 hji
      have hcases : j = 2 * i + 1 ∨ j = 2 * i + 2 := by omega
      rcases hcases with rfl | rfl
      · exact Bool.not_eq_true _ ▸ hb
      · exact hirrefl _
  next h2 =>
    split at h
    next h1 =>
      obtain rfl := Option.some.inj h
      refine ⟨by simp only; omega, by simp only; omega, ?_⟩
      intro j hj hj0 hji
      obtain rfl : j = 2 * i + 1 := by omega
      exact hirrefl _
    next h1 => cases h

/-- Swapping the hole with its first child moves the hole down. -/
theorem OrderedExcept.swap_child (horder : IsWeakOrder before) {v : Vector β n}
    {lo i : Nat} (h : i < n) {c : Fin n} (hc : child? before v i = some c) (hlo : lo ≤ i)
    (hexcept : OrderedExcept before v lo n i) :
    OrderedExcept before (v.swap i c.val h c.isLt) lo n c.val := by
  obtain ⟨hci, hc0, hfirst⟩ := child?_eq_some horder hc
  have hlt : i < c.val := lt_of_child? hc
  refine ⟨?_, ?_⟩
  · intro j hj hj0 hjlo _ hjc hpc
    by_cases hji : j = i
    · subst hji
      rw [Vector.getElem_swap_left, Vector.getElem_swap_of_ne (by omega) hpc]
      exact hexcept.across c.val c.isLt hj0 hjlo hc0 c.isLt hci
    · rw [Vector.getElem_swap_of_ne hji hjc]
      by_cases hpi : (j - 1) / 2 = i
      · simpa [hpi] using hfirst j hj hj0 hpi
      · rw [Vector.getElem_swap_of_ne hpi hpc]
        exact hexcept.off j hj hj0 hjlo hj hji hpi
  · intro j hj _ _ hj0 _ hjc
    have hoff := hexcept.off j hj hj0 (by omega) hj (by omega) (by omega)
    rw [Vector.getElem_swap_of_ne (by omega) (by omega)]
    simpa [hci, hjc] using hoff

/-- Sinking to a leaf and rising again leaves a heap. -/
theorem sinkAndRise_ordered (horder : IsWeakOrder before) (v : Vector β n) (i : Nat)
    (h : i < n) (hexcept : OrderedExcept before v 0 n i) :
    Ordered before (sinkAndRise before v i h) 0 n := by
  fun_induction sinkAndRise before v i h with
  | case1 v i h hc =>
      refine rise_ordered horder v i h h hexcept ?_
      intro j hj hj0 _ hji
      exact absurd hji (child?_eq_none hc hj hj0)
  | case2 v i h c hc hlt ih =>
      exact ih (hexcept.swap_child horder h hc (Nat.zero_le i))

/-- Sinking from a hole that is not before its parent leaves the range in
order. -/
theorem sink_ordered (horder : IsWeakOrder before) (v : Vector β n) (i : Nat) (h : i < n)
    {lo : Nat} (hlo : lo ≤ i) (hexcept : OrderedExcept before v lo n i)
    (habove : Above before v lo i) :
    Ordered before (sink before v i h) lo n := by
  fun_induction sink before v i h with
  | case1 v i h hc =>
      refine hexcept.ordered habove ?_
      intro j hj hj0 _ hji
      exact absurd hji (child?_eq_none hc hj hj0)
  | case2 v i h c hc hlt hb ih =>
      refine ih (by omega) (hexcept.swap_child horder h hc hlo) ?_
      intro _ _ _
      obtain ⟨hci, -, -⟩ := child?_eq_some horder hc
      have hup : before v[i] v[c.val] = false := horder.asymm hb
      simpa [hci] using hup
  | case3 v i h c hc hlt hb =>
      refine hexcept.ordered habove ?_
      intro j hj hj0 _ hji
      obtain ⟨-, -, hfirst⟩ := child?_eq_some horder hc
      have hci : before (v.get c) v[i] = false := Bool.not_eq_true _ ▸ hb
      simpa [hji] using horder.trans hci (hfirst j hj hj0 hji)

/-! ### Heaps -/

/-- Every entry comes no earlier than its parent. -/
def IsHeap (before : β → β → Bool) (a : Array β) : Prop :=
  Ordered before a.toVector 0 a.size

theorem isHeap_empty : IsHeap before (#[] : Array β) := by
  intro j hj
  simp at hj

/-- No entry of a heap comes before the first one. -/
theorem IsHeap.first_le (horder : IsWeakOrder before) {a : Array β} (ha : IsHeap before a)
    (j : Nat) (hj : j < a.size) : before a[j] a[0] = false := by
  induction j using Nat.strongRecOn with
  | ind j ih =>
      by_cases hj0 : j = 0
      · subst hj0
        cases hx : before a[0] a[0] with
        | false => rfl
        | true => exact hx ▸ horder.asymm hx
      · have hparent := ih ((j - 1) / 2) (by omega) (by omega)
        exact horder.trans hparent (ha j hj (by omega) (Nat.zero_le _) hj)

theorem sinkAll_ordered (horder : IsWeakOrder before) (count : Nat) (v : Vector β n)
    (hordered : Ordered before v count n) : Ordered before (sinkAll before count v) 0 n := by
  induction count generalizing v with
  | zero => exact hordered
  | succ count ih =>
      rw [sinkAll]
      apply ih
      split
      · refine sink_ordered horder v count ‹_› (Nat.le_refl count) hordered.orderedExcept ?_
        intro _ _ hlo
        omega
      · intro j hj hj0 hlo hhi
        omega

theorem riseAll_ordered (horder : IsWeakOrder before) (count : Nat) (hcount : count ≤ n)
    (v : Vector β n) (hordered : Ordered before v 0 (n - count)) :
    Ordered before (riseAll before count v) 0 n := by
  induction count generalizing v with
  | zero => exact hordered
  | succ count ih =>
      rw [riseAll, dif_pos (by omega)]
      apply ih (by omega)
      have hnext : n - count = n - (count + 1) + 1 := by omega
      rw [hnext]
      -- The entry at the end of the prefix has no children in it.
      apply rise_ordered horder v _ _ (Nat.lt_succ_self _)
      · exact ⟨fun j hj hj0 hlo hhi hji hp => hordered j hj hj0 hlo (by omega),
          fun j hj _ _ hj0 hhi hp => by omega⟩
      · intro j hj hj0 hhi hp
        omega

theorem Ordered.isHeap {v : Vector β n} (hordered : Ordered before v 0 n) :
    IsHeap before v.toArray := by
  rcases v with ⟨a, rfl⟩
  exact hordered

theorem isHeap_push (horder : IsWeakOrder before) {a : Array β} (ha : IsHeap before a)
    (x : β) : IsHeap before (push before a x) := by
  have hsize : (a.push x).size = a.size + 1 := Array.size_push x
  refine (rise_ordered horder _ _ _ (by simp) ⟨?_, ?_⟩ ?_).isHeap
  · intro j hj hj0 hlo hhi hja hp
    have hj' : j < a.size := by omega
    have hp' : (j - 1) / 2 < a.size := by omega
    simpa [Array.getElem_push, hj', hp'] using ha j hj' hj0 hlo hj'
  · intro j hj _ _ _ _ hp
    omega
  · intro j hj _ _ hp
    omega

theorem isHeap_pop? (horder : IsWeakOrder before) {a rest : Array β} {x : β}
    (ha : IsHeap before a) (h : pop? before a = some (x, rest)) : IsHeap before rest := by
  obtain ⟨front, last, rfl, ⟨hpos, -, rfl⟩ | ⟨rfl, -, rfl⟩⟩ := pop?_cases h
  · refine (sinkAndRise_ordered horder _ 0 hpos ⟨?_, ?_⟩).isHeap
    · intro j hj hj0 _ _ _ hp
      have hp' : (j - 1) / 2 < front.size := by omega
      have hpair := ha j (by simp; omega) hj0 (Nat.zero_le _) (by simp; omega)
      rw [Vector.getElem_set_ne _ _ (by omega), Vector.getElem_set_ne _ _ (by omega)]
      simpa [Array.getElem_push, hj, hp'] using hpair
    · intro j hj h0
      omega
  · exact isHeap_empty

/-- The first entry of a heap is the one that is taken. -/
theorem pop?_first {a rest : Array β} {x : β} (h : pop? before a = some (x, rest)) :
    a[0]? = some x := by
  obtain ⟨front, last, rfl, ⟨hpos, rfl, -⟩ | ⟨rfl, rfl, -⟩⟩ := pop?_cases h
  · rw [Array.getElem?_push_lt hpos]
  · rfl

theorem restore_isHeap (horder : IsWeakOrder before) (a : Array β) (start : Nat)
    (hstart : Ordered before a.toVector 0 start) : IsHeap before (restore before a start) := by
  unfold restore
  split
  next hle =>
    intro j hj hj0 hlo hhi
    exact hstart j hj hj0 hlo (by omega)
  next hlt =>
    split
    · refine (sinkAll_ordered horder _ _ ?_).isHeap
      intro j hj hj0 hlo hhi
      omega
    · refine (riseAll_ordered horder _ (by omega) _ ?_).isHeap
      rwa [show a.size - (a.size - start) = start by omega]

/-- The entries in front of the first one that is dropped stay where they are. -/
theorem getElem?_filter_of_lt_takeWhile (keep : β → Bool) (l : List β) {j : Nat}
    (hj : j < (l.takeWhile keep).length) : (l.filter keep)[j]? = l[j]? := by
  induction l generalizing j with
  | nil => simp at hj
  | cons x l ih =>
      by_cases hx : keep x = true
      · rw [List.takeWhile_cons_of_pos hx, List.length_cons] at hj
        rw [List.filter_cons_of_pos hx]
        cases j with
        | zero => rfl
        | succ j =>
            rw [List.getElem?_cons_succ, List.getElem?_cons_succ]
            exact ih (by omega)
      · rw [List.takeWhile_cons_of_neg hx] at hj
        simp at hj

theorem isHeap_filter (horder : IsWeakOrder before) (keep : β → Bool) {a : Array β}
    (ha : IsHeap before a) : IsHeap before (filter before keep a) := by
  apply restore_isHeap horder
  intro j hj hj0 hlo hhi
  have hstays : ∀ i, i < (a.toList.takeWhile keep).length → ∀ (hi : i < (a.filter keep).size)
      (hi' : i < a.size), (a.filter keep)[i] = a[i] := by
    intro i hi hif hia
    have hget := getElem?_filter_of_lt_takeWhile keep a.toList hi
    rw [← Array.toList_filter, Array.getElem?_toList, Array.getElem?_toList,
      Array.getElem?_eq_getElem hif, Array.getElem?_eq_getElem hia] at hget
    exact Option.some.inj hget
  have hlen : (a.toList.takeWhile keep).length ≤ a.size :=
    (List.takeWhile_prefix keep).length_le
  have hja : j < a.size := by omega
  have hpair := ha j hja hj0 hlo hja
  change before a[j] a[(j - 1) / 2] = false at hpair
  change before (a.filter keep)[j] (a.filter keep)[(j - 1) / 2] = false
  rwa [hstays j hhi hj hja, hstays ((j - 1) / 2) (by omega) (by omega) (by omega)]

end BranchBound.Heap
