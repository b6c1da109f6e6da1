import BranchBound.Frontier
import BranchBound.Proofs.HeapOrder
import BranchBound.Proofs.LawfulScalar

/-!
# Open nodes

The frontier seen as a list of open nodes.  Adding a node, taking the next one and
pruning change that list as one expects, up to its order, whichever way the nodes
are kept.  The heap is in order throughout, so the least bound that the frontier
reports is at most the bound of every open node.
-/

namespace BranchBound
namespace Frontier

variable {α : Type}

/-- The open nodes, in the order in which they are stored. -/
def openNodes (f : Frontier α) : List (Node α) :=
  f.nodes.toList

@[simp] theorem openNodes_empty (selection : NodeSelection) :
    (empty selection : Frontier α).openNodes = [] :=
  rfl

theorem isEmpty_iff {f : Frontier α} : f.isEmpty = true ↔ f.openNodes = [] := by
  simp [isEmpty, openNodes]

variable [Scalar α]

theorem push_perm (f : Frontier α) (n : Node α) :
    (f.push n).openNodes.Perm (n :: f.openNodes) := by
  unfold push openNodes
  cases f.selection with
  | bestBound => exact Heap.push_perm before f.nodes n
  | depthFirst => simp

/-- After a split the two halves are open as well. -/
theorem push_push_perm (f : Frontier α) (up down : Node α) :
    ((f.push up).push down).openNodes.Perm (down :: up :: f.openNodes) :=
  (push_perm _ down).trans ((push_perm f up).cons down)

theorem pop?_perm {f g : Frontier α} {n : Node α} (h : f.pop? = some (n, g)) :
    f.openNodes.Perm (n :: g.openNodes) := by
  unfold pop? at h
  split at h
  · obtain ⟨popped, hp, heq⟩ := Option.map_eq_some_iff.mp h
    obtain ⟨rfl, rfl⟩ := Prod.mk.inj heq
    exact Heap.pop?_perm hp
  · obtain ⟨last, hlast, heq⟩ := Option.map_eq_some_iff.mp h
    obtain ⟨rfl, rfl⟩ := Prod.mk.inj heq
    obtain ⟨front, hfront⟩ := Array.back?_eq_some_iff.mp hlast
    simp [openNodes, hfront]

theorem pop?_eq_none_iff {f : Frontier α} : f.pop? = none ↔ f.openNodes = [] := by
  unfold pop? openNodes
  cases f.selection with
  | bestBound => simp [Heap.pop?_eq_none_iff]
  | depthFirst => simp

theorem prune_perm (f : Frontier α) (i : Incumbent α) :
    (f.prune i).openNodes.Perm (f.openNodes.filter fun n => !n.canPrune i) := by
  unfold prune openNodes
  cases f.selection with
  | bestBound => exact Heap.filter_perm before _ f.nodes
  | depthFirst => simp

theorem size_push_push (f : Frontier α) (up down : Node α) :
    ((f.push up).push down).size = f.size + 2 :=
  (push_push_perm f up down).length_eq

theorem size_prune_le (f : Frontier α) (i : Incumbent α) : (f.prune i).size ≤ f.size :=
  (prune_perm f i).length_eq.trans_le (List.length_filter_le _ f.openNodes)

@[simp] theorem push_selection (f : Frontier α) (n : Node α) :
    (f.push n).selection = f.selection := by
  unfold push
  split <;> rfl

theorem pop?_selection {f g : Frontier α} {n : Node α} (h : f.pop? = some (n, g)) :
    g.selection = f.selection := by
  unfold pop? at h
  split at h
  · obtain ⟨_, _, heq⟩ := Option.map_eq_some_iff.mp h
    rw [← (Prod.mk.inj heq).2]
  · obtain ⟨_, _, heq⟩ := Option.map_eq_some_iff.mp h
    rw [← (Prod.mk.inj heq).2]

@[simp] theorem prune_selection (f : Frontier α) (i : Incumbent α) :
    (f.prune i).selection = f.selection := by
  unfold prune
  split <;> rfl

/-! ## Order -/

variable [LawfulScalar α]

instance instTransCmpOrder : Std.TransCmp (Scalar.order : α → α → Ordering) where
  eq_swap {a b} := (LawfulScalar.order_swap b a).symm
  isLE_trans := LawfulScalar.order_trans

instance instTransCmpCompareByBound :
    Std.TransCmp (compareByBound : Node α → Node α → Ordering) :=
  have : Std.TransCmp fun a b : Node α => Scalar.order a.bound b.bound :=
    { eq_swap := Std.OrientedCmp.eq_swap
      isLE_trans := Std.TransCmp.isLE_trans }
  have : Std.TransCmp fun a b : Node α => compare a.id b.id :=
    { eq_swap := Std.OrientedCmp.eq_swap
      isLE_trans := Std.TransCmp.isLE_trans }
  inferInstanceAs (Std.TransCmp (compareLex (fun a b : Node α => Scalar.order a.bound b.bound)
    fun a b => compare a.id b.id))

theorem before_eq_false_iff {a b : Node α} :
    before a b = false ↔ (compareByBound b a).isLE = true := by
  have hswap : compareByBound b a = (compareByBound a b).swap := Std.OrientedCmp.eq_swap
  rw [before, hswap]
  cases compareByBound a b <;> simp

theorem before_isWeakOrder : Heap.IsWeakOrder (before : Node α → Node α → Bool) where
  asymm {a b} h := by
    rw [before_eq_false_iff]
    have hlt : compareByBound a b = .lt := by simpa [before] using h
    rw [hlt]
    rfl
  trans hba hcb := by
    rw [before_eq_false_iff] at hba hcb ⊢
    exact Std.TransCmp.isLE_trans hba hcb

/-- A node that does not come before another one has no lower bound than it. -/
theorem bound_le_of_before_eq_false {a b : Node α} (h : before b a = false)
    (ha : Scalar.isNaN a.bound = false) (hb : Scalar.isNaN b.bound = false) :
    a.bound ≤ b.bound := by
  refine Scalar.le_of_not_lt hb ha ?_
  intro hlt
  have hord := LawfulScalar.order_of_lt hlt
  simp [before, compareByBound, hord] at h

/-- A frontier by bound is a heap. -/
def IsOrdered (f : Frontier α) : Prop :=
  f.selection = .bestBound → Heap.IsHeap before f.nodes

omit [LawfulScalar α] in
theorem isOrdered_empty (selection : NodeSelection) :
    (empty selection : Frontier α).IsOrdered :=
  fun _ => Heap.isHeap_empty

theorem IsOrdered.push {f : Frontier α} (hf : f.IsOrdered) (n : Node α) :
    (f.push n).IsOrdered := by
  intro hsel
  rw [push_selection] at hsel
  have hheap := Heap.isHeap_push before_isWeakOrder (hf hsel) n
  simpa [Frontier.push, hsel] using hheap

theorem IsOrdered.pop? {f g : Frontier α} {n : Node α} (hf : f.IsOrdered)
    (h : f.pop? = some (n, g)) : g.IsOrdered := by
  intro hsel
  rw [pop?_selection h] at hsel
  simp only [Frontier.pop?, hsel] at h
  obtain ⟨popped, hp, heq⟩ := Option.map_eq_some_iff.mp h
  rw [← (Prod.mk.inj heq).2]
  exact Heap.isHeap_pop? before_isWeakOrder (hf hsel) hp

theorem IsOrdered.prune {f : Frontier α} (hf : f.IsOrdered) (i : Incumbent α) :
    (f.prune i).IsOrdered := by
  intro hsel
  rw [prune_selection] at hsel
  have hheap := Heap.isHeap_filter before_isWeakOrder (fun n => !n.canPrune i) (hf hsel)
  simpa [Frontier.prune, hsel] using hheap

/-- The least of some bounds and a first value is a number, and none of them is
less. -/
theorem foldl_minimum_le (l : List (Node α)) (init : α) (hinit : Scalar.isNaN init = false)
    (hnum : ∀ n ∈ l, Scalar.isNaN n.bound = false) :
    l.foldl (fun least n => Scalar.minimum least n.bound) init ≤ init ∧
      ∀ n ∈ l, l.foldl (fun least n => Scalar.minimum least n.bound) init ≤ n.bound := by
  induction l generalizing init with
  | nil => exact ⟨Scalar.le_refl hinit, by simp⟩
  | cons m l ih =>
      have hm := hnum m (by simp)
      obtain ⟨hle, hall⟩ := ih (Scalar.minimum init m.bound) (Scalar.isNaN_minimum hinit hm)
        fun n hn => hnum n (by simp [hn])
      refine ⟨Scalar.le_trans hle (Scalar.minimum_le_left hinit), ?_⟩
      intro n hn
      rcases List.mem_cons.mp hn with rfl | hn
      · exact Scalar.le_trans hle (Scalar.minimum_le_right hinit hm)
      · exact hall n hn

omit [LawfulScalar α] in
theorem le_foldl_minimum (l : List (Node α)) (init : α) {b : α} (hinit : b ≤ init)
    (h : ∀ n ∈ l, b ≤ n.bound) :
    b ≤ l.foldl (fun least n => Scalar.minimum least n.bound) init := by
  induction l generalizing init with
  | nil => exact hinit
  | cons n l ih =>
      exact ih (Scalar.minimum init n.bound) (Scalar.le_minimum hinit (h n List.mem_cons_self))
        fun m hm => h m (List.mem_cons_of_mem n hm)

/-- The least bound that the frontier reports is at most the bound of every open
node. -/
theorem bestBound_le {f : Frontier α} (hf : f.IsOrdered)
    (hnum : ∀ n ∈ f.openNodes, Scalar.isNaN n.bound = false) {n : Node α}
    (hn : n ∈ f.openNodes) : f.bestBound ≤ n.bound := by
  unfold bestBound
  cases hsel : f.selection with
  | bestBound =>
      obtain ⟨j, hj, rfl⟩ := Array.mem_iff_getElem.mp (Array.mem_toList_iff.mp hn)
      have hpos : 0 < f.nodes.size := by omega
      have hfirst : f.nodes[0] ∈ f.openNodes := by simp [openNodes]
      simp only [Array.getElem?_eq_getElem hpos]
      exact bound_le_of_before_eq_false ((hf hsel).first_le before_isWeakOrder j hj)
        (hnum _ hfirst) (hnum _ hn)
  | depthFirst =>
      simp only [← Array.foldl_toList]
      exact (foldl_minimum_le f.openNodes _ Scalar.isNaN_posInf hnum).2 n hn

/-- What is at most the bound of every open node is at most the least bound that the
frontier reports. -/
theorem le_bestBound {f : Frontier α} {b : α} (hb : Scalar.isNaN b = false)
    (h : ∀ n ∈ f.openNodes, b ≤ n.bound) : b ≤ f.bestBound := by
  unfold bestBound
  cases hsel : f.selection with
  | bestBound =>
      simp only
      split
      next => exact Scalar.le_posInf hb
      next n hn => exact h n (Array.mem_toList_iff.mpr (Array.mem_of_getElem? hn))
  | depthFirst =>
      simp only [← Array.foldl_toList]
      exact le_foldl_minimum f.openNodes _ (Scalar.le_posInf hb) h

theorem isNaN_bestBound {f : Frontier α} (hf : f.IsOrdered)
    (hnum : ∀ n ∈ f.openNodes, Scalar.isNaN n.bound = false) :
    Scalar.isNaN f.bestBound = false := by
  cases h : f.openNodes with
  | cons n l => exact Scalar.isNaN_left_of_le (bestBound_le hf hnum (by simp [h] : n ∈ _))
  | nil =>
      have hnodes : f.nodes = #[] := by simpa [openNodes] using h
      unfold bestBound
      cases f.selection <;> simp [hnodes, Scalar.isNaN_posInf]

end Frontier
end BranchBound
