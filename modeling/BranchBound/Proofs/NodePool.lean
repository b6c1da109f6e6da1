import BranchBound.Proofs.BestFirst
import BranchBound.Proofs.DepthFirst

/-!
# The frontier as a pool of nodes

An ideal pool lists its open nodes from the oldest to the newest.  A node that is pushed is
added at the end, a pop takes the least node or the newest one, and pruning drops the nodes
that can be pruned and keeps the others in place.  A frontier gives the same replies as the
ideal pool to every sequence of operations, whichever way it keeps its nodes.
-/

namespace BranchBound
namespace Frontier

/-- An operation on the open nodes. -/
inductive Operation (α : Type) where
  | push (node : Node α)
  | pop
  | prune (incumbent : Incumbent α)

/-- What an operation replies; pruning tells how many nodes it has dropped. -/
inductive Reply (α : Type) where
  | pushed
  | popped (node : Option (Node α))
  | pruned (count : Nat)

/-- The nodes that an operation adds. -/
def Operation.added {α : Type} : Operation α → List (Node α)
  | .push node => [node]
  | _ => []

@[simp] theorem Operation.added_pop {α : Type} : (.pop : Operation α).added = [] :=
  rfl

@[simp] theorem Operation.added_prune {α : Type} (incumbent : Incumbent α) :
    (Operation.prune incumbent).added = [] :=
  rfl

/-- The nodes that operations push, in order. -/
def pushedNodes {α : Type} (ops : List (Operation α)) : List (Node α) :=
  ops.flatMap Operation.added

/-- The replies to the pops, in order. -/
def poppedNodes {α : Type} (replies : List (Reply α)) : List (Option (Node α)) :=
  replies.filterMap fun
    | .popped node => some node
    | _ => none

variable {α : Type} [Scalar α]

/-- Apply an operation to a frontier. -/
def apply (f : Frontier α) : Operation α → Reply α × Frontier α
  | .push node => (.pushed, f.push node)
  | .pop =>
      match f.pop? with
      | none => (.popped none, f)
      | some (node, rest) => (.popped (some node), rest)
  | .prune incumbent => (.pruned (f.size - (f.prune incumbent).size), f.prune incumbent)

/-- Apply operations one after the other. -/
def run (f : Frontier α) : List (Operation α) → List (Reply α) × Frontier α
  | [] => ([], f)
  | op :: ops =>
      let (reply, next) := f.apply op
      let (replies, final) := next.run ops
      (reply :: replies, final)

theorem run_cons (f : Frontier α) (op : Operation α) (ops : List (Operation α)) :
    f.run (op :: ops) =
      ((f.apply op).1 :: ((f.apply op).2.run ops).1, ((f.apply op).2.run ops).2) :=
  rfl

/-! ## The ideal pool -/

/-- How an ideal pool answers an operation, with the nodes that leave it and those that
stay. -/
inductive Answers (selection : NodeSelection) :
    List (Node α) → Operation α → Reply α → List (Node α) → List (Node α) → Prop
  | push (pool : List (Node α)) (node : Node α) :
      Answers selection pool (.push node) .pushed [] (pool ++ [node])
  | exhausted : Answers selection [] .pop (.popped none) [] []
  /-- By bound, a pop takes the node that comes first by bound and then by identifier. -/
  | least {older newer : List (Node α)} {node : Node α} (hselection : selection = .bestBound)
      (hleast : ∀ other ∈ older ++ newer, compareByBound node other = .lt) :
      Answers selection (older ++ node :: newer) .pop (.popped (some node)) [node]
        (older ++ newer)
  /-- By depth, a pop takes the newest node. -/
  | newest {older : List (Node α)} {node : Node α} (hselection : selection = .depthFirst) :
      Answers selection (older ++ [node]) .pop (.popped (some node)) [node] older
  | prune (pool : List (Node α)) (incumbent : Incumbent α) :
      Answers selection pool (.prune incumbent)
        (.pruned (pool.countP fun node => node.canPrune incumbent))
        (pool.filter fun node => node.canPrune incumbent)
        (pool.filter fun node => !node.canPrune incumbent)

/-- How an ideal pool answers operations one after the other, with all nodes that leave
it. -/
inductive Runs (selection : NodeSelection) :
    List (Node α) → List (Operation α) → List (Reply α) → List (Node α) → List (Node α) → Prop
  | nil (pool : List (Node α)) : Runs selection pool [] [] [] pool
  | cons {pool next final gone later : List (Node α)} {op : Operation α} {reply : Reply α}
      {ops : List (Operation α)} {replies : List (Reply α)}
      (hanswers : Answers selection pool op reply gone next)
      (hruns : Runs selection next ops replies later final) :
      Runs selection pool (op :: ops) (reply :: replies) (gone ++ later) final

/-- What was in the pool or is pushed leaves or stays. -/
theorem Answers.perm {selection : NodeSelection} {pool gone next : List (Node α)}
    {op : Operation α} {reply : Reply α} (h : Answers selection pool op reply gone next) :
    (pool ++ op.added).Perm (gone ++ next) := by
  cases h with
  | push pool node => exact .refl _
  | exhausted => exact .refl _
  | least _ _ =>
      rw [Operation.added_pop, List.append_nil]
      exact List.perm_middle
  | newest _ =>
      rw [Operation.added_pop, List.append_nil]
      exact List.perm_append_singleton _ _
  | prune pool incumbent =>
      rw [Operation.added_prune, List.append_nil]
      exact (List.filter_append_perm (fun node => node.canPrune incumbent) pool).symm

/-- The pool stays in the order in which its nodes were pushed. -/
theorem Answers.sublist {selection : NodeSelection} {pool gone next : List (Node α)}
    {op : Operation α} {reply : Reply α} (h : Answers selection pool op reply gone next) :
    next.Sublist (pool ++ op.added) := by
  cases h with
  | push pool node => exact .refl _
  | exhausted => exact .refl _
  | least _ _ =>
      rw [Operation.added_pop, List.append_nil]
      exact (List.sublist_cons_self _ _).append_left _
  | newest _ =>
      rw [Operation.added_pop, List.append_nil]
      exact List.sublist_append_left _ _
  | prune pool incumbent =>
      rw [Operation.added_prune, List.append_nil]
      exact List.filter_sublist

theorem Runs.sublist {selection : NodeSelection} {pool gone final : List (Node α)}
    {ops : List (Operation α)} {replies : List (Reply α)}
    (h : Runs selection pool ops replies gone final) :
    final.Sublist (pool ++ pushedNodes ops) := by
  induction h with
  | nil pool => exact List.sublist_append_left _ _
  | cons hanswers _ ih =>
      rw [pushedNodes, List.flatMap_cons, ← List.append_assoc]
      exact ih.trans (hanswers.sublist.append_right _)

theorem Runs.perm {selection : NodeSelection} {pool gone final : List (Node α)}
    {ops : List (Operation α)} {replies : List (Reply α)}
    (h : Runs selection pool ops replies gone final) :
    (pool ++ pushedNodes ops).Perm (gone ++ final) := by
  induction h with
  | nil pool => simp [pushedNodes]
  | @cons pool next final gone later op reply ops replies hanswers _ ih =>
      calc
        pool ++ pushedNodes (op :: ops) = pool ++ op.added ++ pushedNodes ops := by
          simp [pushedNodes]
        List.Perm _ (gone ++ next ++ pushedNodes ops) := hanswers.perm.append_right _
        _ = gone ++ (next ++ pushedNodes ops) := List.append_assoc _ _ _
        List.Perm _ (gone ++ (later ++ final)) := ih.append_left gone
        _ = gone ++ later ++ final := (List.append_assoc _ _ _).symm

/-! ## The next node -/

variable [LawfulScalar α]

/-- Of nodes with different identifiers one comes before the other. -/
theorem compareByBound_eq_lt {a b : Node α} (h : before b a = false) (hid : a.id ≠ b.id) :
    compareByBound a b = .lt := by
  have hle := before_eq_false_iff.mp h
  have hne : compareByBound a b ≠ .eq := by
    intro heq
    rw [compareByBound, Ordering.then_eq_eq, Nat.compare_eq_eq] at heq
    exact hid heq.2
  cases hcompare : compareByBound a b with
  | lt => rfl
  | eq => exact absurd hcompare hne
  | gt =>
      rw [hcompare] at hle
      cases hle

/-- By bound, the node that leaves comes before all that stay. -/
theorem compareByBound_of_pop? {f rest : Frontier α} {node other : Node α}
    (hselection : f.selection = .bestBound) (hordered : f.IsOrdered)
    (hids : (f.openNodes.map Node.id).Nodup) (hpop : f.pop? = some (node, rest))
    (hother : other ∈ rest.openNodes) : compareByBound node other = .lt := by
  have hperm := pop?_perm hpop
  have hmem : other ∈ f.openNodes := hperm.mem_iff.mpr (List.mem_cons_of_mem node hother)
  apply compareByBound_eq_lt
  · obtain ⟨j, hj, rfl⟩ := Array.mem_iff_getElem.mp (Array.mem_toList_iff.mp hmem)
    have hfirst : f.nodes[0]? = some node := by
      simp only [pop?, hselection] at hpop
      obtain ⟨popped, hpopped, heq⟩ := Option.map_eq_some_iff.mp hpop
      rw [Heap.pop?_first hpopped, (Prod.mk.inj heq).1]
    have hpos : 0 < f.nodes.size := by omega
    rw [Array.getElem?_eq_getElem hpos, Option.some.injEq] at hfirst
    rw [← hfirst]
    exact (hordered hselection).first_le before_isWeakOrder j hj
  · intro heq
    have hnodup := (hperm.map Node.id).nodup_iff.mp hids
    rw [List.map_cons, List.nodup_cons] at hnodup
    exact hnodup.1 (heq ▸ List.mem_map_of_mem hother)

omit [LawfulScalar α] in
/-- The number of nodes that pruning drops. -/
theorem size_sub_size_prune (f : Frontier α) (incumbent : Incumbent α) :
    f.size - (f.prune incumbent).size =
      f.openNodes.countP fun node => node.canPrune incumbent := by
  have hsize : (f.prune incumbent).size =
      f.openNodes.countP fun node => !node.canPrune incumbent := by
    rw [List.countP_eq_length_filter]
    exact (prune_perm f incumbent).length_eq
  have hsum : f.openNodes.length = f.openNodes.countP (fun node => node.canPrune incumbent) +
      f.openNodes.countP fun node => !node.canPrune incumbent := by
    simpa using f.openNodes.length_eq_countP_add_countP fun node => node.canPrune incumbent
  have hlength : f.size = f.openNodes.length := rfl
  omega

/-! ## Representation -/

/-- A frontier keeps the nodes of a pool; a stack keeps them in the pool's order. -/
structure Represents (f : Frontier α) (pool : List (Node α)) : Prop where
  ordered : f.IsOrdered
  perm : f.openNodes.Perm pool
  stacked : f.selection = .depthFirst → f.openNodes = pool

namespace Represents

variable {f : Frontier α} {pool : List (Node α)}

omit [LawfulScalar α] in
theorem empty (selection : NodeSelection) :
    (Frontier.empty selection : Frontier α).Represents [] :=
  ⟨isOrdered_empty selection, .refl _, fun _ => rfl⟩

theorem push (h : f.Represents pool) (node : Node α) :
    (f.push node).Represents (pool ++ [node]) := by
  refine ⟨h.ordered.push node, ?_, ?_⟩
  · calc
      (f.push node).openNodes.Perm (node :: f.openNodes) := push_perm f node
      List.Perm _ (node :: pool) := h.perm.cons node
      List.Perm _ (pool ++ [node]) := (List.perm_append_singleton node pool).symm
  · intro hselection
    rw [push_selection] at hselection
    rw [openNodes_push_of_depthFirst hselection, h.stacked hselection]

theorem prune (h : f.Represents pool) (incumbent : Incumbent α) :
    (f.prune incumbent).Represents (pool.filter fun node => !node.canPrune incumbent) := by
  refine ⟨h.ordered.prune incumbent, ?_, ?_⟩
  · exact (prune_perm f incumbent).trans (h.perm.filter _)
  · intro hselection
    rw [prune_selection] at hselection
    rw [openNodes_prune_of_depthFirst hselection, h.stacked hselection]

/-- What leaves a frontier leaves the pool that it represents. -/
theorem pop (h : f.Represents pool) (hids : (pool.map Node.id).Nodup) {node : Node α}
    {rest : Frontier α} (hpop : f.pop? = some (node, rest)) :
    ∃ next, Answers f.selection pool .pop (.popped (some node)) [node] next ∧
      rest.Represents next := by
  have hordered := h.ordered.pop? hpop
  cases hselection : f.selection with
  | depthFirst =>
      have hopen := openNodes_of_pop?_depthFirst hselection hpop
      rw [← h.stacked hselection, hopen]
      exact ⟨rest.openNodes, .newest rfl, hordered, .refl _, fun _ => rfl⟩
  | bestBound =>
      have hperm := pop?_perm hpop
      have hmem : node ∈ pool :=
        h.perm.mem_iff.mp (hperm.mem_iff.mpr List.mem_cons_self)
      obtain ⟨older, newer, rfl⟩ := List.append_of_mem hmem
      have hrest : rest.openNodes.Perm (older ++ newer) :=
        (hperm.symm.trans (h.perm.trans List.perm_middle)).cons_inv
      refine ⟨older ++ newer, .least rfl ?_, hordered, hrest, ?_⟩
      · intro other hother
        exact compareByBound_of_pop? hselection h.ordered
          ((h.perm.map Node.id).nodup_iff.mpr hids) hpop (hrest.mem_iff.mpr hother)
      · intro hdepth
        rw [pop?_selection hpop, hselection] at hdepth
        cases hdepth

/-- A frontier answers an operation as the pool does that it represents. -/
theorem apply (h : f.Represents pool) (hids : (pool.map Node.id).Nodup) (op : Operation α) :
    ∃ gone next, Answers f.selection pool op (f.apply op).1 gone next ∧
      (f.apply op).2.Represents next ∧ (f.apply op).2.selection = f.selection := by
  cases op with
  | push node =>
      exact ⟨[], _, .push pool node, h.push node, push_selection f node⟩
  | prune incumbent =>
      have hanswers : Answers f.selection pool _ _ _ _ := .prune pool incumbent
      rw [← h.perm.countP_eq, ← size_sub_size_prune] at hanswers
      exact ⟨_, _, hanswers, h.prune incumbent, prune_selection f incumbent⟩
  | pop =>
      cases hpop : f.pop? with
      | none =>
          have hempty := h.perm
          rw [pop?_eq_none_iff.mp hpop, List.nil_perm] at hempty
          subst hempty
          simp only [Frontier.apply, hpop]
          exact ⟨[], [], .exhausted, h, trivial⟩
      | some popped =>
          obtain ⟨node, rest⟩ := popped
          obtain ⟨next, hanswers, hrest⟩ := h.pop hids hpop
          simp only [Frontier.apply, hpop]
          exact ⟨[node], next, hanswers, hrest, pop?_selection hpop⟩

omit [LawfulScalar α] in
/-- Identifiers stay distinct as long as those of the pushed nodes are new. -/
theorem nodup_of_answers {selection : NodeSelection} {gone next : List (Node α)}
    {op : Operation α} {reply : Reply α} {ops : List (Operation α)}
    (h : Answers selection pool op reply gone next)
    (hids : ((pool ++ pushedNodes (op :: ops)).map Node.id).Nodup) :
    ((next ++ pushedNodes ops).map Node.id).Nodup := by
  have hpushed : pool ++ pushedNodes (op :: ops) = pool ++ op.added ++ pushedNodes ops := by
    simp [pushedNodes]
  have hperm := (h.perm.append_right (pushedNodes ops)).map Node.id
  rw [hpushed, hperm.nodup_iff, List.append_assoc, List.map_append] at hids
  exact hids.of_append_right

/-- A frontier answers operations as the pool does that it represents. -/
theorem run (h : f.Represents pool) {ops : List (Operation α)}
    (hids : ((pool ++ pushedNodes ops).map Node.id).Nodup) :
    ∃ gone final, Runs f.selection pool ops (f.run ops).1 gone final ∧
      (f.run ops).2.Represents final ∧ (f.run ops).2.selection = f.selection := by
  induction ops generalizing f pool with
  | nil => exact ⟨[], pool, .nil pool, h, rfl⟩
  | cons op ops ih =>
      have hpool : (pool.map Node.id).Nodup := by
        rw [List.map_append] at hids
        exact hids.of_append_left
      obtain ⟨gone, next, hanswers, hnext, hselection⟩ := h.apply hpool op
      obtain ⟨later, final, hruns, hfinal, hselection'⟩ :=
        ih hnext (nodup_of_answers hanswers hids)
      rw [hselection] at hruns hselection'
      exact ⟨gone ++ later, final, .cons hanswers hruns, hfinal, hselection'⟩

end Represents

/-! ## The least bound -/

/-- A value is the least bound of some nodes, and positive infinity if there are none. -/
structure IsLeastBound (nodes : List (Node α)) (least : α) : Prop where
  empty : nodes = [] → least = Scalar.posInf
  le : ∀ node ∈ nodes, least ≤ node.bound
  attained : nodes ≠ [] → ∃ node ∈ nodes, node.bound ≤ least

omit [LawfulScalar α] in
theorem foldl_minimum_eq (nodes : List (Node α)) (init : α) :
    nodes.foldl (fun least node => Scalar.minimum least node.bound) init = init ∨
      ∃ node ∈ nodes,
        nodes.foldl (fun least node => Scalar.minimum least node.bound) init = node.bound := by
  induction nodes generalizing init with
  | nil => exact Or.inl rfl
  | cons node nodes ih =>
      have hminimum : Scalar.minimum init node.bound = init ∨
          Scalar.minimum init node.bound = node.bound := by
        unfold Scalar.minimum
        split
        · exact Or.inr rfl
        · split
          · exact Or.inr rfl
          · exact Or.inl rfl
      rcases ih (Scalar.minimum init node.bound) with hfold | ⟨other, hother, hfold⟩
      · rcases hminimum with hinit | hnode
        · exact Or.inl (hfold.trans hinit)
        · exact Or.inr ⟨node, List.mem_cons_self, hfold.trans hnode⟩
      · exact Or.inr ⟨other, List.mem_cons_of_mem node hother, hfold⟩

/-- The least bound that a frontier reports is the bound of an open node. -/
theorem exists_bound_le_bestBound {f : Frontier α}
    (hnumber : ∀ node ∈ f.openNodes, Scalar.isNaN node.bound = false)
    (hopen : f.openNodes ≠ []) : ∃ node ∈ f.openNodes, node.bound ≤ f.bestBound := by
  obtain ⟨first, hfirst⟩ := List.exists_mem_of_ne_nil _ hopen
  have hself (node : Node α) (hnode : node ∈ f.openNodes) : node.bound ≤ node.bound :=
    Scalar.le_refl (hnumber node hnode)
  unfold bestBound
  cases f.selection with
  | bestBound =>
      cases hnodes : f.nodes[0]? with
      | none =>
          have hempty : f.nodes = #[] := by simpa using hnodes
          rw [openNodes, hempty] at hopen
          exact absurd rfl hopen
      | some node =>
          have hnode : node ∈ f.openNodes :=
            Array.mem_toList_iff.mpr (Array.mem_of_getElem? hnodes)
          exact ⟨node, hnode, hself node hnode⟩
  | depthFirst =>
      simp only [← Array.foldl_toList]
      rcases foldl_minimum_eq f.openNodes Scalar.posInf with hfold | ⟨node, hnode, hfold⟩
      · exact ⟨first, hfirst, (Scalar.le_posInf (hnumber first hfirst)).trans_eq hfold.symm⟩
      · exact ⟨node, hnode, (hself node hnode).trans_eq hfold.symm⟩

theorem Represents.isLeastBound {f : Frontier α} {pool : List (Node α)} (h : f.Represents pool)
    (hnumber : ∀ node ∈ pool, Scalar.isNaN node.bound = false) :
    IsLeastBound pool f.bestBound := by
  have hopen : ∀ node ∈ f.openNodes, Scalar.isNaN node.bound = false := fun node hnode =>
    hnumber node (h.perm.mem_iff.mp hnode)
  refine ⟨?_, ?_, ?_⟩
  · intro hempty
    have hnone := h.perm
    rw [hempty, List.perm_nil] at hnone
    have hnodes : f.nodes = #[] := by simpa [openNodes] using hnone
    unfold bestBound
    cases f.selection <;> simp [hnodes]
  · intro node hnode
    exact bestBound_le h.ordered hopen (h.perm.mem_iff.mpr hnode)
  · intro hnonempty
    have hsome : f.openNodes ≠ [] := by
      intro hnone
      have hempty := h.perm
      rw [hnone, List.nil_perm] at hempty
      exact hnonempty hempty
    obtain ⟨node, hnode, hle⟩ := exists_bound_le_bestBound hopen hsome
    exact ⟨node, h.perm.mem_iff.mp hnode, hle⟩

end Frontier
end BranchBound
