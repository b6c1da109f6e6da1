import BranchBound.Proofs.NodePool

/-!
# The order in which nodes leave

By bound the pool of open nodes is an ordered set: what a pop takes is determined by the nodes
that are open, and not by the order in which they came.  So pruning keeps the order of the
nodes that it leaves open, and pushes between two pops may change places.
-/

namespace BranchBound
namespace Frontier

variable {α : Type} [Scalar α] [LawfulScalar α]

/-! ## The order of the pops -/

/-- The nodes in the order in which they leave if no operation comes between the pops. -/
def drain (f : Frontier α) : List (Node α) :=
  match h : f.pop? with
  | none => []
  | some (node, rest) =>
      have : rest.openNodes.length < f.openNodes.length := by
        rw [(pop?_perm h).length_eq]
        exact Nat.lt_succ_self _
      node :: rest.drain
termination_by f.openNodes.length

omit [LawfulScalar α] in
theorem drain_perm (f : Frontier α) : f.drain.Perm f.openNodes := by
  fun_induction drain f with
  | case1 f hpop => rw [pop?_eq_none_iff.mp hpop]
  | case2 f node rest hpop hlt ih => exact (ih.cons node).trans (pop?_perm hpop).symm

omit [LawfulScalar α] in
theorem drain_of_depthFirst (f : Frontier α) (hselection : f.selection = .depthFirst) :
    f.drain = f.openNodes.reverse := by
  fun_induction drain f with
  | case1 f hpop =>
      rw [pop?_eq_none_iff.mp hpop]
      rfl
  | case2 f node rest hpop hlt ih =>
      rw [ih ((pop?_selection hpop).trans hselection),
        openNodes_of_pop?_depthFirst hselection hpop, List.reverse_concat]

/-- By bound the nodes leave in order. -/
theorem drain_pairwise (f : Frontier α) (hselection : f.selection = .bestBound)
    (hordered : f.IsOrdered) (hids : (f.openNodes.map Node.id).Nodup) :
    f.drain.Pairwise fun a b => compareByBound a b = .lt := by
  fun_induction drain f with
  | case1 f hpop => exact List.Pairwise.nil
  | case2 f node rest hpop hlt ih =>
      have hnodup := ((pop?_perm hpop).map Node.id).nodup_iff.mp hids
      rw [List.map_cons, List.nodup_cons] at hnodup
      rw [List.pairwise_cons]
      constructor
      · intro other hother
        exact compareByBound_of_pop? hselection hordered hids hpop
          (rest.drain_perm.mem_iff.mp hother)
      · exact ih ((pop?_selection hpop).trans hselection) (hordered.pop? hpop) hnodup.2

/-- Two nodes do not come before each other. -/
theorem compareByBound_asymm {a b : Node α} (h : compareByBound a b = .lt) :
    compareByBound b a ≠ .lt := by
  have hswap : compareByBound b a = (compareByBound a b).swap := Std.OrientedCmp.eq_swap
  rw [hswap, h]
  exact Ordering.noConfusion

/-- Pruning keeps the order in which the other nodes leave. -/
theorem drain_prune {f : Frontier α} (hordered : f.IsOrdered)
    (hids : (f.openNodes.map Node.id).Nodup) (incumbent : Incumbent α) :
    (f.prune incumbent).drain = f.drain.filter fun node => !node.canPrune incumbent := by
  cases hselection : f.selection with
  | depthFirst =>
      rw [drain_of_depthFirst _ ((prune_selection f incumbent).trans hselection),
        drain_of_depthFirst _ hselection, openNodes_prune_of_depthFirst hselection,
        List.filter_reverse]
  | bestBound =>
      have hkept := prune_perm f incumbent
      have hkeptIds : ((f.prune incumbent).openNodes.map Node.id).Nodup := by
        rw [(hkept.map Node.id).nodup_iff]
        exact hids.sublist (List.filter_sublist.map Node.id)
      have hpruned := drain_pairwise (f.prune incumbent)
        ((prune_selection f incumbent).trans hselection) (hordered.prune incumbent) hkeptIds
      have hfiltered := (drain_pairwise f hselection hordered hids).filter
        fun node => !node.canPrune incumbent
      -- both lists are in order and have the same nodes
      refine List.Perm.eq_of_pairwise ?_ hpruned hfiltered ?_
      · intro a b _ _ hab hba
        exact absurd hba (compareByBound_asymm hab)
      · exact ((drain_perm _).trans hkept).trans (f.drain_perm.filter _).symm

/-! ## The order of the pushes -/

/-- Operations that differ in the order of the pushes between two pops.  A push may change
places with a pruning that does not drop its node. -/
inductive Reorders : List (Operation α) → List (Operation α) → Prop
  | nil : Reorders [] []
  | cons (op : Operation α) {ops ops' : List (Operation α)} (h : Reorders ops ops') :
      Reorders (op :: ops) (op :: ops')
  | swap (a b : Node α) (ops : List (Operation α)) :
      Reorders (.push a :: .push b :: ops) (.push b :: .push a :: ops)
  | defer {node : Node α} {incumbent : Incumbent α} (h : node.canPrune incumbent = false)
      (ops : List (Operation α)) :
      Reorders (.push node :: .prune incumbent :: ops) (.prune incumbent :: .push node :: ops)
  | symm {ops ops' : List (Operation α)} (h : Reorders ops ops') : Reorders ops' ops
  | trans {ops ops' ops'' : List (Operation α)} (h : Reorders ops ops')
      (h' : Reorders ops' ops'') : Reorders ops ops''

omit [LawfulScalar α] in
theorem Reorders.pushedNodes_perm {ops ops' : List (Operation α)} (h : Reorders ops ops') :
    (pushedNodes ops).Perm (pushedNodes ops') := by
  induction h with
  | nil => exact .refl _
  | cons op _ ih => exact ih.append_left op.added
  | swap a b ops => exact .swap b a _
  | defer _ ops => exact .refl _
  | symm _ ih => exact ih.symm
  | trans _ _ ih ih' => exact ih.trans ih'

/-- Of the nodes of a pool one is the least. -/
theorem least_unique {older newer older' newer' : List (Node α)} {node node' : Node α}
    (hpool : older ++ node :: newer = older' ++ node' :: newer')
    (hleast : ∀ other ∈ older ++ newer, compareByBound node other = .lt)
    (hleast' : ∀ other ∈ older' ++ newer', compareByBound node' other = .lt) : node = node' := by
  by_contra hne
  have hnode : node ∈ older' ++ node' :: newer' := by
    rw [← hpool]
    simp
  have hnode' : node' ∈ older ++ node :: newer := by
    rw [hpool]
    simp
  have hlt := hleast node' (by simpa [Ne.symm hne] using hnode')
  have hlt' := hleast' node (by simpa [hne] using hnode)
  exact compareByBound_asymm hlt hlt'

/-- An ideal pool answers in one way. -/
theorem Answers.unique {selection : NodeSelection} {pool gone gone' next next' : List (Node α)}
    {op : Operation α} {reply reply' : Reply α} (hids : (pool.map Node.id).Nodup)
    (h : Answers selection pool op reply gone next)
    (h' : Answers selection pool op reply' gone' next') : reply = reply' ∧ next = next' := by
  cases h with
  | push pool node =>
      cases h'
      exact ⟨rfl, rfl⟩
  | prune pool incumbent =>
      cases h'
      exact ⟨rfl, rfl⟩
  | exhausted =>
      generalize hpool : ([] : List (Node α)) = pool at h'
      cases h' with
      | exhausted => exact ⟨rfl, rfl⟩
      | least => simp at hpool
      | newest => simp at hpool
  | @least older newer node hselection hleast =>
      generalize hpool : older ++ node :: newer = pool at h'
      cases h' with
      | exhausted => simp at hpool
      | newest hdepth => cases hselection.symm.trans hdepth
      | @least older' newer' node' _ hleast' =>
          obtain rfl := least_unique hpool hleast hleast'
          have hnodup := List.perm_middle.nodup_iff.mp (List.Nodup.of_map _ hids)
          rw [List.nodup_cons, List.mem_append, not_or] at hnodup
          obtain ⟨rfl, -, rfl⟩ :=
            (List.append_cons_inj_of_notMem hnodup.1.1 hnodup.1.2).mp hpool
          exact ⟨rfl, rfl⟩
  | @newest _ node hselection =>
      generalize hpool : next ++ [node] = pool at h'
      cases h' with
      | exhausted => simp at hpool
      | least hbound => cases hselection.symm.trans hbound
      | newest =>
          obtain ⟨rfl, hnode⟩ := List.append_inj' hpool rfl
          rw [List.singleton_inj.mp hnode]
          exact ⟨rfl, rfl⟩

namespace Represents

variable {f g : Frontier α} {pool pool' : List (Node α)}

omit [LawfulScalar α] in
/-- By bound, the order of a pool does not matter. -/
theorem of_perm (h : f.Represents pool) (hselection : f.selection = .bestBound)
    (hperm : pool.Perm pool') : f.Represents pool' := by
  refine ⟨h.ordered, h.perm.trans hperm, ?_⟩
  intro hdepth
  rw [hselection] at hdepth
  cases hdepth

/-- Frontiers that represent one pool give the same reply and represent one pool again. -/
theorem apply_eq (hf : f.Represents pool) (hg : g.Represents pool)
    (hselection : f.selection = g.selection) {op : Operation α} {ops : List (Operation α)}
    (hids : ((pool ++ pushedNodes (op :: ops)).map Node.id).Nodup) :
    (f.apply op).1 = (g.apply op).1 ∧ (f.apply op).2.selection = f.selection ∧
      (g.apply op).2.selection = g.selection ∧
      ∃ next, (f.apply op).2.Represents next ∧ (g.apply op).2.Represents next ∧
        ((next ++ pushedNodes ops).map Node.id).Nodup := by
  have hpool : (pool.map Node.id).Nodup := by
    rw [List.map_append] at hids
    exact hids.of_append_left
  obtain ⟨gone, next, hanswers, hnext, hkept⟩ := hf.apply hpool op
  obtain ⟨gone', next', hanswers', hnext', hkept'⟩ := hg.apply hpool op
  rw [← hselection] at hanswers'
  obtain ⟨hreply, rfl⟩ := hanswers.unique hpool hanswers'
  exact ⟨hreply, hkept, hkept', next, hnext, hnext', nodup_of_answers hanswers hids⟩

/-- Frontiers that represent one pool give the same replies. -/
theorem run_eq (hf : f.Represents pool) (hg : g.Represents pool)
    (hselection : f.selection = g.selection) {ops : List (Operation α)}
    (hids : ((pool ++ pushedNodes ops).map Node.id).Nodup) : (f.run ops).1 = (g.run ops).1 := by
  induction ops generalizing f g pool with
  | nil => rfl
  | cons op ops ih =>
      obtain ⟨hreply, hkept, hkept', next, hnext, hnext', hnodup⟩ :=
        hf.apply_eq hg hselection hids
      have hrest := ih hnext hnext' (hkept.trans (hselection.trans hkept'.symm)) hnodup
      rw [run_cons, run_cons, hreply, hrest]

end Represents

/-- By bound, the order of the pushes between two pops does not matter. -/
theorem Reorders.poppedNodes_eq {ops ops' : List (Operation α)} (h : Reorders ops ops')
    {f g : Frontier α} {pool : List (Node α)} (hf : f.Represents pool) (hg : g.Represents pool)
    (hselection : f.selection = .bestBound) (hselection' : g.selection = .bestBound)
    (hids : ((pool ++ pushedNodes ops).map Node.id).Nodup) :
    poppedNodes (f.run ops).1 = poppedNodes (g.run ops').1 := by
  induction h generalizing f g pool with
  | nil => rfl
  | @cons op ops ops' _ ih =>
      obtain ⟨hreply, hkept, hkept', next, hnext, hnext', hnodup⟩ :=
        hf.apply_eq hg (hselection.trans hselection'.symm) hids
      have hrest := ih hnext hnext' (hkept.trans hselection) (hkept'.trans hselection') hnodup
      rw [run_cons, run_cons, hreply]
      simp only [poppedNodes, List.filterMap_cons] at hrest ⊢
      rw [hrest]
  | swap a b ops =>
      have hleft := (hf.push a).push b
      have hright := (hg.push b).push a
      have hperm : (pool ++ [b] ++ [a]).Perm (pool ++ [a] ++ [b]) := by
        simpa using (List.Perm.swap a b []).append_left pool
      have hbound : ((f.push a).push b).selection = .bestBound := by
        rw [push_selection, push_selection, hselection]
      have hbound' : ((g.push b).push a).selection = .bestBound := by
        rw [push_selection, push_selection, hselection']
      have hnodup : ((pool ++ [a] ++ [b] ++ pushedNodes ops).map Node.id).Nodup := by
        simpa [pushedNodes, Operation.added] using hids
      have hpops := congrArg poppedNodes (hleft.run_eq (hright.of_perm hbound' hperm)
        (hbound.trans hbound'.symm) hnodup)
      exact hpops
  | @defer node incumbent hkeep ops =>
      have hleft := (hf.push node).prune incumbent
      have hright := (hg.prune incumbent).push node
      have hfilter : (pool ++ [node]).filter (fun n => !n.canPrune incumbent) =
          pool.filter (fun n => !n.canPrune incumbent) ++ [node] := by
        rw [List.filter_append, List.filter_singleton, hkeep]
        rfl
      rw [hfilter] at hleft
      have hbound : ((f.push node).prune incumbent).selection =
          ((g.prune incumbent).push node).selection := by
        rw [prune_selection, push_selection, push_selection, prune_selection, hselection,
          hselection']
      have hnodup : ((pool.filter (fun n => !n.canPrune incumbent) ++ [node] ++
          pushedNodes ops).map Node.id).Nodup := by
        refine hids.sublist (List.Sublist.map Node.id ?_)
        rw [List.append_assoc]
        exact List.filter_sublist.append_right _
      have hpops := congrArg poppedNodes (hleft.run_eq hright hbound hnodup)
      exact hpops
  | symm h ih =>
      have hperm := (h.pushedNodes_perm.append_left pool).map Node.id
      exact (ih hg hf hselection' hselection (hperm.nodup_iff.mpr hids)).symm
  | trans h _ ih ih' =>
      have hperm := (h.pushedNodes_perm.append_left pool).map Node.id
      exact (ih hf hf hselection hselection hids).trans
        (ih' hf hg hselection hselection' (hperm.nodup_iff.mp hids))

/-! ## Sequences of operations -/

/-- **A frontier is a pool of nodes.**  Let operations push nodes with different identifiers
and with bounds that are numbers.  An empty frontier replies to them as the ideal pool does.
Every node that was pushed is open, or has left once; the open nodes are counted by `size`,
and `bestBound` is the least of their bounds.  Pruning keeps the order in which the other
nodes leave.  By bound, the nodes popped do not depend on the order of the pushes between two
pops. -/
theorem run_implements_pool {selection : NodeSelection} {ops : List (Operation α)}
    (hids : ((pushedNodes ops).map Node.id).Nodup)
    (hnumber : ∀ node ∈ pushedNodes ops, Scalar.isNaN node.bound = false) :
    ∃ replies final gone pool, (empty selection : Frontier α).run ops = (replies, final) ∧
      Runs selection [] ops replies gone pool ∧
      (pushedNodes ops).Perm (gone ++ pool) ∧ pool.Sublist (pushedNodes ops) ∧
      final.openNodes.Perm pool ∧ final.size = pool.length ∧
      IsLeastBound pool final.bestBound ∧
      (∀ incumbent, (final.prune incumbent).drain =
        final.drain.filter fun node => !node.canPrune incumbent) ∧
      (selection = .bestBound → ∀ ops', Reorders ops ops' →
        poppedNodes ((empty selection : Frontier α).run ops').1 = poppedNodes replies) := by
  have hstart := Represents.empty (α := α) selection
  have hnodup : (([] ++ pushedNodes ops).map Node.id).Nodup := hids
  obtain ⟨gone, pool, hruns, hfinal, -⟩ := hstart.run hnodup
  have hperm : (pushedNodes ops).Perm (gone ++ pool) := hruns.perm
  have hsublist : pool.Sublist (pushedNodes ops) := hruns.sublist
  have hopen := (hfinal.perm.map Node.id).nodup_iff.mpr (hids.sublist (hsublist.map Node.id))
  refine ⟨_, _, gone, pool, rfl, hruns, hperm, hsublist, hfinal.perm, hfinal.perm.length_eq,
    ?_, ?_, ?_⟩
  · exact hfinal.isLeastBound fun node hnode => hnumber node (hsublist.subset hnode)
  · exact drain_prune hfinal.ordered hopen
  · intro hselection ops' hreorders
    exact (hreorders.poppedNodes_eq hstart hstart hselection hselection hnodup).symm

/-! ## A sample -/

/-- A node to try frontiers on. -/
def sampleNode (id : Nat) (bound : Float) : Node Float :=
  { Node.root ⟨[]⟩ with id := id, estimate := bound }

/-- Both zeros, a pair of equal bounds, an infinity, and a node that an incumbent rules
out. -/
def sampleOperations : List (Operation Float) :=
  [.push (sampleNode 7 (Scalar.ofInt 0)), .push (sampleNode 4 (-Scalar.ofInt 0)),
    .push (sampleNode 6 (Scalar.ofInt 1)), .push (sampleNode 5 (Scalar.ofInt 1)), .pop,
    .push (sampleNode 9 Scalar.posInf),
    .prune ((Incumbent.none (Scalar.ofInt 0)).consider (Scalar.ofInt 2) []), .pop, .pop]

/-- Negative zero leaves first, then zero, then the lower identifier of two equal bounds; the
infinite bound is pruned. -/
theorem run_sample_implements_pool :
    ((pushedNodes sampleOperations).map Node.id).Nodup ∧
      (∀ node ∈ pushedNodes sampleOperations, Scalar.isNaN node.bound = false) ∧
      ∃ replies final gone pool,
        (empty .bestBound : Frontier Float).run sampleOperations = (replies, final) ∧
        Runs .bestBound [] sampleOperations replies gone pool ∧
        (poppedNodes replies).map (Option.map Node.id) = [some 4, some 7, some 5] ∧
        pool.map Node.id = [6] ∧ IsLeastBound pool final.bestBound := by
  have hids : ((pushedNodes sampleOperations).map Node.id).Nodup := by decide
  have hnumber : ∀ node ∈ pushedNodes sampleOperations, Scalar.isNaN node.bound = false := by
    have hall : (pushedNodes sampleOperations).all (fun node => !Scalar.isNaN node.bound) =
        true := by
      decide +kernel
    simpa using hall
  have hpops : (poppedNodes ((empty .bestBound : Frontier Float).run sampleOperations).1).map
      (Option.map Node.id) = [some 4, some 7, some 5] := by
    decide +kernel
  have hopen : ((empty .bestBound : Frontier Float).run sampleOperations).2.openNodes.map
      Node.id = [6] := by
    decide +kernel
  obtain ⟨replies, final, gone, pool, hrun, hruns, -, -, hperm, -, hleast, -⟩ :=
    run_implements_pool hids hnumber
  rw [hrun] at hpops hopen
  have hpool : pool.map Node.id = [6] := by
    have hmap := (hperm.map Node.id).symm
    rw [hopen] at hmap
    exact List.perm_singleton.mp hmap
  exact ⟨hids, hnumber, replies, final, gone, pool, hrun, hruns, hpops, hpool, hleast⟩

end Frontier
end BranchBound
