import BranchBound.Proofs.BestFirst
import BranchBound.Proofs.Lineage
import BranchBound.Proofs.Numbering

/-!
# Depth-first order

A depth-first search keeps its open nodes in a stack.  A turn takes the top of the stack, and
then puts the two halves of that node there, the lower one on top, or removes nodes from the
stack, or leaves it alone.

Two things follow.  What lies on top of the upper half of a node, until that half is taken, is
the lower half or a descendant of it.  And below the top of the stack no two nodes have the
same depth, so the stack is hardly longer than the deepest path taken.
-/

namespace BranchBound

variable {α : Type} [Scalar α] {σ : Type}

namespace Frontier

theorem openNodes_push_of_depthFirst {f : Frontier α} (h : f.selection = .depthFirst)
    (n : Node α) : (f.push n).openNodes = f.openNodes ++ [n] := by
  simp [push, openNodes, h]

theorem openNodes_of_pop?_depthFirst {f g : Frontier α} {n : Node α}
    (h : f.selection = .depthFirst) (hpop : f.pop? = some (n, g)) :
    f.openNodes = g.openNodes ++ [n] := by
  simp only [pop?, h] at hpop
  obtain ⟨last, hlast, heq⟩ := Option.map_eq_some_iff.mp hpop
  obtain ⟨rfl, rfl⟩ := Prod.mk.inj heq
  obtain ⟨front, hfront⟩ := Array.back?_eq_some_iff.mp hlast
  simp [openNodes, hfront]

theorem openNodes_prune_of_depthFirst {f : Frontier α} (h : f.selection = .depthFirst)
    (i : Incumbent α) :
    (f.prune i).openNodes = f.openNodes.filter fun n => !n.canPrune i := by
  simp [prune, openNodes, h]

end Frontier

/-- Nodes of which no two have the same depth, from the least deep to the deepest, except that
the last two may be equally deep. -/
structure IsStaircase (nodes : List (Node α)) : Prop where
  below : nodes.dropLast.Pairwise fun a b => a.depth < b.depth
  top : nodes.Pairwise fun a b => a.depth ≤ b.depth

omit [Scalar α] in
theorem IsStaircase.of_pairwise {nodes : List (Node α)}
    (h : nodes.Pairwise fun a b => a.depth < b.depth) : IsStaircase nodes :=
  ⟨h.sublist (List.dropLast_sublist nodes), h.imp le_of_lt⟩

omit [Scalar α] in
/-- A staircase whose top gives way to two nodes that are one step deeper. -/
theorem IsStaircase.append_pair {nodes : List (Node α)} {node up down : Node α}
    (h : IsStaircase (nodes ++ [node])) (hup : up.depth = node.depth + 1)
    (hdown : down.depth = node.depth + 1) : IsStaircase (nodes ++ [up, down]) := by
  obtain ⟨hbelow, htop⟩ := h
  rw [List.dropLast_concat] at hbelow
  have hle : ∀ a ∈ nodes, a.depth ≤ node.depth := fun a ha =>
    (List.pairwise_append.mp htop).2.2 a ha node (List.mem_singleton_self node)
  have hup' : (nodes ++ [up]).Pairwise fun a b => a.depth < b.depth := by
    refine List.pairwise_append.mpr ⟨hbelow, List.pairwise_singleton _ up, ?_⟩
    intro a ha b hb
    rw [List.mem_singleton.mp hb, hup]
    exact Nat.lt_succ_of_le (hle a ha)
  rw [List.append_cons]
  refine ⟨?_, List.pairwise_append.mpr ⟨hup'.imp le_of_lt, List.pairwise_singleton _ down, ?_⟩⟩
  · rw [List.dropLast_concat]
    exact hup'
  · intro a ha b hb
    rw [List.mem_singleton.mp hb, hdown, ← hup]
    rcases List.mem_append.mp ha with ha | ha
    · exact le_of_lt ((List.pairwise_append.mp hup').2.2 a ha up (List.mem_singleton_self up))
    · rw [List.mem_singleton.mp ha]

namespace Tree

variable {problem : Problem α} {oracle : Oracle σ α} {clock : Clock} {t rest : Tree α} {s : σ}
  {i j k m : Nat} {node down up n : Node α} {outcome : Except (SearchError α) Disposition}

/-! ## Nodes and the turns that open and take them -/

/-- The next identifier is larger than those of the nodes that were ever open. -/
theorem id_lt_nextId
    (hn : n ∈ (after problem oracle clock t s j).tree.frontier.openNodes) (hle : j ≤ k) :
    n.id < (after problem oracle clock t s k).tree.nextId := by
  have hknown : n ∈ knownNodes problem oracle clock t s k
      (after problem oracle clock t s k).tree := mem_knownNodes.mpr ⟨j, hle, hn⟩
  exact List.mem_range.mp ((ids_perm_after problem oracle clock t s k).2.mem_iff.mp
    (List.mem_map_of_mem (f := Node.id) hknown))

/-- The halves of a node are new. -/
theorem SplitsAt.ne_of_mem (h : SplitsAt problem oracle clock t s k node down up rest)
    (hn : n ∈ (after problem oracle clock t s j).tree.frontier.openNodes) (hle : j ≤ k) :
    n ≠ down ∧ n ≠ up := by
  obtain ⟨r, s', f, old, -, -, -, hdown, hup⟩ := h.halves
  obtain ⟨d, -, -, rfl⟩ := Node.child_eq_ok hdown
  obtain ⟨d', -, -, rfl⟩ := Node.child_eq_ok hup
  have hlt := id_lt_nextId hn hle
  rw [← h.takes.takes.rest_counts.2] at hlt
  constructor
  · rintro rfl
    exact Nat.lt_irrefl _ hlt
  · rintro rfl
    exact Nat.not_succ_lt_self hlt

theorem SplitsAt.up_mem (h : SplitsAt problem oracle clock t s k node down up rest) :
    up ∈ (after problem oracle clock t s (k + 1)).tree.frontier.openNodes := by
  rw [h.frontier_eq, (Frontier.push_push_perm _ _ _).mem_iff]
  exact List.mem_cons_of_mem down List.mem_cons_self

/-- No node is taken twice. -/
theorem TakesAt.ne (h : TakesAt problem oracle clock t s j node rest outcome)
    {rest' : Tree α} {outcome' : Except (SearchError α) Disposition}
    (h' : TakesAt problem oracle clock t s k n rest' outcome') (hlt : j < k) : n ≠ node := by
  rintro rfl
  have hmem : n ∈ takenNodes problem oracle clock t s k := by
    apply (takenNodes_prefix_of_le hlt).subset
    rw [takenNodes_succ h]
    exact List.mem_append_right _ (List.mem_singleton_self n)
  have hnodup := (numbered_after problem oracle clock t s (k + 1)).taken
  rw [takenNodes_succ h', List.map_append, List.nodup_append] at hnodup
  exact hnodup.2.2 n.id (List.mem_map_of_mem (f := Node.id) hmem) n.id (by simp) rfl

/-! ## One turn -/

section

variable (hselection : t.settings.nodeSelection = .depthFirst)

include hselection

theorem TakesAt.selection_rest (h : TakesAt problem oracle clock t s k node rest outcome) :
    rest.frontier.selection = .depthFirst := by
  rw [Frontier.pop?_selection (nextNode?_eq_some h.takes.next).1, selection_after, hselection]

/-- A split puts the halves of the node on the stack, the lower one on top. -/
theorem SplitsAt.stack (h : SplitsAt problem oracle clock t s k node down up rest) :
    (after problem oracle clock t s (k + 1)).tree.frontier.openNodes =
      rest.frontier.openNodes ++ [up, down] := by
  have hrest := h.takes.selection_rest hselection
  have hpushed := (Frontier.push_selection rest.frontier up).trans hrest
  rw [h.frontier_eq, Frontier.openNodes_push_of_depthFirst hpushed,
    Frontier.openNodes_push_of_depthFirst hrest, ← List.append_cons]

/-- A turn takes the top of the stack.  Unless it splits that node, it puts nothing on the
rest. -/
theorem TakesAt.stack (h : TakesAt problem oracle clock t s k node rest outcome) :
    (after problem oracle clock t s k).tree.frontier.openNodes =
        rest.frontier.openNodes ++ [node] ∧
      ((after problem oracle clock t s (k + 1)).tree.frontier.openNodes.Sublist
          rest.frontier.openNodes ∨
        ∃ down up, SplitsAt problem oracle clock t s k node down up rest) := by
  have hrest := h.selection_rest hselection
  refine ⟨Frontier.openNodes_of_pop?_depthFirst ((selection_after k).trans hselection)
    (nextNode?_eq_some h.takes.next).1, ?_⟩
  cases h.takes.tally with
  | kept _ _ _ hfrontier =>
      left
      rw [hfrontier]
  | improved _ _ _ hfrontier =>
      left
      rw [hfrontier, Frontier.openNodes_prune_of_depthFirst hrest]
      exact List.filter_sublist
  | split => exact Or.inr h.exists_splitsAt

/-- After a split the lower half is taken. -/
theorem SplitsAt.eq_down (h : SplitsAt problem oracle clock t s k node down up rest)
    {rest' : Tree α} (hnext : TakesAt problem oracle clock t s (k + 1) n rest' outcome) :
    n = down := by
  have hstack := (hnext.stack hselection).1
  rw [h.stack hselection, List.append_cons] at hstack
  exact (List.singleton_inj.mp (List.append_inj_right' hstack rfl)).symm

/-- A node that was open before a turn, and is open after it, is below the node taken. -/
theorem TakesAt.mem_rest (h : TakesAt problem oracle clock t s k node rest outcome)
    (hbefore : n ∈ (after problem oracle clock t s j).tree.frontier.openNodes) (hle : j ≤ k)
    (hafter : n ∈ (after problem oracle clock t s (k + 1)).tree.frontier.openNodes) :
    n ∈ rest.frontier.openNodes := by
  rcases (h.stack hselection).2 with hsublist | ⟨down, up, hsplits⟩
  · exact hsublist.subset hafter
  · obtain ⟨hdown, hup⟩ := hsplits.ne_of_mem hbefore hle
    rw [hsplits.stack hselection] at hafter
    simpa [hdown, hup] using hafter

/-- A node is open from the turn that opens it to the turn that takes it. -/
theorem mem_openNodes_between
    (hfirst : n ∈ (after problem oracle clock t s i).tree.frontier.openNodes)
    (hlast : n ∈ (after problem oracle clock t s m).tree.frontier.openNodes)
    (hij : i ≤ j) (hjm : j ≤ m) :
    n ∈ (after problem oracle clock t s j).tree.frontier.openNodes := by
  induction m, hjm using Nat.le_induction with
  | base => exact hlast
  | succ m hjm ih =>
      apply ih
      by_cases hm : (after problem oracle clock t s m).verdict = .running
      · obtain ⟨node, rest, outcome, h⟩ := exists_takesAt hm
        have hrest := h.mem_rest hselection hfirst (hij.trans hjm) hlast
        rw [(h.stack hselection).1]
        exact List.mem_append_left _ hrest
      · rwa [after_succ_of_not_running hm] at hlast

/-! ## Between the halves of a node -/

/-- What lies on the upper half of a node is the lower half or a descendant of it. -/
theorem SplitsAt.pairwise_descends
    (h : SplitsAt problem oracle clock t s k node down up rest) (hle : k + 1 ≤ m) :
    (after problem oracle clock t s m).tree.frontier.openNodes.Pairwise fun a b =>
      a = up → b = down ∨ Descends problem oracle clock t s down b := by
  induction m, hle using Nat.le_induction with
  | base =>
      -- the halves are new, so nothing below them is the upper half
      have hold : ∀ a ∈ rest.frontier.openNodes, a ≠ up := by
        intro a ha
        have hopen : a ∈ (after problem oracle clock t s k).tree.frontier.openNodes := by
          rw [(h.takes.stack hselection).1]
          exact List.mem_append_left _ ha
        exact (h.ne_of_mem hopen le_rfl).2
      rw [h.stack hselection, List.pairwise_append]
      refine ⟨?_, by simp, fun a ha _ _ heq => absurd heq (hold a ha)⟩
      exact List.pairwise_of_forall_mem_list fun a ha _ _ heq => absurd heq (hold a ha)
  | succ m hle ih =>
      by_cases hm : (after problem oracle clock t s m).verdict = .running
      · obtain ⟨node', rest', outcome', h'⟩ := exists_takesAt hm
        obtain ⟨hstack, hturn⟩ := h'.stack hselection
        rw [hstack, List.pairwise_append] at ih
        obtain ⟨hrest, -, hnode⟩ := ih
        rcases hturn with hsublist | ⟨down', up', hsplits⟩
        · exact hrest.sublist hsublist
        · -- what lies below the new halves lay below the node that was split
          have hnew := (hsplits.ne_of_mem h.up_mem hle).2
          rw [hsplits.stack hselection, List.pairwise_append]
          refine ⟨hrest, by simp [hnew.symm], ?_⟩
          intro a ha b hb heq
          have hhalf : IsHalf problem oracle clock t s node' b := by
            rcases List.mem_pair.mp hb with rfl | rfl
            · exact hsplits.isHalf_up
            · exact hsplits.isHalf_down
          rcases hnode a ha node' (List.mem_singleton_self node') heq with rfl | hdescends
          · exact Or.inr (Relation.TransGen.single hhalf)
          · exact Or.inr (hdescends.tail hhalf)
      · rwa [after_succ_of_not_running hm]

/-- Between the halves of a node only descendants of the lower half are taken. -/
theorem SplitsAt.descends (h : SplitsAt problem oracle clock t s k node down up rest)
    {restUp rest' : Tree α} {outcomeUp : Except (SearchError α) Disposition}
    (hup : TakesAt problem oracle clock t s m up restUp outcomeUp)
    (hj : TakesAt problem oracle clock t s j n rest' outcome) (hkj : k + 1 < j) (hjm : j < m) :
    Descends problem oracle clock t s down n := by
  have hlast := hup.takes.openNodes_perm.mem_iff.mpr List.mem_cons_self
  have hafter := mem_openNodes_between hselection h.up_mem hlast (Nat.le_succ_of_le hkj.le) hjm
  have hrest := hj.mem_rest hselection h.up_mem hkj.le hafter
  have hpairs := h.pairwise_descends hselection hkj.le
  rw [(hj.stack hselection).1, List.pairwise_append] at hpairs
  rcases hpairs.2.2 up hrest n (List.mem_singleton_self n) rfl with heq | hdescends
  · obtain ⟨node', rest'', outcome', hnext⟩ := exists_takesAt (running_of_le hj.running hkj.le)
    exact absurd (heq.trans (h.eq_down hselection hnext).symm) (hnext.ne hj hkj)
  · exact hdescends

/-! ## Shape of the stack -/

variable (problem oracle clock s) in
theorem isStaircase_after (k : Nat) :
    IsStaircase (after problem oracle clock t s k).tree.frontier.openNodes := by
  induction k with
  | zero =>
      rw [after, openNodes_restart]
      exact .of_pairwise (List.pairwise_singleton _ _)
  | succ k ih =>
      by_cases hk : (after problem oracle clock t s k).verdict = .running
      · obtain ⟨node, rest, outcome, h⟩ := exists_takesAt hk
        obtain ⟨hstack, hturn⟩ := h.stack hselection
        rw [hstack] at ih
        rcases hturn with hsublist | ⟨down, up, hsplits⟩
        · have hbelow := ih.below
          rw [List.dropLast_concat] at hbelow
          exact .of_pairwise (hbelow.sublist hsublist)
        · rw [hsplits.stack hselection]
          exact ih.append_pair hsplits.isHalf_up.fields.2.1 hsplits.isHalf_down.fields.2.1
      · rwa [after_succ_of_not_running hk]

end

theorem depth_le_after (k : Nat) :
    ∀ n ∈ (after problem oracle clock t s k).tree.frontier.openNodes,
      n.depth ≤ (after problem oracle clock t s k).tree.stats.maxDepth + 1 := by
  induction k with
  | zero =>
      intro n hn
      rw [after, openNodes_restart, List.mem_singleton] at hn
      rw [hn]
      exact Nat.zero_le _
  | succ k ih =>
      by_cases hk : (after problem oracle clock t s k).verdict = .running
      · obtain ⟨node, rest, outcome, h⟩ := exists_takesAt hk
        have hmax := (Counts.mk.inj h.takes.rest_counts.1).2.2.2.2.2
        intro n hn
        rw [h.takes.tally.maxDepth_eq, hmax]
        rcases h.mem_openNodes_succ hn with hold | hhalf
        · have hle := ih n (h.takes.openNodes_perm.mem_iff.mpr (List.mem_cons_of_mem node hold))
          exact hle.trans (Nat.succ_le_succ (le_max_left _ _))
        · rw [hhalf.fields.2.1]
          exact Nat.succ_le_succ (le_max_right _ _)
      · rwa [after_succ_of_not_running hk]

/-- After the first turn the root is not open. -/
theorem depth_pos_after (k : Nat) :
    ∀ n ∈ (after problem oracle clock t s (k + 1)).tree.frontier.openNodes, 0 < n.depth := by
  intro n hn
  rcases openNodes_eq_root_or_isHalf problem oracle clock t s (k + 1) n hn with
    ⟨hk, -⟩ | ⟨p, hhalf⟩
  · cases hk
  · rw [hhalf.fields.2.1]
    exact Nat.succ_pos p.depth

variable (problem oracle clock s) in
theorem size_le_after (hselection : t.settings.nodeSelection = .depthFirst) (k : Nat) :
    (after problem oracle clock t s k).tree.frontier.size ≤
      (after problem oracle clock t s k).tree.stats.maxDepth + 2 := by
  cases k with
  | zero =>
      have hsize : (after problem oracle clock t s 0).tree.frontier.size = 1 :=
        congrArg List.length (openNodes_restart t problem.rootDomain (clock 0))
      rw [hsize]
      exact Nat.le_add_left 1 _
  | succ k =>
      -- the depths below the top are distinct, and lie between one and the greatest depth
      have hbelow := (isStaircase_after problem oracle clock s hselection (k + 1)).below
      have hnodup : ((after problem oracle clock t s
          (k + 1)).tree.frontier.openNodes.dropLast.map Node.depth).Nodup :=
        List.pairwise_map.mpr (hbelow.imp ne_of_lt)
      have hrange : (after problem oracle clock t s
          (k + 1)).tree.frontier.openNodes.dropLast.map Node.depth ⊆
          List.range' 1 ((after problem oracle clock t s (k + 1)).tree.stats.maxDepth + 1) := by
        intro d hd
        obtain ⟨n, hn, rfl⟩ := List.mem_map.mp hd
        have hopen := List.mem_of_mem_dropLast hn
        have hpos := depth_pos_after k n hopen
        have hle := depth_le_after (k + 1) n hopen
        rw [List.mem_range'_1]
        omega
      have hlength := (List.subperm_of_subset hnodup hrange).length_le
      rw [List.length_map, List.length_dropLast, List.length_range'] at hlength
      have hsize := Nat.sub_le_iff_le_add.mp hlength
      exact hsize

/-- **Depth-first order.**  In a depth-first search, the node taken after a split is the lower
half.  If the upper half is ever taken, every node taken between the two descends from the
lower half.  The depths increase from the bottom of the stack to its top, except that the top
two nodes may be equally deep; so the number of open nodes exceeds the greatest depth by two
at most. -/
theorem depthFirst_order (problem : Problem α) (oracle : Oracle σ α) (clock : Clock) (s : σ)
    (hselection : t.settings.nodeSelection = .depthFirst) :
    (∀ k node rest, TakesAt problem oracle clock t s k node rest (.ok .branched) →
      ∃ down up, SplitsAt problem oracle clock t s k node down up rest ∧
        (∀ next rest' outcome, TakesAt problem oracle clock t s (k + 1) next rest' outcome →
          next = down) ∧
        ∀ m restUp outcomeUp, TakesAt problem oracle clock t s m up restUp outcomeUp →
          ∀ j, k + 1 < j → j < m →
          ∀ n rest' outcome, TakesAt problem oracle clock t s j n rest' outcome →
            Descends problem oracle clock t s down n) ∧
    ∀ k, IsStaircase (after problem oracle clock t s k).tree.frontier.openNodes ∧
      (after problem oracle clock t s k).tree.frontier.size ≤
        (after problem oracle clock t s k).tree.stats.maxDepth + 2 := by
  constructor
  · intro k node rest htakes
    obtain ⟨down, up, h⟩ := htakes.exists_splitsAt
    refine ⟨down, up, h, ?_, ?_⟩
    · intro next rest' outcome hnext
      exact h.eq_down hselection hnext
    · intro m restUp outcomeUp hup j hkj hjm n rest' outcome hj
      exact h.descends hselection hup hj hkj hjm
  · intro k
    exact ⟨isStaircase_after problem oracle clock s hselection k,
      size_le_after problem oracle clock s hselection k⟩

/-- In the search for the greatest of four integers the upper half of the root is taken in the
fifth turn, after the lower half and both halves of that one. -/
theorem depthFirst_sample_order :
    let start : Tree Float := create (Settings.sample 10)
    let oracle : Oracle Unit Float := Corner.middle.oracle [Scalar.ofInt (-1)]
    ∃ root down up rest restUp outcomeUp,
      SplitsAt Problem.sample oracle .frozen start () 0 root down up rest ∧
      TakesAt Problem.sample oracle .frozen start () 4 up restUp outcomeUp ∧
      (∀ j, 1 < j → j < 4 → ∃ n rest' outcome,
        TakesAt Problem.sample oracle .frozen start () j n rest' outcome ∧
        Descends Problem.sample oracle .frozen start () down n) ∧
      ∀ k, (after Problem.sample oracle .frozen start () k).tree.frontier.size ≤
        (after Problem.sample oracle .frozen start () k).tree.stats.maxDepth + 2 := by
  intro start oracle
  obtain ⟨hbetween, hshape⟩ := depthFirst_order (t := start) Problem.sample oracle .frozen () rfl
  have hroot : (after Problem.sample oracle .frozen start () 0).tree.nextNode?.any (fun popped =>
      (processNode Problem.sample oracle (Clock.frozen 0) popped.2 () popped.1).outcome ==
        .ok .branched) = true := by
    decide +kernel
  obtain ⟨⟨root, rest⟩, hnext, houtcome⟩ := (Option.any_eq_true _ _).mp hroot
  have htakes : TakesAt Problem.sample oracle .frozen start () 0 root rest (.ok .branched) := by
    rw [← beq_iff_eq.mp houtcome]
    exact takesAt_of_next rfl hnext
  obtain ⟨down, up, hsplits, -, hdescends⟩ := hbetween 0 root rest htakes
  have hrunning : (after Problem.sample oracle .frozen start () 4).verdict = .running := by
    decide +kernel
  have hfifth : (after Problem.sample oracle .frozen start () 4).tree.nextNode?.map Prod.fst =
      List.getLast? (List.dropLast
        (after Problem.sample oracle .frozen start () 1).tree.frontier.openNodes) := by
    decide +kernel
  obtain ⟨node, restUp, outcomeUp, hup⟩ := exists_takesAt hrunning
  rw [hup.takes.next, hsplits.stack rfl, List.append_cons, List.dropLast_concat,
    List.getLast?_concat] at hfifth
  obtain rfl := Option.some.inj hfifth
  refine ⟨root, down, node, rest, restUp, outcomeUp, hsplits, hup, ?_, fun k => (hshape k).2⟩
  intro j hj hj'
  obtain ⟨n, rest', outcome, htaken⟩ := exists_takesAt (running_of_le hrunning hj'.le)
  exact ⟨n, rest', outcome, htaken, hdescends 4 restUp outcomeUp hup j hj hj' n rest' outcome htaken⟩

end Tree
end BranchBound
