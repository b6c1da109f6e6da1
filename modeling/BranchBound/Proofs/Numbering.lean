import BranchBound.Proofs.OracleCalls
import Mathlib.Tactic.Abel

/-!
# Numbering of the nodes

The nodes that a search has known are those that it took, those that a new incumbent
swept out of the frontier, and those that are open; they are the nodes that were ever
open.  A split makes two nodes known, and nothing else does.  So they bear the
identifiers up to the number of splits, doubled, each of them once, and a child has a
larger identifier than its parent.
-/

namespace BranchBound
namespace Tree

variable {α : Type} [Scalar α] {σ : Type}

/-- The open nodes that the incumbent of a later search dominates. -/
def sweptBy (t tree : Tree α) : List (Node α) :=
  t.frontier.openNodes.filter fun n => n.canPrune tree.incumbent

/-- Some nodes are opened as children of a node, with the next identifiers. -/
structure Opens (t : Tree α) (node : Node α) (opened : List (Node α)) (tree : Tree α) :
    Prop where
  ids : opened.map Node.id = List.range' t.nextId opened.length
  nextId : tree.nextId = t.nextId + opened.length
  branched : 2 * tree.stats.branched = 2 * t.stats.branched + opened.length
  parent : ∀ n ∈ opened, n.parent = some node.id ∧ n.depth = node.depth + 1

/-! ## One turn -/

namespace Tally

variable {problem : Problem α} {oracle : Oracle σ α} {now : Duration} {t tree : Tree α}
  {s : σ} {node : Node α} {outcome : Except (SearchError α) Disposition}

/-- The nodes swept and the open ones are those that were open before, and at most two
children. -/
theorem exists_opens (h : t.Tally problem oracle now s node outcome tree)
    (hswept : t.IsSwept) :
    ∃ opened, (t.sweptBy tree ++ tree.frontier.openNodes).Perm
      (opened ++ t.frontier.openNodes) ∧ t.Opens node opened tree := by
  have hnone (hincumbent : tree.incumbent = t.incumbent) : t.sweptBy tree = [] := by
    rw [sweptBy, hincumbent, List.filter_eq_nil_iff]
    intro n hn
    rw [hswept n hn]
    exact Bool.false_ne_true
  cases h with
  | kept hsplit _ _ hfrontier hincumbent hnextId hcounts =>
      refine ⟨[], ?_, rfl, hnextId, ?_, by simp⟩
      · rw [hnone hincumbent, hfrontier]
      · rw [(Counts.mk.inj hcounts).2.2.1]
        rfl
  | improved _ _ _ hfrontier _ hnextId hcounts =>
      refine ⟨[], ?_, rfl, hnextId, ?_, by simp⟩
      · rw [hfrontier]
        exact ((Frontier.prune_perm _ _).append_left _).trans (List.filter_append_perm _ _)
      · rw [(Counts.mk.inj hcounts).2.2.1]
        rfl
  | @split _ _ _ _ _ down up _ _ hdown hup hfrontier hincumbent hnextId hcounts =>
      refine ⟨[down, up], ?_, ?_, hnextId, ?_, ?_⟩
      · rw [hnone hincumbent, hfrontier]
        exact Frontier.push_push_perm _ _ _
      · obtain ⟨d, -, -, rfl⟩ := Node.child_eq_ok hdown
        obtain ⟨d', -, -, rfl⟩ := Node.child_eq_ok hup
        rfl
      · rw [(Counts.mk.inj hcounts).2.2.1]
        rfl
      · obtain ⟨d, -, -, rfl⟩ := Node.child_eq_ok hdown
        obtain ⟨d', -, -, rfl⟩ := Node.child_eq_ok hup
        simp

theorem maxDepth_eq (h : t.Tally problem oracle now s node outcome tree) :
    tree.stats.maxDepth = t.stats.maxDepth := by
  cases h with
  | kept _ _ _ _ _ _ hcounts => exact congrArg Counts.maxDepth hcounts
  | improved _ _ _ _ _ _ hcounts => exact congrArg Counts.maxDepth hcounts
  | split _ _ _ _ _ _ _ hcounts => exact congrArg Counts.maxDepth hcounts

end Tally

/-- No depth that the tree has recorded or still holds exceeds its number of splits. -/
def IsShallow (t : Tree α) : Prop :=
  t.stats.maxDepth ≤ t.stats.branched ∧
    ∀ n ∈ t.frontier.openNodes, n.depth ≤ t.stats.branched

/-- Depths grow no faster than the number of splits. -/
theorem Takes.isShallow {problem : Problem α} {oracle : Oracle σ α} {before after : Duration}
    {t rest : Tree α} {s : σ} {node : Node α} {outcome : Except (SearchError α) Disposition}
    {turn : Turn σ α} (h : Takes problem oracle before after t s node rest outcome turn)
    (hswept : t.IsSwept) (hdepth : t.IsShallow) : turn.tree.IsShallow := by
  obtain ⟨-, -, hbranched, -, -, hmax⟩ := Counts.mk.inj h.rest_counts.1
  obtain ⟨opened, hperm, hopens⟩ := h.tally.exists_opens (h.canPrune_eq_false hswept).2
  have hgrow := hopens.branched
  have hnode : node.depth ≤ t.stats.branched :=
    hdepth.2 node (h.openNodes_perm.mem_iff.mpr List.mem_cons_self)
  simp only [Statistics.counts] at hbranched hmax
  constructor
  · have hrecorded := hdepth.1
    rw [h.tally.maxDepth_eq, hmax]
    omega
  · intro n hn
    rcases List.mem_append.mp (hperm.mem_iff.mp (List.mem_append_right _ hn)) with hnew | hold
    · have hpos := List.length_pos_of_mem hnew
      rw [(hopens.parent n hnew).2]
      omega
    · have hle := hdepth.2 n (h.openNodes_perm.mem_iff.mpr (List.mem_cons_of_mem node hold))
      omega

/-! ## Turn after turn -/

/-- The nodes that new incumbents swept out of the frontier in the first turns. -/
def sweptNodes (problem : Problem α) (oracle : Oracle σ α) (clock : Clock) (t : Tree α)
    (s : σ) (k : Nat) : List (Node α) :=
  gather (fun _ rest tree => rest.sweptBy tree) problem oracle clock t s k

/-- The nodes that a search has known after a number of turns: those it took, those it
swept out, and those that are open. -/
def knownNodes (problem : Problem α) (oracle : Oracle σ α) (clock : Clock) (t : Tree α)
    (s : σ) (k : Nat) (tree : Tree α) : List (Node α) :=
  takenNodes problem oracle clock t s k ++ sweptNodes problem oracle clock t s k ++
    tree.frontier.openNodes

variable {problem : Problem α} {oracle : Oracle σ α} {clock : Clock} {t : Tree α} {s : σ}
  {k : Nat}

theorem sweptNodes_succ {node : Node α} {rest : Tree α}
    {outcome : Except (SearchError α) Disposition}
    (h : TakesAt problem oracle clock t s k node rest outcome) :
    sweptNodes problem oracle clock t s (k + 1) = sweptNodes problem oracle clock t s k ++
      rest.sweptBy (after problem oracle clock t s (k + 1)).tree :=
  gather_succ h

theorem knownNodes_succ_of_not_running (tree : Tree α)
    (hk : (after problem oracle clock t s k).verdict ≠ .running) :
    knownNodes problem oracle clock t s (k + 1) tree =
      knownNodes problem oracle clock t s k tree := by
  unfold knownNodes takenNodes sweptNodes
  rw [gather_succ_of_not_running hk, gather_succ_of_not_running hk]

/-- A turn makes at most two nodes known, and forgets none. -/
theorem knownNodes_succ {node : Node α} {rest : Tree α}
    {outcome : Except (SearchError α) Disposition}
    (h : TakesAt problem oracle clock t s k node rest outcome) :
    ∃ opened, (knownNodes problem oracle clock t s (k + 1)
        (after problem oracle clock t s (k + 1)).tree).Perm
      (opened ++ knownNodes problem oracle clock t s k (after problem oracle clock t s k).tree) ∧
      rest.Opens node opened (after problem oracle clock t s (k + 1)).tree := by
  obtain ⟨opened, hperm, hopens⟩ :=
    h.takes.tally.exists_opens (h.takes.canPrune_eq_false (isSwept_after k)).2
  refine ⟨opened, ?_, hopens⟩
  have hopen := h.takes.openNodes_perm
  unfold knownNodes
  rw [takenNodes_succ h, sweptNodes_succ h]
  rw [← Multiset.coe_eq_coe] at hperm hopen ⊢
  simp only [← Multiset.coe_add, ← Multiset.cons_coe, Multiset.coe_nil,
    ← Multiset.singleton_add, add_zero] at hperm hopen ⊢
  rw [hopen, add_assoc, add_assoc (sweptNodes problem oracle clock t s k : Multiset (Node α)),
    hperm]
  abel

theorem mem_knownNodes {n : Node α} :
    n ∈ knownNodes problem oracle clock t s k (after problem oracle clock t s k).tree ↔
      ∃ j ≤ k, n ∈ (after problem oracle clock t s j).tree.frontier.openNodes := by
  induction k with
  | zero => simp [knownNodes, takenNodes, sweptNodes, gather]
  | succ k ih =>
      by_cases hk : (after problem oracle clock t s k).verdict = .running
      · obtain ⟨node, rest, outcome, h⟩ := exists_takesAt hk
        obtain ⟨opened, hperm, -⟩ := knownNodes_succ h
        constructor
        · intro hn
          rw [knownNodes, takenNodes_succ h, sweptNodes_succ h] at hn
          simp only [List.mem_append, List.mem_singleton] at hn
          have hbefore {m : Node α} (hm : m ∈ node :: rest.frontier.openNodes) :
              ∃ j ≤ k + 1, m ∈ (after problem oracle clock t s j).tree.frontier.openNodes :=
            ⟨k, Nat.le_succ k, h.takes.openNodes_perm.mem_iff.mpr hm⟩
          have hknown (hn : n ∈ knownNodes problem oracle clock t s k
              (after problem oracle clock t s k).tree) :
              ∃ j ≤ k + 1, n ∈ (after problem oracle clock t s j).tree.frontier.openNodes := by
            obtain ⟨j, hj, hn⟩ := ih.mp hn
            exact ⟨j, Nat.le_succ_of_le hj, hn⟩
          rcases hn with ((hn | rfl) | hn | hn) | hn
          · exact hknown (List.mem_append_left _ (List.mem_append_left _ hn))
          · exact hbefore List.mem_cons_self
          · exact hknown (List.mem_append_left _ (List.mem_append_right _ hn))
          · exact hbefore (List.mem_cons_of_mem node (List.mem_of_mem_filter hn))
          · exact ⟨k + 1, le_rfl, hn⟩
        · rintro ⟨j, hj, hn⟩
          rcases Nat.le_succ_iff.mp hj with hj | rfl
          · exact hperm.mem_iff.mpr (List.mem_append_right opened (ih.mpr ⟨j, hj, hn⟩))
          · exact List.mem_append_right _ hn
      · rw [knownNodes_succ_of_not_running _ hk, after_succ_of_not_running hk, ih]
        constructor
        · rintro ⟨j, hj, hn⟩
          exact ⟨j, Nat.le_succ_of_le hj, hn⟩
        · rintro ⟨j, hj, hn⟩
          rcases Nat.le_succ_iff.mp hj with hj | rfl
          · exact ⟨j, hj, hn⟩
          · rw [after_succ_of_not_running hk] at hn
            exact ⟨k, le_rfl, hn⟩

variable (problem oracle clock t s) in
/-- The nodes known bear the identifiers given so far, each of them once. -/
theorem ids_perm_after (k : Nat) :
    (after problem oracle clock t s k).tree.nextId =
        2 * (after problem oracle clock t s k).tree.stats.branched + 1 ∧
      ((knownNodes problem oracle clock t s k (after problem oracle clock t s k).tree).map
        Node.id).Perm (List.range (after problem oracle clock t s k).tree.nextId) := by
  induction k with
  | zero =>
      refine ⟨rfl, ?_⟩
      have hopen := openNodes_restart t problem.rootDomain (clock 0)
      simp only [knownNodes, takenNodes, sweptNodes, gather, List.nil_append]
      rw [after, hopen]
      exact List.Perm.refl _
  | succ k ih =>
      by_cases hk : (after problem oracle clock t s k).verdict = .running
      · obtain ⟨node, rest, outcome, h⟩ := exists_takesAt hk
        obtain ⟨opened, hperm, hopens⟩ := knownNodes_succ h
        obtain ⟨hrest, hrestId⟩ := h.takes.rest_counts
        have hbranched : rest.stats.branched =
            (after problem oracle clock t s k).tree.stats.branched :=
          congrArg Counts.branched hrest
        obtain ⟨hids, hnextId, hgrow, -⟩ := hopens
        rw [hrestId] at hids hnextId
        constructor
        · omega
        · have hmap := hperm.map Node.id
          rw [List.map_append, hids, List.range'_eq_map_range] at hmap
          rw [hnextId, List.range_add]
          exact hmap.trans (List.perm_append_comm.trans (ih.2.append_right _))
      · rw [knownNodes_succ_of_not_running _ hk, after_succ_of_not_running hk]
        exact ih

theorem parent_after (k : Nat) :
    ∀ n ∈ knownNodes problem oracle clock t s k (after problem oracle clock t s k).tree,
      n.id = 0 ∨ ∃ p ∈ takenNodes problem oracle clock t s k,
        n.parent = some p.id ∧ p.id < n.id ∧ n.depth = p.depth + 1 := by
  induction k with
  | zero =>
      intro n hn
      simp only [knownNodes, takenNodes, sweptNodes, gather, List.nil_append] at hn
      rw [after, openNodes_restart, List.mem_singleton] at hn
      exact Or.inl (by rw [hn]; rfl)
  | succ k ih =>
      by_cases hk : (after problem oracle clock t s k).verdict = .running
      · obtain ⟨node, rest, outcome, h⟩ := exists_takesAt hk
        obtain ⟨opened, hperm, hopens⟩ := knownNodes_succ h
        intro n hn
        rw [takenNodes_succ h]
        rcases List.mem_append.mp (hperm.mem_iff.mp hn) with hnew | hold
        · right
          obtain ⟨hparent, hdepth⟩ := hopens.parent n hnew
          refine ⟨node, by simp, hparent, ?_, hdepth⟩
          -- the node was known before, and the child got a new identifier
          have hnode : node ∈ knownNodes problem oracle clock t s k
              (after problem oracle clock t s k).tree :=
            List.mem_append_right _ (h.takes.openNodes_perm.mem_iff.mpr List.mem_cons_self)
          have hlt := List.mem_range.mp
            ((ids_perm_after problem oracle clock t s k).2.mem_iff.mp
              (List.mem_map_of_mem (f := Node.id) hnode))
          have hge := List.mem_map_of_mem (f := Node.id) hnew
          rw [hopens.ids, h.takes.rest_counts.2, List.mem_range'_1] at hge
          exact hlt.trans_le hge.1
        · rcases ih n hold with hroot | ⟨p, hp, hparent⟩
          · exact Or.inl hroot
          · exact Or.inr ⟨p, List.mem_append_left _ hp, hparent⟩
      · rw [knownNodes_succ_of_not_running _ hk, after_succ_of_not_running hk, takenNodes,
          gather_succ_of_not_running hk]
        exact ih

/-- How the nodes that a search has known are numbered. -/
structure Numbered (problem : Problem α) (oracle : Oracle σ α) (clock : Clock) (t : Tree α)
    (s : σ) (k : Nat) (tree : Tree α) : Prop where
  /-- They are the nodes that were ever open. -/
  known : ∀ n, n ∈ knownNodes problem oracle clock t s k tree ↔
    ∃ j ≤ k, n ∈ (after problem oracle clock t s j).tree.frontier.openNodes
  ids : ((knownNodes problem oracle clock t s k tree).map Node.id).Perm
    (List.range (2 * tree.stats.branched + 1))
  /-- No node is taken twice. -/
  taken : ((takenNodes problem oracle clock t s k).map Node.id).Nodup
  parent : ∀ n ∈ knownNodes problem oracle clock t s k tree, n.id = 0 ∨
    ∃ p ∈ takenNodes problem oracle clock t s k,
      n.parent = some p.id ∧ p.id < n.id ∧ n.depth = p.depth + 1

/-- The same nodes are known to every search with the same open nodes. -/
theorem Numbered.congr {tree tree' : Tree α} (h : Numbered problem oracle clock t s k tree)
    (hfrontier : tree'.frontier = tree.frontier)
    (hbranched : tree'.stats.branched = tree.stats.branched) :
    Numbered problem oracle clock t s k tree' := by
  have hknown : knownNodes problem oracle clock t s k tree' =
      knownNodes problem oracle clock t s k tree := by
    unfold knownNodes
    rw [hfrontier]
  refine ⟨?_, ?_, h.taken, ?_⟩
  · rw [hknown]
    exact h.known
  · rw [hknown, hbranched]
    exact h.ids
  · rw [hknown]
    exact h.parent

variable (problem oracle clock t s) in
theorem numbered_after (k : Nat) :
    Numbered problem oracle clock t s k (after problem oracle clock t s k).tree := by
  obtain ⟨hnextId, hids⟩ := ids_perm_after problem oracle clock t s k
  refine ⟨fun n => mem_knownNodes, ?_, ?_, parent_after k⟩
  · rwa [hnextId] at hids
  · have hnodup := hids.nodup_iff.mpr List.nodup_range
    rw [knownNodes, List.map_append, List.map_append] at hnodup
    exact hnodup.of_append_left.of_append_left

variable (problem oracle clock t s) in
/-- Every node known was taken, swept out, or is open. -/
theorem explored_add_swept_add_open (k : Nat) :
    (after problem oracle clock t s k).tree.stats.explored +
        (sweptNodes problem oracle clock t s k).length +
        (after problem oracle clock t s k).tree.frontier.size =
      2 * (after problem oracle clock t s k).tree.stats.branched + 1 := by
  have hlength := (numbered_after problem oracle clock t s k).ids.length_eq
  simp only [knownNodes, List.length_map, List.length_append, List.length_range,
    length_takenNodes] at hlength
  exact hlength

/-- Without an incumbent no node is swept out. -/
theorem sweptNodes_eq_nil
    (habsent : (after problem oracle clock t s k).tree.incumbent.isPresent = false) :
    sweptNodes problem oracle clock t s k = [] := by
  induction k with
  | zero => rfl
  | succ k ih =>
      by_cases hk : (after problem oracle clock t s k).verdict = .running
      · obtain ⟨node, rest, outcome, h⟩ := exists_takesAt hk
        have hnone : rest.sweptBy (after problem oracle clock t s (k + 1)).tree = [] := by
          rw [sweptBy, List.filter_eq_nil_iff]
          intro n _
          simp [Node.canPrune, Incumbent.dominates, habsent]
        rw [sweptNodes_succ h, hnone, List.append_nil]
        apply ih
        cases h.takes.tally with
        | kept _ _ _ _ hincumbent => rwa [hincumbent, h.takes.rest_eq.2.1] at habsent
        | improved _ _ himproves _ hincumbent =>
            rw [hincumbent, Incumbent.consider_of_improves himproves] at habsent
            cases habsent
        | split _ _ _ _ _ hincumbent => rwa [hincumbent, h.takes.rest_eq.2.1] at habsent
      · rw [after_succ_of_not_running hk] at habsent
        rw [sweptNodes, gather_succ_of_not_running hk]
        exact ih habsent

theorem isShallow_after (k : Nat) : (after problem oracle clock t s k).tree.IsShallow := by
  apply after_invariant (fun turn => turn.tree.IsShallow)
  · refine ⟨le_rfl, ?_⟩
    intro n hn
    rw [openNodes_restart, List.mem_singleton] at hn
    rw [hn]
    exact le_rfl
  · intro k node rest outcome turn _ hdepth htakes
    exact htakes.isShallow (isSwept_after k) hdepth

end Tree
end BranchBound
