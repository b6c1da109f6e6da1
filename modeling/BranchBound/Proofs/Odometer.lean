import BranchBound.Proofs.EnumeratedPoints

/-!
# Odometers

The enumeration of a box as a loop over one point, without a counter.  The point advances like
an odometer: the first coordinate that is not at its last value moves up, and the coordinates
before it start again.

From the least point of a box the loop passes every integer point of the box once and then
ends.  It passes them in the order that is decided by the last coordinate in which two points
differ, which is the order of the nested visits of `foldPoints`.
-/

namespace BranchBound

namespace Enumeration

/-! ## The loop -/

/-- The point after a point; none if every coordinate is at its last value. -/
def next? : List Span → List ℤ → Option (List ℤ)
  | span :: spans, n :: point =>
      if n < span.last then some ((n + 1) :: point)
      else (next? spans point).map (span.start :: ·)
  | _, _ => none

/-- How often a point can advance. -/
def remaining : List Span → List ℤ → ℕ
  | span :: spans, n :: point =>
      (span.last - n).toNat + ((span.last - span.start).toNat + 1) * remaining spans point
  | _, _ => 0

variable {spans : List Span} {point p q : List ℤ}

/-- The coordinates that start again cost less than the one that moves up. -/
theorem remaining_lt (h : next? spans p = some q) : remaining spans q < remaining spans p := by
  induction spans, p using next?.induct generalizing q with
  | case1 span spans n point hlt =>
      rw [next?, if_pos hlt] at h
      obtain rfl := Option.some.inj h
      simp only [remaining]
      omega
  | case2 span spans n point hlt ih =>
      rw [next?, if_neg hlt, Option.map_eq_some_iff] at h
      obtain ⟨rest, hrest, rfl⟩ := h
      have hcarry := Nat.mul_le_mul_left ((span.last - span.start).toNat + 1)
        (Nat.succ_le_of_lt (ih hrest))
      rw [Nat.mul_succ] at hcarry
      simp only [remaining]
      omega
  | case3 spans p hshape =>
      rw [next?] at h
      · cases h
      · exact hshape

/-- The points that the loop passes, from a point on. -/
def odometer (spans : List Span) (point : List ℤ) : List (List ℤ) :=
  match _h : next? spans point with
  | none => [point]
  | some q => point :: odometer spans q
termination_by remaining spans point
decreasing_by exact remaining_lt _h

theorem odometer_eq_cons (spans : List Span) (point : List ℤ) :
    odometer spans point = point :: (next? spans point).elim [] (odometer spans) := by
  rw [odometer]
  split
  next h => rw [h, Option.elim_none]
  next q h => rw [h, Option.elim_some]

/-! ## The order of the points -/

/-- Whether a point comes before another one: the last coordinate in which they differ
decides. -/
def Precedes : List ℤ → List ℤ → Prop
  | m :: p, n :: q => Precedes p q ∨ p = q ∧ m < n
  | _, _ => False

theorem Precedes.trans {r : List ℤ} (hpq : Precedes p q) (hqr : Precedes q r) : Precedes p r := by
  induction p, q using Precedes.induct generalizing r with
  | case1 m p n q ih =>
      rcases r with _ | ⟨k, r⟩
      · exact hqr.elim
      · rcases hpq with hpq | ⟨rfl, hmn⟩ <;> rcases hqr with hqr | ⟨rfl, hnk⟩
        · exact .inl (ih hpq hqr)
        · exact .inl hpq
        · exact .inl hqr
        · exact .inr ⟨rfl, hmn.trans hnk⟩
  | case2 p q hshape =>
      rw [Precedes] at hpq
      · exact hpq.elim
      · exact hshape

theorem Precedes.irrefl (p : List ℤ) : ¬Precedes p p := by
  induction p with
  | nil => exact id
  | cons n p ih =>
      rintro (h | ⟨-, h⟩)
      · exact ih h
      · exact lt_irrefl n h

instance : IsTrans (List ℤ) Precedes :=
  ⟨fun _ _ _ => Precedes.trans⟩

/-- The loop moves on. -/
theorem precedes_next? (h : next? spans p = some q) : Precedes p q := by
  induction spans, p using next?.induct generalizing q with
  | case1 span spans n point hlt =>
      rw [next?, if_pos hlt] at h
      obtain rfl := Option.some.inj h
      exact .inr ⟨rfl, lt_add_one n⟩
  | case2 span spans n point hlt ih =>
      rw [next?, if_neg hlt, Option.map_eq_some_iff] at h
      obtain ⟨rest, hrest, rfl⟩ := h
      exact .inl (ih hrest)
  | case3 spans p hshape =>
      rw [next?] at h
      · cases h
      · exact hshape

theorem isChain_odometer (spans : List Span) (point : List ℤ) :
    (odometer spans point).IsChain fun p q => next? spans p = some q := by
  induction point using odometer.induct spans with
  | case1 point hnext =>
      rw [odometer_eq_cons, hnext]
      exact .singleton point
  | case2 point q hnext ih =>
      rw [odometer_eq_cons, hnext, Option.elim_some, odometer_eq_cons spans q]
      rw [odometer_eq_cons] at ih
      exact .cons_cons hnext ih

/-- The loop passes points in their order. -/
theorem pairwise_odometer (spans : List Span) (point : List ℤ) :
    (odometer spans point).Pairwise Precedes :=
  List.isChain_iff_pairwise.mp ((isChain_odometer spans point).imp fun _ _ => precedes_next?)

theorem nodup_odometer (spans : List Span) (point : List ℤ) : (odometer spans point).Nodup := by
  refine (pairwise_odometer spans point).imp ?_
  rintro p _ h rfl
  exact Precedes.irrefl p h

/-- What comes before a point in their order comes before it in a list in this order. -/
theorem mem_of_precedes {before after : List (List ℤ)}
    (h : (before ++ q :: after).Pairwise Precedes) (hp : p ∈ before ++ q :: after)
    (hpq : Precedes p q) : p ∈ before := by
  rw [List.pairwise_append, List.pairwise_cons] at h
  rw [List.mem_append, List.mem_cons] at hp
  rcases hp with hp | rfl | hp
  · exact hp
  · exact absurd hpq (Precedes.irrefl p)
  · exact absurd (hpq.trans (h.2.1.1 p hp)) (Precedes.irrefl p)

/-! ## The points of a box -/

/-- The loop first moves the first coordinate up to its last value. -/
theorem odometer_climb
    {span : Span} {n : ℤ} {steps : ℕ} (h : n + steps = span.last) (spans : List Span)
    (point : List ℤ) :
    odometer (span :: spans) (n :: point) =
      (Span.mk n (steps + 1)).integers.map (· :: point) ++
        (next? spans point).elim [] fun q => odometer (span :: spans) (span.start :: q) := by
  induction steps generalizing n with
  | zero =>
      have hlast : ¬n < span.last := by omega
      rw [odometer_eq_cons, next?, if_neg hlast, Option.elim_map, Span.integers_succ]
      rfl
  | succ steps ih =>
      have hlt : n < span.last := by omega
      have hstep : n + 1 + steps = span.last := by omega
      rw [odometer_eq_cons, next?, if_pos hlt, Option.elim_some, ih hstep, Span.integers_succ n,
        List.map_cons, List.cons_append]

/-- For each point of the later coordinates the loop passes all values of the first one. -/
theorem odometer_cons {span : Span} (h : 0 < span.count) (spans : List Span) (point : List ℤ) :
    odometer (span :: spans) (span.start :: point) =
      (odometer spans point).flatMap fun q => span.integers.map (· :: q) := by
  have hlast : span.start + (span.count - 1 : ℕ) = span.last := by
    rw [Span.last]
    omega
  have hcount : span.count - 1 + 1 = span.count := Nat.sub_add_cancel h
  induction point using odometer.induct spans with
  | case1 point hnext =>
      rw [odometer_climb hlast, hcount, odometer_eq_cons spans, hnext]
      simp
  | case2 point q hnext ih =>
      rw [odometer_climb hlast, hcount, odometer_eq_cons spans, hnext, Option.elim_some,
        Option.elim_some, ih, List.flatMap_cons]

/-- From its least point on the loop passes the points of a box in the order of the choices of
one value for each coordinate, the first one fastest. -/
theorem odometer_start (h : ∀ span ∈ spans, 0 < span.count) :
    odometer spans (spans.map Span.start) = (spans.map Span.integers).sections := by
  induction spans with
  | nil =>
      rw [odometer_eq_cons]
      rfl
  | cons span spans ih =>
      rw [List.forall_mem_cons] at h
      rw [List.map_cons, odometer_cons h.1, ih h.2]
      rfl

/-- The loop passes the points whose coordinates lie in the spans. -/
theorem mem_odometer_iff (h : ∀ span ∈ spans, 0 < span.count) :
    point ∈ odometer spans (spans.map Span.start) ↔
      List.Forall₂ (fun n span => span.start ≤ n ∧ n ≤ span.last) point spans := by
  rw [odometer_start h, List.mem_sections, List.forall₂_map_right_iff]
  simp only [Span.mem_integers]

end Enumeration

end BranchBound
