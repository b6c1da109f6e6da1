import BranchBound.Power

/-!
# Binary heaps

A binary heap keeps its entries in an array: the children of the entry at `i` are
at `2 * i + 1` and `2 * i + 2`, and no entry comes before its parent.  Which entry
comes first is a relation `before` that the caller passes in.  Entries of which
neither comes before the other leave the heap in an order that depends on how they
got in, and that order is fixed by the rules below: of two children the right one
goes up unless the left one comes before it, and the last entry fills the place of
the first by sinking to a leaf and rising from there.
-/

namespace BranchBound.Heap

variable {β : Type} {n : Nat}

/-- Let the entry at `i` rise while it comes before its parent. -/
def rise (before : β → β → Bool) (v : Vector β n) (i : Nat) (h : i < n) : Vector β n :=
  if 0 < i then
    if before v[i] (v.get ⟨(i - 1) / 2, by omega⟩) then
      rise before (v.swap i ((i - 1) / 2) h (by omega)) ((i - 1) / 2) (by omega)
    else v
  else v
termination_by i
decreasing_by omega

/-- The child of `i` that is to go up: of two children the left one if it comes
before the right one. -/
def child? (before : β → β → Bool) (v : Vector β n) (i : Nat) : Option (Fin n) :=
  if h : 2 * i + 2 < n then
    if before (v.get ⟨2 * i + 1, by omega⟩) (v.get ⟨2 * i + 2, h⟩) then
      some ⟨2 * i + 1, by omega⟩
    else some ⟨2 * i + 2, h⟩
  else if h : 2 * i + 1 < n then some ⟨2 * i + 1, h⟩
  else none

/-- A child stands behind its parent. -/
theorem lt_of_child? {before : β → β → Bool} {v : Vector β n} {i : Nat} {c : Fin n}
    (h : child? before v i = some c) : i < c.val := by
  unfold child? at h
  split at h
  · split at h <;> (obtain rfl := Option.some.inj h; simp only; omega)
  · split at h
    · obtain rfl := Option.some.inj h
      simp only
      omega
    · simp at h

/-- Let the entry at `i` sink to a leaf, and from there rise again. -/
def sinkAndRise (before : β → β → Bool) (v : Vector β n) (i : Nat) (h : i < n) : Vector β n :=
  match hc : child? before v i with
  | none => rise before v i h
  | some c =>
      have : i < c.val := lt_of_child? hc
      sinkAndRise before (v.swap i c.val h c.isLt) c.val c.isLt
termination_by n - i
decreasing_by omega

/-- Let the entry at `i` sink as long as a child comes before it. -/
def sink (before : β → β → Bool) (v : Vector β n) (i : Nat) (h : i < n) : Vector β n :=
  match hc : child? before v i with
  | none => v
  | some c =>
      have : i < c.val := lt_of_child? hc
      if before (v.get c) v[i] then sink before (v.swap i c.val h c.isLt) c.val c.isLt
      else v
termination_by n - i
decreasing_by omega

/-- Let the first `count` entries sink, the last one first. -/
def sinkAll (before : β → β → Bool) : (count : Nat) → Vector β n → Vector β n
  | 0, v => v
  | count + 1, v =>
      sinkAll before count (if h : count < n then sink before v count h else v)

/-- Let the last `count` entries rise, the first one first. -/
def riseAll (before : β → β → Bool) : (count : Nat) → Vector β n → Vector β n
  | 0, v => v
  | count + 1, v =>
      riseAll before count
        (if h : n - (count + 1) < n then rise before v (n - (count + 1)) h else v)

/-- Add an entry. -/
def push (before : β → β → Bool) (a : Array β) (x : β) : Array β :=
  (rise before (a.push x).toVector a.size (by simp)).toArray

/-- The first entry and the others. -/
def pop? (before : β → β → Bool) (a : Array β) : Option (β × Array β) :=
  match a.back? with
  | none => none
  | some last =>
      let rest := a.pop
      if h : 0 < rest.size then
        some (rest[0],
          (sinkAndRise before (rest.toVector.set 0 last h) 0 h).toArray)
      else some (last, rest)

/-- Whether it takes fewer comparisons to build a heap of `size` entries anew than to
let all but the first `start` rise. -/
def isCheaperAnew (size start : Nat) : Bool :=
  let tail := size - start
  if start < tail then true
  else if size ≤ 2048 then decide (2 * size < tail * Nat.log2 start)
  else decide (2 * size < tail * 11)

/-- Make a heap of an array whose first `start` entries are one. -/
def restore (before : β → β → Bool) (a : Array β) (start : Nat) : Array β :=
  if a.size ≤ start then a
  else if isCheaperAnew a.size start then (sinkAll before (a.size / 2) a.toVector).toArray
  else (riseAll before (a.size - start) a.toVector).toArray

/-- The entries that pass a test. -/
def filter (before : β → β → Bool) (keep : β → Bool) (a : Array β) : Array β :=
  restore before (a.filter keep) (a.toList.takeWhile keep).length

end BranchBound.Heap
