import Grove.Failure

/-!
# `Proofs.Forest.Iteration` — one question asked again and again

Neighbours are asked for one at a time. Asking for the neighbour of the answer, and so on until there is none, visits a
list of nodes (`Visits`). Which list this is follows from what the question answers at each of its nodes: it `Follows` a
list if the answer at a node is the node after it. A question that follows a list visits it from the start
(`Follows.visits`), and one that follows it backwards is the inverse of the first (`Follows.back`).
-/

namespace Grove.Forest

variable {step next previous : NodeId → Except Failure (Option NodeId)} {l : List NodeId} {n m : NodeId}

/-- Asked again and again from `n` on, `step` answers with the nodes of the list one after the other, and then with
    none. -/
inductive Visits (step : NodeId → Except Failure (Option NodeId)) : NodeId → List NodeId → Prop where
  | last {n : NodeId} (hend : step n = .ok none) : Visits step n [n]
  | next {n m : NodeId} {l : List NodeId} (hstep : step n = .ok (some m)) (hrest : Visits step m l) :
      Visits step n (n :: l)

/-- At each node of the list the answer is the node after it. -/
def Follows (step : NodeId → Except Failure (Option NodeId)) (l : List NodeId) : Prop :=
  ∀ before n after, l = before ++ n :: after → step n = .ok after.head?

/-- To follow a list backwards is to answer with the node before. -/
theorem follows_reverse_iff :
    Follows step l.reverse ↔ ∀ before n after, l = before ++ n :: after → step n = .ok before.getLast? := by
  constructor
  · intro h before n after hl
    rw [h after.reverse n before.reverse (by simp [hl]), List.head?_reverse]
  · intro h before n after hl
    rw [h after.reverse n before.reverse (by simp [List.reverse_eq_iff.1 hl]), List.getLast?_reverse]

namespace Follows

/-- What follows a list visits it from the start. -/
theorem visits (h : Follows step l) (hn : l.head? = some n) : Visits step n l := by
  -- also from any later node on, by induction on what is left
  have hsuffix : ∀ before n after, l = before ++ n :: after → Visits step n (n :: after) := by
    intro before n after
    induction after generalizing before n with
    | nil => exact fun hl => .last (h before n [] hl)
    | cons m after ih =>
      intro hl
      refine .next (h before n (m :: after) hl) (ih (before ++ [n]) m ?_)
      rw [hl, List.append_assoc, List.singleton_append]
  obtain ⟨after, rfl⟩ := List.head?_eq_some_iff.1 hn
  exact hsuffix [] n after rfl

/-- From a node to the next one, and back. -/
theorem back (hnext : Follows next l) (hprevious : Follows previous l.reverse) (hn : n ∈ l)
    (h : next n = .ok (some m)) : previous m = .ok (some n) := by
  obtain ⟨before, after, hl⟩ := List.append_of_mem hn
  rw [hnext before n after hl, Except.ok.injEq] at h
  obtain ⟨rest, rfl⟩ := List.head?_eq_some_iff.1 h
  apply hprevious rest.reverse m (n :: before.reverse)
  simp [hl]

/-- From a node to the previous one, and forth. -/
theorem forth (hnext : Follows next l) (hprevious : Follows previous l.reverse) (hm : m ∈ l)
    (h : previous m = .ok (some n)) : next n = .ok (some m) :=
  hprevious.back (by rwa [List.reverse_reverse]) (List.mem_reverse.2 hm) h

end Follows

end Grove.Forest
