import Grove.Proofs.Walker.Session

/-!
# `Proofs.Walker.Foreign` — walkers over other forests

A walker holds names, and another forest may use the same names for other nodes or for none. After steps over several
forests the cursors need not form a way down in any of them, and their positions may lie behind all the children that
there are. What is left for a course is still a list of nodes (`Course.rest`), so every walker comes to an end over
every forest at its generation (`Walker.exists_yields`): it yields this list if the forest has all the names that it
holds, and else it stops at one that is lacking. Whether a loop over its steps hands on the error or breaks off at it
is all that the two loops differ in (`Walker.walk_outcome`).

A step that fails may have used something up before (`Course.Loses`). A path has given away the name that was not
found, and a first node that was not found is gone for good. A stack or a queue of cursors has lost those in front that
had run out (`Course.Advances.eq_notFound_iff`); the cursor whose node was not found stays, so the same step fails
again. In postorder only the topmost name can be lost, and it is looked up before anything is done.
-/

namespace Grove

variable {α : Type} {B : Forest α}

open Forest

/-! ## All steps -/

/-- What becomes of a failure in a walk over a borrowed forest, where nobody can be told that a name was not found. -/
def Failure.brokenOff : Failure → Failure
  | .tree (.nodeNotFound n) => .breach (.walkFailed (.nodeNotFound n))
  | failure => failure

namespace Walker

/-- Taking all steps is refused as stale exactly at another generation. -/
theorem collect_eq_stale_iff (hB : B.WellFormed) (w : Walker) (expected found : UInt64) :
    w.collect B = .error (.tree (.staleIterator expected found))
      ↔ expected = w.stamp ∧ found = B.generation ∧ B.generation ≠ w.stamp := by
  by_cases hstamp : w.stamp = B.generation
  · obtain ⟨l, w', -, -, -, -, ⟨-, -, -, h, -⟩ | ⟨n, -, -, -, h, -⟩⟩ := loops_of_stamp hB hstamp <;>
      simp [h, hstamp]
  · simp [collect_of_ne hstamp, Ne.symm hstamp, eq_comm]

/-- A walk over a borrowed forest is refused in the same cases, however much of it is asked for. -/
theorem borrow_eq_stale_iff (hB : B.WellFormed) (w : Walker) (limit : Option Nat) (expected found : UInt64) :
    w.borrow B limit = .error (.tree (.staleIterator expected found))
      ↔ expected = w.stamp ∧ found = B.generation ∧ B.generation ≠ w.stamp := by
  by_cases hstamp : w.stamp = B.generation
  · obtain ⟨l, w', -, -, -, htaken, hend⟩ := loops_of_stamp hB hstamp
    have hnone : w.borrow B none ≠ .error (.tree (.staleIterator expected found)) := by
      rcases hend with ⟨-, -, -, -, h⟩ | ⟨n, -, -, -, -, h⟩ <;> simp [h]
    refine iff_of_false ?_ fun h => h.2.2 hstamp.symm
    cases limit with
    | none => exact hnone
    | some k =>
      rw [htaken k]
      split
      · exact nofun
      · exact hnone
  · simp [borrow_of_ne hstamp, Ne.symm hstamp, eq_comm]

/-- A borrowed walk to the end answers as taking all steps does, except that it breaks off at a name. -/
theorem borrow_none_eq_mapError (hB : B.WellFormed) (w : Walker) :
    w.borrow B none = (w.collect B).mapError Failure.brokenOff := by
  by_cases hstamp : w.stamp = B.generation
  · obtain ⟨l, w', -, -, -, -, ⟨-, -, -, hcollect, hborrow⟩ | ⟨n, -, -, -, hcollect, hborrow⟩⟩ :=
      loops_of_stamp hB hstamp
    · rw [hborrow, hcollect]
      rfl
    · rw [hborrow, hcollect]
      rfl
  · rw [borrow_of_ne hstamp, collect_of_ne hstamp]
    rfl

/-- **Any walker over any forest.** Nothing is asked of the walker, so this includes all that were stepped over other
    forests. It is refused as stale exactly at another generation, by both loops alike. At its own generation it
    yields nodes of this forest, in the order of what its course has left there. If it holds no name that the forest
    lacks, it yields all of them, and taking all steps answers with them. Otherwise it fails to find one of the names
    that it held from the start, and so does taking all steps. A borrowed walk answers in the same way, except that it
    breaks off at the name; what it has handed out before are the same nodes. -/
theorem walk_outcome (hB : B.Reachable) (w : Walker) :
    (∀ expected found, w.collect B = .error (.tree (.staleIterator expected found))
      ↔ expected = w.stamp ∧ found = B.generation ∧ B.generation ≠ w.stamp) ∧
    (∀ limit expected found, w.borrow B limit = .error (.tree (.staleIterator expected found))
      ↔ expected = w.stamp ∧ found = B.generation ∧ B.generation ≠ w.stamp) ∧
    w.borrow B none = (w.collect B).mapError Failure.brokenOff ∧
    (B.generation = w.stamp → ∃ l w', Yields B w l w' ∧ l <+: w.course.rest B ∧ (∀ n ∈ l, B.contains n = true) ∧
      (∀ k, w.borrow B (some k) = if k ≤ l.length then .ok (l.take k) else w.borrow B none) ∧
      ((∀ n ∈ w.course.held, B.contains n = true) ∧ l = w.course.rest B ∧ (w'.next B).1 = .ok none ∧
          w.collect B = .ok l ∨
        ∃ n ∈ w.course.held, B.contains n = false ∧ (w'.next B).1 = .error (.tree (.nodeNotFound n)) ∧
          w.collect B = .error (.tree (.nodeNotFound n)))) := by
  have hwf := hB.wellFormed
  refine ⟨collect_eq_stale_iff hwf w, borrow_eq_stale_iff hwf w, borrow_none_eq_mapError hwf w, fun hstamp => ?_⟩
  obtain ⟨l, w', hyields, hfirst, hlive, htaken, hend⟩ := loops_of_stamp hwf hstamp.symm
  refine ⟨l, w', hyields, hfirst, hlive, htaken, ?_⟩
  rcases hend with ⟨hvalid, hall, hdone, hcollect, -⟩ | ⟨n, hn, hgone, hlost, hcollect, -⟩
  · exact .inl ⟨hvalid, hall, hdone, hcollect⟩
  · exact .inr ⟨n, hn, hgone, hlost, hcollect⟩

/-- A walker that has yielded two nodes of its own forest, over one in which the first of these is gone and the second
    has children: it yields the children and then does not find the first node. -/
theorem walk_outcome_of_moved :
    let F := (empty : Forest Nat).afterAll
      [.create 7, .create 8, .create 9, .create 6, .add ⟨0, 0⟩ ⟨1, 0⟩, .add ⟨0, 0⟩ ⟨2, 0⟩, .add ⟨1, 0⟩ ⟨3, 0⟩]
    let B := (empty : Forest Nat).afterAll
      [.create 7, .create 8, .create 9, .create 6, .add ⟨1, 0⟩ ⟨2, 0⟩, .add ⟨1, 0⟩ ⟨3, 0⟩, .discard ⟨0, 0⟩]
    let w : Walker := ⟨3, .preorder none [⟨⟨1, 0⟩, 0⟩, ⟨⟨0, 0⟩, 1⟩]⟩
    (((Walker.mk 3 (.preorder (some ⟨0, 0⟩) [])).next F).2.next F).2 = w ∧ B.Reachable ∧
      w.collect B = .error (.tree (.nodeNotFound ⟨0, 0⟩)) ∧
      w.borrow B none = .error (.breach (.walkFailed (.nodeNotFound ⟨0, 0⟩))) ∧
      w.borrow B (some 2) = .ok [⟨2, 0⟩, ⟨3, 0⟩] := by
  intro F B w
  have hB : B.Reachable := ⟨_, rfl⟩
  have hcollect : w.collect B = .error (.tree (.nodeNotFound ⟨0, 0⟩)) := rfl
  obtain ⟨-, -, hborrow, -⟩ := walk_outcome hB w
  rw [hcollect] at hborrow
  exact ⟨rfl, hB, hcollect, hborrow, rfl⟩

end Walker

/-! ## What a failed step uses up -/

namespace Course

/-- A step of a part is a step of the whole. -/
theorem wrapped_eq_iff {σ τ : Type} (wrap : σ → τ) (step : Step σ) {answer : Except Failure (Option NodeId)} {t : τ} :
    (step.1, wrap step.2) = (answer, t) ↔ ∃ left, step = (answer, left) ∧ t = wrap left := by
  constructor
  · rintro ⟨⟩
    exact ⟨step.2, rfl, rfl⟩
  · rintro ⟨left, rfl, rfl⟩
    rfl

/-- The cursors in front that have run out are dropped, and the next one, which is for `x`, is not. -/
def DropsTo (F : Forest α) (x : NodeId) (cursors left : List Cursor) : Prop :=
  ∃ dropped i rest, cursors = dropped ++ ⟨x, i⟩ :: rest ∧ (∀ d ∈ dropped, d.Spent F) ∧ left = ⟨x, i⟩ :: rest

/-- What a step over `F` that does not find `x` makes of a course. -/
def Loses (F : Forest α) (x : NodeId) : Course → Course → Prop
  -- the first node is given away
  | preorder (some n) _, course' => n = x ∧ course' = preorder none []
  | breadthFirst (some n) _, course' => n = x ∧ course' = breadthFirst none []
  -- what has run out is given away, and the cursor for the name is kept
  | preorder none stack, course' => ∃ left, DropsTo F x stack left ∧ course' = preorder none left
  | breadthFirst none queue, course' => ∃ left, DropsTo F x queue left ∧ course' = breadthFirst none left
  -- nothing is given away
  | postorder stack, course' => (∃ i rest, stack = ⟨x, i⟩ :: rest) ∧ course' = postorder stack
  -- the name alone is given away
  | path l, course' => ∃ rest, l = x :: rest ∧ course' = path rest

/-- How a step of cursors comes to its answer, by the state of the first one. -/
structure Advances (F : Forest α) (step : List Cursor → Step (List Cursor)) : Prop where
  of_nil : (step []).1 = .ok none
  of_gone (c : Cursor) (rest : List Cursor) (h : F.contains c.node = false) :
    step (c :: rest) = (.error (.tree (.nodeNotFound c.node)), c :: rest)
  of_spent (c : Cursor) (rest : List Cursor) (h : c.Spent F) : step (c :: rest) = step rest
  of_child (c : Cursor) (rest : List Cursor) (child : NodeId)
    (h : (F.childrenOf c.node)[c.next]? = some child) : (step (c :: rest)).1 = .ok (some child)

theorem advances_preorderNext (hB : B.WellFormed) : Advances B (preorderNext B) where
  of_nil := rfl
  of_gone _ _ h := preorderNext_of_gone h
  of_spent _ _ h := preorderNext_of_spent h
  of_child _ _ _ h := congrArg Prod.fst (preorderNext_of_child hB h)

theorem advances_breadthFirstNext (hB : B.WellFormed) : Advances B (breadthFirstNext B) where
  of_nil := rfl
  of_gone _ _ h := breadthFirstNext_of_gone h
  of_spent _ _ h := breadthFirstNext_of_spent h
  of_child _ _ _ h := congrArg Prod.fst (breadthFirstNext_of_child hB h)

section

variable {step : List Cursor → Step (List Cursor)} (h : Advances B step)

include h

/-- Cursors that have run out are passed over. -/
theorem Advances.of_dropped {dropped : List Cursor} (hdropped : ∀ d ∈ dropped, d.Spent B) (cursors : List Cursor) :
    step (dropped ++ cursors) = step cursors := by
  induction dropped with
  | nil => rfl
  | cons d dropped ih =>
    obtain ⟨hfirst, hlater⟩ := List.forall_mem_cons.1 hdropped
    rw [List.cons_append, h.of_spent d _ hfirst, ih hlater]

/-- A step of cursors finds something, or the node of the first cursor that has not run out is gone. -/
theorem Advances.next_cases (cursors : List Cursor) :
    (∃ found, (step cursors).1 = .ok found) ∨
      ∃ dropped c rest, cursors = dropped ++ c :: rest ∧ (∀ d ∈ dropped, d.Spent B) ∧ B.contains c.node = false := by
  induction cursors with
  | nil => exact .inl ⟨none, h.of_nil⟩
  | cons first later ih =>
    rcases first.state_cases B with hgone | hspent | ⟨child, hchild⟩
    · exact .inr ⟨[], first, later, rfl, nofun, hgone⟩
    · rw [h.of_spent first later hspent]
      rcases ih with hfound | ⟨dropped, c, rest, rfl, hdropped, hgone⟩
      · exact .inl hfound
      · exact .inr ⟨first :: dropped, c, rest, rfl, List.forall_mem_cons.2 ⟨hspent, hdropped⟩, hgone⟩
    · exact .inl ⟨some child, h.of_child first later child hchild⟩

/-- **A failed step of cursors** drops those that have run out and keeps the one whose node is gone in front. -/
theorem Advances.eq_notFound_iff {cursors left : List Cursor} {x : NodeId} :
    step cursors = (.error (.tree (.nodeNotFound x)), left) ↔ B.contains x = false ∧ DropsTo B x cursors left := by
  constructor
  · intro hfailed
    rcases h.next_cases cursors with ⟨found, hfound⟩ | ⟨dropped, c, rest, rfl, hdropped, hgone⟩
    · rw [hfailed] at hfound
      cases hfound
    · rw [h.of_dropped hdropped, h.of_gone c rest hgone] at hfailed
      cases hfailed
      exact ⟨hgone, dropped, c.next, rest, rfl, hdropped, rfl⟩
  · rintro ⟨hx, dropped, i, rest, rfl, hdropped, rfl⟩
    rw [h.of_dropped hdropped, h.of_gone ⟨x, i⟩ rest hx]

end

section

variable {order : Option NodeId → List Cursor → Course} (horder : order ∈ [preorder, breadthFirst])

include horder

/-- In both orders a first node that is not found is given away. -/
theorem next_start_eq_notFound_iff {n x : NodeId} {course' : Course} :
    (order (some n) []).next B = (.error (.tree (.nodeNotFound x)), course')
      ↔ B.contains x = false ∧ n = x ∧ course' = order none [] := by
  have hbegin : (order (some n) []).next B = ((begin B n).1, order none (begin B n).2) := by
    rcases List.mem_pair.1 horder with rfl | rfl <;> simp [next]
  rw [hbegin]
  cases hn : B.contains n with
  | false =>
    rw [begin_of_not_contains hn]
    constructor
    · rintro ⟨⟩
      exact ⟨hn, rfl, rfl⟩
    · rintro ⟨-, rfl, rfl⟩
      rfl
  | true =>
    rw [begin_eq hn]
    constructor
    · intro hfailed
      cases hfailed
    · rintro ⟨hx, rfl, -⟩
      rw [hn] at hx
      cases hx

/-- Once the first node is visited, a step in these orders is one of cursors. -/
theorem next_cursors_eq_notFound_iff (hB : B.WellFormed) {cursors : List Cursor} {x : NodeId} {course' : Course} :
    (order none cursors).next B = (.error (.tree (.nodeNotFound x)), course')
      ↔ B.contains x = false ∧ ∃ left, DropsTo B x cursors left ∧ course' = order none left := by
  obtain ⟨step, hstep, hnext⟩ : ∃ step, Advances B step ∧
      ∀ cursors, (order none cursors).next B = ((step cursors).1, order none (step cursors).2) := by
    rcases List.mem_pair.1 horder with rfl | rfl
    · exact ⟨_, advances_preorderNext hB, fun _ => rfl⟩
    · exact ⟨_, advances_breadthFirstNext hB, fun _ => rfl⟩
  rw [hnext, wrapped_eq_iff (order none)]
  simp only [hstep.eq_notFound_iff, and_assoc, exists_and_left]

/-- Without cursors and with the first node visited, there is nothing to do over any forest. -/
theorem next_done (F : Forest α) : (order none []).next F = (.ok none, order none []) := by
  rcases List.mem_pair.1 horder with rfl | rfl <;> rfl

end

/-- In postorder only the topmost name can be lost, and nothing was done by then. -/
theorem postorderNext_eq_notFound_iff (hB : B.WellFormed) {stack left : List Cursor} {x : NodeId} :
    postorderNext B B.size stack = (.error (.tree (.nodeNotFound x)), left)
      ↔ B.contains x = false ∧ (∃ i rest, stack = ⟨x, i⟩ :: rest) ∧ left = stack := by
  cases stack with
  | nil =>
    rw [postorderNext]
    simp
  | cons top rest =>
    cases htop : B.contains top.node with
    | false =>
      rw [postorderNext_of_gone htop]
      constructor
      · rintro ⟨⟩
        exact ⟨htop, ⟨top.next, rest, rfl⟩, rfl⟩
      · rintro ⟨-, ⟨i, rest, ⟨⟩⟩, rfl⟩
        rfl
    | true =>
      obtain ⟨deepest, rest', -, -, hnext⟩ := exists_turns hB B.size top rest htop (by omega)
      rw [hnext]
      constructor
      · intro hfailed
        cases hfailed
      · rintro ⟨hx, ⟨i, rest, ⟨⟩⟩, -⟩
        rw [htop] at hx
        cases hx

/-- A path has given away the name that is not found. -/
theorem pathNext_eq_notFound_iff {l left : List NodeId} {x : NodeId} :
    pathNext B l = (.error (.tree (.nodeNotFound x)), left) ↔ B.contains x = false ∧ l = x :: left := by
  cases l with
  | nil =>
    rw [pathNext]
    simp
  | cons n rest =>
    cases hn : B.contains n with
    | false =>
      rw [pathNext_of_gone hn]
      constructor
      · rintro ⟨⟩
        exact ⟨hn, rfl⟩
      · rintro ⟨-, ⟨⟩⟩
        rfl
    | true =>
      rw [pathNext_of_contains hn]
      constructor
      · intro hfailed
        cases hfailed
      · rintro ⟨hx, ⟨⟩⟩
        rw [hn] at hx
        cases hx

/-- As long as the first node is unvisited, there are no cursors. -/
def StartsAlone : Course → Prop
  | preorder start cursors | breadthFirst start cursors => start = none ∨ cursors = []
  | postorder _ | path _ => True

/-- After a step the first node is visited, whatever came of it. -/
theorem startsAlone_next (F : Forest α) (course : Course) : (course.next F).2.StartsAlone := by
  cases course with
  | preorder start stack => cases start <;> exact .inl rfl
  | postorder stack => exact trivial
  | breadthFirst start queue => cases start <;> exact .inl rfl
  | path l => exact trivial

/-- **A failed step of a course**, exactly. -/
theorem next_eq_notFound_iff (hB : B.WellFormed) {course course' : Course} (halone : course.StartsAlone) {x : NodeId} :
    course.next B = (.error (.tree (.nodeNotFound x)), course')
      ↔ B.contains x = false ∧ Loses B x course course' := by
  cases course with
  | preorder start stack =>
    cases start with
    | none => exact next_cursors_eq_notFound_iff (by simp) hB
    | some n =>
      obtain rfl := halone.resolve_left nofun
      exact next_start_eq_notFound_iff (by simp)
  | postorder stack =>
    refine (wrapped_eq_iff postorder (postorderNext B B.size stack)).trans ?_
    simp [postorderNext_eq_notFound_iff hB, Loses, and_assoc]
  | breadthFirst start queue =>
    cases start with
    | none => exact next_cursors_eq_notFound_iff (by simp) hB
    | some n =>
      obtain rfl := halone.resolve_left nofun
      exact next_start_eq_notFound_iff (by simp)
  | path l =>
    refine (wrapped_eq_iff path (pathNext B l)).trans ?_
    simp [pathNext_eq_notFound_iff, Loses, and_assoc]

section

variable {order : Option NodeId → List Cursor → Course} (horder : order ∈ [preorder, breadthFirst])

include horder

/-- With the first node nothing is left. -/
theorem Loses.of_start {n x : NodeId} {cursors : List Cursor} {course' : Course}
    (h : Loses B x (order (some n) cursors) course') : course' = order none [] := by
  rcases List.mem_pair.1 horder with rfl | rfl <;> exact h.2

/-- What has lost cursors has no more to lose. -/
theorem Loses.again {x : NodeId} {cursors : List Cursor} {course' : Course}
    (h : Loses B x (order none cursors) course') : Loses B x course' course' := by
  have hagain : ∀ left, DropsTo B x cursors left → DropsTo B x left left := by
    rintro left ⟨-, i, rest, -, -, rfl⟩
    exact ⟨[], i, rest, rfl, nofun, rfl⟩
  rcases List.mem_pair.1 horder with rfl | rfl
  · obtain ⟨left, hdrops, rfl⟩ := h
    exact ⟨left, hagain left hdrops, rfl⟩
  · obtain ⟨left, hdrops, rfl⟩ := h
    exact ⟨left, hagain left hdrops, rfl⟩

end

end Course

namespace Walker

/-- A walker as stepping brings it about: made on a forest, and stepped over whatever forests since. -/
inductive Roamed : Walker → Prop where
  | made {α : Type} {F : Forest α} {w : Walker} {l : List NodeId} (hF : F.Reachable) (h : New F w l) : Roamed w
  | step {α : Type} {F : Forest α} {w : Walker} (hF : F.Reachable) (h : Roamed w) : Roamed (w.next F).2

theorem New.startsAlone {F : Forest α} {w : Walker} {l : List NodeId} (hF : F.WellFormed) (h : New F w l) :
    w.course.StartsAlone := by
  cases h with
  | preorder h =>
    obtain ⟨-, rfl⟩ := preorder_eq_ok_iff.1 h
    exact .inr rfl
  | postorder h =>
    obtain ⟨-, rfl⟩ := postorder_eq_ok_iff.1 h
    exact trivial
  | breadthFirst h =>
    obtain ⟨-, rfl⟩ := breadthFirst_eq_ok_iff.1 h
    exact .inr rfl
  | path h =>
    obtain ⟨-, rfl⟩ := (path_eq_ok_iff hF).1 h
    exact trivial

theorem Roamed.startsAlone {w : Walker} (h : w.Roamed) : w.course.StartsAlone := by
  induction h with
  | made hF h => exact h.startsAlone hF.wellFormed
  | @step α F w _ _ ih =>
    by_cases hstamp : w.stamp = F.generation
    · rw [next_of_stamp hstamp]
      exact Course.startsAlone_next F w.course
    · rw [next_of_ne hstamp]
      exact ih

/-- A walker is refused as stale exactly at another generation, and stays as it was. -/
theorem next_eq_refused_iff {w w' : Walker} {expected found : UInt64} :
    w.next B = (.error (.tree (.staleIterator expected found)), w')
      ↔ expected = w.stamp ∧ found = B.generation ∧ B.generation ≠ w.stamp ∧ w' = w := by
  constructor
  · intro h
    obtain ⟨rfl, rfl, hne⟩ := (next_eq_stale_iff B w expected found).1 (congrArg Prod.fst h)
    rw [next_of_ne hne.symm] at h
    exact ⟨rfl, rfl, hne, (Prod.mk.inj h).2.symm⟩
  · rintro ⟨rfl, rfl, hne, rfl⟩
    exact next_of_ne hne.symm

theorem next_eq_notFound_iff (hB : B.WellFormed) {w w' : Walker} (halone : w.course.StartsAlone) {x : NodeId} :
    w.next B = (.error (.tree (.nodeNotFound x)), w')
      ↔ B.generation = w.stamp ∧ B.contains x = false ∧
        ∃ course', w.course.Loses B x course' ∧ w' = { w with course := course' } := by
  by_cases hstamp : w.stamp = B.generation
  · rw [next_of_stamp hstamp]
    refine (Course.wrapped_eq_iff (fun course => { w with course := course }) (w.course.next B)).trans ?_
    simp only [Course.next_eq_notFound_iff hB halone, hstamp, and_assoc, exists_and_left, true_and]
  · rw [next_of_ne hstamp]
    constructor
    · intro hfailed
      cases hfailed
    · exact fun h => absurd h.1.symm hstamp

/-- A walker without cursors whose first node is visited has nothing to yield over any forest. -/
theorem next_of_done {w : Walker} {order : Option NodeId → List Cursor → Course}
    (horder : order ∈ [Course.preorder, Course.breadthFirst]) (hdone : w.course = order none []) (F : Forest α) :
    w.next F
      = (if F.generation = w.stamp then .ok none else .error (.tree (.staleIterator w.stamp F.generation)), w) := by
  obtain ⟨stamp, course⟩ := w
  obtain rfl : course = order none [] := hdone
  by_cases hstamp : stamp = F.generation
  · rw [next_of_stamp hstamp, if_pos hstamp.symm, Course.next_done horder F]
  · rw [next_of_ne hstamp, if_neg (Ne.symm hstamp)]

/-- **What a failed step uses up.** A walker is refused as stale exactly at another generation, and stays as it was. At
    its own it fails exactly if the name it comes to is not there, and then it has lost what `Course.Loses` says:
    nothing in postorder, this name down a path, the first node in preorder or breadth-first order while it is
    unvisited, and later the cursors that had run out. A walker that has lost its first node has nothing to yield from
    then on, on any forest at its generation; one that has lost cursors fails at the same name when it is stepped over
    the same forest again. -/
theorem failed_step_outcome {w : Walker} (hw : w.Roamed) (hB : B.Reachable) :
    (∀ expected found w', w.next B = (.error (.tree (.staleIterator expected found)), w')
      ↔ expected = w.stamp ∧ found = B.generation ∧ B.generation ≠ w.stamp ∧ w' = w) ∧
    ∀ x w', (w.next B = (.error (.tree (.nodeNotFound x)), w')
        ↔ B.generation = w.stamp ∧ B.contains x = false ∧
          ∃ course', w.course.Loses B x course' ∧ w' = { w with course := course' }) ∧
      (w.next B = (.error (.tree (.nodeNotFound x)), w') → ∀ order ∈ [Course.preorder, Course.breadthFirst],
        (∀ n cursors, w.course = order (some n) cursors → ∀ {γ : Type} (G : Forest γ), w'.next G
          = (if G.generation = w.stamp then .ok none else .error (.tree (.staleIterator w.stamp G.generation)), w')) ∧
        ∀ cursors, w.course = order none cursors → w'.next B = (.error (.tree (.nodeNotFound x)), w')) := by
  have hwf := hB.wellFormed
  refine ⟨fun _ _ _ => next_eq_refused_iff, fun x w' => ⟨next_eq_notFound_iff hwf hw.startsAlone, ?_⟩⟩
  intro hfailed order horder
  obtain ⟨hstamp, hx, course', hloses, rfl⟩ := (next_eq_notFound_iff hwf hw.startsAlone).1 hfailed
  constructor
  · intro n cursors hstart γ G
    rw [hstart] at hloses
    exact next_of_done horder (hloses.of_start horder) G
  · intro cursors hlater
    rw [hlater] at hloses
    have hagain := hw.step hB
    rw [hfailed] at hagain
    exact (next_eq_notFound_iff hwf hagain.startsAlone).2 ⟨hstamp, hx, course', hloses.again horder, rfl⟩

/-- The walker of before, after its two steps there, has a cursor that has run out on top of one whose node is gone. -/
theorem failed_step_outcome_of_moved :
    let F := (empty : Forest Nat).afterAll
      [.create 7, .create 8, .create 9, .create 6, .add ⟨0, 0⟩ ⟨1, 0⟩, .add ⟨0, 0⟩ ⟨2, 0⟩, .add ⟨1, 0⟩ ⟨3, 0⟩]
    let B := (empty : Forest Nat).afterAll
      [.create 7, .create 8, .create 9, .create 6, .add ⟨1, 0⟩ ⟨2, 0⟩, .add ⟨1, 0⟩ ⟨3, 0⟩, .discard ⟨0, 0⟩]
    let w := ((((Walker.mk 3 (.preorder (some ⟨0, 0⟩) [])).next F).2.next F).2.next B).2.next B |>.2
    let w' : Walker := ⟨3, .preorder none [⟨⟨0, 0⟩, 1⟩]⟩
    w.Roamed ∧ B.Reachable ∧ w = ⟨3, .preorder none [⟨⟨1, 0⟩, 2⟩, ⟨⟨0, 0⟩, 1⟩]⟩ ∧
      w.next B = (.error (.tree (.nodeNotFound ⟨0, 0⟩)), w') ∧
      w'.next B = (.error (.tree (.nodeNotFound ⟨0, 0⟩)), w') := by
  intro F B w w'
  have hF : F.Reachable := ⟨_, rfl⟩
  have hB : B.Reachable := ⟨_, rfl⟩
  have hmade : Walker.preorder F ⟨0, 0⟩ = .ok ⟨3, .preorder (some ⟨0, 0⟩) []⟩ :=
    preorder_eq_ok_iff.2 ⟨by decide, by decide⟩
  have hw : w.Roamed := .step hB (.step hB (.step hF (.step hF (.made hF (.preorder hmade)))))
  have hfailed : w.next B = (.error (.tree (.nodeNotFound ⟨0, 0⟩)), w') := rfl
  obtain ⟨-, hlater⟩ := ((failed_step_outcome hw hB).2 _ _).2 hfailed .preorder (List.mem_cons_self ..)
  exact ⟨hw, hB, rfl, hfailed, hlater [⟨⟨1, 0⟩, 2⟩, ⟨⟨0, 0⟩, 1⟩] rfl⟩

end Walker

end Grove
