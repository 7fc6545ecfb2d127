import Grove.Proofs.Forest.Runs
import Grove.Proofs.Walker.Course

/-!
# `Proofs.Walker.Traversal` — whole traversals

A walker whose generation is the forest's comes to an end there: it yields what its course has left, unless one of
the names it holds does not resolve (`exists_yields`). What it yields on the way is said without a bound on the number
of steps (`Yields`), and the two loops that take all steps are compared with that (`loops_of_stamp`). A walker that is
used on its own forest yields everything (`collect_eq`), and over a borrowed forest as much as was asked for
(`borrow_eq`). For a new walker this is the whole listing of a subtree, or the whole path, which is what the traversals
of the forest answer with (`traversals_eq`).
-/

namespace Grove

variable {α : Type} {F : Forest α}

open Forest

/-! ## Taking all steps -/

namespace Walker

theorem check_eq_ok {w : Walker} (h : w.stamp = F.generation) : w.check F = .ok () := by
  rw [check, if_pos h.symm]

/-- A step of a walker whose generation is the forest's is a step of its course. -/
theorem next_of_stamp {w : Walker} (h : w.stamp = F.generation) :
    w.next F = ((w.course.next F).1, { w with course := (w.course.next F).2 }) := by
  rw [next, check_eq_ok h]

theorem check_of_ne {w : Walker} (h : w.stamp ≠ F.generation) :
    w.check F = .error (.tree (.staleIterator w.stamp F.generation)) :=
  if_neg h.symm

/-- A walker is refused by a forest at another generation, and stays as it was. -/
theorem next_of_ne {w : Walker} (h : w.stamp ≠ F.generation) :
    w.next F = (.error (.tree (.staleIterator w.stamp F.generation)), w) := by
  rw [next, check_of_ne h]

theorem stamp_next (F : Forest α) (w : Walker) : (w.next F).2.stamp = w.stamp := by
  unfold next
  split <;> rfl

/-- **A checked step over any forest** fails to find a name that the walker holds, or yields the first node that is
    left there, which is a node of that forest, and leaves the others. Names that are not there it keeps, and at the
    end there are none. -/
theorem next_cases (hF : F.WellFormed) {w : Walker} (hstamp : w.stamp = F.generation) :
    (∃ n ∈ w.course.held, F.contains n = false ∧ (w.next F).1 = .error (.tree (.nodeNotFound n)))
      ∨ ∃ w', w.next F = (.ok (w.course.rest F).head?, w') ∧ (∀ n ∈ (w.course.rest F).head?, F.contains n = true)
        ∧ w'.stamp = F.generation ∧ w'.course.rest F = (w.course.rest F).tail
        ∧ (∀ n, F.contains n = false → (n ∈ w'.course.held ↔ n ∈ w.course.held))
        ∧ (w.course.rest F = [] → w'.course.held = []) := by
  rw [next_of_stamp hstamp]
  cases Course.next_outcome hF w.course with
  | lost n hn hgone hanswer => exact .inl ⟨n, hn, hgone, hanswer⟩
  | yielded hanswer hlive hleft hgone hend =>
    exact .inr ⟨{ w with course := (w.course.next F).2 }, Prod.ext hanswer rfl, hlive, hstamp, hleft, hgone, hend⟩

/-- **A checked step of a valid walker** yields the first node that is left, and leaves the others. -/
theorem next_eq (hF : F.WellFormed) {w : Walker} (hstamp : w.stamp = F.generation) (hvalid : w.course.Valid F) :
    ∃ w', w.next F = (.ok (w.course.rest F).head?, w') ∧ w'.stamp = F.generation ∧ w'.course.Valid F
      ∧ w'.course.rest F = (w.course.rest F).tail := by
  rcases next_cases hF hstamp with ⟨n, hn, hgone, -⟩ | ⟨w', hnext, -, hstamp', hrest, hgone, -⟩
  · rw [hvalid n hn] at hgone
    cases hgone
  · exact ⟨w', hnext, hstamp', (Course.valid_congr hgone).2 hvalid, hrest⟩

/-! ### Steps in a row -/

/-- Stepping `w` over `F` yields the nodes `l` one after the other, and leaves `w'`. -/
inductive Yields (F : Forest α) : Walker → List NodeId → Walker → Prop where
  | nil {w : Walker} : Yields F w [] w
  | cons {w w' w'' : Walker} {n : NodeId} {l : List NodeId} (hnext : w.next F = (.ok (some n), w'))
      (hlater : Yields F w' l w'') : Yields F w (n :: l) w''

/-- **Every walker comes to an end** on a forest at its generation. It yields nodes of the forest from what its course
    has left: all of them, if it holds no name that the forest lacks, and else those up to the point where it fails to
    find such a name. -/
theorem exists_yields (hF : F.WellFormed) {w : Walker} (hstamp : w.stamp = F.generation) :
    ∃ l w', Yields F w l w' ∧ l <+: w.course.rest F ∧ (∀ n ∈ l, F.contains n = true) ∧
      (w.course.Valid F ∧ l = w.course.rest F ∧ (w'.next F).1 = .ok none ∨
        ∃ n ∈ w.course.held, F.contains n = false ∧ (w'.next F).1 = .error (.tree (.nodeNotFound n))) := by
  induction hlist : w.course.rest F generalizing w with
  | nil =>
    refine ⟨[], w, .nil, List.nil_prefix, nofun, ?_⟩
    rcases next_cases hF hstamp with ⟨n, hn, hgone, hlost⟩ | ⟨w', hnext, -, -, -, hgone, hend⟩
    · exact .inr ⟨n, hn, hgone, hlost⟩
    · -- a name that is not there would still be held, and nothing is
      have hvalid : w'.course.Valid F := by
        rw [Course.Valid, hend hlist]
        exact nofun
      rw [hlist] at hnext
      exact .inl ⟨(Course.valid_congr hgone).1 hvalid, rfl, congrArg Prod.fst hnext⟩
  | cons n rest ih =>
    rcases next_cases hF hstamp with ⟨m, hm, hgone, hlost⟩ | ⟨w', hnext, hlive, hstamp', hrest, hgone, -⟩
    · exact ⟨[], w, .nil, List.nil_prefix, nofun, .inr ⟨m, hm, hgone, hlost⟩⟩
    · rw [hlist] at hnext hlive hrest
      obtain ⟨l, w'', hyields, hfirst, hall, hend⟩ := ih hstamp' hrest
      refine ⟨n :: l, w'', .cons hnext hyields, (List.prefix_cons_inj n).2 hfirst,
        List.forall_mem_cons.2 ⟨hlive n rfl, hall⟩, ?_⟩
      rcases hend with ⟨hvalid, rfl, hdone⟩ | ⟨m, hm, hlacks, hlost⟩
      · exact .inl ⟨(Course.valid_congr hgone).1 hvalid, rfl, hdone⟩
      · exact .inr ⟨m, (hgone m hlacks).1 hm, hlacks, hlost⟩

theorem drain_of_none {w : Walker} (h : (w.next F).1 = .ok none) (fuel : Nat) : w.drain F (fuel + 1) = .ok [] := by
  rw [drain, ← Prod.mk.eta (p := w.next F), h]

theorem drain_of_error {w : Walker} {failure : Failure} (h : (w.next F).1 = .error failure) (fuel : Nat) :
    w.drain F (fuel + 1) = .error failure := by
  rw [drain, ← Prod.mk.eta (p := w.next F), h]

theorem drainUpTo_of_none {w : Walker} (h : (w.next F).1 = .ok none) (fuel limit : Nat) :
    w.drainUpTo F (fuel + 1) (limit + 1) = .ok [] := by
  rw [drainUpTo, ← Prod.mk.eta (p := w.next F), h]

theorem drainUpTo_of_error {w : Walker} {error : TreeError} (h : (w.next F).1 = .error (.tree error))
    (fuel limit : Nat) : w.drainUpTo F (fuel + 1) (limit + 1) = .error (.breach (.walkFailed error)) := by
  rw [drainUpTo, ← Prod.mk.eta (p := w.next F), h]

namespace Yields

variable {w w' : Walker} {l : List NodeId}

/-- Taking all steps takes the steps that yield something first. -/
theorem drain_eq (h : Yields F w l w') (fuel : Nat) :
    w.drain F (l.length + fuel) = (w'.drain F fuel).map (l ++ ·) := by
  induction h with
  | nil =>
    rw [List.length_nil, Nat.zero_add]
    exact (congrFun Except.map_id _).symm
  | cons hnext _ ih =>
    rw [List.length_cons, Nat.add_right_comm, drain, hnext]
    simp only [ih]
    cases drain F fuel _ <;> rfl

theorem drainUpTo_eq (h : Yields F w l w') (fuel limit : Nat) :
    w.drainUpTo F (l.length + fuel) (l.length + limit) = (w'.drainUpTo F fuel limit).map (l ++ ·) := by
  induction h with
  | nil =>
    rw [List.length_nil, Nat.zero_add, Nat.zero_add]
    exact (congrFun Except.map_id _).symm
  | cons hnext _ ih =>
    rw [List.length_cons, Nat.add_right_comm _ 1 fuel, Nat.add_right_comm _ 1 limit, drainUpTo, hnext]
    simp only [ih]
    cases drainUpTo F fuel limit _ <;> rfl

/-- The first steps of steps in a row. -/
theorem take (h : Yields F w l w') (k : Nat) : ∃ w'', Yields F w (l.take k) w'' := by
  induction h generalizing k with
  | @nil w =>
    rw [List.take_nil]
    exact ⟨w, .nil⟩
  | cons hnext _ ih =>
    cases k with
    | zero => exact ⟨_, .nil⟩
    | succ k =>
      obtain ⟨w'', hlater⟩ := ih k
      exact ⟨w'', .cons hnext hlater⟩

/-- A borrowed walk that is not asked for more than is yielded does not come to the end. -/
theorem drainUpTo_of_le (h : Yields F w l w') {fuel limit : Nat} (hlimit : limit ≤ l.length)
    (hfuel : l.length ≤ fuel) : w.drainUpTo F fuel limit = .ok (l.take limit) := by
  obtain ⟨w'', hfirst⟩ := h.take limit
  obtain ⟨more, rfl⟩ := Nat.exists_eq_add_of_le (Nat.le_trans hlimit hfuel)
  have hdrain := hfirst.drainUpTo_eq more 0
  rw [List.length_take_of_le hlimit, Nat.add_zero, drainUpTo] at hdrain
  rw [hdrain]
  exact congrArg Except.ok (List.append_nil _)

/-! ### The two loops

A walker that yields `l` is asked once more after that, for which there are steps left. -/

section

variable (h : Yields F w l w') (hbound : l.length < w.bound F)

include h hbound

theorem collect_of_none (hend : (w'.next F).1 = .ok none) : w.collect F = .ok l := by
  obtain ⟨fuel, hfuel⟩ := Nat.exists_eq_add_of_lt hbound
  rw [collect, hfuel, Nat.add_assoc, h.drain_eq, drain_of_none hend]
  exact congrArg Except.ok (List.append_nil l)

theorem collect_of_error {failure : Failure} (hend : (w'.next F).1 = .error failure) :
    w.collect F = .error failure := by
  obtain ⟨fuel, hfuel⟩ := Nat.exists_eq_add_of_lt hbound
  rw [collect, hfuel, Nat.add_assoc, h.drain_eq, drain_of_error hend]
  rfl

variable (hstamp : w.stamp = F.generation) (limit : Option Nat)

include hstamp

theorem borrow_of_le (hlimit : limit.getD (w.bound F) ≤ l.length) :
    w.borrow F limit = .ok (l.take (limit.getD (w.bound F))) := by
  rw [borrow, check_eq_ok hstamp]
  exact h.drainUpTo_of_le hlimit (Nat.le_of_lt hbound)

theorem borrow_of_none (hend : (w'.next F).1 = .ok none) :
    w.borrow F limit = .ok (l.take (limit.getD (w.bound F))) := by
  rcases Nat.lt_or_ge l.length (limit.getD (w.bound F)) with hlt | hle
  · obtain ⟨fuel, hfuel⟩ := Nat.exists_eq_add_of_lt hbound
    obtain ⟨more, hmore⟩ := Nat.exists_eq_add_of_lt hlt
    rw [List.take_of_length_le (Nat.le_of_lt hlt), borrow, check_eq_ok hstamp]
    show w.drainUpTo F (w.bound F) (limit.getD (w.bound F)) = .ok l
    rw [hmore, hfuel, Nat.add_assoc, Nat.add_assoc, h.drainUpTo_eq, drainUpTo_of_none hend]
    exact congrArg Except.ok (List.append_nil l)
  · exact h.borrow_of_le hbound hstamp limit hle

/-- A walk that breaks off does so unless it was asked for no more than what comes before. -/
theorem borrow_of_error {error : TreeError} (hend : (w'.next F).1 = .error (.tree error)) :
    w.borrow F limit = if limit.getD (w.bound F) ≤ l.length then .ok (l.take (limit.getD (w.bound F)))
      else .error (.breach (.walkFailed error)) := by
  split
  · rename_i hle
    exact h.borrow_of_le hbound hstamp limit hle
  · rename_i hlt
    obtain ⟨fuel, hfuel⟩ := Nat.exists_eq_add_of_lt hbound
    obtain ⟨more, hmore⟩ := Nat.exists_eq_add_of_lt (Nat.not_le.1 hlt)
    rw [borrow, check_eq_ok hstamp]
    show w.drainUpTo F (w.bound F) (limit.getD (w.bound F)) = .error (.breach (.walkFailed error))
    rw [hmore, hfuel, Nat.add_assoc, Nat.add_assoc, h.drainUpTo_eq, drainUpTo_of_error hend]
    rfl

end

end Yields

/-- The bound on the number of steps is never reached. -/
theorem length_rest_lt_bound (hF : F.WellFormed) (w : Walker) : (w.course.rest F).length < w.bound F := by
  have hle := Course.length_rest_le hF w.course
  rw [bound, Nat.succ_mul]
  omega

/-- At another generation no steps are taken. -/
theorem collect_of_ne {w : Walker} (h : w.stamp ≠ F.generation) :
    w.collect F = .error (.tree (.staleIterator w.stamp F.generation)) := by
  obtain ⟨fuel, hfuel⟩ : ∃ fuel, w.bound F = fuel + 1 :=
    Nat.exists_eq_add_one.2 (Nat.mul_pos (Nat.succ_pos _) (Nat.succ_pos _))
  rw [collect, hfuel]
  exact drain_of_error (congrArg Prod.fst (next_of_ne h)) fuel

theorem borrow_of_ne {w : Walker} (h : w.stamp ≠ F.generation) (limit : Option Nat) :
    w.borrow F limit = .error (.tree (.staleIterator w.stamp F.generation)) := by
  rw [borrow, check_of_ne h]
  rfl

/-- **The two loops at the walker's generation.** A borrowed walk hands out what stepping yields, as much as was asked
    for, and then does what taking all steps does, except that it breaks off at a name that is not found. -/
theorem loops_of_stamp (hF : F.WellFormed) {w : Walker} (hstamp : w.stamp = F.generation) :
    ∃ l w', Yields F w l w' ∧ l <+: w.course.rest F ∧ (∀ n ∈ l, F.contains n = true) ∧
      (∀ k, w.borrow F (some k) = if k ≤ l.length then .ok (l.take k) else w.borrow F none) ∧
      (w.course.Valid F ∧ l = w.course.rest F ∧ (w'.next F).1 = .ok none ∧
          w.collect F = .ok l ∧ w.borrow F none = .ok l ∨
        ∃ n ∈ w.course.held, F.contains n = false ∧ (w'.next F).1 = .error (.tree (.nodeNotFound n)) ∧
          w.collect F = .error (.tree (.nodeNotFound n)) ∧
          w.borrow F none = .error (.breach (.walkFailed (.nodeNotFound n)))) := by
  obtain ⟨l, w', hyields, hfirst, hlive, hend⟩ := exists_yields hF hstamp
  have hbound : l.length < w.bound F := Nat.lt_of_le_of_lt hfirst.length_le (length_rest_lt_bound hF w)
  refine ⟨l, w', hyields, hfirst, hlive, ?_⟩
  rcases hend with ⟨hvalid, hall, hdone⟩ | ⟨n, hn, hgone, hlost⟩
  · have hborrow := fun limit => hyields.borrow_of_none hbound hstamp limit hdone
    have hnone : w.borrow F none = .ok l := by
      rw [hborrow, Option.getD_none, List.take_of_length_le (Nat.le_of_lt hbound)]
    refine ⟨fun k => ?_, .inl ⟨hvalid, hall, hdone, hyields.collect_of_none hbound hdone, hnone⟩⟩
    rw [hborrow, hnone, Option.getD_some]
    split
    · rfl
    · rename_i hk
      rw [List.take_of_length_le (Nat.le_of_not_le hk)]
  · have hborrow := fun limit => hyields.borrow_of_error hbound hstamp limit hlost
    have hnone : w.borrow F none = .error (.breach (.walkFailed (.nodeNotFound n))) := by
      rw [hborrow, Option.getD_none, if_neg (Nat.not_le.2 hbound)]
    refine ⟨fun k => ?_, .inr ⟨n, hn, hgone, hlost, hyields.collect_of_error hbound hlost, hnone⟩⟩
    rw [hborrow, hnone, Option.getD_some]

/-- While all its names are there, a walker yields what its course has left, and then nothing more. -/
theorem yields_rest (hF : F.WellFormed) {w : Walker} (hstamp : w.stamp = F.generation)
    (hvalid : w.course.Valid F) : ∃ w', Yields F w (w.course.rest F) w' ∧ (w'.next F).1 = .ok none := by
  obtain ⟨l, w', hyields, -, -, ⟨-, rfl, hend⟩ | ⟨n, hn, hgone, -⟩⟩ := exists_yields hF hstamp
  · exact ⟨w', hyields, hend⟩
  · rw [hvalid n hn] at hgone
    cases hgone

/-- **All steps** of a walker yield what its course has left. -/
theorem collect_eq (hF : F.WellFormed) {w : Walker} (hstamp : w.stamp = F.generation)
    (hvalid : w.course.Valid F) : w.collect F = .ok (w.course.rest F) := by
  obtain ⟨w', hyields, hend⟩ := yields_rest hF hstamp hvalid
  exact hyields.collect_of_none (length_rest_lt_bound hF w) hend

theorem borrow_eq (hF : F.WellFormed) {w : Walker} (hstamp : w.stamp = F.generation) (hvalid : w.course.Valid F)
    (limit : Option Nat) : w.borrow F limit = .ok ((w.course.rest F).take (limit.getD (w.bound F))) := by
  obtain ⟨w', hyields, hend⟩ := yields_rest hF hstamp hvalid
  exact hyields.borrow_of_none (length_rest_lt_bound hF w) hstamp limit hend

theorem borrow_none_eq (hF : F.WellFormed) {w : Walker} (hstamp : w.stamp = F.generation)
    (hvalid : w.course.Valid F) : w.borrow F none = .ok (w.course.rest F) := by
  rw [borrow_eq hF hstamp hvalid, Option.getD_none,
    List.take_of_length_le (Nat.le_of_lt (length_rest_lt_bound hF w))]

/-! ## New walkers -/

/-- What is made once a name is found is made exactly for the names that are there. -/
theorem lookup_then_eq_ok_iff {n : NodeId} {made w : Walker} :
    (do let _ ← F.lookup n; return made : Except Failure Walker) = .ok w ↔ F.contains n = true ∧ w = made := by
  rw [lookup_then_eq (r := pure made) fun _ _ => rfl]
  cases F.contains n with
  | false => simp
  | true => simp [pure, Except.pure, eq_comm]

theorem preorder_eq_ok_iff {n : NodeId} {w : Walker} :
    preorder F n = .ok w ↔ F.contains n = true ∧ w = ⟨F.generation, .preorder (some n) []⟩ :=
  lookup_then_eq_ok_iff

theorem postorder_eq_ok_iff {n : NodeId} {w : Walker} :
    postorder F n = .ok w ↔ F.contains n = true ∧ w = ⟨F.generation, .postorder [⟨n, 0⟩]⟩ :=
  lookup_then_eq_ok_iff

theorem breadthFirst_eq_ok_iff {n : NodeId} {w : Walker} :
    breadthFirst F n = .ok w ↔ F.contains n = true ∧ w = ⟨F.generation, .breadthFirst (some n) []⟩ :=
  lookup_then_eq_ok_iff

/-- The nodes met when climbing from `d` as far as `a`, the last of them first. -/
def pathOf (F : Forest α) (a d : NodeId) : List NodeId :=
  ((F.chain d).takeWhile (· != a) ++ [a]).reverse

theorem pathUp_eq (hF : F.WellFormed) {n : NodeId} {l : List NodeId} (h : F.Climb n l)
    (hn : F.contains n = true) (a d : NodeId) (fuel : Nat) (below : List NodeId) (hfuel : l.length ≤ fuel) :
    pathUp F a d fuel n below
      = if a ∈ l then .ok ((l.takeWhile (· != a) ++ [a]).reverse ++ below)
        else .error (.tree (.notAnAncestor a d)) := by
  induction h generalizing fuel below with
  | @root n hroot =>
    obtain ⟨k, rfl⟩ := (Climb.root hroot).exists_fuel hfuel
    by_cases heq : n = a
    · simp [pathUp, heq]
    · simp [pathUp, heq, Ne.symm heq, parent_eq_ok hn, hroot, bind, Except.bind]
  | @hop n p l hparent hclimb ih =>
    obtain ⟨k, rfl⟩ := (Climb.hop hparent hclimb).exists_fuel hfuel
    by_cases heq : n = a
    · simp [pathUp, heq]
    · have hrec := ih (hF.contains_parent hparent) k (n :: below) (by simpa using hfuel)
      simp [pathUp, heq, Ne.symm heq, parent_eq_ok hn, hparent, hrec, bind, Except.bind]

/-- **A path walker** is made for an ancestor and a node below it. -/
theorem path_eq (hF : F.WellFormed) (a d : NodeId) :
    path F a d
      = if F.contains a = false then .error (.tree (.nodeNotFound a))
        else if F.contains d = false then .error (.tree (.nodeNotFound d))
        else if a ∈ F.chain d then .ok ⟨F.generation, .path (pathOf F a d)⟩
        else .error (.tree (.notAnAncestor a d)) := by
  unfold path
  apply lookup_then_eq
  intro _ _
  apply lookup_then_eq
  intro _ hbelow
  have hd := contains_of_get? hbelow
  rw [pathUp_eq hF (hF.climb_chain hd) hd a d F.size [] (hF.length_chain_le hd), List.append_nil]
  by_cases hup : a ∈ F.chain d
  · rw [if_pos hup, if_pos hup]
    rfl
  · rw [if_neg hup, if_neg hup]
    rfl

theorem path_eq_ok_iff (hF : F.WellFormed) {a d : NodeId} {w : Walker} :
    path F a d = .ok w ↔ (F.contains a = true ∧ F.contains d = true ∧ a ∈ F.chain d)
      ∧ w = ⟨F.generation, .path (pathOf F a d)⟩ := by
  rw [path_eq hF]
  cases F.contains a with
  | false => simp
  | true =>
    cases F.contains d with
    | false => simp
    | true => by_cases hup : a ∈ F.chain d <;> simp [hup, eq_comm]

/-- The nodes on a path are there. -/
theorem contains_of_mem_pathOf (hF : F.WellFormed) {a d x : NodeId} (hd : F.contains d = true)
    (hup : a ∈ F.chain d) (hx : x ∈ pathOf F a d) : F.contains x = true := by
  have hchain : ∀ y ∈ F.chain d, F.contains y = true := fun y hy =>
    hF.contains_ancestor ((hF.mem_chain_iff hd).1 hy) hd
  rw [pathOf, List.mem_reverse, List.mem_append, List.mem_singleton] at hx
  rcases hx with hx | rfl
  · exact hchain x ((List.takeWhile_prefix _).subset hx)
  · exact hchain x hup

/-- `w` is a walker just made on `F`, and `l` is what it is to visit. -/
inductive New (F : Forest α) (w : Walker) : List NodeId → Prop where
  | preorder {n : NodeId} (h : Walker.preorder F n = .ok w) : New F w (F.shape n).preorder
  | postorder {n : NodeId} (h : Walker.postorder F n = .ok w) : New F w (F.shape n).postorder
  | breadthFirst {n : NodeId} (h : Walker.breadthFirst F n = .ok w) : New F w (Tree.queued [F.shape n])
  | path {a d : NodeId} (h : Walker.path F a d = .ok w) : New F w (pathOf F a d)

/-- **A new walker** has the forest's generation, holds names that are there, and has everything left. -/
theorem New.rest_eq {w : Walker} {l : List NodeId} (h : New F w l) (hF : F.WellFormed) :
    w.stamp = F.generation ∧ w.course.Valid F ∧ w.course.rest F = l := by
  cases h with
  | @preorder n h =>
    obtain ⟨hn, rfl⟩ := preorder_eq_ok_iff.1 h
    refine ⟨rfl, ?_, ?_⟩
    · simpa [Course.Valid, Course.held] using hn
    · simp [Course.rest, Course.preorderRest]
  | @postorder n h =>
    obtain ⟨hn, rfl⟩ := postorder_eq_ok_iff.1 h
    refine ⟨rfl, ?_, ?_⟩
    · simpa [Course.Valid, Course.held] using hn
    · simp only [Course.rest, Course.postorderRest, List.flatMap_cons, List.flatMap_nil, List.append_nil]
      rw [Course.ahead_zero hF hn, hF.children_shape hn, hF.shape_eq hn, Tree.postorder_node]
  | @breadthFirst n h =>
    obtain ⟨hn, rfl⟩ := breadthFirst_eq_ok_iff.1 h
    refine ⟨rfl, ?_, ?_⟩
    · simpa [Course.Valid, Course.held] using hn
    · simp [Course.rest]
  | @path a d h =>
    obtain ⟨⟨-, hd, hup⟩, rfl⟩ := (path_eq_ok_iff hF).1 h
    exact ⟨rfl, fun x hx => contains_of_mem_pathOf hF hd hup hx, rfl⟩

end Walker

/-! ## Traversals of the forest -/

namespace Forest

/-- A new walker yields all it is to visit, over a borrowed forest or an open one. -/
theorem traversal_of_new (hF : F.WellFormed) {made : Except Failure Walker} {w : Walker} {l : List NodeId}
    (hmade : made = .ok w) (h : Walker.New F w l) :
    w.borrow F none = .ok l ∧ (made >>= (·.collect F)) = .ok l := by
  obtain ⟨hstamp, hvalid, rfl⟩ := h.rest_eq hF
  rw [hmade]
  exact ⟨Walker.borrow_none_eq hF hstamp hvalid, Walker.collect_eq hF hstamp hvalid⟩

theorem preorder_eq (hF : F.WellFormed) {n : NodeId} (hn : F.contains n = true) :
    F.preorder n = .ok (F.shape n).preorder ∧
      (Walker.preorder F n >>= (·.collect F)) = .ok (F.shape n).preorder := by
  have hmade := Walker.preorder_eq_ok_iff.2 ⟨hn, rfl⟩
  exact traversal_of_new hF hmade (.preorder hmade)

theorem postorder_eq (hF : F.WellFormed) {n : NodeId} (hn : F.contains n = true) :
    F.postorder n = .ok (F.shape n).postorder ∧
      (Walker.postorder F n >>= (·.collect F)) = .ok (F.shape n).postorder := by
  have hmade := Walker.postorder_eq_ok_iff.2 ⟨hn, rfl⟩
  exact traversal_of_new hF hmade (.postorder hmade)

theorem breadthFirst_eq (hF : F.WellFormed) {n : NodeId} (hn : F.contains n = true) :
    F.breadthFirst n = .ok (Tree.queued [F.shape n]) ∧
      (Walker.breadthFirst F n >>= (·.collect F)) = .ok (Tree.queued [F.shape n]) := by
  have hmade := Walker.breadthFirst_eq_ok_iff.2 ⟨hn, rfl⟩
  exact traversal_of_new hF hmade (.breadthFirst hmade)

/-- **The traversals are the recursive listings.** Whether a walker is stepped to its end or the forest is asked
    at once, the answer in each order satisfies the order's recursive equation, breadth-first order being the
    preorder sorted by level with the nodes of one level kept in order. Each lists the nodes of the subtree, and
    none twice. -/
theorem traversals_eq (hF : F.Reachable) :
    ∃ pre post wide : NodeId → List NodeId, ∀ n, F.contains n = true →
      (F.preorder n = .ok (pre n) ∧ (Walker.preorder F n >>= (·.collect F)) = .ok (pre n)) ∧
      (F.postorder n = .ok (post n) ∧ (Walker.postorder F n >>= (·.collect F)) = .ok (post n)) ∧
      (F.breadthFirst n = .ok (wide n) ∧ (Walker.breadthFirst F n >>= (·.collect F)) = .ok (wide n)) ∧
      pre n = n :: (F.childrenOf n).flatMap pre ∧
      post n = (F.childrenOf n).flatMap post ++ [n] ∧
      wide n = (pre n).mergeSort (fun x y => decide (F.levelOf x ≤ F.levelOf y)) ∧
      F.level n = .ok (F.levelOf n) ∧
      ∀ l ∈ [pre n, post n, wide n], l.Nodup ∧ ∀ x, x ∈ l ↔ F.Ancestor n x := by
  have hwf := hF.wellFormed
  refine ⟨fun n => (F.shape n).preorder, fun n => (F.shape n).postorder, fun n => Tree.queued [F.shape n], ?_⟩
  intro n hn
  refine ⟨preorder_eq hwf hn, postorder_eq hwf hn, breadthFirst_eq hwf hn, hwf.preorder_shape hn,
    hwf.postorder_shape hn, Tree.queued_eq_mergeSort (hwf.graded_shape hn), hwf.level_eq hn, ?_⟩
  have hwide : (Tree.queued [F.shape n]).Perm (F.shape n).preorder := by
    simpa using Tree.queued_perm [F.shape n]
  -- all orders list the same nodes, so that it is enough to know those of the preorder
  have hperm : ∀ l ∈ [(F.shape n).preorder, (F.shape n).postorder, Tree.queued [F.shape n]],
      l.Perm (F.shape n).preorder := by
    intro l hl
    simp only [List.mem_cons, List.not_mem_nil, or_false] at hl
    rcases hl with rfl | rfl | rfl
    · exact List.Perm.refl _
    · exact (F.shape n).postorder_perm_preorder
    · exact hwide
  intro l hl
  constructor
  · rw [(hperm l hl).nodup_iff]
    exact hwf.nodup_preorder_shape hn
  · intro x
    rw [(hperm l hl).mem_iff, hwf.mem_preorder_shape_iff hn]

theorem traversals_eq_of_fork :
    let F := (empty : Forest Nat).afterAll [.create 7, .create 8, .create 9, .add ⟨0, 0⟩ ⟨1, 0⟩, .add ⟨0, 0⟩ ⟨2, 0⟩]
    F.Reachable ∧ F.preorder ⟨0, 0⟩ = .ok [⟨0, 0⟩, ⟨1, 0⟩, ⟨2, 0⟩]
      ∧ F.postorder ⟨0, 0⟩ = .ok [⟨1, 0⟩, ⟨2, 0⟩, ⟨0, 0⟩] := by
  intro F
  have hF : F.Reachable := ⟨_, rfl⟩
  obtain ⟨pre, post, wide, h⟩ := traversals_eq hF
  have htop : F.childrenOf ⟨0, 0⟩ = [⟨1, 0⟩, ⟨2, 0⟩] := by decide
  have hleft : F.childrenOf ⟨1, 0⟩ = [] := by decide
  have hright : F.childrenOf ⟨2, 0⟩ = [] := by decide
  obtain ⟨⟨hpre, -⟩, ⟨hpost, -⟩, -, hpreorder, hpostorder, -⟩ := h ⟨0, 0⟩ (by decide)
  obtain ⟨-, -, -, hpreorder₁, hpostorder₁, -⟩ := h ⟨1, 0⟩ (by decide)
  obtain ⟨-, -, -, hpreorder₂, hpostorder₂, -⟩ := h ⟨2, 0⟩ (by decide)
  refine ⟨hF, ?_, ?_⟩
  · rw [hpre, hpreorder, htop]
    simp [hpreorder₁, hpreorder₂, hleft, hright]
  · rw [hpost, hpostorder, htop]
    simp [hpostorder₁, hpostorder₂, hleft, hright]

end Forest

end Grove
