import Grove.Proofs.Forest.Depth
import Grove.Proofs.Walker.Session

/-!
# `Proofs.Walker.Path` — down a path

A path walker is made by climbing from the lower node until the upper one is met, and what was met is put away to be
gone through in the other direction later. A climb goes on from each node that it meets (`Climb.dropWhile`), so the
nodes put away are the end of the path that leads from the root down to the lower node (`path_eq_append`). Which nodes
these are is settled when the walker is made; from then on it is a walker like others, and one that knows how many
nodes it has left (`Session.Good.remaining_eq`).
-/

namespace Grove

open Forest Walker

variable {α : Type} {F : Forest α} {a d : NodeId}

/-! ## The nodes put away -/

namespace Forest

/-- A climb goes on from each node that it meets. -/
theorem Climb.dropWhile {n : NodeId} {l : List NodeId} (h : F.Climb n l) (ha : a ∈ l) :
    F.Climb a (l.dropWhile (· != a)) := by
  induction h with
  | @root n hroot =>
    obtain rfl := List.mem_singleton.1 ha
    rw [List.dropWhile_cons_of_neg (by simp)]
    exact .root hroot
  | @hop n p l hparent hclimb ih =>
    by_cases hna : n = a
    · subst hna
      rw [List.dropWhile_cons_of_neg (by simp)]
      exact .hop hparent hclimb
    · rw [List.dropWhile_cons_of_pos (by simpa using hna)]
      exact ih ((List.mem_cons.1 ha).resolve_left (Ne.symm hna))

theorem head?_pathOf (F : Forest α) (a d : NodeId) : (pathOf F a d).head? = some a := by
  simp [pathOf]

namespace WellFormed

section

variable (hF : F.WellFormed) (hd : F.contains d = true) (hup : F.Ancestor a d)

include hF hd hup

/-- **The nodes put away are the end of the path**, which begins with as many nodes as there are above `a`. -/
theorem path_eq_append : ∃ above, (F.chain d).reverse = above ++ pathOf F a d ∧ above.length = F.levelOf a := by
  have hclimb := (hF.climb_chain hd).dropWhile ((hF.mem_chain_iff hd).2 hup)
  have hchain := hF.chain_of_climb hclimb (hF.contains_ancestor hup hd)
  obtain ⟨rest, hrest⟩ : ∃ rest, (F.chain d).dropWhile (· != a) = a :: rest :=
    List.head?_eq_some_iff.1 hclimb.head?_eq
  have hsplit : F.chain d = (F.chain d).takeWhile (· != a) ++ a :: rest := by
    rw [← hrest, List.takeWhile_append_dropWhile]
  refine ⟨rest.reverse, ?_, ?_⟩
  · calc (F.chain d).reverse
        = ((F.chain d).takeWhile (· != a) ++ a :: rest).reverse := congrArg List.reverse hsplit
      _ = rest.reverse ++ pathOf F a d := by simp [pathOf]
  · rw [levelOf, hchain, hrest, List.length_reverse, List.length_cons, Nat.add_sub_cancel]

theorem getLast?_pathOf : (pathOf F a d).getLast? = some d := by
  obtain ⟨above, hpath, -⟩ := hF.path_eq_append hd hup
  have hlast : (F.chain d).reverse.getLast? = some d := by
    rw [List.getLast?_reverse, (hF.climb_chain hd).head?_eq]
  have hne : pathOf F a d ≠ [] := List.ne_nil_of_mem (List.mem_of_mem_head? (head?_pathOf F a d))
  rwa [hpath, List.getLast?_append_of_ne_nil _ hne] at hlast

theorem isChain_pathOf : (pathOf F a d).IsChain fun p c => F.parent c = .ok (some p) := by
  obtain ⟨above, hpath, -⟩ := hF.path_eq_append hd hup
  have hchain := hF.isChain_path hd
  rw [hpath] at hchain
  exact hchain.right_of_append

theorem length_pathOf : (pathOf F a d).length = F.levelOf d - F.levelOf a + 1 := by
  obtain ⟨above, hpath, habove⟩ := hF.path_eq_append hd hup
  have hlength := hF.length_path hd
  have hle := hF.levelOf_le_of_ancestor hup
  rw [hpath, List.length_append, habove] at hlength
  omega

end

end WellFormed

end Forest

/-! ## The nodes that are left -/

/-- A walker that knows how many nodes it has left is one down a path. -/
theorem Walker.remaining_eq {w : Walker} (F : Forest α) (h : w.remaining.isSome = true) :
    w.remaining = some (w.course.rest F).length := by
  obtain ⟨stamp, course⟩ := w
  cases course with
  | path l => rfl
  | preorder | postorder | breadthFirst => cases h

theorem Walker.isSome_remaining_next (F : Forest α) (w : Walker) :
    (w.next F).2.remaining.isSome = w.remaining.isSome := by
  by_cases hstamp : w.stamp = F.generation
  · obtain ⟨stamp, course⟩ := w
    rw [next_of_stamp hstamp]
    cases course with
    | preorder start stack => cases start <;> rfl
    | postorder stack => rfl
    | breadthFirst start queue => cases start <;> rfl
    | path l => rfl
  · rw [next_of_ne hstamp]

namespace Session

variable {g : UInt64} {l : List NodeId} {s : Session α}

theorem isSome_remaining_run (s : Session α) (events : List (Event α)) :
    (s.run events).walker.remaining.isSome = s.walker.remaining.isSome := by
  induction events generalizing s with
  | nil => rfl
  | cons event events ih =>
    refine (ih (s.next event)).trans ?_
    cases event with
    | step => exact isSome_remaining_next s.forest s.walker
    | call call => rfl

/-- Without a structural write, each step has used up one of the nodes, until there are none left. -/
theorem Good.remaining_eq (h : Good g l s) (hpath : s.walker.remaining.isSome = true) (hbumps : s.bumps = 0) :
    s.walker.remaining = some (l.length - s.answers.length) := by
  rw [Walker.remaining_eq s.forest hpath, h.rest_eq hbumps, List.length_drop]

end Session

/-- **Path walkers.** Making one fails for a name that does not resolve, of the upper node first, and for two nodes of
    which the first is neither the second nor above it. Otherwise what the walker visits is the end of the path to
    the lower node, from the upper one on. Whatever events happen in whatever order, as long as no structural write
    has moved the generation on, the walker has answered with these nodes from the first one on and with nothing
    after the last, and has as many left as it was not asked for. -/
theorem Walker.path_outcome (hF : F.Reachable) (a d : NodeId) :
    (F.contains a = false → Walker.path F a d = .error (.tree (.nodeNotFound a))) ∧
    (F.contains a = true → F.contains d = false → Walker.path F a d = .error (.tree (.nodeNotFound d))) ∧
    (F.contains a = true → F.contains d = true →
      (Walker.path F a d = .error (.tree (.notAnAncestor a d)) ↔ ¬ F.Ancestor a d) ∧
      (F.Ancestor a d → ∃ w path above l top bottom, Walker.path F a d = .ok w ∧ F.path d = .ok path ∧
        path = above ++ l ∧ a ∉ above ∧ l.head? = some a ∧ l.getLast? = some d ∧
        l.IsChain (fun p c => F.parent c = .ok (some p)) ∧
        F.level a = .ok top ∧ F.level d = .ok bottom ∧ top ≤ bottom ∧ l.length = bottom - top + 1 ∧
        ∀ events, let s := (Session.start F w).run events
          s.bumps = 0 → (s.answers = (List.range s.answers.length).map fun k => .ok l[k]?) ∧
            s.walker.remaining = some (l.length - s.answers.length))) := by
  have hwf := hF.wellFormed
  have hpath := path_eq hwf a d
  refine ⟨fun ha => ?_, fun ha hd => ?_, fun ha hd => ?_⟩
  · rw [hpath, if_pos ha]
  · rw [hpath, if_neg (by simp [ha]), if_pos hd]
  rw [if_neg (by simp [ha]), if_neg (by simp [hd])] at hpath
  constructor
  · rw [hpath, ← hwf.mem_chain_iff hd]
    split <;> simp [*]
  intro hup
  rw [if_pos ((hwf.mem_chain_iff hd).2 hup)] at hpath
  obtain ⟨above, hwhole, -⟩ := hwf.path_eq_append hd hup
  have hnodup : (above ++ pathOf F a d).Nodup := by
    rw [← hwhole, List.nodup_reverse]
    exact hwf.nodup_of_climb (hwf.climb_chain hd)
  have habove : a ∉ above := fun hmem =>
    (List.nodup_append.1 hnodup).2.2 a hmem a (List.mem_of_mem_head? (head?_pathOf F a d)) rfl
  refine ⟨_, _, above, pathOf F a d, _, _, hpath, hwf.path_eq hd, hwhole, habove, head?_pathOf F a d,
    hwf.getLast?_pathOf hd hup, hwf.isChain_pathOf hd hup, hwf.level_eq ha, hwf.level_eq hd,
    hwf.levelOf_le_of_ancestor hup, hwf.length_pathOf hd hup, ?_⟩
  intro events s hbumps
  have h : Session.Good F.generation (pathOf F a d) s := (Session.good_start hF (.path hpath)).run events
  refine ⟨h.answers_eq hbumps, h.remaining_eq ?_ hbumps⟩
  rw [Session.isSome_remaining_run]
  rfl

/-- Three nodes one below the other, and a walker down the lower two of them: a change of a value does not stop it. -/
theorem Walker.path_outcome_of_chain :
    let F := (empty : Forest Nat).afterAll
      [.create 7, .create 8, .create 9, .add ⟨0, 0⟩ ⟨1, 0⟩, .add ⟨1, 0⟩ ⟨2, 0⟩]
    let s := (Session.start F ⟨2, .path [⟨1, 0⟩, ⟨2, 0⟩]⟩).run [.step, .call (.setValue ⟨2, 0⟩ 6), .step, .step]
    F.Reachable ∧ Walker.path F ⟨1, 0⟩ ⟨2, 0⟩ = .ok ⟨2, .path [⟨1, 0⟩, ⟨2, 0⟩]⟩ ∧
      F.path ⟨2, 0⟩ = .ok [⟨0, 0⟩, ⟨1, 0⟩, ⟨2, 0⟩] ∧
      s.answers = [.ok (some ⟨1, 0⟩), .ok (some ⟨2, 0⟩), .ok none] ∧ s.walker.remaining = some 0 ∧
      Walker.path F ⟨2, 0⟩ ⟨2, 1⟩ = .error (.tree (.nodeNotFound ⟨2, 1⟩)) := by
  intro F s
  have hF : F.Reachable := ⟨_, rfl⟩
  have hup : F.Ancestor ⟨1, 0⟩ ⟨2, 0⟩ := ancestor_of_parentOf (by decide)
  obtain ⟨-, -, hmade⟩ := Walker.path_outcome hF ⟨1, 0⟩ ⟨2, 0⟩
  obtain ⟨w, path, above, l, _, _, hw, hpath, hwhole, -, hhead, -, -, -, -, -, -, hrun⟩ :=
    (hmade (by decide) (by decide)).2 hup
  obtain rfl : w = ⟨2, .path [⟨1, 0⟩, ⟨2, 0⟩]⟩ := Except.ok.inj (hw.symm.trans rfl)
  obtain rfl : path = [⟨0, 0⟩] ++ ⟨1, 0⟩ :: [⟨2, 0⟩] := Except.ok.inj (hpath.symm.trans rfl)
  obtain ⟨rest, rfl⟩ := List.head?_eq_some_iff.1 hhead
  obtain ⟨rfl, rfl⟩ := split_unique (by decide) rfl hwhole
  obtain ⟨hanswers, hremaining⟩ := hrun [.step, .call (.setValue ⟨2, 0⟩ 6), .step, .step] rfl
  exact ⟨hF, hw, hpath, hanswers, hremaining, (Walker.path_outcome hF ⟨2, 0⟩ ⟨2, 1⟩).2.1 (by decide) (by decide)⟩

end Grove
