import Grove.Proofs.Forest.Edits
import Grove.Proofs.Forest.Shape

/-!
# `Proofs.Forest.Discard` — giving up a subtree

Giving up a node takes it from its parent and then works off a stack of names: each is released, and its
children are put on the stack. The stack always stands for the subtrees of the names on it, read from right to
left with each node before its subtree, which is the postorder backwards (`releaseAll_eq`). As a shape holds no
name twice, no more names are taken from the stack than there are nodes, and the whole subtree is released
(`discard_eq`).

What is left is well-formed (`WellFormed.prune`): a subtree whose top is a root has no links to the rest.
-/

namespace Grove.Forest

variable {α : Type} {F G : Forest α}

open Edit

/-- The forest without the subtree of `n`, whose nodes are released in the order in which the stack meets
    them. -/
def prune (n : NodeId) (F : Forest α) : Forest α :=
  { F with nodes := F.nodes.eraseAll (F.shape n).postorder.reverse }

/-! ## The stack -/

/-- The names that a stack stands for, in the order in which they are released. -/
def doomed (F : Forest α) (stack : List NodeId) : List NodeId :=
  stack.flatMap fun n => (F.shape n).postorder.reverse

theorem doomed_singleton (F : Forest α) (n : NodeId) : F.doomed [n] = (F.shape n).postorder.reverse :=
  List.flatMap_singleton ..

/-- The name in front goes first, then its children from the right, then the rest of the stack. -/
theorem WellFormed.doomed_cons (hF : F.WellFormed) {n : NodeId} {node : Node α} (hn : F.get? n = some node)
    (stack : List NodeId) : F.doomed (n :: stack) = n :: F.doomed (node.children.reverse ++ stack) := by
  unfold doomed
  rw [List.flatMap_cons, hF.postorder_shape (contains_of_get? hn), List.reverse_append, List.reverse_flatMap,
    childrenOf_of_get? hn, List.flatMap_append]
  rfl

/-- What is put on the stack for a node is there. -/
theorem WellFormed.contains_of_pushed (hF : F.WellFormed) {n : NodeId} {node : Node α} {stack : List NodeId}
    (hn : F.get? n = some node) (hstack : ∀ x ∈ n :: stack, F.contains x = true) :
    ∀ x ∈ node.children.reverse ++ stack, F.contains x = true := by
  intro x hx
  rcases List.mem_append.1 hx with hx | hx
  · apply hF.contains_child (p := n)
    rw [childrenOf_of_get? hn]
    exact List.mem_reverse.1 hx
  · exact hstack x (List.mem_cons_of_mem _ hx)

theorem release_eq {n : NodeId} {node : Node α} (hn : F.get? n = some node) :
    ∃ nodes, F.nodes.erase n = some (node, nodes) ∧ release n F = .ok (some node) { F with nodes } := by
  obtain ⟨nodes, herase⟩ := Arena.exists_erase hn
  exact ⟨nodes, herase, by simp only [release, herase]⟩

theorem read_size_eq (F : Forest α) : read (fun F : Forest α => .ok F.size) F = .ok F.size F := rfl

/-- **A stack of names stands for their subtrees.** While `G` still holds the nodes of these subtrees as `F`
    does, working off the stack releases them all. -/
theorem WellFormed.releaseAll_eq (hF : F.WellFormed) (fuel : Nat) (stack : List NodeId) (released : Nat)
    (G : Forest α) (hstack : ∀ n ∈ stack, F.contains n = true) (hnodup : (F.doomed stack).Nodup)
    (hsame : ∀ n ∈ F.doomed stack, G.get? n = F.get? n) (hfuel : (F.doomed stack).length ≤ fuel) :
    releaseAll fuel stack released G
      = .ok (released + (F.doomed stack).length) { G with nodes := G.nodes.eraseAll (F.doomed stack) } := by
  induction fuel generalizing stack released G with
  | zero =>
    cases stack with
    | nil => rfl
    | cons n stack =>
      obtain ⟨node, hnode⟩ := contains_iff.1 (hstack n (List.mem_cons_self ..))
      rw [hF.doomed_cons hnode] at hfuel
      simp at hfuel
  | succ fuel ih =>
    cases stack with
    | nil => rfl
    | cons n stack =>
      obtain ⟨node, hnode⟩ := contains_iff.1 (hstack n (List.mem_cons_self ..))
      rw [hF.doomed_cons hnode] at hnodup hsame hfuel ⊢
      rw [List.nodup_cons] at hnodup
      have hGn : G.get? n = some node := (hsame n (List.mem_cons_self ..)).trans hnode
      obtain ⟨nodes, herase, hrelease⟩ := release_eq hGn
      -- releasing `n` touches no other name, so the rest of the stack still finds its nodes
      have hrest : ∀ x ∈ F.doomed (node.children.reverse ++ stack),
          ({ G with nodes } : Forest α).get? x = F.get? x := by
        intro x hx
        have hne : x ≠ n := by
          rintro rfl
          exact hnodup.1 hx
        refine ((Arena.get?_erase herase x).trans (if_neg hne)).trans ?_
        exact hsame x (List.mem_cons_of_mem _ hx)
      have hlength : (F.doomed (node.children.reverse ++ stack)).length ≤ fuel := by simpa using hfuel
      refine (bind_of_ok hrelease).trans ?_
      refine (ih _ (released + 1) _ (hF.contains_of_pushed hnode hstack) hnodup.2 hrest hlength).trans ?_
      rw [Arena.eraseAll_cons_of_erase herase, List.length_cons]
      congr 1
      omega

/-! ## What is left -/

theorem prune_bumped (n : NodeId) (F : Forest α) : F.bumped.prune n = (F.prune n).bumped := by
  simp only [prune, shape_bumped]
  rfl

theorem get?_prune (n x : NodeId) (F : Forest α) :
    (F.prune n).get? x = if x ∈ (F.shape n).preorder then none else F.get? x := by
  have h := Arena.get?_eraseAll (F.shape n).postorder.reverse F.nodes x
  simp only [List.mem_reverse, Tree.mem_postorder_iff] at h
  exact h

theorem parentOf_prune (n x : NodeId) (F : Forest α) :
    (F.prune n).parentOf x = if x ∈ (F.shape n).preorder then none else F.parentOf x := by
  show ((F.prune n).get? x).bind Node.parent = if x ∈ (F.shape n).preorder then none else F.parentOf x
  rw [get?_prune]
  split <;> rfl

theorem childrenOf_prune (n x : NodeId) (F : Forest α) :
    (F.prune n).childrenOf x = if x ∈ (F.shape n).preorder then [] else F.childrenOf x := by
  show (((F.prune n).get? x).map Node.children).getD [] = if x ∈ (F.shape n).preorder then [] else F.childrenOf x
  rw [get?_prune]
  split <;> rfl

namespace WellFormed

/-- No link leads into the tree below a root or out of it. -/
theorem mem_shape_iff_of_link (hF : F.WellFormed) {n p c : NodeId} (hn : F.contains n = true)
    (hroot : F.parentOf n = none) (hlink : F.parentOf c = some p) :
    c ∈ (F.shape n).preorder ↔ p ∈ (F.shape n).preorder := by
  rw [hF.mem_preorder_shape_iff hn, hF.mem_preorder_shape_iff hn, ancestor_iff]
  constructor
  · rintro (rfl | ⟨q, hq, habove⟩)
    · exact absurd (hroot.symm.trans hlink) nofun
    · rwa [← Option.some.inj (hq.symm.trans hlink)]
  · exact fun habove => .inr ⟨p, hlink, habove⟩

/-- **Giving up the tree below a root keeps a forest well-formed.** -/
theorem prune (hF : F.WellFormed) {n : NodeId} (hn : F.contains n = true) (hroot : F.parentOf n = none) :
    (F.prune n).WellFormed where
  sound := hF.sound.eraseAll _
  mem_childrenOf_iff p c := by
    rw [childrenOf_prune, parentOf_prune]
    by_cases hlink : F.parentOf c = some p
    · -- both ends of a link are given up, or neither is
      have hboth := hF.mem_shape_iff_of_link hn hroot hlink
      by_cases hp : p ∈ (F.shape n).preorder
      · rw [if_pos hp, if_pos (hboth.2 hp)]
        simp
      · rw [if_neg hp, if_neg fun hc => hp (hboth.1 hc)]
        exact hF.mem_childrenOf_iff p c
    · have hlisted : c ∉ F.childrenOf p := fun h => hlink ((hF.mem_childrenOf_iff p c).1 h)
      constructor
      · intro h
        split at h
        · cases h
        · exact absurd h hlisted
      · intro h
        split at h
        · cases h
        · exact absurd h hlink
  nodup_childrenOf p := by
    rw [childrenOf_prune]
    split
    · exact List.nodup_nil
    · exact hF.nodup_childrenOf p
  wellFounded := by
    refine Subrelation.wf (r := F.Link) (fun {p c} h => ?_) hF.wellFounded
    unfold Link at h
    rw [parentOf_prune] at h
    split at h
    · cases h
    · exact h

/-- Cutting a node leaves its own subtree alone. -/
theorem shape_cut (hF : F.WellFormed) {n : NodeId} (hn : F.contains n = true) :
    (F.cut n).shape n = F.shape n := by
  apply hF.shape_congr (hF.cut n) hn
  · intro x hx
    rw [contains_cut]
    exact contains_of_ancestor hx hn
  · intro x hx
    rw [childrenOf_cut, List.erase_of_not_mem]
    rw [hF.mem_childrenOf_iff]
    exact fun hparent => hF.not_ancestor_parent hparent hx

theorem releaseAll_of_root (hF : F.WellFormed) {n : NodeId} (hn : F.contains n = true) :
    releaseAll F.size [n] 0 F = .ok (F.shape n).preorder.length (F.prune n) := by
  have hperm : (F.doomed [n]).Perm (F.shape n).preorder := by
    rw [doomed_singleton]
    exact (List.reverse_perm _).trans (F.shape n).postorder_perm_preorder
  have hnodup : (F.doomed [n]).Nodup := hperm.nodup_iff.2 (hF.nodup_preorder_shape hn)
  have hfuel : (F.doomed [n]).length ≤ F.size := hperm.length_eq ▸ hF.length_preorder_shape_le hn
  rw [hF.releaseAll_eq F.size [n] 0 F (by simpa using hn) hnodup (fun _ _ => rfl) hfuel, hperm.length_eq,
    Nat.zero_add, doomed_singleton, Forest.prune]

/-- **Giving up a node.** Its subtree is cut and released. Cutting counts if there was a link to cut, and the
    release counts once more. -/
theorem discard_eq (hF : F.WellFormed) (n : NodeId) :
    discard n F
      = if F.contains n = false then .error (.tree (.nodeNotFound n)) F
        else if F.parentOf n = none then .ok (F.shape n).preorder.length (F.prune n).bumped
        else .ok (F.shape n).preorder.length ((F.cut n).bumped.prune n).bumped := by
  unfold discard
  by_cases hn : F.contains n = false
  · rw [if_pos hn]
    refine bind_of_error ?_
    rw [hF.detach_eq, if_pos hn]
  rw [if_neg hn]
  have hlive : F.contains n = true := by simpa using hn
  by_cases hroot : F.parentOf n = none
  · rw [if_pos hroot]
    refine (bind_of_ok (b := ()) (G := F) ?_).trans ?_
    · rw [hF.detach_eq, if_neg hn, if_pos hroot]
    refine (bind_of_ok (read_size_eq F)).trans ?_
    refine (bind_of_ok (hF.releaseAll_of_root hlive)).trans ?_
    exact (bind_of_ok (bump_eq _)).trans (pure_eq _ _)
  · rw [if_neg hroot]
    have hcut := (hF.cut n).bumped
    have hcut_live : (F.cut n).bumped.contains n = true := by simpa using hlive
    refine (bind_of_ok (b := ()) (G := (F.cut n).bumped) ?_).trans ?_
    · rw [hF.detach_eq, if_neg hn, if_neg hroot]
    refine (bind_of_ok (read_size_eq _)).trans ?_
    refine (bind_of_ok (hcut.releaseAll_of_root hcut_live)).trans ?_
    rw [shape_bumped, hF.shape_cut hlive]
    exact (bind_of_ok (bump_eq _)).trans (pure_eq _ _)

/-- Giving up a node cuts it, also if it is a root, and prunes the forest; a cut that changes nothing does not
    count. -/
theorem exists_discard (hF : F.WellFormed) {n : NodeId} (hn : F.contains n = true) :
    ∃ G, discard n F = .ok (F.shape n).preorder.length G ∧ G.nodes = ((F.cut n).prune n).nodes ∧
      G.generation = F.generation + if F.parentOf n = none then 1 else 2 := by
  rw [hF.discard_eq, if_neg (by simp [hn])]
  by_cases hroot : F.parentOf n = none
  · rw [if_pos hroot, if_pos hroot, hF.cut_of_root hroot]
    exact ⟨_, rfl, rfl, rfl⟩
  · rw [if_neg hroot, if_neg hroot, prune_bumped, bumped_bumped]
    exact ⟨_, rfl, rfl, rfl⟩

/-- The nodes left are those outside the subtree, cut off from its top. -/
theorem get?_of_discard (hF : F.WellFormed) {n : NodeId} (hn : F.contains n = true)
    (hG : G.nodes = ((F.cut n).prune n).nodes) (x : NodeId) :
    G.get? x = if x ∈ (F.shape n).preorder then none else (F.cut n).get? x := by
  have hprune := get?_prune n x (F.cut n)
  rw [hF.shape_cut hn] at hprune
  exact (congrArg (Arena.get? · x) hG).trans hprune

end WellFormed

end Grove.Forest
