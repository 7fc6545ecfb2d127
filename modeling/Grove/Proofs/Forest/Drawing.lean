import Grove.Proofs.Forest.Ancestry
import Grove.Proofs.Forest.Partition
import Grove.Proofs.Outline.RoundTrip
import Grove.Proofs.Tree.Rails
import Grove.Proofs.Walker.Path

/-!
# `Proofs.Forest.Drawing` — the drawings of a node

Both drawings of a node are made from the tree of values below it, without a walk. Still they have one line for each
node that the walk in preorder visits, in this order, and what stands in front of the value is known from the forest:
in an outline the levels of the two nodes (`levelled_treeOf_zero`), in a box drawing which nodes on the path between
them are last children (`railed_treeOf`).
-/

namespace Grove.Forest

open Walker

variable {α : Type} {F : Forest α}

/-! ## Last children -/

/-- Whether `n` has a parent and is the last of its children. -/
def closes (F : Forest α) (n : NodeId) : Bool :=
  (F.parentOf n).any fun p => (F.childrenOf p).getLast? = some n

namespace WellFormed

/-- A child closes the row if no child comes after it. -/
theorem closes_of_split (hF : F.WellFormed) {p c : NodeId} {before after : List NodeId}
    (hsplit : F.childrenOf p = before ++ c :: after) : F.closes c = after.isEmpty := by
  have hparent : F.parentOf c = some p := by
    rw [← hF.mem_childrenOf_iff, hsplit]
    exact List.mem_append_right _ (List.mem_cons_self ..)
  have hnodup : (c :: after).Nodup := by
    have h := hF.nodup_childrenOf p
    rw [hsplit] at h
    exact h.of_append_right
  rw [closes, hparent, Option.any_some, hsplit, List.getLast?_append_of_ne_nil _ (List.cons_ne_nil c after)]
  cases after with
  | nil => simp
  | cons d after =>
    have hne : (d :: after).getLast? ≠ some c := fun h =>
      (List.nodup_cons.1 hnodup).1 (List.mem_of_getLast? h)
    rw [List.getLast?_cons_cons]
    simpa using hne

/-! ## Paths -/

theorem pathOf_self (hF : F.WellFormed) {n : NodeId} (hn : F.contains n = true) : pathOf F n n = [n] := by
  obtain ⟨rest, hrest⟩ := List.head?_eq_some_iff.1 (head?_pathOf F n n)
  have hlength := hF.length_pathOf hn (ancestor_refl n)
  rw [hrest, List.length_cons, Nat.sub_self, Nat.add_right_cancel_iff, List.length_eq_zero_iff] at hlength
  rw [hrest, hlength]

/-- The path down from a node goes through one of its children. -/
theorem pathOf_child (hF : F.WellFormed) {p c m : NodeId} (hparent : F.parentOf c = some p)
    (hm : F.contains m = true) (hdown : F.Ancestor c m) : pathOf F p m = p :: pathOf F c m := by
  obtain ⟨above, hpath, habove⟩ := hF.path_eq_append hm ((ancestor_of_parentOf hparent).trans hdown)
  obtain ⟨above', hpath', habove'⟩ := hF.path_eq_append hm hdown
  obtain ⟨rest, hrest⟩ := List.head?_eq_some_iff.1 (head?_pathOf F p m)
  have hsame : (above ++ [p]) ++ rest = above' ++ pathOf F c m := by
    rw [← hpath', hpath, hrest, List.append_assoc, List.singleton_append]
  have hlength : (above ++ [p]).length = above'.length := by
    rw [List.length_append, List.length_singleton, habove, habove', hF.levelOf_child hparent]
  rw [hrest, (List.append_inj hsame hlength).2]

/-! ## Subtrees as rows -/

/-- The children from some place on, each below the way that says whether it is the last one. -/
theorem railedOfAll_shape (hF : F.WellFormed) {n : NodeId} (way : List Bool) {before rest : List NodeId}
    (hsplit : F.childrenOf n = before ++ rest)
    (h : ∀ c ∈ F.childrenOf n, ∀ way, (F.shape c).railed way
      = (F.shape c).preorder.map fun m => (way ++ (pathOf F c m).tail.map F.closes, m)) :
    Tree.railedOfAll way (rest.map F.shape) = rest.flatMap fun c =>
      (F.shape c).preorder.map fun m => (way ++ (pathOf F n m).tail.map F.closes, m) := by
  induction rest generalizing before with
  | nil => rfl
  | cons c rest ih =>
    have hc : c ∈ F.childrenOf n := hsplit ▸ List.mem_append_right _ (List.mem_cons_self ..)
    have hparent := (hF.mem_childrenOf_iff n c).1 hc
    have hnext : F.childrenOf n = (before ++ [c]) ++ rest := by rw [hsplit, List.append_cons]
    rw [List.map_cons, Tree.railedOfAll, List.flatMap_cons, ih hnext, List.isEmpty_map,
      ← hF.closes_of_split hsplit, h c hc]
    congr 1
    apply List.map_congr_left
    intro m hm
    have hdown := (hF.mem_preorder_shape_iff (hF.contains_child hc)).1 hm
    obtain ⟨below, hbelow⟩ := List.head?_eq_some_iff.1 (head?_pathOf F c m)
    rw [hF.pathOf_child hparent (contains_of_ancestor hdown (hF.contains_child hc)) hdown, hbelow, List.tail_cons,
      List.tail_cons, List.map_cons, List.append_assoc, List.singleton_append]

/-- In a shape the ways down are those of the paths in the forest. -/
theorem railed_shape (hF : F.WellFormed) {n : NodeId} (hn : F.contains n = true) (way : List Bool) :
    (F.shape n).railed way
      = (F.shape n).preorder.map fun m => (way ++ (pathOf F n m).tail.map F.closes, m) := by
  induction n, hn using hF.induction_down generalizing way with
  | step n hn ih =>
    have hbelow := hF.railedOfAll_shape way (List.nil_append (F.childrenOf n)).symm ih
    rw [hF.preorder_shape hn, hF.shape_eq hn, Tree.railed, List.map_cons, hF.pathOf_self hn, hbelow, List.map_flatMap]
    simp

variable [Inhabited α]

/-- **The tree below a node as rows of a box drawing.** -/
theorem railed_treeOf (hF : F.WellFormed) {n : NodeId} (hn : F.contains n = true) :
    (F.treeOf n).railed []
      = (F.shape n).preorder.map fun m => ((pathOf F n m).tail.map F.closes, F.valueOf m) := by
  rw [treeOf, Tree.railed_map, hF.railed_shape hn, List.map_map]
  rfl

/-- **The tree below a node as rows of an outline.** -/
theorem levelled_treeOf_zero (hF : F.WellFormed) {n : NodeId} (hn : F.contains n = true) :
    (F.treeOf n).levelled 0
      = (F.shape n).preorder.map fun m => (F.levelOf m - F.levelOf n, F.valueOf m) := by
  have hgraded : Tree.Graded (fun m => F.levelOf m - F.levelOf n) 0 (F.shape n) := (hF.graded_shape hn).sub
  rw [treeOf, Tree.levelled_map, hgraded.levelled_eq, List.map_map]
  rfl

end WellFormed

/-! ## Lines -/

section Lines

variable {F : Forest String}

/-- The line of an outline of `n` that belongs to `m`: it is indented by as many levels as `m` lies below `n`. -/
def OutlineRow (F : Forest String) (style : OutlineStyle) (n m : NodeId) (row : String) : Prop :=
  ∃ top level v, F.level n = .ok top ∧ F.level m = .ok level ∧ top ≤ level ∧ F.value m = .ok v ∧
    row = String.ofList (List.replicate ((level - top) * style.indent) ' ') ++ style.lead ++ v

/-- The line of a box drawing of `n` that belongs to `m`: before the value there is a rail for each node between the
    two and a branch for `m`. -/
inductive BoxRow (F : Forest String) (n : NodeId) : NodeId → String → Prop where
  | top {v : String} (hvalue : F.value n = .ok v) : BoxRow F n n v
  | below {m : NodeId} {between : List NodeId} {v : String} (hpath : F.pathFrom m n = .ok (n :: between ++ [m]))
      (hvalue : F.value m = .ok v) :
      BoxRow F n m (String.join (between.map fun a => Tree.rail (F.closes a)) ++ Tree.branch (F.closes m) ++ v)

namespace WellFormed

variable (hF : F.WellFormed) {n m : NodeId} (hn : F.contains n = true)
include hF hn

theorem outlineRow (style : OutlineStyle) (hm : m ∈ (F.shape n).preorder) :
    F.OutlineRow style n m (String.ofList (style.written (F.levelOf m - F.levelOf n, F.valueOf m))) := by
  have hlive := hF.contains_of_mem_shape hn hm
  have hup := (hF.mem_preorder_shape_iff hn).1 hm
  refine ⟨_, _, _, hF.level_eq hn, hF.level_eq hlive, hF.levelOf_le_of_ancestor hup, value_eq_ok_iff.2 ⟨hlive, rfl⟩,
    String.toList_injective ?_⟩
  simp [OutlineStyle.written, OutlineStyle.text]

theorem boxRow (hm : m ∈ (F.shape n).preorder) :
    F.BoxRow n m (Tree.row ((pathOf F n m).tail.map F.closes, F.valueOf m)) := by
  have hlive := hF.contains_of_mem_shape hn hm
  have hup := (hF.mem_preorder_shape_iff hn).1 hm
  have hvalue : F.value m = .ok (F.valueOf m) := value_eq_ok_iff.2 ⟨hlive, rfl⟩
  by_cases hnm : m = n
  · subst hnm
    rw [hF.pathOf_self hn]
    simpa [Tree.row, Tree.lead] using BoxRow.top hvalue
  · obtain ⟨between, hpath⟩ : ∃ between, pathOf F n m = n :: between ++ [m] := by
      obtain ⟨front, hfront⟩ := List.getLast?_eq_some_iff.1 (hF.getLast?_pathOf hlive hup)
      have hhead := head?_pathOf F n m
      rw [hfront] at hhead ⊢
      cases front with
      | nil => exact absurd (Option.some.inj hhead) hnm
      | cons x between => exact ⟨between, by rw [Option.some.inj hhead]⟩
    have hfrom : F.pathFrom m n = .ok (n :: between ++ [m]) := by
      rw [pathFrom_eq hF hn hlive, if_pos ((hF.mem_chain_iff hlive).2 hup), hpath]
    have hrow : Tree.row ((pathOf F n m).tail.map F.closes, F.valueOf m)
        = String.join (between.map fun a => Tree.rail (F.closes a)) ++ Tree.branch (F.closes m) ++ F.valueOf m := by
      rw [hpath, List.cons_append, List.tail_cons, List.map_append, Tree.row, List.map_singleton, Tree.lead_concat,
        List.map_map]
      rfl
    rw [hrow]
    exact .below hfrom hvalue

end WellFormed

/-- Values of a forest that are on one line each. -/
theorem newline_not_mem_treeOf (hF : F.WellFormed) (hvalue : ∀ m v, F.value m = .ok v → '\n' ∉ v.toList)
    {n : NodeId} (hn : F.contains n = true) : ∀ v ∈ (F.treeOf n).preorder, '\n' ∉ v.toList := by
  intro v hv
  rw [treeOf, Tree.preorder_map] at hv
  obtain ⟨m, hm, rfl⟩ := List.mem_map.1 hv
  exact hvalue m _ (value_eq_ok_iff.2 ⟨hF.contains_of_mem_shape hn hm, rfl⟩)

theorem outline_eq_unlines (hF : F.WellFormed) {n : NodeId} (hn : F.contains n = true) {style : OutlineStyle}
    (hpadding : ∀ m ∈ (F.shape n).preorder, (F.levelOf m - F.levelOf n) * style.indent ≤ OutlineStyle.maxPadding) :
    F.outline style n = .ok (unlines ((F.shape n).preorder.map fun m =>
      String.ofList (style.written (F.levelOf m - F.levelOf n, F.valueOf m)))) := by
  have hline : ∀ m ∈ (F.shape n).preorder, style.line (F.levelOf m - F.levelOf n) (F.valueOf m)
      = .ok (String.ofList (style.written (F.levelOf m - F.levelOf n, F.valueOf m))) :=
    fun m hm => OutlineStyle.line_eq (x := (F.levelOf m - F.levelOf n, F.valueOf m)) (hpadding m hm)
  rw [outline, hF.subtree_eq hn]
  show (F.treeOf n).outline style = _
  rw [Tree.outline_eq_mapM, hF.levelled_treeOf_zero hn, List.mapM_map]
  show unlines <$> (F.shape n).preorder.mapM (fun m => style.line (F.levelOf m - F.levelOf n) (F.valueOf m)) = _
  rw [mapM_eq_ok hline]
  rfl

theorem box_eq_unlines (hF : F.WellFormed) {n : NodeId} (hn : F.contains n = true) :
    F.box n = .ok (unlines ((F.shape n).preorder.map fun m =>
      Tree.row ((pathOf F n m).tail.map F.closes, F.valueOf m))) := by
  rw [box, hF.subtree_eq hn]
  show Except.ok (unlines (F.treeOf n).boxLines) = _
  rw [Tree.boxLines_eq, hF.railed_treeOf hn, List.map_map]
  rfl

/-- **The drawings of a node** have one line for each node below it, in preorder. In an outline it is indented by the
    difference of the levels. In a box drawing there are a rail for each node on the path between the two, which is
    blank below a last child, and a branch, which has a corner for a last child. So equal box drawings are drawings of
    equal trees. -/
theorem drawings_outcome (F : Forest String) (hF : F.Reachable) (hvalue : ∀ m v, F.value m = .ok v → '\n' ∉ v.toList)
    (n : NodeId) (hn : F.contains n = true) :
    ∃ below, F.preorder n = .ok below ∧
      (∀ style : OutlineStyle, '\n' ∉ style.lead.toList →
        (∀ m ∈ below, ∀ top level, F.level n = .ok top → F.level m = .ok level →
          (level - top) * style.indent ≤ 65535) →
        ∃ rows, F.outline style n = .ok (unlines rows) ∧ (∀ row ∈ rows, '\n' ∉ row.toList) ∧
          List.Forall₂ (F.OutlineRow style n) below rows) ∧
      (∃ rows, F.box n = .ok (unlines rows) ∧ (∀ row ∈ rows, '\n' ∉ row.toList) ∧
        List.Forall₂ (F.BoxRow n) below rows) ∧
      ∀ (G : Forest String) (m : NodeId), G.Reachable → (∀ l v, G.value l = .ok v → '\n' ∉ v.toList) →
        G.contains m = true → F.box n = G.box m → ∃ t, F.subtree n = .ok t ∧ G.subtree m = .ok t := by
  have hwf := hF.wellFormed
  have hline : ∀ m ∈ (F.shape n).preorder, '\n' ∉ (F.valueOf m).toList := fun m hm =>
    hvalue m _ (value_eq_ok_iff.2 ⟨hwf.contains_of_mem_shape hn hm, rfl⟩)
  refine ⟨_, (preorder_eq hwf hn).1, ?_, ⟨_, box_eq_unlines hwf hn, ?_, ?_⟩, ?_⟩
  · intro style hlead hpadding
    have hnarrow : ∀ m ∈ (F.shape n).preorder, (F.levelOf m - F.levelOf n) * style.indent ≤ 65535 := fun m hm =>
      hpadding m hm _ _ (hwf.level_eq hn) (hwf.level_eq (hwf.contains_of_mem_shape hn hm))
    refine ⟨_, outline_eq_unlines hwf hn hnarrow, ?_, ?_⟩
    · rw [List.forall_mem_map]
      intro m hm
      rw [String.toList_ofList]
      exact OutlineStyle.newline_not_mem_written hlead (hline m hm)
    · rw [List.forall₂_map_right_iff, List.forall₂_same]
      exact fun m hm => hwf.outlineRow hn style hm
  · rw [List.forall_mem_map]
    exact fun m hm => Tree.newline_not_mem_row (hline m hm)
  · rw [List.forall₂_map_right_iff, List.forall₂_same]
    exact fun m hm => hwf.boxRow hn hm
  · intro G m hG hvalueG hm hbox
    have hwfG := hG.wellFormed
    have hsame : F.treeOf n = G.treeOf m := by
      rw [box, box, hwf.subtree_eq hn, hwfG.subtree_eq hm] at hbox
      exact Tree.eq_of_box_eq (newline_not_mem_treeOf hwf hvalue hn) (newline_not_mem_treeOf hwfG hvalueG hm)
        (Except.ok.inj hbox)
    exact ⟨_, hwf.subtree_eq hn, hsame ▸ hwfG.subtree_eq hm⟩

/-- A node below one that is not a last child, and a value that looks like a branch. -/
theorem drawings_outcome_of_fork :
    let F := (empty : Forest String).afterAll [.create "a", .create "b", .create "c", .create "└── d",
      .add ⟨0, 0⟩ ⟨1, 0⟩, .add ⟨1, 0⟩ ⟨2, 0⟩, .add ⟨0, 0⟩ ⟨3, 0⟩]
    F.Reachable ∧ (∀ m v, F.value m = .ok v → '\n' ∉ v.toList) ∧ F.contains ⟨0, 0⟩ = true ∧
      F.box ⟨0, 0⟩ = .ok "a\n├── b\n│   └── c\n└── └── d\n" ∧
      (∃ rows, F.box ⟨0, 0⟩ = .ok (unlines rows) ∧
        List.Forall₂ (F.BoxRow ⟨0, 0⟩) [⟨0, 0⟩, ⟨1, 0⟩, ⟨2, 0⟩, ⟨3, 0⟩] rows) ∧
      ∃ rows, F.outline .standard ⟨1, 0⟩ = .ok (unlines rows) ∧
        List.Forall₂ (F.OutlineRow .standard ⟨1, 0⟩) [⟨1, 0⟩, ⟨2, 0⟩] rows := by
  intro F
  have hF : F.Reachable := ⟨_, rfl⟩
  have hvalue : ∀ m v, F.value m = .ok v → '\n' ∉ v.toList := by
    have hlisted : ∀ m ∈ F.trees.flatten, '\n' ∉ (F.valueOf m).toList := by decide
    intro m v hv
    obtain ⟨hm, rfl⟩ := value_eq_ok_iff.1 hv
    exact hlisted m (hF.wellFormed.mem_flatten_trees_iff.2 hm)
  obtain ⟨below, hbelow, -, ⟨rows, hbox, -, hrows⟩, -⟩ := drawings_outcome F hF hvalue ⟨0, 0⟩ (by decide)
  obtain rfl := Except.ok.inj (hbelow.symm.trans (rfl : F.preorder ⟨0, 0⟩ = .ok [⟨0, 0⟩, ⟨1, 0⟩, ⟨2, 0⟩, ⟨3, 0⟩]))
  obtain ⟨below, hbelow, houtline, -⟩ := drawings_outcome F hF hvalue ⟨1, 0⟩ (by decide)
  obtain rfl := Except.ok.inj (hbelow.symm.trans (rfl : F.preorder ⟨1, 0⟩ = .ok [⟨1, 0⟩, ⟨2, 0⟩]))
  have hpadding : ∀ m ∈ [(⟨1, 0⟩ : NodeId), ⟨2, 0⟩], ∀ top level, F.level ⟨1, 0⟩ = .ok top → F.level m = .ok level →
      (level - top) * OutlineStyle.standard.indent ≤ 65535 := by
    intro m hm top level htop hlevel
    obtain rfl : 1 = top := Except.ok.inj htop
    rcases List.mem_pair.1 hm with rfl | rfl
    · obtain rfl : 1 = level := Except.ok.inj hlevel
      decide
    · obtain rfl : 2 = level := Except.ok.inj hlevel
      decide
  obtain ⟨rows', houtline, -, hrows'⟩ := houtline .standard (by decide) hpadding
  exact ⟨hF, hvalue, by decide, rfl, ⟨rows, hbox, hrows⟩, rows', houtline, hrows'⟩

end Lines

end Grove.Forest
