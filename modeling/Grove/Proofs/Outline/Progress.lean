import Grove.Outline.Inspection
import Grove.Proofs.Forest.Growth
import Grove.Proofs.Forest.Relinked
import Mathlib.Data.List.Chain

/-!
# `Proofs.Outline.Progress` — the forest that a reader builds

While an outline is read, the forest built so far has, root by root, exactly the rows read so far, and the trail
is its right-hand edge (`Progress.Good`). What placing a node does is said once (`Progress.Placed`): the node
becomes a root or the last child of a node of that edge, so it is the last one listed in the grown forest
(`Good.listing_placed`), and the trail up to it is the edge again (`Good.placed`).
-/

namespace Grove

open Forest

namespace OutlineForest

/-- The nodes of all trees of an outline forest in preorder, one tree after the other. -/
def listing (O : OutlineForest) : List NodeId :=
  O.roots.flatMap fun r => (O.forest.shape r).preorder

/-- The rows of all trees of an outline forest, one after the other. -/
def rows (O : OutlineForest) : List (Nat × String) :=
  O.roots.flatMap O.forest.rows

theorem rows_eq_map (O : OutlineForest) :
    O.rows = O.listing.map fun x => (O.forest.levelOf x, O.forest.valueOf x) := by
  rw [listing, List.map_flatMap]
  rfl

end OutlineForest

namespace Progress

variable {s s' : Progress} {L : List (Nat × String)}

/-! ## Placing a node -/

/-- What has been built has the rows `L`: its trees have them, root by root, and the trail is the right-hand edge
    of the last tree. -/
structure Good (s : Progress) (L : List (Nat × String)) : Prop where
  wellFormed : s.forest.WellFormed
  contains_root : ∀ r ∈ s.roots, s.forest.contains r = true
  parentOf_root : ∀ r ∈ s.roots, s.forest.parentOf r = none
  nodup_roots : s.roots.Nodup
  trail_head : s.trail.head? = s.roots.getLast?
  edge : s.trail.IsChain s.forest.LastChild
  levels : s.trail.map s.forest.levelOf = List.range s.trail.length
  rows_eq : s.rows = L

/-- `s'` is `s` with the node `n` placed on a level: made, and added to the node at the end of the trail above
    that level if there is one. -/
structure Placed (s : Progress) (level : Nat) (value : String) (n : NodeId) (s' : Progress) : Prop where
  made : ∃ G, Forest.create value s.forest = .ok n G ∧ Relinked G s'.forest
  grows : Grows s.forest (s.trail.take level).getLast? n value s'.forest
  roots_eq : s'.roots = if level = 0 then s.roots ++ [n] else s.roots
  trail_eq : s'.trail = s.trail.take level ++ [n]
  generation_eq : s'.forest.generation = s.forest.generation + if level = 0 then 0 else 1

theorem good_start : Good start [] where
  wellFormed := .empty
  contains_root r hr := by simp [start, OutlineForest.empty] at hr
  parentOf_root r hr := by simp [start, OutlineForest.empty] at hr
  nodup_roots := List.nodup_nil
  trail_head := rfl
  edge := .nil
  levels := rfl
  rows_eq := rfl

/-- The edge down to a level that is open: it leads from the last root to a node on that level. -/
theorem Good.edge_to (h : Good s L) {level : Nat} (hlevel : level < s.trail.length) :
    ∃ before r l p, s.roots = before ++ [r] ∧ s.trail.take (level + 1) = r :: l ∧
      (r :: l).IsChain s.forest.LastChild ∧ (r :: l).getLast? = some p := by
  obtain ⟨r, l, htrail⟩ : ∃ r l, s.trail = r :: l := List.exists_cons_of_length_pos (by omega)
  have hlast : s.roots.getLast? = some r := by
    rw [← h.trail_head, htrail]
    rfl
  obtain ⟨before, hroots⟩ := List.getLast?_eq_some_iff.1 hlast
  have htake : s.trail.take (level + 1) = r :: l.take level := by rw [htrail, List.take_succ_cons]
  refine ⟨before, r, l.take level, _, hroots, htake, ?_, List.getLast?_eq_some_getLast (by simp)⟩
  rw [← htake]
  exact h.edge.take _

theorem Good.contains_trail (h : Good s L) : ∀ n ∈ s.trail, s.forest.contains n = true := by
  have hedge := h.edge
  have hhead := h.trail_head
  cases htrail : s.trail with
  | nil => simp
  | cons r l =>
    rw [htrail] at hedge hhead
    exact h.wellFormed.contains_of_edge (h.contains_root r (List.mem_of_getLast? hhead.symm)) hedge

/-- The node above a level is there. -/
theorem Good.contains_above (h : Good s L) {level : Nat} :
    ∀ p, (s.trail.take level).getLast? = some p → s.forest.contains p = true := fun p hp =>
  h.contains_trail p (List.mem_of_mem_take (List.mem_of_getLast? hp))

theorem Good.contains_listing (h : Good s L) : ∀ n ∈ s.listing, s.forest.contains n = true := by
  intro n hn
  obtain ⟨r, hr, hn⟩ := List.mem_flatMap.1 hn
  exact h.wellFormed.contains_of_mem_shape (h.contains_root r hr) hn

/-- **A node can be placed on every level that is open.** -/
theorem Good.exists_placed (h : Good s L) {level : Nat} (hlevel : level ≤ s.trail.length) (value : String) :
    ∃ n s', s.place level value = .ok s' ∧ Placed s level value n s' := by
  have hF := h.wellFormed
  obtain ⟨n, G, hcreate, hgeneration, hnew⟩ := grows_create hF value
  cases level with
  | zero =>
    refine ⟨n, ⟨⟨G, s.roots ++ [n]⟩, [n]⟩, ?_, ⟨G, hcreate, .refl G⟩, hnew, rfl, rfl, ?_⟩
    · rw [Progress.place, hcreate]
      rfl
    · rw [hgeneration, if_pos rfl]
      exact (UInt64.add_zero _).symm
  | succ level =>
    obtain ⟨before, r, l, p, -, htake, -, hend⟩ := h.edge_to hlevel
    rw [← htake] at hend
    obtain ⟨H, hadd, hcount, hgrows⟩ := grows_add hF hnew (h.contains_above p hend)
    refine ⟨n, ⟨⟨H, s.roots⟩, s.trail.take (level + 1) ++ [n]⟩, ?_, ⟨G, hcreate, ?_⟩, ?_, rfl, rfl, ?_⟩
    · rw [Progress.place, hcreate]
      simp only [hend, hadd]
    · have hlinks := relinks_add p n G
      rwa [Edit.final_of_ok hadd] at hlinks
    · rwa [hend]
    · rw [hcount, hgeneration, if_neg (Nat.succ_ne_zero level)]

/-- The node is on the level on which it is placed. -/
theorem Good.levelOf_placed (h : Good s L) {level : Nat} {value : String} {n : NodeId}
    (hlevel : level ≤ s.trail.length) (hp : Placed s level value n s') : s'.forest.levelOf n = level := by
  have habove : ((s.trail.take level).map s.forest.levelOf).getLast? = (List.range level).getLast? := by
    rw [List.map_take, h.levels, List.take_range, Nat.min_eq_left hlevel]
  rw [List.getLast?_map] at habove
  rw [hp.grows.levelOf_new h.wellFormed h.contains_above]
  cases level with
  | zero => rfl
  | succ level =>
    rw [List.range_succ, List.getLast?_concat] at habove
    obtain ⟨p, hend, hplevel⟩ := Option.map_eq_some_iff.1 habove
    rw [hend, Option.map_some, hplevel, Option.getD_some]

/-- **The node placed is listed last.** -/
theorem Good.listing_placed (h : Good s L) {level : Nat} {value : String} {n : NodeId}
    (hlevel : level ≤ s.trail.length) (hp : Placed s level value n s') : s'.listing = s.listing ++ [n] := by
  have hF := h.wellFormed
  have hgrows := hp.grows
  rw [OutlineForest.listing, OutlineForest.listing, hp.roots_eq]
  cases level with
  | zero =>
    have hold : ∀ r ∈ s.roots, (s'.forest.shape r).preorder = (s.forest.shape r).preorder := by
      intro r hr
      rw [hgrows.shape_eq hF (h.contains_root r hr) fun p hp => by cases hp]
    rw [if_pos rfl, List.flatMap_append, List.flatMap_congr hold, List.flatMap_singleton,
      hgrows.preorder_new h.contains_above]
  | succ level =>
    obtain ⟨before, r, l, p, hroots, htake, hedge, hend⟩ := h.edge_to hlevel
    have hr : s.forest.contains r = true := h.contains_root r (by simp [hroots])
    have hrp := hF.ancestor_of_edge hedge hend
    rw [htake, hend] at hgrows
    -- the trees before the last one stay as they are, since the new node is below the last root
    have hold : ∀ q ∈ before, (s'.forest.shape q).preorder = (s.forest.shape q).preorder := by
      intro q hq
      have hqp := hF.not_ancestor_of_before (hroots ▸ h.parentOf_root) (hroots ▸ h.nodup_roots) hrp hq
      rw [hgrows.shape_of_not_ancestor hF (h.contains_root q (by simp [hroots, hq])) hqp]
    rw [if_neg (Nat.succ_ne_zero level), hroots, List.flatMap_append, List.flatMap_append,
      List.flatMap_congr hold, List.flatMap_singleton, List.flatMap_singleton,
      hgrows.preorder_of_edge hF (WellFormed.contains_of_ancestor hrp hr) hr hedge hend, List.append_assoc]

/-- It is the last row. -/
theorem Good.rows_placed (h : Good s L) {level : Nat} {value : String} {n : NodeId}
    (hlevel : level ≤ s.trail.length) (hp : Placed s level value n s') : s'.rows = L ++ [(level, value)] := by
  have hold : ∀ x ∈ s.listing, (s'.forest.levelOf x, s'.forest.valueOf x)
      = (s.forest.levelOf x, s.forest.valueOf x) := by
    intro x hx
    have hx' := h.contains_listing x hx
    rw [hp.grows.levelOf_eq h.wellFormed hx', hp.grows.valueOf_eq, if_neg (hp.grows.ne_of_contains hx')]
  rw [OutlineForest.rows_eq_map, h.listing_placed hlevel hp, List.map_append, List.map_congr_left hold,
    ← OutlineForest.rows_eq_map, h.rows_eq, List.map_singleton, h.levelOf_placed hlevel hp, hp.grows.valueOf_eq,
    if_pos rfl]

/-- The trail is the edge again. -/
theorem Good.edge_placed (h : Good s L) {level : Nat} {value : String} {n : NodeId}
    (hlevel : level ≤ s.trail.length) (hp : Placed s level value n s') :
    s'.trail.head? = s'.roots.getLast? ∧ s'.trail.IsChain s'.forest.LastChild := by
  have hgrows := hp.grows
  rw [hp.trail_eq, hp.roots_eq]
  cases level with
  | zero =>
    rw [List.take_zero, if_pos rfl, List.getLast?_concat]
    exact ⟨rfl, .singleton n⟩
  | succ level =>
    obtain ⟨before, r, l, p, hroots, htake, hedge, hend⟩ := h.edge_to hlevel
    rw [htake, hend] at hgrows
    rw [htake, if_neg (Nat.succ_ne_zero level), hroots, List.getLast?_concat]
    exact ⟨rfl, hgrows.edge_append h.wellFormed hedge hend⟩

theorem Placed.mem_roots {level : Nat} {value : String} {n r : NodeId} (hp : Placed s level value n s')
    (hr : r ∈ s'.roots) : r ∈ s.roots ∨ r = n ∧ level = 0 := by
  rw [hp.roots_eq] at hr
  by_cases hzero : level = 0
  · rw [if_pos hzero, List.mem_append, List.mem_singleton] at hr
    exact hr.imp_right fun heq => ⟨heq, hzero⟩
  · rw [if_neg hzero] at hr
    exact Or.inl hr

/-- What has been built with the node placed. -/
theorem Good.placed (h : Good s L) {level : Nat} {value : String} {n : NodeId}
    (hlevel : level ≤ s.trail.length) (hp : Placed s level value n s') : Good s' (L ++ [(level, value)]) := by
  have hgrows := hp.grows
  obtain ⟨hhead, hedge⟩ := h.edge_placed hlevel hp
  refine ⟨hgrows.wellFormed, ?_, ?_, ?_, hhead, hedge, ?_, h.rows_placed hlevel hp⟩
  · intro r hr
    rcases hp.mem_roots hr with hr | ⟨rfl, -⟩
    · exact hgrows.contains_of_contains (h.contains_root r hr)
    · exact hgrows.contains_new
  · intro r hr
    rw [hgrows.parentOf_eq]
    rcases hp.mem_roots hr with hr | ⟨rfl, rfl⟩
    · rw [if_neg (hgrows.ne_of_contains (h.contains_root r hr)), h.parentOf_root r hr]
    · rw [if_pos rfl]
      rfl
  · rw [hp.roots_eq]
    split
    · -- the roots were there before the new node, so it is none of them
      have hnew : n ∉ s.roots := fun hmem => hgrows.ne_of_contains (h.contains_root n hmem) rfl
      exact (List.nodup_append_comm.1 (List.nodup_cons.2 ⟨hnew, h.nodup_roots⟩ : ([n] ++ s.roots).Nodup))
    · exact h.nodup_roots
  · -- the nodes of the trail were there before, so their levels are as before
    have hkept : s.trail.map s'.forest.levelOf = s.trail.map s.forest.levelOf :=
      List.map_congr_left fun x hx => hgrows.levelOf_eq h.wellFormed (h.contains_trail x hx)
    rw [hp.trail_eq, List.map_append, List.map_take, hkept, h.levels, List.take_range, Nat.min_eq_left hlevel,
      List.map_singleton, h.levelOf_placed hlevel hp, List.length_append, List.length_take,
      Nat.min_eq_left hlevel, List.length_singleton, List.range_succ]

theorem Placed.length_trail {level : Nat} {value : String} {n : NodeId} (hp : Placed s level value n s')
    (hlevel : level ≤ s.trail.length) : s'.trail.length = level + 1 := by
  rw [hp.trail_eq, List.length_append, List.length_take, Nat.min_eq_left hlevel, List.length_singleton]

/-- **A node placed is the last row.** -/
theorem Good.place (h : Good s L) {level : Nat} (hlevel : level ≤ s.trail.length) (value : String) :
    ∃ s', s.place level value = .ok s' ∧ Good s' (L ++ [(level, value)]) ∧ s'.trail.length = level + 1 := by
  obtain ⟨n, s', hplace, hp⟩ := h.exists_placed hlevel value
  exact ⟨s', hplace, h.placed hlevel hp, hp.length_trail hlevel⟩

theorem Good.placed_of_place (h : Good s L) {level : Nat} {value : String} (hlevel : level ≤ s.trail.length)
    (hplace : s.place level value = .ok s') : ∃ n, Placed s level value n s' := by
  obtain ⟨n, t, ht, hp⟩ := h.exists_placed hlevel value
  obtain rfl := Except.ok.inj (ht.symm.trans hplace)
  exact ⟨n, hp⟩

end Progress

/-! ## Lines -/

namespace Line

open Text

/-- What a line means where its level is open: the level and the value that stand on it. -/
def Means (style : OutlineStyle) (line : List Char) (x : Nat × String) : Prop :=
  (body line).head?.any isBlank = false ∧ width line % style.indent = 0 ∧
    x = (width line / style.indent, String.ofList (stripLead style.lead.toList (body line)))

theorem read_eq_ok_iff {style : OutlineStyle} {depth : Nat} {line : List Char} {x : Nat × String} :
    read style depth line = .ok x ↔ Means style line x ∧ x.1 ≤ depth := by
  unfold read Means
  by_cases hblank : (body line).head?.any isBlank = true
  · simp [hblank]
  rw [if_neg hblank]
  rw [Bool.not_eq_true] at hblank
  by_cases hwidth : width line % style.indent ≠ 0
  · simp [hwidth]
  rw [if_neg hwidth]
  rw [not_not] at hwidth
  by_cases hdepth : depth < width line / style.indent
  · rw [if_pos hdepth]
    constructor
    · intro h
      cases h
    · rintro ⟨⟨-, -, rfl⟩, hle⟩
      exact absurd hdepth (Nat.not_lt.2 hle)
  · rw [if_neg hdepth]
    constructor
    · intro h
      obtain rfl := Except.ok.inj h
      exact ⟨⟨hblank, hwidth, rfl⟩, Nat.not_lt.1 hdepth⟩
    · rintro ⟨⟨-, -, rfl⟩, -⟩
      rfl

end Line

namespace Progress

open Text

variable {s s' : Progress} {L : List (Nat × String)} {style : OutlineStyle}

/-- The first line is read before the others: it is blank, or it says where to place which node. -/
theorem readLines_cons_eq_ok_iff {number : Nat} {line : List Char} {rest : List (List Char)} :
    s.readLines style number (line :: rest) = .ok s' ↔
      (line.all isBlank = true ∧ s.readLines style (number + 1) rest = .ok s') ∨
        (line.all isBlank = false ∧ ∃ x t, Line.read style s.trail.length line = .ok x ∧
          s.place x.1 x.2 = .ok t ∧ t.readLines style (number + 1) rest = .ok s') := by
  rw [readLines]
  by_cases hblank : line.all isBlank = true
  · simp [hblank]
  rw [if_neg hblank]
  rw [Bool.not_eq_true] at hblank
  cases Line.read style s.trail.length line with
  | error fault => simp [hblank]
  | ok x =>
    cases hplace : s.place x.1 x.2 with
    | error failure => simp [hblank, hplace]
    | ok t => simp [hblank, hplace]

/-- Lines are read to their end one part after the other. -/
theorem readLines_append {number : Nat} {front rest : List (List Char)}
    (hread : s.readLines style number (front ++ rest) = .ok s') :
    ∃ t, s.readLines style number front = .ok t ∧ t.readLines style (number + front.length) rest = .ok s' := by
  induction front generalizing number s with
  | nil => exact ⟨s, rfl, hread⟩
  | cons line front ih =>
    rw [List.length_cons, Nat.add_comm front.length, ← Nat.add_assoc]
    rcases readLines_cons_eq_ok_iff.1 hread with ⟨hblank, hread⟩ | ⟨hblank, x, u, hline, hplace, hread⟩
    · obtain ⟨t, hfront, hrest⟩ := ih hread
      exact ⟨t, readLines_cons_eq_ok_iff.2 (Or.inl ⟨hblank, hfront⟩), hrest⟩
    · obtain ⟨t, hfront, hrest⟩ := ih hread
      exact ⟨t, readLines_cons_eq_ok_iff.2 (Or.inr ⟨hblank, x, u, hline, hplace, hfront⟩), hrest⟩

/-- **Whatever is read is a row.** What holds of rows and is kept by placing a node for one more row, holds at the
    end if lines are read to their end: the rows added are what the lines mean that are not blank. -/
theorem readLines_keeps {I : Progress → List (Nat × String) → Prop}
    (hI : ∀ {s L level value s'}, I s L → level ≤ s.trail.length → s.place level value = .ok s' →
      I s' (L ++ [(level, value)]))
    {number : Nat} {ls : List (List Char)} (h : I s L) (hread : s.readLines style number ls = .ok s') :
    ∃ M, I s' (L ++ M) ∧ List.Forall₂ (Line.Means style) (ls.filter fun line => !line.all isBlank) M := by
  induction ls generalizing number s L with
  | nil =>
    obtain rfl := Except.ok.inj hread
    exact ⟨[], by rwa [List.append_nil], .nil⟩
  | cons line rest ih =>
    rcases readLines_cons_eq_ok_iff.1 hread with ⟨hblank, hread⟩ | ⟨hblank, x, t, hline, hplace, hread⟩
    · -- a blank line is passed over and means no row
      rw [List.filter_cons_of_neg (by simp [hblank])]
      exact ih h hread
    · obtain ⟨hmeans, hlevel⟩ := Line.read_eq_ok_iff.1 hline
      obtain ⟨M, hM, hrest⟩ := ih (hI h hlevel hplace) hread
      rw [List.append_assoc] at hM
      rw [List.filter_cons_of_pos (by simp [hblank])]
      exact ⟨x :: M, hM, .cons hmeans hrest⟩

theorem Good.rows_of_readLines {number : Nat} {ls : List (List Char)} (h : Good s L)
    (hread : s.readLines style number ls = .ok s') :
    ∃ M, Good s' (L ++ M) ∧ List.Forall₂ (Line.Means style) (ls.filter fun line => !line.all isBlank) M := by
  refine readLines_keeps ?_ h hread
  intro s L level value s' h hlevel hplace
  obtain ⟨n, hp⟩ := h.placed_of_place hlevel hplace
  exact h.placed hlevel hp

/-- **Lines that mean rows are read**, if their levels go down one at a time. -/
theorem Good.readLines_eq (number : Nat) {ls : List (List Char)} {M : List (Nat × String)} (h : Good s L)
    (hlines : List.Forall₂ (Line.Means style) (ls.filter fun line => !line.all isBlank) M)
    (hlevels : Tree.Stepwise s.trail.length M) :
    ∃ s', s.readLines style number ls = .ok s' ∧ Good s' (L ++ M) := by
  induction ls generalizing number s L M with
  | nil =>
    obtain rfl := List.forall₂_nil_left_iff.1 hlines
    exact ⟨s, rfl, by rwa [List.append_nil]⟩
  | cons line rest ih =>
    by_cases hblank : line.all isBlank = true
    · rw [List.filter_cons_of_neg (by simp [hblank])] at hlines
      obtain ⟨s', hread, hs'⟩ := ih (number + 1) h hlines hlevels
      exact ⟨s', readLines_cons_eq_ok_iff.2 (Or.inl ⟨hblank, hread⟩), hs'⟩
    rw [List.filter_cons_of_pos (by simp [hblank])] at hlines
    rw [Bool.not_eq_true] at hblank
    obtain ⟨x, N, hmeans, hrest, rfl⟩ := List.forall₂_cons_left_iff.1 hlines
    obtain ⟨hlevel, hlevels⟩ := hlevels
    obtain ⟨t, hplace, ht, hlength⟩ := h.place hlevel x.2
    rw [← hlength] at hlevels
    obtain ⟨s', hread, hs'⟩ := ih (number + 1) ht hrest hlevels
    rw [List.append_assoc] at hs'
    exact ⟨s', readLines_cons_eq_ok_iff.2 (Or.inr ⟨hblank, x, t, Line.read_eq_ok_iff.2 ⟨hmeans, hlevel⟩,
      hplace, hread⟩), hs'⟩

/-- The trees built have the rows read, and no root is gone. -/
theorem Good.trees (h : Good s L) :
    ∃ ts, s.entries.mapM s.forest.subtree = .ok ts ∧ ts.flatMap (Tree.levelled 0) = L := by
  have hF := h.wellFormed
  have hentries : s.entries = s.roots := List.filter_eq_self.2 h.contains_root
  refine ⟨s.roots.map s.forest.treeOf, ?_, ?_⟩
  · rw [hentries]
    exact hF.mapM_subtree_eq h.contains_root
  · rw [← h.rows_eq, OutlineForest.rows, List.flatMap_map]
    apply List.flatMap_congr
    intro r hr
    have hr' := h.contains_root r hr
    rw [← hF.levelOf_of_root hr' (h.parentOf_root r hr)]
    exact hF.levelled_treeOf hr'

end Progress

/-- A text that is read has its lines read to their end. -/
theorem OutlineForest.exists_readLines_of_parse {style : OutlineStyle} {text : String} {O : OutlineForest}
    (h : parse style text = .ok O) :
    ∃ s, Progress.start.readLines style 1 (Text.lines text.toList) = .ok s ∧ s.toOutlineForest = O := by
  unfold parse at h
  split at h
  · cases h
  · split at h
    · cases h
    · exact ⟨_, ‹_›, Except.ok.inj h⟩

end Grove
