import Grove.Proofs.Outline.Progress
import Grove.Proofs.Walker.Traversal
import Mathlib.Data.List.Sort

/-!
# `Proofs.Outline.Numbering` — what a text is read as

The nodes of an outline that is read are numbered by its rows: nothing is taken out, so that each new node goes
into the next slot, and it is the last one listed. What the links are is read off the trail, which has on every
open level the last row there (`Progress.Numbered.trail_last`). A new node is added to the end of the trail above
its level, that is, to the last row before its own on the level above, and that does not change when more rows
follow.

All of this holds after every number of lines, and then says what the text is read as (`parse_transcribes`).
-/

namespace Grove

open Forest Text

variable {L : List (Nat × String)} {level i j : Nat} {value : String}

/-! ## Rows and their nodes -/

/-- The name of the node that was put into a slot before anything was removed. -/
def NodeId.nth (slot : Nat) : NodeId := ⟨slot, 0⟩

theorem NodeId.nth_inj (h : NodeId.nth i = .nth j) : i = j :=
  congrArg NodeId.slot h

/-- Row `j` is the last one on a level. -/
structure LastOn (L : List (Nat × String)) (level j : Nat) : Prop where
  on_level : ∃ value, L[j]? = some (level, value)
  none_after : ∀ k x, j < k → L[k]? = some x → x.1 ≠ level

namespace LastOn

theorem lt_length (h : LastOn L level j) : j < L.length := by
  obtain ⟨value, hrow⟩ := h.on_level
  exact (List.getElem?_eq_some_iff.1 hrow).1

/-- A row on another level does not matter. -/
theorem append (h : LastOn L level j) {x : Nat × String} (hx : x.1 ≠ level) : LastOn (L ++ [x]) level j := by
  constructor
  · obtain ⟨value, hrow⟩ := h.on_level
    exact ⟨value, by rwa [List.getElem?_append_left h.lt_length]⟩
  · intro k y hjk hrow
    rcases Nat.lt_or_ge k L.length with hk | hk
    · rw [List.getElem?_append_left hk] at hrow
      exact h.none_after k y hjk hrow
    · rw [List.getElem?_append_right hk, List.getElem?_singleton] at hrow
      split at hrow
      · obtain rfl := Option.some.inj hrow
        exact hx
      · cases hrow

/-- A new row is the last one on its level. -/
theorem append_self (L : List (Nat × String)) (level : Nat) (value : String) :
    LastOn (L ++ [(level, value)]) level L.length := by
  refine ⟨⟨value, List.getElem?_concat_length⟩, fun k x hk hrow => ?_⟩
  rw [List.getElem?_eq_none (by simpa [Nat.succ_le_iff] using hk)] at hrow
  cases hrow

end LastOn

/-- The nodes of the rows on level 0, in order. -/
def topNodes (L : List (Nat × String)) : List NodeId :=
  L.zipIdx.filterMap fun (x, i) => if x.1 = 0 then some (.nth i) else none

theorem topNodes_append (L : List (Nat × String)) (level : Nat) (value : String) :
    topNodes (L ++ [(level, value)]) = if level = 0 then topNodes L ++ [.nth L.length] else topNodes L := by
  rw [topNodes, List.zipIdx_append, List.filterMap_append, ← topNodes]
  by_cases hzero : level = 0
  · simp [hzero]
  · simp [hzero]

theorem mem_topNodes_iff {n : NodeId} :
    n ∈ topNodes L ↔ ∃ i value, L[i]? = some (0, value) ∧ n = .nth i := by
  unfold topNodes
  rw [List.mem_filterMap]
  constructor
  · rintro ⟨⟨⟨level, value⟩, i⟩, hmem, hn⟩
    obtain ⟨hzero, hn⟩ := Option.ite_none_right_eq_some.1 hn
    obtain rfl : level = 0 := hzero
    exact ⟨i, value, List.mem_zipIdx_iff_getElem?.1 hmem, (Option.some.inj hn).symm⟩
  · rintro ⟨i, value, hrow, rfl⟩
    exact ⟨((0, value), i), List.mem_zipIdx_iff_getElem?.2 hrow, rfl⟩

/-- They stand in the order of their slots. -/
theorem pairwise_topNodes (L : List (Nat × String)) : (topNodes L).Pairwise fun m n => m.slot < n.slot := by
  rw [topNodes, List.pairwise_filterMap]
  refine (Arena.pairwise_zipIdx L).imp ?_
  rintro ⟨x, i⟩ ⟨y, j⟩ hlt m hm n hn
  obtain ⟨-, hm⟩ := Option.ite_none_right_eq_some.1 hm
  obtain ⟨-, hn⟩ := Option.ite_none_right_eq_some.1 hn
  obtain rfl := Option.some.inj hm
  obtain rfl := Option.some.inj hn
  exact hlt

/-- `O` is what the rows `L` describe: its nodes are numbered by them, with their values, on their levels, and each
    below the closest row before it on the level above. -/
structure OutlineForest.Transcribes (O : OutlineForest) (L : List (Nat × String)) : Prop where
  size_eq : O.forest.size = L.length
  contains_iff : ∀ n, O.forest.contains n = true ↔ ∃ i < L.length, n = .nth i
  preorders : ∃ orders, O.roots.mapM O.forest.preorder = .ok orders ∧
    orders.flatten = (List.range L.length).map .nth
  level_eq : ∀ i x, L[i]? = some x → O.forest.level (.nth i) = .ok x.1
  value_eq : ∀ i x, L[i]? = some x → O.forest.value (.nth i) = .ok x.2
  parent_of_top : ∀ i value, L[i]? = some (0, value) → O.forest.parent (.nth i) = .ok none
  parent_of_below : ∀ i level value, L[i]? = some (level + 1, value) →
    ∃ j, LastOn (L.take i) level j ∧ O.forest.parent (.nth i) = .ok (some (.nth j))
  roots_eq : O.roots = topNodes L
  forest_roots_eq : O.forest.roots = O.roots
  generation_eq : O.forest.generation = UInt64.ofNat (L.countP fun x => 1 ≤ x.1)

/-! ## The forest built so far -/

namespace Progress

variable {s s' : Progress} {n : NodeId}

/-- What has been built is numbered by its rows, and the trail has the last row on every open level. -/
structure Numbered (s : Progress) (L : List (Nat × String)) : Prop extends Good s L where
  compact : s.forest.nodes.Compact
  size_eq : s.forest.size = L.length
  contains_iff : ∀ n, s.forest.contains n = true ↔ ∃ i < L.length, n = .nth i
  listing_eq : s.listing = (List.range L.length).map .nth
  roots_eq : s.roots = topNodes L
  generation_eq : s.forest.generation = UInt64.ofNat (L.countP fun x => 1 ≤ x.1)
  trail_last : ∀ level n, s.trail[level]? = some n → ∃ j, LastOn L level j ∧ n = .nth j
  parent_last : ∀ i level value, L[i]? = some (level + 1, value) →
    ∃ j, LastOn (L.take i) level j ∧ s.forest.parentOf (.nth i) = some (.nth j)

theorem numbered_start : Numbered start [] where
  toGood := good_start
  compact := .empty
  size_eq := rfl
  contains_iff n := by
    show (Arena.empty : Arena (Node String)).contains n = true ↔ _
    simp [Arena.contains]
  listing_eq := rfl
  roots_eq := rfl
  generation_eq := rfl
  trail_last level n h := by cases h
  parent_last i level value h := by cases h

namespace Numbered

/-- The node placed is the next one. -/
theorem name_placed (h : Numbered s L) (hp : Placed s level value n s') :
    n = .nth L.length ∧ s'.forest.size = L.length + 1 ∧ s'.forest.nodes.Compact := by
  obtain ⟨G, hmade, hlinks⟩ := hp.made
  rw [create_eq] at hmade
  injection hmade with hn hG
  subst hn hG
  obtain ⟨hname, hcompact⟩ := h.compact.insert ⟨value, none, []⟩
  refine ⟨?_, ?_, hlinks.compact hcompact⟩
  · rw [hname, ← h.size_eq]
    rfl
  · rw [hlinks.size_eq, ← h.size_eq]
    exact Arena.size_insert s.forest.nodes ⟨value, none, []⟩

/-- The trail has the last row on every level that is open then. -/
theorem trail_placed (h : Numbered s L) (hlevel : level ≤ s.trail.length) (hp : Placed s level value n s') :
    ∀ l m, s'.trail[l]? = some m → ∃ j, LastOn (L ++ [(level, value)]) l j ∧ m = .nth j := by
  intro l m hm
  have hlength : (s.trail.take level).length = level := by rw [List.length_take, Nat.min_eq_left hlevel]
  rw [hp.trail_eq] at hm
  rcases Nat.lt_trichotomy l level with hlt | rfl | hgt
  · rw [List.getElem?_append_left (by omega), List.getElem?_take_of_lt hlt] at hm
    obtain ⟨j, hj, rfl⟩ := h.trail_last l m hm
    exact ⟨j, hj.append (Nat.ne_of_gt hlt), rfl⟩
  · rw [List.getElem?_append_right (by omega), hlength, Nat.sub_self] at hm
    obtain rfl : n = m := Option.some.inj hm
    exact ⟨L.length, .append_self L l value, (h.name_placed hp).1⟩
  · rw [List.getElem?_eq_none (by simp; omega)] at hm
    cases hm

/-- The new node hangs from the last row on the level above, and every other from where it did. -/
theorem parent_placed (h : Numbered s L) (hlevel : level ≤ s.trail.length) (hp : Placed s level value n s') :
    ∀ i l v, (L ++ [(level, value)])[i]? = some (l + 1, v) →
      ∃ j, LastOn ((L ++ [(level, value)]).take i) l j ∧ s'.forest.parentOf (.nth i) = some (.nth j) := by
  intro i l v hrow
  have hn := (h.name_placed hp).1
  rw [hp.grows.parentOf_eq, hn]
  rcases Nat.lt_or_ge i L.length with hi | hi
  · rw [List.getElem?_append_left hi] at hrow
    rw [List.take_append_of_le_length (Nat.le_of_lt hi), if_neg fun heq => Nat.ne_of_lt hi (NodeId.nth_inj heq)]
    exact h.parent_last i l v hrow
  · obtain rfl : i = L.length := by
      have hlt := (List.getElem?_eq_some_iff.1 hrow).1
      rw [List.length_append, List.length_singleton] at hlt
      omega
    rw [List.getElem?_concat_length] at hrow
    obtain ⟨rfl, rfl⟩ := Prod.mk.inj (Option.some.inj hrow)
    obtain ⟨p, hend⟩ : ∃ p, s.trail[l]? = some p := ⟨_, List.getElem?_eq_getElem hlevel⟩
    have habove : (s.trail.take (l + 1)).getLast? = some p := by
      rw [List.take_add_one, hend]
      exact List.getLast?_concat
    obtain ⟨j, hj, rfl⟩ := h.trail_last l p hend
    exact ⟨j, by rwa [List.take_left], by rw [if_pos rfl, habove]⟩

theorem placed (h : Numbered s L) (hlevel : level ≤ s.trail.length) (hp : Placed s level value n s') :
    Numbered s' (L ++ [(level, value)]) := by
  obtain ⟨hn, hsize, hcompact⟩ := h.name_placed hp
  have hlength : (L ++ [(level, value)]).length = L.length + 1 := by simp
  refine ⟨h.toGood.placed hlevel hp, hcompact, by rw [hsize, hlength], ?_, ?_, ?_, ?_, h.trail_placed hlevel hp,
    h.parent_placed hlevel hp⟩
  · intro m
    rw [hp.grows.contains_iff, h.contains_iff, hn, hlength]
    constructor
    · rintro (rfl | ⟨i, hi, rfl⟩)
      · exact ⟨_, Nat.lt_succ_self _, rfl⟩
      · exact ⟨i, Nat.lt_succ_of_lt hi, rfl⟩
    · rintro ⟨i, hi, rfl⟩
      rcases Nat.lt_succ_iff_lt_or_eq.1 hi with hi | rfl
      · exact Or.inr ⟨i, hi, rfl⟩
      · exact Or.inl rfl
  · rw [h.toGood.listing_placed hlevel hp, h.listing_eq, hlength, List.range_succ, List.map_append, hn]
    rfl
  · rw [hp.roots_eq, topNodes_append, h.roots_eq, hn]
  · rw [hp.generation_eq, h.generation_eq, List.countP_append, UInt64.ofNat_add]
    by_cases hzero : level = 0
    · simp [hzero]
    · simp [hzero, Nat.one_le_iff_ne_zero]

/-- A row is the level and the value of its node. -/
theorem row_eq (h : Numbered s L) {x : Nat × String} (hrow : L[i]? = some x) :
    s.forest.contains (.nth i) = true ∧ x = (s.forest.levelOf (.nth i), s.forest.valueOf (.nth i)) := by
  have hi := (List.getElem?_eq_some_iff.1 hrow).1
  refine ⟨(h.contains_iff _).2 ⟨i, hi, rfl⟩, ?_⟩
  have hrows := h.rows_eq
  rw [OutlineForest.rows_eq_map, h.listing_eq, List.map_map] at hrows
  rw [← hrows, List.getElem?_map, List.getElem?_range hi, Option.map_some] at hrow
  exact (Option.some.inj hrow).symm

theorem parentOf_top (h : Numbered s L) (hrow : L[i]? = some (0, value)) : s.forest.parentOf (.nth i) = none := by
  obtain ⟨hlive, hx⟩ := h.row_eq hrow
  rw [← h.wellFormed.levelOf_eq_zero_iff hlive]
  exact (congrArg Prod.fst hx).symm

/-- The roots of the forest are those collected on the way. -/
theorem forest_roots_eq (h : Numbered s L) : s.forest.roots = s.roots := by
  rw [h.roots_eq]
  have hmem : ∀ m, m ∈ s.forest.roots ↔ m ∈ topNodes L := by
    intro m
    rw [mem_roots_iff, mem_topNodes_iff]
    constructor
    · rintro ⟨hm, hroot⟩
      obtain ⟨i, hi, rfl⟩ := (h.contains_iff m).1 hm
      obtain ⟨hlive, hx⟩ := h.row_eq (List.getElem?_eq_getElem hi)
      rw [h.wellFormed.levelOf_of_root hlive hroot] at hx
      exact ⟨i, _, by rw [List.getElem?_eq_getElem hi, hx], rfl⟩
    · rintro ⟨i, value, hrow, rfl⟩
      exact ⟨(h.row_eq hrow).1, h.parentOf_top hrow⟩
  -- both lists are in the order of the slots, so that they are the same as soon as they have the same nodes
  have hirrefl : Std.Irrefl fun m n : NodeId => m.slot < n.slot := ⟨fun m => Nat.lt_irrefl m.slot⟩
  have hantisymm : Std.Antisymm fun m n : NodeId => m.slot < n.slot := ⟨fun _ _ h h' => absurd h (Nat.lt_asymm h')⟩
  exact (pairwise_roots s.forest).eq_of_mem_iff (pairwise_topNodes L) hmem

/-- **What has been built is what its rows describe.** -/
theorem transcribes (h : Numbered s L) : s.Transcribes L := by
  have hF := h.wellFormed
  refine ⟨h.size_eq, h.contains_iff, ?_, ?_, ?_, ?_, ?_, h.roots_eq, h.forest_roots_eq, h.generation_eq⟩
  · refine ⟨_, mapM_eq_ok fun r hr => (preorder_eq hF (h.contains_root r hr)).1, ?_⟩
    rw [← h.listing_eq]
    exact List.flatMap_def.symm
  · intro i x hrow
    obtain ⟨hlive, rfl⟩ := h.row_eq hrow
    exact hF.level_eq hlive
  · intro i x hrow
    obtain ⟨hlive, rfl⟩ := h.row_eq hrow
    obtain ⟨node, hnode⟩ := Forest.contains_iff.1 hlive
    rw [Forest.value, lookup_eq_ok_iff.2 hnode, valueOf_of_get? hnode]
    rfl
  · intro i value hrow
    rw [parent_eq_ok (h.row_eq hrow).1, h.parentOf_top hrow]
  · intro i level value hrow
    obtain ⟨j, hj, hparent⟩ := h.parent_last i level value hrow
    exact ⟨j, hj, by rw [parent_eq_ok (h.row_eq hrow).1, hparent]⟩

end Numbered

/-! ## Reading -/

variable {style : OutlineStyle} {ls : List (List Char)}

theorem Numbered.of_readLines (hread : start.readLines style 1 ls = .ok s) :
    ∃ M, Numbered s M ∧ List.Forall₂ (Line.Means style) (ls.filter fun line => !line.all isBlank) M := by
  refine readLines_keeps ?_ numbered_start hread
  intro s L level value s' h hlevel hplace
  obtain ⟨n, hp⟩ := h.toGood.placed_of_place hlevel hplace
  exact h.placed hlevel hp

end Progress

/-- What a line that is read says: as many spaces as its level asks for, and then the value, after the lead where
    it is there. -/
def Line.Says (style : OutlineStyle) (line : List Char) (x : Nat × String) : Prop :=
  ∃ rest, line = List.replicate (x.1 * style.indent) ' ' ++ rest ∧ rest.head? ≠ some ' ' ∧
    (rest = style.lead.toList ++ x.2.toList ∨ ¬ style.lead.toList <+: rest ∧ rest = x.2.toList)

theorem Line.Means.says {style : OutlineStyle} {line : List Char} {x : Nat × String}
    (h : Line.Means style line x) : Line.Says style line x := by
  obtain ⟨-, hwidth, rfl⟩ := h
  have hspaces : line.takeWhile (· == ' ') = List.replicate (Line.width line) ' ' :=
    List.eq_replicate_iff.2 ⟨rfl, fun c hc => by simpa using List.all_eq_true.1 List.all_takeWhile c hc⟩
  refine ⟨Line.body line, ?_, ?_, ?_⟩
  · rw [Nat.div_mul_cancel (Nat.dvd_of_mod_eq_zero hwidth), ← hspaces]
    exact List.takeWhile_append_dropWhile.symm
  · intro hhead
    have hnot := List.head?_dropWhile_not (· == ' ') line
    rw [← Line.body, hhead] at hnot
    simp at hnot
  · rw [String.toList_ofList]
    unfold Line.stripLead
    by_cases hlead : style.lead.toList <+: Line.body line
    · rw [if_pos (List.isPrefixOf_iff_prefix.2 hlead)]
      exact Or.inl (List.prefix_iff_eq_append.1 hlead).symm
    · rw [if_neg (mt List.isPrefixOf_iff_prefix.1 hlead)]
      exact Or.inr ⟨hlead, rfl⟩

namespace OutlineForest

/-- **Result.** A text that is read has one row for each line that is not blank, and what it is read as is what
    these rows describe. That is so after each number of lines, so the nodes are made line by line. -/
theorem parse_transcribes {style : OutlineStyle} {text : String} {O : OutlineForest} (h : parse style text = .ok O) :
    ∃ L, List.Forall₂ (Line.Says style) ((lines text.toList).filter fun line => !line.all isBlank) L ∧
      O.Transcribes L ∧
      ∀ m, ∃ s, Progress.start.readLines style 1 ((lines text.toList).take m) = .ok s ∧
        s.Transcribes (L.take (((lines text.toList).take m).filter fun line => !line.all isBlank).length) := by
  obtain ⟨s, hread, rfl⟩ := exists_readLines_of_parse h
  obtain ⟨L, hL, hmeans⟩ := Progress.Numbered.of_readLines hread
  refine ⟨L, hmeans.imp fun _ _ => Line.Means.says, hL.transcribes, fun m => ?_⟩
  rw [← List.take_append_drop m (lines text.toList)] at hread
  obtain ⟨t, hfront, hrest⟩ := Progress.readLines_append hread
  obtain ⟨M, hM, hfrontMeans⟩ := Progress.Numbered.of_readLines hfront
  -- the rows read so far are the first rows of the whole, since no row is changed later
  obtain ⟨N, hN, -⟩ := hM.toGood.rows_of_readLines hrest
  have hrows : L = M ++ N := hL.rows_eq.symm.trans hN.rows_eq
  refine ⟨t, hfront, ?_⟩
  rw [hfrontMeans.length_eq, hrows, List.take_left]
  exact hM.transcribes

theorem parse_transcribes_of_three :
    let style : OutlineStyle := ⟨2, "+- "⟩
    ∃ O L, parse style "+- a\n\n  b\n+- c\n" = .ok O ∧ O.Transcribes L ∧ L.length = 3 ∧
      O.forest.contains (.nth 2) = true ∧ O.forest.contains (.nth 3) = false := by
  intro style
  have hread : (parse style "+- a\n\n  b\n+- c\n").isOk = true := by decide
  obtain ⟨O, hparse⟩ : ∃ O, parse style "+- a\n\n  b\n+- c\n" = .ok O := by
    cases hparse : parse style "+- a\n\n  b\n+- c\n" with
    | ok O => exact ⟨O, rfl⟩
    | error problem => simp [hparse, Except.isOk, Except.toBool] at hread
  obtain ⟨L, hsays, hL, -⟩ := parse_transcribes hparse
  have hlength : L.length = 3 := hsays.length_eq.symm.trans (by decide)
  refine ⟨O, L, hparse, hL, hlength, (hL.contains_iff _).2 ⟨2, by omega, rfl⟩, ?_⟩
  rw [← Bool.not_eq_true, hL.contains_iff]
  rintro ⟨i, hi, heq⟩
  have hij : 3 = i := NodeId.nth_inj heq
  omega

end OutlineForest

end Grove
