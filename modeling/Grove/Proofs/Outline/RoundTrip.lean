import Grove.Proofs.Outline.Rows

/-!
# `Proofs.Outline.RoundTrip` — outlines that are read back

An outline is the rows of the trees below the entries, written one after the other (`outline_eq`). Each row takes
one line of the text, so reading it back gives the same trees exactly if each row can be told from its line
(`parse_outline_iff`). For the converse no row is looked at alone: a text that gives the same trees gives the same
rows, since rows determine trees, and then as many lines are not blank as there are rows, so that each row is what
its own line means.
-/

namespace Grove

open Forest Text

/-! ## Writing -/

/-- A row whose spaces can be written. -/
theorem OutlineStyle.line_eq {style : OutlineStyle} {x : Nat × String}
    (h : x.1 * style.indent ≤ OutlineStyle.maxPadding) :
    style.line x.1 x.2 = .ok (String.ofList (style.written x)) := by
  have htext : String.ofList (style.written x)
      = String.ofList (List.replicate (x.1 * style.indent) ' ') ++ style.lead ++ x.2 := by
    refine String.toList_injective ?_
    simp [OutlineStyle.written, OutlineStyle.text]
  rw [OutlineStyle.line, htext]
  exact if_neg (Nat.not_lt.2 h)

theorem toList_unlines (l : List String) : (unlines l).toList = l.flatMap fun s => s.toList ++ ['\n'] := by
  rw [unlines, String.toList_join, List.flatMap_map]
  apply List.flatMap_congr
  intro s _
  rw [String.toList_append]
  rfl

theorem unlines_append (l m : List String) : unlines (l ++ m) = unlines l ++ unlines m := by
  rw [unlines, List.map_append, String.join_append]
  rfl

/-- What is written part by part is written line by line, and as far. -/
theorem join_mapM_unlines {β γ : Type} (f : β → List γ) (g : γ → Except Failure String) (l : List β) :
    (String.join <$> l.mapM fun b => unlines <$> (f b).mapM g) = unlines <$> (l.flatMap f).mapM g := by
  induction l with
  | nil => rfl
  | cons b l ih =>
    rw [List.mapM_cons, List.flatMap_cons, List.mapM_append]
    cases (f b).mapM g with
    | error failure => rfl
    | ok first =>
      have hparts (parts : Except Failure (List String)) :
          (String.join <$> do return unlines first :: (← parts)) = (unlines first ++ ·) <$> String.join <$> parts := by
        cases parts with
        | error failure => rfl
        | ok parts => exact congrArg Except.ok (String.join_cons ..)
      have hlines (rest : Except Failure (List String)) :
          (unlines <$> do return first ++ (← rest)) = (unlines first ++ ·) <$> unlines <$> rest := by
        cases rest with
        | error failure => rfl
        | ok rest => exact congrArg Except.ok (unlines_append first rest)
      exact (hparts _).trans ((congrArg _ ih).trans (hlines _).symm)

theorem Tree.outline_eq_mapM (style : OutlineStyle) (t : Tree String) :
    t.outline style = unlines <$> (t.levelled 0).mapM fun x => style.line x.1 x.2 := by
  rw [outline, outlineLines_eq_mapM]
  rfl

namespace OutlineForest

/-- An outline forest is written row by row. -/
theorem outline_eq_mapM {O : OutlineForest} (hF : O.forest.WellFormed) (style : OutlineStyle) :
    O.outline style = unlines <$> ((O.entries.map O.forest.treeOf).flatMap (Tree.levelled 0)).mapM fun x =>
      style.line x.1 x.2 := by
  have hentries : O.entries.mapM (O.forest.outline style) = O.entries.mapM fun n =>
      unlines <$> ((O.forest.treeOf n).levelled 0).mapM fun x => style.line x.1 x.2 := by
    apply mapM_congr
    intro n hn
    rw [Forest.outline, hF.subtree_eq (List.mem_filter.1 hn).2]
    exact Tree.outline_eq_mapM style _
  rw [List.flatMap_map, ← join_mapM_unlines, ← hentries]
  rfl

/-- **The outline** of an outline forest is its rows, written one after the other. -/
theorem outline_eq {O : OutlineForest} {style : OutlineStyle} (hF : O.forest.WellFormed)
    (hpadding : ∀ t ∈ O.entries.map O.forest.treeOf, ∀ x ∈ t.levelled 0,
      x.1 * style.indent ≤ OutlineStyle.maxPadding) :
    ∃ text, O.outline style = .ok text ∧
      text.toList = ((O.entries.map O.forest.treeOf).flatMap (Tree.levelled 0)).flatMap fun x =>
        style.written x ++ ['\n'] := by
  have hrow : ∀ x ∈ (O.entries.map O.forest.treeOf).flatMap (Tree.levelled 0),
      style.line x.1 x.2 = .ok (String.ofList (style.written x)) := by
    intro x hx
    obtain ⟨t, ht, hx⟩ := List.mem_flatMap.1 hx
    exact OutlineStyle.line_eq (hpadding t ht x hx)
  refine ⟨_, by rw [outline_eq_mapM hF, mapM_eq_ok hrow]; rfl, ?_⟩
  rw [toList_unlines, List.flatMap_map]
  apply List.flatMap_congr
  intro x _
  rw [String.toList_ofList]

/-! ## Reading -/

/-- Nothing is read in a style without indentation. -/
theorem one_le_of_parse {style : OutlineStyle} {text : String} {O : OutlineForest}
    (hparse : parse style text = .ok O) : 1 ≤ style.indent := by
  by_contra hzero
  rw [parse, if_pos (by omega)] at hparse
  cases hparse

/-- **A text is read as the trees whose rows its lines mean.** -/
theorem parse_eq_iff {style : OutlineStyle} {text : String} {ts : List (Tree String)} (hindent : 1 ≤ style.indent) :
    (∃ O, parse style text = .ok O ∧ O.entries.mapM O.forest.subtree = .ok ts) ↔
      List.Forall₂ (Line.Means style) (content text.toList) (ts.flatMap (Tree.levelled 0)) := by
  constructor
  · rintro ⟨O, hparse, htrees⟩
    obtain ⟨s, hread, rfl⟩ := exists_readLines_of_parse hparse
    obtain ⟨M, hM, hmeans⟩ := Progress.good_start.rows_of_readLines hread
    obtain ⟨us, hus, rfl⟩ := hM.trees
    obtain rfl : us = ts := Except.ok.inj (hus.symm.trans htrees)
    exact hmeans
  · intro hlines
    obtain ⟨s, hread, hs⟩ := Progress.good_start.readLines_eq 1 hlines (Tree.stepwise_flatMap_levelled _ ts)
    obtain ⟨us, hus, hrows⟩ := hs.trees
    obtain rfl := Tree.eq_of_flatMap_levelled hrows
    refine ⟨s.toOutlineForest, ?_, hus⟩
    rw [parse, if_neg (by omega), hread]

/-- A text whose lines are rows that can be told from them is read as the trees with these rows. -/
theorem parse_eq_of_keeps {style : OutlineStyle} {text : String} {ts : List (Tree String)}
    (hindent : 1 ≤ style.indent)
    (htext : text.toList = (ts.flatMap (Tree.levelled 0)).flatMap fun x => style.written x ++ ['\n'])
    (hlead : '\n' ∉ style.lead.toList) (hkeeps : ∀ x ∈ ts.flatMap (Tree.levelled 0), style.Keeps x.2) :
    ∃ O, parse style text = .ok O ∧ O.entries.mapM O.forest.subtree = .ok ts := by
  have hvalue : ∀ x ∈ ts.flatMap (Tree.levelled 0), '\n' ∉ style.written x := by
    intro x hx
    refine OutlineStyle.newline_not_mem_written hlead fun hmem => (hkeeps x hx).2.1 ?_
    exact List.mem_append_right _ hmem
  have hblank : ∀ line ∈ (ts.flatMap (Tree.levelled 0)).map fun x => dropReturn (style.written x),
      (!line.all isBlank) = true := by
    intro line hline
    obtain ⟨x, hx, rfl⟩ := List.mem_map.1 hline
    rw [((hkeeps x hx).means hindent).1]
    rfl
  rw [parse_eq_iff hindent, htext, content, lines_flatMap hvalue, List.filter_eq_self.2 hblank,
    List.forall₂_map_left_iff, List.forall₂_same]
  exact fun x hx => ((hkeeps x hx).means hindent).2

/-- A text of rows that is read as the trees with these rows has rows that can be told from their lines. -/
theorem keeps_of_parse_eq {style : OutlineStyle} {text : String} {ts : List (Tree String)} {O : OutlineForest}
    (htext : text.toList = (ts.flatMap (Tree.levelled 0)).flatMap fun x => style.written x ++ ['\n'])
    (hlead : '\n' ∉ style.lead.toList) (hparse : parse style text = .ok O)
    (htrees : O.entries.mapM O.forest.subtree = .ok ts) :
    ∀ x ∈ ts.flatMap (Tree.levelled 0), style.Keeps x.2 := by
  have hmeans := (parse_eq_iff (one_le_of_parse hparse)).1 ⟨O, hparse, htrees⟩
  -- values that were read stand on one line, so each row takes one line of the text
  have hvalue : ∀ x ∈ ts.flatMap (Tree.levelled 0), '\n' ∉ x.2.toList := by
    intro x hx
    obtain ⟨line, hline, hx⟩ := exists_left_of_forall₂ hmeans x hx
    exact hx.newline_not_mem (newline_not_mem_of_mem_lines (mem_content_iff.1 hline).1)
  have hlines : lines text.toList = (ts.flatMap (Tree.levelled 0)).map fun x => dropReturn (style.written x) := by
    rw [htext]
    exact lines_flatMap fun x hx => OutlineStyle.newline_not_mem_written hlead (hvalue x hx)
  -- as many lines are not blank as there are rows, so none is blank
  have hblank : ∀ line ∈ lines text.toList, (!line.all isBlank) = true := by
    rw [← List.length_filter_eq_length_iff, ← content, hmeans.length_eq, hlines, List.length_map]
  rw [content, List.filter_eq_self.2 hblank, hlines, List.forall₂_map_left_iff, List.forall₂_same] at hmeans
  intro x hx
  have hline : dropReturn (style.written x) ∈ lines text.toList := by
    rw [hlines]
    exact List.mem_map_of_mem hx
  refine OutlineStyle.keeps_of_means hlead (hvalue x hx) ?_ (hmeans x hx)
  simpa using hblank _ hline

/-- **Round trip.** An outline can be written if its indentation can, and it is read back as the same trees, entry
    by entry, exactly if every value in it can be told from its line. -/
theorem parse_outline_iff (O : OutlineForest) (style : OutlineStyle) (hO : O.forest.Reachable)
    (hindent : 1 ≤ style.indent) (hlead : '\n' ∉ style.lead.toList) :
    ∃ ts, O.entries.mapM O.forest.subtree = .ok ts ∧
      ((∀ t ∈ ts, ∀ x ∈ t.levelled 0, x.1 * style.indent ≤ 65535) →
        ∃ text, O.outline style = .ok text ∧
          ((∃ O', parse style text = .ok O' ∧ O'.entries.mapM O'.forest.subtree = .ok ts) ↔
            ∀ t ∈ ts, ∀ x ∈ t.levelled 0, style.Keeps x.2)) := by
  have hF := hO.wellFormed
  have hlive : ∀ n ∈ O.entries, O.forest.contains n = true := fun n hn => (List.mem_filter.1 hn).2
  refine ⟨O.entries.map O.forest.treeOf, hF.mapM_subtree_eq hlive, ?_⟩
  intro hpadding
  obtain ⟨text, houtline, htext⟩ := outline_eq hF hpadding
  refine ⟨text, houtline, ?_⟩
  constructor
  · rintro ⟨O', hparse, htrees⟩ t ht x hx
    exact keeps_of_parse_eq htext hlead hparse htrees x (List.mem_flatMap.2 ⟨t, ht, hx⟩)
  · intro hkeeps
    apply parse_eq_of_keeps hindent htext hlead
    intro x hx
    obtain ⟨t, ht, hxt⟩ := List.mem_flatMap.1 hx
    exact hkeeps t ht x hxt

theorem parse_outline_iff_of_pair :
    let O : OutlineForest :=
      ⟨(Forest.empty : Forest String).afterAll [.create "a", .create "b", .add ⟨0, 0⟩ ⟨1, 0⟩], [⟨0, 0⟩, ⟨5, 0⟩]⟩
    let style : OutlineStyle := ⟨2, "- "⟩
    O.forest.Reachable ∧ 1 ≤ style.indent ∧ '\n' ∉ style.lead.toList ∧
      ∃ text O', O.outline style = .ok text ∧ parse style text = .ok O' ∧
        O'.entries.mapM O'.forest.subtree = .ok [.node "a" [.node "b" []]] := by
  intro O style
  have hO : O.forest.Reachable := ⟨_, rfl⟩
  have hlead : '\n' ∉ style.lead.toList := by decide
  refine ⟨hO, by decide, hlead, ?_⟩
  obtain ⟨ts, hts, h⟩ := parse_outline_iff O style hO (by decide) hlead
  have htrees : O.entries.mapM O.forest.subtree = .ok [.node "a" [.node "b" []]] := rfl
  obtain rfl := Except.ok.inj (hts.symm.trans htrees)
  have hrows : ∀ t ∈ [Tree.node "a" [Tree.node "b" []]], ∀ x ∈ t.levelled 0, x = (0, "a") ∨ x = (1, "b") := by
    simp
  have hpadding : ∀ t ∈ [Tree.node "a" [Tree.node "b" []]], ∀ x ∈ t.levelled 0, x.1 * style.indent ≤ 65535 := by
    intro t ht x hx
    rcases hrows t ht x hx with rfl | rfl <;> decide
  obtain ⟨text, houtline, hiff⟩ := h hpadding
  obtain ⟨O', hparse, hread⟩ := hiff.2 fun t ht x hx => by
    rcases hrows t ht x hx with rfl | rfl <;> decide
  exact ⟨text, O', houtline, hparse, hread⟩

end OutlineForest

end Grove
