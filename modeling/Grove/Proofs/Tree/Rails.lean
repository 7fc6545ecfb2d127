import Grove.Proofs.Tree.Levels

/-!
# `Proofs.Tree.Rails` — box drawings as lists of rows

What stands in front of a value in a box drawing tells of each node on the way down to it, the top left out, whether
it is the last of its siblings. `railed` lists the values in preorder with their ways down, and a box drawing has one
line for each of them (`boxLines_eq`).

A value may look like a part of the drawing itself. Still the way down can be told from the line: rails and branches
are four characters wide and all different, and the first branch is where the way ends (`eq_of_row_eq`). A way is as
long as its node is deep, so that nothing of the tree is lost in the drawing (`eq_of_boxLines_eq`).
-/

namespace Grove.Tree

variable {α β : Type}

/-! ## Ways down -/

mutual

/-- The values of a tree in preorder with the ways down to them, each as the choices on it: whether the node gone
    to is the last of its siblings. `way` leads to the top. -/
def railed (way : List Bool) : Tree α → List (List Bool × α)
  | node v ts => (way, v) :: railedOfAll way ts

/-- The same for the trees that hang from one node. -/
def railedOfAll (way : List Bool) : List (Tree α) → List (List Bool × α)
  | [] => []
  | t :: rest => railed (way ++ [rest.isEmpty]) t ++ railedOfAll way rest

end

/-- Where the trees differ in their values only, the ways are the same. -/
theorem railedOfAll_map (f : α → β) (way : List Bool) {ts : List (Tree α)}
    (h : ∀ t ∈ ts, ∀ way, (t.map f).railed way = (t.railed way).map fun x => (x.1, f x.2)) :
    railedOfAll way (ts.map (map f)) = (railedOfAll way ts).map fun x => (x.1, f x.2) := by
  induction ts with
  | nil => rfl
  | cons t rest ih =>
    rw [List.map_cons, railedOfAll, railedOfAll, h t (List.mem_cons_self ..), List.isEmpty_map,
      ih fun u hu => h u (List.mem_cons_of_mem t hu), List.map_append]

theorem railed_map (f : α → β) (way : List Bool) (t : Tree α) :
    (t.map f).railed way = (t.railed way).map fun x => (x.1, f x.2) := by
  induction t generalizing way with
  | node v ts ih => rw [map_node, railed, railed, List.map_cons, railedOfAll_map f way ih]

theorem levels_railedOfAll (way : List Bool) {ts : List (Tree α)}
    (h : ∀ t ∈ ts, ∀ way, (t.railed way).map (fun x => (x.1.length, x.2)) = t.levelled way.length) :
    (railedOfAll way ts).map (fun x => (x.1.length, x.2)) = ts.flatMap (levelled (way.length + 1)) := by
  induction ts with
  | nil => rfl
  | cons t rest ih =>
    rw [railedOfAll, List.map_append, h t (List.mem_cons_self ..), ih fun u hu => h u (List.mem_cons_of_mem t hu),
      List.length_append, List.length_singleton, List.flatMap_cons]

/-- **A way is as long as its node is deep.** -/
theorem levels_railed (way : List Bool) (t : Tree α) :
    (t.railed way).map (fun x => (x.1.length, x.2)) = t.levelled way.length := by
  induction t generalizing way with
  | node v ts ih => rw [railed, List.map_cons, levels_railedOfAll way ih, levelled_node]

theorem map_snd_railed (way : List Bool) (t : Tree α) : (t.railed way).map Prod.snd = t.preorder := by
  rw [← map_snd_levelled way.length, ← levels_railed, List.map_map]
  rfl

theorem ne_nil_of_mem_railed {way : List Bool} (hway : way ≠ []) {t : Tree α} {x : List Bool × α}
    (hx : x ∈ t.railed way) : x.1 ≠ [] := by
  have hlevel : (x.1.length, x.2) ∈ t.levelled way.length := by
    rw [← levels_railed]
    exact List.mem_map_of_mem hx
  have hle := le_of_mem_levelled hlevel
  have hpos := List.length_pos_iff.2 hway
  exact List.length_pos_iff.1 (Nat.lt_of_lt_of_le hpos hle)

theorem ne_nil_of_mem_railedOfAll {way : List Bool} {ts : List (Tree α)} {x : List Bool × α}
    (hx : x ∈ railedOfAll way ts) : x.1 ≠ [] := by
  induction ts with
  | nil => cases hx
  | cons t rest ih =>
    rcases List.mem_append.1 hx with hx | hx
    · exact ne_nil_of_mem_railed (by simp) hx
    · exact ih hx

/-! ## Lines -/

/-- What the lines below a node show of it: a rail down to the next sibling, if there is one. -/
def rail (last : Bool) : String :=
  if last then "    " else "│   "

/-- What the line of a node shows of it: a branch, with a corner for the last sibling. -/
def branch (last : Bool) : String :=
  if last then "└── " else "├── "

/-- What stands in front of a value that is reached by this way. -/
def lead : List Bool → String
  | [] => ""
  | [last] => branch last
  | last :: next :: way => rail last ++ lead (next :: way)

/-- The line of a value that is reached by this way. -/
def row (x : List Bool × String) : String :=
  lead x.1 ++ x.2

theorem lead_concat (above : List Bool) (last : Bool) :
    lead (above ++ [last]) = String.join (above.map rail) ++ branch last := by
  induction above with
  | nil => simp [lead]
  | cons b above ih =>
    have hcons : lead (b :: (above ++ [last])) = rail b ++ lead (above ++ [last]) := by
      cases above <;> rfl
    rw [List.cons_append, hcons, ih, List.map_cons, String.join_cons, String.append_assoc]

theorem branchLinesOfAll_eq (way : List Bool) {ts : List (Tree String)}
    (h : ∀ t ∈ ts, ∀ above last,
      branchLines (String.join (above.map rail)) last t = (t.railed (above ++ [last])).map row) :
    branchLinesOfAll (String.join (way.map rail)) ts = (railedOfAll way ts).map row := by
  induction ts with
  | nil => rfl
  | cons t rest ih =>
    rw [branchLinesOfAll, railedOfAll, List.map_append, h t (List.mem_cons_self ..),
      ih fun u hu => h u (List.mem_cons_of_mem t hu)]

theorem branchLines_eq (above : List Bool) (last : Bool) (t : Tree String) :
    branchLines (String.join (above.map rail)) last t = (t.railed (above ++ [last])).map row := by
  induction t generalizing above last with
  | node v ts ih =>
    have hrails : String.join ((above ++ [last]).map rail)
        = String.join (above.map rail) ++ if last then "    " else "│   " := by
      rw [List.map_append, String.join_append]
      simp [rail]
    rw [branchLines, railed, List.map_cons, ← hrails, branchLinesOfAll_eq (above ++ [last]) ih, row, lead_concat]
    rfl

/-- **A box drawing** has one line for each way down. -/
theorem boxLines_eq (t : Tree String) : t.boxLines = (t.railed []).map row := by
  obtain ⟨v, ts⟩ := t
  have hbelow := branchLinesOfAll_eq [] fun t (_ : t ∈ ts) above last => branchLines_eq above last t
  rw [List.map_nil, String.join_nil] at hbelow
  rw [boxLines, hbelow, railed, List.map_cons]
  simp [row, lead]

theorem newline_not_mem_lead (way : List Bool) : '\n' ∉ (lead way).toList := by
  fun_induction lead way with
  | case1 => decide
  | case2 last => cases last <;> decide
  | case3 last next way ih =>
    rw [String.toList_append, List.mem_append, not_or]
    exact ⟨by cases last <;> decide, ih⟩

theorem newline_not_mem_row {x : List Bool × String} (h : '\n' ∉ x.2.toList) : '\n' ∉ (row x).toList := by
  rw [row, String.toList_append, List.mem_append, not_or]
  exact ⟨newline_not_mem_lead x.1, h⟩

theorem length_boxLines (t : Tree String) : t.boxLines.length = t.preorder.length := by
  rw [boxLines_eq, List.length_map, ← map_snd_railed [], List.length_map]

theorem newline_not_mem_boxLines {t : Tree String} (ht : ∀ v ∈ t.preorder, '\n' ∉ v.toList) :
    ∀ s ∈ t.boxLines, '\n' ∉ s.toList := by
  intro s hs
  rw [boxLines_eq] at hs
  obtain ⟨x, hx, rfl⟩ := List.mem_map.1 hs
  rw [← map_snd_railed []] at ht
  exact newline_not_mem_row (ht x.2 (List.mem_map_of_mem hx))

/-! ## Reading a drawing -/

/-- Rails and branches are equally wide, so that they can be told from what follows them. -/
theorem eq_of_append_eq {a b s t : String} (ha : a.toList.length = 4) (hb : b.toList.length = 4)
    (h : a ++ s = b ++ t) : a = b ∧ s = t := by
  have hlist := congrArg String.toList h
  rw [String.toList_append, String.toList_append] at hlist
  obtain ⟨hab, hst⟩ := List.append_inj hlist (ha.trans hb.symm)
  exact ⟨String.toList_injective hab, String.toList_injective hst⟩

theorem length_rail (last : Bool) : (rail last).toList.length = 4 := by
  cases last <;> decide

theorem length_branch (last : Bool) : (branch last).toList.length = 4 := by
  cases last <;> decide

theorem rail_injective : ∀ a b, rail a = rail b → a = b := by
  decide

theorem branch_injective : ∀ a b, branch a = branch b → a = b := by
  decide

theorem rail_ne_branch : ∀ a b, rail a ≠ branch b := by
  decide

/-- The first branch ends the way, whatever comes after it. -/
theorem eq_of_lead_append_eq {way way' : List Bool} {s t : String} (hway : way ≠ []) (hway' : way' ≠ [])
    (h : lead way ++ s = lead way' ++ t) : way = way' ∧ s = t := by
  fun_induction lead way generalizing way' with
  | case1 => exact absurd rfl hway
  | case2 a =>
    match way' with
    | [] => exact absurd rfl hway'
    | [b] =>
      obtain ⟨hbranch, hrest⟩ := eq_of_append_eq (length_branch a) (length_branch b) h
      exact ⟨by rw [branch_injective a b hbranch], hrest⟩
    | b :: next :: _ =>
      rw [lead, String.append_assoc] at h
      exact absurd (eq_of_append_eq (length_branch a) (length_rail b) h).1.symm (rail_ne_branch b a)
  | case3 a next way ih =>
    rw [String.append_assoc] at h
    match way' with
    | [] => exact absurd rfl hway'
    | [b] => exact absurd (eq_of_append_eq (length_rail a) (length_branch b) h).1 (rail_ne_branch a b)
    | b :: next' :: way' =>
      rw [lead, String.append_assoc] at h
      obtain ⟨hrail, hrest⟩ := eq_of_append_eq (length_rail a) (length_rail b) h
      obtain ⟨hbelow, hvalue⟩ := ih (List.cons_ne_nil _ _) (List.cons_ne_nil _ _) hrest
      exact ⟨by rw [rail_injective a b hrail, hbelow], hvalue⟩

/-- **A line below the first one shows the way and the value.** -/
theorem eq_of_row_eq {x y : List Bool × String} (hx : x.1 ≠ []) (hy : y.1 ≠ []) (h : row x = row y) : x = y := by
  obtain ⟨hway, hvalue⟩ := eq_of_lead_append_eq hx hy h
  exact Prod.ext hway hvalue

theorem eq_of_map_row_eq {l m : List (List Bool × String)} (hl : ∀ x ∈ l, x.1 ≠ []) (hm : ∀ x ∈ m, x.1 ≠ [])
    (h : l.map row = m.map row) : l = m := by
  induction l generalizing m with
  | nil => rw [List.map_nil, eq_comm, List.map_eq_nil_iff] at h; exact h.symm
  | cons x l ih =>
    cases m with
    | nil => cases h
    | cons y m =>
      rw [List.map_cons, List.map_cons, List.cons.injEq] at h
      rw [List.forall_mem_cons] at hl hm
      rw [eq_of_row_eq hl.1 hm.1 h.1, ih hl.2 hm.2 h.2]

/-- **The lines of a box drawing determine the tree.** -/
theorem eq_of_boxLines_eq {t u : Tree String} (h : t.boxLines = u.boxLines) : t = u := by
  obtain ⟨v, ts⟩ := t
  obtain ⟨w, us⟩ := u
  rw [boxLines_eq, boxLines_eq, railed, railed, List.map_cons, List.map_cons, List.cons.injEq] at h
  obtain ⟨htop, hbelow⟩ := h
  have hvalue : v = w := by simpa [row, lead] using htop
  have hways : (node v ts).railed [] = (node w us).railed [] := by
    rw [railed, railed, hvalue,
      eq_of_map_row_eq (fun _ => ne_nil_of_mem_railedOfAll) (fun _ => ne_nil_of_mem_railedOfAll) hbelow]
  have hlevels : (node v ts).levelled 0 = (node w us).levelled 0 := by
    have hlength : ([] : List Bool).length = 0 := List.length_nil
    rw [← hlength, ← levels_railed, hways, levels_railed]
  exact List.singleton_inj.1 (eq_of_flatMap_levelled (k := 0) (by simpa using hlevels))

/-- Lines without line feeds are what stands between the line feeds of their text. -/
theorem splitOn_unlines {l : List String} (hl : ∀ s ∈ l, '\n' ∉ s.toList) :
    (unlines l).toList.splitOn '\n' = l.map String.toList ++ [[]] := by
  have htext : (unlines l).toList = ['\n'].intercalate (l.map String.toList ++ [[]]) := by
    clear hl
    induction l with
    | nil => rfl
    | cons s l ih =>
      rw [List.map_cons, List.cons_append, List.intercalate_cons_of_ne_nil (by simp), ← ih]
      simp [unlines]
  have hlines : ∀ line ∈ l.map String.toList ++ [[]], '\n' ∉ line := by
    intro line hline
    rcases List.mem_append.1 hline with hline | hline
    · obtain ⟨s, hs, rfl⟩ := List.mem_map.1 hline
      exact hl s hs
    · rw [List.mem_singleton.1 hline]
      exact List.not_mem_nil
  rw [htext, List.splitOn_intercalate '\n' hlines (by simp)]

theorem eq_of_unlines_eq {l m : List String} (hl : ∀ s ∈ l, '\n' ∉ s.toList) (hm : ∀ s ∈ m, '\n' ∉ s.toList)
    (h : unlines l = unlines m) : l = m := by
  have hlines : l.map String.toList ++ [[]] = m.map String.toList ++ [[]] := by
    rw [← splitOn_unlines hl, h, splitOn_unlines hm]
  exact List.map_injective_iff.2 (fun _ _ => String.toList_injective) (List.append_cancel_right hlines)

/-- **A box drawing determines the tree** if its values are on one line each. -/
theorem eq_of_box_eq {t u : Tree String} (ht : ∀ v ∈ t.preorder, '\n' ∉ v.toList)
    (hu : ∀ v ∈ u.preorder, '\n' ∉ v.toList) (h : t.box = u.box) : t = u :=
  eq_of_boxLines_eq (eq_of_unlines_eq (newline_not_mem_boxLines ht) (newline_not_mem_boxLines hu) h)

end Grove.Tree
