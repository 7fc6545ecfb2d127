import Grove.Proofs.Forest.Ancestry
import Grove.Proofs.Outline.Listings
import Grove.Proofs.Walker.Path

/-!
# `Proofs.Outline.Lookup` — nodes found by their values

A lookup goes through the trees below the entries one after the other, each in preorder. It finds the first node with
the value asked for (`find_eq_ok_iff`), and fails only if none of them has it (`find_eq_error_iff`). The path between
two values is the way between the two nodes that were found, if one of them lies above the other
(`pathValues_of_first`). What was found is alive, so there are no failures besides these (`pathValues_error_cases`).
-/

namespace Grove

namespace Forest

variable {α : Type} [Inhabited α] {F : Forest α}

/-- `nodes` leads from `a` down to `d`, from each node to one of its children. -/
structure Leads (F : Forest α) (a d : NodeId) (nodes : List NodeId) : Prop where
  head : nodes.head? = some a
  last : nodes.getLast? = some d
  down : nodes.IsChain fun p c => F.parent c = .ok (some p)

omit [Inhabited α] in
theorem WellFormed.leads_pathOf (hF : F.WellFormed) {a d : NodeId} (hd : F.contains d = true)
    (hup : F.Ancestor a d) : F.Leads a d (Walker.pathOf F a d) where
  head := head?_pathOf F a d
  last := hF.getLast?_pathOf hd hup
  down := hF.isChain_pathOf hd hup

/-- The search stops at the first node that has the value. -/
theorem firstValued_eq [DecidableEq α] (value : α) {l : List NodeId} (hl : ∀ n ∈ l, F.contains n = true) :
    F.firstValued value l = .ok (l.find? fun n => F.valueOf n = value) := by
  induction l with
  | nil => rfl
  | cons n rest ih =>
    have hrest := ih fun m hm => hl m (List.mem_cons_of_mem n hm)
    rw [firstValued, valueAt_eq (hl n (List.mem_cons_self ..)), List.find?_cons]
    show (if F.valueOf n = value then pure (some n) else F.firstValued value rest) = _
    by_cases hvalue : F.valueOf n = value
    · rw [if_pos hvalue, decide_eq_true hvalue]
      rfl
    · rw [if_neg hvalue, decide_eq_false hvalue, hrest]

end Forest

namespace OutlineForest

open Forest

/-- The nodes in the trees below the entries, in the order in which they are looked through. -/
def nodes (O : OutlineForest) : List NodeId :=
  O.entries.flatMap fun entry => (O.forest.shape entry).preorder

/-- `n` is the first node with the value. -/
def IsFirst (O : OutlineForest) (value : String) (n : NodeId) : Prop :=
  ∃ before after, O.nodes = before ++ n :: after ∧ O.forest.valueOf n = value ∧
    ∀ m ∈ before, O.forest.valueOf m ≠ value

variable {O : OutlineForest} (hF : O.forest.WellFormed)
include hF

theorem contains_of_mem_nodes {n : NodeId} (hn : n ∈ O.nodes) : O.forest.contains n = true := by
  obtain ⟨entry, hentry, hn⟩ := List.mem_flatMap.1 hn
  exact hF.contains_of_mem_shape (List.mem_filter.1 hentry).2 hn

theorem IsFirst.contains {value : String} {n : NodeId} (h : O.IsFirst value n) : O.forest.contains n = true := by
  obtain ⟨before, after, hnodes, -⟩ := h
  exact contains_of_mem_nodes hF (hnodes ▸ List.mem_append_right before (List.mem_cons_self ..))

omit hF in
theorem IsFirst.valueOf_eq {value : String} {n : NodeId} (h : O.IsFirst value n) : O.forest.valueOf n = value := by
  obtain ⟨before, after, -, hvalue, -⟩ := h
  exact hvalue

theorem firstBelow_eq (value : String) {l : List NodeId} (hl : ∀ entry ∈ l, O.forest.contains entry = true) :
    O.firstBelow value l
      = .ok ((l.flatMap fun entry => (O.forest.shape entry).preorder).find? fun n => O.forest.valueOf n = value) := by
  induction l with
  | nil => rfl
  | cons entry rest ih =>
    have hentry := hl entry (List.mem_cons_self ..)
    have hrest := ih fun e he => hl e (List.mem_cons_of_mem entry he)
    rw [firstBelow, (preorder_eq hF hentry).1, List.flatMap_cons, List.find?_append]
    show (O.forest.firstValued value (O.forest.shape entry).preorder >>= _) = _
    rw [firstValued_eq value fun n hn => hF.contains_of_mem_shape hentry hn]
    cases hfound : (O.forest.shape entry).preorder.find? fun n => O.forest.valueOf n = value with
    | some n => rfl
    | none => exact hrest

theorem find_eq (value : String) :
    O.find value = (O.nodes.find? fun n => O.forest.valueOf n = value).elim (.error (.valueNotFound value)) .ok := by
  have hfirst : O.firstBelow value O.entries = .ok (O.nodes.find? fun n => O.forest.valueOf n = value) :=
    firstBelow_eq hF value fun entry hentry => (List.mem_filter.1 hentry).2
  unfold find
  rw [hfirst]
  cases O.nodes.find? fun n => O.forest.valueOf n = value <;> rfl

/-- **A lookup finds the first node** that has the value, -/
theorem find_eq_ok_iff {value : String} {n : NodeId} : O.find value = .ok n ↔ O.IsFirst value n := by
  have hfirst : O.IsFirst value n ↔ (O.nodes.find? fun n => O.forest.valueOf n = value) = some n := by
    rw [List.find?_eq_some_iff_append, IsFirst]
    simp only [decide_eq_true_eq, Bool.not_eq_true', decide_eq_false_iff_not]
    grind
  rw [hfirst, find_eq hF]
  cases O.nodes.find? fun n => O.forest.valueOf n = value <;> simp

/-- **and fails exactly if there is none.** -/
theorem find_eq_error_iff {value : String} {p : Problem} :
    O.find value = .error p ↔ (∀ n ∈ O.nodes, O.forest.valueOf n ≠ value) ∧ p = .valueNotFound value := by
  have hnone : (∀ n ∈ O.nodes, O.forest.valueOf n ≠ value) ↔
      (O.nodes.find? fun n => O.forest.valueOf n = value) = none := by
    simp only [List.find?_eq_none, decide_eq_true_eq, ne_eq]
  rw [hnone, find_eq hF]
  cases O.nodes.find? fun n => O.forest.valueOf n = value <;> simp [eq_comm]

omit hF in
theorem pathValues_of_start_error {start : String} {p : Problem} (h : O.find start = .error p) (stop : String) :
    O.pathValues start stop = .error p := by
  rw [pathValues, h]
  rfl

omit hF in
theorem pathValues_of_stop_error {start stop : String} {a : NodeId} {p : Problem} (hstart : O.find start = .ok a)
    (hstop : O.find stop = .error p) : O.pathValues start stop = .error p := by
  rw [pathValues, hstart, hstop]
  rfl

/-- **The path between two values** is the way between the first nodes that have them. -/
theorem pathValues_of_first {start stop : String} {a d : NodeId} (ha : O.IsFirst start a) (hd : O.IsFirst stop d) :
    O.pathValues start stop = if a ∈ O.forest.chain d then .ok ((Walker.pathOf O.forest a d).map O.forest.valueOf)
      else .error (.tree (.notAnAncestor a d)) := by
  have hlive := hd.contains hF
  obtain ⟨node, hnode, hlookup⟩ := lookup_of_contains hlive
  unfold pathValues
  rw [(find_eq_ok_iff hF).2 ha, (find_eq_ok_iff hF).2 hd]
  show Except.mapError Problem.ofFailure (O.forest.lookup d >>= fun _ =>
    O.forest.pathFrom d a >>= (·.mapM O.forest.valueAt)) = _
  rw [hlookup, hF.pathFrom_eq (ha.contains hF) hlive]
  by_cases hup : a ∈ O.forest.chain d
  · have hvalues : (Walker.pathOf O.forest a d).mapM O.forest.valueAt
        = .ok ((Walker.pathOf O.forest a d).map O.forest.valueOf) :=
      mapM_eq_ok fun n hn => valueAt_eq (Walker.contains_of_mem_pathOf hF hlive hup hn)
    rw [if_pos hup, if_pos hup]
    show Except.mapError Problem.ofFailure ((Walker.pathOf O.forest a d).mapM O.forest.valueAt) = _
    rw [hvalues]
    rfl
  · rw [if_neg hup, if_neg hup]
    rfl

/-- If the first of the two nodes is the second or lies above it, the values are those on the path down. -/
theorem pathValues_of_ancestor {start stop : String} {a d : NodeId} (ha : O.IsFirst start a) (hd : O.IsFirst stop d)
    (hup : O.forest.Ancestor a d) :
    ∃ nodes values, O.pathValues start stop = .ok values ∧ O.forest.Leads a d nodes ∧
      nodes.mapM O.forest.value = .ok values ∧ values.head? = some start ∧ values.getLast? = some stop ∧
      values.length = O.forest.levelOf d - O.forest.levelOf a + 1 := by
  have hlive := hd.contains hF
  have hchain := (hF.mem_chain_iff hlive).2 hup
  have hleads := hF.leads_pathOf hlive hup
  have hvalues : (Walker.pathOf O.forest a d).mapM O.forest.value
      = .ok ((Walker.pathOf O.forest a d).map O.forest.valueOf) :=
    mapM_eq_ok fun n hn => value_eq_ok_iff.2 ⟨Walker.contains_of_mem_pathOf hF hlive hchain hn, rfl⟩
  refine ⟨_, _, by rw [pathValues_of_first hF ha hd, if_pos hchain], hleads, hvalues, ?_, ?_, ?_⟩
  · rw [List.head?_map, hleads.head, Option.map_some, ha.valueOf_eq]
  · rw [List.getLast?_map, hleads.last, Option.map_some, hd.valueOf_eq]
  · rw [List.length_map, hF.length_pathOf hlive hup]

/-- There is no other way to fail. -/
theorem pathValues_error_cases {start stop : String} {p : Problem} (hp : O.pathValues start stop = .error p) :
    p = .valueNotFound start ∨ p = .valueNotFound stop ∨ ∃ a d, p = .tree (.notAnAncestor a d) := by
  cases hstart : O.find start with
  | error q =>
    obtain rfl := Except.error.inj ((pathValues_of_start_error hstart stop).symm.trans hp)
    exact .inl ((find_eq_error_iff hF).1 hstart).2
  | ok a =>
    cases hstop : O.find stop with
    | error q =>
      obtain rfl := Except.error.inj ((pathValues_of_stop_error hstart hstop).symm.trans hp)
      exact .inr (.inl ((find_eq_error_iff hF).1 hstop).2)
    | ok d =>
      rw [pathValues_of_first hF ((find_eq_ok_iff hF).1 hstart) ((find_eq_ok_iff hF).1 hstop)] at hp
      split at hp
      · cases hp
      · exact .inr (.inr ⟨a, d, (Except.error.inj hp).symm⟩)

/-- The nodes that are looked through are those that the walks from the entries visit. -/
theorem exists_orders : ∃ orders, O.entries.mapM O.forest.preorder = .ok orders ∧ orders.flatten = O.nodes :=
  ⟨_, mapM_eq_ok fun _ hentry => (preorder_eq hF (List.mem_filter.1 hentry).2).1, (List.flatMap_def ..).symm⟩

theorem value_eq_ok_iff_of_mem_nodes {n : NodeId} (hn : n ∈ O.nodes) {value : String} :
    O.forest.value n = .ok value ↔ O.forest.valueOf n = value := by
  rw [value_eq_ok_iff, and_iff_right (contains_of_mem_nodes hF hn)]

theorem isFirst_iff {value : String} {n : NodeId} :
    O.IsFirst value n ↔ ∃ before after, O.nodes = before ++ n :: after ∧ O.forest.value n = .ok value ∧
      ∀ m ∈ before, O.forest.value m ≠ .ok value := by
  refine exists_congr fun before => exists_congr fun after => and_congr_right fun hnodes => ?_
  have hmem : ∀ m ∈ before ++ n :: after, m ∈ O.nodes := fun m hm => hnodes ▸ hm
  rw [value_eq_ok_iff_of_mem_nodes hF (hmem n (by simp))]
  refine and_congr_right fun _ => forall₂_congr fun m hm => ?_
  rw [Ne, Ne, value_eq_ok_iff_of_mem_nodes hF (hmem m (by simp [hm]))]

omit hF in
/-- **Lookups and paths between values.** A lookup goes through the nodes that the walks in preorder from the entries
    visit, one walk after the other, and finds the first that has the value; it fails only if none has. A path fails
    where one of the lookups does, that of its beginning first, and otherwise only if the node at its beginning is
    neither the one at its end nor above it. What it tells are the values on the way down. -/
theorem lookup_outcome (O : OutlineForest) (hO : O.forest.Reachable) :
    ∃ orders, (O.roots.filter O.forest.contains).mapM O.forest.preorder = .ok orders ∧
      (∀ value n, O.find value = .ok n ↔ ∃ before after, orders.flatten = before ++ n :: after ∧
        O.forest.value n = .ok value ∧ ∀ m ∈ before, O.forest.value m ≠ .ok value) ∧
      (∀ value p, O.find value = .error p ↔
        (∀ n ∈ orders.flatten, O.forest.value n ≠ .ok value) ∧ p = .valueNotFound value) ∧
      ∀ start stop,
        ((∀ n ∈ orders.flatten, O.forest.value n ≠ .ok start) →
          O.pathValues start stop = .error (.valueNotFound start)) ∧
        (∀ a, O.find start = .ok a → (∀ n ∈ orders.flatten, O.forest.value n ≠ .ok stop) →
          O.pathValues start stop = .error (.valueNotFound stop)) ∧
        (∀ a d, O.find start = .ok a → O.find stop = .ok d →
          (O.pathValues start stop = .error (.tree (.notAnAncestor a d)) ↔ ¬ O.forest.Ancestor a d) ∧
          (O.forest.Ancestor a d →
            ∃ nodes values top bottom, O.pathValues start stop = .ok values ∧ O.forest.Leads a d nodes ∧
              nodes.mapM O.forest.value = .ok values ∧ values.head? = some start ∧ values.getLast? = some stop ∧
              O.forest.level a = .ok top ∧ O.forest.level d = .ok bottom ∧ top ≤ bottom ∧
              values.length = bottom - top + 1)) ∧
        ∀ p, O.pathValues start stop = .error p →
          p = .valueNotFound start ∨ p = .valueNotFound stop ∨ ∃ a d, p = .tree (.notAnAncestor a d) := by
  have hF := hO.wellFormed
  obtain ⟨orders, horders, hnodes⟩ := exists_orders hF
  have hnone (value : String) : (∀ n ∈ orders.flatten, O.forest.value n ≠ .ok value) ↔
      ∀ n ∈ O.nodes, O.forest.valueOf n ≠ value := by
    rw [hnodes]
    exact forall₂_congr fun n hn => not_congr (value_eq_ok_iff_of_mem_nodes hF hn)
  refine ⟨orders, horders, ?_, ?_, ?_⟩
  · intro value n
    rw [find_eq_ok_iff hF, isFirst_iff hF, hnodes]
  · intro value p
    rw [find_eq_error_iff hF, hnone]
  intro start stop
  refine ⟨?_, ?_, ?_, ?_⟩
  · intro habsent
    exact pathValues_of_start_error ((find_eq_error_iff hF).2 ⟨(hnone start).1 habsent, rfl⟩) stop
  · intro a ha habsent
    exact pathValues_of_stop_error ha ((find_eq_error_iff hF).2 ⟨(hnone stop).1 habsent, rfl⟩)
  · intro a d ha hd
    rw [find_eq_ok_iff hF] at ha hd
    refine ⟨?_, fun hup => ?_⟩
    · rw [pathValues_of_first hF ha hd, ← hF.mem_chain_iff (hd.contains hF)]
      split <;> simp [*]
    · obtain ⟨nodes, values, hvalues, hleads, hmap, hstart, hstop, hlength⟩ := pathValues_of_ancestor hF ha hd hup
      exact ⟨nodes, values, _, _, hvalues, hleads, hmap, hstart, hstop, hF.level_eq (ha.contains hF),
        hF.level_eq (hd.contains hF), hF.levelOf_le_of_ancestor hup, hlength⟩
  · exact fun p => pathValues_error_cases hF

omit hF in
/-- Entries that are repeated, nested and stale: the lower of two nodes with one value is found, because the entry
    below the upper one comes first. -/
theorem lookup_outcome_of_nested :
    let O : OutlineForest := ⟨(Forest.empty : Forest String).afterAll [.create "a", .create "b", .create "a",
      .add ⟨0, 0⟩ ⟨1, 0⟩, .add ⟨1, 0⟩ ⟨2, 0⟩], [⟨1, 0⟩, ⟨5, 0⟩, ⟨0, 0⟩, ⟨1, 0⟩]⟩
    O.forest.Reachable ∧ O.find "a" = .ok ⟨2, 0⟩ ∧ O.pathValues "b" "a" = .ok ["b", "a"] ∧
      O.pathValues "a" "b" = .error (.tree (.notAnAncestor ⟨2, 0⟩ ⟨1, 0⟩)) ∧
      O.pathValues "c" "d" = .error (.valueNotFound "c") := by
  intro O
  have hO : O.forest.Reachable := ⟨_, rfl⟩
  obtain ⟨orders, horders, hfind, -, hpath⟩ := lookup_outcome O hO
  have hwalks : (O.roots.filter O.forest.contains).mapM O.forest.preorder
      = .ok [[⟨1, 0⟩, ⟨2, 0⟩], [⟨0, 0⟩, ⟨1, 0⟩, ⟨2, 0⟩], [⟨1, 0⟩, ⟨2, 0⟩]] := rfl
  obtain rfl := Except.ok.inj (horders.symm.trans hwalks)
  have ha : O.find "a" = .ok ⟨2, 0⟩ := (hfind "a" ⟨2, 0⟩).2 ⟨[⟨1, 0⟩], _, rfl, rfl, by decide⟩
  have hb : O.find "b" = .ok ⟨1, 0⟩ := (hfind "b" ⟨1, 0⟩).2 ⟨[], _, rfl, rfl, by decide⟩
  have hup : O.forest.Ancestor ⟨1, 0⟩ ⟨2, 0⟩ := ancestor_of_parentOf (by decide)
  have hdown : ¬ O.forest.Ancestor ⟨2, 0⟩ ⟨1, 0⟩ := by
    rw [← hO.wellFormed.mem_chain_iff (by decide)]
    decide
  obtain ⟨nodes, values, _, _, hvalues, -, -, hhead, hlast, htop, hbottom, -, hlength⟩ :=
    ((hpath "b" "a").2.2.1 ⟨1, 0⟩ ⟨2, 0⟩ hb ha).2 hup
  obtain rfl := Except.ok.inj htop
  obtain rfl := Except.ok.inj hbottom
  obtain ⟨first, last, rfl⟩ := List.length_eq_two.1 hlength
  obtain rfl := Option.some.inj hhead
  obtain rfl := Option.some.inj hlast
  exact ⟨hO, ha, hvalues, ((hpath "a" "b").2.2.1 ⟨2, 0⟩ ⟨1, 0⟩ ha hb).1.2 hdown, (hpath "c" "d").1 (by decide)⟩

omit hF in
/-- In a forest that was read every node is looked at. -/
theorem mem_nodes_of_parse {style : OutlineStyle} {text : String} (h : parse style text = .ok O) {n : NodeId}
    (hn : O.forest.contains n = true) : n ∈ O.nodes := by
  have hmem := (wellFormed_of_parse h).mem_flatten_trees_iff.2 hn
  rwa [trees, ← List.flatMap_def, ← entries_of_parse h] at hmem

end OutlineForest

end Grove
