import Grove.Tree.Drawing
import Grove.Proofs.Tree.Listing

/-!
# `Proofs.Tree.Levels` — trees as lists with levels

`levelled k` lists the values of a tree in preorder, each with its level, the top being on level `k`. This is
what an outline shows of a tree line by line (`outlineLines_eq`), and nothing of the tree is lost in it
(`eq_of_flatMap_levelled`): what stands below the first top are the values up to the next one on its level.
-/

namespace Grove.Tree

variable {α β : Type}

/-! ## Values replaced -/

mutual

/-- The tree with its values replaced by their images. -/
def map (f : α → β) : Tree α → Tree β
  | node v ts => node (f v) (mapAll f ts)

/-- The trees of a row with their values replaced. -/
def mapAll (f : α → β) : List (Tree α) → List (Tree β)
  | [] => []
  | t :: rest => map f t :: mapAll f rest

end

theorem mapAll_eq (f : α → β) (ts : List (Tree α)) : mapAll f ts = ts.map (map f) := by
  induction ts with
  | nil => rfl
  | cons t rest ih => rw [mapAll, ih, List.map_cons]

@[simp] theorem map_node (f : α → β) (v : α) (ts : List (Tree α)) :
    (node v ts).map f = node (f v) (ts.map (map f)) := by
  rw [map, mapAll_eq]

/-! ## Levels -/

mutual

/-- The values of a tree in preorder with their levels, the top on level `k`. -/
def levelled (k : Nat) : Tree α → List (Nat × α)
  | node v ts => (k, v) :: levelledOfAll (k + 1) ts

/-- The same for trees in a row, all tops on level `k`. -/
def levelledOfAll (k : Nat) : List (Tree α) → List (Nat × α)
  | [] => []
  | t :: rest => levelled k t ++ levelledOfAll k rest

end

theorem levelledOfAll_eq (k : Nat) (ts : List (Tree α)) : levelledOfAll k ts = ts.flatMap (levelled k) := by
  induction ts with
  | nil => rfl
  | cons t rest ih => rw [levelledOfAll, ih, List.flatMap_cons]

@[simp] theorem levelled_node (k : Nat) (v : α) (ts : List (Tree α)) :
    (node v ts).levelled k = (k, v) :: ts.flatMap (levelled (k + 1)) := by
  rw [levelled, levelledOfAll_eq]

theorem levelled_map (f : α → β) (k : Nat) (t : Tree α) :
    (t.map f).levelled k = (t.levelled k).map fun x => (x.1, f x.2) := by
  induction t generalizing k with
  | node v ts ih =>
    rw [map_node, levelled_node, levelled_node, List.map_cons, List.flatMap_map, List.map_flatMap]
    congr 1
    exact List.flatMap_congr fun t ht => ih t ht (k + 1)

theorem map_snd_levelled (k : Nat) (t : Tree α) : (t.levelled k).map Prod.snd = t.preorder := by
  induction t generalizing k with
  | node v ts ih =>
    rw [levelled_node, preorder_node, List.map_cons, List.map_flatMap]
    congr 1
    exact List.flatMap_congr fun t ht => ih t ht (k + 1)

/-- Levels may be counted from any level above the top. -/
theorem Graded.sub {level : α → Nat} {j k : Nat} {t : Tree α} (h : Graded level (j + k) t) :
    Graded (fun x => level x - j) k t := by
  induction t generalizing k with
  | node v ts ih =>
    cases h with
    | node htop hbelow => exact .node (by omega) fun t ht => ih t ht (hbelow t ht)

/-- Where the levels are known beforehand, they are those of the nodes in preorder. -/
theorem Graded.levelled_eq {level : α → Nat} {k : Nat} {t : Tree α} (h : Graded level k t) :
    t.levelled k = t.preorder.map fun x => (level x, x) := by
  induction t generalizing k with
  | node v ts ih =>
    cases h with
    | node htop hbelow =>
      rw [levelled_node, preorder_node, List.map_cons, List.map_flatMap, htop]
      congr 1
      exact List.flatMap_congr fun t ht => ih t ht (hbelow t ht)

theorem le_of_mem_levelled {k : Nat} {t : Tree α} {x : Nat × α} (hx : x ∈ t.levelled k) : k ≤ x.1 := by
  induction t generalizing k with
  | node v ts ih =>
    rw [levelled_node, List.mem_cons, List.mem_flatMap] at hx
    rcases hx with rfl | ⟨t, ht, hx⟩
    · exact Nat.le_refl k
    · exact Nat.le_of_succ_le (ih t ht hx)

/-- The top of a row comes first, on the level of all tops. -/
theorem head?_flatMap_levelled (k : Nat) (ts : List (Tree α)) :
    ∀ x ∈ (ts.flatMap (levelled k)).head?, x.1 = k := by
  cases ts with
  | nil => simp
  | cons t rest =>
    obtain ⟨v, us⟩ := t
    simp

/-- What stands below the first top are the values before the next one that is as high up. -/
theorem takeWhile_levelled (k : Nat) (ts us : List (Tree α)) :
    (ts.flatMap (levelled (k + 1)) ++ us.flatMap (levelled k)).takeWhile (k < ·.1)
      = ts.flatMap (levelled (k + 1)) := by
  have hbelow : ∀ x ∈ ts.flatMap (levelled (k + 1)), decide (k < x.1) = true := by
    intro x hx
    obtain ⟨t, -, hxt⟩ := List.mem_flatMap.1 hx
    exact decide_eq_true (le_of_mem_levelled hxt)
  have hnext : (us.flatMap (levelled k)).takeWhile (k < ·.1) = [] := by
    have hhead := head?_flatMap_levelled k us
    cases hlist : us.flatMap (levelled k) with
    | nil => rfl
    | cons x l =>
      rw [hlist] at hhead
      have hx : x.1 = k := hhead x rfl
      simp [hx]
  rw [List.takeWhile_append_of_pos hbelow, hnext, List.append_nil]

/-- **Levels and values determine the trees.** -/
theorem eq_of_flatMap_levelled {k : Nat} {ts us : List (Tree α)}
    (h : ts.flatMap (levelled k) = us.flatMap (levelled k)) : ts = us := by
  -- a list of values is shorter below its first top and after it, so both parts are determined
  induction hsize : (ts.flatMap (levelled k)).length using Nat.strong_induction_on generalizing k ts us with
  | _ size ih =>
    cases ts with
    | nil =>
      cases us with
      | nil => rfl
      | cons u us =>
        obtain ⟨w, vs⟩ := u
        simp at h
    | cons t ts =>
      obtain ⟨v, below⟩ := t
      cases us with
      | nil => simp at h
      | cons u us =>
        obtain ⟨w, below'⟩ := u
        rw [List.flatMap_cons, List.length_append, levelled_node, List.length_cons] at hsize
        rw [List.flatMap_cons, List.flatMap_cons, levelled_node, levelled_node, List.cons_append,
          List.cons_append] at h
        obtain ⟨htop, hrest⟩ := List.cons.inj h
        obtain rfl : v = w := congrArg Prod.snd htop
        have hbelow : below.flatMap (levelled (k + 1)) = below'.flatMap (levelled (k + 1)) := by
          rw [← takeWhile_levelled k below ts, hrest, takeWhile_levelled]
        have hafter : ts.flatMap (levelled k) = us.flatMap (levelled k) := by
          rw [hbelow] at hrest
          exact List.append_cancel_left hrest
        rw [ih _ (by omega) hbelow rfl, ih _ (by omega) hafter rfl]

/-- Each level is at most one below the one before it, and the first at most `k`. -/
def Stepwise : Nat → List (Nat × α) → Prop
  | _, [] => True
  | k, x :: rest => x.1 ≤ k ∧ Stepwise (x.1 + 1) rest

/-- Listing a tree goes down one level at a time, and what may follow its top may follow all of it. -/
theorem stepwise_levelled {j k : Nat} (hjk : j ≤ k) {t : Tree α} {rest : List (Nat × α)}
    (hrest : ∀ i, j < i → Stepwise i rest) : Stepwise k (t.levelled j ++ rest) := by
  induction t generalizing j k rest with
  | node v ts ih =>
    -- the subtrees are taken from the right, so that what follows one of them is known already
    have hbelow : ∀ i, j < i → Stepwise i (ts.flatMap (levelled (j + 1)) ++ rest) := by
      clear hjk k
      induction ts with
      | nil => exact hrest
      | cons t ts ihts =>
        intro i hi
        have hafter := ihts fun u hu => ih u (List.mem_cons_of_mem _ hu)
        rw [List.flatMap_cons, List.append_assoc]
        exact ih t (List.mem_cons_self ..) hi fun m hm => hafter m (Nat.lt_of_succ_lt hm)
    rw [levelled_node, List.cons_append]
    exact ⟨hjk, hbelow (j + 1) (Nat.lt_succ_self j)⟩

/-- So does listing trees in a row. -/
theorem stepwise_flatMap_levelled (k : Nat) (ts : List (Tree α)) : Stepwise k (ts.flatMap (levelled 0)) := by
  induction ts generalizing k with
  | nil => trivial
  | cons t ts ih => exact stepwise_levelled (Nat.zero_le k) fun i _ => ih i

/-! ## Outlines -/

theorem outlineLinesOfAll_eq_mapM (style : OutlineStyle) (k : Nat) (ts : List (Tree String))
    (h : ∀ t ∈ ts, t.outlineLines style k = (t.levelled k).mapM fun x => style.line x.1 x.2) :
    outlineLinesOfAll style k ts = (ts.flatMap (levelled k)).mapM fun x => style.line x.1 x.2 := by
  induction ts with
  | nil => rfl
  | cons t rest ih =>
    have hrest := ih fun u hu => h u (List.mem_cons_of_mem _ hu)
    rw [outlineLinesOfAll, h t (List.mem_cons_self ..), hrest, List.flatMap_cons, List.mapM_append]

/-- **An outline shows the levels and the values**, one line for each. -/
theorem outlineLines_eq_mapM (style : OutlineStyle) (k : Nat) (t : Tree String) :
    t.outlineLines style k = (t.levelled k).mapM fun x => style.line x.1 x.2 := by
  induction t generalizing k with
  | node v ts ih =>
    rw [outlineLines, outlineLinesOfAll_eq_mapM style (k + 1) ts fun t ht => ih t ht (k + 1), levelled_node,
      List.mapM_cons]

end Grove.Tree
