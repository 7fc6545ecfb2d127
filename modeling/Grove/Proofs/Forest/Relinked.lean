import Grove.Proofs.Forest.Edits

/-!
# `Proofs.Forest.Relinked` — what linking leaves alone

Placing and taking away are made of questions, of updates that touch links only, and of counting. Whether such an
edit is carried out or fails at any of its steps, each node is still in its slot under its name, with its value, and
the arena's bookkeeping is what it was (`Relinked`). This needs no well-formed forest: it is a property of the steps
(`Relinks`), and sequences of edits have it as soon as their parts do (`Relinks.bind`).
-/

namespace Grove.Forest

variable {α β γ : Type} {F G H : Forest α}

open Edit

/-! ## Forests that differ in their links -/

/-- `G` is `F` with other links. -/
def Relinked (F G : Forest α) : Prop :=
  ∃ f : NodeId → Node α → Node α, (∀ n node, (f n node).value = node.value) ∧ G.nodes = F.nodes.mapNamed f

namespace Relinked

theorem refl (F : Forest α) : Relinked F F :=
  ⟨fun _ node => node, fun _ _ => rfl, (Arena.mapNamed_eq_self fun _ _ _ => rfl).symm⟩

theorem trans (h : Relinked F G) (h' : Relinked G H) : Relinked F H := by
  obtain ⟨f, hf, hG⟩ := h
  obtain ⟨g, hg, hH⟩ := h'
  refine ⟨fun n node => g n (f n node), fun n node => (hg n _).trans (hf n node), ?_⟩
  rw [hH, hG, Arena.mapNamed_mapNamed]

theorem rewire {f : NodeId → Node α → Node α} (hf : ∀ n node, (f n node).value = node.value) :
    Relinked F (F.rewire f) :=
  ⟨f, hf, rfl⟩

theorem bumped (h : Relinked F G) : Relinked F G.bumped :=
  h

theorem cut (c : NodeId) (F : Forest α) : Relinked F (F.cut c) :=
  .rewire fun _ _ => rfl

theorem graft (p : NodeId) (i : Nat) (c : NodeId) (F : Forest α) : Relinked F (F.graft p i c) :=
  .rewire fun _ _ => rfl

variable (h : Relinked F G)

include h

theorem value_eq (n : NodeId) : (G.get? n).map Node.value = (F.get? n).map Node.value := by
  obtain ⟨f, hf, hG⟩ := h
  show (G.nodes.get? n).map Node.value = (F.nodes.get? n).map Node.value
  rw [hG, Arena.get?_mapNamed, Option.map_map]
  congr 1
  exact funext (hf n)

theorem contains_eq (n : NodeId) : G.contains n = F.contains n := by
  obtain ⟨f, -, hG⟩ := h
  show G.nodes.contains n = F.nodes.contains n
  rw [hG, Arena.contains_mapNamed]

theorem size_eq : G.size = F.size := by
  obtain ⟨f, -, hG⟩ := h
  rw [size, size, hG, Arena.size_mapNamed]

theorem compact (hF : F.nodes.Compact) : G.nodes.Compact := by
  obtain ⟨f, -, hG⟩ := h
  rw [hG]
  exact hF.mapNamed f

end Relinked

/-! ## Edits that touch links only -/

namespace Edit

/-- The forest that an edit ends with, carried out or not. -/
def final (m : Edit α β) (F : Forest α) : Forest α :=
  match m F with
  | .ok _ G => G
  | .error _ G => G

theorem final_of_ok {m : Edit α β} {b : β} (h : m F = .ok b G) : m.final F = G := by
  rw [final, h]

/-- However it ends, the edit has touched links only. -/
def Relinks (m : Edit α β) : Prop :=
  ∀ F, Relinked F (m.final F)

namespace Relinks

theorem pure (b : β) : Relinks (pure b : Edit α β) :=
  Relinked.refl

theorem throw (failure : Failure) : Relinks (throw failure : Edit α β) :=
  Relinked.refl

theorem bump : Relinks (bump : Edit α Unit) :=
  Relinked.refl

theorem read (question : Forest α → Except Failure β) : Relinks (read question) := by
  intro F
  cases h : question F with
  | ok answer =>
    rw [final_of_ok (read_of_ok h)]
    exact .refl F
  | error failure =>
    rw [final, read_of_error h]
    exact .refl F

/-- An update that keeps the value of the node. -/
theorem update (n : NodeId) {f : Node α → Node α} (hf : ∀ node, (f node).value = node.value) :
    Relinks (update n f) := by
  intro F
  by_cases hn : F.contains n = true
  · rw [final_of_ok (update_eq f hn)]
    refine ⟨fun m node => if m = n then f node else node, fun m node => ?_, rfl⟩
    show (if m = n then f node else node).value = node.value
    split
    · exact hf node
    · rfl
  · have hnone := get?_eq_none_iff.2 (Bool.not_eq_true _ ▸ hn)
    rw [final, Edit.update, hnone]
    exact .refl F

theorem bind {m : Edit α β} {k : β → Edit α γ} (hm : m.Relinks) (hk : ∀ b, (k b).Relinks) :
    Relinks (m >>= k) := by
  intro F
  have hfirst := hm F
  unfold final at hfirst
  cases h : m F with
  | ok b G =>
    rw [h] at hfirst
    have hrest : (m >>= k).final F = (k b).final G := by simp only [final, bind_of_ok h]
    rw [hrest]
    exact hfirst.trans (hk b G)
  | error failure G =>
    rw [h] at hfirst
    have hrest : (m >>= k).final F = G := by simp only [final, bind_of_error h]
    rw [hrest]
    exact hfirst

/-- A check that stops the edit if it fails. -/
theorem check {p : Prop} [Decidable p] {failure : Failure} {k : Unit → Edit α γ} (hk : ∀ u, (k u).Relinks) :
    Relinks (if p then MonadExcept.throw failure >>= k else k ()) := by
  split
  · exact .bind (.throw _) hk
  · exact hk ()

end Relinks

end Edit

/-! ## Placing and taking away -/

theorem relinks_strike (p c : NodeId) : Relinks (strike p c : Edit α Unit) := by
  unfold strike
  refine .bind (.read _) fun node => ?_
  split
  · exact .update _ fun _ => rfl
  · exact .throw _

theorem relinks_enlist (p : NodeId) (i : Nat) (c : NodeId) : Relinks (enlist p i c : Edit α Unit) := by
  unfold enlist
  exact .bind (.read _) fun _ => .check fun _ => .update _ fun _ => rfl

theorem relinks_insert (p : NodeId) (i : Nat) (c : NodeId) : Relinks (insert p i c : Edit α Unit) := by
  unfold insert
  refine .bind (.read _) fun _ => .bind (.read _) fun moved => .bind (.read _) fun _ => .check fun _ => ?_
  refine .bind (.read _) fun _ => .check fun _ => ?_
  have hplace : Relinks (do
      enlist p i c
      update c fun node => { node with parent := some p }
      bump : Edit α Unit) :=
    .bind (relinks_enlist p i c) fun _ => .bind (.update _ fun _ => rfl) fun _ => .bump
  cases moved.parent with
  | none => exact hplace
  | some old => exact .bind (relinks_strike old c) fun _ => hplace

theorem relinks_add (p c : NodeId) : Relinks (add p c : Edit α Unit) := by
  unfold add
  exact .bind (.read _) fun _ => .bind (.read _) fun _ => .bind (.read _) fun _ => relinks_insert _ _ _

theorem relinks_removeAt (p : NodeId) (i : Nat) : Relinks (removeAt p i : Edit α NodeId) := by
  unfold removeAt
  refine .bind (.read _) fun node => ?_
  split
  · exact .throw _
  · exact .bind (.update _ fun _ => rfl) fun _ => .bind (.update _ fun _ => rfl) fun _ => .bind .bump fun _ => .pure _

theorem relinks_removeChild (p c : NodeId) : Relinks (removeChild p c : Edit α Unit) := by
  unfold removeChild
  refine .bind (.read _) fun _ => .bind (.read _) fun node => ?_
  split
  · exact .throw _
  · exact .bind (relinks_removeAt _ _) fun _ => .pure _

theorem relinks_removeFirst (p : NodeId) (count : Nat) (taken : List NodeId) :
    Relinks (removeFirst p count taken : Edit α (List NodeId)) := by
  induction count generalizing taken with
  | zero => exact .pure _
  | succ count ih => exact .bind (relinks_removeAt _ _) fun child => ih (child :: taken)

theorem relinks_removeAll (p : NodeId) : Relinks (removeAll p : Edit α (List NodeId)) := by
  unfold removeAll
  exact .bind (.read _) fun _ => relinks_removeFirst _ _ _

theorem relinks_detach (n : NodeId) : Relinks (detach n : Edit α Unit) := by
  unfold detach
  refine .bind (.read _) fun node => ?_
  cases node.parent with
  | none => exact .pure _
  | some p => exact relinks_removeChild p n

end Grove.Forest
