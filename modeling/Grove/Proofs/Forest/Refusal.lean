import Grove.Proofs.Forest.Names

/-!
# `Proofs.Forest.Refusal` — a call that is refused leaves no trace

An edit may fail with part of its writes done, and then hands back the forest as it stood. On a well-formed forest
none does: it *settles*, that is, it is carried out, or refused with an error for the caller and with the forest
as it was (`WellFormed.settles_edit`). So a refused call can be left out of any run (`refused_unchanged`).

For the calls that are made of smaller edits, some of which are called after the first write, this is the same as
saying that nothing fails once the given name is found: taking all children goes on to the first one
(`WellFormed.exists_removeFirst`), and once a subtree is cut its release goes to the end
(`WellFormed.exists_releaseAll`).
-/

namespace Grove.Forest

variable {α β : Type} {F G : Forest α}

/-! ## Settled edits -/

/-- What an edit of `F` came to is a success, or an error for the caller that leaves `F` as it is. -/
def Settled (F : Forest α) (r : EStateM.Result Failure (Forest α) β) : Prop :=
  ∀ failure G, r = .error failure G → G = F ∧ ∃ error, failure = .tree error

theorem settled_ok (b : β) (G : Forest α) : F.Settled (.ok b G : EStateM.Result Failure _ _) := nofun

theorem settled_error (error : TreeError) :
    F.Settled (.error (.tree error) F : EStateM.Result Failure (Forest α) β) := by
  intro failure G h
  cases h
  exact ⟨rfl, error, rfl⟩

/-- A check that hands back the forest as it is, before what settles. -/
theorem settled_check {p : Prop} [Decidable p] {error : TreeError}
    {r : EStateM.Result Failure (Forest α) β} (hr : F.Settled r) :
    F.Settled (if p then .error (.tree error) F else r) := by
  split
  · exact settled_error error
  · exact hr

/-- A call settles with the edit that it asks for. -/
theorem settled_of_edit (call : Call α) {m : Edit α β} (hedit : call.edit = Functor.discard m)
    (h : F.Settled (m F)) : F.Settled (call.edit F) :=
  fun failure G hfail => h failure G ((edit_eq_error_iff call hedit).1 hfail)

/-- A change of one node settles with the lookup. -/
theorem settled_update {m : Edit α β} {n : NodeId} {answer : Node α → β} {next : Node α → Forest α}
    (h : m F = match F.get? n with
      | none => .error (.tree (.nodeNotFound n)) F
      | some node => .ok (answer node) (next node)) : F.Settled (m F) := by
  rw [h]
  cases F.get? n with
  | none => exact settled_error _
  | some node => exact settled_ok _ _

/-- An edit that fails at its first check only. -/
theorem error_iff_of_check {n : NodeId} {failure : Failure} {r : EStateM.Result Failure (Forest α) β}
    (hr : ∀ failure G, r ≠ .error failure G) :
    (if F.contains n = false then .error (.tree (.nodeNotFound n)) F else r) = .error failure G
      ↔ F.contains n = false ∧ failure = .tree (.nodeNotFound n) ∧ G = F := by
  by_cases hn : F.contains n = false
  · simp [hn, eq_comm]
  · simp [hn, hr]

namespace WellFormed

/-- **Every call settles.** -/
theorem settled_edit (hF : F.WellFormed) (call : Call α) : F.Settled (call.edit F) := by
  cases call with
  | create v => exact settled_of_edit _ rfl (settled_ok _ _)
  | setValue n v => exact settled_of_edit _ rfl (settled_update (setValue_eq n v))
  | modifyValue n f => exact settled_of_edit _ rfl (settled_update (modifyValue_eq n f))
  | insert p i c =>
    refine settled_of_edit _ rfl ?_
    rw [hF.insert_eq]
    exact settled_check (settled_check (settled_check (settled_check (settled_ok _ _))))
  | add p c =>
    refine settled_of_edit _ rfl ?_
    rw [hF.add_eq]
    exact settled_check (settled_check (settled_check (settled_ok _ _)))
  | removeAt p i =>
    refine settled_of_edit _ rfl ?_
    rw [hF.removeAt_eq]
    refine settled_check ?_
    cases (F.childrenOf p)[i]? with
    | none => exact settled_error _
    | some c => exact settled_ok _ _
  | removeChild p c =>
    refine settled_of_edit _ rfl ?_
    rw [hF.removeChild_eq]
    refine settled_check (settled_check ?_)
    split
    · exact settled_ok _ _
    · exact settled_error _
  | removeAll p =>
    refine settled_of_edit _ rfl ?_
    rw [hF.removeAll_eq]
    exact settled_check (settled_ok _ _)
  | detach n =>
    refine settled_of_edit _ rfl ?_
    rw [hF.detach_eq]
    refine settled_check ?_
    split <;> exact settled_ok _ _
  | discard n =>
    refine settled_of_edit _ rfl ?_
    rw [hF.discard_eq]
    refine settled_check ?_
    split <;> exact settled_ok _ _

/-! ## Calls made of smaller edits -/

/-- Once a node is found, all its children are taken. -/
theorem exists_removeFirst (hF : F.WellFormed) {p : NodeId} {node : Node α} (hp : F.get? p = some node) :
    ∃ G, removeFirst p node.children.length [] F = .ok node.children G := by
  have h := hF.removeFirst_eq (contains_of_get? hp) (F.childrenOf p).length [] (Nat.le_refl _)
  rw [List.take_length, List.append_nil, childrenOf_of_get? hp] at h
  exact ⟨_, h⟩

/-- Once a node is without a parent, its subtree is released to the end. -/
theorem exists_releaseAll (hF : F.WellFormed) {n : NodeId} (h : detach n F = .ok () G) :
    ∃ released H, releaseAll G.size [n] 0 G = .ok released H := by
  rw [hF.detach_eq] at h
  by_cases hn : F.contains n = false
  · rw [if_pos hn] at h
    cases h
  rw [if_neg hn] at h
  rw [Bool.not_eq_false] at hn
  by_cases hroot : F.parentOf n = none
  · rw [if_pos hroot] at h
    cases h
    exact ⟨_, _, hF.releaseAll_of_root hn⟩
  · rw [if_neg hroot] at h
    cases h
    exact ⟨_, _, (hF.cut n).bumped.releaseAll_of_root (by simpa using hn)⟩

theorem removeAll_eq_error_iff (hF : F.WellFormed) (p : NodeId) (failure : Failure) :
    removeAll p F = .error failure G ↔ F.contains p = false ∧ failure = .tree (.nodeNotFound p) ∧ G = F := by
  rw [hF.removeAll_eq]
  exact error_iff_of_check nofun

theorem detach_eq_error_iff (hF : F.WellFormed) (n : NodeId) (failure : Failure) :
    detach n F = .error failure G ↔ F.contains n = false ∧ failure = .tree (.nodeNotFound n) ∧ G = F := by
  rw [hF.detach_eq]
  refine error_iff_of_check fun _ _ => ?_
  split <;> nofun

theorem discard_eq_error_iff (hF : F.WellFormed) (n : NodeId) (failure : Failure) :
    discard n F = .error failure G ↔ F.contains n = false ∧ failure = .tree (.nodeNotFound n) ∧ G = F := by
  rw [hF.discard_eq]
  refine error_iff_of_check fun _ _ => ?_
  split <;> nofun

end WellFormed

/-- **A refused call leaves no trace.** Whatever a call is given, if it ends with a failure then the failure is an
    error for the caller, the forest is the one it was, in every part, and any run goes on as it would have gone
    without the call; so the nodes made later get the same names too.

    Taking all children, taking a node from its parent and giving up a subtree fail only if the one name they are
    given does not resolve: behind this check the loop over the children and the release of the subtree, which
    write step by step, go through. -/
theorem refused_unchanged (hF : F.Reachable) :
    (∀ (call : Call α) failure G, call.edit F = .error failure G →
      G = F ∧ (∃ error, failure = .tree error) ∧ ∀ calls, F.afterAll (call :: calls) = F.afterAll calls) ∧
    (∀ p failure G, removeAll p F = .error failure G
      ↔ F.contains p = false ∧ failure = .tree (.nodeNotFound p) ∧ G = F) ∧
    (∀ p node, F.get? p = some node → ∃ G, removeFirst p node.children.length [] F = .ok node.children G) ∧
    (∀ n failure G, detach n F = .error failure G
      ↔ F.contains n = false ∧ failure = .tree (.nodeNotFound n) ∧ G = F) ∧
    (∀ n failure G, discard n F = .error failure G
      ↔ F.contains n = false ∧ failure = .tree (.nodeNotFound n) ∧ G = F) ∧
    ∀ n G, detach n F = .ok () G → ∃ released H, releaseAll G.size [n] 0 G = .ok released H := by
  have hF := hF.wellFormed
  refine ⟨?_, fun p failure G => hF.removeAll_eq_error_iff p failure, fun p node hp => hF.exists_removeFirst hp,
    fun n failure G => hF.detach_eq_error_iff n failure, fun n failure G => hF.discard_eq_error_iff n failure,
    fun n G h => hF.exists_releaseAll h⟩
  intro call failure G h
  obtain ⟨rfl, herror⟩ := hF.settled_edit call failure G h
  refine ⟨rfl, herror, fun calls => ?_⟩
  rw [afterAll, List.foldl_cons, after, h, afterAll]

/-- On a chain of two nodes: the upper one cannot go under the lower, and there is no second child to take. -/
theorem refused_unchanged_of_pair :
    let F : Forest Nat := empty.afterAll [.create 1, .create 2, .add ⟨0, 0⟩ ⟨1, 0⟩]
    F.Reachable ∧
      F.afterAll [.add ⟨1, 0⟩ ⟨0, 0⟩, .create 3] = F.afterAll [.create 3] ∧
      F.afterAll [.removeAt ⟨0, 0⟩ 1] = F ∧
      ∃ released G, releaseAll F.size [⟨0, 0⟩] 0 F = .ok released G := by
  intro F
  have hF : F.Reachable := ⟨_, rfl⟩
  have h := refused_unchanged hF
  refine ⟨hF, ?_, ?_, h.2.2.2.2.2 ⟨0, 0⟩ F rfl⟩
  · exact (h.1 (.add ⟨1, 0⟩ ⟨0, 0⟩) _ F rfl).2.2 [.create 3]
  · exact (h.1 (.removeAt ⟨0, 0⟩ 1) _ F rfl).2.2 []

end Grove.Forest
