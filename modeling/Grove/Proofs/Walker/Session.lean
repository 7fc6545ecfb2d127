import Grove.Proofs.Walker.Traversal

/-!
# `Proofs.Walker.Session` — walkers over a forest that is edited

A session is a forest and a walker made on it, with steps of the walker and calls on the forest in any order
(`Session.run`). It keeps the walker's answers and counts the structural writes since the walker was made. The
count is one without a bound, and the forest's own counter wraps, so the two agree on whether anything was
written only up to multiples of its size (`generation_eq_iff`).

Before the first structural write the walker goes on as if nothing had happened: a call that counts none changes
neither the links nor what the course has left (`SameLinks.rest_eq`), so the invariant `Session.Good` says how
much of the listing has been handed out. After that nothing is known of the course, but a course knows nothing of
generations either (`Course.notStale_next`): whether a step is refused as stale depends on the stamp alone.
-/

namespace Grove

variable {α : Type} {F G : Forest α}

open Forest

/-! ## What calls without structural writes keep -/

/-- `G` has the nodes of `F` with the same children, and at most single nodes besides. -/
structure SameLinks (F G : Forest α) : Prop where
  wellFormed : G.WellFormed
  childrenOf_eq : G.childrenOf = F.childrenOf
  contains : ∀ n, F.contains n = true → G.contains n = true

namespace SameLinks

theorem refl (hF : F.WellFormed) : SameLinks F F :=
  ⟨hF, rfl, fun _ hn => hn⟩

theorem trans {H : Forest α} (hG : SameLinks F G) (hH : SameLinks G H) : SameLinks F H :=
  ⟨hH.wellFormed, hH.childrenOf_eq.trans hG.childrenOf_eq, fun n hn => hH.contains n (hG.contains n hn)⟩

/-- A call that counts no structural write keeps the links. -/
theorem after (hF : F.WellFormed) {call : Call α} (hcall : call.bumps F = 0) : SameLinks F (F.after call) := by
  obtain ⟨-, hchildren, hlive⟩ := (hcall ▸ hF.effect_after call).links_eq hF
  exact ⟨hF.after call, hchildren, hlive⟩

section

variable (hG : SameLinks F G) (hF : F.WellFormed)

include hG hF

/-- Forests with the same children of every node have the same shapes. -/
theorem shape_eq {n : NodeId} (hn : F.contains n = true) : G.shape n = F.shape n := by
  apply hF.shape_congr hG.wellFormed hn
  · exact fun x hx => hG.contains x (WellFormed.contains_of_ancestor hx hn)
  · exact fun x _ => congrFun hG.childrenOf_eq x

theorem ahead_eq (c : Cursor) : c.ahead G = c.ahead F := by
  rw [Cursor.ahead, Cursor.ahead, hG.childrenOf_eq]
  apply List.map_congr_left
  intro n hn
  exact hG.shape_eq hF (hF.contains_child (List.mem_of_mem_drop hn))

/-- What a course has left depends on the children of the nodes only. -/
theorem rest_eq {course : Course} (h : course.Valid F) : course.rest G = course.rest F := by
  have hahead : Cursor.ahead G = Cursor.ahead F := funext (hG.ahead_eq hF)
  cases course with
  | preorder start stack =>
    simp only [Course.rest, Course.preorderRest, hahead]
    cases start with
    | none => rfl
    | some n => simp [hG.shape_eq hF (h n (List.mem_cons_self ..))]
  | postorder stack => simp only [Course.rest, Course.postorderRest, hahead]
  | breadthFirst start queue =>
    simp only [Course.rest, hahead]
    cases start with
    | none => rfl
    | some n => simp [hG.shape_eq hF (h n (List.mem_cons_self ..))]
  | path l => rfl

end

end SameLinks

/-! ## Courses know no generations -/

namespace Course

/-- The answer is not that a walker is stale. -/
def NotStale {β : Type} (answer : Except Failure β) : Prop :=
  ∀ expected found, answer ≠ .error (.tree (.staleIterator expected found))

theorem notStale_ok {β : Type} (b : β) : NotStale (.ok b) := by
  intro expected found h
  cases h

theorem notStale_lookup (F : Forest α) (n : NodeId) : NotStale (F.lookup n) := by
  intro expected found h
  have hfailure := (lookup_eq_error_iff.1 h).2
  cases hfailure

/-- A failure to find a node stays what it is. -/
theorem notStale_of_lookup {β : Type} {n : NodeId} {failure : Failure} (h : F.lookup n = .error failure) :
    NotStale (.error failure : Except Failure β) := by
  intro expected found heq
  obtain rfl := Except.error.inj heq
  exact notStale_lookup F n expected found h

theorem notStale_of_branches {β : Type} {n : NodeId} {failure : Failure} (h : branches F n = .error failure) :
    NotStale (.error failure : Except Failure β) := by
  unfold branches at h
  cases hlookup : F.lookup n with
  | error cause =>
    rw [hlookup] at h
    obtain rfl := Except.error.inj h
    exact notStale_of_lookup hlookup
  | ok node =>
    rw [hlookup] at h
    cases h

theorem notStale_begin (F : Forest α) (n : NodeId) : NotStale (begin F n).1 := by
  unfold begin
  split
  · exact notStale_of_branches ‹_›
  · exact notStale_ok _
  · exact notStale_ok _

theorem notStale_preorderNext (F : Forest α) (stack : List Cursor) : NotStale (preorderNext F stack).1 := by
  induction stack with
  | nil => exact notStale_ok none
  | cons top rest ih =>
    unfold preorderNext
    split
    · exact notStale_of_lookup ‹_›
    split
    · exact ih
    dsimp only
    split
    · exact notStale_of_branches ‹_›
    · exact notStale_ok _
    · exact notStale_ok _

theorem notStale_breadthFirstNext (F : Forest α) (queue : List Cursor) :
    NotStale (breadthFirstNext F queue).1 := by
  induction queue with
  | nil => exact notStale_ok none
  | cons front rest ih =>
    unfold breadthFirstNext
    split
    · exact notStale_of_lookup ‹_›
    split
    · exact ih
    dsimp only
    split
    · exact notStale_of_branches ‹_›
    · exact notStale_ok _
    · exact notStale_ok _

theorem notStale_postorderNext (F : Forest α) (fuel : Nat) (stack : List Cursor) :
    NotStale (postorderNext F fuel stack).1 := by
  induction fuel generalizing stack with
  | zero =>
    cases stack with
    | nil => exact notStale_ok none
    | cons top rest =>
      unfold postorderNext
      split
      · exact notStale_of_lookup ‹_›
      split
      · exact notStale_ok _
      · intro expected found h
        cases h
  | succ fuel ih =>
    cases stack with
    | nil => exact notStale_ok none
    | cons top rest =>
      unfold postorderNext
      split
      · exact notStale_of_lookup ‹_›
      split
      · exact notStale_ok _
      · exact ih _

theorem notStale_pathNext (F : Forest α) (l : List NodeId) : NotStale (pathNext F l).1 := by
  cases l with
  | nil => exact notStale_ok none
  | cons n rest =>
    simp only [pathNext]
    split
    · exact notStale_of_lookup ‹_›
    · exact notStale_ok _

/-- **A step of a course is never refused as stale**, over whatever forest. -/
theorem notStale_next (F : Forest α) (course : Course) : NotStale (course.next F).1 := by
  unfold next
  split
  · exact notStale_begin F _
  · exact notStale_preorderNext F _
  · exact notStale_postorderNext F F.size _
  · exact notStale_begin F _
  · exact notStale_breadthFirstNext F _
  · exact notStale_pathNext F _

end Course

/-- A step of a walker is refused as stale exactly if the generation is not its stamp. -/
theorem Walker.next_eq_stale_iff (F : Forest α) (w : Walker) (expected found : UInt64) :
    (w.next F).1 = .error (.tree (.staleIterator expected found))
      ↔ expected = w.stamp ∧ found = F.generation ∧ F.generation ≠ w.stamp := by
  by_cases hstamp : F.generation = w.stamp
  · rw [next_of_stamp hstamp.symm]
    constructor
    · exact fun h => absurd h (Course.notStale_next F w.course expected found)
    · exact fun h => absurd hstamp h.2.2
  · rw [next, check, if_neg hstamp]
    simp [hstamp, eq_comm]

/-- The wrapping counter returns after a multiple of its size. -/
theorem generation_eq_iff {g : UInt64} {k : Nat} : g + UInt64.ofNat k = g ↔ UInt64.size ∣ k := by
  rw [UInt64.add_eq_left, UInt64.ofNat_eq_iff_mod_eq_toNat, Nat.dvd_iff_mod_eq_zero]
  rfl

/-! ## Sessions -/

/-- What can happen to a walker: it is stepped, or its forest is edited. -/
inductive Event (α : Type) where
  | step
  | call (call : Call α)

/-- A forest, a walker made on it earlier, the number of structural writes since then and the walker's answers
    so far, the first one first. -/
structure Session (α : Type) where
  forest : Forest α
  walker : Walker
  bumps : Nat
  answers : List (Except Failure (Option NodeId))

namespace Session

/-- The session in which `w` has just been made on `F`. -/
def start (F : Forest α) (w : Walker) : Session α :=
  ⟨F, w, 0, []⟩

/-- What a walker yields next, or why it does not. -/
def answer (s : Session α) : Except Failure (Option NodeId) :=
  (s.walker.next s.forest).1

/-- One event. -/
def next (s : Session α) : Event α → Session α
  | .step => { s with walker := (s.walker.next s.forest).2, answers := s.answers ++ [s.answer] }
  | .call call => { s with forest := s.forest.after call, bumps := s.bumps + call.bumps s.forest }

/-- Events in a row. -/
def run (s : Session α) (events : List (Event α)) : Session α :=
  events.foldl next s

/-- The nodes that the walker has yielded. -/
def yielded (s : Session α) : List NodeId :=
  s.answers.filterMap fun
    | .ok found => found
    | .error _ => none

/-- A session that began when the generation was `g`, with a walker that was to visit `l`. The forest is as calls
    leave it, and the count and the generation agree. Without a structural write, the answers are the nodes of `l`
    in their order, and the walker has the others left. -/
structure Good (g : UInt64) (l : List NodeId) (s : Session α) : Prop where
  reachable : s.forest.Reachable
  stamp : s.walker.stamp = g
  generation : s.forest.generation = g + UInt64.ofNat s.bumps
  valid : s.bumps = 0 → s.walker.course.Valid s.forest
  rest_eq : s.bumps = 0 → s.walker.course.rest s.forest = l.drop s.answers.length
  answers_eq : s.bumps = 0 → s.answers = (List.range s.answers.length).map fun k => .ok l[k]?

theorem good_start {w : Walker} {l : List NodeId} (hF : F.Reachable) (hw : Walker.New F w l) :
    Good F.generation l (start F w) := by
  obtain ⟨hstamp, hvalid, hrest⟩ := hw.rest_eq hF.wellFormed
  exact ⟨hF, hstamp, (UInt64.add_zero _).symm, fun _ => hvalid, fun _ => hrest, fun _ => rfl⟩

variable {g : UInt64} {l : List NodeId} {s : Session α}

/-- Before the first structural write the stamp is the forest's generation. -/
theorem Good.stamp_eq (h : Good g l s) (hbumps : s.bumps = 0) : s.walker.stamp = s.forest.generation := by
  rw [h.stamp, h.generation, hbumps]
  exact (UInt64.add_zero g).symm

/-- **A step keeps a session good.** -/
theorem Good.next_step (h : Good g l s) : Good g l (s.next .step) := by
  -- before the first structural write the step is carried out
  have hstep : s.bumps = 0 → s.answer = .ok l[s.answers.length]?
      ∧ (s.walker.next s.forest).2.course.Valid s.forest
      ∧ (s.walker.next s.forest).2.course.rest s.forest = l.drop (s.answers.length + 1) := by
    intro hbumps
    obtain ⟨w', hnext, -, hvalid, hrest⟩ :=
      Walker.next_eq h.reachable.wellFormed (h.stamp_eq hbumps) (h.valid hbumps)
    rw [answer, hnext]
    refine ⟨?_, hvalid, ?_⟩
    · rw [h.rest_eq hbumps, List.head?_drop]
    · rw [hrest, h.rest_eq hbumps, List.tail_drop]
  refine ⟨h.reachable, (Walker.stamp_next _ _).trans h.stamp, h.generation, ?_, ?_, ?_⟩
  · intro hbumps
    exact (hstep hbumps).2.1
  · intro hbumps
    show (s.walker.next s.forest).2.course.rest s.forest = l.drop (s.answers ++ [s.answer]).length
    rw [List.length_append]
    exact (hstep hbumps).2.2
  · intro hbumps
    have hbefore := h.answers_eq hbumps
    show s.answers ++ [s.answer] = (List.range (s.answers ++ [s.answer]).length).map fun k => .ok l[k]?
    rw [List.length_append, List.length_singleton, List.range_succ, List.map_append, List.map_singleton, ← hbefore,
      (hstep hbumps).1]

/-- **A call keeps a session good.** -/
theorem Good.next_call (h : Good g l s) (call : Call α) : Good g l (s.next (.call call)) := by
  have hF := h.reachable.wellFormed
  have hquiet : s.bumps + call.bumps s.forest = 0 → s.bumps = 0 ∧ call.bumps s.forest = 0 := fun hsum => by omega
  -- a call that counts nothing keeps the children of all nodes, which the course depends on
  refine ⟨h.reachable.after call, h.stamp, ?_, ?_, ?_, ?_⟩
  · show (s.forest.after call).generation = g + UInt64.ofNat (s.bumps + call.bumps s.forest)
    rw [hF.generation_after, h.generation, UInt64.ofNat_add, UInt64.add_assoc]
  · intro hsum n hn
    obtain ⟨hbumps, hcall⟩ := hquiet hsum
    exact (SameLinks.after hF hcall).contains n (h.valid hbumps n hn)
  · intro hsum
    obtain ⟨hbumps, hcall⟩ := hquiet hsum
    exact ((SameLinks.after hF hcall).rest_eq hF (h.valid hbumps)).trans (h.rest_eq hbumps)
  · intro hsum
    exact h.answers_eq (hquiet hsum).1

theorem Good.next (h : Good g l s) (event : Event α) : Good g l (s.next event) := by
  cases event with
  | step => exact h.next_step
  | call call => exact h.next_call call

theorem Good.run (h : Good g l s) (events : List (Event α)) : Good g l (s.run events) := by
  induction events generalizing s with
  | nil => exact h
  | cons event events ih => exact ih (h.next event)

theorem filterMap_getElem?_range {β : Type} (l : List β) (k : Nat) :
    (List.range k).filterMap (l[·]?) = l.take k := by
  induction k with
  | zero => rfl
  | succ k ih =>
    rw [List.range_succ, List.filterMap_append, ih, List.take_add_one]
    cases hk : l[k]? <;> simp [hk]

/-- Without a structural write, as many nodes are yielded as there were steps, until there are no more. -/
theorem Good.yielded_eq (h : Good g l s) (hbumps : s.bumps = 0) : s.yielded = l.take s.answers.length := by
  have hanswers := h.answers_eq hbumps
  rw [yielded, hanswers, List.filterMap_map, List.length_map, List.length_range]
  exact filterMap_getElem?_range l _

theorem run_steps (s : Session α) (k : Nat) :
    (s.run (List.replicate k .step)).bumps = s.bumps
      ∧ (s.run (List.replicate k .step)).answers.length = s.answers.length + k := by
  induction k generalizing s with
  | zero => exact ⟨rfl, rfl⟩
  | succ k ih =>
    obtain ⟨hbumps, hlength⟩ := ih (s.next .step)
    refine ⟨hbumps, hlength.trans ?_⟩
    simp only [next, List.length_append, List.length_singleton]
    omega

/-- **Walkers over a forest that is edited**, whatever events happen in whatever order. A step is refused as stale
    exactly if the number of structural writes since the walker was made is no multiple of the counter's size, and
    tells both generations. Before the first of these writes the walker has yielded its nodes in their order from
    the first one on, and with enough further steps yields them all. Each call that changes a link or gives up a
    node counts a structural write, and the calls that count none are the quiet ones. -/
theorem answers_of_run (hF : F.Reachable) {w : Walker} (hw : Walker.New F w l) (events : List (Event α)) :
    let s := (start F w).run events
    (∀ expected found, s.answer = .error (.tree (.staleIterator expected found))
      ↔ expected = F.generation ∧ found = s.forest.generation ∧ ¬ UInt64.size ∣ s.bumps) ∧
    (s.bumps = 0 → (s.answers = (List.range s.answers.length).map fun k => .ok l[k]?) ∧ s.yielded <+: l
      ∧ ∀ k, l.length ≤ k → (s.run (List.replicate k .step)).yielded = l) ∧
    ∀ call, (call.bumps s.forest = 0 ↔ call.Quiet s.forest)
      ∧ (s.forest.after call).generation = s.forest.generation + UInt64.ofNat (call.bumps s.forest)
      ∧ ∀ n, ((s.forest.after call).parentOf n ≠ s.forest.parentOf n
          ∨ (s.forest.after call).childrenOf n ≠ s.forest.childrenOf n
          ∨ s.forest.contains n = true ∧ (s.forest.after call).contains n = false)
        → 0 < call.bumps s.forest := by
  intro s
  have h : Good F.generation l s := (good_start hF hw).run events
  have hwf := h.reachable.wellFormed
  refine ⟨?_, ?_, fun call => ⟨Call.bumps_eq_zero_iff, hwf.generation_after call, fun n => hwf.bumps_pos⟩⟩
  · intro expected found
    have hgeneration : s.forest.generation ≠ F.generation ↔ ¬ UInt64.size ∣ s.bumps := by
      rw [h.generation, Ne, generation_eq_iff]
    rw [answer, Walker.next_eq_stale_iff, h.stamp, hgeneration]
  · intro hbumps
    refine ⟨h.answers_eq hbumps, ?_, ?_⟩
    · rw [h.yielded_eq hbumps]
      exact List.take_prefix _ _
    · -- further steps count no structural write, and each of them is answered
      intro k hk
      obtain ⟨hbumps', hlength⟩ := s.run_steps k
      rw [(h.run _).yielded_eq (hbumps'.trans hbumps), List.take_of_length_le (by omega)]

theorem answers_of_run_of_pair :
    let F := (empty : Forest Nat).afterAll [.create 7, .create 8, .add ⟨0, 0⟩ ⟨1, 0⟩]
    let s := (start F ⟨1, .preorder (some ⟨0, 0⟩) []⟩).run [.step, .call (.setValue ⟨0, 0⟩ 6)]
    let t := (start F ⟨1, .preorder (some ⟨0, 0⟩) []⟩).run [.step, .call (.detach ⟨1, 0⟩)]
    F.Reachable ∧ Walker.New F ⟨1, .preorder (some ⟨0, 0⟩) []⟩ [⟨0, 0⟩, ⟨1, 0⟩]
      ∧ s.yielded <+: [⟨0, 0⟩, ⟨1, 0⟩] ∧ t.answer = .error (.tree (.staleIterator 1 2)) := by
  intro F s t
  have hF : F.Reachable := ⟨_, rfl⟩
  have hmade : Walker.preorder F ⟨0, 0⟩ = .ok ⟨1, .preorder (some ⟨0, 0⟩) []⟩ :=
    Walker.preorder_eq_ok_iff.2 ⟨by decide, by decide⟩
  have hw : Walker.New F ⟨1, .preorder (some ⟨0, 0⟩) []⟩ [⟨0, 0⟩, ⟨1, 0⟩] := .preorder hmade
  refine ⟨hF, hw, ?_, ?_⟩
  · exact ((answers_of_run hF hw _).2.1 (by decide)).2.1
  · exact ((answers_of_run hF hw _).1 1 2).2 ⟨by decide, by decide, by decide⟩

end Session

end Grove
