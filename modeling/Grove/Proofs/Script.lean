import Grove.Outline.Inspection
import Grove.Proofs.Forest.Ancestry
import Grove.Proofs.Forest.Order
import Grove.Proofs.Forest.Partition
import Grove.Proofs.Forest.Refusal

/-!
# `Proofs.Script` — no script runs into a breach

A script is a sequence of requests to any number of forests and walkers (`World.run`). Names are not tied to the
forest that they come from, nor walkers to the forest that they were made on: each request may be given any of
them.

Breaches stand for what the code takes for granted and does not check for its caller, such as that the ends of a
link fit together. The forests of a world are reachable, whatever was asked of them (`World.sound_run`), and
on a reachable forest each request is *answered*, with an answer proper or with an error for the caller
(`Answered`). There is one exception, which is a walker over a borrowed forest that lacks a name the walker holds
(`Walker.borrow_of_breach`). Walks that begin at a node of the forest hold no such names.
-/

namespace Grove

open Forest

variable {α β : Type} {F : Forest α}

/-! ## Answered requests -/

/-- There is an answer, or an error for the caller. -/
def Answered (answer : Except Failure β) : Prop :=
  ∀ breach, answer ≠ .error (.breach breach)

theorem answered_ok {answer : Except Failure β} {b : β} (h : answer = .ok b) : Answered answer := by
  rintro breach rfl
  cases h

theorem answered_tree {answer : Except Failure β} {error : TreeError} (h : answer = .error (.tree error)) :
    Answered answer := by
  rintro breach rfl
  cases h

/-- What is answered is so whatever the answer is used for. -/
theorem Answered.discard {answer : Except Failure β} (h : Answered answer) : Answered (Functor.discard answer) := by
  intro breach hbreach
  cases hanswer : answer with
  | ok b =>
    rw [hanswer] at hbreach
    cases hbreach
  | error failure =>
    rw [hanswer] at hbreach
    obtain rfl := Except.error.inj hbreach
    exact h breach hanswer

/-! ## Questions about a node -/

/-- A question about a node. The traversals are asked for their first nodes, as many as `limit` says. -/
inductive Question where
  | value | parent | children | childCount | isRoot | isLeaf
  | root | level | depth | path | subtree
  | isAncestorOf (other : Option NodeId)
  | isDescendantOf (other : Option NodeId)
  | sharedAncestor (other : Option NodeId)
  | isRelated (other : Option NodeId)
  | isChild (other : Option NodeId)
  | isSibling (other : Option NodeId)
  | child (index : Nat)
  | indexOf (c : NodeId)
  | childAfter (c : NodeId)
  | childBefore (c : NodeId)
  | firstChild | lastChild | siblingCount | nextSibling | previousSibling
  | firstLeaf | lastLeaf | leafCount | nextLeaf | previousLeaf | nextNode | previousNode
  | preorder (limit : Option Nat)
  | postorder (limit : Option Nat)
  | breadthFirst (limit : Option Nat)
  | pathFrom (ancestor : NodeId) (limit : Option Nat)

/-- What a question comes to for a node that is there, without its answer. -/
def Question.answer (F : Forest α) (n : NodeId) : Question → Except Failure Unit
  | value => Functor.discard (F.valueAt n)
  | parent => Functor.discard (F.parent n)
  | children => Functor.discard (F.children n)
  | childCount => Functor.discard (F.childCount n)
  | isRoot => Functor.discard (F.isRoot n)
  | isLeaf => Functor.discard (F.isLeaf n)
  | root => Functor.discard (F.root n)
  | level => Functor.discard (F.level n)
  | depth => Functor.discard (F.depth n)
  | path => Functor.discard (F.path n)
  | subtree => Functor.discard (F.subtree n)
  | isAncestorOf other => Functor.discard (F.isAncestorOf n other)
  | isDescendantOf other => Functor.discard (F.isDescendantOf n other)
  | sharedAncestor other => Functor.discard (F.sharedAncestor n other)
  | isRelated other => Functor.discard (F.isRelated n other)
  | isChild other => Functor.discard (F.isChild n other)
  | isSibling other => Functor.discard (F.isSibling n other)
  | child index => Functor.discard (F.child n index)
  | indexOf c => Functor.discard (F.indexOf n c)
  | childAfter c => Functor.discard (F.childAfter n c)
  | childBefore c => Functor.discard (F.childBefore n c)
  | firstChild => Functor.discard (F.firstChild n)
  | lastChild => Functor.discard (F.lastChild n)
  | siblingCount => Functor.discard (F.siblingCount n)
  | nextSibling => Functor.discard (F.nextSibling n)
  | previousSibling => Functor.discard (F.previousSibling n)
  | firstLeaf => Functor.discard (F.firstLeaf n)
  | lastLeaf => Functor.discard (F.lastLeaf n)
  | leafCount => Functor.discard (F.leafCount n)
  | nextLeaf => Functor.discard (F.nextLeaf n)
  | previousLeaf => Functor.discard (F.previousLeaf n)
  | nextNode => Functor.discard (F.nextNode n)
  | previousNode => Functor.discard (F.previousNode n)
  | preorder limit => Functor.discard (Walker.borrow F limit ⟨F.generation, .preorder (some n) []⟩)
  | postorder limit => Functor.discard (Walker.borrow F limit ⟨F.generation, .postorder [⟨n, 0⟩]⟩)
  | breadthFirst limit => Functor.discard (Walker.borrow F limit ⟨F.generation, .breadthFirst (some n) []⟩)
  | pathFrom ancestor limit => Functor.discard (Walker.path F ancestor n >>= Walker.borrow F limit)

/-- A question about the node behind a name, which is looked up first. -/
def Forest.ask (F : Forest α) (n : NodeId) (question : Question) : Except Failure Unit :=
  F.lookup n >>= fun _ => question.answer F n

namespace Forest.WellFormed

/-! ### With another node

These questions take an absent or stale name for no node, and have an answer of their own for it. -/

theorem answered_of_resolve {question : Option NodeId → Except Failure β} (absent : β)
    (hnone : ∀ other, F.resolve other = none → question other = .ok absent)
    (hsome : ∀ m, F.contains m = true → ∃ b, question (some m) = .ok b) (other : Option NodeId) :
    Answered (question other) := by
  cases other with
  | none => exact answered_ok (hnone none rfl)
  | some m =>
    cases hm : F.contains m with
    | false => exact answered_ok (hnone (some m) (resolve_of_not_contains hm))
    | true =>
      obtain ⟨b, hb⟩ := hsome m hm
      exact answered_ok hb

section

theorem answered_isAncestorOf (hF : F.WellFormed) (n : NodeId) (other : Option NodeId) :
    Answered (F.isAncestorOf n other) :=
  answered_of_resolve false (fun other h => by rw [isAncestorOf, h])
    (fun _ hm => ⟨_, hF.isAncestorOf_eq n hm⟩) other

theorem answered_isChild (n : NodeId) (other : Option NodeId) : Answered (F.isChild n other) :=
  answered_of_resolve false (fun other h => by rw [isChild, h]) (fun _ hm => ⟨_, isChild_eq_ok hm⟩) other

variable (hF : F.WellFormed) {n : NodeId} (hn : F.contains n = true) (other : Option NodeId)

include hF hn

theorem answered_isDescendantOf : Answered (F.isDescendantOf n other) :=
  answered_of_resolve false (fun other h => by rw [isDescendantOf, h])
    (fun _ hm => ⟨_, hF.isDescendantOf_eq hm hn⟩) other

theorem answered_sharedAncestor : Answered (F.sharedAncestor n other) :=
  answered_of_resolve none (fun other h => by rw [sharedAncestor, h])
    (fun _ hm => (hF.sharedAncestor_eq hn hm).imp fun _ h => h.1) other

theorem answered_isRelated : Answered (F.isRelated n other) := by
  refine answered_of_resolve false (fun other h => by rw [isRelated, h]) (fun m hm => ?_) other
  obtain ⟨r, hr, -⟩ := hF.exists_root hn
  obtain ⟨s, hs, -⟩ := hF.exists_root hm
  exact ⟨_, isRelated_eq hm hr hs⟩

theorem answered_isSibling : Answered (F.isSibling n other) :=
  answered_of_resolve false (fun other h => by rw [isSibling, h])
    (fun _ hm => ⟨_, hF.isSibling_eq_ok hn hm⟩) other

end

/-! ### With a child -/

section

variable {n : NodeId} (hn : F.contains n = true)

include hn

theorem answered_child (i : Nat) : Answered (F.child n i) := by
  rw [child_eq hn]
  split
  · exact answered_ok rfl
  · exact answered_tree rfl

theorem answered_firstChild : Answered (F.firstChild n) := by
  rw [firstChild_eq hn]
  split
  · exact answered_ok rfl
  · exact answered_tree rfl

theorem answered_lastChild : Answered (F.lastChild n) := by
  rw [lastChild_eq hn]
  split
  · exact answered_ok rfl
  · exact answered_tree rfl

theorem answered_childAfter (c : NodeId) : Answered (F.childAfter n c) := by
  rw [childAfter_eq hn]
  split
  · exact answered_tree rfl
  · exact answered_ok rfl

theorem answered_childBefore (c : NodeId) : Answered (F.childBefore n c) := by
  rw [childBefore_eq hn]
  split
  · exact answered_tree rfl
  · exact answered_ok rfl
  · exact answered_ok rfl

end

/-! ### Traversals -/

/-- A walk that begins at a node of the forest holds only names that are there. -/
theorem answered_borrow_new (hF : F.WellFormed) {w : Walker} {l : List NodeId} (hw : Walker.New F w l)
    (limit : Option Nat) : Answered (w.borrow F limit) := by
  obtain ⟨hstamp, hvalid, -⟩ := hw.rest_eq hF
  exact answered_ok (Walker.borrow_eq hF hstamp hvalid limit)

theorem answered_walkerPath (hF : F.WellFormed) (a d : NodeId) : Answered (Walker.path F a d) := by
  rw [Walker.path_eq hF]
  split
  · exact answered_tree rfl
  split
  · exact answered_tree rfl
  split
  · exact answered_ok rfl
  · exact answered_tree rfl

theorem answered_pathFrom (hF : F.WellFormed) (n ancestor : NodeId) (limit : Option Nat) :
    Answered (Walker.path F ancestor n >>= Walker.borrow F limit) := by
  cases hpath : Walker.path F ancestor n with
  | ok w => exact hF.answered_borrow_new (.path hpath) limit
  | error failure =>
    rintro breach hbreach
    obtain rfl := Except.error.inj hbreach
    exact hF.answered_walkerPath ancestor n breach hpath

/-- **Every question about a node is answered.** -/
theorem answered_ask (hF : F.WellFormed) (n : NodeId) (question : Question) : Answered (F.ask n question) := by
  cases hn : F.contains n with
  | false =>
    rw [ask, lookup_of_not_contains hn]
    exact answered_tree rfl
  | true =>
    obtain ⟨node, hnode, hlookup⟩ := lookup_of_contains hn
    obtain ⟨r, before, after, -, -, htop, haround⟩ := hF.exists_around_root hn
    have : Inhabited α := ⟨node.value⟩
    rw [ask, hlookup]
    show Answered (question.answer F n)
    cases question with
    | value => exact (answered_ok (b := node.value) (by rw [valueAt, linked_eq_ok_iff.2 hnode]; rfl)).discard
    | parent => exact (answered_ok (parent_eq_ok hn)).discard
    | children => exact (answered_ok (children_eq_ok hn)).discard
    | childCount => exact (answered_ok (childCount_eq_ok hn)).discard
    | isRoot => exact (answered_ok (isRoot_eq_ok hn)).discard
    | isLeaf => exact (answered_ok (isLeaf_eq_ok hn)).discard
    | root => exact (answered_ok (hF.exists_root hn).choose_spec.1).discard
    | level => exact (answered_ok (hF.level_eq hn)).discard
    | depth => exact (answered_ok (hF.depth_eq hn)).discard
    | path => exact (answered_ok (hF.path_eq hn)).discard
    | subtree => exact (answered_ok (hF.subtree_eq hn)).discard
    | isAncestorOf other => exact (hF.answered_isAncestorOf n other).discard
    | isDescendantOf other => exact (hF.answered_isDescendantOf hn other).discard
    | sharedAncestor other => exact (hF.answered_sharedAncestor hn other).discard
    | isRelated other => exact (hF.answered_isRelated hn other).discard
    | isChild other => exact (answered_isChild n other).discard
    | isSibling other => exact (hF.answered_isSibling hn other).discard
    | child i => exact (answered_child hn i).discard
    | indexOf c => exact (answered_ok (indexOf_eq_ok hn c)).discard
    | childAfter c => exact (answered_childAfter hn c).discard
    | childBefore c => exact (answered_childBefore hn c).discard
    | firstChild => exact (answered_firstChild hn).discard
    | lastChild => exact (answered_lastChild hn).discard
    | siblingCount => exact (answered_ok (hF.siblingCount_eq_ok hn)).discard
    | nextSibling => exact (answered_ok (hF.nextSibling_eq_ok hn)).discard
    | previousSibling => exact (answered_ok (hF.previousSibling_eq_ok hn)).discard
    | firstLeaf => exact (answered_ok (hF.exists_firstLeaf hn).choose_spec.1).discard
    | lastLeaf => exact (answered_ok (hF.exists_lastLeaf hn).choose_spec.1).discard
    | leafCount => exact (answered_ok (hF.leafCount_eq_ok hn)).discard
    | nextLeaf => exact (answered_ok (haround.nextLeaf_eq hF htop hn)).discard
    | previousLeaf => exact (answered_ok (haround.previousLeaf_eq hF htop hn)).discard
    | nextNode => exact (answered_ok (haround.nextNode_eq hF htop hn)).discard
    | previousNode => exact (answered_ok (haround.previousNode_eq hF htop hn)).discard
    | preorder limit =>
      exact (hF.answered_borrow_new (.preorder (Walker.preorder_eq_ok_iff.2 ⟨hn, rfl⟩)) limit).discard
    | postorder limit =>
      exact (hF.answered_borrow_new (.postorder (Walker.postorder_eq_ok_iff.2 ⟨hn, rfl⟩)) limit).discard
    | breadthFirst limit =>
      exact (hF.answered_borrow_new (.breadthFirst (Walker.breadthFirst_eq_ok_iff.2 ⟨hn, rfl⟩)) limit).discard
    | pathFrom ancestor limit => exact (hF.answered_pathFrom n ancestor limit).discard

/-- **Every call is answered.** -/
theorem answered_call (hF : F.WellFormed) (call : Call α) (failure : Failure) (G : Forest α)
    (h : call.edit F = .error failure G) : Answered (.error failure : Except Failure Unit) := by
  obtain ⟨-, error, rfl⟩ := hF.settled_edit call failure G h
  exact answered_tree rfl

end Forest.WellFormed

/-! ## Walkers over any forest -/

/-- What a walker is made for. -/
inductive Tour where
  | preorder (n : NodeId)
  | postorder (n : NodeId)
  | breadthFirst (n : NodeId)
  | path (ancestor descendant : NodeId)

/-- Make a walker. -/
def Tour.walker (F : Forest α) : Tour → Except Failure Walker
  | preorder n => Walker.preorder F n
  | postorder n => Walker.postorder F n
  | breadthFirst n => Walker.breadthFirst F n
  | path a d => Walker.path F a d

theorem answered_lookup_bind {n : NodeId} {b : β} : Answered (do let _ ← F.lookup n; return b) := by
  rw [lookup_then_eq (r := pure b) fun _ _ => rfl]
  split
  · exact answered_tree rfl
  · exact answered_ok rfl

theorem answered_tour (hF : F.WellFormed) (tour : Tour) : Answered (tour.walker F) := by
  cases tour with
  | preorder n => exact answered_lookup_bind
  | postorder n => exact answered_lookup_bind
  | breadthFirst n => exact answered_lookup_bind
  | path a d => exact hF.answered_walkerPath a d

namespace Walker

/-- **Every step is answered**, over whatever forest. -/
theorem answered_next (hF : F.WellFormed) (w : Walker) : Answered (w.next F).1 := by
  by_cases hstamp : w.stamp = F.generation
  · rcases next_cases hF hstamp with ⟨n, -, -, hlost⟩ | ⟨w', hnext, -⟩
    · exact answered_tree hlost
    · rw [hnext]
      exact answered_ok rfl
  · rw [next_of_ne hstamp]
    exact answered_tree rfl

theorem answered_collect (hF : F.WellFormed) (w : Walker) : Answered (w.collect F) := by
  by_cases hstamp : w.stamp = F.generation
  · obtain ⟨l, w', -, -, -, -, ⟨-, -, -, hcollect, -⟩ | ⟨n, -, -, -, hcollect, -⟩⟩ := loops_of_stamp hF hstamp
    · exact answered_ok hcollect
    · exact answered_tree hcollect
  · exact answered_tree (collect_of_ne hstamp)

/-- A walker breaks off over a borrowed forest only at a name that it holds and the forest lacks. -/
theorem borrow_of_breach (hF : F.WellFormed) {w : Walker} {limit : Option Nat} {breach : Breach}
    (h : w.borrow F limit = .error (.breach breach)) :
    ∃ n ∈ w.course.held, F.contains n = false ∧ breach = .walkFailed (.nodeNotFound n) := by
  by_cases hstamp : w.stamp = F.generation
  · obtain ⟨l, w', hyields, hfirst, -, hend⟩ := exists_yields hF hstamp
    have hbound := Nat.lt_of_le_of_lt hfirst.length_le (length_rest_lt_bound hF w)
    rcases hend with ⟨-, -, hdone⟩ | ⟨n, hn, hgone, hlost⟩
    · rw [hyields.borrow_of_none hbound hstamp limit hdone] at h
      cases h
    · rw [hyields.borrow_of_error hbound hstamp limit hlost] at h
      split at h
      · cases h
      · cases h
        exact ⟨n, hn, hgone, rfl⟩
  · rw [borrow_of_ne hstamp] at h
    cases h

end Walker

/-! ## Scripts -/

/-- A request to one of several forests, or to one of several walkers over one of the forests. -/
inductive Request (α : Type) where
  | makeForest
  | call (f : Nat) (call : Call α)
  | ask (f : Nat) (n : NodeId) (question : Question)
  | makeWalker (f : Nat) (tour : Tour)
  | copyWalker (w : Nat)
  | step (f w : Nat)
  | collect (f w : Nat)
  | borrow (f w : Nat) (limit : Option Nat)

/-- Forests and walkers, each known by its number. -/
structure World (α : Type) where
  forests : List (Forest α)
  walkers : List Walker

namespace World

/-- Nothing made yet. -/
def start : World α := ⟨[], []⟩

/-- Ask the forest with number `f`; without one, nothing happens. -/
def atForest (W : World α) (f : Nat) (k : Forest α → Except Failure Unit) : Except Failure Unit :=
  match W.forests[f]? with
  | none => .ok ()
  | some F => k F

/-- Ask the walker with number `w` over the forest with number `f`. -/
def atWalker (W : World α) (f w : Nat) (k : Forest α → Walker → Except Failure Unit) : Except Failure Unit :=
  W.atForest f fun F =>
    match W.walkers[w]? with
    | none => .ok ()
    | some walker => k F walker

/-- What a request comes to, without its answer. -/
def answer (W : World α) : Request α → Except Failure Unit
  | .makeForest | .copyWalker _ => .ok ()
  | .call f call => W.atForest f fun F =>
    match call.edit F with
    | .ok _ _ => .ok ()
    | .error failure _ => .error failure
  | .ask f n question => W.atForest f fun F => F.ask n question
  | .makeWalker f tour => W.atForest f fun F => Functor.discard (tour.walker F)
  | .step f w => W.atWalker f w fun F walker => Functor.discard (walker.next F).1
  | .collect f w => W.atWalker f w fun F walker => Functor.discard (walker.collect F)
  | .borrow f w limit => W.atWalker f w fun F walker => Functor.discard (walker.borrow F limit)

/-- The world that a request leaves behind. Only calls change a forest and only steps change a walker; listing
    what is left takes the steps of a copy. -/
def after (W : World α) : Request α → World α
  | .makeForest => { W with forests := W.forests ++ [Forest.empty] }
  | .call f call => { W with forests := W.forests.modify f (·.after call) }
  | .makeWalker f tour =>
    match W.forests[f]?.map tour.walker with
    | some (.ok walker) => { W with walkers := W.walkers ++ [walker] }
    | _ => W
  | .copyWalker w => { W with walkers := W.walkers ++ (W.walkers[w]?).toList }
  | .step f w =>
    match W.forests[f]? with
    | some F => { W with walkers := W.walkers.modify w fun walker => (walker.next F).2 }
    | none => W
  | .ask .. | .collect .. | .borrow .. => W

/-- The world that requests in a row leave behind. -/
def run (requests : List (Request α)) : World α :=
  requests.foldl after start

/-- All forests are reachable. -/
def Sound (W : World α) : Prop :=
  ∀ F ∈ W.forests, F.Reachable

variable {W : World α}

/-- **A request keeps all forests reachable.** -/
theorem Sound.after (h : W.Sound) (request : Request α) : (W.after request).Sound := by
  cases request with
  | makeForest =>
    intro F hF
    rcases List.mem_append.1 hF with hF | hF
    · exact h F hF
    · rw [List.mem_singleton.1 hF]
      exact ⟨[], rfl⟩
  | call f call =>
    intro G hG
    obtain ⟨i, hi⟩ := List.getElem?_of_mem hG
    rw [World.after, List.getElem?_modify, Option.map_eq_map, Option.map_eq_some_iff] at hi
    obtain ⟨F, hF, rfl⟩ := hi
    have hreach := h F (List.mem_of_getElem? hF)
    split
    · exact hreach.after call
    · exact hreach
  | makeWalker f tour =>
    show (match W.forests[f]?.map tour.walker with
      | some (.ok walker) => { W with walkers := W.walkers ++ [walker] }
      | _ => W : World α).Sound
    split <;> exact h
  | step f w =>
    show (match W.forests[f]? with
      | some F => { W with walkers := W.walkers.modify w fun walker => (walker.next F).2 }
      | none => W : World α).Sound
    split <;> exact h
  | ask | copyWalker | collect | borrow => exact h

theorem sound_run (requests : List (Request α)) : (run requests).Sound := by
  have hkeep : ∀ (l : List (Request α)) (W : World α), W.Sound → (l.foldl World.after W).Sound := by
    intro l
    induction l with
    | nil => exact fun _ h => h
    | cons request rest ih => exact fun W h => ih _ (h.after request)
  exact hkeep requests start nofun

/-- What is answered by every forest of a world is answered by the world. -/
theorem Sound.answered_atForest (h : W.Sound) {f : Nat} {k : Forest α → Except Failure Unit}
    (hk : ∀ F, F.WellFormed → Answered (k F)) : Answered (W.atForest f k) := by
  unfold atForest
  split
  · exact answered_ok rfl
  · exact hk _ (h _ (List.mem_of_getElem? ‹_›)).wellFormed

theorem Sound.answered_atWalker (h : W.Sound) {f w : Nat} {k : Forest α → Walker → Except Failure Unit}
    (hk : ∀ F walker, F.WellFormed → Answered (k F walker)) : Answered (W.atWalker f w k) := by
  refine h.answered_atForest fun F hF => ?_
  split
  · exact answered_ok rfl
  · exact hk F _ hF

/-- **Every request but one is answered.** -/
theorem Sound.answered (h : W.Sound) (request : Request α) (hrequest : ∀ f w limit, request ≠ .borrow f w limit) :
    Answered (W.answer request) := by
  cases request with
  | makeForest | copyWalker => exact answered_ok rfl
  | call f call =>
    refine h.answered_atForest fun F hF => ?_
    split
    · exact answered_ok rfl
    · exact hF.answered_call call _ _ ‹_›
  | ask f n question => exact h.answered_atForest fun F hF => hF.answered_ask n question
  | makeWalker f tour => exact h.answered_atForest fun F hF => (answered_tour hF tour).discard
  | step f w => exact h.answered_atWalker fun F walker hF => (Walker.answered_next hF walker).discard
  | collect f w => exact h.answered_atWalker fun F walker hF => (Walker.answered_collect hF walker).discard
  | borrow f w limit => exact absurd rfl (hrequest f w limit)

/-- **No script runs into a breach**, except where a walker that holds the name of no node of a forest is let loose
    on that forest. Whatever was requested before, of which forests and with which names and walkers, a request that
    ends in a breach asks for the nodes that a detached walker has left over a borrowed forest; the walker holds a
    name that the forest lacks, and the breach is that this name is not found. All calls, all questions about a
    node, walks from one of them among these, and all steps of walkers are answered. -/
theorem breach_of_run (requests : List (Request α)) (request : Request α) (breach : Breach)
    (h : (run requests).answer request = .error (.breach breach)) :
    ∃ f w limit F walker n, request = .borrow f w limit ∧ (run requests).forests[f]? = some F ∧
      (run requests).walkers[w]? = some walker ∧ n ∈ walker.course.held ∧ F.contains n = false ∧
      breach = .walkFailed (.nodeNotFound n) := by
  have hsound := sound_run requests
  by_cases hborrow : ∃ f w limit, request = .borrow f w limit
  · obtain ⟨f, w, limit, rfl⟩ := hborrow
    simp only [answer, atWalker, atForest] at h
    cases hforest : (run requests).forests[f]? with
    | none => simp [hforest] at h
    | some F =>
      cases hwalker : (run requests).walkers[w]? with
      | none => simp [hforest, hwalker] at h
      | some walker =>
        simp only [hforest, hwalker] at h
        have hF := (hsound F (List.mem_of_getElem? hforest)).wellFormed
        cases hanswer : walker.borrow F limit with
        | ok l =>
          rw [hanswer] at h
          cases h
        | error failure =>
          rw [hanswer] at h
          obtain rfl := Except.error.inj h
          obtain ⟨n, hn, hgone, rfl⟩ := Walker.borrow_of_breach hF hanswer
          exact ⟨f, w, limit, F, walker, n, rfl, hforest, hwalker, hn, hgone, rfl⟩
  · exact absurd h (hsound.answered request (fun f w limit heq => hborrow ⟨f, w, limit, heq⟩) breach)

/-- A walker made on one forest and let loose on another, where there is nothing yet. -/
theorem breach_of_run_of_foreign :
    let requests : List (Request Nat) :=
      [.makeForest, .makeForest, .call 0 (.create 7), .makeWalker 0 (.preorder ⟨0, 0⟩)]
    (run requests).answer (.borrow 1 0 none) = .error (.breach (.walkFailed (.nodeNotFound ⟨0, 0⟩))) ∧
      (run requests).answer (.borrow 0 0 none) = .ok () ∧
      ∃ F, (run requests).forests[1]? = some F ∧ F.contains ⟨0, 0⟩ = false := by
  intro requests
  have hbreach : (run requests).answer (.borrow 1 0 none) = .error (.breach (.walkFailed (.nodeNotFound ⟨0, 0⟩))) :=
    rfl
  obtain ⟨f, w, limit, F, walker, n, hrequest, hforest, -, -, hgone, hlost⟩ := breach_of_run _ _ _ hbreach
  cases hrequest
  cases hlost
  exact ⟨hbreach, rfl, F, hforest, hgone⟩

end World

end Grove
