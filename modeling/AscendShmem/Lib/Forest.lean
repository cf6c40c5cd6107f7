import Mathlib

/-!
# Forests and their preorder lists

A forest is written by first child and next sibling, so an induction has one case for a node. Its
preorder list gives each node the index of its parent in the list and its depth. A `Spine` is a forest
that is still being read: the nodes that are open, the innermost first, each with the trees that are
complete below it. Opening a node, attaching a complete tree and closing the innermost node are all
that a reader does; the list of a spine only grows at its end.
-/

namespace Lib

/-- A forest: its first tree and the others. -/
inductive Forest (α : Type*) where
  | nil
  | cons (label : α) (children siblings : Forest α)

/-- A node in a preorder list. -/
structure Entry (α : Type*) where
  label : α
  parent : Option ℕ
  depth : ℕ

namespace Forest

variable {α β : Type*}

/-- The number of nodes. -/
def size : Forest α → ℕ
  | nil => 0
  | cons _ children siblings => children.size + siblings.size + 1

/-- The number of its trees. -/
def count : Forest α → ℕ
  | nil => 0
  | cons _ _ siblings => siblings.count + 1

/-- The nodes in preorder, the first of them having the index `base`. -/
def preorder : Forest α → ℕ → Option ℕ → ℕ → List (Entry α)
  | nil, _, _, _ => []
  | cons a children siblings, base, parent, depth =>
    ⟨a, parent, depth⟩ :: (children.preorder (base + 1) (some base) (depth + 1) ++
      siblings.preorder (base + 1 + children.size) parent depth)

/-- The trees of one forest before those of another. -/
def append : Forest α → Forest α → Forest α
  | nil, more => more
  | cons a children siblings, more => cons a children (siblings.append more)

/-- Every node, with its children, has the property. -/
def All (P : α → Forest α → Prop) : Forest α → Prop
  | nil => True
  | cons a children siblings => P a children ∧ children.All P ∧ siblings.All P

/-- The forest with every label replaced by its image. -/
def map (f : α → β) : Forest α → Forest β
  | nil => nil
  | cons a children siblings => cons (f a) (children.map f) (siblings.map f)

section Equations

variable (a : α) (children siblings more : Forest α) (base : ℕ) (parent : Option ℕ) (depth : ℕ)

@[simp] theorem size_nil : (nil : Forest α).size = 0 := rfl

@[simp] theorem size_cons : (cons a children siblings).size = children.size + siblings.size + 1 := rfl

@[simp] theorem count_nil : (nil : Forest α).count = 0 := rfl

@[simp] theorem count_cons : (cons a children siblings).count = siblings.count + 1 := rfl

@[simp] theorem preorder_nil : (nil : Forest α).preorder base parent depth = [] := rfl

@[simp] theorem preorder_cons : (cons a children siblings).preorder base parent depth
    = ⟨a, parent, depth⟩ :: (children.preorder (base + 1) (some base) (depth + 1) ++
      siblings.preorder (base + 1 + children.size) parent depth) := rfl

@[simp] theorem append_cons :
    (cons a children siblings).append more = cons a children (siblings.append more) := rfl

@[simp] theorem map_cons (f : α → β) :
    (cons a children siblings).map f = cons (f a) (children.map f) (siblings.map f) := rfl

end Equations

@[simp] theorem length_preorder (forest : Forest α) (base : ℕ) (parent : Option ℕ) (depth : ℕ) :
    (forest.preorder base parent depth).length = forest.size := by
  induction forest generalizing base parent depth with
  | nil => rfl
  | cons a children siblings ihc ihs =>
    rw [preorder_cons, List.length_cons, List.length_append, ihc, ihs, size_cons]

@[simp] theorem count_append (forest more : Forest α) :
    (forest.append more).count = forest.count + more.count := by
  induction forest with
  | nil => exact (Nat.zero_add _).symm
  | cons a children siblings _ ihs =>
    rw [append_cons, count_cons, count_cons, ihs]
    omega

/-- The second forest is listed after the first, at the next free index. -/
theorem preorder_append (forest more : Forest α) (base : ℕ) (parent : Option ℕ) (depth : ℕ) :
    (forest.append more).preorder base parent depth
      = forest.preorder base parent depth ++ more.preorder (base + forest.size) parent depth := by
  induction forest generalizing base with
  | nil => rfl
  | cons a children siblings _ ihs =>
    rw [append_cons, preorder_cons, preorder_cons, ihs, size_cons, List.cons_append, List.append_assoc,
      show base + 1 + children.size + siblings.size
        = base + (children.size + siblings.size + 1) by omega]

theorem all_append {P : α → Forest α → Prop} {forest more : Forest α} :
    (forest.append more).All P ↔ forest.All P ∧ more.All P := by
  induction forest with
  | nil => simp [append, All]
  | cons a children siblings _ ihs => simp only [append, All, ihs, and_assoc]

@[simp] theorem size_map (f : α → β) (forest : Forest α) : (forest.map f).size = forest.size := by
  induction forest with
  | nil => rfl
  | cons a children siblings ihc ihs => rw [map_cons, size_cons, size_cons, ihc, ihs]

@[simp] theorem count_map (f : α → β) (forest : Forest α) : (forest.map f).count = forest.count := by
  induction forest with
  | nil => rfl
  | cons a children siblings _ ihs => rw [map_cons, count_cons, count_cons, ihs]

/-- Listing the image is mapping the list. -/
theorem map_preorder (f : α → β) (forest : Forest α) (base : ℕ) (parent : Option ℕ) (depth : ℕ) :
    (forest.map f).preorder base parent depth
      = (forest.preorder base parent depth).map fun e => ⟨f e.label, e.parent, e.depth⟩ := by
  induction forest generalizing base parent depth with
  | nil => rfl
  | cons a children siblings ihc ihs =>
    rw [map_cons, preorder_cons, preorder_cons, ihc, ihs, size_map, List.map_cons, List.map_append]

/-- A forest with one tree. -/
theorem eq_cons_of_count {forest : Forest α} (h : forest.count = 1) :
    ∃ a children, forest = cons a children nil := by
  cases forest with
  | nil => cases h
  | cons a children siblings =>
    cases siblings with
    | nil => exact ⟨a, children, rfl⟩
    | cons b more rest =>
      rw [count_cons, count_cons] at h
      omega

/-! ## Parents -/

/-- The parent of the entry at `i` stands before it, has children and is one level higher. -/
def HasParent (P : α → Forest α → Prop) (es : List (Entry α)) (base i : ℕ) (e : Entry α) : Prop :=
  ∃ p up, p < i ∧ es[p]? = some up ∧ e.parent = some (base + p) ∧ e.depth = up.depth + 1 ∧
    ∃ children, P up.label children ∧ children ≠ nil

/-- What the list says of an entry: it is at the top or has its parent in the list. -/
def EntryOk (P : α → Forest α → Prop) (es : List (Entry α)) (base : ℕ) (parent : Option ℕ)
    (depth : ℕ) (i : ℕ) (e : Entry α) : Prop :=
  (∃ children, P e.label children) ∧
    ((e.parent = parent ∧ e.depth = depth) ∨ HasParent P es base i e)

/-- An entry of a part of a list, in the list. -/
theorem HasParent.shift {P : α → Forest α → Prop} {es : List (Entry α)} {base i : ℕ} {e : Entry α}
    (front back : List (Entry α)) (h : HasParent P es (base + front.length) i e) :
    HasParent P (front ++ es ++ back) base (front.length + i) e := by
  obtain ⟨p, up, hp, hup, hparent, hdepth, hchildren⟩ := h
  have hlt : p < es.length := (List.getElem?_eq_some_iff.mp hup).1
  refine ⟨front.length + p, up, by omega, ?_, by rw [hparent, Nat.add_assoc], hdepth, hchildren⟩
  rw [List.append_assoc, List.getElem?_append_right (by omega), Nat.add_sub_cancel_left,
    List.getElem?_append_left hlt, hup]

/-- An entry below the first node of a list. -/
theorem EntryOk.below {P : α → Forest α → Prop} {a : α} {children : Forest α} (ha : P a children)
    {base depth i : ℕ} (parent : Option ℕ) {e : Entry α} (back : List (Entry α))
    (he : (children.preorder (base + 1) (some base) (depth + 1))[i]? = some e)
    (h : EntryOk P (children.preorder (base + 1) (some base) (depth + 1)) (base + 1) (some base)
      (depth + 1) i e) :
    HasParent P (⟨a, parent, depth⟩ ::
      (children.preorder (base + 1) (some base) (depth + 1) ++ back)) base (i + 1) e := by
  rcases h.2 with ⟨hparent, hdepth⟩ | hup
  · have hne : children ≠ nil := by
      rintro rfl
      cases he
    exact ⟨0, ⟨a, parent, depth⟩, Nat.succ_pos i, rfl, hparent, hdepth, children, ha, hne⟩
  · rw [Nat.add_comm i 1]
    exact HasParent.shift [⟨a, parent, depth⟩] back hup

/-- Every entry names a parent listed before it, and its label meets the condition. -/
theorem entryOk_preorder {P : α → Forest α → Prop} {forest : Forest α} (h : forest.All P) (base : ℕ)
    (parent : Option ℕ) (depth i : ℕ) {e : Entry α}
    (he : (forest.preorder base parent depth)[i]? = some e) :
    EntryOk P (forest.preorder base parent depth) base parent depth i e := by
  induction forest generalizing base parent depth i with
  | nil => cases he
  | cons a children siblings ihc ihs =>
    obtain ⟨ha, hc, hs⟩ := h
    rw [preorder_cons] at he ⊢
    cases i with
    | zero =>
      rw [List.getElem?_cons_zero, Option.some.injEq] at he
      rw [← he]
      exact ⟨⟨children, ha⟩, .inl ⟨rfl, rfl⟩⟩
    | succ i =>
      rw [List.getElem?_cons_succ] at he
      by_cases hi : i < children.size
      · rw [List.getElem?_append_left (by rwa [length_preorder])] at he
        have hbelow := ihc hc (base + 1) (some base) (depth + 1) i he
        exact ⟨hbelow.1, .inr (hbelow.below ha parent _ he)⟩
      · rw [List.getElem?_append_right (by rw [length_preorder]; omega), length_preorder] at he
        have hbeside := ihs hs (base + 1 + children.size) parent depth (i - children.size) he
        have hfront : (⟨a, parent, depth⟩ ::
            children.preorder (base + 1) (some base) (depth + 1)).length = children.size + 1 := by
          rw [List.length_cons, length_preorder]
        refine ⟨hbeside.1, hbeside.2.imp id fun hup => ?_⟩
        rw [show base + 1 + children.size = base + (children.size + 1) by omega, ← hfront] at hup ⊢
        have hshift := hup.shift _ []
        rw [hfront, List.append_nil,
          show children.size + 1 + (i - children.size) = i + 1 by omega] at hshift
        rw [hfront]
        exact hshift

/-- In the list of one tree every entry but the first has its parent in the list. -/
theorem hasParent_tree {P : α → Forest α → Prop} {a : α} {children : Forest α}
    (h : (cons a children nil).All P) {base depth i : ℕ} {parent : Option ℕ} {e : Entry α}
    (he : ((cons a children nil).preorder base parent depth)[i + 1]? = some e) :
    HasParent P ((cons a children nil).preorder base parent depth) base (i + 1) e := by
  rw [preorder_cons, preorder_nil, List.append_nil, List.getElem?_cons_succ] at he
  have hbelow := entryOk_preorder h.2.1 (base + 1) (some base) (depth + 1) i he
  exact hbelow.below h.1 parent [] he

end Forest

/-! ## Forests that are being read -/

/-- The complete trees at the top, and the open nodes with the complete trees below them, the
innermost first. -/
structure Spine (α : Type*) where
  done : Forest α
  nodes : List (α × Forest α)

namespace Spine

variable {α : Type*}

/-- The list of the nodes read so far, given the open nodes. -/
def entriesOf (done : Forest α) : List (α × Forest α) → List (Entry α)
  | [] => done.preorder 0 none 0
  | (a, children) :: outer =>
    let before := entriesOf done outer
    let parent := match outer with
      | [] => none
      | _ :: further => some (entriesOf done further).length
    before ++ ⟨a, parent, outer.length⟩ ::
      children.preorder (before.length + 1) (some before.length) (outer.length + 1)

/-- The entries listed so far. -/
def entries (spine : Spine α) : List (Entry α) := entriesOf spine.done spine.nodes

/-- The indexes of the open nodes. -/
def indexesOf (done : Forest α) : List (α × Forest α) → List ℕ
  | [] => []
  | _ :: outer => (entriesOf done outer).length :: indexesOf done outer

/-- The indexes of the open nodes, the innermost first. -/
def indexes (spine : Spine α) : List ℕ := indexesOf spine.done spine.nodes

/-- The spine before the first node. -/
def empty : Spine α := ⟨.nil, []⟩

/-- A node is opened. -/
def push (spine : Spine α) (a : α) : Spine α := ⟨spine.done, (a, .nil) :: spine.nodes⟩

/-- A complete tree is attached below the innermost node. -/
def attach (spine : Spine α) (a : α) (children : Forest α) : Spine α :=
  match spine.nodes with
  | [] => ⟨spine.done.append (.cons a children .nil), []⟩
  | (b, before) :: outer => ⟨spine.done, (b, before.append (.cons a children .nil)) :: outer⟩

/-- The number of trees at the top, complete or open. -/
def rootCount (spine : Spine α) : ℕ := spine.done.count + if spine.nodes = [] then 0 else 1

/-- Every node has the property, whatever its children will be, if it is open. -/
def All (P : α → Forest α → Prop) (spine : Spine α) : Prop :=
  spine.done.All P ∧ ∀ node ∈ spine.nodes, (∀ children, P node.1 children) ∧ node.2.All P

/-- The innermost node is closed. -/
def close : Spine α → Spine α
  | ⟨done, []⟩ => ⟨done, []⟩
  | ⟨done, (a, children) :: outer⟩ => attach ⟨done, outer⟩ a children

/-- The innermost open node is the last one that was opened. -/
theorem head_indexesOf (done : Forest α) (nodes : List (α × Forest α)) :
    (indexesOf done nodes).head? = match nodes with
      | [] => none
      | _ :: further => some (entriesOf done further).length := by
  cases nodes with
  | nil => rfl
  | cons node further => rfl

/-- The entries of an open node come after those of the nodes around it. -/
theorem entriesOf_cons (done children : Forest α) (a : α) (outer : List (α × Forest α)) :
    entriesOf done ((a, children) :: outer) = entriesOf done outer ++
      (Forest.cons a children .nil).preorder (entriesOf done outer).length
        (indexesOf done outer).head? outer.length := by
  rw [head_indexesOf, Forest.preorder_cons, Forest.preorder_nil, List.append_nil]
  cases outer with
  | nil => rfl
  | cons node further => rfl

@[simp] theorem length_indexesOf (done : Forest α) (nodes : List (α × Forest α)) :
    (indexesOf done nodes).length = nodes.length := by
  induction nodes with
  | nil => rfl
  | cons node outer ih => rw [indexesOf, List.length_cons, List.length_cons, ih]

/-- The list grows at its end by a complete tree. -/
theorem entries_attach (spine : Spine α) (a : α) (children : Forest α) :
    (spine.attach a children).entries = spine.entries ++ (Forest.cons a children .nil).preorder
      spine.entries.length spine.indexes.head? spine.nodes.length := by
  obtain ⟨done, nodes⟩ := spine
  cases nodes with
  | nil =>
    rw [attach, entries, entriesOf, Forest.preorder_append, Nat.zero_add, entries, entriesOf,
      Forest.length_preorder]
    rfl
  | cons node outer =>
    obtain ⟨b, before⟩ := node
    -- below the innermost node
    simp only [attach, entries, indexes, entriesOf_cons, Forest.preorder_cons, Forest.preorder_nil,
      indexesOf, List.head?_cons, Forest.preorder_append, List.append_nil, List.length_append,
      List.length_cons, Forest.length_preorder, List.append_assoc, List.cons_append]
    rw [show (entriesOf done outer).length + 1 + before.size
      = (entriesOf done outer).length + (before.size + 1) by omega]

@[simp] theorem indexes_attach (spine : Spine α) (a : α) (children : Forest α) :
    (spine.attach a children).indexes = spine.indexes := by
  obtain ⟨done, nodes⟩ := spine
  cases nodes with
  | nil => rfl
  | cons node outer => rfl

theorem entries_push (spine : Spine α) (a : α) :
    (spine.push a).entries
      = spine.entries ++ [⟨a, spine.indexes.head?, spine.nodes.length⟩] := by
  rw [push, entries, entriesOf_cons, Forest.preorder_cons, Forest.preorder_nil, Forest.preorder_nil]
  rfl

theorem indexes_push (spine : Spine α) (a : α) :
    (spine.push a).indexes = spine.entries.length :: spine.indexes := rfl

@[simp] theorem entries_close (spine : Spine α) : spine.close.entries = spine.entries := by
  obtain ⟨done, nodes⟩ := spine
  cases nodes with
  | nil => rfl
  | cons node outer =>
    obtain ⟨a, children⟩ := node
    rw [close, entries_attach, entries, entries, entriesOf_cons]
    rfl

@[simp] theorem indexes_close (spine : Spine α) : spine.close.indexes = spine.indexes.tail := by
  obtain ⟨done, nodes⟩ := spine
  cases nodes with
  | nil => rfl
  | cons node outer => exact indexes_attach ⟨done, outer⟩ node.1 node.2

theorem rootCount_push (spine : Spine α) (a : α) :
    (spine.push a).rootCount = spine.done.count + 1 := rfl

/-- A finished node is a root only outside all open ones. -/
theorem rootCount_attach (spine : Spine α) (a : α) (children : Forest α) :
    (spine.attach a children).rootCount
      = spine.rootCount + if spine.nodes = [] then 1 else 0 := by
  obtain ⟨done, nodes⟩ := spine
  cases nodes with
  | nil => simp [attach, rootCount]
  | cons node outer => simp [attach, rootCount]

@[simp] theorem rootCount_close (spine : Spine α) : spine.close.rootCount = spine.rootCount := by
  obtain ⟨done, nodes⟩ := spine
  cases nodes with
  | nil => rfl
  | cons node outer =>
    rw [close, rootCount_attach]
    by_cases h : outer = []
    · simp [rootCount, h]
    · simp [rootCount, h]

/-- A finished node that meets the condition may be added. -/
theorem All.attach {P : α → Forest α → Prop} {spine : Spine α} (h : spine.All P) {a : α}
    {children : Forest α} (ha : P a children) (hchildren : children.All P) :
    (spine.attach a children).All P := by
  obtain ⟨done, nodes⟩ := spine
  have htree : (Forest.cons a children .nil).All P := ⟨ha, hchildren, trivial⟩
  cases nodes with
  | nil => exact ⟨Forest.all_append.mpr ⟨h.1, htree⟩, h.2⟩
  | cons node outer =>
    refine ⟨h.1, List.forall_mem_cons.mpr ⟨?_, fun other ho => h.2 other (.tail _ ho)⟩⟩
    have hnode := h.2 node (.head _)
    exact ⟨hnode.1, Forest.all_append.mpr ⟨hnode.2, htree⟩⟩

theorem All.push {P : α → Forest α → Prop} {spine : Spine α} (h : spine.All P) {a : α}
    (ha : ∀ children, P a children) : (spine.push a).All P :=
  ⟨h.1, List.forall_mem_cons.mpr ⟨⟨ha, trivial⟩, h.2⟩⟩

/-- Closing keeps the condition. -/
theorem All.close {P : α → Forest α → Prop} {spine : Spine α} (h : spine.All P) :
    spine.close.All P := by
  obtain ⟨done, nodes⟩ := spine
  cases nodes with
  | nil => exact h
  | cons node outer =>
    have hnode := h.2 node (.head _)
    have houter : (⟨done, outer⟩ : Spine α).All P :=
      ⟨h.1, fun other ho => h.2 other (.tail _ ho)⟩
    exact houter.attach (hnode.1 _) hnode.2

/-- The open nodes stand in the list, each further in one before. -/
theorem indexes_lt (spine : Spine α) : ∀ i ∈ spine.indexes, i < spine.entries.length := by
  obtain ⟨done, nodes⟩ := spine
  rw [indexes, entries]
  induction nodes with
  | nil => simp [indexesOf]
  | cons node outer ih =>
    intro i hi
    rw [entriesOf_cons, List.length_append, Forest.length_preorder, Forest.size_cons]
    rcases List.mem_cons.mp hi with rfl | hi
    · exact Nat.lt_add_of_pos_right (Nat.succ_pos _)
    · exact Nat.lt_add_right _ (ih i hi)

end Spine
end Lib
