import Mathlib
import AscendShmem.Lib.Chain

/-!
# Linked queues in a heap

A first-in first-out queue threaded through nodes of a heap, with a pointer to either end and a
count. `Represents q l` says that following the links visits the addresses `l`; every operation
has one lemma that says what it does to `l`, and a `none` result is a null or dangling pointer
that was followed.
-/

namespace Lib

/-- A node: the address of the next one, and what the node carries. -/
structure QueueNode (α : Type) where
  next : Option ℕ
  value : α

/-- The nodes by address, and the queue's own fields. -/
structure LinkedQueue (α : Type) where
  nodes : ℕ → Option (QueueNode α)
  headNode : Option ℕ
  tailNode : Option ℕ
  size : ℕ

namespace LinkedQueue

variable {α : Type}

/-- No node and no entry. -/
def empty : LinkedQueue α := ⟨fun _ => none, none, none, 0⟩

/-- What the node at an address carries. -/
def value? (q : LinkedQueue α) (a : ℕ) : Option α := (q.nodes a).map QueueNode.value

/-- Where the node at an address leads. -/
def next? (q : LinkedQueue α) (a : ℕ) : Option ℕ := (q.nodes a).bind QueueNode.next

/-- The heap with another node at an address. -/
def setNode (q : LinkedQueue α) (a : ℕ) (n : Option (QueueNode α)) : LinkedQueue α :=
  { q with nodes := Function.update q.nodes a n }

/-- A new node behind the last one. -/
def pushBack (q : LinkedQueue α) (a : ℕ) (v : α) : Option (LinkedQueue α) :=
  let q := q.setNode a (some ⟨none, v⟩)
  match q.headNode with
  | none => some { q with
      headNode := some a
      tailNode := some a
      size := q.size + 1 }
  | some _ => do
    let currentTail ← q.tailNode
    let node ← q.nodes currentTail
    let q := q.setNode currentTail (some { node with next := some a })
    some { q with
      tailNode := some a
      size := q.size + 1 }

/-- The first node leaves the queue and stays in the heap; its link is left as it was. -/
def popFront (q : LinkedQueue α) : Option (Option ℕ × LinkedQueue α) :=
  if q.size = 0 then
    some (none, q)
  else if q.size = 1 then
    some (q.headNode, { q with
      headNode := none
      tailNode := none
      size := q.size - 1 })
  else do
    let tmpNode ← q.headNode
    let node ← q.nodes tmpNode
    some (some tmpNode, { q with
      headNode := node.next
      size := q.size - 1 })

/-- A node of the heap in front of the first one. -/
def pushFront (q : LinkedQueue α) (a : ℕ) : Option (LinkedQueue α) :=
  match q.headNode with
  | none => some { q with
      headNode := some a
      tailNode := some a
      size := q.size + 1 }
  | some head => do
    let node ← q.nodes a
    let q := q.setNode a (some { node with next := some head })
    some { q with
      headNode := some a
      size := q.size + 1 }

/-- The node at an address carries another value. -/
def modify (q : LinkedQueue α) (a : ℕ) (f : α → α) : LinkedQueue α :=
  q.setNode a ((q.nodes a).map fun n => { n with value := f n.value })

/-- The node at an address is deleted. -/
def free (q : LinkedQueue α) (a : ℕ) : LinkedQueue α := q.setNode a none

/-- The addresses on the way from `head`, at most `fuel` of them. -/
def walk (q : LinkedQueue α) : ℕ → Option ℕ → List ℕ
  | 0, _ => []
  | _ + 1, none => []
  | fuel + 1, some a => a :: q.walk fuel (q.next? a)

/-- The addresses in the queue, first to last. -/
def toList (q : LinkedQueue α) : List ℕ := q.walk q.size q.headNode

/-! ## The queue as a list -/

/-- The links visit `l`, no node twice and every node in the heap; the fields agree with it. -/
structure Represents (q : LinkedQueue α) (l : List ℕ) : Prop where
  linked : Linked q.next? q.headNode l
  tail : q.tailNode = l.getLast?
  size : q.size = l.length
  nodup : l.Nodup
  live : ∀ a ∈ l, (q.nodes a).isSome

theorem represents_empty : (empty : LinkedQueue α).Represents [] :=
  ⟨rfl, rfl, rfl, List.nodup_nil, by simp⟩

section Nodes

variable {q : LinkedQueue α} {a b : ℕ} {l : List ℕ} {n : Option (QueueNode α)}

@[simp] theorem setNode_nodes_self : (q.setNode a n).nodes a = n := Function.update_self ..

theorem setNode_nodes_of_ne (h : b ≠ a) : (q.setNode a n).nodes b = q.nodes b :=
  Function.update_of_ne h ..

@[simp] theorem setNode_headNode : (q.setNode a n).headNode = q.headNode := rfl

@[simp] theorem setNode_tailNode : (q.setNode a n).tailNode = q.tailNode := rfl

@[simp] theorem setNode_value?_self : (q.setNode a n).value? a = n.map QueueNode.value := by
  rw [value?, setNode_nodes_self]

theorem setNode_value?_of_ne (h : b ≠ a) : (q.setNode a n).value? b = q.value? b := by
  rw [value?, value?, setNode_nodes_of_ne h]

theorem setNode_next?_of_ne (h : b ≠ a) : (q.setNode a n).next? b = q.next? b := by
  rw [next?, next?, setNode_nodes_of_ne h]

/-- A node outside the queue can be replaced. -/
theorem Represents.setNode (h : q.Represents l) (ha : a ∉ l) : (q.setNode a n).Represents l where
  linked := h.linked.congr fun b hb => setNode_next?_of_ne fun hba => ha (hba ▸ hb)
  tail := h.tail
  size := h.size
  nodup := h.nodup
  live := by
    intro b hb
    have hne : b ≠ a := fun hba => ha (hba ▸ hb)
    rw [setNode_nodes_of_ne hne]
    exact h.live b hb

theorem Represents.free (h : q.Represents l) (ha : a ∉ l) : (q.free a).Represents l :=
  h.setNode ha

theorem Represents.modify {f : α → α} (h : q.Represents l) (ha : a ∉ l) :
    (q.modify a f).Represents l :=
  h.setNode ha

@[simp] theorem modify_value?_self {f : α → α} : (q.modify a f).value? a = (q.value? a).map f := by
  rw [modify, setNode_value?_self, value?, Option.map_map, Option.map_map]
  rfl

theorem modify_value?_of_ne {f : α → α} (h : b ≠ a) : (q.modify a f).value? b = q.value? b :=
  setNode_value?_of_ne h

theorem free_value?_of_ne (h : b ≠ a) : (q.free a).value? b = q.value? b :=
  setNode_value?_of_ne h

@[simp] theorem modify_next? {f : α → α} : (q.modify a f).next? b = q.next? b := by
  by_cases hb : b = a
  · subst hb
    rw [modify, next?, setNode_nodes_self, next?]
    cases q.nodes b <;> rfl
  · exact setNode_next?_of_ne hb

@[simp] theorem free_modify {f : α → α} : (q.modify a f).free a = q.free a := by
  simp [free, modify, LinkedQueue.setNode]

/-- An address without a node is not in the queue. -/
theorem Represents.notMem_of_none (h : q.Represents l) (ha : q.nodes a = none) : a ∉ l := by
  intro hmem
  have hlive := h.live a hmem
  rw [ha] at hlive
  exact absurd hlive (by simp)

theorem Represents.headNode_eq (h : q.Represents l) : q.headNode = l.head? := by
  cases l with
  | nil => exact h.linked
  | cons a l => exact h.linked.1

end Nodes

/-! ## The operations -/

/-- The links up to the last node stay, and the last node leads to the new one. -/
theorem linked_concat {next next' : ℕ → Option ℕ} {head : Option ℕ} {l : List ℕ} {t a : ℕ}
    (h : Linked next head (l ++ [t])) (hnodup : (l ++ [t]).Nodup)
    (hkeep : ∀ b ∈ l, next' b = next b) (ht : next' t = some a) (ha : next' a = none) :
    Linked next' head (l ++ [t] ++ [a]) := by
  induction l generalizing head with
  | nil =>
    refine ⟨h.1, ht, ha⟩
  | cons b l ih =>
    refine ⟨h.1, ?_⟩
    rw [hkeep b List.mem_cons_self]
    exact ih h.2 (List.nodup_cons.mp hnodup).2 fun c hc => hkeep c (List.mem_cons_of_mem b hc)

section Operations

variable {q : LinkedQueue α} {a : ℕ} {l : List ℕ}

/-- Into an empty queue. -/
theorem pushBack_of_none {v : α} (h : q.headNode = none) :
    q.pushBack a v = some { q.setNode a (some ⟨none, v⟩) with
      headNode := some a
      tailNode := some a
      size := q.size + 1 } := by
  simp only [pushBack, setNode_headNode, h]
  rfl

/-- Behind the last node. -/
theorem pushBack_of_some {v : α} {first t : ℕ} {node : QueueNode α} (h : q.headNode = some first)
    (ht : q.tailNode = some t) (hta : t ≠ a) (hnode : q.nodes t = some node) :
    q.pushBack a v = some
      { (q.setNode a (some ⟨none, v⟩)).setNode t (some { node with next := some a }) with
        tailNode := some a
        size := q.size + 1 } := by
  have hnode' : (q.setNode a (some ⟨none, v⟩)).nodes t = some node := by
    rw [setNode_nodes_of_ne hta, hnode]
  simp only [pushBack, setNode_headNode, h, setNode_tailNode, ht, Option.bind_eq_bind,
    Option.bind_some, hnode']
  rfl

/-- The only node. -/
theorem popFront_of_one (h : q.size = 1) :
    q.popFront = some (q.headNode, { q with
      headNode := none
      tailNode := none
      size := q.size - 1 }) := by
  rw [popFront, if_neg (by omega), if_pos h]

/-- The first of several nodes keeps its `next`. -/
theorem popFront_of_many {n : QueueNode α} (h : 1 < q.size) (ha : q.headNode = some a)
    (hn : q.nodes a = some n) :
    q.popFront = some (some a, { q with
      headNode := n.next
      size := q.size - 1 }) := by
  rw [popFront, if_neg (by omega), if_neg (by omega), ha]
  simp only [Option.bind_eq_bind, Option.bind_some, hn]

/-- Into an empty queue, with the `next` the node has. -/
theorem pushFront_of_none (h : q.headNode = none) :
    q.pushFront a = some { q with
      headNode := some a
      tailNode := some a
      size := q.size + 1 } := by
  simp only [pushFront, h]

/-- Before the first node. -/
theorem pushFront_of_some {first : ℕ} {n : QueueNode α} (h : q.headNode = some first)
    (hn : q.nodes a = some n) :
    q.pushFront a = some { q.setNode a (some { n with next := some first }) with
      headNode := some a
      size := q.size + 1 } := by
  simp only [pushFront, h, hn, Option.bind_eq_bind, Option.bind_some]
  rfl

/-- A new node goes to the back; the other nodes carry what they carried. -/
theorem Represents.pushBack (h : q.Represents l) (ha : q.nodes a = none) (v : α) :
    ∃ q', q.pushBack a v = some q' ∧ q'.Represents (l ++ [a]) ∧ q'.value? a = some v ∧
      (∀ b, b ≠ a → q'.value? b = q.value? b) ∧ (∀ b, b ∉ l → b ≠ a → q'.next? b = q.next? b) := by
  have hnew : a ∉ l := h.notMem_of_none ha
  have hq := h.setNode (n := some ⟨none, v⟩) hnew
  rcases List.eq_nil_or_concat l with hnil | ⟨front, t, hl⟩
  · subst hnil
    refine ⟨_, pushBack_of_none h.headNode_eq, ?_, ?_, ?_, ?_⟩
    · refine ⟨⟨rfl, ?_⟩, rfl, ?_, List.nodup_singleton a, ?_⟩
      · show (q.setNode a _).next? a = none
        simp [next?]
      · simpa using h.size
      · simp [LinkedQueue.setNode]
    · simp [value?, LinkedQueue.setNode]
    · intro b hb
      exact setNode_value?_of_ne hb
    · intro b _ hb
      exact setNode_next?_of_ne hb
  · rw [List.concat_eq_append] at hl
    subst hl
    -- the tail is the last node of the list, and it is in the heap
    have hat : t ≠ a := by
      intro hta
      exact hnew (by simp [hta])
    have htail : q.tailNode = some t := by rw [h.tail]; simp
    have hlive : (q.nodes t).isSome := h.live t (by simp)
    rcases Option.isSome_iff_exists.mp hlive with ⟨node, hnode⟩
    have hhead : q.headNode ≠ none := by
      rw [h.headNode_eq]
      simp
    rcases Option.ne_none_iff_exists'.mp hhead with ⟨first, hfirst⟩
    refine ⟨_, pushBack_of_some hfirst htail hat hnode, ?_, ?_, ?_, ?_⟩
    · refine ⟨?_, ?_, ?_, ?_, ?_⟩
      · apply linked_concat hq.linked h.nodup
        · intro b hb
          have hbt : b ≠ t := by
            intro hbt
            have hdup := h.nodup
            rw [List.nodup_append] at hdup
            exact hdup.2.2 b hb t (by simp) hbt
          exact setNode_next?_of_ne hbt
        · simp [next?, LinkedQueue.setNode]
        · simp only [next?, LinkedQueue.setNode]
          rw [Function.update_of_ne hat.symm, Function.update_self]
          rfl
      · simp
      · simpa using h.size
      · rw [List.nodup_append]
        refine ⟨h.nodup, List.nodup_singleton a, ?_⟩
        intro b hb c hc hbc
        rw [List.mem_singleton] at hc
        exact hnew (hc ▸ hbc ▸ hb)
      · intro b hb
        simp only [LinkedQueue.setNode, Function.update_apply]
        split
        · rfl
        · split
          · rfl
          · rename_i hba
            rw [List.mem_append, List.mem_singleton] at hb
            exact h.live b (hb.resolve_right hba)
    · simp [value?, LinkedQueue.setNode, Function.update_of_ne hat.symm]
    · intro b hb
      show ((q.setNode a _).setNode t _).value? b = _
      by_cases hbt : b = t
      · subst hbt
        rw [setNode_value?_self, value?, hnode]
        rfl
      · rw [setNode_value?_of_ne hbt, setNode_value?_of_ne hb]
    · intro b hb hba
      show ((q.setNode a _).setNode t _).next? b = _
      have hbt : b ≠ t := by
        intro hbt
        exact hb (by simp [hbt])
      rw [setNode_next?_of_ne hbt, setNode_next?_of_ne hba]

theorem Represents.popFront_nil (h : q.Represents []) : q.popFront = some (none, q) := by
  have hsize : q.size = 0 := h.size
  rw [LinkedQueue.popFront, if_pos hsize]

/-- The first node leaves, and the heap stays as it is. The link of the only node was null. -/
theorem Represents.popFront_cons (h : q.Represents (a :: l)) :
    ∃ q', q.popFront = some (some a, q') ∧ q'.Represents l ∧ q'.nodes = q.nodes ∧
      (l = [] → q.next? a = none) := by
  have hsize : q.size = l.length + 1 := h.size
  have hhead : q.headNode = some a := h.linked.1
  have hnodup := (List.nodup_cons.mp h.nodup).2
  have hlive : ∀ b ∈ l, (q.nodes b).isSome := fun b hb => h.live b (List.mem_cons_of_mem a hb)
  cases l with
  | nil =>
    have hone : q.size = 1 := hsize
    have hpop := popFront_of_one hone
    rw [hhead] at hpop
    refine ⟨_, hpop, ?_, rfl, ?_⟩
    · refine ⟨rfl, rfl, ?_, List.nodup_nil, by simp⟩
      show q.size - 1 = 0
      omega
    · intro _
      exact h.linked.2
  | cons b l =>
    rcases Option.isSome_iff_exists.mp (h.live a List.mem_cons_self) with ⟨node, hnode⟩
    have hlen : q.size = l.length + 2 := hsize
    refine ⟨_, popFront_of_many (by omega) hhead hnode, ?_, rfl, by simp⟩
    have hnext : q.next? a = node.next := by rw [next?, hnode]; rfl
    have hlinked : Linked q.next? (q.next? a) (b :: l) := h.linked.2
    rw [hnext] at hlinked
    refine ⟨hlinked, ?_, ?_, hnodup, hlive⟩
    · show q.tailNode = _
      rw [h.tail]
      simp
    · show q.size - 1 = _
      rw [hlen]
      rfl

/-- A node outside the queue goes to the front. Before an empty queue its link has to be null
already: the operation leaves it there. -/
theorem Represents.pushFront (h : q.Represents l) (ha : a ∉ l) (hlive : (q.nodes a).isSome)
    (hnext : l = [] → q.next? a = none) :
    ∃ q', q.pushFront a = some q' ∧ q'.Represents (a :: l) ∧ ∀ b, q'.value? b = q.value? b := by
  have hnodup : (a :: l).Nodup := List.nodup_cons.mpr ⟨ha, h.nodup⟩
  have hhead := h.headNode_eq
  cases l with
  | nil =>
    refine ⟨_, pushFront_of_none hhead, ?_, fun b => rfl⟩
    refine ⟨⟨rfl, hnext rfl⟩, rfl, ?_, hnodup, ?_⟩
    · simpa using h.size
    · simpa using hlive
  | cons b l =>
    rcases Option.isSome_iff_exists.mp hlive with ⟨node, hnode⟩
    have hq := h.setNode (n := some { node with next := some b }) ha
    refine ⟨_, pushFront_of_some hhead hnode, ?_, ?_⟩
    · refine ⟨⟨rfl, ?_⟩, ?_, ?_, hnodup, ?_⟩
      · have hb : (q.setNode a (some { node with next := some b })).next? a = some b := by
          simp [next?]
        have hlinked := hq.linked
        rw [setNode_headNode, hhead] at hlinked
        show Linked (q.setNode a _).next? ((q.setNode a _).next? a) (b :: l)
        rw [hb]
        exact hlinked
      · show q.tailNode = _
        rw [h.tail]
        simp
      · show q.size + 1 = _
        rw [h.size]
        rfl
      · intro c hc
        rw [List.mem_cons] at hc
        rcases hc with hc | hc
        · subst hc
          simp [LinkedQueue.setNode]
        · exact hq.live c hc
    · intro c
      show (q.setNode a _).value? c = _
      by_cases hc : c = a
      · subst hc
        rw [setNode_value?_self, value?, hnode]
        rfl
      · rw [setNode_value?_of_ne hc]

/-- Only the link of the node that goes to the front is written. -/
theorem pushFront_next?_of_ne {q' : LinkedQueue α} {b : ℕ} (h : q.pushFront a = some q')
    (hb : b ≠ a) : q'.next? b = q.next? b := by
  unfold pushFront at h
  split at h
  · cases h
    rfl
  · obtain ⟨node, _, hq⟩ := Option.bind_eq_some_iff.mp h
    cases hq
    exact setNode_next?_of_ne hb

end Operations

/-- The walk along the links is the list they visit. -/
theorem walk_eq {q : LinkedQueue α} {head : Option ℕ} {l : List ℕ} (h : Linked q.next? head l) :
    q.walk l.length head = l := by
  induction l generalizing head with
  | nil => rfl
  | cons a l ih =>
    rw [h.1, List.length_cons, walk, ih h.2]

theorem Represents.toList_eq {q : LinkedQueue α} {l : List ℕ} (h : q.Represents l) :
    q.toList = l := by
  rw [toList, h.size, walk_eq h.linked]

end LinkedQueue

end Lib
