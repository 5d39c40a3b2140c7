import Mathlib.Data.List.Basic
import Mathlib.Logic.Function.Basic

/-!
# Trees in arrays that move

The children of a node are stored by value in an array. When a child is added, the
array may be moved, and with it the nodes in it; each node has a pointer to its
parent, so the pointers of the grandchildren have to be repaired then. One level is
enough: the nodes further down lie in arrays that were not moved.

A block is an array at its current address. An access to a place at which there is
no node has no value.
-/

namespace ArrayTree

variable {α : Type*}

/-- The address of a node: the array it lies in, and its index there. -/
structure NodePtr where
  block : Nat
  index : Nat
deriving DecidableEq, Repr

/-- A node, with the array of its children. -/
structure Node (α : Type*) where
  data : α
  parent : Option NodePtr
  elems : Option Nat
  num : Nat
deriving DecidableEq, Repr

/-- The arrays in memory; an array that is not allocated is empty. -/
structure Heap (α : Type*) where
  cells : Nat → List (Node α)
  top : Nat
  free : ∀ b, top ≤ b → cells b = []

namespace Heap

/-- The node at an address. -/
def get (h : Heap α) (p : NodePtr) : Option (Node α) := (h.cells p.block)[p.index]?

/-- Put an array into a block. -/
def setBlock (h : Heap α) (b : Nat) (l : List (Node α)) : Heap α where
  cells := Function.update h.cells b l
  top := max h.top (b + 1)
  free := by
    intro c hc
    rw [Function.update_of_ne (by omega)]
    exact h.free c (by omega)

/-- Change the node at an address. -/
def modify (h : Heap α) (p : NodePtr) (f : Node α → Node α) : Option (Heap α) :=
  (h.get p).map fun n => h.setBlock p.block ((h.cells p.block).set p.index (f n))

end Heap

/-- `realloc`: the block in which the array is afterwards. It is the old one or one
that is not in use. -/
structure Allocator (α : Type*) where
  realloc : Heap α → Option Nat → Nat
  fresh : ∀ h old, some (realloc h old) = old ∨ h.cells (realloc h old) = []

/-- An allocator that always moves. -/
def Allocator.moving (α : Type*) : Allocator α where
  realloc h _ := h.top
  fresh h _ := .inr (h.free _ (Nat.le_refl _))

/-! ## Adding a child -/

/-- The children of a node get the parent `p`, `num` of them. -/
def setParents (elems : Option Nat) (p : NodePtr) : Nat → Heap α → Option (Heap α)
  | 0, h => some h
  | k + 1, h => (setParents elems p k h).bind fun h =>
      elems.bind fun c => h.modify (NodePtr.mk c k) fun n => { n with parent := some p }

/-- The pointers of the children of the first nodes in a block are repaired. -/
def repair (b : Nat) : Nat → Heap α → Option (Heap α)
  | 0, h => some h
  | i + 1, h => (repair b i h).bind fun h =>
      (h.get (NodePtr.mk b i)).bind fun n => setParents n.elems (NodePtr.mk b i) n.num h

/-- The nodes in an array, if there is one. -/
def Heap.array (h : Heap α) : Option Nat → List (Node α)
  | some b => h.cells b
  | none => []

/-- An array is given back. -/
def Heap.release (h : Heap α) : Option Nat → Heap α
  | some b => h.setBlock b []
  | none => h

/-- The array of the children of `s` is made longer by one node and put where the
allocator says; the new node comes last. -/
def grow (alloc : Allocator α) (h : Heap α) (s : NodePtr) (n : Node α) (d : α) :
    Option (Heap α × NodePtr) :=
  let b := alloc.realloc h n.elems
  let moved := (h.release n.elems).setBlock b (h.array n.elems ++ [Node.mk d (some s) none 0])
  (moved.modify s fun n => { n with elems := some b, num := n.num + 1 }).map
    fun h => (h, NodePtr.mk b n.num)

/-- Add a child to the node at `s` and repair the pointers of its grandchildren. -/
def addChild (alloc : Allocator α) (h : Heap α) (s : NodePtr) (d : α) : Option (Heap α × NodePtr) :=
  (h.get s).bind fun n => (grow alloc h s n d).bind fun (h, c) =>
    (repair c.block n.num h).map fun h => (h, c)

/-! ## The tree and the pointers to the parents -/

/-- The nodes that are met when the pointers to the parents are followed to the end. -/
inductive Visits (h : Heap α) : NodePtr → List NodePtr → Prop
  | last {p n} (hp : h.get p = some n) (hparent : n.parent = none) : Visits h p [p]
  | next {p n q l} (hp : h.get p = some n) (hparent : n.parent = some q) (hq : Visits h q l) :
      Visits h p (p :: l)

/-- The place of a node in the tree: the nodes around it, from the inside to the root. -/
inductive Inside (h : Heap α) (root : NodePtr) : NodePtr → List NodePtr → Prop
  | root : Inside h root root [root]
  | elem {p l n b i c} (hp : Inside h root p l) (hget : h.get p = some n) (hb : n.elems = some b)
      (hi : i < n.num) (hc : h.get ⟨b, i⟩ = some c) : Inside h root ⟨b, i⟩ (⟨b, i⟩ :: l)

variable {alloc : Allocator α} {h h' : Heap α} {p q s c root : NodePtr} {n m : Node α} {d : α}

/-! ## Single accesses -/

theorem Heap.get_setBlock (h : Heap α) (b : Nat) (l : List (Node α)) (p : NodePtr) :
    (h.setBlock b l).get p = if p.block = b then l[p.index]? else h.get p := by
  have hcells : (h.setBlock b l).cells = Function.update h.cells b l := rfl
  rw [get, hcells]
  by_cases hb : p.block = b
  · rw [if_pos hb, hb, Function.update_self]
  · rw [if_neg hb, Function.update_of_ne hb, get]

theorem Heap.get_of_free {b : Nat} (hb : h.cells b = []) (i : Nat) : h.get ⟨b, i⟩ = none := by
  rw [get, hb, List.getElem?_nil]

/-- A node is changed in its place, and nothing else. -/
theorem Heap.modify_eq {f : Node α → Node α} (hp : h.get p = some n) :
    ∃ h', h.modify p f = some h' ∧
      ∀ q, h'.get q = if q = p then some (f n) else h.get q := by
  refine ⟨_, by rw [modify, hp, Option.map_some], fun q => ?_⟩
  obtain ⟨hlt, -⟩ := List.getElem?_eq_some_iff.1 hp
  rw [get_setBlock]
  by_cases hblock : q.block = p.block
  · by_cases hindex : q.index = p.index
    · have hq : q = p := by
        cases q
        cases p
        simp_all
      rw [if_pos hblock, if_pos hq, hindex, List.getElem?_set_self hlt]
    · have hq : q ≠ p := fun heq => hindex (congrArg NodePtr.index heq)
      rw [if_pos hblock, if_neg hq, List.getElem?_set_ne (Ne.symm hindex), get, hblock]
  · have hq : q ≠ p := fun heq => hblock (congrArg NodePtr.block heq)
    rw [if_neg hblock, if_neg hq]

/-! ## The repair -/

/-- The node `q` is among the first `k` children of a node with the array `elems`. -/
def ChildBelow (elems : Option Nat) (k : Nat) (q : NodePtr) : Prop :=
  elems = some q.block ∧ q.index < k

instance (elems : Option Nat) (k : Nat) (q : NodePtr) : Decidable (ChildBelow elems k q) :=
  inferInstanceAs (Decidable (elems = some q.block ∧ q.index < k))

/-- The node with another parent. -/
def Node.withParent (n : Node α) (p : NodePtr) : Node α := { n with parent := some p }

theorem setParents_eq {elems : Option Nat} {k : Nat}
    (hchilds : ∀ i < k, ∃ b m, elems = some b ∧ h.get ⟨b, i⟩ = some m) :
    ∃ h', setParents elems p k h = some h' ∧
      ∀ q, h'.get q = (h.get q).map fun m => if ChildBelow elems k q then m.withParent p else m := by
  induction k with
  | zero => exact ⟨h, rfl, fun q => by simp [ChildBelow]⟩
  | succ k ih =>
      obtain ⟨h₁, hrun, hget⟩ := ih fun i hi => hchilds i (Nat.lt_succ_of_lt hi)
      obtain ⟨b, m, rfl, hm⟩ := hchilds k (Nat.lt_succ_self k)
      have hm₁ : h₁.get ⟨b, k⟩ = some m := by
        rw [hget, hm]
        simp [ChildBelow]
      obtain ⟨h₂, hmodify, hget₂⟩ := Heap.modify_eq (f := fun n => n.withParent p) hm₁
      refine ⟨h₂, by rw [setParents, hrun]; exact hmodify, fun q => ?_⟩
      rw [hget₂]
      by_cases hq : q = ⟨b, k⟩
      · subst hq
        rw [if_pos rfl, hm]
        simp [ChildBelow]
      · have hsame : ChildBelow (some b) (k + 1) q ↔ ChildBelow (some b) k q := by
          constructor
          · rintro ⟨hb, hlt⟩
            refine ⟨hb, Nat.lt_of_le_of_ne (Nat.le_of_lt_succ hlt) fun heq => hq ?_⟩
            rw [← heq, Option.some.inj hb]
          · exact fun ⟨hb, hlt⟩ => ⟨hb, Nat.lt_succ_of_lt hlt⟩
        rw [if_neg hq, hget]
        simp only [hsame]

/-- The node `q` is a child of one of the first `i` nodes of a block. -/
def ChildOfFirst (h : Heap α) (b i : Nat) (q : NodePtr) (j : Nat) : Prop :=
  j < i ∧ ∃ m, h.get ⟨b, j⟩ = some m ∧ ChildBelow m.elems m.num q

/-- A heap in which only pointers to parents have changed. -/
def SameButParents (h h' : Heap α) : Prop :=
  ∀ q, (h'.get q).map (fun m => (m.data, m.elems, m.num)) =
    (h.get q).map fun m => (m.data, m.elems, m.num)

theorem SameButParents.get (hsame : SameButParents h h') (hq : h.get q = some m) :
    ∃ m', h'.get q = some m' ∧ m'.data = m.data ∧ m'.elems = m.elems ∧ m'.num = m.num := by
  have heq := hsame q
  rw [hq, Option.map_some, Option.map_eq_some_iff] at heq
  obtain ⟨m', hget, heq⟩ := heq
  simp only [Prod.mk.injEq] at heq
  exact ⟨m', hget, heq⟩

/-- The children of the first `i` nodes of the block get their parents, and other nodes
stay as they are. The arrays of different nodes are different. -/
theorem repair_eq {b i : Nat}
    (hnodes : ∀ j < i, ∃ m, h.get ⟨b, j⟩ = some m ∧
      ∀ k < m.num, ∃ e c, m.elems = some e ∧ h.get ⟨e, k⟩ = some c)
    (hapart : ∀ j k q, ChildOfFirst h b i q j → ChildOfFirst h b i q k → j = k) :
    ∃ h', repair b i h = some h' ∧ SameButParents h h' ∧
      (∀ q m, h'.get q = some m → ∀ j, ChildOfFirst h b i q j → m.parent = some ⟨b, j⟩) ∧
      ∀ q, (∀ j, ¬ ChildOfFirst h b i q j) → h'.get q = h.get q := by
  induction i with
  | zero => exact ⟨h, rfl, fun q => rfl, fun q m _ j hj => absurd hj.1 (Nat.not_lt_zero j),
      fun q _ => rfl⟩
  | succ i ih =>
      have hstep : ∀ {q j}, ChildOfFirst h b i q j → ChildOfFirst h b (i + 1) q j :=
        fun hj => ⟨Nat.lt_succ_of_lt hj.1, hj.2⟩
      obtain ⟨h₁, hrun, hsame, hparent, hother⟩ := ih
        (fun j hj => hnodes j (Nat.lt_succ_of_lt hj))
        fun j k q hj hk => hapart j k q (hstep hj) (hstep hk)
      obtain ⟨m, hm, hchilds⟩ := hnodes i (Nat.lt_succ_self i)
      obtain ⟨m₁, hm₁, -, helems, hnum⟩ := hsame.get hm
      have hchilds₁ : ∀ k < m₁.num, ∃ e c, m₁.elems = some e ∧ h₁.get ⟨e, k⟩ = some c := by
        intro k hk
        obtain ⟨e, c, he, hc⟩ := hchilds k (hnum ▸ hk)
        obtain ⟨c', hc', -⟩ := hsame.get hc
        exact ⟨e, c', helems.trans he, hc'⟩
      obtain ⟨h₂, hset, hget⟩ := setParents_eq (p := ⟨b, i⟩) hchilds₁
      have hlast : ∀ q, ChildBelow m₁.elems m₁.num q ↔ ChildOfFirst h b (i + 1) q i := by
        intro q
        rw [helems, hnum]
        constructor
        · exact fun hq => ⟨Nat.lt_succ_self i, m, hm, hq⟩
        · rintro ⟨-, m', hm', hq⟩
          obtain rfl := Option.some.inj (hm.symm.trans hm')
          exact hq
      refine ⟨h₂, by rw [repair, hrun, Option.bind_some, hm₁]; exact hset, fun q => ?_,
        fun q x hx j hj => ?_, fun q hq => ?_⟩
      · rw [hget, ← hsame q, Option.map_map]
        congr 1
        funext x
        by_cases hbelow : ChildBelow m₁.elems m₁.num q <;> simp [hbelow, Node.withParent]
      · rw [hget, Option.map_eq_some_iff] at hx
        obtain ⟨y, hy, rfl⟩ := hx
        by_cases hji : j = i
        · subst hji
          rw [if_pos ((hlast q).2 hj)]
          rfl
        · have hbefore : ChildOfFirst h b i q j :=
            ⟨Nat.lt_of_le_of_ne (Nat.le_of_lt_succ hj.1) hji, hj.2⟩
          have hnot : ¬ ChildBelow m₁.elems m₁.num q := fun hbelow =>
            hji (hapart j i q hj ((hlast q).1 hbelow))
          rw [if_neg hnot]
          exact hparent q y hy j hbefore
      · have hnot : ¬ ChildBelow m₁.elems m₁.num q := fun hbelow => hq i ((hlast q).1 hbelow)
        rw [hget, hother q fun j hj => hq j (hstep hj)]
        simp [hnot]

/-! ## Growing the array -/

/-- Where a node is after the array `elems` was moved to the block `b`. -/
def relocate (elems : Option Nat) (b : Nat) (p : NodePtr) : NodePtr :=
  if elems = some p.block then ⟨b, p.index⟩ else p

/-- The node `s` after it got a child. -/
def Node.grown (m : Node α) (b : Nat) : Node α := { m with elems := some b, num := m.num + 1 }

/-- The new array with a new node at its end. -/
structure Grown (h h' : Heap α) (s c : NodePtr) (n : Node α) (d : α) : Prop where
  index : c.index = n.num
  apart : ∀ p m, h.get p = some m → n.elems ≠ some p.block → p.block ≠ c.block
  new : h'.get c = some ⟨d, some s, none, 0⟩
  old : ∀ p m, h.get p = some m →
    h'.get (relocate n.elems c.block p) = some (if p = s then m.grown c.block else m)
  all : ∀ q m, h'.get q = some m →
    q = c ∨ ∃ p m, h.get p = some m ∧ q = relocate n.elems c.block p

/-- The array of a node with children holds them, one without has none. -/
def HoldsChilds (h : Heap α) (n : Node α) : Prop :=
  match n.elems with
  | some b => (h.cells b).length = n.num
  | none => n.num = 0

theorem HoldsChilds.length (hn : HoldsChilds h n) : (h.array n.elems).length = n.num := by
  unfold HoldsChilds at hn
  unfold Heap.array
  split at hn
  · exact hn
  · rw [hn]
    rfl

theorem Heap.get_array (h : Heap α) (elems : Option Nat) (hp : elems = some p.block) :
    (h.array elems)[p.index]? = h.get p := by
  rw [hp]
  rfl

theorem Heap.get_release (h : Heap α) (elems : Option Nat) (p : NodePtr) :
    (h.release elems).get p = if elems = some p.block then none else h.get p := by
  cases elems with
  | none => rfl
  | some b =>
      rw [release, get_setBlock]
      by_cases hb : p.block = b
      · simp [hb]
      · simp [hb, Ne.symm hb]

theorem grow_eq (alloc : Allocator α) (d : α) (hs : h.get s = some n)
    (hself : n.elems ≠ some s.block) (hn : HoldsChilds h n) :
    ∃ h' c, grow alloc h s n d = some (h', c) ∧ Grown h h' s c n d := by
  have hlen := hn.length
  generalize hb : alloc.realloc h n.elems = b
  have hfree : ∀ p m, h.get p = some m → n.elems ≠ some p.block → p.block ≠ b := by
    intro p m hp hold heq
    rcases alloc.fresh h n.elems with hsame | hempty
    · exact hold (by rw [← hsame, hb, heq])
    · rw [Heap.get, heq, ← hb, hempty, List.getElem?_nil] at hp
      exact absurd hp (by simp)
  generalize hmoved : (h.release n.elems).setBlock b
    (h.array n.elems ++ [Node.mk d (some s) none 0]) = moved
  have hget : ∀ q, moved.get q =
      if q.block = b then (h.array n.elems ++ [Node.mk d (some s) none 0])[q.index]?
      else if n.elems = some q.block then none else h.get q := by
    intro q
    rw [← hmoved, Heap.get_setBlock, Heap.get_release]
  have hkeep : ∀ p m, h.get p = some m → moved.get (relocate n.elems b p) = some m := by
    intro p m hp
    rw [hget, relocate]
    by_cases hin : n.elems = some p.block
    · have hat := h.get_array n.elems hin
      rw [hp] at hat
      rw [if_pos hin, if_pos rfl, List.getElem?_append_left (List.getElem?_eq_some_iff.1 hat).1, hat]
    · rw [if_neg hin, if_neg (hfree p m hp hin), if_neg hin, hp]
  have hstay : relocate n.elems b s = s := if_neg hself
  have hs' : moved.get s = some n := by
    have hmove := hkeep s n hs
    rwa [hstay] at hmove
  obtain ⟨h', hmodify, hget'⟩ := Heap.modify_eq (f := fun n => n.grown b) hs'
  have hlast : (h.array n.elems ++ [Node.mk d (some s) none 0])[n.num]? =
      some ⟨d, some s, none, 0⟩ := by
    rw [← hlen]
    simp
  have hne : (⟨b, n.num⟩ : NodePtr) ≠ s := fun heq =>
    hfree s n hs hself (congrArg NodePtr.block heq).symm
  refine ⟨h', ⟨b, n.num⟩, ?_, rfl, hfree, ?_, fun p m hp => ?_, fun q m hq => ?_⟩
  · simp only [grow, hb, hmoved]
    have hrun : (moved.modify s fun n => { n with elems := some b, num := n.num + 1 }) = some h' :=
      hmodify
    rw [hrun, Option.map_some]
  · rw [hget', if_neg hne, hget, if_pos rfl, hlast]
  · have hiff : relocate n.elems b p = s ↔ p = s := by
      constructor
      · intro heq
        unfold relocate at heq
        split at heq
        · exact absurd (congrArg NodePtr.block heq).symm (hfree s n hs hself)
        · exact heq
      · rintro rfl
        exact hstay
    rw [hget']
    by_cases hp' : p = s
    · subst hp'
      obtain rfl := Option.some.inj (hs.symm.trans hp)
      rw [if_pos hstay, if_pos rfl]
    · rw [if_neg (mt hiff.1 hp'), if_neg hp', hkeep p m hp]
  · by_cases hqc : q = ⟨b, n.num⟩
    · exact .inl hqc
    · right
      have hq' : ∃ m, moved.get q = some m := by
        rw [hget'] at hq
        split at hq
        · rename_i heq
          exact ⟨n, heq ▸ hs'⟩
        · exact ⟨m, hq⟩
      obtain ⟨x, hx⟩ := hq'
      rw [hget] at hx
      by_cases hblock : q.block = b
      · rw [if_pos hblock] at hx
        have hlt : q.index < n.num := by
          obtain ⟨hlt, -⟩ := List.getElem?_eq_some_iff.1 hx
          rw [List.length_append, hlen, List.length_singleton] at hlt
          refine Nat.lt_of_le_of_ne (Nat.le_of_lt_succ hlt) fun heq => hqc ?_
          rw [← heq, ← hblock]
        rw [List.getElem?_append_left (by rw [hlen]; exact hlt)] at hx
        cases helems : n.elems with
        | none =>
            rw [helems] at hx
            exact absurd hx (by simp [Heap.array])
        | some e =>
            rw [helems] at hx
            refine ⟨⟨e, q.index⟩, x, hx, ?_⟩
            rw [relocate, if_pos rfl, ← hblock]
      · rw [if_neg hblock] at hx
        split at hx
        · exact absurd hx (by simp)
        · rename_i hnot
          exact ⟨q, x, hx, (if_neg hnot).symm⟩

/-! ## The invariant -/

/-- Every array belongs to a node, holds as many nodes as the node has children, and
each of them has that node as its parent. The root lies alone in its block. -/
structure Linked (h : Heap α) (root : NodePtr) : Prop where
  rootNode : ∃ n, h.get root = some n ∧ n.parent = none
  alone : ∀ p n, h.get p = some n → p.block = root.block → p = root
  apart : ∀ p n, h.get p = some n → n.elems ≠ some root.block
  holds : ∀ p n, h.get p = some n → HoldsChilds h n
  nonempty : ∀ p n, h.get p = some n → n.elems ≠ none → 0 < n.num
  parent : ∀ p n b i c, h.get p = some n → n.elems = some b → h.get ⟨b, i⟩ = some c →
    c.parent = some p
  owned : ∀ q c, h.get q = some c → q ≠ root → ∃ p n, h.get p = some n ∧ n.elems = some q.block

theorem HoldsChilds.get (hn : HoldsChilds h n) {i : Nat} {b : Nat} (hb : n.elems = some b) :
    (∃ c, h.get ⟨b, i⟩ = some c) ↔ i < n.num := by
  have hlen := hn.length
  rw [hb] at hlen
  rw [← hlen]
  constructor
  · rintro ⟨c, hc⟩
    exact (List.getElem?_eq_some_iff.1 hc).1
  · exact fun hlt => ⟨_, List.getElem?_eq_getElem hlt⟩

/-- A node has children only in an array. -/
theorem HoldsChilds.exists_elems (hn : HoldsChilds h n) {k : Nat} (hk : k < n.num) :
    ∃ b c, n.elems = some b ∧ h.get ⟨b, k⟩ = some c := by
  cases hb : n.elems with
  | none =>
      unfold HoldsChilds at hn
      rw [hb] at hn
      simp only at hn
      omega
  | some b =>
      obtain ⟨c, hc⟩ := (hn.get hb).2 hk
      exact ⟨b, c, rfl, hc⟩

/-- Different nodes have different arrays. -/
theorem Linked.inj (hl : Linked h root) {b : Nat} (hp : h.get p = some n) (hq : h.get q = some m)
    (hn : n.elems = some b) (hm : m.elems = some b) : p = q := by
  have hpos := hl.nonempty p n hp (by rw [hn]; simp)
  obtain ⟨c, hc⟩ := ((hl.holds p n hp).get hn).2 hpos
  have hparent := hl.parent p n b 0 c hp hn hc
  rw [hl.parent q m b 0 c hq hm hc] at hparent
  exact (Option.some.inj hparent).symm

/-- The heap after a child was added at `s`: the nodes of the array are elsewhere, and
the pointers to them have followed. -/
structure Added (h h' : Heap α) (s c : NodePtr) (n : Node α) (d : α) : Prop where
  index : c.index = n.num
  apart : ∀ p m, h.get p = some m → n.elems ≠ some p.block → p.block ≠ c.block
  new : h'.get c = some ⟨d, some s, none, 0⟩
  old : ∀ p m, h.get p = some m →
    h'.get (relocate n.elems c.block p) =
      some { (if p = s then m.grown c.block else m) with
        parent := m.parent.map (relocate n.elems c.block) }
  all : ∀ q m, h'.get q = some m →
    q = c ∨ ∃ p m, h.get p = some m ∧ q = relocate n.elems c.block p

theorem relocate_inj {elems : Option Nat} {b : Nat} (hp : h.get p = some n) (hq : h.get q = some m)
    (hb : ∀ p m, h.get p = some m → elems ≠ some p.block → p.block ≠ b)
    (heq : relocate elems b p = relocate elems b q) : p = q := by
  obtain ⟨pb, pi⟩ := p
  obtain ⟨qb, qi⟩ := q
  unfold relocate at heq
  split at heq <;> split at heq
  · rename_i hpin hqin
    obtain rfl := Option.some.inj (hpin.symm.trans hqin)
    obtain rfl := (NodePtr.mk.inj heq).2
    rfl
  · rename_i hpin hqout
    exact absurd (congrArg NodePtr.block heq).symm (hb _ m hq hqout)
  · rename_i hpout hqin
    exact absurd (congrArg NodePtr.block heq) (hb _ n hp hpout)
  · exact heq

/-- The array of a child of `s` is not the array of the children of `s`. -/
theorem Linked.grandchilds_apart (hl : Linked h root) (hs : h.get s = some n)
    (hself : n.elems ≠ some s.block) {j e b : Nat} (he : n.elems = some e)
    (hm : h.get ⟨e, j⟩ = some m) (hb : m.elems = some b) : n.elems ≠ some b := by
  intro heq
  have hown := hl.inj hs hm heq hb
  exact hself (by rw [he, hown])

/-- The grandchildren of `s`, as the repair finds them: they are where they were. -/
theorem Grown.childOfFirst_iff (hgrown : Grown h h' s c n d) (hl : Linked h root)
    (hs : h.get s = some n) (hself : n.elems ≠ some s.block) (hp : h.get p = some m) (j : Nat) :
    ChildOfFirst h' c.block n.num (relocate n.elems c.block p) j ↔
      ∃ e x, n.elems = some e ∧ h.get ⟨e, j⟩ = some x ∧ x.elems = some p.block := by
  constructor
  · rintro ⟨hj, y, hy, hblock, -⟩
    obtain ⟨e, x, he, hx⟩ := (hl.holds s n hs).exists_elems hj
    have hold := hgrown.old ⟨e, j⟩ x hx
    have hne : (⟨e, j⟩ : NodePtr) ≠ s := fun heq => hself (by rw [he, ← heq])
    rw [relocate, if_pos he, if_neg hne, hy] at hold
    obtain rfl := Option.some.inj hold
    refine ⟨e, y, he, hx, ?_⟩
    -- a node of the moved array is not in the array of one of its nodes
    unfold relocate at hblock
    split at hblock
    · have hpos := hl.nonempty _ y hx (by rw [hblock]; simp)
      obtain ⟨z, hz⟩ := ((hl.holds _ y hx).get hblock).2 hpos
      exact absurd rfl (hgrown.apart ⟨c.block, 0⟩ z hz (hl.grandchilds_apart hs hself he hx hblock))
    · exact hblock
  · rintro ⟨e, x, he, hx, hblock⟩
    have hstay : relocate n.elems c.block p = p :=
      if_neg (hl.grandchilds_apart hs hself he hx hblock)
    have hold := hgrown.old ⟨e, j⟩ x hx
    have hne : (⟨e, j⟩ : NodePtr) ≠ s := fun heq => hself (by rw [he, ← heq])
    rw [relocate, if_pos he, if_neg hne] at hold
    rw [hstay]
    exact ⟨((hl.holds s n hs).get he).1 ⟨x, hx⟩, x, hold, hblock,
      ((hl.holds _ x hx).get hblock).1 ⟨m, hp⟩⟩

/-- The last node of the array is no grandchild. -/
theorem Grown.not_childOfFirst_new (hgrown : Grown h h' s c n d) (hl : Linked h root)
    (hs : h.get s = some n) (hself : n.elems ≠ some s.block) (j : Nat) :
    ¬ ChildOfFirst h' c.block n.num c j := by
  rintro ⟨hj, y, hy, hblock, -⟩
  obtain ⟨e, x, he, hx⟩ := (hl.holds s n hs).exists_elems hj
  have hold := hgrown.old ⟨e, j⟩ x hx
  have hne : (⟨e, j⟩ : NodePtr) ≠ s := fun heq => hself (by rw [he, ← heq])
  rw [relocate, if_pos he, if_neg hne, hy] at hold
  obtain rfl := Option.some.inj hold
  have hpos := hl.nonempty _ y hx (by rw [hblock]; simp)
  obtain ⟨z, hz⟩ := ((hl.holds _ y hx).get hblock).2 hpos
  exact absurd rfl (hgrown.apart ⟨c.block, 0⟩ z hz (hl.grandchilds_apart hs hself he hx hblock))

theorem Node.eq_of_fields {x y : Node α} (hdata : x.data = y.data) (helems : x.elems = y.elems)
    (hnum : x.num = y.num) : x = { y with parent := x.parent } := by
  cases x
  simp only at hdata helems hnum
  simp only [hdata, helems, hnum]

theorem SameButParents.get' (hsame : SameButParents h h') (hq : h'.get q = some m) :
    ∃ x, h.get q = some x := by
  have heq := hsame q
  rw [hq, Option.map_some] at heq
  obtain ⟨x, hx, -⟩ := Option.map_eq_some_iff.1 heq.symm
  exact ⟨x, hx⟩

/-- Adding a child succeeds, and the pointers follow the nodes. -/
theorem addChild_eq (alloc : Allocator α) (d : α) (hl : Linked h root) (hs : h.get s = some n)
    (hself : n.elems ≠ some s.block) :
    ∃ h' c, addChild alloc h s d = some (h', c) ∧ Added h h' s c n d := by
  obtain ⟨h₁, c, hgrow, hgrown⟩ := grow_eq alloc d hs hself (hl.holds s n hs)
  have hnodes : ∀ j < n.num, ∃ m, h₁.get ⟨c.block, j⟩ = some m ∧
      ∀ k < m.num, ∃ e x, m.elems = some e ∧ h₁.get ⟨e, k⟩ = some x := by
    intro j hj
    obtain ⟨e, m, he, hm⟩ := (hl.holds s n hs).exists_elems hj
    have hold := hgrown.old ⟨e, j⟩ m hm
    have hne : (⟨e, j⟩ : NodePtr) ≠ s := fun heq => hself (by rw [he, ← heq])
    rw [relocate, if_pos he, if_neg hne] at hold
    refine ⟨m, hold, fun k hk => ?_⟩
    obtain ⟨b, x, hb, hx⟩ := (hl.holds _ m hm).exists_elems hk
    have hmove := hgrown.old ⟨b, k⟩ x hx
    rw [relocate, if_neg (hl.grandchilds_apart hs hself he hm hb)] at hmove
    exact ⟨b, _, hb, hmove⟩
  have hapart : ∀ j k q, ChildOfFirst h₁ c.block n.num q j → ChildOfFirst h₁ c.block n.num q k →
      j = k := by
    rintro j k q ⟨hj, y, hy, hyq, -⟩ ⟨hk, z, hz, hzq, -⟩
    obtain ⟨e, m, he, hm⟩ := (hl.holds s n hs).exists_elems hj
    obtain ⟨e', m', he', hm'⟩ := (hl.holds s n hs).exists_elems hk
    obtain rfl := Option.some.inj (he.symm.trans he')
    have hold := hgrown.old ⟨e, j⟩ m hm
    have hold' := hgrown.old ⟨e, k⟩ m' hm'
    have hne : ∀ i, (⟨e, i⟩ : NodePtr) ≠ s := fun i heq => hself (by rw [he, ← heq])
    rw [relocate, if_pos he, if_neg (hne j), hy] at hold
    rw [relocate, if_pos he, if_neg (hne k), hz] at hold'
    obtain rfl := Option.some.inj hold
    obtain rfl := Option.some.inj hold'
    exact (NodePtr.mk.inj (hl.inj hm hm' hyq hzq)).2
  obtain ⟨h₂, hrepair, hsame, hparent, hother⟩ := repair_eq hnodes hapart
  refine ⟨h₂, c, ?_, hgrown.index, hgrown.apart, ?_, fun p m hp => ?_, fun q m hq => ?_⟩
  · rw [addChild, hs, Option.bind_some, hgrow, Option.bind_some]
    simp only [hrepair, Option.map_some]
  · rw [hother c (hgrown.not_childOfFirst_new hl hs hself), hgrown.new]
  · have hold := hgrown.old p m hp
    obtain ⟨m', hm', hdata, helems, hnum⟩ := hsame.get hold
    have hval := Node.eq_of_fields hdata helems hnum
    have hkeep : (∀ j, ¬ ChildOfFirst h₁ c.block n.num (relocate n.elems c.block p) j) →
        m'.parent = m.parent := by
      intro hnot
      rw [hother _ hnot, hold] at hm'
      rw [← Option.some.inj hm']
      split <;> rfl
    have hgoal : m'.parent = m.parent.map (relocate n.elems c.block) := by
      by_cases hroot : p = root
      · -- the root has no parent
        subst hroot
        obtain ⟨r, hr, hnone⟩ := hl.rootNode
        obtain rfl := Option.some.inj (hp.symm.trans hr)
        have hnot : ∀ j, ¬ ChildOfFirst h₁ c.block n.num (relocate n.elems c.block p) j := by
          intro j hj
          obtain ⟨e, x, -, hx, hblock⟩ := (hgrown.childOfFirst_iff hl hs hself hp j).1 hj
          exact hl.apart _ x hx hblock
        rw [hkeep hnot, hnone]
        rfl
      · obtain ⟨x, nx, hx, hxp⟩ := hl.owned p m hp hroot
        have hpar := hl.parent x nx p.block p.index m hx hxp hp
        rw [hpar, Option.map_some]
        by_cases hmoved : n.elems = some x.block
        · have hchild : ChildOfFirst h₁ c.block n.num (relocate n.elems c.block p) x.index :=
            (hgrown.childOfFirst_iff hl hs hself hp x.index).2 ⟨x.block, nx, hmoved, hx, hxp⟩
          rw [hparent _ m' hm' _ hchild, relocate, if_pos hmoved]
        · have hnot : ∀ j, ¬ ChildOfFirst h₁ c.block n.num (relocate n.elems c.block p) j := by
            intro j hj
            obtain ⟨e, y, he, hy, hblock⟩ := (hgrown.childOfFirst_iff hl hs hself hp j).1 hj
            have hown := hl.inj hx hy hxp hblock
            exact hmoved (by rw [he, hown])
          rw [hkeep hnot, hpar, relocate, if_neg hmoved]
    rw [hm', hval, hgoal]
  · obtain ⟨x, hx⟩ := hsame.get' hq
    exact hgrown.all q x hx

theorem holdsChilds_of_get {b : Nat} (hb : n.elems = some b)
    (hget : ∀ i, (∃ c, h.get ⟨b, i⟩ = some c) ↔ i < n.num) : HoldsChilds h n := by
  have hlt : ∀ i, i < (h.cells b).length ↔ i < n.num := fun i => by
    rw [← hget i]
    constructor
    · exact fun hlt => ⟨_, List.getElem?_eq_getElem hlt⟩
    · rintro ⟨c, hc⟩
      exact (List.getElem?_eq_some_iff.1 hc).1
  unfold HoldsChilds
  rw [hb]
  exact Nat.le_antisymm (Nat.le_of_not_lt fun h => absurd ((hlt _).1 h) (Nat.lt_irrefl _))
    (Nat.le_of_not_lt fun h => absurd ((hlt _).2 h) (Nat.lt_irrefl _))

theorem holdsChilds_of_none (helems : n.elems = none) (hnum : n.num = 0) : HoldsChilds h n := by
  unfold HoldsChilds
  rw [helems]
  exact hnum

namespace Added

variable (ha : Added h h' s c n d)

include ha

/-- A node that is not in the moved array is where it was. -/
theorem get_of_ne (hp : h.get p = some m) (hout : n.elems ≠ some p.block) :
    h'.get p = some { (if p = s then m.grown c.block else m) with
      parent := m.parent.map (relocate n.elems c.block) } := by
  have hold := ha.old p m hp
  rwa [relocate, if_neg hout] at hold

/-- A node in another block than the new array was there before. -/
theorem get_of_block_ne {x : Node α} (hq : h'.get q = some x) (hblock : q.block ≠ c.block) :
    ∃ m, h.get q = some m ∧ n.elems ≠ some q.block := by
  rcases ha.all q x hq with rfl | ⟨p, m, hp, rfl⟩
  · exact absurd rfl hblock
  · unfold relocate at hblock ⊢
    split at hblock
    · exact absurd rfl hblock
    · rename_i hout
      rw [if_neg hout]
      exact ⟨m, hp, hout⟩

/-- A node in the new array is the new one or has moved there. -/
theorem get_of_block_eq {x : Node α} (hq : h'.get q = some x) (hblock : q.block = c.block) :
    q = c ∨ ∃ e m, n.elems = some e ∧ h.get ⟨e, q.index⟩ = some m := by
  rcases ha.all q x hq with rfl | ⟨p, m, hp, rfl⟩
  · exact .inl rfl
  · right
    unfold relocate at hblock ⊢
    split at hblock
    · rename_i hin
      rw [if_pos hin]
      exact ⟨p.block, m, hin, hp⟩
    · rename_i hout
      exact absurd hblock (ha.apart p m hp hout)

/-- A node is the new one, or `s`, or as it was up to its place. -/
theorem cases_of_get (hs : h.get s = some n) (hself : n.elems ≠ some s.block) {x : Node α}
    (hq : h'.get q = some x) :
    (q = c ∧ x.elems = none ∧ x.num = 0 ∧ x.parent = some s) ∨
      (q = s ∧ x.elems = some c.block ∧ x.num = n.num + 1) ∨
      ∃ p m, p ≠ s ∧ h.get p = some m ∧ q = relocate n.elems c.block p ∧ x.elems = m.elems ∧
        x.num = m.num := by
  rcases ha.all q x hq with rfl | ⟨p, m, hp, rfl⟩
  · rw [ha.new] at hq
    obtain rfl := Option.some.inj hq
    exact .inl ⟨rfl, rfl, rfl, rfl⟩
  · right
    rw [ha.old p m hp] at hq
    by_cases hps : p = s
    · subst hps
      obtain rfl := Option.some.inj (hs.symm.trans hp)
      rw [if_pos rfl] at hq
      obtain rfl := Option.some.inj hq
      exact .inl ⟨if_neg hself, rfl, rfl⟩
    · rw [if_neg hps] at hq
      obtain rfl := Option.some.inj hq
      exact .inr ⟨p, m, hps, hp, rfl, rfl, rfl⟩

theorem parent_of_get {x : Node α} (hp : h.get p = some m)
    (hq : h'.get (relocate n.elems c.block p) = some x) :
    x.parent = m.parent.map (relocate n.elems c.block) := by
  rw [ha.old p m hp] at hq
  rw [← Option.some.inj hq]

/-- The block of an array that belongs to another node. -/
theorem array_ne (hl : Linked h root) (hs : h.get s = some n) {b : Nat} (hp : h.get p = some m)
    (hps : p ≠ s) (hb : m.elems = some b) : n.elems ≠ some b ∧ b ≠ c.block := by
  have hout : n.elems ≠ some b := fun heq => hps (hl.inj hp hs hb heq)
  obtain ⟨z, hz⟩ := ((hl.holds p m hp).get hb).2 (hl.nonempty p m hp (by rw [hb]; simp))
  exact ⟨hout, ha.apart ⟨b, 0⟩ z hz hout⟩

/-- The new array is as long as it should be. -/
theorem get_new_array (hl : Linked h root) (hs : h.get s = some n) (i : Nat) :
    (∃ x, h'.get ⟨c.block, i⟩ = some x) ↔ i < n.num + 1 := by
  constructor
  · rintro ⟨x, hx⟩
    rcases ha.get_of_block_eq hx rfl with heq | ⟨e, m, he, hm⟩
    · have hi : i = n.num := (congrArg NodePtr.index heq).trans ha.index
      omega
    · exact Nat.lt_succ_of_lt (((hl.holds s n hs).get he).1 ⟨m, hm⟩)
  · intro hi
    by_cases hlast : i = n.num
    · have hc : (⟨c.block, i⟩ : NodePtr) = c := by rw [hlast, ← ha.index]
      rw [hc]
      exact ⟨_, ha.new⟩
    · obtain ⟨e, m, he, hm⟩ := (hl.holds s n hs).exists_elems (k := i) (by omega)
      have hold := ha.old ⟨e, i⟩ m hm
      rw [relocate, if_pos he] at hold
      exact ⟨_, hold⟩

/-- Adding a child keeps the invariant. -/
theorem linked (hl : Linked h root) (hs : h.get s = some n) (hself : n.elems ≠ some s.block) :
    Linked h' root := by
  obtain ⟨r, hr, hnone⟩ := hl.rootNode
  have hrootout : n.elems ≠ some root.block := hl.apart s n hs
  have hcroot : root.block ≠ c.block := ha.apart root r hr hrootout
  have hstay : relocate n.elems c.block s = s := if_neg hself
  refine ⟨⟨_, ha.get_of_ne hr hrootout, by rw [hnone]; rfl⟩, fun q x hq hblock => ?_,
    fun q x hq => ?_, fun q x hq => ?_, fun q x hq hne => ?_, fun q x b i y hq hb hy => ?_,
    fun q x hq hne => ?_⟩
  · obtain ⟨m, hm, -⟩ := ha.get_of_block_ne hq (by rw [hblock]; exact hcroot)
    exact hl.alone q m hm hblock
  · rcases ha.cases_of_get hs hself hq with ⟨-, helems, -⟩ | ⟨-, helems, -⟩ |
      ⟨p, m, -, hp, -, helems, -⟩
    · rw [helems]
      simp
    · rw [helems]
      exact fun heq => hcroot (Option.some.inj heq).symm
    · rw [helems]
      exact hl.apart p m hp
  · rcases ha.cases_of_get hs hself hq with ⟨-, helems, hnum, -⟩ | ⟨-, helems, hnum⟩ |
      ⟨p, m, hps, hp, -, helems, hnum⟩
    · exact holdsChilds_of_none helems hnum
    · refine holdsChilds_of_get helems fun i => ?_
      rw [hnum]
      exact ha.get_new_array hl hs i
    · cases hb : m.elems with
      | none =>
          have hzero := hl.holds p m hp
          unfold HoldsChilds at hzero
          rw [hb] at hzero
          exact holdsChilds_of_none (helems.trans hb) (hnum.trans hzero)
      | some b =>
          obtain ⟨hout, hbc⟩ := ha.array_ne hl hs hp hps hb
          refine holdsChilds_of_get (helems.trans hb) fun i => ?_
          rw [hnum, ← (hl.holds p m hp).get hb]
          constructor
          · rintro ⟨y, hy⟩
            obtain ⟨z, hz, -⟩ := ha.get_of_block_ne hy hbc
            exact ⟨z, hz⟩
          · rintro ⟨z, hz⟩
            exact ⟨_, ha.get_of_ne hz hout⟩
  · rcases ha.cases_of_get hs hself hq with ⟨-, helems, -⟩ | ⟨-, -, hnum⟩ |
      ⟨p, m, -, hp, -, helems, hnum⟩
    · exact absurd helems hne
    · omega
    · rw [hnum]
      exact hl.nonempty p m hp (helems ▸ hne)
  · rcases ha.cases_of_get hs hself hq with ⟨-, helems, -⟩ | ⟨rfl, helems, -⟩ |
      ⟨p, m, hps, hp, rfl, helems, -⟩
    · rw [helems] at hb
      cases hb
    · -- a child of `s`, the new one or one of the moved array
      obtain rfl := Option.some.inj (helems.symm.trans hb)
      rcases ha.get_of_block_eq hy rfl with heq | ⟨e, z, he, hz⟩
      · rw [heq, ha.new] at hy
        rw [← Option.some.inj hy]
      · have hmoved : (⟨c.block, i⟩ : NodePtr) = relocate n.elems c.block ⟨e, i⟩ := (if_pos he).symm
        rw [hmoved] at hy
        rw [ha.parent_of_get hz hy, hl.parent q n e i z hs he hz, Option.map_some, hstay]
    · obtain ⟨hout, hbc⟩ := ha.array_ne hl hs hp hps (helems.symm.trans hb)
      obtain ⟨z, hz, -⟩ := ha.get_of_block_ne hy hbc
      have hsame : (⟨b, i⟩ : NodePtr) = relocate n.elems c.block ⟨b, i⟩ := (if_neg hout).symm
      rw [hsame] at hy
      rw [ha.parent_of_get hz hy, hl.parent p m b i z hp (helems.symm.trans hb) hz, Option.map_some]
  · rcases ha.all q x hq with rfl | ⟨p, m, hp, rfl⟩
    · have hgrown := ha.get_of_ne hs hself
      rw [if_pos rfl] at hgrown
      exact ⟨s, _, hgrown, rfl⟩
    · have hproot : p ≠ root := by
        rintro rfl
        exact hne (if_neg hrootout)
      obtain ⟨y, ny, hy, hyp⟩ := hl.owned p m hp hproot
      have hold := ha.old y ny hy
      by_cases hys : y = s
      · subst hys
        obtain rfl := Option.some.inj (hs.symm.trans hy)
        rw [if_pos rfl] at hold
        refine ⟨_, _, hold, ?_⟩
        rw [relocate, if_pos hyp]
        rfl
      · obtain ⟨hout, -⟩ := ha.array_ne hl hs hy hys hyp
        rw [if_neg hys] at hold
        refine ⟨_, _, hold, ?_⟩
        rw [relocate, if_neg hout]
        exact hyp

end Added

/-! ## The way to the root -/

/-- The pointers to the parents lead from each node through the nodes around it. -/
theorem Linked.visits (hl : Linked h root) {l : List NodePtr} (hp : Inside h root p l) :
    Visits h p l := by
  induction hp with
  | root =>
      obtain ⟨r, hr, hnone⟩ := hl.rootNode
      exact .last hr hnone
  | elem hp hget hb hi hc ih => exact .next hc (hl.parent _ _ _ _ _ hget hb hc) ih

theorem Visits.unique {l l' : List NodePtr} (hv : Visits h p l) (hv' : Visits h p l') : l = l' := by
  induction hv generalizing l' with
  | last hp hparent =>
      cases hv' with
      | last _ _ => rfl
      | next hp' hparent' _ =>
          obtain rfl := Option.some.inj (hp.symm.trans hp')
          rw [hparent] at hparent'
          cases hparent'
  | next hp hparent hq ih =>
      cases hv' with
      | last hp' hparent' =>
          obtain rfl := Option.some.inj (hp.symm.trans hp')
          rw [hparent] at hparent'
          cases hparent'
      | next hp' hparent' hq' =>
          obtain rfl := Option.some.inj (hp.symm.trans hp')
          obtain rfl := Option.some.inj (hparent.symm.trans hparent')
          rw [ih hq']

theorem Visits.of_mem {l : List NodePtr} (hv : Visits h p l) (hq : q ∈ l) :
    ∃ l', Visits h q l' ∧ l'.length ≤ l.length := by
  induction hv with
  | last hp hparent =>
      obtain rfl := List.mem_singleton.1 hq
      exact ⟨_, .last hp hparent, Nat.le_refl _⟩
  | next hp hparent hv ih =>
      rcases List.mem_cons.1 hq with rfl | hq
      · exact ⟨_, .next hp hparent hv, Nat.le_refl _⟩
      · obtain ⟨l', hv', hle⟩ := ih hq
        exact ⟨l', hv', Nat.le_succ_of_le hle⟩

theorem Visits.get {l : List NodePtr} (hv : Visits h p l) : ∃ n, h.get p = some n := by
  cases hv with
  | last hp _ => exact ⟨_, hp⟩
  | next hp _ _ => exact ⟨_, hp⟩

theorem Visits.head {l : List NodePtr} (hv : Visits h p l) : l.head? = some p := by
  cases hv <;> rfl

/-- A node is not on the way from its parent. -/
theorem Visits.not_mem {l : List NodePtr} (hv : Visits h p (p :: l)) (hq : Visits h q l) :
    p ∉ l := by
  intro hmem
  obtain ⟨l', hv', hle⟩ := hq.of_mem hmem
  rw [hv'.unique hv, List.length_cons] at hle
  omega

/-- The rest of the way begins at the node it begins with. -/
theorem Visits.tail {l : List NodePtr} (hv : Visits h p (p :: l)) (hq : Visits h' q l) :
    Visits h q l := by
  cases hv with
  | last _ _ => exact absurd hq.head (by simp)
  | next _ _ hv =>
      obtain rfl := Option.some.inj (hv.head.symm.trans hq.head)
      exact hv

/-- A node on the way to the root is not a child of the node where the way begins. -/
theorem Linked.elems_ne (hl : Linked h root) (hs : h.get s = some n) {l : List NodePtr}
    (hv : Visits h s l) (hq : q ∈ l) : n.elems ≠ some q.block := by
  intro heq
  obtain ⟨l', hv', hle⟩ := hv.of_mem hq
  obtain ⟨m, hm⟩ := hv'.get
  have hlong := hv'.unique (.next hm (hl.parent s n q.block q.index m hs heq hm) hv)
  rw [hlong, List.length_cons] at hle
  omega

/-- The way to the root stays the same when a child is added at its begin. -/
theorem Added.visits (ha : Added h h' s c n d) {l : List NodePtr} (hv : Visits h p l)
    (hout : ∀ q ∈ l, n.elems ≠ some q.block) : Visits h' p l := by
  induction hv with
  | @last p m hp hparent =>
      have hget := ha.get_of_ne hp (hout p List.mem_cons_self)
      refine .last hget ?_
      rw [hparent]
      rfl
  | @next p m q l hp hparent hv ih =>
      have hget := ha.get_of_ne hp (hout p List.mem_cons_self)
      have hrest := ih fun x hx => hout x (List.mem_cons_of_mem p hx)
      refine .next hget ?_ hrest
      have hq : q ∈ l := by
        cases hv <;> exact List.mem_cons_self
      rw [hparent, Option.map_some, relocate, if_neg (hout q (List.mem_cons_of_mem p hq))]

/-! ## The data of a node -/

/-- A heap in which only the data of nodes has changed. -/
def SameButData (h h' : Heap α) : Prop :=
  ∀ q, (h'.get q).map (fun m => (m.parent, m.elems, m.num)) =
    (h.get q).map fun m => (m.parent, m.elems, m.num)

theorem SameButData.symm (hsame : SameButData h h') : SameButData h' h := fun q => (hsame q).symm

theorem SameButData.get (hsame : SameButData h h') (hq : h.get q = some m) :
    ∃ m', h'.get q = some m' ∧ m'.parent = m.parent ∧ m'.elems = m.elems ∧ m'.num = m.num := by
  have heq := hsame q
  rw [hq, Option.map_some, Option.map_eq_some_iff] at heq
  obtain ⟨m', hget, heq⟩ := heq
  simp only [Prod.mk.injEq] at heq
  exact ⟨m', hget, heq⟩

theorem SameButData.linked (hsame : SameButData h h') (hl : Linked h root) : Linked h' root := by
  obtain ⟨r, hr, hnone⟩ := hl.rootNode
  obtain ⟨r', hr', hparent, -⟩ := hsame.get hr
  refine ⟨⟨r', hr', hparent.trans hnone⟩, fun q x hq hblock => ?_, fun q x hq => ?_,
    fun q x hq => ?_, fun q x hq hne => ?_, fun q x b i y hq hb hy => ?_, fun q x hq hne => ?_⟩
  · obtain ⟨m, hm, -⟩ := hsame.symm.get hq
    exact hl.alone q m hm hblock
  · obtain ⟨m, hm, -, helems, -⟩ := hsame.symm.get hq
    rw [← helems]
    exact hl.apart q m hm
  · obtain ⟨m, hm, -, helems, hnum⟩ := hsame.symm.get hq
    cases hb : x.elems with
    | none =>
        have hzero := hl.holds q m hm
        unfold HoldsChilds at hzero
        rw [helems, hb] at hzero
        exact holdsChilds_of_none hb (hnum.symm.trans hzero)
    | some b =>
        refine holdsChilds_of_get hb fun i => ?_
        rw [← hnum, ← (hl.holds q m hm).get (helems.trans hb)]
        constructor
        · rintro ⟨y, hy⟩
          obtain ⟨z, hz, -⟩ := hsame.symm.get hy
          exact ⟨z, hz⟩
        · rintro ⟨z, hz⟩
          obtain ⟨y, hy, -⟩ := hsame.get hz
          exact ⟨y, hy⟩
  · obtain ⟨m, hm, -, helems, hnum⟩ := hsame.symm.get hq
    rw [← hnum]
    exact hl.nonempty q m hm (helems ▸ hne)
  · obtain ⟨m, hm, -, helems, -⟩ := hsame.symm.get hq
    obtain ⟨z, hz, hparent, -⟩ := hsame.symm.get hy
    rw [← hparent]
    exact hl.parent q m b i z hm (helems.trans hb) hz
  · obtain ⟨m, hm, -⟩ := hsame.symm.get hq
    obtain ⟨p, n, hp, hn⟩ := hl.owned q m hm hne
    obtain ⟨n', hp', -, helems, -⟩ := hsame.get hp
    exact ⟨p, n', hp', helems.trans hn⟩

theorem SameButData.visits (hsame : SameButData h h') {l : List NodePtr} (hv : Visits h p l) :
    Visits h' p l := by
  induction hv with
  | last hp hparent =>
      obtain ⟨m, hm, hsameparent, -⟩ := hsame.get hp
      exact .last hm (hsameparent.trans hparent)
  | next hp hparent hv ih =>
      obtain ⟨m, hm, hsameparent, -⟩ := hsame.get hp
      exact .next hm (hsameparent.trans hparent) ih

/-- The data of a node is changed. -/
theorem modify_data_eq (hp : h.get p = some n) (d : α) :
    ∃ h', (h.modify p fun n => { n with data := d }) = some h' ∧ SameButData h h' ∧
      h'.get p = some { n with data := d } ∧ ∀ q, q ≠ p → h'.get q = h.get q := by
  obtain ⟨h', hrun, hget⟩ := Heap.modify_eq (f := fun n => { n with data := d }) hp
  refine ⟨h', hrun, fun q => ?_, by rw [hget, if_pos rfl], fun q hq => by rw [hget, if_neg hq]⟩
  rw [hget]
  by_cases hq : q = p
  · rw [if_pos hq, hq, hp]
    rfl
  · rw [if_neg hq]

end ArrayTree
