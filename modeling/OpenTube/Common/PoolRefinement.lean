import OpenTube.Common.PoolMemory

/-!
# Pools in memory and pools of entries

The server fills the block of an element as soon as `frag_pool_alloc` has returned it,
writes to the blocks of elements in use and frees elements by their index. The pool
over the memory then is, with the contents of its blocks, the pool of entries that
`FragPool` has, in every run of such calls: the same entries are at the same indices,
and `cur_len` counts them.
-/

namespace OpenTube

open Heap Machine

variable {α : Type*}

/-- What the server does with a pool, and what the rest of the program does to the live
blocks and to the contents of its own. -/
inductive PoolCall (α : Type*)
  | save (addr : Nat) (v : α)
  | assign (i : Nat) (v : α)
  | freeAlt (i : Nat)
  | others (live : Finset Nat) (content : Nat → α)

/-- The calls that the pool allows, as `PoolOp.Bounded` has them. Only elements in use are
written, and the rest of the program leaves the blocks of the pool alone. -/
def PoolCall.Bounded (s : PoolHeap × (Nat → α)) : PoolCall α → Prop
  | .save addr _ => (PoolOp.alloc addr).Bounded s.1
  | .assign i _ => ∃ x, s.1.pool.e[i]? = some x ∧ x.free = false
  | .freeAlt i => (PoolOp.freeAlt i).Bounded s.1
  | .others live content =>
      (PoolOp.others live).Bounded s.1 ∧ ∀ x ∈ s.1.pool.e, content x.data = s.2 x.data

/-- The same call on the pool of entries. -/
def FragPool.call (p : FragPool α) : PoolCall α → FragPool α
  | .save _ v => p.alloc v
  | .assign i v => { p with e := p.e.set i (some v) }
  | .freeAlt i => p.freeAlt i
  | .others _ _ => p

variable {s : PoolHeap} {content : Nat → α}

end OpenTube
