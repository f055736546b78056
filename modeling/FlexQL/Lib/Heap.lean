import FlexQL.Lib.Outcome

/-!
# A pool of records addressed by index

Nodes allocated one after another and never freed: a pointer is the index
the node was allocated at. Reading through an index that was never handed
out is undefined; writing changes one cell and no other.
-/

namespace Lib

/-- The first `size` cells are allocated; what `cell` says past them is never
read. -/
structure Heap (α : Type) where
  size : Nat
  cell : Nat → α

namespace Heap

variable {α : Type}

def empty [Inhabited α] : Heap α := ⟨0, fun _ => default⟩

/-- Dereference. -/
def get (h : Heap α) (p : Nat) : Outcome α :=
  if p < h.size then .ok (h.cell p) else .error .undefined

/-- Overwrite one cell. -/
def put (h : Heap α) (p : Nat) (a : α) : Heap α :=
  { h with cell := fun q => if q = p then a else h.cell q }

/-- A fresh cell at the end of the pool, and its index. -/
def alloc (h : Heap α) (a : α) : Heap α × Nat :=
  (⟨h.size + 1, fun q => if q = h.size then a else h.cell q⟩, h.size)

theorem get_of_lt {h : Heap α} {p : Nat} (hp : p < h.size) :
    h.get p = .ok (h.cell p) := if_pos hp

@[simp] theorem put_size (h : Heap α) (p : Nat) (a : α) :
    (h.put p a).size = h.size := rfl

@[simp] theorem put_cell_self (h : Heap α) (p : Nat) (a : α) :
    (h.put p a).cell p = a := if_pos rfl

theorem put_cell_ne (h : Heap α) {p q : Nat} (a : α) (hq : q ≠ p) :
    (h.put p a).cell q = h.cell q := if_neg hq

theorem put_cell (h : Heap α) (p q : Nat) (a : α) :
    (h.put p a).cell q = if q = p then a else h.cell q := rfl

@[simp] theorem alloc_size (h : Heap α) (a : α) :
    (h.alloc a).1.size = h.size + 1 := rfl

@[simp] theorem alloc_id (h : Heap α) (a : α) : (h.alloc a).2 = h.size := rfl

theorem alloc_cell (h : Heap α) (a : α) (q : Nat) :
    (h.alloc a).1.cell q = if q = h.size then a else h.cell q := rfl

theorem alloc_cell_lt (h : Heap α) (a : α) {q : Nat} (hq : q < h.size) :
    (h.alloc a).1.cell q = h.cell q := if_neg (Nat.ne_of_lt hq)

@[simp] theorem alloc_cell_self (h : Heap α) (a : α) :
    (h.alloc a).1.cell h.size = a := if_pos rfl

end Heap

end Lib
