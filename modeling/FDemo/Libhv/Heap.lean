import Mathlib.Data.List.Basic
import Mathlib.Logic.Function.Basic

/-! # The heap of libhv

`heap.h`: nodes with pointers to their parent and children, written step by step as
in the source. A node is an address; the fields of all nodes are the memory. The
access through a null pointer and a failing assertion have no result, and neither
have the sifting loops without fuel. The comparison is always there.
-/
namespace FDemo.Libhv
variable {ι : Type*} [DecidableEq ι]

structure Heap (ι : Type*) where
  root : Option ι := none
  nelts : ℕ := 0
  parent : ι → Option ι := fun _ => none
  left : ι → Option ι := fun _ => none
  right : ι → Option ι := fun _ => none

namespace Heap

def setParent (h : Heap ι) (node : ι) (p : Option ι) : Heap ι := { h with parent := Function.update h.parent node p }

def setLeft (h : Heap ι) (node : ι) (l : Option ι) : Heap ι := { h with left := Function.update h.left node l }

def setRight (h : Heap ι) (node : ι) (r : Option ι) : Heap ι := { h with right := Function.update h.right node r }

/-- The child of `p` that the last bit of a path chooses. -/
def child (h : Heap ι) (p : ι) (path : ℕ) : Option ι := if path % 2 = 1 then h.right p else h.left p

def setChild (h : Heap ι) (p : ι) (path : ℕ) (c : Option ι) : Heap ι :=
  if path % 2 = 1 then h.setRight p c else h.setLeft p c

/-- `node->parent = node->left = node->right = NULL`. -/
def clear (h : Heap ι) (node : ι) : Heap ι := ((h.setRight node none).setLeft node none).setParent node none

/-- `if (node) node->parent = p`. -/
def adopt (h : Heap ι) (node p : Option ι) : Heap ι :=
  match node with
  | none => h
  | some node => h.setParent node p

/-- What points down to `node`, the root or a field of its parent `p`, points to `r` instead. -/
def relink (h : Heap ι) (p : Option ι) (node : ι) (r : Option ι) : Heap ι :=
  match p with
  | none => { h with root := r }
  | some p =>
    if h.left p = some node then h.setLeft p r else if h.right p = some node then h.setRight p r else h

/-- `heap_replace`. -/
def replace (h : Heap ι) (s : ι) (r : Option ι) : Heap ι :=
  let h := h.relink (h.parent s) s r
  let h := h.adopt (h.left s) r
  let h := h.adopt (h.right s) r
  match r with
  | none => h
  | some r =>
    let h := h.setParent r (h.parent s)
    let h := h.setLeft r (h.left s)
    h.setRight r (h.right s)

/-- `heap_swap`. -/
def swap (h : Heap ι) (parent child : ι) : Option (Heap ι) :=
  if h.parent child = some parent ∧ (h.left parent = some child ∨ h.right parent = some child) then
    let pparent := h.parent parent
    let lchild := h.left child
    let rchild := h.right child
    let h := h.relink pparent parent (some child)
    let h := h.adopt lchild (some parent)
    let h := h.adopt rchild (some parent)
    let h := h.setParent child pparent
    let isLeft := h.left parent = some child
    let sibling := if isLeft then h.right parent else h.left parent
    let h :=
      if isLeft then (h.setLeft child (some parent)).setRight child sibling
      else (h.setLeft child sibling).setRight child (some parent)
    let h := h.adopt sibling (some child)
    let h := h.setParent parent (some child)
    let h := h.setLeft parent lchild
    some (h.setRight parent rchild)
  else none

/-- The loop that collects the path to node `n`, with `n` as fuel, and its length. -/
def pathLoop : ℕ → ℕ → ℕ → ℕ → ℕ × ℕ
  | 0, _, path, d => (path,d)
  | fuel + 1, n, path, d => if 2 ≤ n then pathLoop fuel (n / 2) (2 * path + n % 2) (d + 1) else (path,d)

/-- The loop that follows the path down to the parent of its end. -/
def descend (h : Heap ι) : ℕ → ℕ → Option ι → Option (Option ι × ℕ)
  | 0, path, p => some (p,path)
  | 1, path, p => some (p,path)
  | _ + 2, _, none => none
  | d + 2, path, some p => descend h (d + 1) (path / 2) (h.child p path)

/-- The parent of node `n` in level order, and the rest of the path. -/
def lastParent (h : Heap ι) (n : ℕ) : Option (Option ι × ℕ) :=
  let x := pathLoop n n 0 0
  h.descend x.2 x.1 h.root

/-- The new node below `parent`, or as the root. -/
def attach (h : Heap ι) (parent : Option ι) (path : ℕ) (node : ι) : Heap ι :=
  let h := h.setParent node parent
  match parent with
  | none => { h with root := some node }
  | some p => h.setChild p path (some node)

variable (compare : ι → ι → Bool)

def siftUp : ℕ → Heap ι → ι → Option (Heap ι)
  | fuel, h, node =>
    match h.parent node with
    | none => some h
    | some p =>
      if compare node p then
        match fuel with
        | 0 => none
        | fuel + 1 => (h.swap p node).bind fun h => siftUp fuel h node
      else some h

/-- `if (c) est = compare(est, c) ? est : c`. -/
def smaller (est : ι) : Option ι → ι
  | none => est
  | some c => if compare est c then est else c

/-- `est` after both tests of the loop. -/
def least (h : Heap ι) (v : ι) : ι := smaller compare (smaller compare v (h.left v)) (h.right v)

def siftDown : ℕ → Heap ι → ι → Option (Heap ι)
  | fuel, h, v =>
    let est := h.least compare v
    if est = v then some h
    else
      match fuel with
      | 0 => none
      | fuel + 1 => (h.swap v est).bind fun h => siftDown fuel h v

/-- `heap_insert`. -/
def insert (h : Heap ι) (node : ι) : Option (Heap ι) := do
  let h := { h with nelts := h.nelts + 1 }
  let (parent,path) ← h.lastParent h.nelts
  let h := h.attach parent path node
  h.siftUp compare h.nelts node

/-- `heap_remove`. -/
def remove (h : Heap ι) (node : ι) : Option (Heap ι) :=
  if h.nelts = 0 then some h
  else do
    let (parent,path) ← h.lastParent h.nelts
    let h := { h with nelts := h.nelts - 1 }
    match parent with
    | none => some h
    | some p =>
      let last := h.child p path
      let h := h.setChild p path none
      match last with
      | none => some (if h.root = some node then { h with root := none } else h)
      | some last =>
        let h := h.replace node (some last)
        let h := h.clear node
        let h ← h.siftDown compare h.nelts last
        h.siftUp compare h.nelts last

/-- `heap_dequeue`. -/
def dequeue (h : Heap ι) : Option (Heap ι) :=
  match h.root with
  | none => if h.nelts = 0 then some h else (h.lastParent h.nelts).map fun _ => { h with nelts := h.nelts - 1 }
  | some root => h.remove compare root

end Heap
end FDemo.Libhv
