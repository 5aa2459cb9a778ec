import Chloride.Containers.Stamped

/-!
# The hash map

The hash map of `src/runtime/internals/hashmap/hashmap.c`: a map on 64-bit hashes that keeps its
first three nodes inline and the later ones in chained buckets. A node is never moved between the
two places, and the inline places freed by a removal are not taken again once there are buckets.
The functions take and return the map, where the source changes it in place under its lock; a chain
is the list of its nodes, so a node's `next` is its place in the list. The order counter is a
natural number.

`resize` answers `none` when the new number of buckets does not fit the `int` that the source
computes it in.
-/

namespace Chloride

/-- `struct node_GC`. -/
structure NodeGC (κ υ : Type*) where
  hash : UInt64
  key : κ
  val : υ
  order : ℕ
  deriving DecidableEq, Repr

/-- `struct hashmap_GC`. The inline count is the length of `inlineValues`; `list` is `none` as long
as the source's pointer is null. -/
structure HashmapGC (κ υ : Type*) where
  size : ℕ
  order : ℕ
  list : Option (List (List (NodeGC κ υ)))
  hashmapCount : ℕ
  count : ℕ
  inlineValues : List (NodeGC κ υ)
  deriving DecidableEq, Repr

/-- `INLINE_HASHMAP_ARRAY_SIZE`. -/
def inlineHashmapArraySize : ℕ := 3

/-- The largest value of an `int`. -/
def intMax : ℕ := 2^31 - 1

namespace HashmapGC

variable {κ υ : Type*}

/-- `createHashmap_GC`. -/
def create : HashmapGC κ υ where
  size := 0
  order := 1
  list := none
  hashmapCount := 0
  count := 0
  inlineValues := []

/-- `hashCode_GC_nolock`: the bucket of a hash. -/
def hashCode (t : HashmapGC κ υ) (hash : UInt64) : ℕ :=
  if t.size ≠ 0 then hash.toNat &&& (t.size - 1) else 0

/-- Give the first node with this hash a new value; `none` when there is none. The loops over the
inline values and over a chain in `hashmap_insert_GC_nolock`. -/
def updateVal (hash : UInt64) (val : υ) : List (NodeGC κ υ) → Option (List (NodeGC κ υ))
  | [] => none
  | n :: ns =>
    if n.hash = hash then some ({ n with val := val } :: ns)
    else (updateVal hash val ns).map (n :: ·)

/-- A chain split by one bit of the hash, each half in the order of the chain: `lo` and `hi` of
`resize_hashmap_GC_nolock`. -/
def splitBucket (oldSize : ℕ) : List (NodeGC κ υ) → List (NodeGC κ υ) × List (NodeGC κ υ)
  | [] => ([], [])
  | n :: ns =>
    if n.hash.toNat &&& oldSize = 0 then (n :: (splitBucket oldSize ns).1, (splitBucket oldSize ns).2)
    else ((splitBucket oldSize ns).1, n :: (splitBucket oldSize ns).2)

/-- `resize_hashmap_GC_nolock`: bucket `i` is split between the buckets `i` and `i + old_size`. -/
def resize (t : HashmapGC κ υ) : Option (HashmapGC κ υ) :=
  let newSize := if t.size ≠ 0 then t.size * 2 else 8
  if intMax < newSize then none
  else
    match t.list with
    | none => some { t with list := some (List.replicate newSize []), size := newSize }
    | some oldList =>
      let lo := oldList.map fun n => (splitBucket t.size n).1
      let hi := oldList.map fun n => (splitBucket t.size n).2
      some { t with list := some (lo ++ hi), size := newSize }

/-- The last part of `hashmap_insert_GC_nolock`: the chain of the hash is searched, and a new node
becomes its head when the hash is not in it. -/
def insertBucket (t : HashmapGC κ υ) (hash : UInt64) (key : κ) (val : υ) (order : ℕ) :
    HashmapGC κ υ :=
  let list := t.list.getD []
  let pos := t.hashCode hash
  let temp := list.getD pos []
  match updateVal hash val temp with
  | some temp' => { t with list := some (list.set pos temp') }
  | none =>
    let n := { hash := hash, key := key, val := val, order := order }
    { t with
      list := some (list.set pos (n :: temp))
      hashmapCount := t.hashmapCount + 1
      count := t.count + 1 }

/-- `hashmap_insert_GC_nolock` after the order of the new node is settled. -/
def insertOrdered (t : HashmapGC κ υ) (hash : UInt64) (key : κ) (val : υ) (order : ℕ) :
    Option (HashmapGC κ υ) :=
  match updateVal hash val t.inlineValues with
  | some inlineValues => some { t with inlineValues := inlineValues }
  | none =>
    if t.list.isNone ∧ t.inlineValues.length < inlineHashmapArraySize then
      let n := { hash := hash, key := key, val := val, order := order }
      some { t with inlineValues := t.inlineValues ++ [n], count := t.count + 1 }
    else if 3 * t.size < 4 * (t.hashmapCount + 1) then
      t.resize.map fun t => t.insertBucket hash key val order
    else
      some (t.insertBucket hash key val order)

/-- `hashmap_insert_GC`: order 0 asks for the next number of the map's counter. -/
def insert (t : HashmapGC κ υ) (hash : UInt64) (key : κ) (val : υ) (order : ℕ) :
    Option (HashmapGC κ υ) :=
  if order = 0 then insertOrdered { t with order := t.order + 1 } hash key val t.order
  else insertOrdered t hash key val order

/-- `clear_hashmap_GC`: the buckets are kept, emptied. -/
def clear (t : HashmapGC κ υ) : HashmapGC κ υ :=
  { t with
    order := 1
    count := 0
    inlineValues := []
    hashmapCount := 0
    list := t.list.map fun bs => List.replicate bs.length [] }

/-- `hashmap_remove_GC`; the answer tells whether a node was removed. The counts stay. -/
def remove (t : HashmapGC κ υ) (hash : UInt64) : Bool × HashmapGC κ υ :=
  if t.inlineValues.any fun n => n.hash = hash then
    (true, { t with inlineValues := t.inlineValues.eraseP fun n => n.hash = hash })
  else
    match t.list with
    | none => (false, t)
    | some list =>
      let pos := t.hashCode hash
      let cur := list.getD pos []
      if cur.any fun n => n.hash = hash then
        (true, { t with list := some (list.set pos (cur.eraseP fun n => n.hash = hash)) })
      else (false, t)

/-- `hashmap_lookup_node_GC`. -/
def lookupNode (t : HashmapGC κ υ) (hash : UInt64) : Option (NodeGC κ υ) :=
  match t.inlineValues.find? fun n => n.hash = hash with
  | some n => some n
  | none =>
    match t.list with
    | none => none
    | some list => (list.getD (t.hashCode hash) []).find? fun n => n.hash = hash

/-- `hashmap_lookup_GC`. -/
def lookup (t : HashmapGC κ υ) (hash : UInt64) : Option υ := (t.lookupNode hash).map NodeGC.val

/-- The nodes in the order `hashmap_GC_to_array` collects them. -/
def nodes (t : HashmapGC κ υ) : List (NodeGC κ υ) := t.inlineValues ++ (t.list.getD []).flatten

/-- `hashmap_GC_to_array`: the nodes sorted by `compare_node_asc`. -/
def toArray (t : HashmapGC κ υ) : List (NodeGC κ υ) := Stamped.sortByStamp NodeGC.order t.nodes

end HashmapGC

end Chloride
