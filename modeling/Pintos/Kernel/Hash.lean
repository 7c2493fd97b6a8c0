import Mathlib.Data.Nat.Bitwise
import Mathlib.Data.List.Perm.Basic
import Mathlib.Order.Defs.Unbundled
import Pintos.Lib.KeyedMap

/-!
# The hash table of `lib/kernel/hash.c`

A `struct hash_elem *` is a value of the type `ε`, and a bucket the sequence of the elements of its
list. What an element hashes to and how it compares do not change while it is in a table. An
element takes up memory, so there are far fewer than `2 ^ 64` and the counts are numbers.

`rehash` gets its new buckets from `malloc`; `alloc` says whether there is memory for them.
-/

namespace Pintos

/-- The `hash` and `less` of a table, with its `aux`: a strict weak order, and elements it does not
tell apart hash equally. -/
structure HashOrder (ε : Type*) where
  hash : ε → BitVec 64
  less : ε → ε → Bool
  weakOrder : IsStrictWeakOrder ε fun a b => less a b = true
  hash_eq : ∀ a b, less a b = false → less b a = false → hash a = hash b

/-- `struct hash`. -/
structure Hash (ε : Type*) where
  elemCnt : Nat
  bucketCnt : Nat
  buckets : List (List ε)

/-! ## The number of buckets -/

/-- `x & (x - 1)`. -/
def turnOffLeast1bit (x : Nat) : Nat := x &&& (x - 1)

def isPowerOf2 (x : Nat) : Bool := x != 0 && turnOffLeast1bit x == 0

/-- The loop of `rehash` over `new_bucket_cnt`; it ends within `x` steps. -/
def stripBits : Nat → Nat → Nat
  | 0, x => x
  | fuel + 1, x => if isPowerOf2 x then x else stripBits fuel (turnOffLeast1bit x)

def BEST_ELEMS_PER_BUCKET : Nat := 2

/-- The number of buckets to use for `elemCnt` elements. -/
def newBucketCnt (elemCnt : Nat) : Nat :=
  let n := elemCnt / BEST_ELEMS_PER_BUCKET
  let n := if n < 4 then 4 else n
  stripBits n n

namespace Hash

variable {ε : Type*}

/-- The elements of all buckets. -/
def elems (h : Hash ε) : List ε := h.buckets.flatten

/-- The index of the bucket that `e` belongs in, of `bucketCnt`. -/
def bucketIdx (F : HashOrder ε) (bucketCnt : Nat) (e : ε) : Nat :=
  (F.hash e).toNat &&& (bucketCnt - 1)

def findBucket (F : HashOrder ε) (h : Hash ε) (e : ε) : Nat := bucketIdx F h.bucketCnt e

def findElem (F : HashOrder ε) (bucket : List ε) (e : ε) : Option ε :=
  bucket.find? fun hi => !F.less hi e && !F.less e hi

/-- `list_push_front`. -/
def pushFront (buckets : List (List ε)) (i : Nat) (e : ε) : List (List ε) :=
  buckets.modify i (e :: ·)

def insertElem (h : Hash ε) (bucket : Nat) (e : ε) : Hash ε :=
  { h with elemCnt := h.elemCnt + 1, buckets := pushFront h.buckets bucket e }

/-- `remove_elem`; `list_remove` unlinks the element from the bucket that it is in. -/
def removeElem [DecidableEq ε] (h : Hash ε) (e : ε) : Hash ε :=
  { h with elemCnt := h.elemCnt - 1, buckets := h.buckets.map (·.erase e) }

/-- The new buckets, after each element of the old ones was moved. -/
def moveElems (F : HashOrder ε) (bucketCnt : Nat) (old : List (List ε)) : List (List ε) :=
  old.foldl (fun buckets bucket =>
      bucket.foldl (fun buckets e => pushFront buckets (bucketIdx F bucketCnt e) e) buckets)
    (List.replicate bucketCnt [])

def rehash (F : HashOrder ε) (h : Hash ε) (alloc : Bool) : Hash ε :=
  let cnt := newBucketCnt h.elemCnt
  if cnt = h.bucketCnt then h
  else if alloc then { h with bucketCnt := cnt, buckets := moveElems F cnt h.buckets }
  else h

/-! ## The operations -/

/-- `hash_clear`, and the elements in the order in which the destructor is called for them. -/
def hashClear (h : Hash ε) (destructor : Bool) : Hash ε × List ε :=
  ({ h with elemCnt := 0, buckets := h.buckets.map fun _ => [] }, if destructor then h.elems else [])

/-- `hash_init`, where `malloc` returns the memory of `buckets`. -/
def hashInit (buckets : Fin 4 → List ε) : Hash ε :=
  (hashClear { elemCnt := 0, bucketCnt := 4, buckets := List.ofFn buckets } false).1

def hashInsert (F : HashOrder ε) (h : Hash ε) (new : ε) (alloc : Bool) : Hash ε × Option ε :=
  let bucket := h.findBucket F new
  let old := findElem F (h.buckets.getD bucket []) new
  let h := if old = none then h.insertElem bucket new else h
  (h.rehash F alloc, old)

def hashReplace [DecidableEq ε] (F : HashOrder ε) (h : Hash ε) (new : ε) (alloc : Bool) :
    Hash ε × Option ε :=
  let bucket := h.findBucket F new
  let old := findElem F (h.buckets.getD bucket []) new
  let h :=
    match old with
    | some e => h.removeElem e
    | none => h
  ((h.insertElem bucket new).rehash F alloc, old)

def hashFind (F : HashOrder ε) (h : Hash ε) (e : ε) : Option ε :=
  findElem F (h.buckets.getD (h.findBucket F e) []) e

def hashDelete [DecidableEq ε] (F : HashOrder ε) (h : Hash ε) (e : ε) (alloc : Bool) :
    Hash ε × Option ε :=
  match h.hashFind F e with
  | some found => ((h.removeElem found).rehash F alloc, some found)
  | none => (h, none)

def hashSize (h : Hash ε) : Nat := h.elemCnt

end Hash

/-- A call on a table. -/
inductive HashAction (ε : Type*) where
  | insert (e : ε) (alloc : Bool)
  | replace (e : ε) (alloc : Bool)
  | find (e : ε)
  | delete (e : ε) (alloc : Bool)
  | clear (destructor : Bool)

/-- What a call returns, or the calls of the destructor. -/
inductive HashResult (ε : Type*) where
  | elem (e : Option ε)
  | destroyed (l : List ε)

/-- One call. -/
def Hash.step {ε : Type*} [DecidableEq ε] (F : HashOrder ε) (h : Hash ε) :
    HashAction ε → Hash ε × HashResult ε
  | .insert e alloc => ((h.hashInsert F e alloc).1, .elem (h.hashInsert F e alloc).2)
  | .replace e alloc => ((h.hashReplace F e alloc).1, .elem (h.hashReplace F e alloc).2)
  | .find e => (h, .elem (h.hashFind F e))
  | .delete e alloc => ((h.hashDelete F e alloc).1, .elem (h.hashDelete F e alloc).2)
  | .clear destructor => ((h.hashClear destructor).1, .destroyed (h.hashClear destructor).2)

end Pintos
