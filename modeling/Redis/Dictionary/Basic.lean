import Mathlib

/-! The incrementally rehashed hash table of `dict.c`. A chain of `dictEntry`
links is the list of its entries, head first. Keys are compared by equality,
and the hash function is an arbitrary map into 64-bit words. -/
namespace Redis.Dictionary

/-- One link of a bucket chain. Its `next` pointer is the rest of the list. -/
structure DictEntry (K V : Type) where
  key : K
  val : V
deriving DecidableEq, Repr

abbrev Chain (K V : Type) := List (DictEntry K V)

/-- `table = none` is the NULL table of a header that was never allocated.
The list holds the buckets that were really allocated, so it may be shorter
than `size` when the byte count of the allocation wrapped. -/
structure DictHt (K V : Type) where
  table : Option (List (Chain K V))
  size : Nat
  sizemask : Nat
  used : Nat
deriving DecidableEq, Repr

/-- `rehashidx = none` stands for the value -1. -/
structure Dict (K V : Type) where
  ht0 : DictHt K V
  ht1 : DictHt K V
  rehashidx : Option Nat
  iterators : Nat
deriving DecidableEq, Repr

/-- The two status codes of the interface, `DICT_OK` and `DICT_ERR`. -/
inductive Status where
  | ok
  | err
deriving DecidableEq, Repr

variable {K V : Type}

def dictHtInitialSize : Nat := 4

def longMax : Nat := 2 ^ 63 - 1

def dictForceResizeRatio : Nat := 5

/-- The allocated buckets, none for a NULL table. -/
def DictHt.buckets (ht : DictHt K V) : List (Chain K V) := ht.table.getD []

/-- Reading `table[i]`. A read outside the allocation finds no chain. -/
def DictHt.bucket (ht : DictHt K V) (i : Nat) : Chain K V := ht.buckets.getD i []

/-- Writing `table[i]`. A write outside the allocation is lost. -/
def DictHt.setBucket (ht : DictHt K V) (i : Nat) (c : Chain K V) : DictHt K V :=
  { ht with table := ht.table.map (fun t => t.set i c) }

/-- Storing the `used` counter. -/
def DictHt.setUsed (ht : DictHt K V) (used : Nat) : DictHt K V := { ht with used := used }

/-- The bucket a key belongs to, `hash & sizemask`. -/
def DictHt.index (hash : K → BitVec 64) (ht : DictHt K V) (k : K) : Nat :=
  (hash k).toNat &&& ht.sizemask

def dictReset : DictHt K V := { table := none, size := 0, sizemask := 0, used := 0 }

def dictCreate : Dict K V :=
  { ht0 := dictReset, ht1 := dictReset, rehashidx := none, iterators := 0 }

def Dict.isRehashing (d : Dict K V) : Bool := d.rehashidx.isSome

def Dict.dictSize (d : Dict K V) : Nat := d.ht0.used + d.ht1.used

/-- The doubling loop of `_dictNextPower`; below `longMax` it needs fewer
than 64 rounds. -/
def nextPowerLoop (size : Nat) : Nat → Nat → Nat
  | 0, i => i
  | fuel + 1, i => if i ≥ size then i else nextPowerLoop size fuel (i * 2)

def dictNextPower (size : Nat) : Nat :=
  if size ≥ longMax then longMax + 1 else nextPowerLoop size 64 dictHtInitialSize

/-- `zcalloc(realsize*sizeof(dictEntry*))`: the product is a 64-bit word, so
the number of pointers it has room for is taken modulo the word size. -/
def zcallocBuckets (realsize : Nat) : List (Chain K V) :=
  List.replicate (realsize * 8 % 2 ^ 64 / 8) []

/-- The header `dictExpand` fills in for a table of `realsize` buckets. -/
def newTable (realsize : Nat) : DictHt K V :=
  { table := some (zcallocBuckets realsize), size := realsize, sizemask := realsize - 1,
    used := 0 }

def dictExpand (d : Dict K V) (size : Nat) : Dict K V × Status :=
  if d.isRehashing ∨ d.ht0.used > size then (d, .err)
  else
    let realsize := dictNextPower size
    if realsize = d.ht0.size then (d, .err)
    else
      match d.ht0.table with
      | none => ({ d with ht0 := newTable realsize }, .ok)
      | some _ => ({ d with ht1 := newTable realsize, rehashidx := some 0 }, .ok)

def dictResize (canResize : Bool) (d : Dict K V) : Dict K V × Status :=
  if !canResize || d.isRehashing then (d, .err)
  else dictExpand d (max d.ht0.used dictHtInitialSize)

/-- The inner loop of `dictRehash` over the buckets from `rehashidx` on. It
gives the new index and what is left of `empty_visits`, or no budget when the
function has to return 1 at once. -/
def skipEmpty : List (Chain K V) → Nat → Int → Nat × Option Int
  | [], idx, _ => (idx, none)
  | [] :: rest, idx, emptyVisits =>
    if emptyVisits - 1 = 0 then (idx + 1, none)
    else skipEmpty rest (idx + 1) (emptyVisits - 1)
  | (_ :: _) :: _, idx, emptyVisits => (idx, some emptyVisits)

/-- Link a new entry on top of a bucket. -/
def DictHt.push (ht : DictHt K V) (index : Nat) (entry : DictEntry K V) : DictHt K V :=
  (ht.setBucket index (entry :: ht.bucket index)).setUsed (ht.used + 1)

/-- Push every link of one old chain on top of its new bucket. -/
def moveEntries (hash : K → BitVec 64) :
    Chain K V → DictHt K V → DictHt K V → DictHt K V × DictHt K V
  | [], h0, h1 => (h0, h1)
  | de :: rest, h0, h1 =>
    moveEntries hash rest (h0.setUsed (h0.used - 1)) (h1.push (h1.index hash de.key) de)

/-- The outer loop of `dictRehash`. The flag is set when the budget of empty
visits ran out. -/
def rehashLoop (hash : K → BitVec 64) : Nat → Int → Dict K V → Dict K V × Bool
  | 0, _, d => (d, false)
  | n + 1, emptyVisits, d =>
    if d.ht0.used = 0 then (d, false)
    else
      let idx := d.rehashidx.getD 0
      match skipEmpty (d.ht0.buckets.drop idx) idx emptyVisits with
      | (idx', none) => ({ d with rehashidx := some idx' }, true)
      | (idx', some emptyVisits') =>
        let moved := moveEntries hash (d.ht0.bucket idx') d.ht0 d.ht1
        rehashLoop hash n emptyVisits'
          { d with
            ht0 := moved.1.setBucket idx' []
            ht1 := moved.2
            rehashidx := some (idx' + 1) }

/-- The last part of `dictRehash`: once the old table is empty the new one
takes its place. -/
def rehashFinish (d : Dict K V) : Dict K V × Nat :=
  if d.ht0.used = 0 then
    ({ d with ht0 := d.ht1, ht1 := dictReset, rehashidx := none }, 0)
  else (d, 1)

/-- `dictRehash(d,n)` for the C `int` n: `n--` is tested against zero, so a
negative n counts as its 32-bit pattern. -/
def dictRehash (hash : K → BitVec 64) (d : Dict K V) (n : Int) : Dict K V × Nat :=
  if !d.isRehashing then (d, 0)
  else
    match rehashLoop hash (n % 2 ^ 32).toNat (n * 10) d with
    | (d', true) => (d', 1)
    | (d', false) => rehashFinish d'

def dictRehashStep (hash : K → BitVec 64) (d : Dict K V) : Dict K V :=
  if d.iterators = 0 then (dictRehash hash d 1).1 else d

def dictExpandIfNeeded (canResize : Bool) (d : Dict K V) : Dict K V × Status :=
  if d.isRehashing then (d, .ok)
  else if d.ht0.size = 0 then dictExpand d dictHtInitialSize
  else if d.ht0.used ≥ d.ht0.size ∧
      (canResize ∨ d.ht0.used / d.ht0.size > dictForceResizeRatio) then
    dictExpand d (d.ht0.used * 2)
  else (d, .ok)

section Keys

variable [DecidableEq K]

/-- The chain walk shared by lookups, insertions and deletions. -/
def Chain.lookup (k : K) (c : Chain K V) : Option (DictEntry K V) :=
  c.find? (fun he => he.key = k)

/-- Unlink the first entry with this key. -/
def Chain.unlink (k : K) (c : Chain K V) : Chain K V :=
  c.eraseP (fun he => he.key = k)

/-- Store a value through the pointer to the entry with this key. -/
def Chain.setVal (k : K) (v : V) : Chain K V → Chain K V
  | [] => []
  | he :: rest => if he.key = k then { he with val := v } :: rest else he :: setVal k v rest

/-- What `_dictKeyIndex` returns: a free index, or -1 with the entry that
already holds the key (NULL when the table could not be expanded). -/
inductive KeyIndex (K V : Type) where
  | free (index : Nat)
  | taken (existing : Option (DictEntry K V))
deriving DecidableEq, Repr

def dictKeyIndex (hash : K → BitVec 64) (canResize : Bool) (d : Dict K V) (k : K) :
    Dict K V × KeyIndex K V :=
  match dictExpandIfNeeded canResize d with
  | (d, .err) => (d, .taken none)
  | (d, .ok) =>
    let idx := d.ht0.index hash k
    match Chain.lookup k (d.ht0.bucket idx) with
    | some he => (d, .taken (some he))
    | none =>
      if !d.isRehashing then (d, .free idx)
      else
        let idx := d.ht1.index hash k
        match Chain.lookup k (d.ht1.bucket idx) with
        | some he => (d, .taken (some he))
        | none => (d, .free idx)

/-- What `dictAddRaw` returns: the new entry, or NULL and `*existing`. -/
inductive AddResult (K V : Type) where
  | added (entry : DictEntry K V)
  | present (existing : Option (DictEntry K V))
deriving DecidableEq, Repr

/-- `dictAddRaw`. The value field of a new entry is whatever the allocator
returned, the argument `raw`. -/
def dictAddRaw (hash : K → BitVec 64) (canResize : Bool) (d : Dict K V) (k : K) (raw : V) :
    Dict K V × AddResult K V :=
  let d := if d.isRehashing then dictRehashStep hash d else d
  match dictKeyIndex hash canResize d k with
  | (d, .taken existing) => (d, .present existing)
  | (d, .free index) =>
    let entry : DictEntry K V := { key := k, val := raw }
    if d.isRehashing then ({ d with ht1 := d.ht1.push index entry }, .added entry)
    else ({ d with ht0 := d.ht0.push index entry }, .added entry)

def DictHt.setVal (hash : K → BitVec 64) (ht : DictHt K V) (k : K) (v : V) : DictHt K V :=
  let idx := ht.index hash k
  ht.setBucket idx (Chain.setVal k v (ht.bucket idx))

/-- `dictSetVal` on the entry holding `k`, in whichever table links it. -/
def dictSetVal (hash : K → BitVec 64) (d : Dict K V) (k : K) (v : V) : Dict K V :=
  if (Chain.lookup k (d.ht0.bucket (d.ht0.index hash k))).isSome then
    { d with ht0 := d.ht0.setVal hash k v }
  else { d with ht1 := d.ht1.setVal hash k v }

def dictAdd (hash : K → BitVec 64) (canResize : Bool) (d : Dict K V) (k : K) (raw v : V) :
    Dict K V × Status :=
  match dictAddRaw hash canResize d k raw with
  | (d, .present _) => (d, .err)
  | (d, .added _) => (dictSetVal hash d k v, .ok)

/-- `dictReplace` returns 1 when the key was added from scratch, 0 when its
value was overwritten. -/
def dictReplace (hash : K → BitVec 64) (canResize : Bool) (d : Dict K V) (k : K) (raw v : V) :
    Dict K V × Nat :=
  match dictAddRaw hash canResize d k raw with
  | (d, .added _) => (dictSetVal hash d k v, 1)
  | (d, .present _) => (dictSetVal hash d k v, 0)

def dictAddOrFind (hash : K → BitVec 64) (canResize : Bool) (d : Dict K V) (k : K) (raw : V) :
    Dict K V × Option (DictEntry K V) :=
  match dictAddRaw hash canResize d k raw with
  | (d, .added entry) => (d, some entry)
  | (d, .present existing) => (d, existing)

/-- Unlink `k` from one table, giving the entry when it was there. -/
def DictHt.delete (hash : K → BitVec 64) (ht : DictHt K V) (k : K) :
    DictHt K V × Option (DictEntry K V) :=
  let idx := ht.index hash k
  match Chain.lookup k (ht.bucket idx) with
  | none => (ht, none)
  | some he =>
    ((ht.setBucket idx (Chain.unlink k (ht.bucket idx))).setUsed (ht.used - 1), some he)

def dictGenericDelete (hash : K → BitVec 64) (d : Dict K V) (k : K) :
    Dict K V × Option (DictEntry K V) :=
  if d.ht0.used = 0 ∧ d.ht1.used = 0 then (d, none)
  else
    let d := if d.isRehashing then dictRehashStep hash d else d
    match d.ht0.delete hash k with
    | (ht, some he) => ({ d with ht0 := ht }, some he)
    | (_, none) =>
      if !d.isRehashing then (d, none)
      else
        match d.ht1.delete hash k with
        | (ht, some he) => ({ d with ht1 := ht }, some he)
        | (_, none) => (d, none)

def dictDelete (hash : K → BitVec 64) (d : Dict K V) (k : K) : Dict K V × Status :=
  match dictGenericDelete hash d k with
  | (d, some _) => (d, .ok)
  | (d, none) => (d, .err)

def dictUnlink (hash : K → BitVec 64) (d : Dict K V) (k : K) :
    Dict K V × Option (DictEntry K V) :=
  dictGenericDelete hash d k

def dictFind (hash : K → BitVec 64) (d : Dict K V) (k : K) :
    Dict K V × Option (DictEntry K V) :=
  if d.dictSize = 0 then (d, none)
  else
    let d := if d.isRehashing then dictRehashStep hash d else d
    match Chain.lookup k (d.ht0.bucket (d.ht0.index hash k)) with
    | some he => (d, some he)
    | none =>
      if !d.isRehashing then (d, none)
      else (d, Chain.lookup k (d.ht1.bucket (d.ht1.index hash k)))

end Keys

/-- `dictEmpty` clears both tables and forgets the iterators. -/
def dictEmpty (_d : Dict K V) : Dict K V := dictCreate

end Redis.Dictionary
