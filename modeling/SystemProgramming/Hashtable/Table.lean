import SystemProgramming.Lib.CString
import SystemProgramming.Lib.CInt
import Mathlib.Logic.Function.Basic

/-!
# `hashtable.c`: the table and its four operations, step by step

An operation computes its bucket, takes the bucket's lock, runs through its body and gives the lock
back.  The bodies are cut into the steps that other threads can tell apart: every visit of a chain
node and every write to a node, to the head of a bucket or to `bucket_sizes` is one step of `next`.
Where memory is asked for, the step has an argument: the pointer that `malloc` returns, or whether
`strdup` succeeds.  Strings are owned by their node; arguments are not NULL.
-/

namespace SystemProgramming.Hashtable

open Function

/-- The address of a node. -/
abbrev Ptr := ℕ

/-- `node_t`; `none` is NULL. -/
structure Node where
  key : Option Str
  value : Option Str
  key_size : ℕ
  value_size : ℕ
  next : Option Ptr
  deriving DecidableEq

/-- What `malloc` leaves in a node is not looked at before it is written. -/
def Node.blank : Node := ⟨none, none, 0, 0, none⟩

/-- `hashtable_t` without its locks: the allocated nodes and the two arrays, by `int` index. -/
structure Table where
  nodes : Ptr → Option Node
  buckets : ℤ → Option Ptr
  bucket_sizes : ℤ → ℤ

/-- The table that `hash_init` returns. -/
def Table.init : Table := ⟨fun _ => none, fun _ => none, fun _ => 0⟩

def Table.setNode (T : Table) (p : Ptr) (n : Option Node) : Table :=
  { T with nodes := update T.nodes p n }

/-- A `char` as the `unsigned int` it is added as; `char` is signed. -/
def charValue (c : CChar) : UInt32 := c.1.toInt8.toInt32.toUInt32

/-- The loop of `hash`. -/
def hashFrom : UInt32 → Str → UInt32
  | h, [] => h
  | h, c :: key => hashFrom ((h <<< 5) + charValue c) key

/-- `hash(key, hash_size)` -/
def hash (key : Str) (hash_size : ℕ) : ℤ :=
  CInt.toInt (((hashFrom 0 key).toNat % hash_size : ℕ) : ℤ)

/-- For a table of at most `2^31` buckets the index is one of them. -/
theorem hash_bounds (key : Str) {hash_size : ℕ} (hpos : 1 ≤ hash_size) (hle : hash_size ≤ 2 ^ 31) :
    0 ≤ hash key hash_size ∧ hash key hash_size < hash_size := by
  have hlt : (hashFrom 0 key).toNat % hash_size < hash_size := Nat.mod_lt _ hpos
  unfold hash
  rw [CInt.toInt_of_lt (by omega)]
  omega

/-- `strncpy(dst, src, n)`: the bytes that are written to `dst`. -/
def strncpy (src : Str) (n : ℕ) : List UInt8 :=
  (src.map Subtype.val ++ List.replicate (n - src.length) 0).take n

/-- A call. -/
inductive Op where
  | insert (key value : Str)
  | read (key : Str) (quick : Bool)
  | update (key value : Str)
  | delete (key : Str)
  deriving DecidableEq

def Op.key : Op → Str
  | insert key _ => key
  | read key _ => key
  | update key _ => key
  | delete key => key

/-- The value to be stored, if there is one. -/
def Op.value : Op → Str
  | insert _ value => value
  | read _ _ => []
  | update _ value => value
  | delete _ => []

/-- The operations that take the write lock. -/
def Op.writes : Op → Bool
  | read _ _ => false
  | _ => true

/-- What a call returns, and what it has written to `dst`. -/
structure Result where
  ret : ℤ
  dst : Option (List UInt8)
  deriving DecidableEq

/-- The next step of a body.  `unlock r garbage` releases the lock; then `garbage` is freed and `r`
returned. -/
inductive Pc where
  -- the search
  | head
  | visit (prev cur : Option Ptr)
  -- `hash_insert`
  | malloc
  | setKey (p : Ptr)
  | setValue (p : Ptr)
  | check (p : Ptr)
  | setKeySize (p : Ptr)
  | setValueSize (p : Ptr)
  | clearNext (p : Ptr)
  | setNext (p : Ptr)
  | link (p : Ptr)
  | countUp
  -- `hash_read`
  | copy (p : Ptr)
  -- `hash_update`
  | dupValue (p : Ptr)
  | storeValue (p : Ptr)
  | storeSize (p : Ptr)
  -- `hash_delete`
  | unlinkHead (p : Ptr)
  | unlinkAfter (q p : Ptr)
  | free (p : Ptr)
  | countDown
  | unlock (r : Result) (garbage : Option Ptr)
  deriving DecidableEq

/-- What follows when the key is not in the chain. -/
def Op.missing : Op → Pc
  | insert _ _ => .malloc
  | read _ _ => .unlock ⟨0, none⟩ none
  | update _ _ => .unlock ⟨0, none⟩ none
  | delete _ => .unlock ⟨0, none⟩ none

/-- What follows when the node `p` behind `prev` has the key. -/
def Op.found (prev : Option Ptr) (p : Ptr) : Op → Pc
  | insert _ _ => .unlock ⟨0, none⟩ none
  | read _ _ => .copy p
  | update _ _ => .dupValue p
  | delete _ =>
    match prev with
    | none => .unlinkHead p
    | some q => .unlinkAfter q p

/-- One step of a body on the bucket `idx`.  `a` is what the allocator returns where the step calls
it.  The result is `none` where the source would read a node that is not there. -/
def next (op : Op) (idx : ℤ) (a : Option Ptr) (T : Table) : Pc → Option (Pc × Table)
  | .head => some (.visit none (T.buckets idx), T)
  | .visit _ none => some (op.missing, T)
  | .visit prev (some p) => do
    let n ← T.nodes p
    let k ← n.key
    if strcmp op.key k = 0 then some (op.found prev p, T) else some (.visit (some p) n.next, T)
  | .malloc =>
    match a with
    | none => some (.unlock ⟨-1, none⟩ none, T)
    | some p => some (.setKey p, T.setNode p (some Node.blank))
  | .setKey p => do
    let n ← T.nodes p
    some (.setValue p, T.setNode p (some { n with key := a.map fun _ => op.key }))
  | .setValue p => do
    let n ← T.nodes p
    some (.check p, T.setNode p (some { n with value := a.map fun _ => op.value }))
  | .check p => do
    let n ← T.nodes p
    if n.key = none ∨ n.value = none then some (.unlock ⟨-1, none⟩ (some p), T)
    else some (.setKeySize p, T)
  | .setKeySize p => do
    let n ← T.nodes p
    some (.setValueSize p, T.setNode p (some { n with key_size := op.key.length + 1 }))
  | .setValueSize p => do
    let n ← T.nodes p
    some (.clearNext p, T.setNode p (some { n with value_size := op.value.length + 1 }))
  | .clearNext p => do
    let n ← T.nodes p
    some (.setNext p, T.setNode p (some { n with next := none }))
  | .setNext p => do
    let n ← T.nodes p
    some (.link p, T.setNode p (some { n with next := T.buckets idx }))
  | .link p => some (.countUp, { T with buckets := update T.buckets idx (some p) })
  | .countUp =>
    some (.unlock ⟨1, none⟩ none,
      { T with bucket_sizes := update T.bucket_sizes idx (T.bucket_sizes idx + 1) })
  | .copy p => do
    let n ← T.nodes p
    let v ← n.value
    some (.unlock ⟨1, some (strncpy v n.value_size)⟩ none, T)
  | .dupValue p =>
    match a with
    | none => some (.unlock ⟨-1, none⟩ none, T)
    | some _ => some (.storeValue p, T)
  | .storeValue p => do
    let n ← T.nodes p
    some (.storeSize p, T.setNode p (some { n with value := some op.value }))
  | .storeSize p => do
    let n ← T.nodes p
    some (.unlock ⟨1, none⟩ none,
      T.setNode p (some { n with value_size := op.value.length + 1 }))
  | .unlinkHead p => do
    let n ← T.nodes p
    some (.free p, { T with buckets := update T.buckets idx n.next })
  | .unlinkAfter q p => do
    let n ← T.nodes p
    let m ← T.nodes q
    some (.free p, T.setNode q (some { m with next := n.next }))
  | .free p => do
    let _ ← T.nodes p
    some (.countDown, T.setNode p none)
  | .countDown =>
    some (.unlock ⟨1, none⟩ none,
      { T with bucket_sizes := update T.bucket_sizes idx (T.bucket_sizes idx - 1) })
  | .unlock _ _ => none

end SystemProgramming.Hashtable
