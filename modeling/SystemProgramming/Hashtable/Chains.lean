import SystemProgramming.Hashtable.Table
import Mathlib.Data.List.Nodup

/-!
# Chains and what a body does to one

A bucket is a chain of nodes: the list of their addresses and entries (`Segment`).  `Op.effect` is what
an operation does to the entries of its bucket, and `At` what is true before each step of its body,
relative to the entries it started with.
-/

namespace SystemProgramming.Hashtable

open Function

/-- An entry of a bucket. -/
structure Entry where
  key : Str
  value : Str
  key_size : ℕ
  value_size : ℕ
  deriving DecidableEq

/-- The node that holds an entry. -/
def Entry.node (e : Entry) (next : Option Ptr) : Node :=
  ⟨some e.key, some e.value, e.key_size, e.value_size, next⟩

/-- The address of the first node of a chain that ends at `q`. -/
def first (xs : List (Ptr × Entry)) (q : Option Ptr) : Option Ptr :=
  match xs with
  | [] => q
  | x :: _ => some x.1

/-- The nodes of `xs` are linked in order, the last one pointing at `q`. -/
def Segment (nodes : Ptr → Option Node) : List (Ptr × Entry) → Option Ptr → Prop
  | [], _ => True
  | x :: xs, q => nodes x.1 = some (x.2.node (first xs q)) ∧ Segment nodes xs q

variable {nodes nodes' : Ptr → Option Node} {xs ys : List (Ptr × Entry)} {q : Option Ptr} {p : Ptr}
  {e : Entry}

theorem first_append (xs ys : List (Ptr × Entry)) (q : Option Ptr) :
    first (xs ++ ys) q = first xs (first ys q) := by
  cases xs <;> rfl

theorem segment_append :
    Segment nodes (xs ++ ys) q ↔ Segment nodes xs (first ys q) ∧ Segment nodes ys q := by
  induction xs with
  | nil => exact iff_of_eq (true_and _).symm
  | cons x xs ih =>
    show (_ = some (x.2.node (first (xs ++ ys) q)) ∧ Segment nodes (xs ++ ys) q) ↔
      (_ ∧ Segment nodes xs (first ys q)) ∧ _
    rw [first_append, ih, and_assoc]

/-- Only the nodes of the chain matter. -/
theorem Segment.congr (h : Segment nodes xs q) (heq : ∀ x ∈ xs, nodes' x.1 = nodes x.1) :
    Segment nodes' xs q := by
  induction xs with
  | nil => trivial
  | cons x xs ih =>
    exact ⟨(heq x List.mem_cons_self).trans h.1,
      ih h.2 fun y hy => heq y (List.mem_cons_of_mem x hy)⟩

theorem Segment.node_eq (h : Segment nodes (xs ++ (p, e) :: ys) q) :
    nodes p = some (e.node (first ys q)) := (segment_append.mp h).2.1

theorem Segment.allocated (h : Segment nodes xs q) {x : Ptr × Entry} (hx : x ∈ xs) :
    nodes x.1 ≠ none := by
  obtain ⟨l, r, rfl⟩ := List.append_of_mem hx
  rw [h.node_eq (p := x.1) (e := x.2)]
  exact Option.some_ne_none _

/-- Replace the entry of a node, keeping its link. -/
theorem Segment.set (h : Segment nodes (xs ++ (p, e) :: ys) q)
    (hnd : ((xs ++ (p, e) :: ys).map Prod.fst).Nodup) (e' : Entry) :
    Segment (update nodes p (some (e'.node (first ys q)))) (xs ++ (p, e') :: ys) q := by
  rw [List.map_append, List.map_cons, List.nodup_middle, List.nodup_cons] at hnd
  have hout : ∀ x ∈ xs ++ ys, x.1 ≠ p := by
    intro x hx heq
    apply hnd.1
    show p ∈ _
    rw [← List.map_append, ← heq]
    exact List.mem_map_of_mem (f := Prod.fst) hx
  rw [segment_append] at h ⊢
  refine ⟨h.1.congr fun x hx => ?_, update_self _ _ _, h.2.2.congr fun x hx => ?_⟩
  · exact update_of_ne (hout x (List.mem_append_left _ hx)) _ _
  · exact update_of_ne (hout x (List.mem_append_right _ hx)) _ _

/-- Redirect the link of the last node. -/
theorem Segment.redirect (h : Segment nodes (xs ++ [(p, e)]) q)
    (hnd : ((xs ++ [(p, e)]).map Prod.fst).Nodup) (q' : Option Ptr) :
    Segment (update nodes p (some (e.node q'))) (xs ++ [(p, e)]) q' := by
  rw [List.map_append, List.map_cons, List.nodup_middle, List.nodup_cons] at hnd
  rw [segment_append] at h ⊢
  refine ⟨h.1.congr fun x hx => ?_, update_self _ _ _, trivial⟩
  apply update_of_ne
  intro heq
  apply hnd.1
  show p ∈ _
  rw [List.map_nil, List.append_nil, ← heq]
  exact List.mem_map_of_mem (f := Prod.fst) hx

/-! ### What an operation does to the entries of its bucket -/

/-- The first entry with the key gets the value. -/
def store (key value : Str) : List Entry → List Entry
  | [] => []
  | e :: es =>
    if e.key = key then { e with value := value, value_size := value.length + 1 } :: es
    else e :: store key value es

/-- The entry of a key and value that are inserted. -/
def Entry.new (key value : Str) : Entry := ⟨key, value, key.length + 1, value.length + 1⟩

/-- What an operation returns and leaves; `ok` says whether memory was there. -/
def Op.effect (ok : Bool) (es : List Entry) : Op → Result × List Entry
  | insert key value =>
    match es.find? (·.key = key) with
    | some _ => (⟨0, none⟩, es)
    | none => if ok then (⟨1, none⟩, Entry.new key value :: es) else (⟨-1, none⟩, es)
  | read key _ =>
    match es.find? (·.key = key) with
    | some e => (⟨1, some (strncpy e.value e.value_size)⟩, es)
    | none => (⟨0, none⟩, es)
  | update key value =>
    match es.find? (·.key = key) with
    | some _ => if ok then (⟨1, none⟩, store key value es) else (⟨-1, none⟩, es)
    | none => (⟨0, none⟩, es)
  | delete key =>
    match es.find? (·.key = key) with
    | some _ => (⟨1, none⟩, es.eraseP (·.key = key))
    | none => (⟨0, none⟩, es)

section Search

variable {key : Str} {l r es : List Entry}

theorem find_split (hl : ∀ d ∈ l, d.key ≠ key) (he : e.key = key) :
    (l ++ e :: r).find? (·.key = key) = some e := by
  rw [List.find?_append, List.find?_eq_none.mpr, Option.none_or, List.find?_cons_of_pos]
  · exact decide_eq_true he
  · exact fun d hd => by simp [hl d hd]

theorem find_missing (h : ∀ d ∈ es, d.key ≠ key) : es.find? (·.key = key) = none := by
  rw [List.find?_eq_none]
  exact fun d hd => by simp [h d hd]

theorem store_split (value : Str) (hl : ∀ d ∈ l, d.key ≠ key) (he : e.key = key) :
    store key value (l ++ e :: r)
      = l ++ { e with value := value, value_size := value.length + 1 } :: r := by
  induction l with
  | nil => exact if_pos he
  | cons d l ih =>
    show (if d.key = key then _ else d :: store key value (l ++ e :: r)) = _
    rw [if_neg (hl d List.mem_cons_self), ih fun c hc => hl c (List.mem_cons_of_mem d hc)]
    rfl

theorem erase_split (hl : ∀ d ∈ l, d.key ≠ key) (he : e.key = key) :
    (l ++ e :: r).eraseP (·.key = key) = l ++ r := by
  rw [List.eraseP_append_right, List.eraseP_cons_of_pos]
  · exact decide_eq_true he
  · exact fun d hd => by simp [hl d hd]

end Search

/-- Where memory makes a difference, the operation returns 1 with it and -1 without. -/
theorem effect_cases (op : Op) (es : List Entry) :
    (∀ ok ok', op.effect ok es = op.effect ok' es) ∨
    (op.effect true es).1.ret = 1 ∧ op.effect false es = (⟨-1, none⟩, es) := by
  cases op with
  | insert key value =>
    cases hfind : es.find? (·.key = key) with
    | none => exact Or.inr (by simp only [Op.effect, hfind]; exact ⟨rfl, rfl⟩)
    | some e => exact Or.inl fun ok ok' => by simp only [Op.effect, hfind]
  | read key quick => exact Or.inl fun _ _ => rfl
  | update key value =>
    cases hfind : es.find? (·.key = key) with
    | none => exact Or.inl fun ok ok' => by simp only [Op.effect, hfind]
    | some e => exact Or.inr (by simp only [Op.effect, hfind]; exact ⟨rfl, rfl⟩)
  | delete key => exact Or.inl fun _ _ => rfl

theorem effect_of_zero {op : Op} {es : List Entry} {ok : Bool} {x : Result × List Entry} (ok' : Bool)
    (h : op.effect ok es = x) (hzero : x.1.ret = 0) : op.effect ok' es = x := by
  rcases effect_cases op es with hsame | ⟨htrue, hfalse⟩
  · rw [hsame ok' ok, h]
  · rw [← h] at hzero
    cases ok with
    | true => omega
    | false =>
      rw [hfalse] at hzero
      cases hzero

/-! ### Before each step of a body -/

/-- The entries of a chain. -/
def entries (xs : List (Ptr × Entry)) : List Entry := xs.map Prod.snd

@[simp] theorem entries_append (xs ys : List (Ptr × Entry)) :
    entries (xs ++ ys) = entries xs ++ entries ys := List.map_append

@[simp] theorem entries_cons (x : Ptr × Entry) (xs : List (Ptr × Entry)) :
    entries (x :: xs) = x.2 :: entries xs := rfl

/-- The bucket `i` is the chain `xs`. -/
structure Chain (T : Table) (i : ℤ) (xs : List (Ptr × Entry)) : Prop where
  head : T.buckets i = first xs none
  links : Segment T.nodes xs none

/-- No entry of `es` has the key of the operation. -/
def Op.absent (op : Op) (es : List Entry) : Prop := ∀ e ∈ es, e.key ≠ op.key

/-- The steps that ask for memory. -/
def Pc.allocates : Pc → Bool
  | malloc => true
  | setKey _ => true
  | setValue _ => true
  | dupValue _ => true
  | _ => false

/-- The insertion of a key that is not in the bucket, which still holds the entries `c`. -/
structure Op.Inserts (op : Op) (c : List Entry) (size : ℤ) (xs : List (Ptr × Entry)) : Prop where
  same : entries xs = c
  size_eq : size = c.length
  absent : op.absent c
  op_eq : op = .insert op.key op.value

/-- The key is in the entries `c`: first in `e`, behind `l` and in front of `r`. -/
structure Op.Finds (op : Op) (c : List Entry) (size : ℤ) (l : List (Ptr × Entry)) (e : Entry)
    (r : List (Ptr × Entry)) : Prop where
  split : c = entries l ++ e :: entries r
  size_eq : size = c.length
  absent : op.absent (entries l)
  key_eq : e.key = op.key

/-- **Before a step**, in terms of the entries `c` that the bucket held when the body began: `xs` is the
chain now, `own` the nodes that only this body knows, and `failed` whether memory was refused. -/
inductive Stage (op : Op) (c : List Entry) (T : Table) (size : ℤ) :
    Bool → List (Ptr × Entry) → List Ptr → Pc → Prop where
  | head {xs : List (Ptr × Entry)} (hxs : entries xs = c) (hsize : size = c.length) :
      Stage op c T size false xs [] .head
  | visit {l r : List (Ptr × Entry)} (hxs : entries (l ++ r) = c) (hsize : size = c.length)
      (hl : op.absent (entries l)) :
      Stage op c T size false (l ++ r) [] (.visit (l.getLast?.map Prod.fst) (first r none))
  | malloc {xs : List (Ptr × Entry)} (h : op.Inserts c size xs) :
      Stage op c T size false xs [] .malloc
  | setKey {xs : List (Ptr × Entry)} {p : Ptr} {n : Node} (h : op.Inserts c size xs)
      (hp : T.nodes p = some n) : Stage op c T size false xs [p] (.setKey p)
  | setValue {xs : List (Ptr × Entry)} {p : Ptr} {n : Node} {f : Bool} (h : op.Inserts c size xs)
      (hp : T.nodes p = some n) (hkey : n.key = if f = true then none else some op.key) :
      Stage op c T size f xs [p] (.setValue p)
  | check {xs : List (Ptr × Entry)} {p : Ptr} {n : Node} {f : Bool} (h : op.Inserts c size xs)
      (hp : T.nodes p = some n) (hfail : f = true → n.key = none ∨ n.value = none)
      (hok : f = false → n.key = some op.key ∧ n.value = some op.value) :
      Stage op c T size f xs [p] (.check p)
  | setKeySize {xs : List (Ptr × Entry)} {p : Ptr} {n : Node} (h : op.Inserts c size xs)
      (hp : T.nodes p = some n) (hkey : n.key = some op.key) (hvalue : n.value = some op.value) :
      Stage op c T size false xs [p] (.setKeySize p)
  | setValueSize {xs : List (Ptr × Entry)} {p : Ptr} {n : Node} (h : op.Inserts c size xs)
      (hp : T.nodes p = some n) (hkey : n.key = some op.key) (hvalue : n.value = some op.value)
      (hks : n.key_size = op.key.length + 1) : Stage op c T size false xs [p] (.setValueSize p)
  | clearNext {xs : List (Ptr × Entry)} {p : Ptr} {q : Option Ptr} (h : op.Inserts c size xs)
      (hp : T.nodes p = some ((Entry.new op.key op.value).node q)) :
      Stage op c T size false xs [p] (.clearNext p)
  | setNext {xs : List (Ptr × Entry)} {p : Ptr} {q : Option Ptr} (h : op.Inserts c size xs)
      (hp : T.nodes p = some ((Entry.new op.key op.value).node q)) :
      Stage op c T size false xs [p] (.setNext p)
  | link {xs : List (Ptr × Entry)} {p : Ptr} (h : op.Inserts c size xs)
      (hp : T.nodes p = some ((Entry.new op.key op.value).node (first xs none))) :
      Stage op c T size false xs [p] (.link p)
  | countUp {xs : List (Ptr × Entry)} {p : Ptr} (h : op.Inserts c size xs) :
      Stage op c T size false ((p, Entry.new op.key op.value) :: xs) [] .countUp
  | copy {l r : List (Ptr × Entry)} {p : Ptr} {e : Entry} (h : op.Finds c size l e r)
      (hop : ∃ quick, op = .read op.key quick) :
      Stage op c T size false (l ++ (p, e) :: r) [] (.copy p)
  | dupValue {l r : List (Ptr × Entry)} {p : Ptr} {e : Entry} (h : op.Finds c size l e r)
      (hop : op = .update op.key op.value) :
      Stage op c T size false (l ++ (p, e) :: r) [] (.dupValue p)
  | storeValue {l r : List (Ptr × Entry)} {p : Ptr} {e : Entry} (h : op.Finds c size l e r)
      (hop : op = .update op.key op.value) :
      Stage op c T size false (l ++ (p, e) :: r) [] (.storeValue p)
  | storeSize {l r : List (Ptr × Entry)} {p : Ptr} {e : Entry} (h : op.Finds c size l e r)
      (hop : op = .update op.key op.value) :
      Stage op c T size false (l ++ (p, { e with value := op.value }) :: r) [] (.storeSize p)
  | unlinkHead {r : List (Ptr × Entry)} {p : Ptr} {e : Entry} (h : op.Finds c size [] e r)
      (hop : op = .delete op.key) : Stage op c T size false ((p, e) :: r) [] (.unlinkHead p)
  | unlinkAfter {l r : List (Ptr × Entry)} {q p : Ptr} {d e : Entry}
      (h : op.Finds c size (l ++ [(q, d)]) e r) (hop : op = .delete op.key) :
      Stage op c T size false (l ++ [(q, d)] ++ (p, e) :: r) [] (.unlinkAfter q p)
  | free {l r : List (Ptr × Entry)} {p : Ptr} {e : Entry} (h : op.Finds c size l e r)
      (hop : op = .delete op.key) (hp : T.nodes p ≠ none) :
      Stage op c T size false (l ++ r) [p] (.free p)
  | countDown {l r : List (Ptr × Entry)} {e : Entry} (h : op.Finds c size l e r)
      (hop : op = .delete op.key) : Stage op c T size false (l ++ r) [] .countDown
  | unlock {xs : List (Ptr × Entry)} {r : Result} {g : Option Ptr} {f : Bool}
      (heffect : op.effect (!f) c = (r, entries xs)) (hsize : size = xs.length)
      (hg : ∀ p ∈ g, T.nodes p ≠ none) : Stage op c T size f xs g.toList (.unlock r g)

theorem Stage.of_unlock {op : Op} {c : List Entry} {T : Table} {size : ℤ} {f : Bool}
    {own : List Ptr} {r : Result} {g : Option Ptr} (h : Stage op c T size f xs own (.unlock r g)) :
    op.effect (!f) c = (r, entries xs) ∧ size = xs.length ∧ own = g.toList := by
  cases h with
  | unlock heffect hsize _ => exact ⟨heffect, hsize, rfl⟩

/-- The body of `op` on the bucket `i` is before the step `pc`. -/
structure At (op : Op) (i : ℤ) (c : List Entry) (failed : Bool) (T : Table)
    (xs : List (Ptr × Entry)) (own : List Ptr) (pc : Pc) : Prop where
  chain : Chain T i xs
  stage : Stage op c T (T.bucket_sizes i) failed xs own pc
  nodup : (xs.map Prod.fst ++ own).Nodup

/-- Of the nodes, only those in `mine` and memory that was free have been touched, and `mine'` is made of
these. -/
structure Frame (mine mine' : List Ptr) (T T' : Table) : Prop where
  nodes : ∀ p, p ∉ mine → T.nodes p ≠ none → T'.nodes p = T.nodes p
  mine : ∀ p ∈ mine', p ∈ mine ∨ T.nodes p = none

section Frames

variable {i : ℤ} {mine mine' mine'' : List Ptr} {T T' T'' : Table} {p : Ptr} {n : Option Node}

theorem Frame.same (hn : T'.nodes = T.nodes) (h : ∀ p ∈ mine', p ∈ mine) : Frame mine mine' T T' :=
  ⟨fun p _ _ => congrFun hn p, fun p hp => Or.inl (h p hp)⟩

theorem Frame.setNode (hp : p ∈ mine ∨ T.nodes p = none) (h : ∀ q ∈ mine', q ∈ mine ∨ q = p) :
    Frame mine mine' T (T.setNode p n) := by
  refine ⟨fun q hq halloc => ?_, fun q hq => ?_⟩
  · apply update_of_ne
    intro heq
    subst heq
    exact hp.elim hq halloc
  · cases h q hq with
    | inl hmem => exact Or.inl hmem
    | inr heq => rw [heq]; exact hp

theorem Frame.trans (h : Frame mine mine' T T') (h' : Frame mine' mine'' T' T'') :
    Frame mine mine'' T T'' := by
  refine ⟨fun p hp halloc => ?_, fun p hp => ?_⟩
  · have hsame := h.nodes p hp halloc
    have hout : p ∉ mine' := fun hmem => (h.mine p hmem).elim hp halloc
    rw [h'.nodes p hout (by rwa [hsame]), hsame]
  · cases h'.mine p hp with
    | inl hmem => exact h.mine p hmem
    | inr hfree =>
      by_contra hcon
      rw [not_or] at hcon
      exact hcon.2 ((h.nodes p hcon.1 hcon.2).symm.trans hfree)

/-- The other buckets are as they were. -/
structure Local (i : ℤ) (mine mine' : List Ptr) (T T' : Table) : Prop where
  buckets : ∀ j, j ≠ i → T'.buckets j = T.buckets j
  sizes : ∀ j, j ≠ i → T'.bucket_sizes j = T.bucket_sizes j
  frame : Frame mine mine' T T'

theorem Local.same (T : Table) (mine : List Ptr) : Local i mine mine T T :=
  ⟨fun _ _ => rfl, fun _ _ => rfl, Frame.same rfl fun _ hp => hp⟩

theorem Local.setNode (hp : p ∈ mine ∨ T.nodes p = none) (h : ∀ q ∈ mine', q ∈ mine ∨ q = p) :
    Local i mine mine' T (T.setNode p n) := ⟨fun _ _ => rfl, fun _ _ => rfl, Frame.setNode hp h⟩

theorem Local.setBucket {v : Option Ptr} (h : ∀ q ∈ mine', q ∈ mine) :
    Local i mine mine' T { T with buckets := update T.buckets i v } :=
  ⟨fun _ hj => update_of_ne hj _ _, fun _ _ => rfl, Frame.same rfl h⟩

theorem Local.setSize {v : ℤ} (h : ∀ q ∈ mine', q ∈ mine) :
    Local i mine mine' T { T with bucket_sizes := update T.bucket_sizes i v } :=
  ⟨fun _ _ => rfl, fun _ hj => update_of_ne hj _ _, Frame.same rfl h⟩

theorem Local.trans (h : Local i mine mine' T T') (h' : Local i mine' mine'' T' T'') :
    Local i mine mine'' T T'' :=
  ⟨fun j hj => (h'.buckets j hj).trans (h.buckets j hj),
    fun j hj => (h'.sizes j hj).trans (h.sizes j hj), h.frame.trans h'.frame⟩

/-- All buckets are as they were. -/
structure Private (own own' : List Ptr) (T T' : Table) : Prop where
  buckets : T'.buckets = T.buckets
  sizes : T'.bucket_sizes = T.bucket_sizes
  frame : Frame own own' T T'

theorem Private.same (own : List Ptr) (T : Table) : Private own own T T :=
  ⟨rfl, rfl, Frame.same rfl fun _ hp => hp⟩

theorem Private.setNode (hp : p ∈ mine ∨ T.nodes p = none) (h : ∀ q ∈ mine', q ∈ mine ∨ q = p) :
    Private mine mine' T (T.setNode p n) := ⟨rfl, rfl, Frame.setNode hp h⟩

theorem Private.trans (h : Private mine mine' T T') (h' : Private mine' mine'' T' T'') :
    Private mine mine'' T T'' :=
  ⟨h'.buckets.trans h.buckets, h'.sizes.trans h.sizes, h.frame.trans h'.frame⟩

end Frames

end SystemProgramming.Hashtable
