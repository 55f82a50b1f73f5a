import SystemProgramming.Hashtable.Chains

/-!
# The steps of a body

`At.step` is the step lemma: every step leads to the next `At`, is closer to the unlock, and touches
nothing but the chain of the bucket, nodes of the body's own and memory that was free.  A body relies
on no more than that (`At.congr`), and a reader leaves the table as it is (`next_reads`).

* `At.visit_step`: the visit of a node goes on behind it, or ends the search.
* `At.step`: the step lemma of the bodies.
* `At.reads`: a reader sees a frozen chain.
-/

namespace SystemProgramming.Hashtable

open Function

variable {xs ys : List (Ptr × Entry)} {q : Option Ptr} {p : Ptr} {e : Entry}

/-! ### Ranks -/

/-- The nodes of the chain from `cur` on. -/
def remaining (xs : List (Ptr × Entry)) : Option Ptr → ℕ
  | none => 0
  | some p => (xs.dropWhile fun x => x.1 ≠ p).length

theorem remaining_first {l r : List (Ptr × Entry)} (hnd : ((l ++ r).map Prod.fst).Nodup) :
    remaining (l ++ r) (first r none) = r.length := by
  cases r with
  | nil => rfl
  | cons x r =>
    have hl : ∀ y ∈ l, decide (y.1 ≠ x.1) = true := by
      intro y hy
      rw [List.map_append] at hnd
      exact decide_eq_true
        ((List.nodup_append.mp hnd).2.2 y.1 (List.mem_map_of_mem hy) x.1 (by simp))
    show ((l ++ x :: r).dropWhile fun y => decide (y.1 ≠ x.1)).length = _
    rw [List.dropWhile_append_of_pos hl, List.dropWhile_cons_of_neg (by simp)]

/-- An upper bound for the steps to the unlock. -/
@[simp] def Pc.rank (xs : List (Ptr × Entry)) : Pc → ℕ
  | head => xs.length + 13
  | visit _ cur => remaining xs cur + 12
  | malloc => 11
  | setKey _ => 10
  | setValue _ => 9
  | check _ => 8
  | setKeySize _ => 7
  | setValueSize _ => 6
  | clearNext _ => 5
  | setNext _ => 4
  | link _ => 3
  | countUp => 2
  | copy _ => 1
  | dupValue _ => 3
  | storeValue _ => 2
  | storeSize _ => 1
  | unlinkHead _ => 3
  | unlinkAfter _ _ => 3
  | free _ => 2
  | countDown => 1
  | unlock _ _ => 0

/-! ### Changes -/

/-- The bucket has been changed. -/
def Pc.changed : Pc → Bool
  | countUp => true
  | storeSize _ => true
  | free _ => true
  | countDown => true
  | unlock r _ => r.ret = 1
  | _ => false

/-! ### The step lemma -/

variable {op : Op} {i : ℤ} {c : List Entry} {T : Table} {own : List Ptr} {pc pc' : Pc} {f f' : Bool}
  {a : Option Ptr} {n : Node}

/-- The step leads to a state in which the body is before its next step, and closer to its end. -/
structure Follows (op : Op) (i : ℤ) (c : List Entry) (f : Bool) (T : Table)
    (xs : List (Ptr × Entry)) (own : List Ptr) (pc pc' : Pc) (T' : Table)
    (xs' : List (Ptr × Entry)) (own' : List Ptr) : Prop where
  at_next : At op i c f T' xs' own' pc'
  frame : Local i (xs.map Prod.fst ++ own) (xs'.map Prod.fst ++ own') T T'
  rank : pc'.rank xs' < pc.rank xs
  quiet : pc'.changed = false → pc.changed = false ∧ Private own own' T T'

def Advances (op : Op) (i : ℤ) (c : List Entry) (f : Bool) (T : Table) (xs : List (Ptr × Entry))
    (own : List Ptr) (a : Option Ptr) (pc : Pc) : Prop :=
  ∃ pc' T' xs' own', next op i a T pc = some (pc', T') ∧
    Follows op i c f T xs own pc pc' T' xs' own'

theorem Chain.setNode (h : Chain T i xs) (hp : p ∉ xs.map Prod.fst) (n : Option Node) :
    Chain (T.setNode p n) i xs := by
  refine ⟨h.head, h.links.congr fun x hx => ?_⟩
  apply update_of_ne
  intro heq
  apply hp
  rw [← heq]
  exact List.mem_map_of_mem hx

/-- A step that only looks. -/
theorem At.look (h : At op i c f T xs own pc) (hnext : next op i a T pc = some (pc', T))
    (hrank : pc'.rank xs < pc.rank xs) (hpc : pc.changed = false)
    (hstage : Stage op c T (T.bucket_sizes i) f' xs own pc') : Advances op i c f' T xs own a pc :=
  ⟨pc', T, xs, own, hnext, ⟨h.chain, hstage, h.nodup⟩, Local.same T _, hrank,
    fun _ => ⟨hpc, Private.same own T⟩⟩

/-- A step that writes to the body's own node. -/
theorem At.write (h : At op i c f T xs [p] pc)
    (hnext : next op i a T pc = some (pc', T.setNode p (some n)))
    (hrank : pc'.rank xs < pc.rank xs) (hpc : pc.changed = false)
    (hstage : Stage op c (T.setNode p (some n)) (T.bucket_sizes i) f' xs [p] pc') :
    Advances op i c f' T xs [p] a pc := by
  have hp : p ∉ xs.map Prod.fst := by
    intro hp
    have hnd := List.nodup_append.mp h.nodup
    exact hnd.2.2 p hp p List.mem_cons_self rfl
  refine ⟨pc', _, xs, [p], hnext, ⟨h.chain.setNode hp _, hstage, h.nodup⟩, Local.setNode ?_ ?_,
    hrank, fun _ => ⟨hpc, Private.setNode (Or.inl List.mem_cons_self) fun q hq => Or.inl hq⟩⟩
  · exact Or.inl (List.mem_append_right _ List.mem_cons_self)
  · exact fun q hq => Or.inl hq

theorem next_visit (op : Op) (i : ℤ) (a prev : Option Ptr) (hp : T.nodes p = some (e.node q)) :
    next op i a T (.visit prev (some p))
      = if e.key = op.key then some (op.found prev p, T) else some (.visit (some p) q, T) := by
  show (T.nodes p).bind _ = _
  rw [hp]
  show (if strcmp op.key e.key = 0 then _ else _) = _
  exact if_congr (strcmp_eq_zero.trans eq_comm) rfl rfl

/-- The effect on a bucket without the key. -/
theorem effect_absent (habs : op.absent c) (hop : ∀ key value, op ≠ .insert key value) (ok : Bool) :
    op.effect ok c = (⟨0, none⟩, c) := by
  have hfind := find_missing habs
  cases op with
  | insert key value => exact absurd rfl (hop key value)
  | read key quick => simp only [Op.effect, show c.find? (·.key = key) = none from hfind]
  | update key value => simp only [Op.effect, show c.find? (·.key = key) = none from hfind]
  | delete key => simp only [Op.effect, show c.find? (·.key = key) = none from hfind]

theorem Op.Inserts.effect {size : ℤ} (h : op.Inserts c size xs) (ok : Bool) :
    op.effect ok c = if ok = true then (⟨1, none⟩, Entry.new op.key op.value :: c)
      else (⟨-1, none⟩, c) := by
  have hfind := find_missing h.absent
  rw [h.op_eq]
  simp only [Op.effect, hfind]
  rfl

theorem Op.Finds.find {size : ℤ} {l r : List (Ptr × Entry)} (h : op.Finds c size l e r) :
    c.find? (·.key = op.key) = some e := by
  rw [h.split]
  exact find_split h.absent h.key_eq

/-- The end of the chain has been reached. -/
theorem At.visit_end {l : List (Ptr × Entry)} {prev : Option Ptr}
    (h : At op i c false T l [] (.visit prev none)) (hxs : entries l = c)
    (hsize : T.bucket_sizes i = c.length) (habs : op.absent (entries l)) :
    Advances op i c false T l [] a (.visit prev none) := by
  have hrank : op.missing.rank l < (Pc.visit prev none).rank l := by
    cases op <;> simp [Op.missing, remaining]
  apply h.look rfl hrank rfl
  rw [hxs] at habs
  have hlen : T.bucket_sizes i = l.length := by
    rw [hsize, ← hxs, entries, List.length_map]
  have hmissing : (∀ key value, op ≠ .insert key value) →
      Stage op c T (T.bucket_sizes i) false l (none : Option Ptr).toList (.unlock ⟨0, none⟩ none) := by
    intro hop
    apply Stage.unlock (g := none) _ hlen nofun
    rw [effect_absent habs hop, hxs]
  cases op with
  | insert key value => exact .malloc ⟨hxs, hsize, habs, rfl⟩
  | read key quick => exact hmissing nofun
  | update key value => exact hmissing nofun
  | delete key => exact hmissing nofun

/-- The node that is visited has the key. -/
theorem At.visit_found {l r : List (Ptr × Entry)}
    (h : At op i c false T (l ++ (p, e) :: r) [] (.visit (l.getLast?.map Prod.fst) (some p)))
    (hfinds : op.Finds c (T.bucket_sizes i) l e r) :
    Advances op i c false T (l ++ (p, e) :: r) [] a
      (.visit (l.getLast?.map Prod.fst) (some p)) := by
  have hnode := next_visit op i a (l.getLast?.map Prod.fst) h.chain.links.node_eq
  rw [if_pos hfinds.key_eq] at hnode
  have hrank : (op.found (l.getLast?.map Prod.fst) p).rank (l ++ (p, e) :: r)
      < (Pc.visit (l.getLast?.map Prod.fst) (some p)).rank (l ++ (p, e) :: r) := by
    cases op with
    | delete key => cases hprev : l.getLast? <;> simp [Op.found]
    | _ => simp [Op.found]
  apply h.look hnode hrank rfl
  cases op with
  | insert key value =>
    have hlen : T.bucket_sizes i = (l ++ (p, e) :: r).length := by
      rw [hfinds.size_eq, hfinds.split]
      simp [entries]
    apply Stage.unlock (g := none) _ hlen nofun
    have hfind := hfinds.find
    simp only [Op.effect, show c.find? (·.key = key) = some e from hfind]
    rw [hfinds.split]
    simp
  | read key quick => exact .copy hfinds ⟨quick, rfl⟩
  | update key value => exact .dupValue hfinds rfl
  | delete key =>
    cases List.eq_nil_or_concat l with
    | inl hl =>
      subst hl
      exact .unlinkHead hfinds rfl
    | inr hl =>
      obtain ⟨l, x, rfl⟩ := hl
      rw [List.concat_eq_append] at hfinds ⊢
      have hprev : (l ++ [x]).getLast?.map Prod.fst = some x.1 := by simp
      rw [hprev]
      exact .unlinkAfter (d := x.2) hfinds rfl

/-- **Every visit** goes on behind the node, or ends the search. -/
theorem At.visit_step {l r : List (Ptr × Entry)}
    (h : At op i c false T (l ++ r) [] (.visit (l.getLast?.map Prod.fst) (first r none)))
    (hxs : entries (l ++ r) = c) (hsize : T.bucket_sizes i = c.length)
    (habs : op.absent (entries l)) :
    Advances op i c false T (l ++ r) [] a
      (.visit (l.getLast?.map Prod.fst) (first r none)) := by
  cases r with
  | nil =>
    rw [List.append_nil l] at h hxs ⊢
    exact h.visit_end hxs hsize habs
  | cons x r =>
    obtain ⟨p, e⟩ := x
    by_cases hkey : e.key = op.key
    · apply h.visit_found
      exact ⟨by rw [← hxs]; simp, hsize, habs, hkey⟩
    · have hnode := next_visit op i a (l.getLast?.map Prod.fst) h.chain.links.node_eq
      rw [if_neg hkey] at hnode
      have hsplit : l ++ (p, e) :: r = (l ++ [(p, e)]) ++ r := by simp
      have hnd := h.nodup
      rw [List.append_nil] at hnd
      have hbefore := remaining_first (r := (p, e) :: r) hnd
      rw [hsplit] at hnd
      have hafter := remaining_first hnd
      rw [← hsplit] at hafter
      have hrank : (Pc.visit (some p) (first r none)).rank (l ++ (p, e) :: r)
          < (Pc.visit (l.getLast?.map Prod.fst) (some p)).rank (l ++ (p, e) :: r) := by
        show remaining _ _ + 12 < remaining _ (first ((p, e) :: r) none) + 12
        rw [hbefore, hafter]
        exact Nat.lt_succ_self _
      apply h.look hnode hrank rfl
      have hlast : some p = (l ++ [(p, e)]).getLast?.map Prod.fst := by simp
      rw [hsplit, hlast]
      apply Stage.visit _ hsize
      · intro d hd
        rw [entries_append, List.mem_append] at hd
        cases hd with
        | inl hd => exact habs d hd
        | inr hd =>
          rw [List.mem_singleton.mp hd]
          exact hkey
      · rw [← hxs, hsplit]

theorem effect_update {key value : Str} (hop : op = .update key value)
    (hfind : c.find? (·.key = key) = some e) :
    op.effect true c = (⟨1, none⟩, store key value c) := by
  rw [hop]
  simp only [Op.effect, hfind]
  rfl

theorem effect_delete {key : Str} (hop : op = .delete key)
    (hfind : c.find? (·.key = key) = some e) (ok : Bool) :
    op.effect ok c = (⟨1, none⟩, c.eraseP (·.key = key)) := by
  rw [hop]
  simp only [Op.effect, hfind]

/-! ### Insertion -/

theorem At.malloc_step (h : At op i c false T xs [] .malloc) (hins : op.Inserts c (T.bucket_sizes i) xs)
    (hfresh : ∀ p ∈ a, T.nodes p = none) :
    Advances op i c a.isNone T xs [] a .malloc := by
  cases a with
  | none =>
    apply h.look rfl (by simp) rfl
    apply Stage.unlock (g := none) _ _ nofun
    · rw [hins.effect, hins.same]
      rfl
    · rw [hins.size_eq, ← hins.same, entries, List.length_map]
  | some p =>
    have hp := hfresh p rfl
    have hout : p ∉ xs.map Prod.fst := by
      intro hmem
      obtain ⟨x, hx, rfl⟩ := List.mem_map.mp hmem
      exact h.chain.links.allocated hx hp
    refine ⟨.setKey p, _, xs, [p], rfl, ⟨h.chain.setNode hout _, ?_, ?_⟩, Local.setNode ?_ ?_,
      by simp, fun _ => ⟨rfl, Private.setNode (Or.inr hp) fun q hq => ?_⟩⟩
    · exact .setKey hins (update_self _ _ _)
    · have hnd := h.nodup
      rw [List.append_nil] at hnd
      rw [List.nodup_append]
      refine ⟨hnd, List.nodup_singleton p, fun q hq r hr heq => ?_⟩
      rw [List.mem_singleton.mp hr] at heq
      exact hout (heq ▸ hq)
    · exact Or.inr hp
    · intro q hq
      rw [List.append_nil]
      cases List.mem_append.mp hq with
      | inl hmem => exact Or.inl hmem
      | inr hmem => exact Or.inr (List.mem_singleton.mp hmem)
    · exact Or.inr (List.mem_singleton.mp hq)

/-- A step that writes to the node reads it first. -/
theorem At.fill (h : At op i c f T xs [p] pc) (hp : T.nodes p = some n) {g : Node → Node}
    (hnext : next op i a T pc = (T.nodes p).bind fun n => some (pc', T.setNode p (some (g n))))
    (hrank : pc'.rank xs < pc.rank xs) (hpc : pc.changed = false)
    (hstage : Stage op c (T.setNode p (some (g n))) (T.bucket_sizes i) f' xs [p] pc') :
    Advances op i c f' T xs [p] a pc := by
  rw [hp] at hnext
  exact h.write hnext hrank hpc hstage

theorem At.setKey_step (h : At op i c false T xs [p] (.setKey p))
    (hins : op.Inserts c (T.bucket_sizes i) xs) (hp : T.nodes p = some n) :
    Advances op i c a.isNone T xs [p] a (.setKey p) := by
  apply h.fill hp rfl (by simp) rfl
  apply Stage.setValue hins (update_self _ _ _)
  cases a <;> rfl

theorem At.setValue_step (h : At op i c f T xs [p] (.setValue p))
    (hins : op.Inserts c (T.bucket_sizes i) xs) (hp : T.nodes p = some n)
    (hkey : n.key = if f = true then none else some op.key) :
    Advances op i c (f || a.isNone) T xs [p] a (.setValue p) := by
  apply h.fill hp rfl (by simp) rfl
  apply Stage.check hins (update_self _ _ _)
  · intro hf
    rw [Bool.or_eq_true] at hf
    cases hf with
    | inl hf => exact Or.inl (hkey.trans (if_pos hf))
    | inr ha =>
      rw [Option.isNone_iff_eq_none] at ha
      rw [ha]
      exact Or.inr rfl
  · intro hf
    rw [Bool.or_eq_false_iff] at hf
    obtain ⟨hf, ha⟩ := hf
    cases a with
    | none => cases ha
    | some _ => exact ⟨hkey.trans (if_neg (by simp [hf])), rfl⟩

theorem At.check_step (h : At op i c f T xs [p] (.check p))
    (hins : op.Inserts c (T.bucket_sizes i) xs) (hp : T.nodes p = some n)
    (hfail : f = true → n.key = none ∨ n.value = none)
    (hok : f = false → n.key = some op.key ∧ n.value = some op.value) :
    Advances op i c f T xs [p] a (.check p) := by
  have hnext : next op i a T (.check p)
      = if n.key = none ∨ n.value = none then some (.unlock ⟨-1, none⟩ (some p), T)
        else some (.setKeySize p, T) := by
    show (T.nodes p).bind _ = _
    rw [hp]
    rfl
  cases f with
  | true =>
    rw [if_pos (hfail rfl)] at hnext
    apply h.look hnext (by simp) rfl
    apply Stage.unlock (g := some p)
    · rw [hins.effect, hins.same]
      rfl
    · rw [hins.size_eq, ← hins.same, entries, List.length_map]
    · intro q hq
      cases hq
      rw [hp]
      exact Option.some_ne_none n
  | false =>
    obtain ⟨hkey, hvalue⟩ := hok rfl
    rw [if_neg (by simp [hkey, hvalue])] at hnext
    exact h.look hnext (by simp) rfl (.setKeySize hins hp hkey hvalue)

theorem At.setKeySize_step (h : At op i c false T xs [p] (.setKeySize p))
    (hins : op.Inserts c (T.bucket_sizes i) xs) (hp : T.nodes p = some n)
    (hkey : n.key = some op.key) (hvalue : n.value = some op.value) :
    Advances op i c false T xs [p] a (.setKeySize p) :=
  h.fill hp rfl (by simp) rfl (.setValueSize hins (update_self _ _ _) hkey hvalue rfl)

theorem At.setValueSize_step (h : At op i c false T xs [p] (.setValueSize p))
    (hins : op.Inserts c (T.bucket_sizes i) xs) (hp : T.nodes p = some n)
    (hkey : n.key = some op.key) (hvalue : n.value = some op.value)
    (hks : n.key_size = op.key.length + 1) :
    Advances op i c false T xs [p] a (.setValueSize p) := by
  apply h.fill hp rfl (by simp) rfl
  apply Stage.clearNext (q := n.next) hins
  show update T.nodes p _ p = _
  rw [update_self, hkey, hvalue, hks]
  rfl

theorem At.clearNext_step (h : At op i c false T xs [p] (.clearNext p))
    (hins : op.Inserts c (T.bucket_sizes i) xs)
    (hp : T.nodes p = some ((Entry.new op.key op.value).node q)) :
    Advances op i c false T xs [p] a (.clearNext p) :=
  h.fill hp rfl (by simp) rfl (.setNext (q := none) hins (update_self _ _ _))

theorem At.setNext_step (h : At op i c false T xs [p] (.setNext p))
    (hins : op.Inserts c (T.bucket_sizes i) xs)
    (hp : T.nodes p = some ((Entry.new op.key op.value).node q)) :
    Advances op i c false T xs [p] a (.setNext p) := by
  apply h.fill hp rfl (by simp) rfl
  apply Stage.link hins
  show update T.nodes p _ p = _
  rw [update_self, h.chain.head]
  rfl

theorem At.link_step (h : At op i c false T xs [p] (.link p))
    (hins : op.Inserts c (T.bucket_sizes i) xs)
    (hp : T.nodes p = some ((Entry.new op.key op.value).node (first xs none))) :
    Advances op i c false T xs [p] a (.link p) := by
  have hnd := h.nodup
  rw [List.nodup_append_comm] at hnd
  refine ⟨.countUp, _, (p, Entry.new op.key op.value) :: xs, [], rfl, ⟨⟨?_, hp, h.chain.links⟩, ?_, ?_⟩,
    Local.setBucket ?_, by simp, nofun⟩
  · exact update_self _ _ _
  · exact .countUp hins
  · rw [List.append_nil]
    exact hnd
  · intro r hr
    rw [List.append_nil] at hr
    rw [List.mem_append, or_comm, ← List.mem_append]
    exact hr

theorem At.countUp_step
    (h : At op i c false T ((p, Entry.new op.key op.value) :: xs) [] .countUp)
    (hins : op.Inserts c (T.bucket_sizes i) xs) :
    Advances op i c false T ((p, Entry.new op.key op.value) :: xs) [] a .countUp := by
  refine ⟨_, _, (p, Entry.new op.key op.value) :: xs, [], rfl, ⟨⟨h.chain.head, h.chain.links⟩, ?_,
    h.nodup⟩, Local.setSize fun _ hr => hr, by simp, nofun⟩
  apply Stage.unlock (g := none) _ _ nofun
  · rw [hins.effect, entries_cons, hins.same]
    rfl
  · show update T.bucket_sizes i _ i = _
    rw [update_self, hins.size_eq, ← hins.same, entries, List.length_map]
    rfl

/-! ### Reading and updating -/

section Found

variable {l r : List (Ptr × Entry)} {q : Ptr} {d : Entry}

theorem Op.Finds.length {size : ℤ} (h : op.Finds c size l e r) (x : Ptr × Entry) :
    size = (l ++ x :: r).length := by
  rw [h.size_eq, h.split]
  simp [entries]

theorem At.copy_step (h : At op i c false T (l ++ (p, e) :: r) [] (.copy p))
    (hfinds : op.Finds c (T.bucket_sizes i) l e r) (hop : ∃ quick, op = .read op.key quick) :
    Advances op i c false T (l ++ (p, e) :: r) [] a (.copy p) := by
  have hnext : next op i a T (.copy p)
      = some (.unlock ⟨1, some (strncpy e.value e.value_size)⟩ none, T) := by
    show (T.nodes p).bind _ = _
    rw [h.chain.links.node_eq]
    rfl
  apply h.look hnext (by simp) rfl
  apply Stage.unlock (g := none) _ (hfinds.length _) nofun
  have hfind := hfinds.find
  obtain ⟨quick, hop⟩ := hop
  rw [hop]
  simp only [Op.effect, hfind]
  rw [hfinds.split]
  simp

theorem At.dupValue_step (h : At op i c false T (l ++ (p, e) :: r) [] (.dupValue p))
    (hfinds : op.Finds c (T.bucket_sizes i) l e r) (hop : op = .update op.key op.value) :
    Advances op i c a.isNone T (l ++ (p, e) :: r) [] a (.dupValue p) := by
  cases a with
  | some _ => exact h.look rfl (by simp) rfl (.storeValue hfinds hop)
  | none =>
    apply h.look rfl (by simp) rfl
    apply Stage.unlock (g := none) _ (hfinds.length _) nofun
    have hfind := hfinds.find
    rw [hop]
    simp only [Op.effect, hfind]
    rw [hfinds.split]
    simp

/-- A step that replaces the entry of a node in the chain. -/
theorem At.replace (h : At op i c f T (l ++ (p, e) :: r) [] pc) (e' : Entry)
    (hnext : next op i a T pc
      = some (pc', T.setNode p (some (e'.node (first r none)))))
    (hrank : pc'.rank (l ++ (p, e') :: r) < pc.rank (l ++ (p, e) :: r)) (hpc : pc'.changed = true)
    (hstage : Stage op c (T.setNode p (some (e'.node (first r none)))) (T.bucket_sizes i) f'
      (l ++ (p, e') :: r) [] pc') :
    Advances op i c f' T (l ++ (p, e) :: r) [] a pc := by
  have hsame : (l ++ (p, e') :: r).map Prod.fst = (l ++ (p, e) :: r).map Prod.fst := by simp
  have hnd := h.nodup
  rw [List.append_nil] at hnd
  refine ⟨pc', _, l ++ (p, e') :: r, [], hnext, ⟨⟨?_, ?_⟩, hstage, ?_⟩, Local.setNode ?_ ?_,
    hrank, fun hquiet => absurd (hpc.symm.trans hquiet) Bool.noConfusion⟩
  · have hhead := h.chain.head
    rw [first_append] at hhead ⊢
    exact hhead
  · exact h.chain.links.set hnd e'
  · rw [List.append_nil, hsame]
    exact hnd
  · apply Or.inl
    simp
  · intro q hq
    rw [hsame] at hq
    exact Or.inl hq

theorem At.storeValue_step (h : At op i c false T (l ++ (p, e) :: r) [] (.storeValue p))
    (hfinds : op.Finds c (T.bucket_sizes i) l e r) (hop : op = .update op.key op.value) :
    Advances op i c false T (l ++ (p, e) :: r) [] a (.storeValue p) := by
  refine h.replace { e with value := op.value } ?_ (by simp) rfl
    (.storeSize hfinds hop)
  show (T.nodes p).bind _ = _
  rw [h.chain.links.node_eq]
  rfl

theorem At.storeSize_step
    (h : At op i c false T (l ++ (p, { e with value := op.value }) :: r) [] (.storeSize p))
    (hfinds : op.Finds c (T.bucket_sizes i) l e r) (hop : op = .update op.key op.value) :
    Advances op i c false T (l ++ (p, { e with value := op.value }) :: r) [] a
      (.storeSize p) := by
  refine h.replace { e with value := op.value, value_size := op.value.length + 1 } ?_ (by simp)
    rfl (.unlock (r := ⟨1, none⟩) (g := none) ?_ (hfinds.length _) nofun)
  · show (T.nodes p).bind _ = _
    rw [h.chain.links.node_eq]
    rfl
  · have hstore := store_split op.value hfinds.absent hfinds.key_eq (r := entries r)
    rw [Bool.not_false, effect_update hop hfinds.find, hfinds.split, hstore]
    simp

/-! ### Deletion -/

theorem At.unlinkHead_step (h : At op i c false T ((p, e) :: r) [] (.unlinkHead p))
    (hfinds : op.Finds c (T.bucket_sizes i) [] e r) (hop : op = .delete op.key) :
    Advances op i c false T ((p, e) :: r) [] a (.unlinkHead p) := by
  have hnode : T.nodes p = some (e.node (first r none)) := h.chain.links.1
  have hnext : next op i a T (.unlinkHead p)
      = some (.free p, { T with buckets := update T.buckets i (first r none) }) := by
    show (T.nodes p).bind _ = _
    rw [hnode]
    rfl
  have hnd := h.nodup
  have hcomm : ∀ q, q ∈ r.map Prod.fst ++ [p] → q ∈ ((p, e) :: r).map Prod.fst ++ [] := by
    intro q hq
    rw [List.append_nil]
    rw [List.mem_append, or_comm, ← List.mem_append] at hq
    exact hq
  refine ⟨_, _, r, [p], hnext, ⟨⟨update_self _ _ _, h.chain.links.2⟩, ?_, ?_⟩,
    Local.setBucket hcomm, by simp, nofun⟩
  · refine Stage.free (l := []) hfinds hop ?_
    show T.nodes p ≠ none
    rw [hnode]
    exact Option.some_ne_none _
  · rw [List.nodup_append_comm]
    rw [List.append_nil] at hnd
    exact hnd

theorem At.unlinkAfter_step
    (h : At op i c false T (l ++ [(q, d)] ++ (p, e) :: r) [] (.unlinkAfter q p))
    (hfinds : op.Finds c (T.bucket_sizes i) (l ++ [(q, d)]) e r) (hop : op = .delete op.key) :
    Advances op i c false T (l ++ [(q, d)] ++ (p, e) :: r) [] a
      (.unlinkAfter q p) := by
  have hlinks := segment_append.mp h.chain.links
  have hp : T.nodes p = some (e.node (first r none)) := hlinks.2.1
  have hq : T.nodes q = some (d.node (some p)) := hlinks.1.node_eq
  have hnext : next op i a T (.unlinkAfter q p)
      = some (.free p, T.setNode q (some (d.node (first r none)))) := by
    show (T.nodes p).bind _ = _
    rw [hp]
    show (T.nodes q).bind _ = _
    rw [hq]
    rfl
  have hperm : ((l ++ [(q, d)] ++ r).map Prod.fst ++ [p]).Perm
      ((l ++ [(q, d)] ++ (p, e) :: r).map Prod.fst ++ []) := by
    simp only [List.map_append, List.map_cons, List.append_nil, List.append_assoc,
      List.cons_append, List.nil_append]
    exact ((List.perm_append_singleton p _).cons q).append_left _
  have hnd := hperm.nodup_iff.mpr h.nodup
  have hout : ∀ x ∈ r, x.1 ≠ q := by
    intro x hx heq
    have hnd' := (List.nodup_append.mp hnd).1
    rw [List.map_append] at hnd'
    exact (List.nodup_append.mp hnd').2.2 q (by simp) x.1 (List.mem_map_of_mem hx) heq.symm
  have hpq : p ≠ q := by
    intro heq
    exact (List.nodup_append.mp hnd).2.2 q (by simp) p List.mem_cons_self heq.symm
  refine ⟨_, _, l ++ [(q, d)] ++ r, [p], hnext, ⟨⟨?_, ?_⟩, ?_, hnd⟩, Local.setNode ?_ ?_,
    by simp, nofun⟩
  · have hhead := h.chain.head
    rw [List.append_assoc, first_append] at hhead ⊢
    exact hhead
  · rw [segment_append]
    refine ⟨hlinks.1.redirect ?_ _, hlinks.2.2.congr fun x hx => update_of_ne (hout x hx) _ _⟩
    have hnd' := (List.nodup_append.mp hnd).1
    rw [List.map_append] at hnd'
    exact (List.nodup_append.mp hnd').1
  · refine Stage.free hfinds hop ?_
    show update T.nodes q _ p ≠ none
    rw [update_of_ne hpq, hp]
    exact Option.some_ne_none _
  · apply Or.inl
    simp
  · intro q' hq'
    exact Or.inl (hperm.mem_iff.mp hq')

theorem At.free_step (h : At op i c false T (l ++ r) [p] (.free p))
    (hfinds : op.Finds c (T.bucket_sizes i) l e r) (hop : op = .delete op.key)
    (hp : T.nodes p ≠ none) :
    Advances op i c false T (l ++ r) [p] a (.free p) := by
  obtain ⟨n, hn⟩ := Option.ne_none_iff_exists'.mp hp
  have hnext : next op i a T (.free p) = some (.countDown, T.setNode p none) := by
    show (T.nodes p).bind _ = _
    rw [hn]
    rfl
  have hnd := List.nodup_append.mp h.nodup
  have hout : p ∉ (l ++ r).map Prod.fst := fun hp => hnd.2.2 p hp p List.mem_cons_self rfl
  refine ⟨_, _, l ++ r, [], hnext, ⟨h.chain.setNode hout _, .countDown hfinds hop, ?_⟩,
    Local.setNode ?_ ?_, by simp, nofun⟩
  · rw [List.append_nil]
    exact hnd.1
  · exact Or.inl (List.mem_append_right _ List.mem_cons_self)
  · intro q hq
    rw [List.append_nil] at hq
    exact Or.inl (List.mem_append_left _ hq)

theorem At.countDown_step (h : At op i c false T (l ++ r) [] .countDown)
    (hfinds : op.Finds c (T.bucket_sizes i) l e r) (hop : op = .delete op.key) :
    Advances op i c false T (l ++ r) [] a .countDown := by
  refine ⟨_, _, l ++ r, [], rfl, ⟨⟨h.chain.head, h.chain.links⟩, ?_, h.nodup⟩,
    Local.setSize fun _ hr => hr, by simp, nofun⟩
  apply Stage.unlock (g := none) _ _ nofun
  · rw [effect_delete hop hfinds.find, hfinds.split, erase_split hfinds.absent hfinds.key_eq,
      entries_append]
  · show update T.bucket_sizes i _ i = _
    rw [update_self, hfinds.length (0, e)]
    simp only [List.length_append, List.length_cons]
    omega

end Found

/-- **The step lemma.**  A body that is before a step other than its unlock takes it, and is before the
next one. -/
theorem At.step (h : At op i c f T xs own pc) (hpc : ∀ r g, pc ≠ .unlock r g)
    (hfresh : ∀ p ∈ a, pc = .malloc → T.nodes p = none) :
    Advances op i c (f || (pc.allocates && a.isNone)) T xs own a pc := by
  cases h.stage with
  | head hxs hsize =>
    have hnd := h.nodup
    rw [List.append_nil] at hnd
    have hrest := remaining_first (l := []) hnd
    have hnext : next op i a T .head = some (.visit none (first xs none), T) := by
      rw [← h.chain.head]
      rfl
    apply h.look hnext _ rfl
    · exact .visit (l := []) hxs hsize nofun
    · show remaining xs (first xs none) + 12 < _
      rw [show remaining xs (first xs none) = xs.length from hrest]
      exact Nat.lt_succ_self _
  | visit hxs hsize hl => exact h.visit_step hxs hsize hl
  | malloc hins => exact h.malloc_step hins fun p hp => hfresh p hp rfl
  | setKey hins hp => exact h.setKey_step hins hp
  | setValue hins hp hkey => exact h.setValue_step hins hp hkey
  | check hins hp hfail hok =>
    rw [show (f || ((Pc.check _).allocates && a.isNone)) = f from Bool.or_false f]
    exact h.check_step hins hp hfail hok
  | setKeySize hins hp hkey hvalue => exact h.setKeySize_step hins hp hkey hvalue
  | setValueSize hins hp hkey hvalue hks => exact h.setValueSize_step hins hp hkey hvalue hks
  | clearNext hins hp => exact h.clearNext_step hins hp
  | setNext hins hp => exact h.setNext_step hins hp
  | link hins hp => exact h.link_step hins hp
  | countUp hins => exact h.countUp_step hins
  | copy hfinds hop => exact h.copy_step hfinds hop
  | dupValue hfinds hop => exact h.dupValue_step hfinds hop
  | storeValue hfinds hop => exact h.storeValue_step hfinds hop
  | storeSize hfinds hop => exact h.storeSize_step hfinds hop
  | unlinkHead hfinds hop => exact h.unlinkHead_step hfinds hop
  | unlinkAfter hfinds hop => exact h.unlinkAfter_step hfinds hop
  | free hfinds hop hp => exact h.free_step hfinds hop hp
  | countDown hfinds hop => exact h.countDown_step hfinds hop
  | unlock _ _ _ => exact absurd rfl (hpc _ _)

/-! ### What a body relies on -/

theorem At.allocated (h : At op i c f T xs own pc) (hp : p ∈ xs.map Prod.fst ++ own) :
    T.nodes p ≠ none := by
  have hsome : ∀ {n}, T.nodes p = some n → T.nodes p ≠ none := fun hn => by simp [hn]
  cases List.mem_append.mp hp with
  | inl hmem =>
    obtain ⟨x, hx, rfl⟩ := List.mem_map.mp hmem
    exact h.chain.links.allocated hx
  | inr hmem =>
    clear hp
    cases h.stage with
    | setKey _ hn | setValue _ hn _ | check _ hn _ _ | setKeySize _ hn _ _ | setValueSize _ hn _ _ _
    | clearNext _ hn | setNext _ hn | link _ hn =>
      rw [List.mem_singleton] at hmem
      subst hmem
      exact hsome hn
    | free _ _ hn =>
      rw [List.mem_singleton] at hmem
      subst hmem
      exact hn
    | unlock _ _ hg => exact hg p (Option.mem_toList.mp hmem)
    | _ => exact absurd hmem List.not_mem_nil

/-- A body is not concerned by what happens elsewhere. -/
theorem At.congr {T' : Table} (h : At op i c f T xs own pc) (hb : T'.buckets i = T.buckets i)
    (hs : T'.bucket_sizes i = T.bucket_sizes i)
    (hn : ∀ p ∈ xs.map Prod.fst ++ own, T'.nodes p = T.nodes p) : At op i c f T' xs own pc := by
  have hown : ∀ p ∈ own, T'.nodes p = T.nodes p := fun p hp => hn p (List.mem_append_right _ hp)
  refine ⟨⟨hb.trans h.chain.head, h.chain.links.congr fun x hx => ?_⟩, ?_, h.nodup⟩
  · exact hn x.1 (List.mem_append_left _ (List.mem_map_of_mem hx))
  · rw [hs]
    cases h.stage with
    | head h₁ h₂ => exact .head h₁ h₂
    | visit h₁ h₂ h₃ => exact .visit h₁ h₂ h₃
    | malloc h₁ => exact .malloc h₁
    | setKey h₁ hp => exact .setKey h₁ ((hown _ (by simp)).trans hp)
    | setValue h₁ hp h₂ => exact .setValue h₁ ((hown _ (by simp)).trans hp) h₂
    | check h₁ hp h₂ h₃ => exact .check h₁ ((hown _ (by simp)).trans hp) h₂ h₃
    | setKeySize h₁ hp h₂ h₃ => exact .setKeySize h₁ ((hown _ (by simp)).trans hp) h₂ h₃
    | setValueSize h₁ hp h₂ h₃ h₄ =>
      exact .setValueSize h₁ ((hown _ (by simp)).trans hp) h₂ h₃ h₄
    | clearNext h₁ hp => exact .clearNext h₁ ((hown _ (by simp)).trans hp)
    | setNext h₁ hp => exact .setNext h₁ ((hown _ (by simp)).trans hp)
    | link h₁ hp => exact .link h₁ ((hown _ (by simp)).trans hp)
    | countUp h₁ => exact .countUp h₁
    | copy h₁ h₂ => exact .copy h₁ h₂
    | dupValue h₁ h₂ => exact .dupValue h₁ h₂
    | storeValue h₁ h₂ => exact .storeValue h₁ h₂
    | storeSize h₁ h₂ => exact .storeSize h₁ h₂
    | unlinkHead h₁ h₂ => exact .unlinkHead h₁ h₂
    | unlinkAfter h₁ h₂ => exact .unlinkAfter h₁ h₂
    | free h₁ h₂ hp => exact .free h₁ h₂ (by rwa [hown _ (by simp)])
    | countDown h₁ h₂ => exact .countDown h₁ h₂
    | unlock h₁ h₂ hg =>
      exact .unlock h₁ h₂ fun p hp => by rw [hown p (Option.mem_toList.mpr hp)]; exact hg p hp

/-- A table holds one chain for a bucket. -/
theorem Chain.unique (h : Chain T i xs) (h' : Chain T i ys) : xs = ys := by
  have hfirst := h.head.symm.trans h'.head
  have hx := h.links
  have hy := h'.links
  clear h h'
  induction xs generalizing ys with
  | nil =>
    cases ys with
    | nil => rfl
    | cons y ys => cases hfirst
  | cons x xs ih =>
    cases ys with
    | nil => cases hfirst
    | cons y ys =>
      have hptr : x.1 = y.1 := Option.some.inj hfirst
      have hnode := hx.1.symm.trans ((congrArg T.nodes hptr).trans hy.1)
      obtain ⟨p, e⟩ := x
      obtain ⟨q, d⟩ := y
      simp only [Entry.node, Option.some.injEq, Node.mk.injEq] at hnode
      have hentry : e = d := by
        cases e
        cases d
        simpa using ⟨hnode.1, hnode.2.1, hnode.2.2.1, hnode.2.2.2.1⟩
      rw [ih hnode.2.2.2.2 hx.2 hy.2]
      exact congrArg (· :: ys) (Prod.ext hptr hentry)

/-- **Readers see a frozen chain** and leave it as it is. -/
theorem At.reads (h : At op i c f T xs own pc) (hop : op.writes = false) : entries xs = c := by
  cases h.stage with
  | head hxs _ => exact hxs
  | visit hxs _ _ => exact hxs
  | malloc hins | setKey hins _ | setValue hins _ _ | check hins _ _ _ | setKeySize hins _ _ _
  | setValueSize hins _ _ _ _ | clearNext hins _ | setNext hins _ | link hins _ => exact hins.same
  | countUp hins =>
    rw [hins.op_eq] at hop
    cases hop
  | copy hfinds _ | dupValue hfinds _ | storeValue hfinds _ =>
    rw [hfinds.split, entries_append, entries_cons]
  | storeSize _ hupdate =>
    rw [hupdate] at hop
    cases hop
  | unlinkHead hfinds _ => exact hfinds.split.symm
  | unlinkAfter hfinds _ => rw [hfinds.split, entries_append, entries_cons]
  | free _ hdelete _ | countDown _ hdelete =>
    rw [hdelete] at hop
    cases hop
  | unlock heffect _ _ =>
    cases op with
    | read key quick =>
      rw [show entries xs = _ from (congrArg Prod.snd heffect).symm]
      simp only [Op.effect]
      cases c.find? (·.key = key) <;> rfl
    | _ => cases hop

theorem next_visit_cases {T' : Table} {prev cur : Option Ptr}
    (hnext : next op i a T (.visit prev cur) = some (pc', T')) :
    T' = T ∧ (pc' = op.missing ∨ (∃ p, pc' = op.found prev p) ∨ ∃ p q, pc' = .visit p q) := by
  cases cur with
  | none =>
    cases hnext
    exact ⟨rfl, Or.inl rfl⟩
  | some p =>
    obtain ⟨n, -, hnext⟩ := Option.bind_eq_some_iff.mp hnext
    obtain ⟨k, -, hnext⟩ := Option.bind_eq_some_iff.mp hnext
    split at hnext
    · cases hnext
      exact ⟨rfl, Or.inr (Or.inl ⟨p, rfl⟩)⟩
    · cases hnext
      exact ⟨rfl, Or.inr (Or.inr ⟨_, _, rfl⟩)⟩

theorem next_copy_same {T' : Table} (hnext : next op i a T (.copy p) = some (pc', T')) : T' = T := by
  obtain ⟨n, -, hnext⟩ := Option.bind_eq_some_iff.mp hnext
  obtain ⟨v, -, hnext⟩ := Option.bind_eq_some_iff.mp hnext
  cases hnext
  rfl

/-- A reader's step changes nothing. -/
theorem next_reads {T' : Table} (h : At op i c f T xs own pc) (hop : op.writes = false)
    (hnext : next op i a T pc = some (pc', T')) : T' = T := by
  cases op with
  | read key quick =>
    cases h.stage with
    | head _ _ =>
      cases hnext
      rfl
    | visit _ _ _ => exact (next_visit_cases hnext).1
    | copy _ _ => exact next_copy_same hnext
    | malloc hins | setKey hins _ | setValue hins _ _ | check hins _ _ _ | setKeySize hins _ _ _
    | setValueSize hins _ _ _ _ | clearNext hins _ | setNext hins _ | link hins _ | countUp hins =>
      cases hins.op_eq
    | dupValue _ hop' | storeValue _ hop' | storeSize _ hop' | unlinkHead _ hop' | unlinkAfter _ hop'
    | free _ hop' _ | countDown _ hop' => cases hop'
    | unlock _ _ _ => cases hnext
  | _ => cases hop

end SystemProgramming.Hashtable
