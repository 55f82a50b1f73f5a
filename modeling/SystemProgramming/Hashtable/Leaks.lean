import SystemProgramming.Hashtable.Atomic
import SystemProgramming.Hashtable.Destroy

/-!
# No node is lost

In every run of any number of threads, a node that is allocated is in the chain of one bucket or in the hands
of one thread that is in the middle of a call (`hash_no_leak`).  So a table that nobody uses has no nodes
but those of its entries, and once `hash_destroy` has returned 0 there is none left.  What a body has in its
hands is seen from its next step; the nodes it could lose are counted against `bucket_sizes`.

* `At.keeps`: a step of a body loses no node.
* `hash_no_leak`: in every state of every run each node is in one place.
* `hash_destroy_leaves_nothing`: destroying a table that nobody uses leaves no node.
-/

namespace SystemProgramming.Hashtable

open Function

variable {op : Op} {i : ℤ} {c c' : List Entry} {T T' : Table} {xs xs' : List (Ptr × Entry)}
  {own own' : List Ptr} {pc pc' : Pc} {f f' : Bool} {a : Option Ptr} {p : Ptr} {size : ℤ}

/-- The node that a body has in its hands. -/
def Pc.holds : Pc → List Ptr
  | setKey p => [p]
  | setValue p => [p]
  | check p => [p]
  | setKeySize p => [p]
  | setValueSize p => [p]
  | clearNext p => [p]
  | setNext p => [p]
  | link p => [p]
  | free p => [p]
  | unlock _ garbage => garbage.toList
  | _ => []

/-- How many nodes the chain and the hands have more than `bucket_sizes` says. -/
def Pc.surplus : Pc → ℤ
  | setKey _ => 1
  | setValue _ => 1
  | check _ => 1
  | setKeySize _ => 1
  | setValueSize _ => 1
  | clearNext _ => 1
  | setNext _ => 1
  | link _ => 1
  | countUp => 1
  | countDown => -1
  | unlock _ garbage => garbage.toList.length
  | _ => 0

/-- The node that a thread has in its hands. -/
def Place.holds : Place → List Ptr
  | inside _ _ pc => pc.holds
  | leaving p => [p]
  | _ => []

theorem Stage.own_eq (h : Stage op c T size f xs own pc) : own = pc.holds := by
  cases h <;> rfl

theorem length_entries (xs : List (Ptr × Entry)) : (entries xs).length = xs.length := List.length_map _

/-- The nodes before a step are as many as `bucket_sizes` and the step say. -/
theorem Stage.count (h : Stage op c T size f xs own pc) :
    (xs.length + own.length : ℤ) = size + pc.surplus := by
  cases h with
  | head hxs hsize | visit hxs hsize _ =>
    rw [hsize, ← hxs, length_entries]
    rfl
  | malloc hins | setKey hins _ | setValue hins _ _ | check hins _ _ _ | setKeySize hins _ _ _
  | setValueSize hins _ _ _ _ | clearNext hins _ | setNext hins _ | link hins _ =>
    rw [hins.size_eq, ← hins.same, length_entries]
    rfl
  | countUp hins =>
    rw [hins.size_eq, ← hins.same, length_entries]
    rfl
  | copy hfinds _ | dupValue hfinds _ | storeValue hfinds _ | storeSize hfinds _ | unlinkHead hfinds _
  | unlinkAfter hfinds _ | free hfinds _ _ | countDown hfinds _ =>
    rw [hfinds.size_eq, hfinds.split]
    simp only [List.length_append, List.length_cons, length_entries, Pc.surplus, List.length_nil]
    omega
  | unlock _ hsize _ =>
    rw [hsize]
    rfl

/-! ### What a step does to memory -/

/-- The same nodes are allocated, and the counts agree as before. -/
structure Balanced (i : ℤ) (T T' : Table) (pc pc' : Pc) : Prop where
  allocated : ∀ p, T'.nodes p = none ↔ T.nodes p = none
  count : T'.bucket_sizes i + pc'.surplus = T.bucket_sizes i + pc.surplus

theorem Balanced.same (hpc : pc'.surplus = pc.surplus) : Balanced i T T pc pc' :=
  ⟨fun _ => Iff.rfl, by rw [hpc]⟩

/-- A node is written. -/
theorem Balanced.setNode {n n' : Node} (hp : T.nodes p = some n) (hpc : pc'.surplus = pc.surplus) :
    Balanced i T (T.setNode p (some n')) pc pc' := by
  refine ⟨fun q => ?_, by rw [hpc]; rfl⟩
  show update T.nodes p (some n') q = none ↔ _
  by_cases hq : q = p
  · rw [hq, update_self, hp]
    exact iff_of_false (Option.some_ne_none _) (Option.some_ne_none _)
  · rw [update_of_ne hq]

theorem surplus_missing (op : Op) : op.missing.surplus = 0 := by
  cases op <;> rfl

theorem surplus_found (op : Op) (prev : Option Ptr) (p : Ptr) : (op.found prev p).surplus = 0 := by
  cases op with
  | delete key => cases prev <;> rfl
  | _ => rfl

/-- Before `free` the node is there, and nowhere else does a step allocate or free one but in `malloc`. -/
theorem next_balanced (hnext : next op i a T pc = some (pc', T'))
    (hfree : ∀ p, pc ≠ .free p) (hmalloc : pc = .malloc → a = none) : Balanced i T T' pc pc' := by
  cases pc with
  | head =>
    cases hnext
    exact .same rfl
  | visit prev cur =>
    obtain ⟨rfl, rfl | ⟨p, rfl⟩ | ⟨p, q, rfl⟩⟩ := next_visit_cases hnext
    · exact .same (surplus_missing op)
    · exact .same (surplus_found op prev p)
    · exact .same rfl
  | malloc =>
    rw [hmalloc rfl] at hnext
    cases hnext
    exact .same rfl
  | setKey p | setValue p | setKeySize p | setValueSize p | clearNext p | setNext p | storeValue p
  | storeSize p =>
    obtain ⟨n, hn, hnext⟩ := Option.bind_eq_some_iff.mp hnext
    cases hnext
    exact .setNode hn rfl
  | check p =>
    obtain ⟨n, -, hnext⟩ := Option.bind_eq_some_iff.mp hnext
    split at hnext <;> · cases hnext; exact .same rfl
  | link p =>
    cases hnext
    exact ⟨fun _ => Iff.rfl, rfl⟩
  | countUp =>
    cases hnext
    refine ⟨fun _ => Iff.rfl, ?_⟩
    show update T.bucket_sizes i _ i + 0 = _ + 1
    rw [update_self]
    omega
  | copy p =>
    obtain ⟨n, -, hnext⟩ := Option.bind_eq_some_iff.mp hnext
    obtain ⟨v, -, hnext⟩ := Option.bind_eq_some_iff.mp hnext
    cases hnext
    exact .same rfl
  | dupValue p => cases a <;> · cases hnext; exact .same rfl
  | unlinkHead p =>
    obtain ⟨n, -, hnext⟩ := Option.bind_eq_some_iff.mp hnext
    cases hnext
    exact ⟨fun _ => Iff.rfl, rfl⟩
  | unlinkAfter q p =>
    obtain ⟨n, -, hnext⟩ := Option.bind_eq_some_iff.mp hnext
    obtain ⟨m, hm, hnext⟩ := Option.bind_eq_some_iff.mp hnext
    cases hnext
    exact .setNode hm rfl
  | free p => exact absurd rfl (hfree p)
  | countDown =>
    cases hnext
    refine ⟨fun _ => Iff.rfl, ?_⟩
    show update T.bucket_sizes i _ i + 0 = _ + -1
    rw [update_self]
    omega
  | unlock r g => cases hnext

/-- **A step loses no node**: what is allocated after it, and is neither in the chain nor in the hands, was
allocated before it and was in neither. -/
theorem At.keeps (h : At op i c f T xs own pc) (h' : At op i c' f' T' xs' own' pc')
    (hfresh : ∀ p ∈ a, pc = .malloc → T.nodes p = none)
    (hnext : next op i a T pc = some (pc', T')) (halloc : T'.nodes p ≠ none)
    (hp : p ∉ xs'.map Prod.fst ++ own') :
    T.nodes p ≠ none ∧ p ∉ xs.map Prod.fst ++ own := by
  have hpc : ∀ r g, pc ≠ .unlock r g := by
    rintro r g rfl
    cases hnext
  -- the frame of the step lemma is that of the chain and the hands
  have hframe : Local i (xs.map Prod.fst ++ own) (xs'.map Prod.fst ++ own') T T' := by
    obtain ⟨pc₁, T₁, xs₁, own₁, hnext₁, hfollows⟩ := h.step hpc hfresh
    obtain ⟨rfl, rfl⟩ := Prod.mk.inj (Option.some.inj (hnext₁.symm.trans hnext))
    have hxs : xs₁ = xs' := hfollows.at_next.chain.unique h'.chain
    have hown : own₁ = own' := hfollows.at_next.stage.own_eq.trans h'.stage.own_eq.symm
    rw [← hxs, ← hown]
    exact hfollows.frame
  have hown := h.stage.own_eq
  have hown' := h'.stage.own_eq
  by_cases hfree : ∃ q, pc = .free q
  · obtain ⟨q, rfl⟩ := hfree
    obtain ⟨n, -, hnext⟩ := Option.bind_eq_some_iff.mp hnext
    cases hnext
    have hout : q ∉ xs.map Prod.fst := by
      intro hq
      have hmem : q ∈ own := by
        rw [hown]
        exact List.mem_cons_self
      exact (List.nodup_append.mp h.nodup).2.2 q hq q hmem rfl
    have hxs : xs' = xs := h'.chain.unique (h.chain.setNode hout none)
    have hne : p ≠ q := by
      rintro rfl
      exact halloc (update_self _ _ _)
    rw [hown', hxs, List.mem_append, not_or] at hp
    refine ⟨fun hnone => halloc ((update_of_ne hne _ _).trans hnone), ?_⟩
    rw [hown, List.mem_append, not_or]
    exact ⟨hp.1, fun hq => hne (List.mem_singleton.mp hq)⟩
  · by_cases hmalloc : pc = .malloc → a = none
    · have hbal := next_balanced hnext (fun q hq => hfree ⟨q, hq⟩) hmalloc
      have hsub : xs'.map Prod.fst ++ own' ⊆ xs.map Prod.fst ++ own := by
        intro q hq
        rcases hframe.frame.mine q hq with hmem | hnone
        · exact hmem
        · exact absurd ((hbal.allocated q).mpr hnone) (h'.allocated hq)
      have hlen : (xs.map Prod.fst ++ own).length ≤ (xs'.map Prod.fst ++ own').length := by
        have hcount := h.stage.count
        have hcount' := h'.stage.count
        have heq := hbal.count
        simp only [List.length_append, List.length_map]
        omega
      have hperm := (h'.nodup.subperm hsub).perm_of_length_le hlen
      exact ⟨fun hnone => halloc ((hbal.allocated p).mpr hnone), fun hmem => hp (hperm.mem_iff.mpr hmem)⟩
    · obtain ⟨rfl, hsome⟩ := Classical.not_imp.mp hmalloc
      obtain ⟨q, rfl⟩ := Option.ne_none_iff_exists'.mp hsome
      have hnone : T.nodes q = none := hfresh q rfl rfl
      cases hnext
      have hout : q ∉ xs.map Prod.fst := fun hq =>
        h.allocated (List.mem_append_left own hq) hnone
      have hxs : xs' = xs := h'.chain.unique (h.chain.setNode hout _)
      rw [hown', hxs, List.mem_append, not_or] at hp
      have hne : p ≠ q := fun heq => hp.2 (List.mem_singleton.mpr heq)
      refine ⟨fun hfree => halloc ((update_of_ne hne _ _).trans hfree), ?_⟩
      rw [hown, List.mem_append, not_or]
      exact ⟨hp.1, List.not_mem_nil⟩

/-! ### Runs -/

variable {Θ : Type} [DecidableEq Θ] {W W' : World Θ} {A A' : ℤ → List Entry}
  {chains chains' : ℤ → List (Ptr × Entry)} {hands hands' : Θ → List Ptr} {failed failed' : Θ → Bool}
  {ring : Rwlock.Ring} {hash_size : ℕ} {tr : List (Event Θ)} {e : Event Θ} {t : Θ}

omit [DecidableEq Θ] in
theorem Shape.hands_eq (h : Shape W A chains hands failed) (t : Θ) : hands t = (W.places t).holds := by
  cases hplace : W.places t with
  | outside => exact h.outside t hplace
  | waiting op => exact h.waiting t op hplace
  | inside op g pc => exact (h.inside t op g pc hplace).stage.own_eq
  | leaving p => exact h.leaving t p hplace

/-- The node is in the chain of a bucket, or in the hands of a thread. -/
def World.Keeps (W : World Θ) (p : Ptr) : Prop :=
  (∃ (i : ℤ) (xs : _), 0 ≤ i ∧ i < W.hash_size ∧ Chain W.table i xs ∧ p ∈ xs.map Prod.fst) ∨
    ∃ t, p ∈ (W.places t).holds

omit [DecidableEq Θ] in
theorem Shape.keeps_iff (h : Shape W A chains hands failed) : W.Keeps p ↔
    (∃ i : ℤ, 0 ≤ i ∧ i < W.hash_size ∧ p ∈ (chains i).map Prod.fst) ∨ ∃ t, p ∈ hands t := by
  simp only [World.Keeps, h.hands_eq]
  apply or_congr_left
  constructor
  · rintro ⟨i, xs, h₀, hi, hchain, hp⟩
    rw [hchain.unique (h.chain i)] at hp
    exact ⟨i, h₀, hi, hp⟩
  · rintro ⟨i, h₀, hi, hp⟩
    exact ⟨i, chains i, h₀, hi, h.chain i, hp⟩

/-- Every node that is allocated is kept. -/
def World.NoLeak (W : World Θ) : Prop := ∀ p, W.table.nodes p ≠ none → W.Keeps p

omit [DecidableEq Θ] in
/-- A step that leaves the table as it is, and everyone's hands. -/
theorem World.NoLeak.move (h : W.NoLeak) (hsize : W'.hash_size = W.hash_size) (htable : W'.table = W.table)
    (hholds : ∀ t, (W'.places t).holds = (W.places t).holds) : W'.NoLeak := by
  intro p hp
  rw [htable] at hp
  unfold World.Keeps
  simp only [hsize, htable, hholds]
  exact h p hp

theorem holds_update {place : Place} (hplace : place.holds = (W.places t).holds) (u : Θ) :
    (update W.places t place u).holds = (W.places u).holds := by
  by_cases hu : u = t
  · rw [hu, update_self, hplace]
  · rw [update_of_ne hu]

theorem World.NoLeak.locked {L : Rwlock.State Θ} {r : Option ℤ} (h : W.NoLeak)
    (hplace : (W.places t).holds = []) : (W.locked t op L r).NoLeak := by
  have hmove (place : Place) (hempty : place.holds = []) (u : Θ) :
      (update W.places t place u).holds = (W.places u).holds := holds_update (hempty.trans hplace.symm) u
  cases r with
  | none => exact h.move rfl rfl (hmove (.waiting op) rfl)
  | some code =>
    unfold World.locked
    dsimp only
    split_ifs
    · exact h.move rfl rfl (hmove .outside rfl)
    · exact h.move rfl rfl (hmove (.inside op W.grants .head) rfl)

/-- A step of a body. -/
theorem World.NoLeak.body {g : ℕ} (h : W.NoLeak) (hshape : Shape W A chains hands failed)
    (hpos : 1 ≤ W.hash_size) (hlt : W.hash_size < 2 ^ 31)
    (hplace : W.places t = .inside op g pc)
    (hfresh : ∀ p ∈ a, pc = .malloc → W.table.nodes p = none)
    (hnext : next op (W.bucket op) a W.table pc = some (pc', T'))
    (hshape' : Shape { W with table := T', places := update W.places t (.inside op g pc') }
      A' chains' hands' failed') :
    World.NoLeak { W with table := T', places := update W.places t (.inside op g pc') } := by
  have hat := hshape.inside t op g pc hplace
  have hat' := hshape'.inside t op g pc' (update_self _ _ _)
  change At op (W.bucket op) _ _ T' (chains' (W.bucket op)) (hands' t) pc' at hat'
  obtain ⟨h₀, hi⟩ := hash_bounds op.key hpos (by omega)
  have hpc : ∀ r garbage, pc ≠ .unlock r garbage := by
    rintro r garbage rfl
    cases hnext
  -- the other chains are as they were
  obtain ⟨pc₁, T₁, xs₁, own₁, hnext₁, hfollows⟩ := hat.step hpc hfresh
  obtain ⟨rfl, rfl⟩ := Prod.mk.inj (Option.some.inj (hnext₁.symm.trans hnext))
  obtain ⟨-, hsame⟩ := hshape.apart_step hfollows.at_next hfollows.frame.frame
  have hchains : ∀ i, i ≠ W.bucket op → chains' i = chains i := by
    intro i hne
    apply (hshape'.chain i).unique
    refine ⟨(hfollows.frame.buckets i hne).trans (hshape.chain i).head, ?_⟩
    apply (hshape.chain i).links.congr
    intro x hx
    exact hsame (.bucket i) (fun heq => hne (by injection heq)) nofun x.1 (List.mem_map_of_mem hx)
  have hhands : ∀ u, u ≠ t → hands' u = hands u := by
    intro u hne
    rw [hshape'.hands_eq, hshape.hands_eq]
    exact congrArg Place.holds (update_of_ne hne _ _)
  intro p hp
  by_contra hlost
  rw [hshape'.keeps_iff, not_or] at hlost
  have hmine : p ∉ (chains' (W.bucket op)).map Prod.fst ++ hands' t := by
    rw [List.mem_append, not_or]
    exact ⟨fun hmem => hlost.1 ⟨W.bucket op, h₀, hi, hmem⟩, fun hmem => hlost.2 ⟨t, hmem⟩⟩
  obtain ⟨halloc, hout⟩ := hat.keeps hat' hfresh hnext hp hmine
  rw [List.mem_append, not_or] at hout
  rcases hshape.keeps_iff.mp (h p halloc) with ⟨i, h₀', hi', hmem⟩ | ⟨u, hmem⟩
  · by_cases hne : i = W.bucket op
    · exact hout.1 (hne ▸ hmem)
    · rw [← hchains i hne] at hmem
      exact hlost.1 ⟨i, h₀', hi', hmem⟩
  · by_cases hne : u = t
    · exact hout.2 (hne ▸ hmem)
    · rw [← hhands u hne] at hmem
      exact hlost.2 ⟨u, hmem⟩

/-- What a failed insertion has left is freed. -/
theorem World.NoLeak.free (h : W.NoLeak) (hshape : Shape W A chains hands failed)
    (hplace : W.places t = .leaving p) :
    World.NoLeak { W with table := W.table.setNode p none, places := update W.places t .outside } := by
  have hshape' := hshape.free hplace
  intro q hq
  have hne : q ≠ p := by
    rintro rfl
    exact hq (update_self _ _ _)
  have halloc : W.table.nodes q ≠ none := fun hnone => hq ((update_of_ne hne _ _).trans hnone)
  rw [hshape'.keeps_iff]
  rcases hshape.keeps_iff.mp (h q halloc) with hchain | ⟨u, hmem⟩
  · exact Or.inl hchain
  · right
    refine ⟨u, ?_⟩
    by_cases hu : u = t
    · rw [hu, hshape.leaving t p hplace] at hmem
      exact absurd (List.mem_singleton.mp hmem) hne
    · rwa [update_of_ne hu]

variable [Fintype Θ]

theorem noLeak_of_reach (hpos : 1 ≤ hash_size) (h : Reach (tableSys ring hash_size Θ) tr W) : W.NoLeak := by
  induction h with
  | init hinit =>
    obtain ⟨memory, lock_init, S, hinit, rfl⟩ := hinit
    obtain ⟨rfl, -⟩ := hash_init_eq hinit
    exact fun p hp => absurd rfl hp
  | step hreach hstep ih =>
    have hatomic := Atomic.of_reach hpos hreach
    obtain ⟨_, chains, hands, _, hshape, -⟩ := hatomic.serial
    obtain ⟨_, chains', hands', _, hshape', -⟩ := (Atomic.of_reach hpos (hreach.step hstep)).serial
    cases hstep with
    | call hplace _ =>
      apply ih.locked
      rw [hplace]
      rfl
    | wake hplace _ =>
      apply ih.locked
      rw [hplace]
      rfl
    | body hplace hfresh hnext =>
      have hsize := hatomic.size_eq
      have hlt := hatomic.size_lt
      exact ih.body hshape (by omega) (by omega) hplace hfresh hnext hshape'
    | unlock hplace _ =>
      refine ih.move rfl rfl fun u => holds_update ?_ u
      rw [hplace]
      cases ‹Option Ptr› <;> rfl
    | free hplace => exact ih.free hshape hplace

/-- **No node is lost and none is shared**: at any time in any run, the nodes that are allocated are those in the
chains of the buckets and those in the hands of the threads, and each of them is in one place. -/
theorem hash_no_leak (hpos : 1 ≤ hash_size) (h : Reach (tableSys ring hash_size Θ) tr W) :
    (∀ p, W.table.nodes p ≠ none ↔ W.Keeps p) ∧
    (∀ p t u, p ∈ (W.places t).holds → p ∈ (W.places u).holds → t = u) ∧
    (∀ p i j xs ys, Chain W.table i xs → Chain W.table j ys → p ∈ xs.map Prod.fst →
      p ∈ ys.map Prod.fst → i = j) ∧
    ∀ p t i xs, p ∈ (W.places t).holds → Chain W.table i xs → p ∉ xs.map Prod.fst := by
  obtain ⟨_, chains, hands, _, hshape, -⟩ := (Atomic.of_reach hpos h).serial
  have hapart := hshape.apart
  refine ⟨fun p => ⟨noLeak_of_reach hpos h p, ?_⟩, ?_, ?_, ?_⟩
  · rw [hshape.keeps_iff]
    rintro (⟨i, -, -, hp⟩ | ⟨t, hp⟩)
    · exact hapart.allocated (.bucket i) p hp
    · exact hapart.allocated (.thread t) p hp
  · intro p t u ht hu
    rw [← hshape.hands_eq] at ht hu
    by_contra hne
    exact hapart.disjoint (.thread t) (.thread u) (fun heq => hne (by injection heq)) p ht hu
  · intro p i j xs ys hxs hys hp hp'
    rw [hxs.unique (hshape.chain i)] at hp
    rw [hys.unique (hshape.chain j)] at hp'
    by_contra hne
    exact hapart.disjoint (.bucket i) (.bucket j) (fun heq => hne (by injection heq)) p hp hp'
  · intro p t i xs ht hxs hp
    rw [hxs.unique (hshape.chain i)] at hp
    rw [← hshape.hands_eq] at ht
    exact hapart.disjoint (.bucket i) (.thread t) nofun p hp ht

section Sample

/-- An insertion has got its node, at the address 5, and has not linked it yet. -/
theorem hash_no_leak_malloc : ∃ W : World (Fin 2), W.places 0 = .inside (.insert [] []) 0 (.setKey 5) ∧
    W.Keeps 5 := by
  have hplaced : (sampleStart.play lone [] (List.replicate 4 (0, .insert [] [], some 5))).map
      (fun q => (q.2.places 0, (q.2.table.nodes 5).isSome)) = some (.inside (.insert [] []) 0 (.setKey 5), true) := by
    decide +kernel
  obtain ⟨⟨tr, W⟩, hplay, heq⟩ := Option.map_eq_some_iff.mp hplaced
  obtain ⟨hplace, hnode⟩ := Prod.mk.inj heq
  obtain ⟨hkeeps, -⟩ := hash_no_leak (le_refl 1) (reach_of_play (reach_sampleStart lone) hplay)
  exact ⟨W, hplace, (hkeeps 5).mp (Option.isSome_iff_ne_none.mp hnode)⟩

end Sample

end SystemProgramming.Hashtable
