import SystemProgramming.Hashtable.Exclusive

/-!
# Who owns which node

Every node that matters belongs to one bucket or to one thread (`Apart`).  A body has its bucket to
itself unless it only reads, so a step of one thread leaves what the other threads rely on as it is:
`Shape` is an invariant, relative to the entries that the buckets held after the last unlock.

* `Apart.step`: a step of one thread leaves what the others own alone.
* `Shape.body` and its neighbours: each kind of step keeps the invariant.
-/

namespace SystemProgramming.Hashtable

open Function

/-- A node belongs to a bucket, or to a thread that has not linked it yet or has unlinked it. -/
inductive Owner (Θ : Type) where
  | bucket (i : ℤ)
  | thread (t : Θ)

variable {Θ : Type} {R R' : Owner Θ → List Ptr} {T T' : Table} {mine mine' : List Ptr}

/-- Nobody shares a node, and all of them are allocated. -/
structure Apart (R : Owner Θ → List Ptr) (T : Table) : Prop where
  disjoint : ∀ a b, a ≠ b → ∀ p ∈ R a, p ∉ R b
  allocated : ∀ a, ∀ p ∈ R a, T.nodes p ≠ none

/-- What does not belong to those that take part in a step is not touched. -/
theorem Apart.untouched {S : Owner Θ → Prop} (h : Apart R T) (hframe : Frame mine mine' T T')
    (hmine : ∀ p ∈ mine, ∃ a, S a ∧ p ∈ R a) {a : Owner Θ} (ha : ¬ S a) {p : Ptr} (hp : p ∈ R a) :
    p ∉ mine ∧ T'.nodes p = T.nodes p := by
  have hout : p ∉ mine := by
    intro hmem
    obtain ⟨b, hb, hpb⟩ := hmine p hmem
    have hab : a ≠ b := by
      rintro rfl
      exact ha hb
    exact h.disjoint a b hab p hp hpb
  exact ⟨hout, hframe.nodes p hout (h.allocated a p hp)⟩

/-- **A step keeps the owners apart.** -/
theorem Apart.step {S : Owner Θ → Prop} (h : Apart R T) (hframe : Frame mine mine' T T')
    (hmine : ∀ p ∈ mine, ∃ a, S a ∧ p ∈ R a) (hmine' : ∀ a, S a → ∀ p ∈ R' a, p ∈ mine')
    (hsame : ∀ a, ¬ S a → R' a = R a)
    (hnew : ∀ a b, S a → S b → a ≠ b → ∀ p ∈ R' a, p ∉ R' b)
    (halloc : ∀ p ∈ mine', T'.nodes p ≠ none) : Apart R' T' := by
  have hcross : ∀ a b, S a → ¬ S b → ∀ p ∈ R' a, p ∉ R' b := by
    intro a b ha hb p hp hpb
    rw [hsame b hb] at hpb
    obtain ⟨hout, -⟩ := h.untouched hframe hmine hb hpb
    exact (hframe.mine p (hmine' a ha p hp)).elim hout (h.allocated b p hpb)
  refine ⟨fun a b hab p hp hpb => ?_, fun a p hp => ?_⟩
  · by_cases ha : S a
    · by_cases hb : S b
      · exact hnew a b ha hb hab p hp hpb
      · exact hcross a b ha hb p hp hpb
    · by_cases hb : S b
      · exact hcross b a hb ha p hpb hp
      · rw [hsame a ha] at hp
        rw [hsame b hb] at hpb
        exact h.disjoint a b hab p hp hpb
  · by_cases ha : S a
    · exact halloc p (hmine' a ha p hp)
    · rw [hsame a ha] at hp
      obtain ⟨-, heq⟩ := h.untouched hframe hmine ha hp
      rw [heq]
      exact h.allocated a p hp

/-- The nodes of the chains and of the threads. -/
def regions (xs : ℤ → List (Ptr × Entry)) (own : Θ → List Ptr) : Owner Θ → List Ptr
  | .bucket i => (xs i).map Prod.fst
  | .thread t => own t

variable [DecidableEq Θ] {W W' : World Θ} {A : ℤ → List Entry} {xs : ℤ → List (Ptr × Entry)}
  {own : Θ → List Ptr} {failed : Θ → Bool} {ring : Rwlock.Ring} {t : Θ} {op : Op} {e : Event Θ}

/-- Only readers are on the bucket. -/
def World.Reading (W : World Θ) (i : ℤ) : Prop :=
  ∀ t op g pc, W.places t = .inside op g pc → W.bucket op = i → op.writes = false

/-- The table between steps: `A` are the entries after the last unlock of each bucket, `xs` the chains
now, `own` the nodes of the threads, and `failed` says who has been refused memory. -/
structure Shape (W : World Θ) (A : ℤ → List Entry) (xs : ℤ → List (Ptr × Entry))
    (own : Θ → List Ptr) (failed : Θ → Bool) : Prop where
  chain : ∀ i, Chain W.table i (xs i)
  distinct : ∀ i, ((xs i).map Prod.fst).Nodup
  apart : Apart (regions xs own) W.table
  inside : ∀ t op g pc, W.places t = .inside op g pc →
    At op (W.bucket op) (A (W.bucket op)) (failed t) W.table (xs (W.bucket op)) (own t) pc
  quiet : ∀ i, W.Reading i → entries (xs i) = A i ∧ W.table.bucket_sizes i = (xs i).length
  outside : ∀ t, W.places t = .outside → own t = []
  waiting : ∀ t op, W.places t = .waiting op → own t = []
  leaving : ∀ t p, W.places t = .leaving p → own t = [p]

namespace Shape

/-- A thread that owns nothing goes to a place where it need not own anything. -/
theorem rest {L : ℤ → Rwlock.State Θ} (h : Shape W A xs own failed) (hown : own t = [])
    (hout : ∀ op g pc, W.places t ≠ .inside op g pc) (place : Place)
    (hplace : ∀ op g pc, place ≠ .inside op g pc) (hleave : ∀ p, place ≠ .leaving p) :
    Shape { W with locks := L, places := update W.places t place } A xs own failed := by
  refine ⟨h.chain, h.distinct, h.apart, fun u op g pc hu => ?_, fun i hi => h.quiet i ?_,
    fun u hu => ?_, fun u op hu => ?_, fun u p hu => ?_⟩
  · rcases update_cases hu with ⟨-, hq⟩ | ⟨-, hu⟩
    · exact absurd hq (hplace _ _ _)
    · exact h.inside u op g pc hu
  · intro u op g pc hu
    have hut : u ≠ t := by
      rintro rfl
      exact hout _ _ _ hu
    exact hi u op g pc ((update_of_ne hut _ _).trans hu)
  · rcases update_cases hu with ⟨rfl, -⟩ | ⟨-, hu⟩
    · exact hown
    · exact h.outside u hu
  · rcases update_cases hu with ⟨rfl, -⟩ | ⟨-, hu⟩
    · exact hown
    · exact h.waiting u op hu
  · rcases update_cases hu with ⟨-, hq⟩ | ⟨-, hu⟩
    · exact absurd hq (hleave _)
    · exact h.leaving u p hu

/-- A body begins on a bucket where the others only read. -/
theorem grant {L : ℤ → Rwlock.State Θ} {g n : ℕ} (h : Shape W A xs own failed) (hown : own t = [])
    (hout : ∀ op g pc, W.places t ≠ .inside op g pc) (hreading : W.Reading (W.bucket op)) :
    Shape { W with locks := L, places := update W.places t (.inside op g .head), grants := n }
      A xs own (update failed t false) := by
  obtain ⟨hentries, hsize⟩ := h.quiet _ hreading
  have hlen : W.table.bucket_sizes (W.bucket op) = (A (W.bucket op)).length := by
    rw [hsize, ← hentries, entries, List.length_map]
  have hother : ∀ u q, update W.places t (.inside op g .head) u = q →
      (∀ op' g' pc', q ≠ .inside op' g' pc') → W.places u = q := by
    intro u q hu hq
    rcases update_cases hu with ⟨-, hmine⟩ | ⟨-, hu⟩
    · exact absurd hmine.symm (hq _ _ _)
    · exact hu
  refine ⟨h.chain, h.distinct, h.apart, fun u op' g' pc' hu => ?_, fun i hi => h.quiet i ?_,
    fun u hu => h.outside u (hother u _ hu (by simp)),
    fun u op' hu => h.waiting u op' (hother u _ hu (by simp)),
    fun u p hu => h.leaving u p (hother u _ hu (by simp))⟩
  · rcases update_cases hu with ⟨rfl, hq⟩ | ⟨hut, hu⟩
    · cases hq
      rw [update_self, hown]
      refine ⟨h.chain _, .head hentries hlen, ?_⟩
      rw [List.append_nil]
      exact h.distinct _
    · rw [update_of_ne hut]
      exact h.inside u op' g' pc' hu
  · intro u op' g' pc' hu
    have hut : u ≠ t := by
      rintro rfl
      exact hout _ _ _ hu
    exact hi u op' g' pc' ((update_of_ne hut _ _).trans hu)

theorem locked [Fintype Θ] {L : Rwlock.State Θ} {r : Option ℤ} (h : Shape W A xs own failed)
    (hown : own t = []) (hout : ∀ op g pc, W.places t ≠ .inside op g pc)
    (hlocked : Locked (W.locked t op L r)) :
    ∃ failed', Shape (W.locked t op L r) A xs own failed' := by
  cases r with
  | none => exact ⟨failed, h.rest hown hout (.waiting op) (by simp) (by simp)⟩
  | some code =>
    by_cases hcode : code < 0
    · rw [World.locked, if_pos hcode]
      exact ⟨failed, h.rest hown hout .outside (by simp) (by simp)⟩
    · rw [World.locked, if_neg hcode] at hlocked ⊢
      refine ⟨_, h.grant hown hout fun u op' g' pc' hu hb => ?_⟩
      have hut : u ≠ t := by
        rintro rfl
        exact hout _ _ _ hu
      -- together with the new body the other one can only be a reader
      exact hlocked.exclusive ((update_of_ne hut _ _).trans hu) (update_self _ _ _) (Ne.symm hut)
        hb.symm

/-- A step on one bucket and the nodes of one thread keeps the owners apart. -/
theorem apart_step {b : ℤ} {xs' : List (Ptr × Entry)} {own' : List Ptr} {c : List Entry} {f : Bool}
    {pc' : Pc} (h : Shape W A xs own failed) (hat : At op b c f T' xs' own' pc')
    (hframe : Frame ((xs b).map Prod.fst ++ own t) (xs'.map Prod.fst ++ own') W.table T') :
    Apart (regions (update xs b xs') (update own t own')) T' ∧
    ∀ a : Owner Θ, a ≠ .bucket b → a ≠ .thread t → ∀ p ∈ regions xs own a,
      T'.nodes p = W.table.nodes p := by
  have hmine : ∀ p ∈ (xs b).map Prod.fst ++ own t,
      ∃ a : Owner Θ, (a = .bucket b ∨ a = .thread t) ∧ p ∈ regions xs own a := by
    intro p hp
    cases List.mem_append.mp hp with
    | inl hp => exact ⟨.bucket b, Or.inl rfl, hp⟩
    | inr hp => exact ⟨.thread t, Or.inr rfl, hp⟩
  have hbucket : regions (update xs b xs') (update own t own') (.bucket b) = xs'.map Prod.fst :=
    congrArg (List.map Prod.fst) (update_self _ _ _)
  have hthread : regions (update xs b xs') (update own t own') (.thread t) = own' :=
    update_self _ _ _
  have hnd := List.nodup_append.mp hat.nodup
  refine ⟨h.apart.step hframe hmine ?_ ?_ ?_ fun p hp => hat.allocated hp, ?_⟩
  · rintro a (rfl | rfl) p hp
    · rw [hbucket] at hp
      exact List.mem_append_left _ hp
    · rw [hthread] at hp
      exact List.mem_append_right _ hp
  · intro a ha
    rw [not_or] at ha
    cases a with
    | bucket i => exact congrArg (List.map Prod.fst) (update_of_ne (fun hi => ha.1 (by rw [hi])) _ _)
    | thread u => exact update_of_ne (fun hu => ha.2 (by rw [hu])) _ _
  · rintro a b' (rfl | rfl) (rfl | rfl) hab p hp hp'
    · exact hab rfl
    · rw [hbucket] at hp
      rw [hthread] at hp'
      exact hnd.2.2 p hp p hp' rfl
    · rw [hthread] at hp
      rw [hbucket] at hp'
      exact hnd.2.2 p hp' p hp rfl
    · exact hab rfl
  · intro a hb ht p hp
    exact (h.apart.untouched hframe hmine (by rintro (rfl | rfl); exacts [hb rfl, ht rfl]) hp).2

theorem body [Fintype Θ] {g : ℕ} {pc pc' : Pc} {a : Option Ptr} (h : Shape W A xs own failed)
    (hlocked : Locked W) (hplace : W.places t = .inside op g pc)
    (hfresh : ∀ p ∈ a, pc = .malloc → W.table.nodes p = none)
    (hnext : next op (W.bucket op) a W.table pc = some (pc', T')) :
    ∃ xs' own' failed', Shape { W with table := T', places := update W.places t (.inside op g pc') }
      A xs' own' failed' := by
  have hat := h.inside t op g pc hplace
  have hpc : ∀ r garbage, pc ≠ .unlock r garbage := by
    rintro r garbage rfl
    cases hnext
  obtain ⟨pc₁, T₁, xs', own', hnext₁, hfollows⟩ := hat.step hpc hfresh
  obtain ⟨rfl, rfl⟩ := Prod.mk.inj (Option.some.inj (hnext₁.symm.trans hnext))
  have hlocal := hfollows.frame
  obtain ⟨hapart, hsame⟩ := h.apart_step hfollows.at_next hlocal.frame
  -- a reader changes nothing
  have hread : op.writes = false → T₁ = W.table ∧ xs' = xs (W.bucket op) := by
    intro hop
    have htable := next_reads hat hop hnext
    refine ⟨htable, ?_⟩
    have hchain := hfollows.at_next.chain
    rw [htable] at hchain
    exact hchain.unique (h.chain _)
  have hother : ∀ u q, update W.places t (.inside op g pc₁) u = q →
      (∀ op' g' pc'', q ≠ .inside op' g' pc'') → u ≠ t ∧ W.places u = q := by
    intro u q hu hq
    rcases update_cases hu with ⟨-, hmine⟩ | hu
    · exact absurd hmine.symm (hq _ _ _)
    · exact hu
  have hreading : ∀ i,
      World.Reading { W with table := T₁, places := update W.places t (.inside op g pc₁) } i →
        W.Reading i := by
    intro i hi u op' g' pc'' hu hb
    by_cases hut : u = t
    · subst hut
      rw [hplace] at hu
      cases hu
      exact hi u op g pc₁ (update_self _ _ _) hb
    · exact hi u op' g' pc'' ((update_of_ne hut _ _).trans hu) hb
  refine ⟨update xs (W.bucket op) xs', update own t own',
    update failed t (failed t || (pc.allocates && a.isNone)), ?_, ?_, hapart, ?_, ?_, ?_, ?_, ?_⟩
  · intro i
    by_cases hi : i = W.bucket op
    · subst hi
      rw [update_self]
      exact hfollows.at_next.chain
    · rw [update_of_ne hi]
      refine ⟨(hlocal.buckets i hi).trans (h.chain i).head, (h.chain i).links.congr fun x hx => ?_⟩
      exact hsame (.bucket i) (fun heq => hi (by injection heq)) nofun x.1 (List.mem_map_of_mem hx)
  · intro i
    by_cases hi : i = W.bucket op
    · subst hi
      rw [update_self]
      exact (List.nodup_append.mp hfollows.at_next.nodup).1
    · rw [update_of_ne hi]
      exact h.distinct i
  · intro u op' g' pc'' hu
    show At op' (W.bucket op') (A (W.bucket op')) _ T₁ (update xs (W.bucket op) xs' (W.bucket op'))
      (update own t own' u) pc''
    rcases update_cases hu with ⟨rfl, hq⟩ | ⟨hut, hu⟩
    · cases hq
      rw [update_self, update_self, update_self]
      exact hfollows.at_next
    · rw [update_of_ne hut, update_of_ne hut]
      have hatu := h.inside u op' g' pc'' hu
      by_cases hb : W.bucket op' = W.bucket op
      · obtain ⟨htable, hxs⟩ := hread (hlocked.exclusive hplace hu hut hb)
        rw [htable, hxs, update_eq_self]
        exact hatu
      · rw [update_of_ne hb]
        refine hatu.congr (hlocal.buckets _ hb) (hlocal.sizes _ hb) fun p hp => ?_
        cases List.mem_append.mp hp with
        | inl hp => exact hsame (.bucket _) (fun heq => hb (by injection heq)) nofun p hp
        | inr hp => exact hsame (.thread u) nofun (fun heq => hut (by injection heq)) p hp
  · intro i hi
    have hquiet := h.quiet i (hreading i hi)
    show entries (update xs (W.bucket op) xs' i) = A i ∧
      T₁.bucket_sizes i = (update xs (W.bucket op) xs' i).length
    by_cases hb : i = W.bucket op
    · subst hb
      obtain ⟨htable, hxs⟩ := hread (hi t op g pc₁ (update_self _ _ _) rfl)
      rw [htable, hxs, update_eq_self]
      exact hquiet
    · rw [update_of_ne hb, hlocal.sizes i hb]
      exact hquiet
  · intro u hu
    obtain ⟨hut, hu⟩ := hother u _ hu (by simp)
    rw [update_of_ne hut]
    exact h.outside u hu
  · intro u op' hu
    obtain ⟨hut, hu⟩ := hother u _ hu (by simp)
    rw [update_of_ne hut]
    exact h.waiting u op' hu
  · intro u p hu
    obtain ⟨hut, hu⟩ := hother u _ hu (by simp)
    rw [update_of_ne hut]
    exact h.leaving u p hu

theorem unlock [Fintype Θ] {g : ℕ} {r : Result} {garbage : Option Ptr} {L : Rwlock.State Θ}
    (h : Shape W A xs own failed) (hlocked : Locked W)
    (hplace : W.places t = .inside op g (.unlock r garbage)) :
    Shape { W with locks := update W.locks (W.bucket op) L
                   places := update W.places t (.afterUnlock garbage) }
      (update A (W.bucket op) (entries (xs (W.bucket op)))) xs own failed := by
  have hat := h.inside t op g _ hplace
  obtain ⟨-, hsize, hown⟩ := hat.stage.of_unlock
  refine ⟨h.chain, h.distinct, h.apart, fun u op' g' pc' hu => ?_, fun i hi => ?_,
    fun u hu => ?_, fun u op' hu => ?_, fun u p hu => ?_⟩
  · rcases update_cases hu with ⟨-, hq⟩ | ⟨hut, hu⟩
    · cases garbage <;> cases hq
    · have hatu := h.inside u op' g' pc' hu
      show At op' (W.bucket op') (update A (W.bucket op) _ (W.bucket op')) (failed u) W.table
        (xs (W.bucket op')) (own u) pc'
      by_cases hb : W.bucket op' = W.bucket op
      · rw [hat.reads (hlocked.exclusive hplace hu hut hb), update_eq_self]
        exact hatu
      · rw [update_of_ne hb]
        exact hatu
  · show entries (xs i) = update A (W.bucket op) _ i ∧ _
    by_cases hb : i = W.bucket op
    · subst hb
      rw [update_self]
      exact ⟨rfl, hsize⟩
    · rw [update_of_ne hb]
      refine h.quiet i fun u op' g' pc' hu hbu => ?_
      have hut : u ≠ t := by
        rintro rfl
        rw [hplace] at hu
        cases hu
        exact hb hbu.symm
      exact hi u op' g' pc' ((update_of_ne hut _ _).trans hu) hbu
  · rcases update_cases hu with ⟨rfl, hq⟩ | ⟨-, hu⟩
    · cases garbage with
      | none => exact hown
      | some p => cases hq
    · exact h.outside u hu
  · rcases update_cases hu with ⟨-, hq⟩ | ⟨-, hu⟩
    · cases garbage <;> cases hq
    · exact h.waiting u op' hu
  · rcases update_cases hu with ⟨rfl, hq⟩ | ⟨-, hu⟩
    · cases garbage with
      | none => cases hq
      | some p' =>
        cases hq
        exact hown
    · exact h.leaving u p hu

theorem free {p : Ptr} (h : Shape W A xs own failed) (hplace : W.places t = .leaving p) :
    Shape { W with table := W.table.setNode p none, places := update W.places t .outside }
      A xs (update own t []) failed := by
  have hown := h.leaving t p hplace
  have hframe : Frame [p] [] W.table (W.table.setNode p none) :=
    Frame.setNode (Or.inl List.mem_cons_self) nofun
  have hmine : ∀ q ∈ [p], ∃ a : Owner Θ, a = .thread t ∧ q ∈ regions xs own a :=
    fun q hq => ⟨.thread t, rfl, by rw [← hown] at hq; exact hq⟩
  have hsame : ∀ a : Owner Θ, a ≠ .thread t → ∀ q ∈ regions xs own a,
      (W.table.setNode p none).nodes q = W.table.nodes q :=
    fun a ha q hq => (h.apart.untouched hframe hmine ha hq).2
  have hgone : regions xs (update own t []) (.thread t) = [] := update_self _ _ _
  have hother : ∀ u q, update W.places t .outside u = q → q ≠ .outside → u ≠ t ∧ W.places u = q := by
    intro u q hu hq
    rcases update_cases hu with ⟨-, hmine⟩ | hu
    · exact absurd hmine.symm hq
    · exact hu
  refine ⟨fun i => ?_, h.distinct, h.apart.step hframe hmine ?_ ?_ ?_ nofun,
    fun u op g pc hu => ?_, fun i hi => h.quiet i ?_, fun u hu => ?_, fun u op hu => ?_,
    fun u q hu => ?_⟩
  · refine ⟨(h.chain i).head, (h.chain i).links.congr fun x hx => ?_⟩
    exact hsame (.bucket i) nofun x.1 (List.mem_map_of_mem hx)
  · rintro a rfl q hq
    rwa [hgone] at hq
  · intro a ha
    cases a with
    | bucket i => rfl
    | thread u => exact update_of_ne (fun hu => ha (by rw [hu])) _ _
  · rintro a b rfl rfl hab
    exact absurd rfl hab
  · obtain ⟨hut, hu⟩ := hother u _ hu nofun
    show At op (W.bucket op) (A (W.bucket op)) (failed u) (W.table.setNode p none) (xs (W.bucket op))
      (update own t [] u) pc
    rw [update_of_ne hut]
    refine (h.inside u op g pc hu).congr rfl rfl fun q hq => ?_
    cases List.mem_append.mp hq with
    | inl hq => exact hsame (.bucket _) nofun q hq
    | inr hq => exact hsame (.thread u) (fun heq => hut (by injection heq)) q hq
  · intro u op g pc hu
    have hut : u ≠ t := by
      rintro rfl
      rw [hplace] at hu
      cases hu
    exact hi u op g pc ((update_of_ne hut _ _).trans hu)
  · by_cases hut : u = t
    · rw [hut, update_self]
    · rw [update_of_ne hut]
      exact h.outside u ((update_of_ne hut _ _).symm.trans hu)
  · obtain ⟨hut, hu⟩ := hother u _ hu nofun
    rw [update_of_ne hut]
    exact h.waiting u op hu
  · obtain ⟨hut, hu⟩ := hother u _ hu nofun
    rw [update_of_ne hut]
    exact h.leaving u q hu

end Shape

end SystemProgramming.Hashtable
