import SystemProgramming.Hashtable.Calls

/-!
# The hash table is a finite map

`Op.apply` is what the four operations do to a map from strings to strings.  A table holds a map if its
buckets are chains of entries with no key twice, each in the bucket of its hash, with the sizes right,
and if the entries are those of the map (`Holds`).

* `Rests.call`: one call returns what the map says, and leaves what it makes of the map;
* `hash_refines_map`: so does every call of a sequence in which no ticket of a lock overflows;
* `hash_refines_map_hangs`: a sequence in which tickets have overflowed, and a call that hangs.
-/

namespace SystemProgramming.Hashtable

open Function

/-- The contents of a table. -/
abbrev Map := Str → Option Str

/-- What an operation returns and does to the map; `ok` says whether memory was there.  A reader copies
the value with its NUL. -/
def Op.apply (ok : Bool) (m : Map) : Op → Result × Map
  | insert key value =>
    match m key with
    | some _ => (⟨0, none⟩, m)
    | none => if ok then (⟨1, none⟩, Function.update m key (some value)) else (⟨-1, none⟩, m)
  | read key _ =>
    match m key with
    | some value => (⟨1, some (value.map Subtype.val ++ [0])⟩, m)
    | none => (⟨0, none⟩, m)
  | update key value =>
    match m key with
    | some _ => if ok then (⟨1, none⟩, Function.update m key (some value)) else (⟨-1, none⟩, m)
    | none => (⟨0, none⟩, m)
  | delete key =>
    match m key with
    | some _ => (⟨1, none⟩, Function.update m key none)
    | none => (⟨0, none⟩, m)

/-- The value of a key among the entries of a bucket. -/
def lookup (es : List Entry) (key : Str) : Option Str :=
  (es.find? (·.key = key)).map Entry.value

/-- The entries of the bucket `i`: no key twice, each hashed to `i`, the sizes of the values right. -/
structure Proper (hash_size : ℕ) (i : ℤ) (es : List Entry) : Prop where
  nodup : (es.map Entry.key).Nodup
  hashed : ∀ e ∈ es, hash e.key hash_size = i
  sized : ∀ e ∈ es, e.value_size = e.value.length + 1

/-- The table holds the map `m` in the chains `xs`. -/
structure Holds (hash_size : ℕ) (m : Map) (T : Table) (xs : ℤ → List (Ptr × Entry)) : Prop where
  chain : ∀ i : ℤ, 0 ≤ i → i < hash_size → Chain T i (xs i)
  proper : ∀ i : ℤ, 0 ≤ i → i < hash_size → Proper hash_size i (entries (xs i))
  size : ∀ i : ℤ, 0 ≤ i → i < hash_size → T.bucket_sizes i = (xs i).length
  apart : ∀ i j : ℤ, 0 ≤ i → i < hash_size → 0 ≤ j → j < hash_size → i ≠ j →
    ∀ p ∈ (xs i).map Prod.fst, p ∉ (xs j).map Prod.fst
  distinct : ∀ i : ℤ, 0 ≤ i → i < hash_size → ((xs i).map Prod.fst).Nodup
  contents : ∀ key, m key = lookup (entries (xs (hash key hash_size))) key

/-! ### One bucket -/

variable {hash_size : ℕ} {i : ℤ} {es es' : List Entry} {op : Op} {m : Map} {ok : Bool} {r : Result}
  {key k value : Str} {e : Entry} {l d : List Entry}

theorem find_cases (es : List Entry) (key : Str) :
    (es.find? (·.key = key) = none ∧ ∀ e ∈ es, e.key ≠ key) ∨
    ∃ l e d, es = l ++ e :: d ∧ e.key = key ∧ (∀ c ∈ l, c.key ≠ key) ∧
      es.find? (·.key = key) = some e := by
  cases hfind : es.find? (·.key = key) with
  | none =>
    refine Or.inl ⟨rfl, fun e he hkey => ?_⟩
    exact List.find?_eq_none.mp hfind e he (decide_eq_true hkey)
  | some e =>
    obtain ⟨hkey, l, d, rfl, hl⟩ := List.find?_eq_some_iff_append.mp hfind
    refine Or.inr ⟨l, e, d, rfl, of_decide_eq_true hkey, fun c hc hck => ?_, rfl⟩
    have hno := hl c hc
    rw [decide_eq_true hck] at hno
    cases hno

theorem lookup_cons_self (hkey : e.key = key) : lookup (e :: es) key = some e.value := by
  simp [lookup, hkey]

theorem lookup_cons_ne (hkey : e.key ≠ key) : lookup (e :: es) key = lookup es key := by
  simp [lookup, hkey]

theorem lookup_absent (h : ∀ e ∈ es, e.key ≠ key) : lookup es key = none := by
  unfold lookup
  rw [find_missing h]
  rfl

theorem lookup_append (hl : ∀ c ∈ l, c.key ≠ key) : lookup (l ++ es) key = lookup es key := by
  induction l with
  | nil => rfl
  | cons c l ih =>
    show lookup (c :: (l ++ es)) key = _
    rw [lookup_cons_ne (hl c List.mem_cons_self), ih fun b hb => hl b (List.mem_cons_of_mem c hb)]

/-- Behind an entry with the key there is no other one. -/
theorem Proper.absent_after (h : Proper hash_size i (l ++ e :: d)) : ∀ c ∈ d, c.key ≠ e.key := by
  intro c hc heq
  have hnd := h.nodup
  rw [List.map_append, List.map_cons] at hnd
  have hnd' := (List.nodup_append.mp hnd).2.1
  rw [List.nodup_cons] at hnd'
  exact hnd'.1 (heq ▸ List.mem_map_of_mem hc)

/-- The lookup of other keys does not see the entry. -/
theorem lookup_other (l : List Entry) (hk : k ≠ e.key) :
    lookup (l ++ e :: d) k = lookup (l ++ d) k := by
  induction l with
  | nil => exact lookup_cons_ne fun h => hk h.symm
  | cons c l ih =>
    show lookup (c :: (l ++ e :: d)) k = lookup (c :: (l ++ d)) k
    by_cases hc : c.key = k
    · rw [lookup_cons_self hc, lookup_cons_self hc]
    · rw [lookup_cons_ne hc, lookup_cons_ne hc, ih]

theorem Proper.push (h : Proper hash_size i es) (hi : hash key hash_size = i)
    (habs : ∀ e ∈ es, e.key ≠ key) (value : Str) :
    Proper hash_size i (Entry.new key value :: es) := by
  refine ⟨?_, ?_, ?_⟩
  · rw [List.map_cons, List.nodup_cons]
    refine ⟨fun hmem => ?_, h.nodup⟩
    obtain ⟨e, he, hkey⟩ := List.mem_map.mp hmem
    exact habs e he hkey
  · rw [List.forall_mem_cons]
    exact ⟨hi, h.hashed⟩
  · rw [List.forall_mem_cons]
    exact ⟨rfl, h.sized⟩

theorem Proper.store (h : Proper hash_size i (l ++ e :: d)) (value : Str) :
    Proper hash_size i (l ++ { e with value := value, value_size := value.length + 1 } :: d) := by
  have hhashed := h.hashed
  have hsized := h.sized
  rw [List.forall_mem_append, List.forall_mem_cons] at hhashed hsized
  refine ⟨?_, ?_, ?_⟩
  · have hnd := h.nodup
    rw [List.map_append, List.map_cons] at hnd ⊢
    exact hnd
  · rw [List.forall_mem_append, List.forall_mem_cons]
    exact hhashed
  · rw [List.forall_mem_append, List.forall_mem_cons]
    exact ⟨hsized.1, rfl, hsized.2.2⟩

theorem Proper.erase (h : Proper hash_size i (l ++ e :: d)) : Proper hash_size i (l ++ d) := by
  have hsub : ∀ c ∈ l ++ d, c ∈ l ++ e :: d := by
    intro c hc
    rw [List.mem_append] at hc ⊢
    exact hc.imp_right (List.mem_cons_of_mem e)
  refine ⟨?_, fun c hc => h.hashed c (hsub c hc), fun c hc => h.sized c (hsub c hc)⟩
  have hnd := h.nodup
  rw [List.map_append, List.map_cons, List.nodup_middle, List.nodup_cons] at hnd
  rw [List.map_append]
  exact hnd.2

/-- A reader's copy of a value whose size is right. -/
theorem strncpy_value (value : Str) :
    strncpy value (value.length + 1) = value.map Subtype.val ++ [0] := by
  unfold strncpy
  rw [Nat.add_sub_cancel_left, List.take_of_length_le (by simp)]
  rfl

/-- The operation has the effect on a bucket that it has on the map. -/
structure Matches (hash_size : ℕ) (i : ℤ) (op : Op) (ok : Bool) (m : Map) (es : List Entry)
    (r : Result) (es' : List Entry) : Prop where
  proper : Proper hash_size i es'
  result : (op.apply ok m).1 = r
  value : (op.apply ok m).2 op.key = lookup es' op.key
  others : ∀ k, k ≠ op.key → (op.apply ok m).2 k = m k ∧ lookup es' k = lookup es k

theorem Proper.unchanged (h : Proper hash_size i es) (hm : m op.key = lookup es op.key)
    (happly : op.apply ok m = (r, m)) : Matches hash_size i op ok m es r es :=
  ⟨h, by rw [happly], by rw [happly]; exact hm, fun k _ => by rw [happly]; exact ⟨rfl, rfl⟩⟩

theorem Proper.insert (h : Proper hash_size i es) (hi : hash key hash_size = i)
    (hm : m key = lookup es key) :
    Matches hash_size i (.insert key value) ok m es (Op.effect ok es (.insert key value)).1
      (Op.effect ok es (.insert key value)).2 := by
  rcases find_cases es key with ⟨hfind, habs⟩ | ⟨l, e, d, -, -, -, hfind⟩
  · have hnone : m key = none := hm.trans (lookup_absent habs)
    have heffect : Op.effect ok es (.insert key value)
        = if ok then (⟨1, none⟩, Entry.new key value :: es) else (⟨-1, none⟩, es) := by
      simp only [Op.effect, hfind]
    have happly : Op.apply ok m (.insert key value)
        = if ok then (⟨1, none⟩, update m key (some value)) else (⟨-1, none⟩, m) := by
      simp only [Op.apply, hnone]
    rw [heffect]
    cases ok with
    | false => exact h.unchanged hm happly
    | true =>
      refine ⟨h.push hi habs value, by rw [happly]; rfl, ?_, fun k hk => ?_⟩
      · rw [happly]
        refine (update_self _ _ _).trans ?_
        have hkey : (Entry.new key value).key = key := rfl
        exact (lookup_cons_self hkey).symm
      · rw [happly]
        exact ⟨update_of_ne hk _ _, lookup_cons_ne fun h => hk h.symm⟩
  · have hsome : m key = some e.value := by rw [hm, lookup, hfind]; rfl
    have heffect : Op.effect ok es (.insert key value) = (⟨0, none⟩, es) := by
      simp only [Op.effect, hfind]
    rw [heffect]
    apply h.unchanged hm
    simp only [Op.apply, hsome]

theorem Proper.read (h : Proper hash_size i es) {quick : Bool} (hm : m key = lookup es key) :
    Matches hash_size i (.read key quick) ok m es (Op.effect ok es (.read key quick)).1
      (Op.effect ok es (.read key quick)).2 := by
  rcases find_cases es key with ⟨hfind, habs⟩ | ⟨l, e, d, hes, -, -, hfind⟩
  · have hnone : m key = none := hm.trans (lookup_absent habs)
    have heffect : Op.effect ok es (.read key quick) = (⟨0, none⟩, es) := by
      simp only [Op.effect, hfind]
    rw [heffect]
    apply h.unchanged hm
    simp only [Op.apply, hnone]
  · have hsome : m key = some e.value := by rw [hm, lookup, hfind]; rfl
    have he : e ∈ es := by simp [hes]
    have heffect : Op.effect ok es (.read key quick)
        = (⟨1, some (strncpy e.value e.value_size)⟩, es) := by
      simp only [Op.effect, hfind]
    rw [heffect]
    apply h.unchanged hm
    simp only [Op.apply, hsome]
    rw [h.sized e he, strncpy_value]

theorem Proper.update (h : Proper hash_size i es) (hm : m key = lookup es key) :
    Matches hash_size i (.update key value) ok m es (Op.effect ok es (.update key value)).1
      (Op.effect ok es (.update key value)).2 := by
  rcases find_cases es key with ⟨hfind, habs⟩ | ⟨l, e, d, rfl, rfl, hl, hfind⟩
  · have hnone : m key = none := hm.trans (lookup_absent habs)
    have heffect : Op.effect ok es (.update key value) = (⟨0, none⟩, es) := by
      simp only [Op.effect, hfind]
    rw [heffect]
    apply h.unchanged hm
    simp only [Op.apply, hnone]
  · have hsome : m e.key = some e.value := by rw [hm, lookup, hfind]; rfl
    have heffect : Op.effect ok (l ++ e :: d) (.update e.key value)
        = if ok then (⟨1, none⟩, l ++ { e with value := value, value_size := value.length + 1 } :: d)
          else (⟨-1, none⟩, l ++ e :: d) := by
      rw [← store_split value hl rfl]
      simp only [Op.effect, hfind]
    have happly : Op.apply ok m (.update e.key value)
        = if ok then (⟨1, none⟩, Function.update m e.key (some value)) else (⟨-1, none⟩, m) := by
      simp only [Op.apply, hsome]
    rw [heffect]
    cases ok with
    | false => exact h.unchanged hm happly
    | true =>
      refine ⟨h.store value, by rw [happly]; rfl, ?_, fun k hk => ?_⟩
      · rw [happly]
        refine (update_self _ _ _).trans ?_
        show _ = lookup (l ++ { e with value := value, value_size := value.length + 1 } :: d) e.key
        rw [lookup_append hl, lookup_cons_self rfl]
      · rw [happly]
        refine ⟨update_of_ne hk _ _, ?_⟩
        have hk' : k ≠ e.key := hk
        refine (lookup_other l ?_).trans (lookup_other l hk').symm
        exact hk'

theorem Proper.delete (h : Proper hash_size i es) (hm : m key = lookup es key) :
    Matches hash_size i (.delete key) ok m es (Op.effect ok es (.delete key)).1
      (Op.effect ok es (.delete key)).2 := by
  rcases find_cases es key with ⟨hfind, habs⟩ | ⟨l, e, d, rfl, rfl, hl, hfind⟩
  · have hnone : m key = none := hm.trans (lookup_absent habs)
    have heffect : Op.effect ok es (.delete key) = (⟨0, none⟩, es) := by
      simp only [Op.effect, hfind]
    rw [heffect]
    apply h.unchanged hm
    simp only [Op.apply, hnone]
  · have hsome : m e.key = some e.value := by rw [hm, lookup, hfind]; rfl
    have heffect : Op.effect ok (l ++ e :: d) (.delete e.key) = (⟨1, none⟩, l ++ d) := by
      rw [effect_delete rfl hfind, erase_split hl rfl]
    have happly : Op.apply ok m (.delete e.key) = (⟨1, none⟩, Function.update m e.key none) := by
      simp only [Op.apply, hsome]
    rw [heffect]
    refine ⟨h.erase, by rw [happly], ?_, fun k hk => ?_⟩
    · rw [happly]
      refine (update_self _ _ _).trans ?_
      rw [show (Op.delete e.key).key = e.key from rfl, lookup_append hl, lookup_absent h.absent_after]
    · rw [happly]
      exact ⟨update_of_ne hk _ _, (lookup_other l hk).symm⟩

/-- **The effect on a bucket** is the operation on the map. -/
theorem Proper.effect (h : Proper hash_size i es) (hi : hash op.key hash_size = i)
    (hm : m op.key = lookup es op.key) (heffect : op.effect ok es = (r, es')) :
    Matches hash_size i op ok m es r es' := by
  obtain ⟨rfl, rfl⟩ : r = (op.effect ok es).1 ∧ es' = (op.effect ok es).2 := by
    rw [heffect]
    exact ⟨rfl, rfl⟩
  cases op with
  | insert key value => exact h.insert hi hm
  | read key quick => exact h.read hm
  | update key value => exact h.update hm
  | delete key => exact h.delete hm

/-! ### One call -/

variable {T T' : Table} {xs : ℤ → List (Ptr × Entry)} {zs : List (Ptr × Entry)} {g : Option Ptr}

theorem Holds.size_eq (h : Holds hash_size m T xs) (h₀ : 0 ≤ i) (hi : i < hash_size) :
    T.bucket_sizes i = (entries (xs i)).length := by
  rw [h.size i h₀ hi, entries, List.length_map]

/-- A body begins. -/
theorem Holds.begin (h : Holds hash_size m T xs) (h₀ : 0 ≤ i) (hi : i < hash_size) (op : Op) :
    At op i (entries (xs i)) false T (xs i) [] .head :=
  ⟨h.chain i h₀ hi, .head rfl (h.size_eq h₀ hi), by
    rw [List.append_nil]
    exact h.distinct i h₀ hi⟩

theorem Table.free_local (T : Table) (i : ℤ) (mine : List Ptr) (g : Option Ptr) :
    Local i (mine ++ g.toList) mine T (T.free g) := by
  cases g with
  | none =>
    rw [show none.toList = ([] : List Ptr) from rfl, List.append_nil]
    exact Local.same T mine
  | some p => exact Local.setNode (Or.inl (by simp)) fun q hq => Or.inl (List.mem_append_left _ hq)

/-- The chain does not lose a node when the garbage is freed. -/
theorem Chain.free (h : Chain T i zs) (hnd : (zs.map Prod.fst ++ g.toList).Nodup) :
    Chain (T.free g) i zs := by
  cases g with
  | none => exact h
  | some p =>
    apply h.setNode
    intro hp
    exact (List.nodup_append.mp hnd).2.2 p hp p (List.mem_singleton_self p) rfl

/-- **A call on the bucket `i`** leaves a table that holds what the operation makes of the map. -/
theorem Holds.after {f : Bool} (h : Holds hash_size m T xs) (h₀ : 0 ≤ i) (hi : i < hash_size)
    (hhash : hash op.key hash_size = i)
    (hat : At op i (entries (xs i)) f T' zs g.toList (.unlock r g))
    (hlocal : Local i ((xs i).map Prod.fst) (zs.map Prod.fst ++ g.toList) T T')
    (heffect : op.effect ok (entries (xs i)) = (r, entries zs)) :
    (op.apply ok m).1 = r ∧
      Holds hash_size (op.apply ok m).2 (T'.free g) (update xs i zs) := by
  obtain ⟨-, hsize, -⟩ := hat.stage.of_unlock
  have hm : m op.key = lookup (entries (xs i)) op.key := by
    rw [h.contents, hhash]
  have hmatch := (h.proper i h₀ hi).effect hhash hm heffect
  have hall := hlocal.trans (T'.free_local i (zs.map Prod.fst) g)
  have hother : ∀ j : ℤ, 0 ≤ j → j < hash_size → j ≠ i → ∀ p ∈ (xs j).map Prod.fst,
      T.nodes p ≠ none ∧ p ∉ (xs i).map Prod.fst := by
    intro j hj₀ hj hji p hp
    refine ⟨?_, h.apart j i hj₀ hj h₀ hi hji p hp⟩
    obtain ⟨x, hx, rfl⟩ := List.mem_map.mp hp
    exact (h.chain j hj₀ hj).links.allocated hx
  have hdist : (zs.map Prod.fst).Nodup := (List.nodup_append.mp hat.nodup).1
  have happart : ∀ j : ℤ, 0 ≤ j → j < hash_size → j ≠ i → ∀ p ∈ (xs j).map Prod.fst,
      p ∉ zs.map Prod.fst := by
    intro j hj₀ hj hji p hp hpz
    obtain ⟨halloc, hout⟩ := hother j hj₀ hj hji p hp
    exact (hall.frame.mine p hpz).elim hout halloc
  refine ⟨hmatch.result, ?_, ?_, ?_, ?_, ?_, ?_⟩
  · refine (forall_update_iff xs fun j l => 0 ≤ j → j < hash_size → Chain (T'.free g) j l).mpr
      ⟨fun _ _ => hat.chain.free hat.nodup, fun j hji hj₀ hj => ?_⟩
    refine ⟨(hall.buckets j hji).trans (h.chain j hj₀ hj).head, (h.chain j hj₀ hj).links.congr ?_⟩
    intro x hx
    obtain ⟨halloc, hout⟩ := hother j hj₀ hj hji x.1 (List.mem_map_of_mem hx)
    exact hall.frame.nodes x.1 hout halloc
  · exact (forall_update_iff xs fun j l => 0 ≤ j → j < hash_size → Proper hash_size j (entries l)).mpr
      ⟨fun _ _ => hmatch.proper, fun j _ => h.proper j⟩
  · refine (forall_update_iff xs fun j l => 0 ≤ j → j < hash_size →
      (T'.free g).bucket_sizes j = l.length).mpr ⟨fun _ _ => ?_, fun j hji hj₀ hj => ?_⟩
    · rw [← hsize]
      cases g <;> rfl
    · rw [hall.sizes j hji]
      exact h.size j hj₀ hj
  · intro j k hj₀ hj hk₀ hk hjk p hp
    by_cases hji : j = i
    · subst hji
      rw [update_self] at hp
      rw [update_of_ne (Ne.symm hjk)]
      exact fun hpk => happart k hk₀ hk (Ne.symm hjk) p hpk hp
    · rw [update_of_ne hji] at hp
      by_cases hki : k = i
      · subst hki
        rw [update_self]
        exact happart j hj₀ hj hji p hp
      · rw [update_of_ne hki]
        exact h.apart j k hj₀ hj hk₀ hk hjk p hp
  · exact (forall_update_iff xs fun j l => 0 ≤ j → j < hash_size → (l.map Prod.fst).Nodup).mpr
      ⟨fun _ _ => hdist, fun j _ => h.distinct j⟩
  · intro key
    by_cases hkey : key = op.key
    · rw [hkey, hhash, update_self]
      exact hmatch.value
    · obtain ⟨hmk, hlook⟩ := hmatch.others key hkey
      rw [hmk, h.contents]
      by_cases hkb : hash key hash_size = i
      · rw [hkb, update_self, hlook]
      · rw [update_of_ne hkb]

/-! ### Memory -/

/-- Where memory makes a difference, the operation returns 1 with it and -1 without. -/
theorem apply_cases (op : Op) (m : Map) :
    (∀ ok ok', op.apply ok m = op.apply ok' m) ∨
    (op.apply true m).1.ret = 1 ∧ op.apply false m = (⟨-1, none⟩, m) := by
  cases op with
  | insert key value =>
    cases hm : m key with
    | none =>
      refine Or.inr ⟨?_, ?_⟩
      · simp only [Op.apply, hm, if_true]
      · simp [Op.apply, hm]
    | some v =>
      refine Or.inl fun ok ok' => ?_
      simp only [Op.apply, hm]
  | read key quick => exact Or.inl fun _ _ => rfl
  | update key value =>
    cases hm : m key with
    | none =>
      refine Or.inl fun ok ok' => ?_
      simp only [Op.apply, hm]
    | some v =>
      refine Or.inr ⟨?_, ?_⟩
      · simp only [Op.apply, hm, if_true]
      · simp [Op.apply, hm]
  | delete key => exact Or.inl fun _ _ => rfl

/-- What is returned tells whether memory was there. -/
theorem apply_of_ret (op : Op) (ok : Bool) (m : Map) :
    op.apply (decide ((op.apply ok m).1.ret ≠ -1)) m = op.apply ok m := by
  rcases apply_cases op m with hsame | ⟨htrue, hfalse⟩
  · exact hsame _ ok
  · cases ok with
    | true => rw [decide_eq_true (by omega)]
    | false =>
      rw [hfalse]
      exact hfalse

/-! ### Sequences of calls -/

/-- A call as it shows from outside, with the answers of the allocator. -/
structure Call where
  op : Op
  allocs : Allocs
  result : Result

/-- One thread that makes calls on a table from `hash_init`. -/
def callSys (ring : Rwlock.Ring) (hash_size : ℕ) : Sys Store Call where
  init S := ∃ memory lock_init, hash_init hash_size memory lock_init = some (some S)
  step S e S' := ∃ fuel, e.op.call ring fuel e.allocs S = some (e.result, S')

/-- The map that the calls have made, oldest first. -/
def contents (tr : List Call) : Map :=
  tr.foldl (fun m e => (e.op.apply (decide (e.result.ret ≠ -1)) m).2) fun _ => none

/-- The store between two calls. -/
structure Rests (ring : Rwlock.Ring) (hash_size : ℕ) (m : Map) (xs : ℤ → List (Ptr × Entry))
    (S : Store) : Prop where
  size_eq : S.hash_size = hash_size
  size_lt : hash_size < 2 ^ 31
  locks : ∀ i, Rwlock.Alone ring 0 0 (S.locks i)
  holds : Holds hash_size m S.table xs

/-- Nothing that was allocated has been touched. -/
structure Same (T T' : Table) : Prop where
  buckets : T'.buckets = T.buckets
  sizes : T'.bucket_sizes = T.bucket_sizes
  nodes : ∀ p, T.nodes p ≠ none → T'.nodes p = T.nodes p

theorem Private.free {own : List Ptr} (h : Private own g.toList T T') (hown : own = []) :
    Same T (T'.free g) := by
  subst hown
  have hnodes : ∀ p, T.nodes p ≠ none → T'.nodes p = T.nodes p := fun p =>
    h.frame.nodes p List.not_mem_nil
  cases g with
  | none => exact ⟨h.buckets, h.sizes, hnodes⟩
  | some q =>
    refine ⟨h.buckets, h.sizes, fun p hp => ?_⟩
    have hq := (h.frame.mine q (List.mem_singleton_self q)).resolve_left List.not_mem_nil
    have hpq : p ≠ q := by
      rintro rfl
      exact hp hq
    exact (update_of_ne hpq _ _).trans (hnodes p hp)

variable {R : ℕ} {p : 0 < R} {S : Store} {A : Allocs}

/-- **Every call returns** what the map says, and leaves what it makes of the map. -/
theorem Rests.call (hpos : 1 ≤ hash_size) (h : Rests (Rwlock.Ring.plain R p) hash_size m xs S)
    (op : Op) (A : Allocs) : ∃ fuel₀ S' zs,
      (∀ fuel, fuel₀ ≤ fuel → op.call (Rwlock.Ring.plain R p) fuel A S
        = some ((op.apply (A.ok S.table op) m).1, S')) ∧
      op.effect (A.ok S.table op) (entries (xs (hash op.key hash_size)))
        = ((op.apply (A.ok S.table op) m).1, entries zs) ∧
      Rests (Rwlock.Ring.plain R p) hash_size (op.apply (A.ok S.table op) m).2
        (update xs (hash op.key hash_size) zs) S' ∧
      ((op.apply (A.ok S.table op) m).1.ret = -1 → Same S.table S'.table) := by
  obtain ⟨rfl, hlt, hlocks, hholds⟩ := h
  obtain ⟨h₀, hi⟩ := hash_bounds op.key hpos (by omega)
  have hbegin := hholds.begin h₀ hi op
  obtain ⟨L, hL, hgranted⟩ := (hlocks (hash op.key S.hash_size)).call op.lockCall
  obtain ⟨e, L', hL', hreleased⟩ := hgranted.release
  obtain ⟨r, g, T, zs, f, hrun, hat, hlocal, hquiet, htracks⟩ :=
    hbegin.run (A := A) (Nat.lt_succ_self _)
  rw [show (xs (hash op.key S.hash_size)).map Prod.fst ++ []
    = (xs (hash op.key S.hash_size)).map Prod.fst from List.append_nil _] at hlocal
  have heffect : op.effect (A.ok S.table op) (entries (xs (hash op.key S.hash_size)))
      = (r, entries zs) := by
    have hf := hat.stage.of_unlock.1
    rcases htracks S.table ⟨rfl, rfl⟩ with hzero | hok
    · rw [effect_of_zero (A.ok S.table op) hf hzero]
    · rwa [hok, Bool.not_not] at hf
  obtain ⟨hresult, hafter⟩ := hholds.after h₀ hi rfl hat hlocal heffect
  rw [hresult]
  refine ⟨(Pc.head.rank (xs (hash op.key S.hash_size))).succ,
    ⟨S.hash_size, T.free g, update S.locks (hash op.key S.hash_size) L'⟩, zs, fun fuel hfuel => ?_,
    heffect, ⟨rfl, hlt, fun j => ?_, hafter⟩, fun hret => ?_⟩
  · rw [Op.call_eq]
    exact lockedCall_granted op rfl h₀ hi hL rfl (runBody_mono hrun hfuel) hL'
  · show Rwlock.Alone _ 0 0 (update S.locks (hash op.key S.hash_size) L' j)
    by_cases hj : j = hash op.key S.hash_size
    · rw [hj, update_self]
      exact hreleased
    · rw [update_of_ne hj]
      exact hlocks j
  · exact (hquiet (decide_eq_false (by omega))).2.free rfl

/-- A new table rests. -/
theorem Rests.init {memory : Bool} {lock_init : ℕ → Bool}
    (h : hash_init hash_size memory lock_init = some (some S)) :
    Rests (Rwlock.Ring.plain R p) hash_size (fun _ => none) (fun _ => []) S := by
  obtain ⟨rfl, hlt⟩ := hash_init_eq h
  refine ⟨rfl, hlt, fun _ => Rwlock.Alone.init, ?_⟩
  exact ⟨fun i _ _ => ⟨rfl, trivial⟩, fun i _ _ => ⟨List.nodup_nil, nofun, nofun⟩, fun i _ _ => rfl,
    fun i j _ _ _ _ _ q hq => absurd hq List.not_mem_nil, fun i _ _ => List.nodup_nil, fun key => rfl⟩

theorem contents_snoc {tr : List Call} {e : Call} (h : e.result = (e.op.apply ok (contents tr)).1) :
    contents (tr ++ [e]) = (e.op.apply ok (contents tr)).2 := by
  rw [contents, List.foldl_append]
  show (e.op.apply (decide (e.result.ret ≠ -1)) (contents tr)).2 = _
  rw [h, apply_of_ret]

/-- Between two calls the store rests, with the map that the calls have made. -/
theorem Rests.of_reach (hpos : 1 ≤ hash_size) {tr : List Call}
    (h : Reach (callSys (Rwlock.Ring.plain R p) hash_size) tr S) :
    ∃ xs, Rests (Rwlock.Ring.plain R p) hash_size (contents tr) xs S := by
  refine h.invariant (I := fun tr S => ∃ xs, Rests (Rwlock.Ring.plain R p) hash_size (contents tr) xs S)
    (fun S hS => ?_) fun tr S e S' hI hstep => ?_
  · obtain ⟨memory, lock_init, hinit⟩ := hS
    exact ⟨_, Rests.init hinit⟩
  · obtain ⟨xs, hrests⟩ := hI
    obtain ⟨fuel, hcall⟩ := hstep
    obtain ⟨fuel₀, S'', zs, hreturns, -, hrests', -⟩ := hrests.call hpos e.op e.allocs
    have hmax := hreturns (max fuel fuel₀) (le_max_right _ _)
    rw [Op.call_eq] at hcall hmax
    rw [lockedCall_mono hcall (le_max_left _ _)] at hmax
    obtain ⟨hresult, rfl⟩ := Prod.mk.inj (Option.some.inj hmax)
    rw [contents_snoc hresult]
    exact ⟨_, hrests'⟩

/-- What the theorem is about: the table holds the map that the calls have made, and every further call
that finds a ticket returns and copies out what the map says, -1 where the memory for a change is
missing; a call that returns -1 touches nothing. -/
structure Refines (ring : Rwlock.Ring) (hash_size : ℕ) (tr : List Call) (S : Store) : Prop where
  holds : ∃ xs, Holds hash_size (contents tr) S.table xs
  returns : ∀ (op : Op) (A : Allocs), op.TicketLeft S → ∃ fuel₀ S',
    (∀ fuel, fuel₀ ≤ fuel → op.call ring fuel A S
      = some ((op.apply (A.ok S.table op) (contents tr)).1, S')) ∧
    ((op.apply (A.ok S.table op) (contents tr)).1.ret = -1 → Same S.table S'.table)

/-- **A run without overflow** is a run on the plain ring. -/
theorem callSys_plain {tr : List Call}
    (h : Reach ((callSys (Rwlock.Ring.wrapping R p) hash_size).restrict fun S e _ => e.op.TicketLeft S)
      tr S) :
    Reach (callSys (Rwlock.Ring.plain R p) hash_size) tr S ∧ ∀ i, Rwlock.Early (S.locks i).lock := by
  refine h.invariant
    (I := fun tr S => Reach (callSys (Rwlock.Ring.plain R p) hash_size) tr S ∧
      ∀ i, Rwlock.Early (S.locks i).lock) (fun S hS => ?_) fun tr S e S' hI hstep => ?_
  · refine ⟨Reach.init hS, fun i => ?_⟩
    obtain ⟨memory, lock_init, hinit⟩ := hS
    rw [(hash_init_eq hinit).1]
    exact Rwlock.Early.init
  · obtain ⟨hreach, hearly⟩ := hI
    obtain ⟨⟨fuel, hcall⟩, hticket⟩ := hstep
    rw [Op.call_eq, lockedCall_wrapping hticket (hearly _)] at hcall
    exact ⟨hreach.step ⟨fuel, by rw [Op.call_eq]; exact hcall⟩, lockedCall_early hticket hearly hcall⟩

/-- **The hash table refines a finite map**, for every size and every sequence of calls in which no
ticket overflows: between calls the table holds the map that they have made; every further call that
finds a ticket returns and copies out what the map says, -1 where the memory for a change is missing,
and a call that returns -1 touches nothing. -/
theorem hash_refines_map (hpos : 1 ≤ hash_size) {tr : List Call}
    (h : Reach ((callSys (Rwlock.Ring.wrapping R p) hash_size).restrict
      fun S e _ => e.op.TicketLeft S) tr S) :
    Refines (Rwlock.Ring.wrapping R p) hash_size tr S := by
  obtain ⟨hreach, hearly⟩ := callSys_plain h
  obtain ⟨xs, hrests⟩ := Rests.of_reach hpos hreach
  refine ⟨⟨xs, hrests.holds⟩, fun op A hticket => ?_⟩
  obtain ⟨fuel₀, S', -, hcall, -, -, hsame⟩ := hrests.call hpos op A
  refine ⟨fuel₀, S', fun fuel hfuel => ?_, hsame⟩
  rw [Op.call_eq, lockedCall_wrapping hticket (hearly _), ← Op.call_eq]
  exact hcall fuel hfuel

/-- Memory at one address, or none. -/
def Allocs.single (p : Ptr) (ok : Bool) : Allocs where
  malloc T := if ok = true ∧ T.nodes p = none then some p else none
  fresh T q hq := by
    split at hq
    · rename_i hfree
      cases hq
      exact hfree.2
    · cases hq
  key := true
  value := ok

theorem hash_init_one : hash_init 1 true (fun _ => true)
    = some (some ⟨1, Table.init, fun _ => Rwlock.State.init⟩) := by
  rw [hash_init, initFrom, initFrom]
  simp [Table.init]

/-- The calls are made one after the other, as long as there are tickets. -/
def playCalls (ring : Rwlock.Ring) (fuel : ℕ) (tr : List Call) (S : Store) :
    List (Op × Allocs) → Option (List Call × Store)
  | [] => some (tr, S)
  | (op, A) :: calls =>
    if op.TicketLeft S then
      (op.call ring fuel A S).bind fun (r, S') => playCalls ring fuel (tr ++ [⟨op, A, r⟩]) S' calls
    else none

theorem reach_of_playCalls {ring : Rwlock.Ring} {fuel : ℕ} {tr tr' : List Call} {S S' : Store}
    {calls : List (Op × Allocs)}
    (h : Reach ((callSys ring hash_size).restrict fun S e _ => e.op.TicketLeft S) tr S)
    (hplay : playCalls ring fuel tr S calls = some (tr', S')) :
    Reach ((callSys ring hash_size).restrict fun S e _ => e.op.TicketLeft S) tr' S' := by
  induction calls generalizing tr S with
  | nil =>
    cases hplay
    exact h
  | cons call calls ih =>
    unfold playCalls at hplay
    split at hplay
    · rename_i hticket
      obtain ⟨⟨r, S₁⟩, hcall, hrest⟩ := Option.bind_eq_some_iff.mp hplay
      exact ih (h.step ⟨⟨fuel, hcall⟩, hticket⟩) hrest
    · cases hplay

/-- Two entries in one bucket, an insertion that finds its key and a deletion. -/
theorem hash_refines_map_chain : ∃ tr S, tr.map (fun e : Call => e.result.ret) = [1, 1, 0, 1] ∧
    Refines (Rwlock.Ring.wrapping 1 Nat.one_pos) 1 tr S := by
  have hinit : Reach ((callSys (Rwlock.Ring.wrapping 1 Nat.one_pos) 1).restrict
      fun S e _ => e.op.TicketLeft S) [] ⟨1, Table.init, fun _ => Rwlock.State.init⟩ :=
    Reach.init ⟨true, fun _ => true, hash_init_one⟩
  have hcalls : (playCalls (Rwlock.Ring.wrapping 1 Nat.one_pos) 30 []
      ⟨1, Table.init, fun _ => Rwlock.State.init⟩ [(.insert [] [], .single 0 true),
        (.insert [⟨65, by decide⟩] [], .single 1 true), (.insert [] [], .single 2 true),
        (.delete [], .single 2 true)]).map (fun q => q.1.map (fun e : Call => e.result.ret))
      = some [1, 1, 0, 1] := by decide +kernel
  obtain ⟨⟨tr, S⟩, hplay, hret⟩ := Option.map_eq_some_iff.mp hcalls
  exact ⟨tr, S, hret, hash_refines_map (le_refl 1) (reach_of_playCalls hinit hplay)⟩

/-! ### Tickets that overflow -/

/-- An empty table with one bucket, whose lock is free and has `n` as its next ticket. -/
structure Store.Quiet (S : Store) (n : ℤ) : Prop where
  hash_size : S.hash_size = 1
  table : S.table = Table.init
  lock : S.locks 0 = Rwlock.State.quiet n

theorem hash_one (key : Str) : hash key 1 = 0 := by
  rw [hash, Nat.mod_one]
  exact CInt.toInt_of_lt (by decide)

/-- A deletion finds nothing and draws a ticket. -/
theorem Store.Quiet.delete {ring : Rwlock.Ring} {n : ℤ} (h : S.Quiet n) (hsucc : ring.succ n ≠ n)
    (A : Allocs) (key : Str) :
    ∃ S', hash_delete ring 3 A S key = some (⟨0, none⟩, S') ∧ S'.Quiet (ring.succ n) := by
  have hhash : hash key S.hash_size = 0 := by rw [h.hash_size, hash_one]
  have hsize : (0 : ℤ) < S.hash_size := by simp [h.hash_size]
  have hbody : runBody (.delete key) 0 A 3 S.table .head = some (⟨0, none⟩, none, S.table) := by
    rw [h.table]
    rfl
  have hlock : (S.locks 0).next ring () (.call .write) = _ := h.lock ▸ Rwlock.quiet_next () hsucc
  exact ⟨_, lockedCall_granted (.delete key) hhash (le_refl 0) hsize hlock rfl hbody
    (Rwlock.writing_next ring () _), h.hash_size, h.table,
    update_self (0 : ℤ) (Rwlock.State.quiet (ring.succ n)) S.locks⟩

/-- Any number of deletions. -/
theorem exists_quiet_store (p : 0 < R) (m : ℕ) : ∃ tr S,
    Reach (callSys (Rwlock.Ring.wrapping R p) 1) tr S ∧ S.Quiet (Rwlock.ticketOf m) := by
  induction m with
  | zero =>
    refine ⟨[], _, Reach.init ⟨true, fun _ => true, hash_init_one⟩, rfl, rfl, ?_⟩
    rw [← Rwlock.wrapping_iterate (p := p)]
    rfl
  | succ m ih =>
    obtain ⟨tr, S, hreach, hquiet⟩ := ih
    obtain ⟨S', hcall, hquiet'⟩ := hquiet.delete (Rwlock.wrapping_succ_ne (p := p) _) (.single 0 true) []
    have hstep : (callSys (Rwlock.Ring.wrapping R p) 1).step S ⟨.delete [], .single 0 true, ⟨0, none⟩⟩ S' :=
      ⟨3, hcall⟩
    rw [← Rwlock.addInt_ticketOf]
    exact ⟨_, S', hreach.step hstep, hquiet'⟩

/-- The lock of a bucket in a read with the ticket -1 and a deletion after it. -/
theorem quiet_read_write : (((Rwlock.State.quiet (-1) : Rwlock.State Unit).next
    (Rwlock.Ring.wrapping 2 (by decide)) () (.call .read)).bind fun q =>
      (q.2.next (Rwlock.Ring.wrapping 2 (by decide)) () .readUnlock).bind fun q' =>
        (q'.2.next (Rwlock.Ring.wrapping 2 (by decide)) () (.call .write)).map fun q'' =>
          (q.1.result, q''.1.result)) = some (some 0, none) := by decide +kernel

/-- **A call that hangs.**  One thread deletes `2 ^ 32 - 1` times from an empty table with one bucket;
each deletion draws a ticket.  Then it reads with the ticket -1, which is the mark of an empty slot:
`find_valid_head` stops there for ever, and the next deletion waits for a head that nobody is. -/
theorem hash_refines_map_hangs : ∃ tr S,
    Reach (callSys (Rwlock.Ring.wrapping 2 (by decide)) 1) tr S ∧
      ∀ fuel A key, hash_delete (Rwlock.Ring.wrapping 2 (by decide)) fuel A S key = none := by
  obtain ⟨tr, S, hreach, hquiet⟩ := exists_quiet_store (R := 2) (by decide) (2 ^ 32 - 1)
  have hlast : Rwlock.ticketOf (2 ^ 32 - 1) = -1 := by decide +kernel
  rw [hlast] at hquiet
  obtain ⟨⟨e, L⟩, hread, hrest⟩ := Option.bind_eq_some_iff.mp quiet_read_write
  obtain ⟨⟨e', L'⟩, hunlock, hrest⟩ := Option.bind_eq_some_iff.mp hrest
  obtain ⟨⟨e'', L''⟩, hwrite, hresults⟩ := Option.map_eq_some_iff.mp hrest
  obtain ⟨hgranted, hwaits⟩ := Prod.mk.inj hresults
  have hhash : ∀ key, hash key S.hash_size = 0 := fun key => by rw [hquiet.hash_size, hash_one]
  have hsize : (0 : ℤ) < S.hash_size := by simp [hquiet.hash_size]
  have hbody : runBody (.read [] false) 0 (.single 0 true) 3 S.table .head
      = some (⟨0, none⟩, none, S.table) := by
    rw [hquiet.table]
    rfl
  rw [← hquiet.lock] at hread
  have hstep : (callSys (Rwlock.Ring.wrapping 2 (by decide)) 1).step S
      ⟨.read [] false, .single 0 true, ⟨0, none⟩⟩ { S with locks := update S.locks 0 L' } :=
    ⟨3, lockedCall_granted (.read [] false) (hhash []) (le_refl 0) hsize hread hgranted hbody hunlock⟩
  have hlock : update S.locks 0 L' 0 = L' := update_self _ _ _
  rw [← hlock] at hwrite
  exact ⟨_, _, hreach.step hstep, fun fuel A key =>
    lockedCall_waits (.delete key) (hhash key) hwrite hwaits⟩

end SystemProgramming.Hashtable
