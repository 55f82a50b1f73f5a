import SystemProgramming.Dirtree.Match
import SystemProgramming.Lib.Prefixes

/-!
# What the matcher takes a pattern for

`submatch` goes through a pattern item by item: a character or a group, starred or not.  It looks at
the inside of a group one character after the other, so stars and parentheses in there are compared
like any other character, and a starred `?` repeats question marks.  `itemsLang` is the language it
decides.  The matcher is verified with the calls of `find_close` and the step over a round of a group
left open, so that they can be filled in with or without checks.

* `decides_submatch`: `submatch` decides whether the items match at the start of the name.
* `decides_match`: `match` decides whether they match somewhere in it.
-/

namespace SystemProgramming.Dirtree

open Exec Lang Computability

/-- A character that is not part of the syntax of groups and stars. -/
abbrev Plain := {c : CChar // c ≠ lpar ∧ c ≠ rpar ∧ c ≠ star}

/-- `find_close` finds the `)` behind `body`. -/
def Closed (body : Str) : Prop :=
  ∀ rest, findCloseFrom (body ++ rpar :: rest) 1 = some (rpar :: rest)

/-- What `submatch` treats as a unit. -/
inductive Item where
  | char (c : Plain) (starred : Bool)
  | group (body : Str) (nonempty : body ≠ []) (closed : Closed body) (starred : Bool)

/-- The pattern character `g` stands for the character `c` of the name. -/
def Stands (g c : CChar) : Prop := g = question ∨ c = g

instance (g c : CChar) : Decidable (Stands g c) := inferInstanceAs (Decidable (_ ∨ _))

/-- The words of a pattern character are one character long. -/
def charLang (g : CChar) : Language CChar := {w | ∃ c, w = [c] ∧ Stands g c}

/-- One round through a group. -/
def insideLang (body : Str) : Language CChar := (body.map charLang).prod

def starText : Bool → Str
  | true => [star]
  | false => []

def Item.text : Item → Str
  | char c starred => c.1 :: starText starred
  | group body _ _ starred => lpar :: (body ++ rpar :: starText starred)

def Item.lang : Item → Language CChar
  | char c false => charLang c.1
  | char c true => {[c.1]}∗
  | group body _ _ false => insideLang body
  | group body _ _ true => (insideLang body)∗

/-- The text of a sequence of items. -/
def itemsText (is : List Item) : Str := (is.map Item.text).flatten

/-- The language that the matcher decides. -/
def itemsLang (is : List Item) : Language CChar := (is.map Item.lang).prod

@[simp] theorem itemsText_nil : itemsText [] = [] := rfl

@[simp] theorem itemsText_cons (i : Item) (is : List Item) :
    itemsText (i :: is) = i.text ++ itemsText is := rfl

@[simp] theorem itemsText_append (is js : List Item) :
    itemsText (is ++ js) = itemsText is ++ itemsText js := by
  simp only [itemsText, List.map_append, List.flatten_append]

@[simp] theorem itemsLang_nil : itemsLang [] = 1 := rfl

@[simp] theorem itemsLang_cons (i : Item) (is : List Item) :
    itemsLang (i :: is) = i.lang * itemsLang is := List.prod_cons

@[simp] theorem itemsLang_append (is js : List Item) :
    itemsLang (is ++ js) = itemsLang is * itemsLang js := by
  simp only [itemsLang, List.map_append, List.prod_append]

theorem Item.text_ne_nil (i : Item) : i.text ≠ [] := by
  cases i <;> exact List.cons_ne_nil _ _

theorem group_text_append {body : Str} {hne : body ≠ []} {hclosed : Closed body} {starred : Bool}
    (p : Str) : (Item.group body hne hclosed starred).text ++ p
      = lpar :: (body ++ rpar :: (starText starred ++ p)) := by
  simp only [Item.text, List.cons_append, List.append_assoc]

/-- No item starts with a star, so a star in front of items belongs to what is before it. -/
theorem head_itemsText_ne_star (is : List Item) : (itemsText is).head? ≠ some star := by
  cases is with
  | nil => exact Option.some_ne_none star ∘ Eq.symm
  | cons i is =>
    cases i with
    | char c starred => exact fun h => c.2.2.2 (Option.some.inj h)
    | group body _ _ starred => exact fun h => absurd (Option.some.inj h) (by decide)

theorem hasPrefix_char_mul {g : CChar} {B : Language CChar} {s : Str} :
    HasPrefix (charLang g * B) s ↔ ∃ c v, s = c :: v ∧ Stands g c ∧ HasPrefix B v := by
  rw [hasPrefix_mul]
  constructor
  · intro h
    obtain ⟨u, v, rfl, ⟨c, rfl, hc⟩, hv⟩ := h
    exact ⟨c, v, rfl, hc, hv⟩
  · intro h
    obtain ⟨c, v, rfl, hc, hv⟩ := h
    exact ⟨[c], v, rfl, ⟨c, rfl, hc⟩, hv⟩

/-! ### Groups -/

variable {body close s : Str} {B : Language CChar}

/-- What is left of the name after one round through a group. -/
def takes : Str → Str → Option Str
  | [], s => some s
  | _ :: _, [] => none
  | g :: body, c :: s => if Stands g c then takes body s else none

theorem takes_length {v : Str} (h : takes body s = some v) :
    v = s.drop body.length ∧ v.length + body.length = s.length := by
  induction body generalizing s with
  | nil =>
    cases h
    exact ⟨rfl, rfl⟩
  | cons g body ih =>
    cases s with
    | nil => cases h
    | cons c s =>
      rw [takes] at h
      split at h
      · obtain ⟨hv, hlen⟩ := ih h
        exact ⟨hv, by rw [List.length_cons, List.length_cons]; omega⟩
      · cases h

/-- One round through a group consumes a fixed part of the name. -/
theorem hasPrefix_inside_mul :
    HasPrefix (insideLang body * B) s ↔ ∃ v, takes body s = some v ∧ HasPrefix B v := by
  induction body generalizing s with
  | nil =>
    rw [insideLang, List.map_nil, List.prod_nil, one_mul]
    constructor
    · exact fun h => ⟨s, rfl, h⟩
    · intro h
      obtain ⟨v, hv, h⟩ := h
      cases hv
      exact h
  | cons g body ih =>
    have hprod : insideLang (g :: body) * B = charLang g * (insideLang body * B) := by
      rw [insideLang, List.map_cons, List.prod_cons, mul_assoc]
      rfl
    rw [hprod, hasPrefix_char_mul]
    constructor
    · intro h
      obtain ⟨c, v, rfl, hc, hv⟩ := h
      obtain ⟨w, hw, hB⟩ := ih.mp hv
      refine ⟨w, ?_, hB⟩
      show (if Stands g c then takes body v else none) = some w
      rw [if_pos hc, hw]
    · intro h
      obtain ⟨w, hw, hB⟩ := h
      cases s with
      | nil => cases hw
      | cons c s =>
        rw [takes] at hw
        split at hw
        · rename_i hc
          exact ⟨c, s, rfl, hc, ih.mpr ⟨w, hw, hB⟩⟩
        · cases hw

theorem hasPrefix_inside_kstar_mul :
    HasPrefix ((insideLang body)∗ * B) s ↔
      HasPrefix B s ∨ ∃ v, takes body s = some v ∧ HasPrefix ((insideLang body)∗ * B) v := by
  rw [hasPrefix_kstar_mul, ← hasPrefix_mul, hasPrefix_inside_mul]

theorem cons_append_ne (g : CChar) : g :: (body ++ close) ≠ close := by
  intro h
  have hlen := congrArg List.length h
  rw [List.length_cons, List.length_append] at hlen
  omega

/-- `match_group_once` returns the length of the group, or -1. -/
theorem matchGroupOnce_eq (k : ℤ) :
    matchGroupOnce s (body ++ close) close k
      = match takes body s with
        | some _ => k + body.length
        | none => -1 := by
  induction body generalizing s k with
  | nil =>
    show matchGroupOnce s close close k = k + (0 : ℕ)
    rw [Int.natCast_zero, Int.add_zero]
    cases close with
    | nil =>
      unfold matchGroupOnce
      rw [if_pos rfl]
    | cons d close =>
      unfold matchGroupOnce
      rw [if_pos rfl]
  | cons g body ih =>
    show matchGroupOnce s (g :: (body ++ close)) close k = _
    unfold matchGroupOnce
    rw [if_neg (cons_append_ne g)]
    cases s with
    | nil => rfl
    | cons c s =>
      show (if c ≠ g ∧ g ≠ question then -1 else _) = _
      rw [takes]
      by_cases hc : Stands g c
      · have hno : ¬ (c ≠ g ∧ g ≠ question) := by
          unfold Stands at hc
          tauto
        rw [if_neg hno, if_pos hc, ih]
        cases takes body s with
        | none => rfl
        | some v =>
          show k + 1 + (body.length : ℤ) = k + ((g :: body).length : ℕ)
          rw [List.length_cons]
          omega
      · have hyes : c ≠ g ∧ g ≠ question := by
          unfold Stands at hc
          tauto
        rw [if_pos hyes, if_neg hc]

/-- The comparison with a group that is not repeated goes through exactly when a round does. -/
theorem compareInner_spec (k : ℤ) :
    (∀ v, takes body s = some v →
      compareInner (k + body.length) k s (body ++ close) = (k + body.length, v)) ∧
    (takes body s = none →
      (compareInner (k + body.length) k s (body ++ close)).1 ≠ k + body.length) := by
  induction body generalizing s k with
  | nil =>
    constructor
    · intro v hv
      cases hv
      rw [List.length_nil, Int.natCast_zero, Int.add_zero]
      have hstop : ∀ x : CChar, ∀ c : CChar, ¬ (k < k ∧ (x = question ∨ c = x)) :=
        fun x c h => Int.lt_irrefl k h.1
      cases s with
      | nil => rfl
      | cons c s =>
        cases close with
        | nil => rfl
        | cons x close => exact if_neg (hstop x c)
    · intro h
      cases h
  | cons g body ih =>
    have hlen : k + ((g :: body).length : ℕ) = k + 1 + body.length := by
      rw [List.length_cons]
      omega
    rw [hlen]
    cases s with
    | nil =>
      constructor
      · intro v hv
        cases hv
      · intro _
        show k ≠ k + 1 + body.length
        omega
    | cons c s =>
      show (∀ v, (if Stands g c then takes body s else none) = some v →
          (if k < k + 1 + body.length ∧ (g = question ∨ c = g) then _ else _) = _) ∧
        ((if Stands g c then takes body s else none) = none →
          (if k < k + 1 + body.length ∧ (g = question ∨ c = g) then _ else _ : ℤ × Str).1 ≠ _)
      by_cases hc : Stands g c
      · have hgo : k < k + 1 + body.length ∧ (g = question ∨ c = g) := ⟨by omega, hc⟩
        rw [if_pos hc, if_pos hgo]
        exact ih (k + 1)
      · have hstop : ¬ (k < k + 1 + body.length ∧ (g = question ∨ c = g)) := fun h => hc h.2
        rw [if_neg hc, if_neg hstop]
        constructor
        · intro v hv
          cases hv
        · intro _
          show k ≠ k + 1 + body.length
          omega

/-! ### The matcher with its parts left open -/

section Parts

variable {σ : Type} (find_close : Str → Exec σ (Option Str)) (advance : Str → ℤ → Exec σ Str)

/-- `skipRest` over `find_close`. -/
def skipRestWith : ℕ → Str → Exec σ Bool
  | _, [] => pure true
  | 0, _ :: _ => timeout
  | fuel + 1, x :: p =>
    if x = lpar then do
      match ← find_close (x :: p) with
      | some (_ :: c :: after) => if c = star then skipRestWith fuel after else pure false
      | some _ => pure false
      | none => pure false
    else match p with
      | [] => pure false
      | c :: p => if c = star then skipRestWith fuel p else pure false

/-- `groupLoop` over `ts += advance`. -/
def groupLoopWith (rest : Str → Exec σ Bool) (start close : Str) : ℕ → Str → Exec σ Bool
  | 0, _ => timeout
  | fuel + 1, ts => do
    if ← rest ts then
      return true
    let count := matchGroupOnce ts start close 0
    if count < 0 then
      return false
    groupLoopWith rest start close fuel (← advance ts count)

/-- `submatch` over both. -/
def submatchWith : ℕ → Str → Str → Exec σ Bool
  | _, _, [] => pure true
  | 0, _, _ :: _ => timeout
  | fuel + 1, [], x :: p => skipRestWith find_close (fuel + 1) (x :: p)
  | fuel + 1, c :: s, x :: p =>
    if x = lpar then do
      match ← find_close (x :: p) with
      | none => return false
      | some p_closed =>
        let len : ℤ := p.length - p_closed.length
        let after := p_closed.tail
        if after.head? = some star then
          groupLoopWith advance (fun ts => submatchWith fuel ts after.tail) p p_closed (fuel + 1)
            (c :: s)
        else
          let (k, ts) := compareInner len 0 (c :: s) p
          if k ≠ len then
            return false
          submatchWith fuel ts after
    else if p.head? = some star then do
      if ← submatchWith fuel (c :: s) p.tail then return true
      charLoop (fun s => submatchWith fuel s p.tail) x (c :: s)
    else if x ≠ question ∧ c ≠ x then
      return false
    else submatchWith fuel s p

/-- `matchFrom` over both. -/
def matchFromWith (fuel : ℕ) (pattern : Str) : Str → Exec σ Bool
  | [] => do
    if ← submatchWith find_close advance fuel [] pattern then return true
    return false
  | c :: str => do
    if ← submatchWith find_close advance fuel (c :: str) pattern then return true
    matchFromWith fuel pattern str

end Parts

variable {σ : Type} {st : σ} {fuel : ℕ}

/-- `ts += advance` -/
def plainAdvance (ts : Str) (n : ℤ) : Exec σ Str := pure (ts.drop n.toNat)

theorem skipRestWith_plain (fuel : ℕ) (p : Str) :
    (skipRestWith findClose fuel p : Exec σ Bool) = skipRest fuel p := by
  induction fuel generalizing p with
  | zero => cases p <;> rfl
  | succ fuel ih =>
    cases p with
    | nil => rfl
    | cons x p =>
      simp only [skipRestWith, ih]
      rfl

theorem groupLoopWith_plain (rest : Str → Exec σ Bool) (start close : Str) (fuel : ℕ) (ts : Str) :
    groupLoopWith plainAdvance rest start close fuel ts = groupLoop rest start close fuel ts := by
  induction fuel generalizing ts with
  | zero => rfl
  | succ fuel ih =>
    simp only [groupLoopWith, groupLoop, ← ih]
    rfl

/-- The source's matcher is the one with the parts of the source. -/
theorem submatchWith_plain (fuel : ℕ) (s p : Str) :
    (submatchWith findClose plainAdvance fuel s p : Exec σ Bool) = submatch fuel s p := by
  induction fuel generalizing s p with
  | zero => cases p <;> cases s <;> rfl
  | succ fuel ih =>
    cases p with
    | nil => cases s <;> rfl
    | cons x p =>
      cases s with
      | nil => simp only [submatchWith, submatch, skipRestWith_plain]
      | cons c s =>
        simp only [submatchWith, groupLoopWith_plain, ih]
        rfl

theorem matchFromWith_plain (fuel : ℕ) (pattern s : Str) :
    (matchFromWith findClose plainAdvance fuel pattern s : Exec σ Bool)
      = matchFrom fuel pattern s := by
  induction s with
  | nil => simp only [matchFromWith, matchFrom, submatchWith_plain]
  | cons c s ih => simp only [matchFromWith, matchFrom, submatchWith_plain, ih]

/-- What the matcher relies on: `find_close` finds the end of a group, and a step that stays within the
name is made. -/
structure PartsOk (find_close : Str → Exec σ (Option Str)) (advance : Str → ℤ → Exec σ Str) (st : σ) :
    Prop where
  closes : ∀ body rest, Closed body →
    Gives (find_close (lpar :: (body ++ rpar :: rest))) st (some (rpar :: rest))
  advances : ∀ ts n, 0 ≤ n → n ≤ (ts.length : ℤ) → Gives (advance ts n) st (ts.drop n.toNat)

theorem partsOk_plain : PartsOk findClose plainAdvance st where
  closes body rest h := by
    rw [← h rest]
    exact gives_pure _
  advances _ _ _ _ := gives_pure _

/-! ### The loops of `submatch` -/

variable {find_close : Str → Exec σ (Option Str)} {advance : Str → ℤ → Exec σ Str}
  {rest : Str → Exec σ Bool}

/-- Where a star is asked for and there is none, at the end of the name. -/
theorem decides_no_star {is : List Item} {x : CChar → Str → Exec σ Bool} {P : Prop} (h : ¬ P) :
    Decides (match itemsText is with
      | [] => pure false
      | c :: p => if c = star then x c p else pure false) st P := by
  have hhead := head_itemsText_ne_star is
  cases his : itemsText is with
  | nil => exact decides_false h
  | cons c p =>
    rw [his] at hhead
    show Decides (if c = star then _ else _) st _
    rw [if_neg fun heq => hhead (congrArg some heq)]
    exact decides_false h

/-- At the end of the name the pattern matches when all its items are starred. -/
theorem decides_skipRest (hparts : PartsOk find_close advance st) (is : List Item)
    (hfuel : (itemsText is).length ≤ fuel) :
    Decides (skipRestWith find_close fuel (itemsText is)) st (HasPrefix (itemsLang is) []) := by
  induction is generalizing fuel with
  | nil =>
    rw [itemsText_nil, itemsLang_nil]
    unfold skipRestWith
    exact decides_true hasPrefix_one
  | cons i is ih =>
    have hpos := List.length_pos_iff.mpr i.text_ne_nil
    rw [itemsText_cons, List.length_append] at hfuel
    rw [itemsText_cons, itemsLang_cons]
    obtain ⟨fuel, rfl⟩ : ∃ n, fuel = n + 1 := ⟨fuel - 1, by omega⟩
    cases i with
    | char c starred =>
      cases starred with
      | false =>
        show Decides (skipRestWith find_close (fuel + 1) (c.1 :: itemsText is)) st
          (HasPrefix (charLang c.1 * _) [])
        unfold skipRestWith
        rw [if_neg c.2.1]
        apply decides_no_star
        rw [hasPrefix_char_mul]
        exact nofun
      | true =>
        show Decides (skipRestWith find_close (fuel + 1) (c.1 :: star :: itemsText is)) st _
        unfold skipRestWith
        rw [if_neg c.2.1]
        show Decides (if star = star then _ else _) st _
        rw [if_pos rfl]
        have hlen : (Item.text (.char c true)).length = 2 := rfl
        exact (ih (by omega)).congr hasPrefix_kstar_mul_nil.symm
    | group body hne hclosed starred =>
      rw [group_text_append]
      unfold skipRestWith
      rw [if_pos rfl]
      apply (hparts.closes body _ hclosed).decides
      cases starred with
      | false =>
        have hno : ¬ HasPrefix (insideLang body * itemsLang is) [] := by
          rw [hasPrefix_inside_mul]
          intro h
          obtain ⟨v, hv, -⟩ := h
          cases body with
          | nil => exact hne rfl
          | cons g body => cases hv
        have hhead := head_itemsText_ne_star is
        cases his : itemsText is with
        | nil => exact decides_false hno
        | cons c p =>
          rw [his] at hhead
          show Decides (if c = star then _ else _) st _
          rw [if_neg fun h => hhead (congrArg some h)]
          exact decides_false hno
      | true =>
        show Decides (if star = star then _ else _) st _
        rw [if_pos rfl]
        exact (ih (by omega)).congr hasPrefix_kstar_mul_nil.symm

/-- The repetitions of one character. -/
theorem decides_charLoop {c : CChar} (hrest : ∀ v, v.length < s.length →
      Decides (rest v) st (HasPrefix B v)) :
    Decides (charLoop rest c s) st
      (∃ v, s = c :: v ∧ HasPrefix (({[c]} : Language CChar)∗ * B) v) := by
  induction s with
  | nil => exact decides_false nofun
  | cons d s ih =>
    unfold charLoop
    by_cases hd : d = c
    · subst hd
      rw [if_pos rfl]
      have hstep := (hrest s (by simp)).or (ih fun v hv => hrest v (by simp; omega))
      apply hstep.congr
      constructor
      · intro h
        refine ⟨s, rfl, hasPrefix_kstar_mul.mpr ?_⟩
        cases h with
        | inl h => exact Or.inl h
        | inr h =>
          obtain ⟨v, rfl, hv⟩ := h
          exact Or.inr ⟨[d], v, rfl, rfl, hv⟩
      · intro h
        obtain ⟨v, hs, hv⟩ := h
        cases hs
        cases hasPrefix_kstar_mul.mp hv with
        | inl h => exact Or.inl h
        | inr h =>
          obtain ⟨u, w, hsw, hu, hw⟩ := h
          cases hu
          exact Or.inr ⟨w, hsw, hw⟩
    · rw [if_neg hd]
      apply decides_false
      intro h
      obtain ⟨v, hs, -⟩ := h
      cases hs
      exact hd rfl

/-- The repetitions of a group. -/
theorem decides_groupLoop (hparts : PartsOk find_close advance st) (hbody : body ≠ [])
    (hfuel : s.length < fuel)
    (hrest : ∀ v, v.length ≤ s.length → Decides (rest v) st (HasPrefix B v)) :
    Decides (groupLoopWith advance rest (body ++ close) close fuel s) st
      (HasPrefix ((insideLang body)∗ * B) s) := by
  induction fuel generalizing s with
  | zero => omega
  | succ fuel ih =>
    unfold groupLoopWith
    apply Decides.congr _ hasPrefix_inside_kstar_mul.symm
    apply (hrest s (Nat.le_refl _)).or
    rw [matchGroupOnce_eq]
    cases htakes : takes body s with
    | none => exact decides_false nofun
    | some v =>
      obtain ⟨hv, hlen⟩ := takes_length htakes
      have hpos := List.length_pos_iff.mpr hbody
      have hstep := hparts.advances s ((0 : ℤ) + body.length) (by omega) (by omega)
      show Decides (if (0 : ℤ) + body.length < 0 then _ else
        advance s ((0 : ℤ) + body.length) >>= _) st _
      rw [if_neg (by omega)]
      apply hstep.decides
      have hdrop : s.drop ((0 : ℤ) + body.length).toNat = v := by
        rw [hv, Int.zero_add, Int.toNat_natCast]
      rw [hdrop]
      apply (ih (by omega) fun w hw => hrest w (by omega)).congr
      constructor
      · exact fun h => ⟨v, rfl, h⟩
      · intro h
        obtain ⟨w, hw, h⟩ := h
        cases hw
        exact h

/-! ### The matcher, item by item -/

section Elements

/-! One lemma per kind of item, in front of a rest `p` whose language is `B`. -/

variable {p : Str} {c : CChar}

theorem decides_char {x : Plain} (hp : p.head? ≠ some star)
    (hrest : Decides (submatchWith find_close advance fuel s p) st (HasPrefix B s)) :
    Decides (submatchWith find_close advance (fuel + 1) (c :: s) (x.1 :: p)) st
      (HasPrefix (charLang x.1 * B) (c :: s)) := by
  unfold submatchWith
  rw [if_neg x.2.1, if_neg hp]
  apply Decides.congr _ hasPrefix_char_mul.symm
  by_cases hc : Stands x.1 c
  · have hgo : ¬ (x.1 ≠ question ∧ c ≠ x.1) := by
      unfold Stands at hc
      tauto
    rw [if_neg hgo]
    apply hrest.congr
    constructor
    · exact fun h => ⟨c, s, rfl, hc, h⟩
    · intro h
      obtain ⟨d, v, hs, -, hv⟩ := h
      cases hs
      exact hv
  · have hstop : x.1 ≠ question ∧ c ≠ x.1 := by
      unfold Stands at hc
      tauto
    rw [if_pos hstop]
    apply decides_false
    intro h
    obtain ⟨d, v, hs, hd, -⟩ := h
    cases hs
    exact hc hd

theorem decides_starred_char {x : Plain}
    (hrest : ∀ v, v.length ≤ (c :: s).length →
      Decides (submatchWith find_close advance fuel v p) st (HasPrefix B v)) :
    Decides (submatchWith find_close advance (fuel + 1) (c :: s) (x.1 :: star :: p)) st
      (HasPrefix (({[x.1]} : Language CChar)∗ * B) (c :: s)) := by
  unfold submatchWith
  rw [if_neg x.2.1]
  show Decides (if some star = some star then _ else _) st _
  rw [if_pos rfl]
  have hloop : Decides (charLoop (fun s => submatchWith find_close advance fuel s p) x.1 (c :: s)) st
      (∃ v, c :: s = x.1 :: v ∧ HasPrefix (({[x.1]} : Language CChar)∗ * B) v) :=
    decides_charLoop fun v hv => hrest v (Nat.le_of_lt hv)
  apply ((hrest (c :: s) (Nat.le_refl _)).or hloop).congr
  rw [hasPrefix_kstar_mul]
  constructor
  · intro h
    cases h with
    | inl h => exact Or.inl h
    | inr h =>
      obtain ⟨v, hs, hv⟩ := h
      exact Or.inr ⟨[x.1], v, hs, rfl, hv⟩
  · intro h
    cases h with
    | inl h => exact Or.inl h
    | inr h =>
      obtain ⟨u, v, hs, hu, hv⟩ := h
      cases hu
      exact Or.inr ⟨v, hs, hv⟩

/-- The length of a group's body, as the source computes it. -/
theorem body_len : ((body ++ rpar :: p).length : ℤ) - (rpar :: p).length = body.length := by
  rw [List.length_append]
  omega

theorem decides_group (hparts : PartsOk find_close advance st) (hclosed : Closed body)
    (hp : p.head? ≠ some star)
    (hrest : ∀ v, v.length ≤ (c :: s).length →
      Decides (submatchWith find_close advance fuel v p) st (HasPrefix B v)) :
    Decides (submatchWith find_close advance (fuel + 1) (c :: s) (lpar :: (body ++ rpar :: p))) st
      (HasPrefix (insideLang body * B) (c :: s)) := by
  unfold submatchWith
  rw [if_pos rfl]
  apply (hparts.closes body p hclosed).decides
  apply Decides.congr _ hasPrefix_inside_mul.symm
  show Decides (if p.head? = some star then _ else _) st _
  rw [if_neg hp, body_len]
  have hinner := @compareInner_spec body (rpar :: p) (c :: s) 0
  rw [Int.zero_add] at hinner
  cases htakes : takes body (c :: s) with
  | none =>
    have hk := hinner.2 htakes
    cases hcmp : compareInner body.length 0 (c :: s) (body ++ rpar :: p) with
    | mk k ts =>
      rw [hcmp] at hk
      show Decides (if k ≠ body.length then _ else _) st _
      rw [if_pos hk]
      exact decides_false nofun
  | some v =>
    rw [hinner.1 v htakes]
    show Decides (if (body.length : ℤ) ≠ body.length then _ else _) st _
    rw [if_neg fun h => h rfl]
    obtain ⟨-, hlen⟩ := takes_length htakes
    apply (hrest v (by omega)).congr
    constructor
    · exact fun h => ⟨v, rfl, h⟩
    · intro h
      obtain ⟨w, hw, h⟩ := h
      cases hw
      exact h

theorem decides_starred_group (hparts : PartsOk find_close advance st) (hbody : body ≠ [])
    (hclosed : Closed body) (hfuel : s.length < fuel)
    (hrest : ∀ v, v.length ≤ (c :: s).length →
      Decides (submatchWith find_close advance fuel v p) st (HasPrefix B v)) :
    Decides (submatchWith find_close advance (fuel + 1) (c :: s)
        (lpar :: (body ++ rpar :: star :: p))) st
      (HasPrefix ((insideLang body)∗ * B) (c :: s)) := by
  unfold submatchWith
  rw [if_pos rfl]
  apply (hparts.closes body (star :: p) hclosed).decides
  show Decides (if some star = some star then _ else _) st _
  rw [if_pos rfl]
  exact decides_groupLoop hparts hbody (Nat.succ_lt_succ hfuel) hrest

end Elements

/-- **`submatch` decides whether the pattern matches at the start of the name.**  The induction is on
the items, the loops of an item being over splits of the name. -/
theorem decides_submatch (hparts : PartsOk find_close advance st) (is : List Item)
    (hfuel : s.length + (itemsText is).length < fuel) :
    Decides (submatchWith find_close advance fuel s (itemsText is)) st
      (HasPrefix (itemsLang is) s) := by
  induction is generalizing fuel s with
  | nil =>
    rw [itemsText_nil, itemsLang_nil]
    unfold submatchWith
    exact decides_true hasPrefix_one
  | cons i is ih =>
    obtain ⟨fuel, rfl⟩ : ∃ n, fuel = n + 1 := ⟨fuel - 1, by omega⟩
    cases s with
    | nil =>
      rw [List.length_nil, Nat.zero_add] at hfuel
      have hskip := decides_skipRest hparts (i :: is) (Nat.le_of_lt hfuel)
      cases htext : itemsText (i :: is) with
      | nil => exact absurd (List.append_eq_nil_iff.mp htext).1 i.text_ne_nil
      | cons x p =>
        rw [htext] at hskip
        unfold submatchWith
        exact hskip
    | cons c s =>
      have hpos := List.length_pos_iff.mpr i.text_ne_nil
      rw [itemsText_cons, List.length_append, List.length_cons] at hfuel
      rw [itemsText_cons, itemsLang_cons]
      have hrest : ∀ v, v.length ≤ (c :: s).length →
          Decides (submatchWith find_close advance fuel v (itemsText is)) st
            (HasPrefix (itemsLang is) v) := by
        intro v hv
        rw [List.length_cons] at hv
        exact ih (by omega)
      have hhead := head_itemsText_ne_star is
      cases i with
      | char x starred =>
        cases starred with
        | false => exact decides_char hhead (hrest s (Nat.le_succ _))
        | true => exact decides_starred_char hrest
      | group body hne hclosed starred =>
        rw [group_text_append]
        cases starred with
        | false => exact decides_group hparts hclosed hhead hrest
        | true => exact decides_starred_group hparts hne hclosed (by omega) hrest

theorem decides_matchFromWith (hparts : PartsOk find_close advance st) (is : List Item)
    (hfuel : s.length + (itemsText is).length < fuel) :
    Decides (matchFromWith find_close advance fuel (itemsText is) s) st
      (HasSubstring (itemsLang is) s) := by
  induction s with
  | nil =>
    have hlast := (decides_submatch hparts is hfuel).or (decides_false not_false)
    apply hlast.congr
    rw [or_false, hasSubstring_nil]
  | cons c s ih =>
    have hhere := decides_submatch hparts is hfuel
    rw [List.length_cons] at hfuel
    exact (hhere.or (ih (by omega))).congr hasSubstring_cons.symm

/-- **The matcher decides the language of the items.** -/
theorem decides_match (is : List Item) (hfuel : s.length + (itemsText is).length < fuel) :
    Decides (matchStr fuel (some s) (some (itemsText is))) st (HasSubstring (itemsLang is) s) := by
  have hparts : PartsOk findClose plainAdvance st := partsOk_plain
  have h := decides_matchFromWith hparts is hfuel
  rw [matchFromWith_plain] at h
  exact h

end SystemProgramming.Dirtree
