import SystemProgramming.Dirtree.Items

/-!
# `validate_pattern`

The validator goes through a pattern once, looks back one character at a star and jumps over a group
to its closing parenthesis.  So it accepts exactly the sequences of items, whatever stands inside
their groups.  The grammar asks for elements there too: the two agree on a pattern when the insides of
its groups are well formed.

* `decides_validatePattern`: the validator accepts the non-empty sequences of items.
* `itemsText_inj`: a text is read in one way as a sequence of items.
* `validate_pattern_exact`: when the validator decides the grammar (`Derives`).
* `validate_pattern_fails`: it accepts `(*a)`, which the grammar does not have.
-/

namespace SystemProgramming.Dirtree

open Exec

variable {σ : Type} {st : σ}

/-- The loop of `validate_pattern`.  `before` is `*(p - 1)`, none where `p == pattern`. -/
def validateFrom : ℕ → Option CChar → Str → Exec σ Bool
  | _, _, [] => pure true
  | 0, _, _ :: _ => timeout
  | fuel + 1, before, c :: p =>
    if c = star then
      if before = none ∨ before = some star ∨ before = some lpar then pure false
      else validateFrom fuel (some c) p
    else if c = lpar then do
      match ← findClose (c :: p) with
      | none => return false
      | some close =>
        if close = p then return false
        validateFrom fuel close.head? close.tail   -- `p = close`, then `p++`
    else if c = rpar then pure false
    else validateFrom fuel (some c) p

/-- `validate_pattern(p)`, where `p` is the global `pattern`. -/
def validatePattern : Option Str → Exec σ Bool
  | none => pure false
  | some [] => pure false
  | some (c :: p) => validateFrom (c :: p).length none (c :: p)

/-! ### Sequences of items -/

/-- What `find_close` passes over to the parenthesis it returns. -/
theorem findCloseFrom_some {p q : Str} {depth : ℤ} (h : findCloseFrom p depth = some q) :
    ∃ body rest, p = body ++ rpar :: rest ∧ q = rpar :: rest ∧
      ∀ rest', findCloseFrom (body ++ rpar :: rest') depth = some (rpar :: rest') := by
  induction p generalizing depth with
  | nil => cases h
  | cons c p ih =>
    rw [findCloseFrom] at h
    by_cases hl : c = lpar
    · rw [if_pos hl] at h
      obtain ⟨body, rest, rfl, hq, hall⟩ := ih h
      refine ⟨c :: body, rest, rfl, hq, fun rest' => ?_⟩
      rw [List.cons_append, findCloseFrom, if_pos hl]
      exact hall rest'
    · rw [if_neg hl] at h
      by_cases hr : c = rpar
      · rw [if_pos hr] at h
        by_cases hd : depth - 1 = 0
        · rw [if_pos hd] at h
          cases h
          subst hr
          refine ⟨[], p, rfl, rfl, fun rest' => ?_⟩
          rw [List.nil_append, findCloseFrom, if_neg hl, if_pos rfl, if_pos hd]
        · rw [if_neg hd] at h
          obtain ⟨body, rest, rfl, hq, hall⟩ := ih h
          refine ⟨c :: body, rest, rfl, hq, fun rest' => ?_⟩
          rw [List.cons_append, findCloseFrom, if_neg hl, if_pos hr, if_neg hd]
          exact hall rest'
      · rw [if_neg hr] at h
        obtain ⟨body, rest, rfl, hq, hall⟩ := ih h
        refine ⟨c :: body, rest, rfl, hq, fun rest' => ?_⟩
        rw [List.cons_append, findCloseFrom, if_neg hl, if_neg hr]
        exact hall rest'

/-- What may follow an atom: a star or none, and more items. -/
def Follows (p : Str) : Prop := ∃ starred is, p = starText starred ++ itemsText is

/-- A sequence of items. -/
def IsItems (p : Str) : Prop := ∃ is, p = itemsText is

theorem IsItems.exists_cons {c : CChar} {p : Str} (h : IsItems (c :: p)) :
    ∃ i is, c :: p = itemsText (i :: is) := by
  obtain ⟨is, hp⟩ := h
  cases is with
  | nil => cases hp
  | cons i is => exact ⟨i, is, hp⟩

theorem IsItems.follows {p : Str} (h : IsItems p) : Follows p := by
  obtain ⟨is, rfl⟩ := h
  exact ⟨false, is, rfl⟩

theorem follows_star {p : Str} : Follows (star :: p) ↔ IsItems p := by
  constructor
  · intro h
    obtain ⟨starred, is, hp⟩ := h
    cases starred with
    | true => exact ⟨is, (List.cons.inj hp).2⟩
    | false =>
      have hhead := head_itemsText_ne_star is
      rw [← show star :: p = itemsText is from hp] at hhead
      exact absurd rfl hhead
  · intro h
    obtain ⟨is, rfl⟩ := h
    exact ⟨true, is, rfl⟩

theorem follows_of_ne_star {c : CChar} {p : Str} (hc : c ≠ star) :
    Follows (c :: p) ↔ IsItems (c :: p) := by
  constructor
  · intro h
    obtain ⟨starred, is, hp⟩ := h
    cases starred with
    | true => exact absurd (List.cons.inj hp).1 hc
    | false => exact ⟨is, hp⟩
  · exact IsItems.follows

theorem isItems_plain {c : CChar} {p : Str} (hl : c ≠ lpar) (hr : c ≠ rpar) (hs : c ≠ star) :
    IsItems (c :: p) ↔ Follows p := by
  constructor
  · intro h
    obtain ⟨i, is, hp⟩ := h.exists_cons
    cases i with
    | char d starred => exact ⟨starred, is, (List.cons.inj hp).2⟩
    | group body _ _ starred => exact absurd (List.cons.inj hp).1 hl
  · intro h
    obtain ⟨starred, is, rfl⟩ := h
    exact ⟨.char ⟨c, hl, hr, hs⟩ starred :: is, rfl⟩

/-- A group is what `find_close` says. -/
theorem isItems_lpar {p : Str} :
    IsItems (lpar :: p) ↔ ∃ close, findCloseFrom p 1 = some close ∧ close ≠ p ∧ Follows close.tail := by
  constructor
  · intro h
    obtain ⟨i, is, hp⟩ := h.exists_cons
    cases i with
    | char d starred => exact absurd (List.cons.inj hp).1.symm d.2.1
    | group body hne hclosed starred =>
      rw [itemsText_cons, group_text_append] at hp
      have hp' : p = body ++ rpar :: (starText starred ++ itemsText is) := (List.cons.inj hp).2
      refine ⟨rpar :: (starText starred ++ itemsText is), ?_, ?_, starred, is, rfl⟩
      · rw [hp', hclosed]
      · intro heq
        rw [hp'] at heq
        exact hne (List.self_eq_append_left.mp heq)
  · intro h
    obtain ⟨close, hclose, hne, starred, is, hfollow⟩ := h
    obtain ⟨body, rest, hp, rfl, hclosed⟩ := findCloseFrom_some hclose
    have hrest : rest = starText starred ++ itemsText is := hfollow
    have hbody : body ≠ [] := by
      rintro rfl
      exact hne hp.symm
    have hclosed' : Closed body := hclosed
    refine ⟨.group body hbody hclosed' starred :: is, ?_⟩
    rw [hp, hrest, itemsText_cons, group_text_append]

theorem not_isItems_star {p : Str} : ¬ IsItems (star :: p) := by
  intro h
  obtain ⟨is, hp⟩ := h
  have hhead := head_itemsText_ne_star is
  rw [← hp] at hhead
  exact hhead rfl

theorem not_isItems_rpar {p : Str} : ¬ IsItems (rpar :: p) := by
  intro h
  obtain ⟨i, is, hp⟩ := h.exists_cons
  cases i with
  | char d starred => exact d.2.2.1 (List.cons.inj hp).1.symm
  | group body _ _ starred => exact absurd (List.cons.inj hp).1 (by decide)

/-! ### What the validator accepts -/

/-- **The loop**, at the start or after a star, and after an atom.  The induction is on the length; each
branch is one of the rules above. -/
theorem decides_validateFrom (fuel : ℕ) (p : Str) (hfuel : p.length ≤ fuel) :
    (∀ before, before = none ∨ before = some star →
      Decides (validateFrom fuel before p) st (IsItems p)) ∧
    (∀ c, c ≠ star → c ≠ lpar → Decides (validateFrom fuel (some c) p) st (Follows p)) := by
  induction fuel generalizing p with
  | zero =>
    obtain rfl : p = [] := List.length_eq_zero_iff.mp (by omega)
    exact ⟨fun _ _ => decides_true ⟨[], rfl⟩, fun _ _ _ => decides_true ⟨false, [], rfl⟩⟩
  | succ fuel ih =>
    cases p with
    | nil => exact ⟨fun _ _ => decides_true ⟨[], rfl⟩, fun _ _ _ => decides_true ⟨false, [], rfl⟩⟩
    | cons c p =>
      rw [List.length_cons] at hfuel
      by_cases hstar : c = star
      · subst hstar
        constructor
        · intro before hbefore
          unfold validateFrom
          rw [if_pos rfl, if_pos (by tauto)]
          exact decides_false not_isItems_star
        · intro d hd hl
          have hno : ¬ (some d = none ∨ some d = some star ∨ some d = some lpar) := by
            simp [hd, hl]
          unfold validateFrom
          rw [if_pos rfl, if_neg hno]
          exact ((ih p (by omega)).1 _ (Or.inr rfl)).congr follows_star.symm
      -- the other characters are treated alike whatever comes before
      suffices hall : ∀ before, Decides (validateFrom (fuel + 1) before (c :: p)) st
          (IsItems (c :: p)) from
        ⟨fun before _ => hall before, fun d _ _ => (hall _).congr (follows_of_ne_star hstar).symm⟩
      intro before
      unfold validateFrom
      rw [if_neg hstar]
      by_cases hl : c = lpar
      · subst hl
        rw [if_pos rfl]
        have hfind : Gives (findClose (lpar :: p)) st (findCloseFrom p 1) := gives_pure _
        apply hfind.decides
        apply Decides.congr _ isItems_lpar.symm
        cases hclose : findCloseFrom p 1 with
        | none => exact decides_false nofun
        | some close =>
          obtain ⟨body, rest, hp, rfl, -⟩ := findCloseFrom_some hclose
          show Decides (if rpar :: rest = p then _ else _) st _
          by_cases heq : rpar :: rest = p
          · rw [if_pos heq]
            apply decides_false
            intro h
            obtain ⟨close', hclose', hne, -⟩ := h
            cases hclose'
            exact hne heq
          · rw [if_neg heq]
            have hlen := congrArg List.length hp
            rw [List.length_append, List.length_cons] at hlen
            apply ((ih rest (by omega)).2 rpar (by decide) (by decide)).congr
            constructor
            · exact fun h => ⟨_, rfl, heq, h⟩
            · intro h
              obtain ⟨close', hclose', -, hfollow⟩ := h
              cases hclose'
              exact hfollow
      · rw [if_neg hl]
        by_cases hr : c = rpar
        · subst hr
          rw [if_pos rfl]
          exact decides_false not_isItems_rpar
        · rw [if_neg hr]
          exact ((ih p (by omega)).2 c hstar hl).congr (isItems_plain hl hr hstar).symm

/-- **The validator accepts the non-empty sequences of items.** -/
theorem decides_validatePattern (s : Str) :
    Decides (validatePattern (some s)) st (s ≠ [] ∧ IsItems s) := by
  cases s with
  | nil => exact decides_false fun h => h.1 rfl
  | cons c p =>
    have hfrom := @decides_validateFrom σ st _ (c :: p) (Nat.le_refl _)
    apply (hfrom.1 none (Or.inl rfl)).congr
    exact ⟨fun h => ⟨List.cons_ne_nil c p, h⟩, fun h => h.2⟩

/-! ### The grammar -/

/-- The nonterminals of the pattern grammar. -/
inductive Symbol where
  | atom
  | element
  | elements

/-- **The pattern grammar.**  A pattern is a non-empty sequence of elements, an element an atom that may
have a star, and an atom a character or a group of elements. -/
inductive Derives : Symbol → Str → Prop where
  | char {c : CChar} (hl : c ≠ lpar) (hr : c ≠ rpar) (hs : c ≠ star) : Derives .atom [c]
  | group {body : Str} (h : Derives .elements body) : Derives .atom (lpar :: (body ++ [rpar]))
  | once {a : Str} (h : Derives .atom a) : Derives .element a
  | starred {a : Str} (h : Derives .atom a) : Derives .element (a ++ [star])
  | one {e : Str} (h : Derives .element e) : Derives .elements e
  | more {e es : Str} (he : Derives .element e) (hes : Derives .elements es) :
      Derives .elements (e ++ es)

/-- `find_close` passes over the text. -/
def Passed (t : Str) : Prop :=
  ∀ rest (depth : ℤ), 1 ≤ depth → findCloseFrom (t ++ rest) depth = findCloseFrom rest depth

theorem passed_cons {c : CChar} {t : Str} (hl : c ≠ lpar) (hr : c ≠ rpar) (h : Passed t) :
    Passed (c :: t) := by
  intro rest depth hd
  rw [List.cons_append, findCloseFrom, if_neg hl, if_neg hr]
  exact h rest depth hd

theorem passed_nil : Passed [] := fun _ _ _ => rfl

theorem Passed.append {t u : Str} (ht : Passed t) (hu : Passed u) : Passed (t ++ u) := by
  intro rest depth hd
  rw [List.append_assoc, ht _ _ hd, hu _ _ hd]

theorem Passed.group {t : Str} (h : Passed t) : Passed (lpar :: (t ++ [rpar])) := by
  intro rest depth hd
  rw [List.cons_append, findCloseFrom, if_pos rfl, List.append_assoc, h _ _ (by omega),
    List.singleton_append, findCloseFrom, if_neg (by decide), if_pos rfl, if_neg (by omega),
    Int.add_sub_cancel]

theorem Passed.closed {t : Str} (h : Passed t) : Closed t := by
  intro rest
  rw [h _ _ (Int.le_refl 1), findCloseFrom, if_neg (by decide), if_pos rfl]
  rfl

/-- Parentheses are balanced in everything that the grammar derives. -/
theorem Derives.passed {x : Symbol} {t : Str} (h : Derives x t) : Passed t := by
  induction h with
  | char hl hr hs => exact passed_cons hl hr passed_nil
  | group _ ih => exact ih.group
  | once _ ih => exact ih
  | starred _ ih => exact ih.append (passed_cons (by decide) (by decide) passed_nil)
  | one _ ih => exact ih
  | more _ _ ihe ihes => exact ihe.append ihes

theorem Derives.ne_nil {x : Symbol} {t : Str} (h : Derives x t) : t ≠ [] := by
  induction h with
  | char hl hr hs => exact List.cons_ne_nil _ _
  | group _ _ => exact List.cons_ne_nil _ _
  | once _ ih => exact ih
  | starred _ ih => exact List.append_ne_nil_of_left_ne_nil ih _
  | one _ ih => exact ih
  | more _ _ ihe _ => exact List.append_ne_nil_of_left_ne_nil ihe _

/-- What stands inside the item, if it is a group, is a sequence of elements. -/
def Item.WellInside : Item → Prop
  | char _ _ => True
  | group body _ _ _ => Derives .elements body

/-- What the items of a derived text are. -/
def Reads : Symbol → Str → Prop
  | .atom, t => ∀ starred, ∃ i : Item, i.text = t ++ starText starred ∧ i.WellInside
  | .element, t => ∃ i : Item, i.text = t ∧ i.WellInside
  | .elements, t => ∃ is, itemsText is = t ∧ ∀ i ∈ is, i.WellInside

theorem Derives.reads {x : Symbol} {t : Str} (h : Derives x t) : Reads x t := by
  induction h with
  | char hl hr hs => exact fun starred => ⟨.char ⟨_, hl, hr, hs⟩ starred, rfl, trivial⟩
  | @group body h _ =>
    intro starred
    refine ⟨.group body h.ne_nil h.passed.closed starred, ?_, h⟩
    simp only [Item.text, List.cons_append, List.append_assoc, List.nil_append]
  | once _ ih =>
    obtain ⟨i, hi, hinside⟩ := ih false
    exact ⟨i, hi.trans (List.append_nil _), hinside⟩
  | starred _ ih => exact ih true
  | one _ ih =>
    obtain ⟨i, rfl, hinside⟩ := ih
    exact ⟨[i], List.append_nil _, fun j hj => by rw [List.mem_singleton.mp hj]; exact hinside⟩
  | more _ _ ihe ihes =>
    obtain ⟨i, rfl, hinside⟩ := ihe
    obtain ⟨is, rfl, hall⟩ := ihes
    refine ⟨i :: is, rfl, fun j hj => ?_⟩
    rcases List.mem_cons.mp hj with rfl | hmem
    · exact hinside
    · exact hall j hmem

theorem derives_item {i : Item} (h : i.WellInside) : Derives .element i.text := by
  cases i with
  | char c starred =>
    have hatom : Derives .atom [c.1] := .char c.2.1 c.2.2.1 c.2.2.2
    cases starred with
    | false => exact .once hatom
    | true => exact .starred hatom
  | group body hne hclosed starred =>
    have hatom : Derives .atom (lpar :: (body ++ [rpar])) := .group h
    cases starred with
    | false => exact .once hatom
    | true =>
      have hstarred := Derives.starred hatom
      rw [List.cons_append, List.append_assoc] at hstarred
      exact hstarred

theorem derives_items {is : List Item} (hne : is ≠ []) (h : ∀ i ∈ is, i.WellInside) :
    Derives .elements (itemsText is) := by
  induction is with
  | nil => exact absurd rfl hne
  | cons i is ih =>
    have hi := derives_item (h i List.mem_cons_self)
    cases is with
    | nil =>
      rw [itemsText_cons, itemsText_nil, List.append_nil]
      exact .one hi
    | cons j is =>
      exact .more hi (ih (List.cons_ne_nil j is) fun k hk => h k (List.mem_cons_of_mem i hk))

/-- Whether a star follows can be seen from the next character. -/
theorem starText_append_inj {a b : Bool} {is js : List Item}
    (h : starText a ++ itemsText is = starText b ++ itemsText js) :
    a = b ∧ itemsText is = itemsText js := by
  have hno : ∀ {is js : List Item}, star :: itemsText is ≠ itemsText js := by
    intro is js heq
    have hhead := head_itemsText_ne_star js
    rw [← heq] at hhead
    exact hhead rfl
  cases a with
  | false =>
    cases b with
    | false => exact ⟨rfl, h⟩
    | true => exact absurd h.symm hno
  | true =>
    cases b with
    | false => exact absurd h hno
    | true => exact ⟨rfl, (List.cons.inj h).2⟩

/-- **A text is read in one way** as a sequence of items. -/
theorem itemsText_inj {is js : List Item} (h : itemsText is = itemsText js) : is = js := by
  induction is generalizing js with
  | nil =>
    cases js with
    | nil => rfl
    | cons j js => exact absurd (List.append_eq_nil_iff.mp h.symm).1 j.text_ne_nil
  | cons i is ih =>
    cases js with
    | nil => exact absurd (List.append_eq_nil_iff.mp h).1 i.text_ne_nil
    | cons j js =>
      cases i with
      | char c a =>
        cases j with
        | char d b =>
          obtain ⟨hc, hrest⟩ := List.cons.inj h
          obtain ⟨rfl, hrest'⟩ := starText_append_inj hrest
          rw [Subtype.ext hc, ih hrest']
        | group body hne hclosed b => exact absurd (List.cons.inj h).1 c.2.1
      | group body hne hclosed a =>
        cases j with
        | char d b => exact absurd (List.cons.inj h).1.symm d.2.1
        | group body' hne' hclosed' b =>
          rw [itemsText_cons, itemsText_cons, group_text_append, group_text_append] at h
          obtain ⟨-, hbody⟩ := List.cons.inj h
          -- both find the same parenthesis
          have hclose := congrArg (fun p => findCloseFrom p 1) hbody
          rw [hclosed, hclosed'] at hclose
          have hrest := (List.cons.inj (Option.some.inj hclose)).2
          rw [hrest] at hbody
          obtain rfl := List.append_cancel_right hbody
          obtain ⟨rfl, hrest'⟩ := starText_append_inj hrest
          rw [ih hrest']

theorem derives_iff_items {s : Str} :
    Derives .elements s ↔ ∃ is, is ≠ [] ∧ s = itemsText is ∧ ∀ i ∈ is, i.WellInside := by
  constructor
  · intro h
    obtain ⟨is, rfl, hall⟩ := h.reads
    refine ⟨is, ?_, rfl, hall⟩
    rintro rfl
    exact h.ne_nil rfl
  · intro h
    obtain ⟨is, hne, rfl, hall⟩ := h
    exact derives_items hne hall

/-- **When the validator decides the grammar.**  What `validate_pattern` returns says whether the string
is a pattern, exactly when every group of the string that it jumps over holds a sequence of
elements. -/
theorem validate_pattern_exact {σ : Type} (st : σ) (s : Str) :
    Decides (validatePattern (some s)) st (Derives .elements s) ↔
      ∀ is, s = itemsText is → ∀ i ∈ is, i.WellInside := by
  obtain ⟨b, hb, hiff⟩ := @decides_validatePattern σ st s
  constructor
  · intro h is hs i hi
    obtain ⟨b', hb', hiff'⟩ := h
    obtain rfl : b' = b := by
      rw [Gives, hb] at hb'
      cases hb'
      rfl
    have hne : s ≠ [] := by
      intro hnil
      rw [hnil] at hs
      cases is with
      | nil => cases hi
      | cons j js => exact j.text_ne_nil (List.append_eq_nil_iff.mp hs.symm).1
    obtain ⟨js, -, hjs, hall⟩ := derives_iff_items.mp (hiff'.mp (hiff.mpr ⟨hne, is, hs⟩))
    obtain rfl := itemsText_inj (hs.symm.trans hjs)
    exact hall i hi
  · intro h
    refine ⟨b, hb, hiff.trans ?_⟩
    rw [derives_iff_items]
    constructor
    · intro hs
      obtain ⟨hne, is, rfl⟩ := hs
      refine ⟨is, ?_, rfl, h is rfl⟩
      rintro rfl
      exact hne rfl
    · intro hs
      obtain ⟨is, hne, rfl, -⟩ := hs
      refine ⟨?_, is, rfl⟩
      cases is with
      | nil => exact absurd rfl hne
      | cons i is => exact fun hnil => i.text_ne_nil (List.append_eq_nil_iff.mp hnil).1

/-- **A star at the start of a group is accepted**: `(*a)`. -/
theorem validate_pattern_fails :
    (validatePattern (some [lpar, star, ⟨97, by decide⟩, rpar]) : Exec Unit Bool) () = .ok true () ∧
      ¬ Derives .elements [lpar, star, ⟨97, by decide⟩, rpar] := by
  refine ⟨by decide +kernel, fun h => ?_⟩
  obtain ⟨is, -, hs, hall⟩ := derives_iff_items.mp h
  have hclosed : Closed [star, ⟨97, by decide⟩] := fun rest => rfl
  have hitems : [lpar, star, ⟨97, by decide⟩, rpar]
      = itemsText [.group [star, ⟨97, by decide⟩] (List.cons_ne_nil _ _) hclosed false] := rfl
  obtain rfl := itemsText_inj (hs.symm.trans hitems)
  have hinside : Derives .elements [star, ⟨97, by decide⟩] := hall _ List.mem_cons_self
  obtain ⟨js, -, hjs, -⟩ := derives_iff_items.mp hinside
  have hhead := head_itemsText_ne_star js
  rw [← hjs] at hhead
  exact hhead rfl

end SystemProgramming.Dirtree
