import SystemProgramming.Dirtree.Bounds

/-!
# Grouping one character

A character and the group of that character stand for the same words, and so do their repetitions,
except that `?*` repeats question marks where `(?)*` repeats any characters.

* `grouping_neutral`: when grouping one character changes nothing.
* `grouping_fails`: `a?*b` does not match the name `axb`, `a(?)*b` does.
-/

namespace SystemProgramming.Dirtree

open Exec Lang Computability

variable {name : Str} {us vs : List Item} {x : Plain}

theorem insideLang_singleton (g : CChar) : insideLang [g] = charLang g := by
  rw [insideLang, List.map_singleton, List.prod_singleton]

theorem charLang_literal {g : CChar} (hg : g ≠ question) : charLang g = {[g]} := by
  ext w
  constructor
  · intro h
    obtain ⟨c, rfl, hc⟩ := h
    rw [hc.resolve_left hg]
    rfl
  · intro h
    exact ⟨g, h, Or.inr rfl⟩

/-- `(?)*` stands for every word. -/
theorem charLang_question_kstar (w : Str) : w ∈ (charLang question)∗ := by
  rw [Language.mem_kstar]
  refine ⟨w.map fun c => [c], ?_, fun y hy => ?_⟩
  · induction w with
    | nil => rfl
    | cons c w ih => exact congrArg (c :: ·) ih
  · obtain ⟨c, -, rfl⟩ := List.mem_map.mp hy
    exact ⟨c, rfl, Or.inl rfl⟩

/-- `?*` stands for the words of question marks. -/
theorem mem_question_kstar {w : Str} :
    w ∈ ({[question]} : Language CChar)∗ ↔ ∀ c ∈ w, c = question := by
  rw [Language.mem_kstar]
  constructor
  · intro h c hc
    obtain ⟨ws, rfl, hall⟩ := h
    obtain ⟨y, hy, hcy⟩ := List.mem_flatten.mp hc
    rw [show y = [question] from hall y hy] at hcy
    exact List.mem_singleton.mp hcy
  · intro h
    refine ⟨w.map fun c => [c], ?_, fun y hy => ?_⟩
    · clear h
      induction w with
      | nil => rfl
      | cons c w ih => exact congrArg (c :: ·) ih
    · obtain ⟨c, hc, rfl⟩ := List.mem_map.mp hy
      rw [h c hc]
      rfl

/-- A group of one character, which is no parenthesis, is closed. -/
theorem closed_plain (x : Plain) : Closed [x.1] := by
  intro rest
  show (if x.1 = lpar then _ else if x.1 = rpar then _ else _) = _
  rw [if_neg x.2.1, if_neg x.2.2.1]
  rfl

/-- The name has a part that `us` describes and behind it, `gap` in between, one that `vs` describes. -/
def PartsApart (us vs : List Item) (gap name : Str) : Prop :=
  ∃ a w w' b, name = a ++ w ++ gap ++ w' ++ b ∧ w ∈ itemsLang us ∧ w' ∈ itemsLang vs

theorem hasSubstring_between {L : Language CChar} :
    HasSubstring (itemsLang us * (L * itemsLang vs)) name ↔
      ∃ gap, gap ∈ L ∧ PartsApart us vs gap name := by
  constructor
  · intro h
    obtain ⟨a, m, b, rfl, hm⟩ := h
    obtain ⟨w, hw, m', hm', rfl⟩ := Language.mem_mul.mp hm
    obtain ⟨gap, hgap, w', hw', rfl⟩ := Language.mem_mul.mp hm'
    exact ⟨gap, hgap, a, w, w', b, by simp only [List.append_assoc], hw, hw'⟩
  · intro h
    obtain ⟨gap, hgap, a, w, w', b, rfl, hw, hw'⟩ := h
    refine ⟨a, w ++ (gap ++ w'), b, by simp only [List.append_assoc], ?_⟩
    exact Language.append_mem_mul hw (Language.append_mem_mul hgap hw')

/-- **When grouping one character is neutral.**  `x` and `(x)` always match alike.  `x*` and `(x)*` do
exactly when `x` is a literal character, or the name has, if it has parts of the two pieces one behind
the other at all, such parts with nothing but question marks in between. -/
theorem grouping_neutral {σ : Type} (st : σ) (us vs : List Item) (x : Plain) (name : Str) (fuel : ℕ)
    (hfuel : name.length + ((itemsText us).length + (itemsText vs).length + 4) < fuel) :
    (matchStr fuel (some name) (some (itemsText us ++ x.1 :: itemsText vs)) st
        = matchStr fuel (some name) (some (itemsText us ++ lpar :: x.1 :: rpar :: itemsText vs)) st ∧
      matchStr fuel (some name) (some (itemsText us ++ x.1 :: star :: itemsText vs)) st
        = matchStr fuel (some name)
          (some (itemsText us ++ lpar :: x.1 :: rpar :: star :: itemsText vs)) st) ↔
    (x.1 = question → (∃ gap, PartsApart us vs gap name) →
      ∃ gap, (∀ c ∈ gap, c = question) ∧ PartsApart us vs gap name) := by
  have hdecides : ∀ i : Item, i.text.length ≤ 4 →
      Decides (matchStr fuel (some name) (some (itemsText us ++ (i.text ++ itemsText vs)))) st
        (HasSubstring (itemsLang us * (i.lang * itemsLang vs)) name) := by
    intro i hi
    have h := @decides_match name σ st fuel (us ++ i :: vs)
    rw [itemsText_append, itemsText_cons, itemsLang_append, itemsLang_cons] at h
    apply h
    simp only [List.length_append]
    omega
  have hne : [x.1] ≠ [] := List.cons_ne_nil _ _
  have hchar := hdecides (.char x false) (by simp [Item.text, starText])
  have hgroup := hdecides (.group [x.1] hne (closed_plain x) false) (by simp [Item.text, starText])
  have hstar := hdecides (.char x true) (by simp [Item.text, starText])
  have hgroups := hdecides (.group [x.1] hne (closed_plain x) true) (by simp [Item.text, starText])
  have honce := (outcome_eq_iff hchar hgroup).mpr (by
    show HasSubstring (_ * (charLang x.1 * _)) _ ↔ HasSubstring (_ * (insideLang [x.1] * _)) _
    rw [insideLang_singleton])
  have hmany := outcome_eq_iff hstar hgroups
  have hlang : (HasSubstring (itemsLang us * ((Item.char x true).lang * itemsLang vs)) name ↔
      HasSubstring (itemsLang us *
        ((Item.group [x.1] hne (closed_plain x) true).lang * itemsLang vs)) name) ↔
      (x.1 = question → (∃ gap, PartsApart us vs gap name) →
        ∃ gap, (∀ c ∈ gap, c = question) ∧ PartsApart us vs gap name) := by
    show (HasSubstring (_ * (({[x.1]} : Language CChar)∗ * _)) _ ↔
      HasSubstring (_ * ((insideLang [x.1])∗ * _)) _) ↔ _
    rw [insideLang_singleton]
    by_cases hq : x.1 = question
    · rw [hq, hasSubstring_between, hasSubstring_between]
      simp only [mem_question_kstar, charLang_question_kstar, true_and, forall_const]
      constructor
      · exact fun h => h.mpr
      · intro h
        refine ⟨fun hex => ?_, h⟩
        obtain ⟨gap, -, hgap⟩ := hex
        exact ⟨gap, hgap⟩
    · rw [charLang_literal hq]
      exact iff_of_true Iff.rfl fun h => absurd h hq
  rw [← hlang, ← hmany]
  exact ⟨fun h => h.2, fun h => ⟨honce, h⟩⟩

section Names

theorem a_ne_nul : (97 : UInt8) ≠ 0 := by decide

theorem b_ne_nul : (98 : UInt8) ≠ 0 := by decide

/-- The item `a`. -/
def itemA : Item := .char ⟨⟨97, a_ne_nul⟩, by decide⟩ false

/-- The item `b`. -/
def itemB : Item := .char ⟨⟨98, b_ne_nul⟩, by decide⟩ false

/-- The theorem for the name `b` and the literal `b` between `a` and nothing. -/
theorem grouping_neutral_literal :
    (matchStr 8 (some [⟨98, by decide⟩]) (some (itemsText [itemA] ++ ⟨98, by decide⟩ :: itemsText [])) ()
        = matchStr 8 (some [⟨98, by decide⟩])
          (some (itemsText [itemA] ++ lpar :: ⟨98, by decide⟩ :: rpar :: itemsText [])) () ∧
      matchStr 8 (some [⟨98, by decide⟩])
          (some (itemsText [itemA] ++ ⟨98, by decide⟩ :: star :: itemsText [])) ()
        = matchStr 8 (some [⟨98, by decide⟩])
          (some (itemsText [itemA] ++ lpar :: ⟨98, by decide⟩ :: rpar :: star :: itemsText [])) ()) ↔
    ((⟨98, by decide⟩ : CChar) = question → (∃ gap, PartsApart [itemA] [] gap [⟨98, by decide⟩]) →
      ∃ gap, (∀ c ∈ gap, c = question) ∧ PartsApart [itemA] [] gap [⟨98, by decide⟩]) :=
  grouping_neutral () [itemA] [] ⟨⟨98, by decide⟩, by decide⟩ [⟨98, by decide⟩] 8 (by decide)

/-- **A starred `?` repeats question marks only**: `a?*b` does not match the name `axb`, `a(?)*b`
does. -/
theorem grouping_fails :
    (matchStr 12 (some [⟨97, by decide⟩, ⟨120, by decide⟩, ⟨98, by decide⟩])
      (some (itemsText [itemA] ++ question :: star :: itemsText [itemB])) : Exec Unit Bool) ()
      = .ok false () ∧
    (matchStr 12 (some [⟨97, by decide⟩, ⟨120, by decide⟩, ⟨98, by decide⟩])
      (some (itemsText [itemA] ++ lpar :: question :: rpar :: star :: itemsText [itemB])) :
        Exec Unit Bool) () = .ok true () := by
  decide +kernel

end Names

end SystemProgramming.Dirtree
