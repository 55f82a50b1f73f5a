import SystemProgramming.Dirtree.Items

/-!
# The pattern language

A pattern is a sequence of elements; `text` is how it is written and `patternLang` what it stands for.
`match_iff` says that `match` decides whether a substring of the name belongs to the language.

* `match_iff`: `match` decides whether a substring of the name belongs to the language of the pattern.
-/

namespace SystemProgramming.Dirtree

open Exec Lang Computability

/-- A character that stands for itself. -/
abbrev Literal := {c : CChar // c ≠ question ∧ c ≠ star ∧ c ≠ lpar ∧ c ≠ rpar}

/-- One character of a pattern: a literal or `?`. -/
inductive Atom where
  | lit (c : Literal)
  | any

/-- An element of a pattern: `c` or `?`, `c*`, `(b1...bn)`, `(b1...bn)*`. -/
inductive Element where
  | one (a : Atom)
  | many (c : Literal)
  | group (body : List Atom) (nonempty : body ≠ [])
  | groups (body : List Atom) (nonempty : body ≠ [])

namespace Atom

def char : Atom → CChar
  | lit c => c
  | any => question

/-- The words of an atom are one character long. -/
def lang : Atom → Language CChar
  | lit c => {[c.1]}
  | any => {w | w.length = 1}

/-- The characters an atom stands for. -/
def Matches : Atom → CChar → Prop
  | lit c, d => d = c
  | any, _ => True

instance : ∀ (a : Atom) (c : CChar), Decidable (a.Matches c)
  | lit c, d => inferInstanceAs (Decidable (d = c.1))
  | any, _ => inferInstanceAs (Decidable True)

theorem mem_lang {a : Atom} {w : Str} : w ∈ a.lang ↔ ∃ c, w = [c] ∧ a.Matches c := by
  cases a with
  | lit c =>
    constructor
    · intro h
      exact ⟨c, h, rfl⟩
    · intro h
      obtain ⟨d, rfl, hd⟩ := h
      exact congrArg (fun e => [e]) hd
  | any =>
    constructor
    · intro h
      obtain ⟨d, rfl⟩ := List.length_eq_one_iff.mp h
      exact ⟨d, rfl, trivial⟩
    · intro h
      obtain ⟨d, rfl, -⟩ := h
      rfl

theorem char_ne_lpar (a : Atom) : a.char ≠ lpar := by
  cases a with
  | lit c => exact c.2.2.2.1
  | any => decide

theorem char_ne_rpar (a : Atom) : a.char ≠ rpar := by
  cases a with
  | lit c => exact c.2.2.2.2
  | any => decide

theorem char_ne_star (a : Atom) : a.char ≠ star := by
  cases a with
  | lit c => exact c.2.2.1
  | any => decide

/-- The comparison that the source makes with a pattern character. -/
theorem matches_iff {a : Atom} {c : CChar} : a.Matches c ↔ a.char = question ∨ c = a.char := by
  cases a with
  | lit d => exact ⟨Or.inr, fun h => h.resolve_left d.2.1⟩
  | any => exact ⟨fun _ => Or.inl rfl, fun _ => trivial⟩

end Atom

/-- The text of a group's body. -/
def chars (b : List Atom) : Str := b.map Atom.char

/-- The language of a group's body. -/
def bodyLang (b : List Atom) : Language CChar := (b.map Atom.lang).prod

def Element.text : Element → Str
  | one a => [a.char]
  | many c => [c.1, star]
  | group b _ => lpar :: chars b ++ [rpar]
  | groups b _ => lpar :: chars b ++ [rpar, star]

def Element.lang : Element → Language CChar
  | one a => a.lang
  | many c => {[c.1]}∗
  | group b _ => bodyLang b
  | groups b _ => (bodyLang b)∗

/-- The text of a pattern. -/
def text (es : List Element) : Str := (es.map Element.text).flatten

/-- The language of a pattern. -/
def patternLang (es : List Element) : Language CChar := (es.map Element.lang).prod

/-! ### Elements as items -/

theorem Atom.charLang_eq (a : Atom) : charLang a.char = a.lang := by
  ext w
  rw [Atom.mem_lang]
  constructor
  · intro h
    obtain ⟨c, rfl, hc⟩ := h
    exact ⟨c, rfl, Atom.matches_iff.mpr hc⟩
  · intro h
    obtain ⟨c, rfl, hc⟩ := h
    exact ⟨c, rfl, Atom.matches_iff.mp hc⟩

theorem insideLang_chars (b : List Atom) : insideLang (chars b) = bodyLang b := by
  unfold insideLang bodyLang chars
  rw [List.map_map]
  exact congrArg List.prod (List.map_congr_left fun a _ => a.charLang_eq)

/-- A body without parentheses ends at the next `)`. -/
theorem closed_chars (b : List Atom) : Closed (chars b) := by
  intro rest
  induction b with
  | nil =>
    show (if rpar = lpar then _ else if rpar = rpar then _ else _) = _
    rw [if_neg (by decide), if_pos rfl]
    rfl
  | cons a b ih =>
    show (if a.char = lpar then _ else if a.char = rpar then _ else _) = _
    rw [if_neg a.char_ne_lpar, if_neg a.char_ne_rpar]
    exact ih

theorem chars_ne_nil {b : List Atom} (hb : b ≠ []) : chars b ≠ [] := by
  intro h
  exact hb (List.map_eq_nil_iff.mp h)

def Atom.plain (a : Atom) : Plain := ⟨a.char, a.char_ne_lpar, a.char_ne_rpar, a.char_ne_star⟩

/-- The item that an element is to the matcher. -/
def Element.item : Element → Item
  | one a => .char a.plain false
  | many c => .char (Atom.lit c).plain true
  | group b hb => .group (chars b) (chars_ne_nil hb) (closed_chars b) false
  | groups b hb => .group (chars b) (chars_ne_nil hb) (closed_chars b) true

theorem Element.item_text (e : Element) : e.item.text = e.text := by
  cases e <;> rfl

theorem Element.item_lang (e : Element) : e.item.lang = e.lang := by
  cases e with
  | one a => exact a.charLang_eq
  | many c => rfl
  | group b hb => exact insideLang_chars b
  | groups b hb => exact congrArg (·∗) (insideLang_chars b)

theorem itemsText_item (es : List Element) : itemsText (es.map Element.item) = text es := by
  unfold itemsText text
  rw [List.map_map]
  exact congrArg List.flatten (List.map_congr_left fun e _ => e.item_text)

theorem itemsLang_item (es : List Element) : itemsLang (es.map Element.item) = patternLang es := by
  unfold itemsLang patternLang
  rw [List.map_map]
  exact congrArg List.prod (List.map_congr_left fun e _ => e.item_lang)

/-- **The matcher decides its pattern language**: `match(name, pattern)` returns, and what it returns
says whether some substring of the name belongs to the language of the pattern. -/
theorem match_iff {σ : Type} (st : σ) (name : Str) (es : List Element) (fuel : ℕ)
    (hfuel : name.length + (text es).length < fuel) :
    Decides (matchStr fuel (some name) (some (text es))) st
      (HasSubstring (patternLang es) name) := by
  rw [← itemsText_item] at hfuel ⊢
  rw [← itemsLang_item]
  exact decides_match _ hfuel

/-- The theorem for the name `b` and the pattern `a*?`. -/
theorem match_iff_star :
    Decides (matchStr 5 (some [⟨98, by decide⟩])
        (some (text [.many ⟨⟨97, by decide⟩, by decide⟩, .one .any]))) ()
      (HasSubstring (patternLang [.many ⟨⟨97, by decide⟩, by decide⟩, .one .any])
        [⟨98, by decide⟩]) :=
  match_iff () _ _ 5 (by decide)

end SystemProgramming.Dirtree
