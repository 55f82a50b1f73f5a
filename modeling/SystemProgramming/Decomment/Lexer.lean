import SystemProgramming.Decomment.Machine

/-!
# The lexical context of a text

`lex d s` says where a reader of C stands after the text `s`: in code, behind a slash that may open a
comment, in a constant, or in a comment.  The program reads in a dialect of its own, which differs from C
in two points; in that dialect its variables show the context after every text (`shows_lex`), and what it
prints for a character is `printed`.

* `Shows.switch`: one character read by the program and by the lexer.
* `shows_lex`: after every text the variables of the program show its context.
-/

namespace SystemProgramming.Decomment

/-- A character that opens a constant, and closes it. -/
abbrev Quote := {x : UInt8 // x = doubleQuote ∨ x = singleQuote}

/-- Where a text ends.  `constant q escaped` is a string or character constant that `q` closes, with or
without a pending backslash; `star` is inside a `/* */` comment, behind a star. -/
inductive Context where
  | code | slash | constant (quote : Quote) (escaped : Bool) | line | block | star
  deriving DecidableEq

/-- Whether a quote directly behind a slash opens a constant, and whether a backslash in a constant may
itself be escaped. -/
structure Dialect where
  opensBehindSlash : Bool
  escapesBackslash : Bool

/-- The rules of C. -/
def Dialect.c : Dialect := ⟨true, true⟩

/-- The rules of the program. -/
def Dialect.program : Dialect := ⟨false, false⟩

/-- A character in code. -/
def inCode (x : UInt8) : Context :=
  if x = slash then .slash
  else if h : x = doubleQuote ∨ x = singleQuote then .constant ⟨x, h⟩ false
  else .code

/-- The context behind one more character. -/
def next (d : Dialect) : Context → UInt8 → Context
  | .code, x => inCode x
  | .slash, x =>
    if x = slash then .line
    else if x = star then .block
    else if d.opensBehindSlash then inCode x
    else .code
  | .constant q false, x =>
    if x = backslash then .constant q true else if x = q then .code else .constant q false
  | .constant q true, x =>
    if x = backslash ∧ d.escapesBackslash = false then .constant q true else .constant q false
  | .line, x => if x = newline then .code else .line
  | .block, x => if x = star then .star else .block
  | .star, x => if x = slash then .code else if x = star then .star else .block

/-- The context after a text. -/
def lex (d : Dialect) (s : List UInt8) : Context := s.foldl (next d) .code

/-- What the program prints for a character. -/
def printed : Context → UInt8 → List UInt8
  | .code, x => if x = slash then [] else [x]
  | .slash, x => if x = slash ∨ x = star then [space] else [slash, x]
  | .constant _ _, x => [x]
  | .line, x => if x = newline then [space, newline] else []
  | .block, x => if x = newline then [newline] else []
  | .star, _ => []

namespace Context

def InConstant : Context → Prop
  | constant _ _ => True
  | _ => False

def InBlock (k : Context) : Prop := k = block ∨ k = star

instance (k : Context) : Decidable k.InBlock := inferInstanceAs (Decidable (_ ∨ _))

/-- The state of the program. -/
def state : Context → DFAState
  | code => .START
  | slash => .WAIT_COMMENT
  | constant _ _ => .QUOTE
  | line => .SINGLELINE
  | block => .MULTILINE
  | star => .WAIT_END

def escaped : Context → Bool
  | constant _ escaped => escaped
  | _ => false

end Context

variable {k : Context} {x : UInt8} {q : Quote} {v : Vars}

theorem lex_append (d : Dialect) (u w : List UInt8) :
    lex d (u ++ w) = w.foldl (next d) (lex d u) := List.foldl_append

theorem lex_concat (d : Dialect) (s : List UInt8) (x : UInt8) :
    lex d (s ++ [x]) = next d (lex d s) x := lex_append d s [x]

theorem Quote.ne_backslash (q : Quote) : q.1 ≠ backslash := by
  rcases q.2 with h | h <;> rw [h] <;> decide

/-! ### The program follows its dialect -/

/-- The variables show the context. -/
structure Shows (v : Vars) (k : Context) : Prop where
  state : v.state = k.state
  flag : v.ibackslash = k.escaped
  quote : ∀ q b, k = .constant q b → v.cquote_type = q.1

/-- The line counter does not show. -/
theorem Shows.readChar (h : Shows (switch v x).1 k) : Shows (readChar v x).1 k := by
  obtain ⟨hstate, hquote, hflag, -⟩ := readChar_fst v x
  refine ⟨hstate.trans h.state, hflag.trans h.flag, fun q b hk => ?_⟩
  exact hquote.trans (h.quote q b hk)

theorem Shows.switch_code (h : Shows v .code) (x : UInt8) :
    Shows (switch v x).1 (inCode x) ∧ (switch v x).2 = printed .code x := by
  rw [Decomment.switch, inCode, printed, h.state]
  show Shows (if x = slash then _ else if x = doubleQuote ∨ x = singleQuote then _ else _
      : Vars × List UInt8).1 _
    ∧ (if x = slash then _ else if x = doubleQuote ∨ x = singleQuote then _ else _
      : Vars × List UInt8).2 = _
  by_cases hslash : x = slash
  · rw [if_pos hslash, if_pos hslash, if_pos hslash]
    exact ⟨⟨rfl, h.flag, by simp⟩, rfl⟩
  · rw [if_neg hslash, if_neg hslash, if_neg hslash]
    by_cases hquote : x = doubleQuote ∨ x = singleQuote
    · rw [if_pos hquote, dif_pos hquote]
      refine ⟨⟨rfl, h.flag, fun q b hk => ?_⟩, rfl⟩
      cases hk
      rfl
    · rw [if_neg hquote, dif_neg hquote]
      exact ⟨h, rfl⟩

theorem Shows.switch_constant {b : Bool} (h : Shows v (.constant q b)) (x : UInt8) :
    Shows (switch v x).1 (next .program (.constant q b) x) ∧ (switch v x).2 = [x] := by
  have hq := h.quote q b rfl
  have hflag : v.ibackslash = b := h.flag
  have hsame : ∀ b', Shows { v with ibackslash := b' } (.constant q b') :=
    fun b' => ⟨h.state, rfl, fun q' b'' hk => by cases hk; exact hq⟩
  rw [Decomment.switch, h.state]
  show Shows (handleQuote v x).1 _ ∧ (handleQuote v x).2 = _
  unfold handleQuote
  by_cases hback : x = backslash
  · have hopen : ¬ (x = v.cquote_type ∧ v.ibackslash = false) := by
      rw [hq, hback]
      exact fun hclose => q.ne_backslash hclose.1.symm
    have hnext : next .program (.constant q b) x = .constant q true := by
      rw [hback]
      cases b <;> rfl
    rw [if_neg hopen, if_pos hback, hnext]
    exact ⟨hsame true, rfl⟩
  · cases b with
    | false =>
      have hnext : next .program (.constant q false) x
          = if x = q.1 then .code else .constant q false := by
        rw [next, if_neg hback]
      rw [hnext]
      by_cases hclose : x = q.1
      · rw [if_pos ⟨hclose.trans hq.symm, hflag⟩, if_pos hclose]
        exact ⟨⟨rfl, hflag, by simp⟩, rfl⟩
      · rw [if_neg fun h' => hclose (h'.1.trans hq), if_neg hback, if_neg (by simp [hflag]),
          if_neg hclose]
        exact ⟨h, rfl⟩
    | true =>
      have hnext : next .program (.constant q true) x = .constant q false := by
        rw [next, if_neg fun h' => hback h'.1]
      rw [hnext, if_neg (by simp [hflag]), if_neg hback, if_pos hflag]
      exact ⟨hsame false, rfl⟩

/-- **One character**: the context that the variables show, and what is printed. -/
theorem Shows.switch (h : Shows v k) (x : UInt8) :
    Shows (switch v x).1 (next .program k x) ∧ (switch v x).2 = printed k x := by
  cases k with
  | code => exact h.switch_code x
  | constant q b => exact h.switch_constant x
  | slash =>
    rw [Decomment.switch, next, printed, h.state]
    show Shows (handleWaitComment v x).1 _ ∧ (handleWaitComment v x).2 = _
    unfold handleWaitComment
    by_cases hslash : x = slash
    · rw [if_pos hslash, if_pos hslash, if_pos (Or.inl hslash)]
      exact ⟨⟨rfl, h.flag, by simp⟩, rfl⟩
    · rw [if_neg hslash, if_neg hslash]
      by_cases hstar : x = star
      · rw [if_pos hstar, if_pos hstar, if_pos (Or.inr hstar)]
        exact ⟨⟨rfl, h.flag, by simp⟩, rfl⟩
      · rw [if_neg hstar, if_neg hstar, if_neg (by decide), if_neg (not_or.mpr ⟨hslash, hstar⟩)]
        exact ⟨⟨rfl, h.flag, by simp⟩, rfl⟩
  | line =>
    rw [Decomment.switch, next, printed, h.state]
    show Shows (if x = newline then _ else _ : Vars × List UInt8).1 _
      ∧ (if x = newline then _ else _ : Vars × List UInt8).2 = _
    by_cases hline : x = newline
    · rw [if_pos hline, if_pos hline, if_pos hline]
      exact ⟨⟨rfl, h.flag, by simp⟩, rfl⟩
    · rw [if_neg hline, if_neg hline, if_neg hline]
      exact ⟨h, rfl⟩
  | block =>
    rw [Decomment.switch, next, printed, h.state]
    show Shows (if x = star then _ else if x = newline then _ else _ : Vars × List UInt8).1 _
      ∧ (if x = star then _ else if x = newline then _ else _ : Vars × List UInt8).2 = _
    by_cases hstar : x = star
    · rw [if_pos hstar, if_pos hstar, if_neg (by rw [hstar]; decide)]
      exact ⟨⟨rfl, h.flag, by simp⟩, rfl⟩
    · rw [if_neg hstar, if_neg hstar]
      by_cases hline : x = newline
      · rw [if_pos hline, if_pos hline]
        exact ⟨h, rfl⟩
      · rw [if_neg hline, if_neg hline]
        exact ⟨h, rfl⟩
  | star =>
    rw [Decomment.switch, next, h.state]
    show Shows (handleWaitEnd v x).1 _ ∧ (handleWaitEnd v x).2 = []
    unfold handleWaitEnd
    by_cases hslash : x = slash
    · rw [if_pos hslash, if_pos hslash]
      exact ⟨⟨rfl, h.flag, by simp⟩, rfl⟩
    · rw [if_neg hslash, if_neg hslash]
      by_cases hstar : x = star
      · rw [if_pos hstar, if_pos hstar]
        exact ⟨⟨rfl, h.flag, by simp⟩, rfl⟩
      · rw [if_neg hstar, if_neg hstar]
        exact ⟨⟨rfl, h.flag, by simp⟩, rfl⟩

/-- **The program follows its dialect**: after every text its variables show the context. -/
theorem shows_lex (c : UInt8) (s : List UInt8) :
    Shows (machine.state (start c) s) (lex .program s) := by
  apply machine.state_rel (R := Shows) (fun v k x h => (h.switch x).1.readChar)
  exact ⟨rfl, rfl, by simp⟩

end SystemProgramming.Decomment
