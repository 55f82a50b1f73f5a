import SystemProgramming.Decomment.Lexer

/-!
# Where the program and the lexer of C agree

The two dialects part at a quote directly behind a slash, and at a quote that closes a constant directly
behind an escaped backslash.  Up to the first such quote they stand in the same context, or the program
takes an escaped backslash for one that escapes (`Near`).

* `near_of_steps`: up to the first misread quote the two lexers stay near each other.
* `decomment_tracks_context`: the program tracks the context of C exactly when it misreads no quote.
* `decomment_tracks_context_fails`: it misreads one in each of the two ways.
-/

namespace SystemProgramming.Decomment

/-- The state of the program says what the context is. -/
structure Tracks (v : Vars) (k : Context) : Prop where
  constant : v.state = .QUOTE ↔ k.InConstant
  line : v.state = .SINGLELINE ↔ k = .line
  block : v.state = .MULTILINE ∨ v.state = .WAIT_END ↔ k.InBlock

/-- The quote `x` opens a constant directly behind a slash. -/
def OpensBehindSlash (u : List UInt8) (x : UInt8) : Prop :=
  lex .c u = .slash ∧ (x = doubleQuote ∨ x = singleQuote)

/-- The quote `x` closes a constant directly behind an escaped backslash. -/
def ClosesBehindBackslash (u : List UInt8) (x : UInt8) : Prop :=
  ∃ w q, u = w ++ [backslash] ∧ lex .c w = .constant q true ∧ x = q.1

/-- The program takes the character `x` behind the text `u` for something else. -/
def Misread (u : List UInt8) (x : UInt8) : Prop := OpensBehindSlash u x ∨ ClosesBehindBackslash u x

/-- The dialects agree on `u`, or `u` ends in an escaped backslash that the program takes for one that
escapes. -/
def Near (u : List UInt8) : Prop :=
  lex .program u = lex .c u ∨ ∃ w q, u = w ++ [backslash] ∧ lex .c w = .constant q true ∧
    lex .c u = .constant q false ∧ lex .program u = .constant q true

variable {u : List UInt8} {k : Context} {x : UInt8} {q : Quote} {c : UInt8} {v : Vars}

/-- Where the dialects part. -/
theorem next_program (k : Context) (x : UInt8) : next .program k x = next .c k x ∨
    (k = .slash ∧ (x = doubleQuote ∨ x = singleQuote)) ∨
    ∃ q, k = .constant q true ∧ x = backslash := by
  cases k with
  | slash =>
    by_cases hquote : x = doubleQuote ∨ x = singleQuote
    · exact Or.inr (Or.inl ⟨rfl, hquote⟩)
    · left
      by_cases hslash : x = slash
      · rw [next, next, if_pos hslash, if_pos hslash]
      · have hcode : inCode x = .code := by rw [inCode, if_neg hslash, dif_neg hquote]
        rw [next, next, hcode, ite_self, ite_self]
  | constant q b =>
    cases b with
    | false => exact Or.inl rfl
    | true =>
      by_cases hback : x = backslash
      · exact Or.inr (Or.inr ⟨q, rfl, hback⟩)
      · left
        rw [next, next, if_neg fun h => hback h.1, if_neg fun h => hback h.1]
  | code | line | block | star => exact Or.inl rfl

/-- For the program a backslash in a constant always escapes. -/
theorem next_program_backslash (k : Context) (q : Quote) :
    next .program k backslash ≠ .constant q false := by
  cases k with
  | constant q' b => cases b <;> simp [next, Dialect.program]
  | code | slash | line | block | star =>
    intro h
    cases h

theorem lex_c_of_closes (h : ClosesBehindBackslash u x) : ∃ q, lex .c u = .constant q false ∧ x = q.1 := by
  obtain ⟨w, q, rfl, hw, hx⟩ := h
  refine ⟨q, ?_, hx⟩
  rw [lex_concat, hw]
  rfl

theorem Near.concat (h : Near u) (hx : ¬ Misread u x) : Near (u ++ [x]) := by
  unfold Near
  rw [lex_concat, lex_concat]
  rcases h with hsame | ⟨w, q, hu, hw, hc, hp⟩
  · rw [hsame]
    rcases next_program (lex .c u) x with heq | ⟨hslash, hquote⟩ | ⟨q, hk, hback⟩
    · exact Or.inl heq
    · exact absurd (Or.inl ⟨hslash, hquote⟩) hx
    · right
      rw [hk, hback]
      exact ⟨u, q, rfl, hk, rfl, rfl⟩
  · left
    have hclose : x ≠ q.1 := fun heq => hx (Or.inr ⟨w, q, hu, hw, heq⟩)
    rw [hc, hp, next, next]
    by_cases hback : x = backslash
    · rw [if_pos ⟨hback, rfl⟩, if_pos hback]
    · rw [if_neg fun h => hback h.1, if_neg hback, if_neg hclose]

/-- Where no character is misread the dialects stay near. -/
theorem near_of_steps {s : List UInt8} (hstep : ∀ u x w, s = u ++ x :: w → Near u → ¬ Misread u x) :
    ∀ u w, s = u ++ w → Near u := by
  intro u
  induction u using List.reverseRecOn with
  | nil => exact fun w _ => Or.inl rfl
  | append_singleton u x ih =>
    intro w hs
    rw [List.append_assoc] at hs
    exact (ih _ hs).concat (hstep u x w hs (ih _ hs))

/-! ### What the state says -/

theorem Shows.tracks (h : Shows v k) : Tracks v k := by
  constructor
  · rw [h.state]
    cases k <;> simp [Context.state, Context.InConstant]
  · rw [h.state]
    cases k <;> simp [Context.state]
  · rw [h.state]
    cases k <;> simp [Context.state, Context.InBlock]

/-- Inside a constant the pending backslash does not matter. -/
theorem Tracks.constant_iff {b b' : Bool} (h : Tracks v (.constant q b)) :
    Tracks v (.constant q b') := by
  refine ⟨h.constant, h.line.trans ?_, h.block.trans ?_⟩
  · exact iff_of_false (by simp) (by simp)
  · exact iff_of_false (by simp [Context.InBlock]) (by simp [Context.InBlock])

theorem Near.tracks (h : Near u) : Tracks (machine.state (start c) u) (lex .c u) := by
  have ht := (shows_lex c u).tracks
  rcases h with hsame | ⟨w, q, -, -, hc, hp⟩
  · rwa [hsame] at ht
  · rw [hp] at ht
    rw [hc]
    exact ht.constant_iff

/-- A character that is misread puts the program out of step. -/
theorem Near.not_tracks (h : Near u) (hx : Misread u x) :
    ¬ Tracks (machine.state (start c) (u ++ [x])) (lex .c (u ++ [x])) := by
  intro ht
  have hstate := (shows_lex c (u ++ [x])).state
  rw [lex_concat] at hstate ht
  rcases hx with ⟨hslash, hquote⟩ | hclose
  · have hp : lex .program u = .slash := by
      rcases h with hsame | ⟨w, q, -, -, hc, -⟩
      · exact hsame.trans hslash
      · rw [hslash] at hc
        cases hc
    have hopen : (next .c .slash x).InConstant := by
      rcases hquote with rfl | rfl <;> trivial
    rw [hp] at hstate
    rw [hslash] at ht
    rw [ht.constant.mpr hopen] at hstate
    rcases hquote with rfl | rfl <;> cases hstate
  · obtain ⟨q, hc, rfl⟩ := lex_c_of_closes hclose
    obtain ⟨w, q', rfl, hw, -⟩ := hclose
    have hp : lex .program (w ++ [backslash]) = .constant q true := by
      rcases h with hsame | ⟨w', q'', -, -, hc', hp⟩
      · rw [hc, lex_concat] at hsame
        exact absurd hsame (next_program_backslash _ q)
      · rw [hc] at hc'
        cases hc'
        exact hp
    have hcode : next .c (.constant q false) q.1 = .code := by
      rw [next, if_neg q.ne_backslash, if_pos rfl]
    have hstay : next .program (.constant q true) q.1 = .constant q false := by
      rw [next, if_neg fun h => q.ne_backslash h.1]
    rw [hp, hstay] at hstate
    rw [hc, hcode] at ht
    exact ht.constant.mp hstate

/-- **The program tracks the context of C** after every prefix of a text if and only if it misreads no
character: no quote opens a constant directly behind a slash, and none closes one directly behind an
escaped backslash. -/
theorem decomment_tracks_context (c : UInt8) (s : List UInt8) :
    (∀ u, List.IsPrefix u s → Tracks (machine.state (start c) u) (lex .c u)) ↔
      ∀ u x w, s = u ++ x :: w → ¬ Misread u x := by
  constructor
  · intro h
    have hstep : ∀ u x w, s = u ++ x :: w → Near u → ¬ Misread u x := by
      intro u x w hs hu hx
      apply hu.not_tracks hx
      apply h
      exact ⟨w, by rw [hs, List.append_assoc]; rfl⟩
    exact fun u x w hs => hstep u x w hs (near_of_steps hstep u _ hs)
  · intro h u hu
    obtain ⟨w, hs⟩ := hu
    exact (near_of_steps (fun u x w hs _ => h u x w hs) u w hs.symm).tracks

/-- After the constant that holds two backslashes the program still waits for its end. -/
theorem decomment_tracks_context_fails :
    ¬ ∀ u, List.IsPrefix u [doubleQuote, backslash, backslash, doubleQuote] →
      Tracks (machine.state (start 0) u) (lex .c u) := by
  intro h
  have ht := (h _ List.prefix_rfl).constant
  exact ht.mp (by decide)

end SystemProgramming.Decomment
