import SystemProgramming.Lib.Strtol
import Mathlib.Tactic.Common

/-!
# Fields of a format

`%*s`, `%-*s` and `%*llu` with a field width, and a reader for numbers in a text.  A number that has been
written is the one that is read (`nextNumber_decimal`), and its field is wider than asked for only when
it has too many digits (`length_padLeft_decimal`).
-/

namespace SystemProgramming

theorem blank_ne_nul : (32 : UInt8) ≠ 0 := by decide

/-- `' '` -/
def blank : CChar := ⟨32, blank_ne_nul⟩

/-- A character of the format. -/
def cchar (c : Char) : CChar := if h : UInt8.ofNat c.toNat ≠ 0 then ⟨UInt8.ofNat c.toNat, h⟩ else blank

/-- A text of the format. -/
def literal (s : String) : Str := s.toList.map cchar

/-- `%*s`: at the right edge of the field. -/
def padLeft (width : ℕ) (s : Str) : Str := List.replicate (width - s.length) blank ++ s

/-- `%-*s`: at the left edge of the field. -/
def padRight (width : ℕ) (s : Str) : Str := s ++ List.replicate (width - s.length) blank

/-- `%llu` -/
def decimal (n : ℕ) : Str := (Nat.toDigits 10 n).map cchar

/-- The next number in a text, and what follows it. -/
def nextNumber (s : Str) : ℕ × Str :=
  let t := s.dropWhile fun c => !isdigit c
  (digits 0 t, t.dropWhile isdigit)

/-- The next `k` numbers in a text. -/
def numbers : ℕ → Str → List ℕ
  | 0, _ => []
  | k + 1, s => (nextNumber s).1 :: numbers k (nextNumber s).2

variable {s t : Str} {k n width : ℕ}

/-! ### The width of a field -/

theorem length_padLeft (width : ℕ) (s : Str) : (padLeft width s).length = max width s.length := by
  rw [padLeft, List.length_append, List.length_replicate]
  omega

theorem length_padRight (width : ℕ) (s : Str) : (padRight width s).length = max width s.length := by
  rw [padRight, List.length_append, List.length_replicate]
  omega

theorem decimal_eq (n : ℕ) : decimal n
    = if n < 10 then [cchar (Nat.digitChar n)] else decimal (n / 10) ++ [cchar (Nat.digitChar (n % 10))] := by
  unfold decimal
  rw [Nat.toDigits_eq_if (by decide)]
  split_ifs
  · rfl
  · rw [List.map_append]
    rfl

theorem length_decimal_le_iff (hk : 0 < k) : (decimal n).length ≤ k ↔ n < 10 ^ k := by
  rw [decimal, List.length_map]
  exact Nat.length_toDigits_le_iff (by decide) hk

/-- A number fills its field when it has few digits. -/
theorem length_padLeft_decimal (hk : 0 < k) :
    (padLeft k (decimal n)).length = k ↔ n < 10 ^ k := by
  rw [length_padLeft, ← length_decimal_le_iff hk]
  omega

/-! ### Reading a number -/

theorem isdigit_digitChar (h : n < 10) : isdigit (cchar (Nat.digitChar n)) = true ∧
    (cchar (Nat.digitChar n)).1.toNat - 48 = n := by
  have hall : ∀ m < 10, isdigit (cchar (Nat.digitChar m)) = true ∧
      (cchar (Nat.digitChar m)).1.toNat - 48 = m := by decide
  exact hall n h

theorem isdigit_of_mem_decimal {c : CChar} (hc : c ∈ decimal n) : isdigit c = true := by
  induction n using Nat.strongRecOn with
  | _ n ih =>
    rw [decimal_eq] at hc
    split_ifs at hc with hn
    · rw [List.mem_singleton.mp hc]
      exact (isdigit_digitChar hn).1
    · rcases List.mem_append.mp hc with hc | hc
      · exact ih (n / 10) (by omega) hc
      · rw [List.mem_singleton.mp hc]
        exact (isdigit_digitChar (Nat.mod_lt n (by decide))).1

theorem digits_append (hs : ∀ c ∈ s, isdigit c = true) (m : ℕ) (t : Str) :
    digits m (s ++ t) = digits (digits m s) t := by
  induction s generalizing m with
  | nil => rfl
  | cons c s ih =>
    have hc := hs c List.mem_cons_self
    rw [List.cons_append, digits, digits, if_pos hc, if_pos hc]
    exact ih (fun d hd => hs d (List.mem_cons_of_mem c hd)) _

theorem digits_decimal (n : ℕ) : digits 0 (decimal n) = n := by
  induction n using Nat.strongRecOn with
  | _ n ih =>
    rw [decimal_eq]
    split_ifs with hn
    · obtain ⟨hdigit, hvalue⟩ := isdigit_digitChar hn
      rw [digits, if_pos hdigit, hvalue, digits]
      omega
    · obtain ⟨hdigit, hvalue⟩ := isdigit_digitChar (Nat.mod_lt n (by decide : 0 < 10))
      rw [digits_append (fun c hc => isdigit_of_mem_decimal hc), ih (n / 10) (by omega), digits,
        if_pos hdigit, hvalue, digits]
      omega

theorem digits_of_head (h : ∀ c, t.head? = some c → isdigit c = false) (m : ℕ) : digits m t = m := by
  cases t with
  | nil => rfl
  | cons c t => rw [digits, if_neg (by rw [h c rfl]; decide)]

theorem decimal_ne_nil (n : ℕ) : decimal n ≠ [] := by
  rw [decimal_eq]
  split_ifs
  · exact List.cons_ne_nil _ _
  · exact fun h => List.cons_ne_nil _ _ (List.append_eq_nil_iff.mp h).2

/-- A text without digits. -/
def NoDigit (s : Str) : Prop := ∀ c ∈ s, isdigit c = false

instance (s : Str) : Decidable (NoDigit s) := List.decidableBAll (isdigit · = false) s

theorem noDigit_replicate (k : ℕ) : NoDigit (List.replicate k blank) := by
  intro c hc
  rw [List.eq_of_mem_replicate hc]
  decide

/-- A text without digits is passed over. -/
theorem nextNumber_append (hs : NoDigit s) (t : Str) : nextNumber (s ++ t) = nextNumber t := by
  unfold nextNumber
  rw [List.dropWhile_append_of_pos fun c hc => by rw [hs c hc]; rfl]

/-- **A number that has been written is read**, in front of a text that does not begin with a digit. -/
theorem nextNumber_decimal (ht : ∀ c, t.head? = some c → isdigit c = false) :
    nextNumber (decimal n ++ t) = (n, t) := by
  have hstart : (decimal n ++ t).dropWhile (fun c => !isdigit c) = decimal n ++ t := by
    obtain ⟨c, rest, hc⟩ := List.exists_cons_of_ne_nil (decimal_ne_nil n)
    have hdigit : isdigit c = true := isdigit_of_mem_decimal (n := n) (by rw [hc]; exact List.mem_cons_self)
    rw [hc, List.cons_append, List.dropWhile_cons_of_neg (by rw [hdigit]; decide)]
  have hrest : (decimal n ++ t).dropWhile isdigit = t := by
    rw [List.dropWhile_append_of_pos fun c hc => isdigit_of_mem_decimal hc]
    cases t with
    | nil => rfl
    | cons c t => rw [List.dropWhile_cons_of_neg (by rw [ht c rfl]; decide)]
  unfold nextNumber
  simp only [hstart, hrest]
  rw [digits_append fun c hc => isdigit_of_mem_decimal hc, digits_decimal, digits_of_head ht]

/-- The same for a number in a field. -/
theorem nextNumber_padLeft (ht : ∀ c, t.head? = some c → isdigit c = false) (width : ℕ) :
    nextNumber (padLeft width (decimal n) ++ t) = (n, t) := by
  rw [padLeft, List.append_assoc, nextNumber_append (noDigit_replicate _), nextNumber_decimal ht]

theorem numbers_append (hs : NoDigit s) (k : ℕ) (t : Str) : numbers k (s ++ t) = numbers k t := by
  cases k with
  | zero => rfl
  | succ k => rw [numbers, numbers, nextNumber_append hs]

/-- The numbers of a text are read one after the other. -/
theorem numbers_decimal (ht : ∀ c, t.head? = some c → isdigit c = false) :
    numbers (k + 1) (decimal n ++ t) = n :: numbers k t := by
  rw [numbers, nextNumber_decimal ht]

theorem numbers_padLeft (ht : ∀ c, t.head? = some c → isdigit c = false) (width : ℕ) :
    numbers (k + 1) (padLeft width (decimal n) ++ t) = n :: numbers k t := by
  rw [numbers, nextNumber_padLeft ht]

end SystemProgramming
