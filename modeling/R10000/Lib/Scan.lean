/-
  Formatted input from a string, as `sscanf` and `atoi` of C do it in the "C" locale.

  A C string is the list of its bytes, as characters.  A format is a list of directives;
  `scan` returns the tokens that were stored, in order, until the first directive that
  does not match.  A token that does not fit its buffer with the terminating null is
  written past the end of it, for which there is no result.
-/
import Mathlib.Algebra.Group.Int.Defs
import Mathlib.Data.Int.Notation
import Mathlib.Data.List.Basic
import Mathlib.Data.List.TakeWhile
import Mathlib.Order.Basic
import Mathlib.Tactic.NormNum

namespace Scan

/-- `isspace` -/
def isSpace (c : Char) : Bool := c.toNat = 32 ∨ 9 ≤ c.toNat ∧ c.toNat ≤ 13

/-- A directive of a `scanf` format. -/
inductive Directive
  /-- White space in the format: any amount of it in the input. -/
  | space
  | literal (c : Char)
  /-- `%s`, into a buffer of `size` bytes. -/
  | string (size : ℕ)
  /-- `%[^stop]`, into a buffer of `size` bytes. -/
  | until (stop : Char) (size : ℕ)

/-- Store the token `t`, and go on with the rest of the input. -/
def store (t : List Char) (size : ℕ) (rest : Option (List (List Char))) :
    Option (List (List Char)) :=
  if t = [] then some []
  else if t.length < size then rest.map (t :: ·)
  else none

/-- The tokens that are stored; the result of `sscanf` is their number. -/
def scan : List Directive → List Char → Option (List (List Char))
  | [], _ => some []
  | .space :: format, s => scan format (s.dropWhile isSpace)
  | .literal c :: format, s => if s.head? = some c then scan format s.tail else some []
  | .string size :: format, s =>
    let s := s.dropWhile isSpace
    store (s.takeWhile fun c => !isSpace c) size (scan format (s.dropWhile fun c => !isSpace c))
  | .until stop size :: format, s =>
    store (s.takeWhile (· ≠ stop)) size (scan format (s.dropWhile (· ≠ stop)))

/-- The value of the decimal digits at the start of the string. -/
def digits (s : List Char) : ℕ :=
  (s.takeWhile Char.isDigit).foldl (fun n c => 10 * n + (c.toNat - 48)) 0

/-- `strtol` in base 10, with the range of a 64-bit `long`. -/
def strtol (s : List Char) : ℤ :=
  match s.dropWhile isSpace with
  | '-' :: s => max (-2 ^ 63) (-(digits s : ℤ))
  | '+' :: s => min (2 ^ 63 - 1) (digits s : ℤ)
  | s => min (2 ^ 63 - 1) (digits s : ℤ)

/-- `atoi`: the `long` is cut to an `int`. -/
def atoi (s : List Char) : Int32 := .ofInt (strtol s)

/-! ## Numerals -/

/-- The integer that the text starts with, after white space; zero if there is none. -/
def leadingInt (s : List Char) : ℤ :=
  match s.dropWhile isSpace with
  | '-' :: s => -(digits s : ℤ)
  | '+' :: s => digits s
  | s => digits s

/-- The decimal text of an integer. -/
def intText : ℤ → List Char
  | .ofNat n => Nat.toDigits 10 n
  | .negSucc n => '-' :: Nat.toDigits 10 (n + 1)

section
variable {s : List Char} {c : Char}

theorem digits_eq (s : List Char) :
    digits s = Nat.ofDigitChars 10 (s.takeWhile Char.isDigit) 0 := rfl

theorem digits_of_isDigit (h : ∀ c ∈ s, c.isDigit = true) :
    digits s = Nat.ofDigitChars 10 s 0 := by
  rw [digits_eq, List.takeWhile_eq_self_iff.2 h]

theorem digits_toDigits (n : ℕ) : digits (Nat.toDigits 10 n) = n := by
  rw [digits_of_isDigit fun c => Nat.isDigit_of_mem_toDigits (by decide) (by decide),
    Nat.ofDigitChars_ten_toDigits]

theorem isDigit_iff : c.isDigit = true ↔ 48 ≤ c.toNat ∧ c.toNat ≤ 57 := by
  simp only [Char.isDigit, Bool.and_eq_true, decide_eq_true_eq, ge_iff_le, UInt32.le_iff_toNat_le]
  exact Iff.rfl

theorem not_isSpace (h : c.isDigit = true) : isSpace c = false := by
  have := isDigit_iff.1 h
  simp only [isSpace, decide_eq_false_iff_not]
  omega

theorem ofDigitChars_lt : ∀ {s : List Char}, (∀ c ∈ s, c.isDigit = true) →
    Nat.ofDigitChars 10 s 0 < 10 ^ s.length
  | [], _ => by simp
  | c :: s, h => by
    have ih := ofDigitChars_lt fun d hd => h d (List.mem_cons_of_mem _ hd)
    have hc := isDigit_iff.1 (h c List.mem_cons_self)
    rw [Nat.ofDigitChars_cons, Nat.ofDigitChars_eq_ofDigitChars_zero, List.length_cons,
      Nat.pow_succ]
    have hlead : 10 ^ s.length * (10 * 0 + (c.toNat - '0'.toNat)) ≤ 10 ^ s.length * 9 :=
      Nat.mul_le_mul_left _ (by simp only [Char.reduceToNat]; omega)
    omega

theorem digits_lt {n : ℕ} (h : s.length ≤ n) : digits s < 10 ^ n := by
  rw [digits_eq]
  calc Nat.ofDigitChars 10 (s.takeWhile Char.isDigit) 0
      _ < 10 ^ (s.takeWhile Char.isDigit).length :=
        ofDigitChars_lt fun c hc => List.mem_takeWhile_imp hc
      _ ≤ 10 ^ n := Nat.pow_le_pow_right (by decide)
        ((List.takeWhile_prefix _).length_le.trans h)

/-- A short text is in the range of a `long`. -/
theorem strtol_eq (h : s.length ≤ 18) : strtol s = leadingInt s := by
  have hlt : ∀ t, t.length ≤ s.length → digits t < 2 ^ 63 := fun t ht =>
    (digits_lt (ht.trans h)).trans (by norm_num)
  have hlen : (s.dropWhile isSpace).length ≤ s.length :=
    (List.dropWhile_suffix _).length_le
  unfold strtol leadingInt
  split
  · next t ht =>
    have := hlt t (by rw [ht, List.length_cons] at hlen; omega)
    omega
  · next t ht =>
    have := hlt t (by rw [ht, List.length_cons] at hlen; omega)
    omega
  · have := hlt _ hlen
    omega

theorem dropWhile_space (h : ∀ c ∈ s.head?, isSpace c = false) : s.dropWhile isSpace = s := by
  cases s with
  | nil => rfl
  | cons c s => rw [List.dropWhile_cons, if_neg (by simpa using h c rfl)]

theorem leadingInt_of_isDigit (h : ∀ c ∈ s, c.isDigit = true) : leadingInt s = digits s := by
  have hhead : ∀ c ∈ s.head?, c.isDigit = true := fun c hc => h c (List.mem_of_head? hc)
  rw [leadingInt, dropWhile_space fun c hc => not_isSpace (hhead c hc)]
  split
  · cases hhead '-' rfl
  · cases hhead '+' rfl
  · rfl

theorem leadingInt_intText (n : ℤ) : leadingInt (intText n) = n := by
  have hdigit : ∀ k, ∀ c ∈ Nat.toDigits 10 k, c.isDigit = true := fun k c =>
    Nat.isDigit_of_mem_toDigits (by decide) (by decide)
  cases n with
  | ofNat n =>
    rw [intText, leadingInt_of_isDigit (hdigit n), digits_toDigits]
    rfl
  | negSucc n =>
    have hminus : isSpace '-' = false := by decide
    rw [intText, leadingInt, dropWhile_space fun c hc => by cases hc; exact hminus]
    simp only [digits_toDigits]
    rfl

end

section
variable {n : ℤ}

theorem intText_ne_nil (n : ℤ) : intText n ≠ [] := by
  cases n with
  | ofNat n => exact Nat.toDigits_ne_nil
  | negSucc n => exact List.cons_ne_nil _ _

theorem mem_intText {c : Char} (h : c ∈ intText n) : c = '-' ∨ c.isDigit = true := by
  cases n with
  | ofNat n => exact .inr (Nat.isDigit_of_mem_toDigits (by decide) (by decide) h)
  | negSucc n =>
    rcases List.mem_cons.1 h with rfl | h
    · exact .inl rfl
    · exact .inr (Nat.isDigit_of_mem_toDigits (by decide) (by decide) h)

theorem length_intText {n k : ℕ} (hk : 0 < k) : (intText n).length ≤ k ↔ n < 10 ^ k :=
  Nat.length_toDigits_le_iff (by decide) hk

end

/-! ## Fields -/

section
variable {t rest : List Char} {size : ℕ} {format : List Directive} {stop : Char}

theorem store_ok (hne : t ≠ []) (hlen : t.length < size) (rest : Option (List (List Char))) :
    store t size rest = rest.map (t :: ·) := by
  rw [store, if_neg hne, if_pos hlen]

/-- `%s` reads a token up to white space or the end. -/
theorem scan_string (hne : t ≠ []) (ht : ∀ c ∈ t, isSpace c = false) (hlen : t.length < size)
    (hrest : ∀ c ∈ rest.head?, isSpace c = true) :
    scan (.string size :: format) (t ++ rest) = (scan format rest).map (t :: ·) := by
  have hdrop : (t ++ rest).dropWhile isSpace = t ++ rest := by
    refine dropWhile_space fun c hc => ?_
    obtain ⟨d, t, rfl⟩ := List.exists_cons_of_ne_nil hne
    rw [List.cons_append, List.head?_cons, Option.mem_def, Option.some.injEq] at hc
    exact hc ▸ ht d List.mem_cons_self
  have ht' : ∀ c ∈ t, (!isSpace c) = true := fun c hc => by rw [ht c hc]; rfl
  simp only [scan, hdrop]
  rw [List.takeWhile_append_of_pos ht', List.dropWhile_append_of_pos ht']
  cases rest with
  | nil => simp [store_ok hne hlen]
  | cons c rest =>
    have hc : isSpace c = true := hrest c rfl
    simp [hc, store_ok hne hlen]

/-- `%[^stop]` reads a token up to the character that stops it. -/
theorem scan_until (hne : t ≠ []) (ht : stop ∉ t) (hlen : t.length < size) :
    scan (.until stop size :: format) (t ++ stop :: rest) =
      (scan format (stop :: rest)).map (t :: ·) := by
  have ht' : ∀ c ∈ t, decide (c ≠ stop) = true := fun c hc =>
    decide_eq_true fun h => ht (h ▸ hc)
  simp only [scan]
  rw [List.takeWhile_append_of_pos ht', List.dropWhile_append_of_pos ht']
  simp [store_ok hne hlen]

theorem scan_space (hrest : ∀ c ∈ rest.head?, isSpace c = false) :
    scan (.space :: format) (' ' :: rest) = scan format rest := by
  have hspace : isSpace ' ' = true := by decide
  rw [scan, List.dropWhile_cons, if_pos hspace, dropWhile_space hrest]

theorem scan_literal (c : Char) : scan (.literal c :: format) (c :: rest) = scan format rest := by
  simp [scan]

end

end Scan
