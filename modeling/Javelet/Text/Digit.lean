/-!
# Digits

The value of a digit in the radices 2 to 36 and the reading of digit strings. Only
ASCII digits and letters count.
-/
namespace Javelet.Text

/-- The value of an ASCII digit or letter as a digit. -/
def digitValue? (c : Char) : Option Nat :=
  if '0' ≤ c ∧ c ≤ '9' then some (c.toNat - '0'.toNat)
  else if 'a' ≤ c ∧ c ≤ 'z' then some (c.toNat - 'a'.toNat + 10)
  else if 'A' ≤ c ∧ c ≤ 'Z' then some (c.toNat - 'A'.toNat + 10)
  else none

/-- Whether a character is a digit of the radix. -/
def isDigitOf (radix : Nat) (c : Char) : Bool :=
  match digitValue? c with
  | some v => v < radix
  | none => false

/-- The value of a digit string, most significant digit first; characters that are
no digits count as zero. -/
def digitsValue (radix : Nat) (cs : List Char) : Nat :=
  cs.foldl (fun value c => value * radix + (digitValue? c).getD 0) 0

theorem digitsValue_concat (radix : Nat) (cs : List Char) (c : Char) :
    digitsValue radix (cs ++ [c]) = digitsValue radix cs * radix + (digitValue? c).getD 0 := by
  simp only [digitsValue, List.foldl_append, List.foldl_cons, List.foldl_nil]

/-- The value of a nonempty string of digits of the radix. -/
def readDigits? (radix : Nat) (cs : List Char) : Option Nat :=
  if cs ≠ [] ∧ cs.all (isDigitOf radix) = true then some (digitsValue radix cs) else none

/-- Lower-case hexadecimal digits, without leading zeros. -/
def hexDigits (n : Nat) : List Char := Nat.toDigits 16 n

/-- Lower-case hexadecimal digits, with leading zeros up to four places. -/
def hexDigits4 (n : Nat) : List Char :=
  let digits := hexDigits n
  List.replicate (4 - digits.length) '0' ++ digits

theorem digitValue?_digitChar : ∀ k < 16, digitValue? (Nat.digitChar k) = some k := by decide

theorem exists_of_mem_hexDigits {n : Nat} {c : Char} (h : c ∈ hexDigits n) :
    ∃ k < 16, c = Nat.digitChar k := by
  induction n using Nat.strongRecOn with
  | ind n ih =>
    rw [hexDigits, Nat.toDigits_eq_if (by decide)] at h
    split at h
    · rename_i hlt
      exact ⟨n, hlt, List.mem_singleton.1 h⟩
    · rcases List.mem_append.1 h with h | h
      · exact ih (n / 16) (by omega) h
      · exact ⟨n % 16, Nat.mod_lt n (by decide), List.mem_singleton.1 h⟩

/-- Hexadecimal digits are read back. -/
theorem digitsValue_hexDigits (n : Nat) : digitsValue 16 (hexDigits n) = n := by
  induction n using Nat.strongRecOn with
  | ind n ih =>
    rw [hexDigits, Nat.toDigits_eq_if (by decide)]
    split
    · rename_i hlt
      simp [digitsValue, digitValue?_digitChar n hlt]
    · rw [digitsValue_concat, digitValue?_digitChar _ (Nat.mod_lt n (by decide)),
        show digitsValue 16 (Nat.toDigits 16 (n / 16)) = n / 16 from ih (n / 16) (by omega)]
      exact Nat.div_add_mod' n 16

theorem exists_of_mem_hexDigits4 {n : Nat} {c : Char} (h : c ∈ hexDigits4 n) :
    ∃ k < 16, c = Nat.digitChar k := by
  rcases List.mem_append.1 h with h | h
  · exact ⟨0, by decide, (List.mem_replicate.1 h).2⟩
  · exact exists_of_mem_hexDigits h

/-- Leading zeros do not count. -/
theorem digitsValue_replicate_zero (radix k : Nat) (cs : List Char) :
    digitsValue radix (List.replicate k '0' ++ cs) = digitsValue radix cs := by
  induction k with
  | zero => rfl
  | succ k ih =>
    have hzero : (digitValue? '0').getD 0 = 0 := by decide
    rw [← ih, List.replicate_succ, List.cons_append, digitsValue, List.foldl_cons, hzero,
      Nat.zero_mul, digitsValue]

/-- Four digits are enough for what fits into sixteen bits. -/
theorem length_hexDigits4 {n : Nat} (h : n < 0x10000) : (hexDigits4 n).length = 4 := by
  have hlength : (hexDigits n).length ≤ 4 := (Nat.length_toDigits_le_iff (by decide) (by decide)).2 h
  rw [hexDigits4, List.length_append, List.length_replicate]
  omega

theorem readDigits?_hexDigits4 (n : Nat) : readDigits? 16 (hexDigits4 n) = some n := by
  have hne : hexDigits4 n ≠ [] := List.append_ne_nil_of_right_ne_nil _ Nat.toDigits_ne_nil
  have hall : (hexDigits4 n).all (isDigitOf 16) = true := by
    refine List.all_eq_true.2 fun c hc => ?_
    obtain ⟨k, hk, rfl⟩ := exists_of_mem_hexDigits4 hc
    rw [isDigitOf, digitValue?_digitChar k hk]
    exact decide_eq_true hk
  rw [readDigits?, if_pos ⟨hne, hall⟩, hexDigits4, digitsValue_replicate_zero,
    digitsValue_hexDigits]

end Javelet.Text
