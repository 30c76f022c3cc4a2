import Mathlib.Data.List.Basic
import Mathlib.Tactic.Common
import Mathlib.Tactic.IntervalCases

/-!
# `Columns` — numbers in columns of text

Text that `printf` has laid out in columns, and how to read it back. A number is written in some
base up to 16 (`Nat.toDigits`) and padded on the left, with blanks or with zeros; a column or a
line ends with its separator. Reading skips the blanks (`trim`), gets the number from its digits
(`readNat`, `readInt`) and cuts the text at the separators (`pieces`). It fails on what is not a
number.
-/

set_option autoImplicit false

namespace Columns

abbrev Text := List Char

/-! ## Numbers -/

def digit? (c : Char) : Option ℕ :=
  if '0' ≤ c ∧ c ≤ '9' then some (c.toNat - '0'.toNat)
  else if 'a' ≤ c ∧ c ≤ 'f' then some (c.toNat - 'a'.toNat + 10)
  else none

def push (b n : ℕ) (c : Char) : Option ℕ := (digit? c).map fun d => b * n + d

/-- A number in base `b`: at least one digit, and nothing else. -/
def readNat (b : ℕ) (xs : Text) : Option ℕ :=
  if xs = [] then none else xs.foldlM (push b) 0

def showInt (z : ℤ) : Text :=
  if z < 0 then '-' :: Nat.toDigits 10 z.natAbs else Nat.toDigits 10 z.natAbs

def readInt : Text → Option ℤ
  | '-' :: xs => (readNat 10 xs).map fun n : ℕ => -(n : ℤ)
  | xs => (readNat 10 xs).map fun n : ℕ => (n : ℤ)

/-- At least `w` characters, with `a` put in front. -/
def pad (a : Char) (w : ℕ) (xs : Text) : Text := xs.leftpad w a

def blanks (k : ℕ) : Text := List.replicate k ' '

def trim (xs : Text) : Text := xs.dropWhile (· = ' ')

section Numbers

variable {b n w : ℕ} {c : Char} {xs : Text}

@[simp] theorem digit?_digitChar (h : n < 16) : digit? n.digitChar = some n := by
  interval_cases n <;> rfl

theorem push_digitChar {k : ℕ} (h : k < 16) (b n : ℕ) :
    push b n k.digitChar = some (b * n + k) := by
  simp [push, h]

theorem digit?_of_mem_toDigits (hb : 1 < b) (hle : b ≤ 16) (h : c ∈ Nat.toDigits b n) :
    (digit? c).isSome := by
  induction n using Nat.strong_induction_on with
  | _ n ih =>
    rw [Nat.toDigits_eq_if hb] at h
    split at h
    · rename_i hlt
      obtain rfl := List.mem_singleton.mp h
      rw [digit?_digitChar (by omega)]
      rfl
    · obtain hrest | hlast := List.mem_append.mp h
      · exact ih (n / b) (Nat.div_lt_self (by omega) hb) hrest
      · obtain rfl := List.mem_singleton.mp hlast
        have hmod := Nat.mod_lt n (show 0 < b by omega)
        rw [digit?_digitChar (by omega)]
        rfl

theorem not_mem_toDigits (hb : 1 < b) (hle : b ≤ 16) (hc : digit? c = none) :
    c ∉ Nat.toDigits b n := by
  intro h
  have hsome := digit?_of_mem_toDigits hb hle h
  rw [hc] at hsome
  cases hsome

theorem foldlM_toDigits (hb : 1 < b) (hle : b ≤ 16) (n : ℕ) :
    (Nat.toDigits b n).foldlM (push b) 0 = some n := by
  induction n using Nat.strong_induction_on with
  | _ n ih =>
    rw [Nat.toDigits_eq_if hb]
    split
    · rename_i hlt
      simp [push_digitChar (show n < 16 by omega)]
    · have hmod := Nat.mod_lt n (show 0 < b by omega)
      rw [List.foldlM_append, ih (n / b) (Nat.div_lt_self (by omega) hb)]
      simp [push_digitChar (show n % b < 16 by omega), Nat.div_add_mod]

/-- **A number reads back.** -/
@[simp] theorem readNat_toDigits (hb : 1 < b) (hle : b ≤ 16) (n : ℕ) :
    readNat b (Nat.toDigits b n) = some n := by
  unfold readNat
  rw [if_neg Nat.toDigits_ne_nil, foldlM_toDigits hb hle]

theorem foldlM_zeros (b k : ℕ) (xs : Text) :
    (List.replicate k '0' ++ xs).foldlM (push b) 0 = xs.foldlM (push b) 0 := by
  induction k with
  | zero => rfl
  | succ k ih =>
    have hzero : push b 0 '0' = some 0 := rfl
    rw [List.replicate_succ, List.cons_append, List.foldlM_cons, hzero]
    exact ih

theorem readNat_zeros (b w : ℕ) (h : xs ≠ []) :
    readNat b (pad '0' w xs) = readNat b xs := by
  unfold readNat pad List.leftpad
  rw [foldlM_zeros, if_neg (by simp [h]), if_neg h]

@[simp] theorem readInt_showInt (z : ℤ) : readInt (showInt z) = some z := by
  unfold showInt
  split
  · rename_i hneg
    simp only [readInt, readNat_toDigits (show 1 < 10 by omega) (show 10 ≤ 16 by omega),
      Option.map_some]
    rw [← Int.abs_eq_natAbs, abs_of_neg hneg, neg_neg]
  · rename_i hpos
    have hsign : '-' ∉ Nat.toDigits 10 z.natAbs := not_mem_toDigits (by omega) (by omega) rfl
    have hread : readInt (Nat.toDigits 10 z.natAbs) =
        (readNat 10 (Nat.toDigits 10 z.natAbs)).map fun n : ℕ => (n : ℤ) := by
      unfold readInt
      split
      · rename_i xs heq
        rw [heq] at hsign
        simp at hsign
      · rfl
    rw [hread, readNat_toDigits (by omega) (by omega), Option.map_some,
      Int.natAbs_of_nonneg (Int.not_lt.mp hpos)]

theorem not_mem_showInt {z : ℤ} (hc : digit? c = none) (hsign : c ≠ '-') : c ∉ showInt z := by
  have hdigits : c ∉ Nat.toDigits 10 z.natAbs := not_mem_toDigits (by omega) (by omega) hc
  unfold showInt
  split <;> simp [hdigits, hsign]

/-! ## Blanks -/

theorem trim_of_not_mem (h : ' ' ∉ xs) : trim xs = xs := by
  unfold trim
  cases xs with
  | nil => rfl
  | cons x xs =>
    have hx : x ≠ ' ' := fun heq => h (heq ▸ List.mem_cons_self)
    simp [hx]

@[simp] theorem trim_blanks (k : ℕ) (xs : Text) : trim (blanks k ++ xs) = trim xs := by
  unfold trim
  apply List.dropWhile_append_of_pos
  intro a ha
  simp [List.eq_of_mem_replicate ha]

@[simp] theorem trim_cons (xs : Text) : trim (' ' :: xs) = trim xs := trim_blanks 1 xs

@[simp] theorem trim_pad (w : ℕ) (xs : Text) : trim (pad ' ' w xs) = trim xs :=
  trim_blanks _ xs

@[simp] theorem trim_toDigits (hb : 1 < b) (hle : b ≤ 16) (n : ℕ) :
    trim (Nat.toDigits b n) = Nat.toDigits b n :=
  trim_of_not_mem (not_mem_toDigits hb hle rfl)

@[simp] theorem trim_showInt (z : ℤ) : trim (showInt z) = showInt z :=
  trim_of_not_mem (not_mem_showInt rfl (by decide))

theorem not_mem_blanks {k : ℕ} (hne : c ≠ ' ') : c ∉ blanks k :=
  fun h => hne (List.eq_of_mem_replicate h)

theorem mem_pad {a : Char} (h : c ∈ pad a w xs) : c = a ∨ c ∈ xs := by
  unfold pad List.leftpad at h
  obtain hpad | hin := List.mem_append.mp h
  · exact .inl (List.eq_of_mem_replicate hpad)
  · exact .inr hin

theorem not_mem_pad {a : Char} (hne : c ≠ a) (h : c ∉ xs) : c ∉ pad a w xs := by
  intro hin
  obtain heq | hmem := mem_pad hin
  · exact hne heq
  · exact h hmem

end Numbers

/-! ## Separators -/

/-- Pieces of text, each with the separator behind it. -/
def terminated (sep : Char) (pieces : List Text) : Text := pieces.flatMap (· ++ [sep])

/-- The pieces of a text, the last of which is what stands behind the last separator. -/
def pieces (sep : Char) (xs : Text) : List Text := xs.splitOn sep

section Separators

variable {sep : Char} {xs : Text} {rows : List Text}

/-- **Pieces that do not hold the separator can be told apart again.** -/
theorem pieces_terminated (h : ∀ xs ∈ rows, sep ∉ xs) :
    pieces sep (terminated sep rows) = rows ++ [[]] := by
  unfold pieces terminated
  induction rows with
  | nil => rfl
  | cons xs rows ih =>
    obtain ⟨hxs, hrows⟩ := List.forall_mem_cons.mp h
    rw [List.flatMap_cons, List.append_assoc, List.singleton_append,
      List.splitOn_append_cons_self_of_not_mem hxs, ih hrows, List.cons_append]

theorem not_mem_terminated {c : Char} (hsep : c ≠ sep) (h : ∀ xs ∈ rows, c ∉ xs) :
    c ∉ terminated sep rows := by
  unfold terminated
  intro hin
  obtain ⟨xs, hxs, hmem⟩ := List.mem_flatMap.mp hin
  obtain hmem | hmem := List.mem_append.mp hmem
  · exact h xs hxs hmem
  · exact hsep (List.mem_singleton.mp hmem)

end Separators

end Columns
