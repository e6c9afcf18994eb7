import Mathlib.Data.List.Infix
import Mathlib.Data.List.Intervals

/-!
# Texts of numbers

A line of numbers separated by blanks, as shell scripts keep in files, and the
prefix test `${a#"$b"} != $a` that such scripts do on it.

- `decimal` is the text of a number, without a blank in it
  (`blank_notMem_decimal`), and different for different numbers.
- `numberLine` is a line of numbers, each followed by one blank. Without the blank
  behind the last one `1 11` would begin with `1 1`.
- `numberLine_prefix_iff`: **the textual prefix test is the test on the numbers**,
  when the shorter line is not empty. The induction is on the two lists; the words
  up to the first blank are compared at each step (`word_eq_of_line`).
-/

namespace Jhalfs.Text

/-- The decimal text of a number, as `echo` writes it. -/
def decimal (n : Nat) : List Char := Nat.toDigits 10 n

theorem decimal_injective : Function.Injective decimal := by
  intro m n h
  have key : ∀ k, Nat.ofDigitChars 10 (decimal k) 0 = k := fun k =>
    Nat.ofDigitChars_ten_toDigits
  rw [← key m, h, key n]

theorem decimal_ne_nil (n : Nat) : decimal n ≠ [] := Nat.toDigits_ne_nil

theorem isDigit_of_mem_decimal {n : Nat} {c : Char} (h : c ∈ decimal n) : c.isDigit :=
  Nat.isDigit_of_mem_toDigits (by decide) (by decide) h

theorem blank_notMem_decimal (n : Nat) : ' ' ∉ decimal n := by
  intro h
  have := isDigit_of_mem_decimal h
  revert this
  decide

/-- The numbers of a line, each followed by one blank; an empty line keeps its
one trailing blank. -/
def numberLine (l : List Nat) : List Char :=
  [' '].intercalate (l.map decimal) ++ [' ']

@[simp] theorem numberLine_nil : numberLine [] = [' '] := rfl

theorem numberLine_singleton (n : Nat) : numberLine [n] = decimal n ++ [' '] := by
  simp [numberLine, List.intercalate]

theorem numberLine_cons_cons (n m : Nat) (l : List Nat) :
    numberLine (n :: m :: l) = decimal n ++ ' ' :: numberLine (m :: l) := by
  simp [numberLine, List.intercalate]

/-- Two words that end at their first blank are equal when their lines begin
alike. -/
theorem word_eq_of_line {u v s t : List Char} (hu : ' ' ∉ u) (hv : ' ' ∉ v)
    (h : u ++ ' ' :: s <+: v ++ ' ' :: t) : u = v ∧ s <+: t := by
  induction u generalizing v with
  | nil =>
    cases v with
    | nil =>
      have := List.cons_prefix_cons.mp h
      exact ⟨rfl, this.2⟩
    | cons c v =>
      have := (List.cons_prefix_cons.mp h).1
      exact absurd (this ▸ List.mem_cons_self) hv
  | cons c u ih =>
    cases v with
    | nil =>
      have := (List.cons_prefix_cons.mp h).1
      exact absurd (this ▸ List.mem_cons_self) hu
    | cons d v =>
      obtain ⟨hcd, hrest⟩ := List.cons_prefix_cons.mp h
      obtain ⟨huv, hst⟩ := ih (fun hm => hu (List.mem_cons_of_mem _ hm))
        (fun hm => hv (List.mem_cons_of_mem _ hm)) hrest
      exact ⟨by rw [hcd, huv], hst⟩

/-- The text of a line after its first number: nothing, or the rest of the
numbers. -/
def restLine : List Nat → List Char
  | [] => []
  | m :: l => numberLine (m :: l)

theorem numberLine_cons (n : Nat) (l : List Nat) :
    numberLine (n :: l) = decimal n ++ ' ' :: restLine l := by
  cases l with
  | nil => exact numberLine_singleton n
  | cons m l => exact numberLine_cons_cons n m l

theorem restLine_eq_nil {l : List Nat} (h : restLine l = []) : l = [] := by
  cases l with
  | nil => rfl
  | cons m l =>
    rw [restLine, numberLine_cons] at h
    exact absurd (List.append_eq_nil_iff.mp h).1 (decimal_ne_nil m)

/-- **The textual prefix test is the test on the numbers**, when the shorter
line is not empty. -/
theorem numberLine_prefix_iff {l m : List Nat} (hl : l ≠ []) :
    numberLine l <+: numberLine m ↔ l <+: m := by
  induction l generalizing m with
  | nil => exact absurd rfl hl
  | cons a l ih =>
    cases m with
    | nil =>
      refine iff_of_false (fun h => ?_) (by simp)
      have hlen := h.length_le
      have hpos := List.length_pos_iff.mpr (decimal_ne_nil a)
      rw [numberLine_cons, numberLine_nil] at hlen
      simp only [List.length_append, List.length_cons, List.length_nil] at hlen
      omega
    | cons b m =>
      rw [numberLine_cons, numberLine_cons, List.cons_prefix_cons]
      have hrest : restLine l <+: restLine m ↔ l <+: m := by
        cases l with
        | nil => simp [restLine]
        | cons c l =>
          cases m with
          | nil =>
            refine iff_of_false (fun h => ?_) (by simp)
            have := restLine_eq_nil (List.prefix_nil.mp h)
            cases this
          | cons d m => exact ih (by simp)
      constructor
      · intro h
        obtain ⟨hab, hpre⟩ :=
          word_eq_of_line (blank_notMem_decimal a) (blank_notMem_decimal b) h
        exact ⟨decimal_injective hab, hrest.mp hpre⟩
      · rintro ⟨rfl, hpre⟩
        rw [List.prefix_append_right_inj, List.cons_prefix_cons]
        exact ⟨rfl, hrest.mpr hpre⟩

end Jhalfs.Text
