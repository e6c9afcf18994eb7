import Mathlib.Algebra.Ring.Nat
import Jhalfs.Base.Text

/-!
# Zero-padded numbers

File names that begin with a number padded with zeros to a fixed width. Read as
text they are in the order of the numbers as long as the numbers fit in the
width.

- `pad` is the format `%0kd`: a number that needs more digits stays as it is.
- `ofDigitChars_pad` reads the number back, so different numbers have different
  texts, and `length_pad` says when the text has the width.
- `lt_of_ofDigitChars_lt`: digits of one length are in the order of the numbers
  they write. The induction is on the texts; the first digit that differs
  outweighs all that follow (`ofDigitChars_lt_pow`).
- `pad_lt_pad`: **numbers padded to one width are in text order**, when they fit
  in it, and `append_lt_append` lets anything follow them.
-/

namespace Jhalfs.Text

/-- A number with zeros in front up to a width; a longer number stays as it is. -/
def pad (k n : Nat) : List Char :=
  List.replicate (k - (decimal n).length) '0' ++ decimal n

theorem isDigit_of_mem_pad {k n : Nat} {c : Char} (h : c ∈ pad k n) : c.isDigit = true := by
  rcases List.mem_append.mp h with h | h
  · rw [List.eq_of_mem_replicate h]
    rfl
  · exact isDigit_of_mem_decimal h

theorem length_pad {k n : Nat} (hk : 0 < k) (hn : n < 10 ^ k) : (pad k n).length = k := by
  have hle : (decimal n).length ≤ k :=
    (Nat.length_toDigits_le_iff (by decide) hk).mpr hn
  rw [pad, List.length_append, List.length_replicate]
  omega

theorem ofDigitChars_pad (k n : Nat) : Nat.ofDigitChars 10 (pad k n) 0 = n := by
  rw [pad, Nat.ofDigitChars_append, Nat.ofDigitChars_replicate_zero, Nat.mul_zero, decimal,
    Nat.ofDigitChars_ten_toDigits]

theorem ofDigitChars_cons_zero (c : Char) (l : List Char) :
    Nat.ofDigitChars 10 (c :: l) 0 =
      10 ^ l.length * (c.toNat - '0'.toNat) + Nat.ofDigitChars 10 l 0 := by
  rw [Nat.ofDigitChars_cons, Nat.mul_zero, Nat.zero_add, Nat.ofDigitChars_eq_ofDigitChars_zero]

theorem isDigit_bounds {c : Char} (h : c.isDigit = true) :
    '0'.toNat ≤ c.toNat ∧ c.toNat ≤ '0'.toNat + 9 := by
  rw [Char.isDigit, Bool.and_eq_true, decide_eq_true_iff, decide_eq_true_iff] at h
  exact ⟨h.1, h.2⟩

theorem ofDigitChars_lt_pow {l : List Char} (h : ∀ c ∈ l, c.isDigit = true) :
    Nat.ofDigitChars 10 l 0 < 10 ^ l.length := by
  induction l with
  | nil => simp
  | cons c l ih =>
    have hl := ih fun d hd => h d (List.mem_cons_of_mem _ hd)
    have hc := isDigit_bounds (h c List.mem_cons_self)
    have hmul : 10 ^ l.length * (c.toNat - '0'.toNat) ≤ 10 ^ l.length * 9 :=
      Nat.mul_le_mul_left _ (by omega)
    rw [ofDigitChars_cons_zero, List.length_cons, Nat.pow_succ]
    omega

/-- Digits of one length are in the order of the numbers they write. -/
theorem lt_of_ofDigitChars_lt {l m : List Char} (hlen : l.length = m.length)
    (hl : ∀ c ∈ l, c.isDigit = true) (hm : ∀ c ∈ m, c.isDigit = true)
    (h : Nat.ofDigitChars 10 l 0 < Nat.ofDigitChars 10 m 0) : l < m := by
  induction l generalizing m with
  | nil =>
    rw [List.length_nil, eq_comm, List.length_eq_zero_iff] at hlen
    subst hlen
    exact absurd h (Nat.lt_irrefl _)
  | cons c l ih =>
    cases m with
    | nil => cases hlen
    | cons d m =>
      have hlen' : l.length = m.length := Nat.succ.inj hlen
      have hc := isDigit_bounds (hl c List.mem_cons_self)
      have hd := isDigit_bounds (hm d List.mem_cons_self)
      have hlm := ofDigitChars_lt_pow fun e he => hm e (List.mem_cons_of_mem _ he)
      rw [ofDigitChars_cons_zero, ofDigitChars_cons_zero, hlen'] at h
      rw [List.cons_lt_cons_iff]
      rcases lt_trichotomy c.toNat d.toNat with hcd | hcd | hcd
      · exact Or.inl hcd
      · rw [hcd] at h
        exact Or.inr ⟨Char.toNat_inj.mp hcd, ih hlen'
          (fun e he => hl e (List.mem_cons_of_mem _ he))
          (fun e he => hm e (List.mem_cons_of_mem _ he)) (by omega)⟩
      · -- a larger first digit outweighs whatever the other digits are
        have hmul : 10 ^ m.length * (d.toNat - '0'.toNat + 1) ≤
            10 ^ m.length * (c.toNat - '0'.toNat) := Nat.mul_le_mul_left _ (by omega)
        rw [Nat.mul_add, Nat.mul_one] at hmul
        omega

/-- **Numbers padded to one width are in text order**, when they fit in it. -/
theorem pad_lt_pad {k m n : Nat} (hk : 0 < k) (hn : n < 10 ^ k) (h : m < n) :
    pad k m < pad k n := by
  refine lt_of_ofDigitChars_lt ?_ (fun _ => isDigit_of_mem_pad) (fun _ => isDigit_of_mem_pad) ?_
  · rw [length_pad hk (h.trans hn), length_pad hk hn]
  · rw [ofDigitChars_pad, ofDigitChars_pad]
    exact h

/-- Texts of one length decide the order of what follows them. -/
theorem append_lt_append {l m s t : List Char} (hlen : l.length = m.length) (h : l < m) :
    l ++ s < m ++ t := by
  induction l generalizing m with
  | nil =>
    rw [List.length_nil, eq_comm, List.length_eq_zero_iff] at hlen
    subst hlen
    exact absurd h (List.not_lt_nil [])
  | cons c l ih =>
    cases m with
    | nil => cases hlen
    | cons d m =>
      rw [List.cons_append, List.cons_append, List.cons_lt_cons_iff]
      rcases List.cons_lt_cons_iff.mp h with hcd | ⟨rfl, hlm⟩
      · exact Or.inl hcd
      · exact Or.inr ⟨rfl, ih (Nat.succ.inj hlen) hlm⟩

end Jhalfs.Text
