import Mathlib.Data.List.DropRight
import Jhalfs.Base.Cut

/-!
# Lists of words as texts

A shell function prints a list with one word on a line, a command substitution takes the
line ends at the end away, and `normalize-space` leaves one blank between two words.

- `printed`, `substitution` and `joined` are the three texts, and `IsWord` says that a word is
  not empty and has no white space.
- `substitution_printed`: what a substitution leaves of the printed list is the words with line
  ends between them.
- `normalizeSpace_output`: **the words come back unchanged**, with one blank between two of
  them, when none is empty or has white space.
- `substringBefore_joined` and `substringAfter_joined` take the first word off: a template that
  recurses on such a text goes through the list.
-/

namespace Jhalfs.Text

/-! ## The three texts -/

/-- What `echo` prints for each word: the word and a line end. -/
def printed (ws : List (List Char)) : List Char := ws.flatMap (· ++ ['\n'])

/-- `$(...)`: the output without the line ends at its end. -/
def substitution (s : List Char) : List Char := s.rdropWhile (· == '\n')

/-- A word: not empty, and without white space. -/
def IsWord (w : List Char) : Prop := w ≠ [] ∧ ∀ c ∈ w, isSpace c = false

/-- The words with one character between two of them. -/
def joined (c : Char) (ws : List (List Char)) : List Char := [c].intercalate ws

@[simp] theorem joined_nil (c : Char) : joined c [] = [] := rfl

@[simp] theorem joined_singleton (c : Char) (w : List Char) : joined c [w] = w := by
  simp [joined]

theorem joined_cons_cons (c : Char) (w v : List Char) (ws : List (List Char)) :
    joined c (w :: v :: ws) = w ++ c :: joined c (v :: ws) := by
  simp [joined, List.intercalate_cons_cons]

theorem IsWord.notMem {w : List Char} (h : IsWord w) {c : Char} (hc : isSpace c = true) :
    c ∉ w := by
  intro hmem
  rw [h.2 c hmem] at hc
  cases hc

/-- The text begins with a character of the first word. -/
theorem joined_eq_cons {c : Char} {w : List Char} {ws : List (List Char)} (h : IsWord w) :
    ∃ d r, joined c (w :: ws) = d :: r ∧ isSpace d = false := by
  obtain ⟨d, u, rfl⟩ := List.exists_cons_of_ne_nil h.1
  have hd := h.2 d List.mem_cons_self
  cases ws with
  | nil => exact ⟨d, u, joined_singleton c _, hd⟩
  | cons v ws => exact ⟨d, u ++ c :: joined c (v :: ws), joined_cons_cons c _ v ws, hd⟩

theorem joined_ne_nil {c : Char} {w : List Char} {ws : List (List Char)} (h : IsWord w) :
    joined c (w :: ws) ≠ [] := by
  obtain ⟨d, r, hd, -⟩ := joined_eq_cons h
  rw [hd]
  exact List.cons_ne_nil d r

theorem ne_blank_of_isSpace {d : Char} (h : isSpace d = false) : d ≠ ' ' := by
  rintro rfl
  exact absurd h (by decide)

/-! ## Command substitution -/

theorem printed_eq_joined : ∀ {ws : List (List Char)}, ws ≠ [] →
    printed ws = joined '\n' ws ++ ['\n']
  | [w], _ => by simp [printed]
  | w :: v :: ws, _ => by
    have ih := printed_eq_joined (List.cons_ne_nil v ws)
    rw [joined_cons_cons, printed, List.flatMap_cons]
    show w ++ ['\n'] ++ printed (v :: ws) = _
    rw [ih]
    simp

theorem getLast_joined {c : Char} : ∀ {ws : List (List Char)}, (∀ w ∈ ws, IsWord w) →
    ∀ d, (joined c ws).getLast? = some d → isSpace d = false
  | [], _, d, hd => by simp at hd
  | [w], h, d, hd => by
    rw [joined_singleton] at hd
    exact (h w List.mem_cons_self).2 d (List.mem_of_getLast? hd)
  | w :: v :: ws, h, d, hd => by
    have hrest : ∀ u ∈ v :: ws, IsWord u := fun u hu => h u (List.mem_cons_of_mem _ hu)
    have hne : joined c (v :: ws) ≠ [] := joined_ne_nil (hrest v List.mem_cons_self)
    refine getLast_joined (c := c) hrest d ?_
    rwa [joined_cons_cons, List.getLast?_append_cons, List.getLast?_cons_of_ne_nil hne] at hd

/-- The output of the function, as the caller has it. -/
theorem substitution_printed {ws : List (List Char)} (h : ∀ w ∈ ws, IsWord w) :
    substitution (printed ws) = joined '\n' ws := by
  by_cases hws : ws = []
  · rw [hws]
    rfl
  · rw [printed_eq_joined hws, substitution, List.rdropWhile_concat_pos _ _ _ (by decide),
      List.rdropWhile_eq_self_iff]
    intro hne hlast
    have hspace := getLast_joined h _ (List.getLast?_eq_some_getLast hne)
    rw [beq_iff_eq.mp hlast] at hspace
    exact absurd hspace (by decide)

/-! ## White space -/

theorem collapse_append_word {w : List Char} (h : ∀ c ∈ w, isSpace c = false) (s : List Char) :
    collapse (w ++ s) = w ++ collapse s := by
  induction w with
  | nil => rfl
  | cons c w ih =>
    rw [List.forall_mem_cons] at h
    rw [List.cons_append, collapse, h.1, if_neg Bool.false_ne_true, ih h.2]
    rfl

theorem collapse_word {w : List Char} (h : ∀ c ∈ w, isSpace c = false) : collapse w = w := by
  have := collapse_append_word h []
  rwa [collapse, List.append_nil] at this

theorem collapse_joined : ∀ {ws : List (List Char)}, (∀ w ∈ ws, IsWord w) →
    collapse (joined '\n' ws) = joined ' ' ws
  | [], _ => rfl
  | [w], h => by
    rw [joined_singleton, joined_singleton, collapse_word (h w List.mem_cons_self).2]
  | w :: v :: ws, h => by
    have hv := h v (List.mem_cons_of_mem _ List.mem_cons_self)
    have ih := collapse_joined fun u hu => h u (List.mem_cons_of_mem _ hu)
    rw [joined_cons_cons, joined_cons_cons, collapse_append_word (h w List.mem_cons_self).2,
      collapse, if_pos (by decide), ih]
    -- what follows begins with a character of the next word
    obtain ⟨d, r, hd, hspace⟩ := joined_eq_cons hv
    rw [hd]
    dsimp only
    rw [if_neg (ne_blank_of_isSpace hspace)]

/-- **The list comes back** with one blank between two words. -/
theorem normalizeSpace_output {ws : List (List Char)} (h : ∀ w ∈ ws, IsWord w) :
    normalizeSpace (substitution (printed ws)) = joined ' ' ws := by
  rw [substitution_printed h, normalizeSpace, collapse_joined h]
  cases ws with
  | nil => rfl
  | cons w ws =>
    obtain ⟨d, r, hd, hspace⟩ := joined_eq_cons (h w List.mem_cons_self)
    rw [hd]
    dsimp only
    rw [if_neg (ne_blank_of_isSpace hspace)]

/-! ## One word and the others -/

theorem substringBefore_joined {w v : List Char} {ws : List (List Char)} (h : IsWord w) :
    substringBefore (joined ' ' (w :: v :: ws)) [' '] = w := by
  rw [joined_cons_cons]
  exact substringBefore_singleton (h.notMem (by decide))

theorem substringAfter_joined {w v : List Char} {ws : List (List Char)} (h : IsWord w) :
    substringAfter (joined ' ' (w :: v :: ws)) [' '] = joined ' ' (v :: ws) := by
  rw [joined_cons_cons]
  exact substringAfter_singleton (h.notMem (by decide))

theorem contains_joined (w v : List Char) (ws : List (List Char)) :
    contains (joined ' ' (w :: v :: ws)) [' '] = true := by
  rw [contains_singleton_iff, joined_cons_cons]
  simp

theorem IsWord.not_contains_blank {w : List Char} (h : IsWord w) :
    ¬ contains w [' '] = true := mt contains_singleton_iff.mp (h.notMem (by decide))

end Jhalfs.Text
