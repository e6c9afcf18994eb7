import Mathlib.Logic.Function.Basic
import Mathlib.Tactic.Choose

/-!
# Values that are computed once and kept

The value of a key is computed from inputs and from the values of other keys, is kept when it has
been computed, and is thrown away when something that it came from has changed.

- `Query`: a computation that asks for keys and inputs, one after the other. What it asks for may
  depend on the answers. `Query.All` and `Query.Returns` bound what it can ask for and what it can
  give, and are proved along the text of the computation (`all_bind`, `returns_bind`).
- `compute`: the values without a cache; `fetch`: with one.
- `Kept`: every value in the cache comes from values in the cache. This is the invariant: it is
  kept by `fetch` (**`answered_of_fetch`**), and by a change of inputs when no value that stays
  has asked for one that goes or for an input that changes (**`Kept.drop`**).
- `Ranked`: keys are computed from keys of a lower rank. Then a cache that is `Kept` has nothing
  but what `compute` gives (`Kept.compute`), and `compute` solves the equations of all keys
  (`exists_solution`).

`Kept` says nothing of the values that a computation without a cache would give: a value is
justified by the answers that it has asked for, and these by theirs. So an invalidation has only
to follow the computations one step back, and the induction that leads down to the inputs is made
once, over the ranks, in `Kept.compute`.
-/

namespace Jhalfs.Memo

universe u v

variable {K I : Type u} {V : K → Type v} {W : I → Type v}

/-- A computation of an `A` that asks for the values of keys and inputs. What it asks for next
may depend on what it has been answered. -/
inductive Query (V : K → Type v) (W : I → Type v) (A : Type v) where
  | pure (a : A)
  | ask (k : K) (next : V k → Query V W A)
  | input (i : I) (next : W i → Query V W A)

/-- The values that are kept: for each key a value, or none. -/
abbrev Cache (V : K → Type v) := ∀ k, Option (V k)

/-- The values of the inputs. -/
abbrev Inputs (W : I → Type v) := ∀ i, W i

namespace Query

variable {A B : Type v}

def bind : Query V W A → (A → Query V W B) → Query V W B
  | .pure a, f => f a
  | .ask k next, f => .ask k fun v => (next v).bind f
  | .input i next, f => .input i fun w => (next w).bind f

instance : Monad (Query V W) where
  pure := Query.pure
  bind := Query.bind

/-- Ask for one key. -/
def get (k : K) : Query V W (V k) := .ask k .pure

/-- Ask for one input. -/
def read (i : I) : Query V W (W i) := .input i .pure

/-- The result, with a value for every key. -/
def eval (inp : Inputs W) (val : ∀ k, V k) : Query V W A → A
  | .pure a => a
  | .ask k next => (next (val k)).eval inp val
  | .input i next => (next (inp i)).eval inp val

/-- The result from the values that are kept, if no other is asked for. -/
def replay (inp : Inputs W) (cache : Cache V) : Query V W A → Option A
  | .pure a => some a
  | .ask k next =>
    match cache k with
    | some v => (next v).replay inp cache
    | none => none
  | .input i next => (next (inp i)).replay inp cache

/-- All keys and inputs that the computation can ask for, whatever the answers are, have the
property. -/
def All (p : K → Prop) (r : I → Prop) : Query V W A → Prop
  | .pure _ => True
  | .ask k next => p k ∧ ∀ v, (next v).All p r
  | .input i next => r i ∧ ∀ w, (next w).All p r

/-- All results that the computation can have, whatever it is answered, have the property. -/
def Returns (P : A → Prop) : Query V W A → Prop
  | .pure a => P a
  | .ask _ next => ∀ v, (next v).Returns P
  | .input _ next => ∀ w, (next w).Returns P

/-- The keys and inputs that it asks for when these values are kept. It stops at a key that is
not kept. -/
def Uses (inp : Inputs W) (cache : Cache V) (j : K ⊕ I) : Query V W A → Prop
  | .pure _ => False
  | .ask k next => j = .inl k ∨ ∃ v, cache k = some v ∧ (next v).Uses inp cache j
  | .input i next => j = .inr i ∨ (next (inp i)).Uses inp cache j

variable {inp : Inputs W} {cache cache' : Cache V} {val : ∀ k, V k} {p p' : K → Prop}
  {r r' : I → Prop}

@[simp] theorem eval_pure (a : A) : (Pure.pure a : Query V W A).eval inp val = a := rfl

@[simp] theorem eval_get (k : K) : (get k : Query V W (V k)).eval inp val = val k := rfl

@[simp] theorem eval_read (i : I) : (read i : Query V W (W i)).eval inp val = inp i := rfl

@[simp] theorem eval_bind (q : Query V W A) (f : A → Query V W B) :
    (q >>= f).eval inp val = (f (q.eval inp val)).eval inp val := by
  induction q with
  | pure a => rfl
  | ask k next ih => exact ih (val k)
  | input i next ih => exact ih (inp i)

theorem replay_ask {k : K} {v : V k} (h : cache k = some v) (next : V k → Query V W A) :
    (ask k next).replay inp cache = (next v).replay inp cache := by
  rw [replay, h]

theorem replay_ask_none {k : K} (h : cache k = none) (next : V k → Query V W A) :
    (ask k next).replay inp cache = none := by
  rw [replay, h]

theorem replay_get (k : K) : (get k : Query V W (V k)).replay inp cache = cache k := by
  cases h : cache k with
  | none => exact replay_ask_none h _
  | some v => exact replay_ask h _

/-- A part of a computation that comes first is in the cache with the whole. -/
theorem exists_of_replay_bind {q : Query V W A} {f : A → Query V W B} {b : B}
    (h : (q >>= f).replay inp cache = some b) :
    ∃ a, q.replay inp cache = some a ∧ (f a).replay inp cache = some b := by
  induction q with
  | pure a => exact ⟨a, rfl, h⟩
  | ask k next ih =>
    cases hk : cache k with
    | none => exact absurd (h.symm.trans (replay_ask_none hk _)) (by simp)
    | some v =>
      rw [replay_ask hk]
      exact ih v ((replay_ask hk _).symm.trans h)
  | input i next ih => exact ih (inp i) h

theorem uses_bind {q : Query V W A} {f : A → Query V W B} {j : K ⊕ I}
    (h : (q >>= f).Uses inp cache j) : q.Uses inp cache j ∨ ∃ a, (f a).Uses inp cache j := by
  induction q with
  | pure a => exact Or.inr ⟨a, h⟩
  | ask k next ih =>
    rcases h with rfl | ⟨v, hv, h⟩
    · exact Or.inl (Or.inl rfl)
    · exact (ih v h).imp_left fun h => Or.inr ⟨v, hv, h⟩
  | input i next ih =>
    rcases h with rfl | h
    · exact Or.inl (Or.inl rfl)
    · exact (ih (inp i) h).imp_left Or.inr

@[simp] theorem all_pure (a : A) : (Pure.pure a : Query V W A).All p r := trivial

@[simp] theorem all_get {k : K} : (get k : Query V W (V k)).All p r ↔ p k :=
  ⟨And.left, fun h => ⟨h, fun _ => trivial⟩⟩

@[simp] theorem all_read {i : I} : (read i : Query V W (W i)).All p r ↔ r i :=
  ⟨And.left, fun h => ⟨h, fun _ => trivial⟩⟩

/-- The second part follows a result of the first. -/
theorem all_bind_returns {q : Query V W A} {f : A → Query V W B} {P : A → Prop} (h : q.All p r)
    (hP : q.Returns P) (hf : ∀ a, P a → (f a).All p r) : (q >>= f).All p r := by
  induction q with
  | pure a => exact hf a hP
  | ask k next ih => exact ⟨h.1, fun v => ih v (h.2 v) (hP v)⟩
  | input i next ih => exact ⟨h.1, fun w => ih w (h.2 w) (hP w)⟩

theorem returns_true (q : Query V W A) : q.Returns fun _ => True := by
  induction q with
  | pure a => trivial
  | ask k next ih => exact ih
  | input i next ih => exact ih

theorem all_bind {q : Query V W A} {f : A → Query V W B} (h : q.All p r)
    (hf : ∀ a, (f a).All p r) : (q >>= f).All p r :=
  all_bind_returns h (returns_true q) fun a _ => hf a

theorem returns_bind {q : Query V W A} {f : A → Query V W B} {P : B → Prop}
    (hf : ∀ a, (f a).Returns P) : (q >>= f).Returns P := by
  induction q with
  | pure a => exact hf a
  | ask k next ih => exact ih
  | input i next ih => exact ih

theorem All.imp {q : Query V W A} (h : q.All p r) (hp : ∀ k, p k → p' k)
    (hr : ∀ i, r i → r' i) : q.All p' r' := by
  induction q with
  | pure a => trivial
  | ask k next ih => exact ⟨hp k h.1, fun v => ih v (h.2 v)⟩
  | input i next ih => exact ⟨hr i h.1, fun w => ih w (h.2 w)⟩

theorem All.of_uses {q : Query V W A} (h : q.All p r) {j : K ⊕ I} (huses : q.Uses inp cache j) :
    Sum.elim p r j := by
  induction q with
  | pure a => exact huses.elim
  | ask k next ih =>
    rcases huses with rfl | ⟨v, -, hv⟩
    · exact h.1
    · exact ih v (h.2 v) hv
  | input i next ih =>
    rcases huses with rfl | hw
    · exact h.1
    · exact ih (inp i) (h.2 (inp i)) hw

theorem all_true (q : Query V W A) : q.All (fun _ => True) fun _ => True := by
  induction q with
  | pure a => trivial
  | ask k next ih => exact ⟨trivial, ih⟩
  | input i next ih => exact ⟨trivial, ih⟩

/-- Values that are kept for the keys in question give the same result. -/
theorem replay_of_all {q : Query V W A} {a : A} (h : q.All p r)
    (hsub : ∀ k v, p k → cache k = some v → cache' k = some v)
    (hq : q.replay inp cache = some a) : q.replay inp cache' = some a := by
  induction q with
  | pure b => exact hq
  | ask k next ih =>
    cases hk : cache k with
    | none => simp [replay_ask_none hk] at hq
    | some v =>
      rw [replay_ask hk] at hq
      rw [replay_ask (hsub k v h.1 hk)]
      exact ih v (h.2 v) hq
  | input i next ih => exact ih (inp i) (h.2 (inp i)) hq

theorem Returns.of_replay {q : Query V W A} {P : A → Prop} (h : q.Returns P) {a : A}
    (hq : q.replay inp cache = some a) : P a := by
  induction q with
  | pure b =>
    cases hq
    exact h
  | ask k next ih =>
    cases hk : cache k with
    | none => simp [replay_ask_none hk] at hq
    | some v =>
      rw [replay_ask hk] at hq
      exact ih v (h v) hq
  | input i next ih => exact ih (inp i) (h (inp i)) hq

/-- The result depends on what can be asked for. -/
theorem eval_congr {inp' : Inputs W} {val' : ∀ k, V k} {q : Query V W A} (h : q.All p r)
    (hval : ∀ k, p k → val k = val' k) (hinp : ∀ i, r i → inp i = inp' i) :
    q.eval inp val = q.eval inp' val' := by
  induction q with
  | pure a => rfl
  | ask k next ih =>
    show (next (val k)).eval inp val = (next (val' k)).eval inp' val'
    rw [← hval k h.1]
    exact ih _ (h.2 _)
  | input i next ih =>
    show (next (inp i)).eval inp val = (next (inp' i)).eval inp' val'
    rw [← hinp i h.1]
    exact ih _ (h.2 _)

theorem eval_of_replay {q : Query V W A} {a : A} (hval : ∀ k v, cache k = some v → v = val k)
    (hq : q.replay inp cache = some a) : q.eval inp val = a := by
  induction q with
  | pure b => exact Option.some.inj hq
  | ask k next ih =>
    cases hk : cache k with
    | none => simp [replay_ask_none hk] at hq
    | some v =>
      rw [replay_ask hk] at hq
      rw [eval, ← hval k v hk]
      exact ih v hq
  | input i next ih => exact ih (inp i) hq

end Query

/-! ## Ranks -/

/-- Every key is computed from keys of a lower rank: there is no loop, whatever the inputs are. -/
def Ranked (body : ∀ k, Query V W (V k)) (rank : K → Nat) : Prop :=
  ∀ k, (body k).All (fun j => rank j < rank k) fun _ => True

/-- The values without a cache, for keys up to a depth. -/
def compute (body : ∀ k, Query V W (V k)) (inp : Inputs W) : Nat → Cache V
  | 0, _ => none
  | depth + 1, k => (body k).replay inp (compute body inp depth)

/-- Every value that is kept comes from values that are kept: with these as answers its computation
gives it. This is the invariant of a cache. -/
def Kept (body : ∀ k, Query V W (V k)) (inp : Inputs W) (cache : Cache V) : Prop :=
  ∀ k v, cache k = some v → (body k).replay inp cache = some v

theorem kept_empty (body : ∀ k, Query V W (V k)) (inp : Inputs W) :
    Kept body inp fun _ => none := by
  rintro k v ⟨⟩

section

variable {body : ∀ k, Query V W (V k)} {inp : Inputs W} {rank : K → Nat} {cache : Cache V}

/-- What is kept is what is computed. -/
theorem Kept.compute (h : Kept body inp cache) (hrank : Ranked body rank) {k : K} {v : V k}
    (hk : cache k = some v) {depth : Nat} (hdepth : rank k < depth) :
    Memo.compute body inp depth k = some v := by
  induction depth generalizing k with
  | zero => exact absurd hdepth (Nat.not_lt_zero _)
  | succ depth ih =>
    refine Query.replay_of_all (hrank k) (fun j w hj hw => ?_) (h k v hk)
    exact ih hw (Nat.lt_of_lt_of_le hj (Nat.le_of_lt_succ hdepth))

/-- A value is computed for every key. -/
theorem exists_compute (hrank : Ranked body rank) (inp : Inputs W) {k : K} {depth : Nat}
    (hdepth : rank k < depth) : ∃ v, Memo.compute body inp depth k = some v := by
  induction depth generalizing k with
  | zero => exact absurd hdepth (Nat.not_lt_zero _)
  | succ depth ih =>
    show ∃ v, (body k).replay inp (Memo.compute body inp depth) = some v
    have hall : (body k).All (fun j => rank j < depth) fun _ => True :=
      (hrank k).imp (fun j hj => Nat.lt_of_lt_of_le hj (Nat.le_of_lt_succ hdepth)) fun _ h => h
    generalize body k = q at hall
    induction q with
    | pure a => exact ⟨a, rfl⟩
    | ask j next ihq =>
      obtain ⟨w, hw⟩ := ih hall.1
      rw [Query.replay_ask hw]
      exact ihq w (hall.2 w)
    | input i next ihq => exact ihq (inp i) (hall.2 (inp i))

/-- More depth changes nothing. -/
theorem compute_mono {k : K} {v : V k} {depth depth' : Nat} (hle : depth ≤ depth')
    (h : compute body inp depth k = some v) : compute body inp depth' k = some v := by
  induction depth generalizing k depth' with
  | zero => cases h
  | succ depth ih =>
    cases depth' with
    | zero => exact absurd hle (Nat.not_succ_le_zero _)
    | succ depth' =>
      exact Query.replay_of_all (Query.all_true _)
        (fun j w _ hw => ih (Nat.le_of_succ_le_succ hle) hw) h

/-- **The equations of the keys have a solution**, and it is what is computed. -/
theorem exists_solution (hrank : Ranked body rank) (inp : Inputs W) :
    ∃ val : ∀ k, V k, (∀ k, (body k).eval inp val = val k) ∧
      ∀ k depth, rank k < depth → compute body inp depth k = some (val k) := by
  have hex : ∀ k, ∃ v, compute body inp (rank k + 1) k = some v := fun k =>
    exists_compute hrank inp (Nat.lt_succ_self _)
  choose val hval using hex
  have hdepth : ∀ k depth, rank k < depth → compute body inp depth k = some (val k) :=
    fun k depth h => compute_mono h (hval k)
  have hsame : ∀ n j w, compute body inp n j = some w → w = val j := by
    intro n j w hw
    have hmax := compute_mono (Nat.le_max_left n (rank j + 1)) hw
    rw [hdepth j _ (Nat.lt_of_succ_le (Nat.le_max_right _ _))] at hmax
    exact (Option.some.inj hmax).symm
  exact ⟨val, fun k => Query.eval_of_replay (hsame (rank k)) (hval k), hdepth⟩

/-- Below a rank the solutions agree when the inputs do that are asked for there. -/
theorem solution_congr {inp' : Inputs W} {val val' : ∀ k, V k} {n : Nat}
    (hall : ∀ k, rank k < n →
      (body k).All (fun j => rank j < rank k) fun i => inp i = inp' i)
    (hval : ∀ k, (body k).eval inp val = val k) (hval' : ∀ k, (body k).eval inp' val' = val' k)
    (k : K) (hk : rank k < n) : val k = val' k := by
  induction hr : rank k using Nat.strongRecOn generalizing k with
  | _ r ih =>
    rw [← hval k, ← hval' k]
    refine Query.eval_congr (hall k hk) (fun j hj => ?_) fun i hi => hi
    exact ih (rank j) (hr ▸ hj) j (Nat.lt_trans hj hk) rfl

/-- A solution is what is computed. -/
theorem compute_of_solution {val : ∀ k, V k} (hval : ∀ k, (body k).eval inp val = val k) {k : K}
    {v : V k} {depth : Nat} (h : compute body inp depth k = some v) : val k = v := by
  induction depth generalizing k with
  | zero => cases h
  | succ depth ih =>
    rw [← hval k]
    exact Query.eval_of_replay (fun j w hw => (ih hw).symm) h

end

/-! ## Reading through the cache -/

/-- Answer what is asked for, and keep the answers. -/
def answer (inp : Inputs W) (fetch : ∀ k, Cache V → Option (V k × Cache V)) {A : Type v} :
    Query V W A → Cache V → Option (A × Cache V)
  | .pure a, cache => some (a, cache)
  | .ask k next, cache =>
    match fetch k cache with
    | some (v, cache) => answer inp fetch (next v) cache
    | none => none
  | .input i next, cache => answer inp fetch (next (inp i)) cache

/-- The value of a key: the one that is kept, or else it is computed and kept. The depth bounds
the recursion. -/
def fetch [DecidableEq K] (body : ∀ k, Query V W (V k)) (inp : Inputs W) :
    Nat → ∀ k, Cache V → Option (V k × Cache V)
  | 0, _, _ => none
  | depth + 1, k, cache =>
    match cache k with
    | some v => some (v, cache)
    | none =>
      match answer inp (fetch body inp depth) (body k) cache with
      | some (v, cache) => some (v, Function.update cache k (some v))
      | none => none

/-- More is kept. -/
def Extends (cache cache' : Cache V) : Prop := ∀ k v, cache k = some v → cache' k = some v

theorem Extends.replay {cache cache' : Cache V} (h : Extends cache cache') {inp : Inputs W}
    {A : Type v} {q : Query V W A} {a : A} (hq : q.replay inp cache = some a) :
    q.replay inp cache' = some a :=
  Query.replay_of_all (Query.all_true q) (fun k v _ hk => h k v hk) hq

section

variable {body : ∀ k, Query V W (V k)} {inp : Inputs W} {cache : Cache V}

/-- What a query is answered with, and what is kept then. -/
structure Answered (body : ∀ k, Query V W (V k)) (inp : Inputs W) (cache : Cache V) {A : Type v}
    (q : Query V W A) (a : A) (cache' : Cache V) : Prop where
  more : Extends cache cache'
  kept : Kept body inp cache'
  replay : q.replay inp cache' = some a

theorem answered_of_answer {fetch : ∀ k, Cache V → Option (V k × Cache V)}
    (hfetch : ∀ k cache v cache', Kept body inp cache → fetch k cache = some (v, cache') →
      Answered body inp cache (Query.get k) v cache')
    {A : Type v} {q : Query V W A} {a : A} {cache' : Cache V} (h : Kept body inp cache)
    (hq : answer inp fetch q cache = some (a, cache')) : Answered body inp cache q a cache' := by
  induction q generalizing cache with
  | pure b =>
    cases hq
    exact ⟨fun _ _ hk => hk, h, rfl⟩
  | ask k next ih =>
    rw [answer] at hq
    split at hq
    next v cache₁ hk =>
      have hfirst := hfetch k cache v cache₁ h hk
      have hrest := ih v hfirst.kept hq
      have hget := hrest.more.replay hfirst.replay
      rw [Query.replay_get] at hget
      refine ⟨fun j w hj => hrest.more j w (hfirst.more j w hj), hrest.kept, ?_⟩
      rw [Query.replay_ask hget]
      exact hrest.replay
    next => cases hq
  | input i next ih =>
    have hrest := ih (inp i) h hq
    exact ⟨hrest.more, hrest.kept, hrest.replay⟩

/-- **Reading keeps the invariant**: the value comes from the values that are kept, and what was
kept before is kept as it was. -/
theorem answered_of_fetch [DecidableEq K] {depth : Nat} {k : K} {v : V k} {cache' : Cache V}
    (h : Kept body inp cache) (hfetch : fetch body inp depth k cache = some (v, cache')) :
    Answered body inp cache (Query.get k) v cache' := by
  induction depth generalizing k cache cache' with
  | zero => cases hfetch
  | succ depth ih =>
    rw [fetch] at hfetch
    split at hfetch
    next w hk =>
      cases hfetch
      exact ⟨fun _ _ hj => hj, h, (Query.replay_get _).trans hk⟩
    next hk =>
      split at hfetch
      next w cache₁ hanswer =>
        cases hfetch
        have hw := answered_of_answer (fun _ _ _ _ hc hf => ih hc hf) h hanswer
        -- the answer is the one that is kept, if there is one by now
        have hupdate : Extends cache₁ (Function.update cache₁ k (some v)) := by
          intro j w hj
          by_cases hjk : j = k
          · subst hjk
            have hsame := hw.kept j w hj
            rw [hw.replay] at hsame
            rw [Function.update_self, hsame]
          · rw [Function.update_of_ne hjk]
            exact hj
        refine ⟨fun j w hj => hupdate j w (hw.more j w hj), fun j w hj => ?_, ?_⟩
        · by_cases hjk : j = k
          · subst hjk
            rw [Function.update_self] at hj
            cases hj
            exact hupdate.replay hw.replay
          · rw [Function.update_of_ne hjk] at hj
            exact hupdate.replay (hw.kept j w hj)
        · rw [Query.replay_get, Function.update_self]
      next => cases hfetch

theorem exists_answer {fetch : ∀ k, Cache V → Option (V k × Cache V)} {p : K → Prop}
    (hfetch : ∀ k cache, p k → ∃ r, fetch k cache = some r) {A : Type v} {q : Query V W A}
    (hq : q.All p fun _ => True) (cache : Cache V) : ∃ r, answer inp fetch q cache = some r := by
  induction q generalizing cache with
  | pure a => exact ⟨_, rfl⟩
  | ask k next ih =>
    obtain ⟨⟨v, cache₁⟩, hk⟩ := hfetch k cache hq.1
    rw [answer, hk]
    exact ih v (hq.2 v) cache₁
  | input i next ih => exact ih (inp i) (hq.2 (inp i)) cache

/-- There is always a value to read. -/
theorem exists_fetch [DecidableEq K] {rank : K → Nat} (hrank : Ranked body rank) {depth : Nat}
    {k : K} (hdepth : rank k < depth) (cache : Cache V) :
    ∃ r, fetch body inp depth k cache = some r := by
  induction depth generalizing k cache with
  | zero => exact absurd hdepth (Nat.not_lt_zero _)
  | succ depth ih =>
    rw [fetch]
    split
    · exact ⟨_, rfl⟩
    · have hall : (body k).All (fun j => rank j < depth) fun _ => True :=
        (hrank k).imp (fun j hj => Nat.lt_of_lt_of_le hj (Nat.le_of_lt_succ hdepth)) fun _ h => h
      obtain ⟨⟨v, cache'⟩, hanswer⟩ := exists_answer (fun j c hj => ih hj c) hall cache
      exact ⟨(v, Function.update cache' k (some v)), by rw [hanswer]⟩

end

/-! ## Inputs that are not asked for -/

/-- All values kept. -/
def full (val : ∀ k, V k) : Cache V := fun k => some (val k)

/-- The result does not depend on inputs that are not asked for. -/
theorem eval_congr_uses {inp inp' : Inputs W} {val : ∀ k, V k} {A : Type v} {q : Query V W A}
    (h : ∀ i, q.Uses inp (full val) (.inr i) → inp' i = inp i) :
    q.eval inp' val = q.eval inp val := by
  induction q with
  | pure a => rfl
  | ask k next ih => exact ih (val k) fun i hi => h i (Or.inr ⟨val k, rfl, hi⟩)
  | input i next ih =>
    show (next (inp' i)).eval inp' val = (next (inp i)).eval inp val
    rw [h i (Or.inl rfl)]
    exact ih (inp i) fun j hj => h j (Or.inr hj)

/-! ## Throwing values away -/

/-- The cache without the keys of a set. -/
structure Drop (gone : K → Prop) (cache cache' : Cache V) : Prop where
  goes : ∀ k, gone k → cache' k = none
  stays : ∀ k, ¬ gone k → cache' k = cache k

/-- What asks neither for a key that goes nor for an input that changes has the same result. -/
theorem Drop.replay {gone : K → Prop} {cache cache' : Cache V} (h : Drop gone cache cache')
    {inp inp' : Inputs W} {A : Type v} {q : Query V W A}
    (hkeys : ∀ j, q.Uses inp cache (.inl j) → ¬ gone j)
    (hinputs : ∀ i, q.Uses inp cache (.inr i) → inp' i = inp i) :
    q.replay inp' cache' = q.replay inp cache := by
  induction q with
  | pure a => rfl
  | ask k next ih =>
    have hstays := h.stays k (hkeys k (Or.inl rfl))
    cases hk : cache k with
    | none => rw [Query.replay_ask_none hk, Query.replay_ask_none (hstays.trans hk)]
    | some v =>
      rw [Query.replay_ask hk, Query.replay_ask (hstays.trans hk)]
      exact ih v (fun j hj => hkeys j (Or.inr ⟨v, hk, hj⟩))
        fun i hi => hinputs i (Or.inr ⟨v, hk, hi⟩)
  | input i next ih =>
    show (next (inp' i)).replay inp' cache' = (next (inp i)).replay inp cache
    rw [hinputs i (Or.inl rfl)]
    exact ih (inp i) (fun j hj => hkeys j (Or.inr hj)) fun j hj => hinputs j (Or.inr hj)

/-- **What stays comes from what stays**, when a value that stays has asked neither for a key that
goes nor for an input that changes. -/
theorem Kept.drop {body : ∀ k, Query V W (V k)} {inp inp' : Inputs W} {gone : K → Prop}
    {cache cache' : Cache V} (hkept : Kept body inp cache) (h : Drop gone cache cache')
    (hkeys : ∀ k v, ¬ gone k → cache k = some v →
      ∀ j, (body k).Uses inp cache (.inl j) → ¬ gone j)
    (hinputs : ∀ k v, ¬ gone k → cache k = some v →
      ∀ i, (body k).Uses inp cache (.inr i) → inp' i = inp i) : Kept body inp' cache' := by
  intro k v hk
  have hstays : ¬ gone k := fun hgone => by simp [h.goes k hgone] at hk
  rw [h.stays k hstays] at hk
  rw [h.replay (hkeys k v hstays hk) (hinputs k v hstays hk)]
  exact hkept k v hk

end Jhalfs.Memo
