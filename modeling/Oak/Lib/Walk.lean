import Mathlib.Logic.Relation
import Mathlib.Logic.Function.Iterate
import Mathlib.Data.List.Basic
import Mathlib.Data.Set.Basic

/-!
# Evaluation with an explicit stack

The values of a set of keys depend on each other: a key is evaluated from the values of its
sources. `step` is one step of an evaluation that keeps a stack of frames, a memo and the set of
the keys that were queued. A key is queued when its frame is pushed, not when it is evaluated.

* `Recipe` : the sources of every key, and how a key is evaluated from a memo of its sources.
* `Recipe.recur` : the recursive evaluation.
* `Recipe.step` : the evaluation with a stack; `Recipe.Premature` says that a key is about to be
  evaluated before one of its sources.
* `Recipe.Sequential` : no source of a key is needed by a source listed after it, unless a source
  that was listed later on the way to the key needs it too.

## Main results

* `Recipe.isTable_recur` : the recursion has one solution, and `recur` computes it.
* `Recipe.visit` : what the evaluation of a frame changes.
* `Recipe.walk_ends` : the walk ends.
* `Recipe.walk_sequential` : from a `Sequential` root no key is evaluated prematurely, and the memo
  holds the value of the recursion at the end.
* `Recipe.sequential_of_not_premature` : no other root is evaluated so.
-/

namespace Oak.Lib

open Relation Function

/-- How the values of keys are computed from each other. A key without a list of sources has no
value. -/
structure Recipe (κ τ : Type*) where
  deps : κ → Option (List κ)
  eval : κ → (κ → Option τ) → τ
  /-- Only the sources of a key are read. -/
  reads : ∀ k cs m m', deps k = some cs → (∀ c ∈ cs, m c = m' c) → eval k m = eval k m'

/-- A frame of the stack: a key is entered before its sources and left after them. -/
inductive Frame (κ : Type*) where
  | enter (k : κ)
  | exit (k : κ)
  deriving DecidableEq

/-- The state of an evaluation; the top of the stack comes first. -/
structure Walk (κ τ : Type*) where
  cache : κ → Option τ
  queued : List κ
  stack : List (Frame κ)

namespace Recipe

variable {κ τ : Type*} (R : Recipe κ τ)

/-- The key has a value. -/
def Live (k : κ) : Prop := (R.deps k).isSome = true

/-- `c` is a source of `k`. -/
def Needs (k c : κ) : Prop := ∃ cs, R.deps k = some cs ∧ c ∈ cs

/-- The value of `k` depends on the value of `c`. -/
def Reaches : κ → κ → Prop := ReflTransGen R.Needs

variable {R} {k c p : κ}

theorem Needs.live (h : R.Needs k c) : R.Live k := by
  obtain ⟨cs, hcs, -⟩ := h
  rw [Live, hcs, Option.isSome_some]

theorem live_of_reaches (h : R.Reaches k c) (hc : R.Live c) : R.Live k := by
  rcases ReflTransGen.cases_head h with rfl | ⟨d, hd, -⟩
  · exact hc
  · exact hd.live

theorem not_live_iff : ¬ R.Live k ↔ R.deps k = none := by
  rw [Live, Bool.not_eq_true, Option.isSome_eq_false_iff, Option.isNone_iff_eq_none]

/-! ### The recursion -/

/-- A solution of the recursion. -/
def IsTable (R : Recipe κ τ) (T : κ → Option τ) : Prop :=
  ∀ k, T k = (R.deps k).map fun _ => R.eval k T

/-- The recursive evaluation, to a depth. -/
def recur (R : Recipe κ τ) : ℕ → κ → Option τ
  | 0, _ => none
  | n + 1, k => (R.deps k).map fun _ => R.eval k (recur R n)

section Rank

variable {rank : κ → ℕ} (hrank : ∀ k c, R.Needs k c → rank c < rank k)

include hrank

theorem recur_stable {m n : ℕ} (hm : rank k < m) (hn : rank k < n) :
    R.recur m k = R.recur n k := by
  induction m generalizing k n with
  | zero => exact absurd hm (Nat.not_lt_zero _)
  | succ m ih =>
    rcases n with _ | n
    · exact absurd hn (Nat.not_lt_zero _)
    rw [recur, recur]
    rcases hdeps : R.deps k with _ | cs
    · rfl
    · have hsame : R.eval k (R.recur m) = R.eval k (R.recur n) := by
        refine R.reads k cs _ _ hdeps fun c hc => ?_
        have := hrank k c ⟨cs, hdeps, hc⟩
        exact ih (by omega) (by omega)
      rw [Option.map_some, Option.map_some, hsame]

/-- A recursion that goes deep enough for every key is a solution. -/
theorem isTable_recur {n : ℕ} (hn : ∀ k, rank k < n) : R.IsTable (R.recur n) := by
  intro k
  rcases n with _ | n
  · exact absurd (hn k) (Nat.not_lt_zero _)
  rw [recur]
  rcases hdeps : R.deps k with _ | cs
  · rfl
  · have hsame : R.eval k (R.recur n) = R.eval k (R.recur (n + 1)) := by
      refine R.reads k cs _ _ hdeps fun c hc => ?_
      have := hrank k c ⟨cs, hdeps, hc⟩
      have := hn k
      exact recur_stable hrank (by omega) (by omega)
    rw [Option.map_some, Option.map_some, hsame]

theorem not_reaches_of_needs (h : R.Needs k c) : ¬ R.Reaches c k := by
  have hle : ∀ d, R.Reaches c d → rank d ≤ rank c := by
    intro d hd
    induction hd with
    | refl => exact Nat.le_refl _
    | tail _ hneeds ih => exact Nat.le_trans (Nat.le_of_lt (hrank _ _ hneeds)) ih
  intro hreach
  have := hle k hreach
  have := hrank k c h
  omega

end Rank

/-! ### Orders of evaluation -/

variable {D : Set κ}

section Order

variable [DecidableEq κ]

/-- `Path root k D`: there is a path from the root to `k`, and `D` is what the sources need that are
listed after the ones of the path. The sources of a key are evaluated from the last to the first,
so `D` is evaluated when `k` is reached along the path. -/
inductive Path (R : Recipe κ τ) (root : κ) : κ → Set κ → Prop where
  | root : Path R root root ∅
  | source {k c : κ} {cs : List κ} {D : Set κ} (hk : Path R root k D) (hcs : R.deps k = some cs)
      (hc : c ∈ cs) :
      Path R root c (D ∪ {x | ∃ q ∈ cs, cs.idxOf c < cs.idxOf q ∧ R.Reaches q x})

/-- A source of a key that a source listed after it needs, is also needed by a source that was
listed after the path to the key. -/
def Sequential (R : Recipe κ τ) (root : κ) : Prop :=
  ∀ k D cs c q, Path R root k D → R.deps k = some cs → c ∈ cs → q ∈ cs →
    cs.idxOf c < cs.idxOf q → R.Live c → R.Reaches q c → c ∈ D

theorem Path.mem_of_reaches {root : κ} {x : κ} (h : Path R root k D) (hc : c ∈ D)
    (hx : R.Reaches c x) : x ∈ D := by
  induction h with
  | root => exact hc
  | source hk hcs hc' ih =>
    rcases hc with hc | ⟨q, hq, hlt, hreach⟩
    · exact .inl (ih hc)
    · exact .inr ⟨q, hq, hlt, hreach.trans hx⟩

end Order

/-! ### What an evaluation changes -/

/-- What the evaluation of the frames of `ks` changes in the memo and in the set of queued keys. -/
structure Settles (R : Recipe κ τ) (ks : List κ) (s t : Walk κ τ) : Prop where
  /-- What was evaluated stays. -/
  kept : ∀ x, s.cache x ≠ none → t.cache x = s.cache x
  /-- What is queued elsewhere is not evaluated. -/
  still : ∀ x ∈ s.queued, x ∉ ks → t.cache x = s.cache x
  needed : ∀ x, t.cache x ≠ none → s.cache x ≠ none ∨ ∃ k ∈ ks, R.Reaches k x
  done : ∀ k ∈ ks, R.Live k → t.cache k ≠ none
  queued : ∀ x ∈ s.queued, x ∈ t.queued

namespace Settles

variable {s t u : Walk κ τ} {ks : List κ}

theorem refl (hks : ∀ k ∈ ks, R.Live k → s.cache k ≠ none) (hcache : t.cache = s.cache)
    (hqueued : t.queued = s.queued) : Settles R ks s t where
  kept _ _ := by rw [hcache]
  still _ _ _ := by rw [hcache]
  needed _ hx := .inl (hcache ▸ hx)
  done k hk hlive := hcache ▸ hks k hk hlive
  queued _ hx := hqueued ▸ hx

theorem cons (h : Settles R [k] s t) (h' : Settles R ks t u) : Settles R (k :: ks) s u where
  kept x hx := by
    have hkept := h.kept x hx
    rw [h'.kept x (hkept ▸ hx), hkept]
  still x hx hks := by
    rw [List.mem_cons, not_or] at hks
    rw [h'.still x (h.queued x hx) hks.2, h.still x hx (List.mem_singleton.not.2 hks.1)]
  needed x hx := by
    rcases h'.needed x hx with hx | ⟨c, hc, hreach⟩
    · rcases h.needed x hx with hx | ⟨c, hc, hreach⟩
      · exact .inl hx
      · exact .inr ⟨c, List.mem_cons.2 (.inl (List.mem_singleton.1 hc)), hreach⟩
    · exact .inr ⟨c, List.mem_cons_of_mem k hc, hreach⟩
  done c hc hlive := by
    rcases List.mem_cons.1 hc with rfl | hc
    · have hdone := h.done c List.mem_cons_self hlive
      rw [h'.kept c hdone]
      exact hdone
    · exact h'.done c hc hlive
  queued x hx := h'.queued x (h.queued x hx)

theorem exit [DecidableEq κ] {todo : List κ} {stack : List (Frame κ)} (hs : s.cache k = none)
    (h : Settles R todo ⟨s.cache, todo ++ s.queued, stack⟩ t)
    (hneeds : ∀ c ∈ todo, R.Needs k c) (htodo : ∀ c ∈ todo, c ∉ s.queued) (v : τ)
    (hcache : u.cache = update t.cache k (some v)) (hqueued : u.queued = t.queued) :
    Settles R [k] s u where
  kept x hx := by
    have hxk : x ≠ k := fun heq => hx (heq ▸ hs)
    rw [hcache, update_of_ne hxk, h.kept x hx]
  still x hx hxk := by
    rw [List.mem_singleton] at hxk
    rw [hcache, update_of_ne hxk,
      h.still x (List.mem_append_right _ hx) fun hmem => htodo x hmem hx]
  needed x hx := by
    by_cases hxk : x = k
    · exact .inr ⟨k, List.mem_cons_self, hxk ▸ .refl⟩
    · rw [hcache, update_of_ne hxk] at hx
      rcases h.needed x hx with hx | ⟨c, hc, hreach⟩
      · exact .inl hx
      · exact .inr ⟨k, List.mem_cons_self, .head (hneeds c hc) hreach⟩
  done c hc _ := by
    rw [List.mem_singleton.1 hc, hcache, update_self]
    exact Option.some_ne_none v
  queued x hx := hqueued ▸ h.queued x (List.mem_append_right _ hx)

end Settles

/-! ### Complete memos -/

/-- With a key, its sources are in the memo. -/
def Closed (R : Recipe κ τ) (cache : κ → Option τ) : Prop :=
  ∀ x c, cache x ≠ none → R.Needs x c → R.Live c → cache c ≠ none

/-- The memo holds values of the recursion, each with its sources. -/
structure Good (R : Recipe κ τ) (T : κ → Option τ) (cache : κ → Option τ) : Prop where
  value : ∀ x v, cache x = some v → T x = some v
  closed : R.Closed cache

section Memo

variable {cache T : κ → Option τ}

theorem Closed.of_reaches (h : R.Closed cache) {x : κ} (hx : cache x ≠ none)
    (hreach : R.Reaches x c) (hc : R.Live c) : cache c ≠ none := by
  induction hreach using ReflTransGen.head_induction_on with
  | refl => exact hx
  | head hneeds htail ih => exact ih (h _ _ hx hneeds (live_of_reaches htail hc))

variable [DecidableEq κ] {cs : List κ} (hcs : R.deps k = some cs)
  (hsources : ∀ c ∈ cs, R.Live c → cache c ≠ none)

include hcs hsources

theorem Closed.update (h : R.Closed cache) (v : τ) : R.Closed (update cache k (some v)) := by
  intro x c hx hneeds hlive
  by_cases hck : c = k
  · rw [hck, update_self]
    exact Option.some_ne_none v
  · rw [update_of_ne hck]
    by_cases hxk : x = k
    · obtain ⟨cs', hcs', hc⟩ := hxk ▸ hneeds
      rw [hcs, Option.some.injEq] at hcs'
      exact hsources c (hcs' ▸ hc) hlive
    · rw [update_of_ne hxk] at hx
      exact h x c hx hneeds hlive

theorem Good.update (h : R.Good T cache) (hT : R.IsTable T) :
    R.Good T (update cache k (some (R.eval k cache))) := by
  have hsame : R.eval k cache = R.eval k T := by
    refine R.reads k cs _ _ hcs fun c hc => ?_
    rcases hcache : cache c with _ | v
    · by_cases hlive : R.Live c
      · exact absurd hcache (hsources c hc hlive)
      · rw [hT c, not_live_iff.1 hlive, Option.map_none]
    · exact (h.value c v hcache).symm
  refine ⟨fun x v hx => ?_, h.closed.update hcs hsources _⟩
  by_cases hxk : x = k
  · subst hxk
    rw [update_self, hsame] at hx
    rw [hT x, hcs, Option.map_some, hx]
  · rw [update_of_ne hxk] at hx
    exact h.value x v hx

end Memo

/-! ### The walk -/

variable {rest : List (Frame κ)} {P : Walk κ τ → Prop}

section Walk

variable [DecidableEq κ]

/-- Queue a key, unless it was evaluated or queued before. -/
def push (s : Walk κ τ) (c : κ) : Walk κ τ :=
  if (s.cache c).isNone ∧ c ∉ s.queued then
    { s with queued := c :: s.queued, stack := .enter c :: s.stack }
  else s

/-- One step of the evaluation. -/
def step (R : Recipe κ τ) (s : Walk κ τ) : Walk κ τ :=
  match s.stack with
  | [] => s
  | .enter k :: rest =>
    if (s.cache k).isSome then { s with stack := rest }
    else
      match R.deps k with
      | none => { s with stack := rest }
      | some cs => cs.foldl push { s with stack := .exit k :: rest }
  | .exit k :: rest =>
    if (s.cache k).isSome then { s with stack := rest }
    else
      match R.deps k with
      | none => { s with stack := rest }
      | some _ => { s with cache := update s.cache k (some (R.eval k s.cache)), stack := rest }

/-- The evaluation of a root begins. -/
def begin (root : κ) : Walk κ τ := ⟨fun _ => none, [root], [.enter root]⟩

/-- A key is about to be evaluated before one of its sources. -/
def Premature (R : Recipe κ τ) (s : Walk κ τ) : Prop :=
  ∃ k rest c, s.stack = .exit k :: rest ∧ s.cache k = none ∧ R.Needs k c ∧ R.Live c ∧
    s.cache c = none

/-- Steps that are taken where `P` holds. -/
def Steps (R : Recipe κ τ) (P : Walk κ τ → Prop) : Walk κ τ → Walk κ τ → Prop :=
  ReflTransGen fun s t => P s ∧ R.step s = t

/-- The sources that are pushed, in the order in which they are popped: the last one of the list
first. -/
theorem foldl_push (cs : List κ) (s : Walk κ τ) : ∃ todo : List κ,
    cs.foldl push s = ⟨s.cache, todo ++ s.queued, todo.map .enter ++ s.stack⟩ ∧
    (∀ c, c ∈ todo ↔ c ∈ cs ∧ s.cache c = none ∧ c ∉ s.queued) ∧
    todo.Pairwise fun a b => cs.idxOf b < cs.idxOf a := by
  induction cs generalizing s with
  | nil => exact ⟨[], rfl, by simp, .nil⟩
  | cons d cs ih =>
    obtain ⟨todo, hfold, hmem, hsorted⟩ := ih (push s d)
    have hshift {a : κ} (ha : a ≠ d) : (d :: cs).idxOf a = cs.idxOf a + 1 :=
      List.idxOf_cons_ne cs (Ne.symm ha)
    by_cases hpush : (s.cache d).isNone ∧ d ∉ s.queued
    · have hs : push s d = { s with queued := d :: s.queued, stack := .enter d :: s.stack } := by
        rw [push, if_pos hpush]
      rw [Option.isNone_iff_eq_none] at hpush
      rw [hs] at hfold hmem
      have hne : ∀ a ∈ todo, a ≠ d := fun a ha hd =>
        ((hmem a).1 ha).2.2 (hd ▸ List.mem_cons_self)
      refine ⟨todo ++ [d], ?_, fun c => ?_, ?_⟩
      · rw [List.foldl_cons, hs, hfold]
        simp
      · rw [List.mem_append, hmem, List.mem_singleton, List.mem_cons, List.mem_cons]
        by_cases hc : c = d
        · subst hc
          simp [hpush]
        · simp [hc]
      · refine List.pairwise_append.2 ⟨?_, List.pairwise_singleton _ _, fun a ha b hb => ?_⟩
        · refine hsorted.imp_of_mem fun {a b} ha hb hab => ?_
          rw [hshift (hne a ha), hshift (hne b hb)]
          omega
        · rw [List.mem_singleton.1 hb, List.idxOf_cons_self, hshift (hne a ha)]
          omega
    · have hs : push s d = s := by rw [push, if_neg hpush]
      rw [hs] at hfold hmem
      have hne : ∀ a ∈ todo, a ≠ d := by
        rintro a ha rfl
        obtain ⟨-, hnone, hqueued⟩ := (hmem a).1 ha
        exact hpush (by simp [hnone, hqueued])
      refine ⟨todo, ?_, fun c => ?_, ?_⟩
      · rw [List.foldl_cons, hs, hfold]
      · rw [hmem, List.mem_cons]
        refine ⟨fun h => ⟨.inr h.1, h.2⟩, fun h => ⟨h.1.resolve_left ?_, h.2⟩⟩
        rintro rfl
        exact hpush (by simp [h.2])
      · refine hsorted.imp_of_mem fun {a b} ha hb hab => ?_
        rw [hshift (hne a ha), hshift (hne b hb)]
        omega

variable {s : Walk κ τ}

theorem step_enter_cached (hstack : s.stack = .enter k :: rest) (hcache : s.cache k ≠ none) :
    R.step s = { s with stack := rest } := by
  simp only [step, hstack, Option.isSome_iff_ne_none.2 hcache, if_true]

theorem step_enter_stale (hstack : s.stack = .enter k :: rest) (hdeps : R.deps k = none) :
    R.step s = { s with stack := rest } := by
  simp only [step, hstack, hdeps, ite_self]

variable {cs : List κ}

/-- A key is entered: the sources that are still to be evaluated are queued. -/
theorem step_enter (hstack : s.stack = .enter k :: rest) (hcache : s.cache k = none)
    (hdeps : R.deps k = some cs) :
    ∃ todo : List κ,
      R.step s = ⟨s.cache, todo ++ s.queued, todo.map .enter ++ .exit k :: rest⟩ ∧
      (∀ c, c ∈ todo ↔ c ∈ cs ∧ s.cache c = none ∧ c ∉ s.queued) ∧
      todo.Pairwise fun a b => cs.idxOf b < cs.idxOf a := by
  obtain ⟨todo, hfold, htodo⟩ := foldl_push cs { s with stack := .exit k :: rest }
  refine ⟨todo, ?_, htodo⟩
  simp only [step, hstack, hcache, hdeps, Option.isSome_none, Bool.false_eq_true, if_false, hfold]

theorem step_exit_cached (hstack : s.stack = .exit k :: rest) (hcache : s.cache k ≠ none) :
    R.step s = { s with stack := rest } := by
  simp only [step, hstack, Option.isSome_iff_ne_none.2 hcache, if_true]

theorem step_exit (hstack : s.stack = .exit k :: rest) (hcache : s.cache k = none)
    (hdeps : R.deps k = some cs) :
    R.step s =
      { s with cache := update s.cache k (some (R.eval k s.cache)), stack := rest } := by
  simp only [step, hstack, hcache, hdeps, Option.isSome_none, Bool.false_eq_true, if_false]

theorem visit_list (R : Recipe κ τ) {ks : List κ}
    (hvisit : ∀ k ∈ ks, ∀ (s : Walk κ τ) rest, s.stack = .enter k :: rest →
      ∃ t, Steps R (fun _ => True) s t ∧ t.stack = rest ∧ Settles R [k] s t)
    (hstack : s.stack = ks.map .enter ++ rest) :
    ∃ t, Steps R (fun _ => True) s t ∧ t.stack = rest ∧ Settles R ks s t := by
  induction ks generalizing s with
  | nil => exact ⟨s, .refl, hstack, .refl (by simp) rfl rfl⟩
  | cons k ks ih =>
    obtain ⟨t, hst, htstack, ht⟩ := hvisit k List.mem_cons_self s _ hstack
    obtain ⟨u, htu, hustack, hu⟩ := ih (fun c hc => hvisit c (List.mem_cons_of_mem k hc)) htstack
    exact ⟨u, hst.trans htu, hustack, ht.cons hu⟩

section Rank

variable {rank : κ → ℕ} (hrank : ∀ k c, R.Needs k c → rank c < rank k)

include hrank

/-- The evaluation of a frame ends, and evaluates what its key depends on. -/
theorem visit (k : κ) (s : Walk κ τ) (rest : List (Frame κ)) (hstack : s.stack = .enter k :: rest) :
    ∃ t, Steps R (fun _ => True) s t ∧ t.stack = rest ∧ Settles R [k] s t := by
  induction hn : rank k using Nat.strongRecOn generalizing k s rest with
  | _ n ih =>
    subst hn
    rcases hcache : s.cache k with _ | v
    · rcases hdeps : R.deps k with _ | cs
      · have hstale : ∀ c ∈ [k], R.Live c → s.cache c ≠ none := by
          intro c hc hlive
          rw [List.mem_singleton.1 hc] at hlive
          exact absurd hdeps (not_live_iff.not.1 (not_not.2 hlive))
        exact ⟨_, .single ⟨trivial, rfl⟩, by rw [step_enter_stale hstack hdeps],
          .refl hstale (by rw [step_enter_stale hstack hdeps])
            (by rw [step_enter_stale hstack hdeps])⟩
      · obtain ⟨todo, hstep, htodo, -⟩ := step_enter hstack hcache hdeps
        have hneeds : ∀ c ∈ todo, R.Needs k c := fun c hc => ⟨cs, hdeps, ((htodo c).1 hc).1⟩
        have hmid : (R.step s).stack = todo.map .enter ++ .exit k :: rest := by rw [hstep]
        obtain ⟨t, hst, htstack, ht⟩ := visit_list R
          (fun c hc s rest hs => ih (rank c) (hrank k c (hneeds c hc)) c s rest hs rfl) hmid
        rw [hstep] at ht
        have hnone : t.cache k = none := by
          by_contra hk
          rcases ht.needed k hk with hk | ⟨c, hc, hreach⟩
          · exact hk hcache
          · exact not_reaches_of_needs hrank (hneeds c hc) hreach
        have hexit := step_exit htstack hnone hdeps
        refine ⟨R.step t, .head ⟨trivial, rfl⟩ (hst.tail ⟨trivial, rfl⟩), by rw [hexit], ?_⟩
        rw [hexit]
        exact ht.exit hcache hneeds (fun c hc => ((htodo c).1 hc).2.2) _ rfl rfl
    · have hdone : ∀ c ∈ [k], R.Live c → s.cache c ≠ none := by
        intro c hc _
        rw [List.mem_singleton.1 hc, hcache]
        exact Option.some_ne_none v
      have hstep := step_enter_cached (R := R) hstack (by rw [hcache]; exact Option.some_ne_none v)
      exact ⟨_, .single ⟨trivial, rfl⟩, by rw [hstep], .refl hdone (by rw [hstep]) (by rw [hstep])⟩

end Rank

/-! ### Walks without a premature step -/

theorem cache_step (R : Recipe κ τ) (s : Walk κ τ) : (R.step s).cache = s.cache ∨
    ∃ k rest cs, s.stack = .exit k :: rest ∧ s.cache k = none ∧ R.deps k = some cs ∧
      (R.step s).cache = update s.cache k (some (R.eval k s.cache)) := by
  rcases hstack : s.stack with _ | ⟨k | k, rest⟩
  · exact .inl (by simp only [step, hstack])
  · rcases hcache : s.cache k with _ | v
    · rcases hdeps : R.deps k with _ | cs
      · exact .inl (by rw [step_enter_stale hstack hdeps])
      · obtain ⟨todo, hstep, -⟩ := step_enter hstack hcache hdeps
        exact .inl (by rw [hstep])
    · exact .inl (by rw [step_enter_cached hstack (by rw [hcache]; exact Option.some_ne_none v)])
  · rcases hcache : s.cache k with _ | v
    · rcases hdeps : R.deps k with _ | cs
      · exact .inl (by simp only [step, hstack, hdeps, ite_self])
      · exact .inr ⟨k, rest, cs, rfl, hcache, hdeps, by rw [step_exit hstack hcache hdeps]⟩
    · exact .inl (by rw [step_exit_cached hstack (by rw [hcache]; exact Option.some_ne_none v)])

/-- Without a premature step the memo stays closed. -/
theorem Closed.step (h : R.Closed s.cache) (hs : ¬ R.Premature s) : R.Closed (R.step s).cache := by
  rcases cache_step R s with hcache | ⟨k, rest, cs, hstack, hnone, hdeps, hcache⟩
  · rwa [hcache]
  · rw [hcache]
    refine h.update hdeps (fun c hc hlive hcnone => hs ?_) _
    exact ⟨k, rest, c, hstack, hnone, ⟨cs, hdeps, hc⟩, hlive, hcnone⟩

theorem leave {t : Walk κ τ} (hstack : t.stack = .exit k :: rest) (hcs : R.deps k = some cs)
    (hsources : ∀ c ∈ cs, R.Live c → t.cache c ≠ none) :
    ¬ R.Premature t ∧ (R.step t).stack = rest ∧ (R.step t).queued = t.queued ∧
      (∀ x, t.cache x ≠ none → (R.step t).cache x ≠ none) ∧ (R.step t).cache k ≠ none := by
  have hpremature : ¬ R.Premature t := by
    rintro ⟨x, rest', c, hstack', -, hneeds, hlive, hnone⟩
    rw [hstack] at hstack'
    cases hstack'
    obtain ⟨cs', hcs', hc⟩ := hneeds
    rw [hcs, Option.some.injEq] at hcs'
    exact hsources c (hcs' ▸ hc) hlive hnone
  by_cases hnone : t.cache k = none
  · have hstep := step_exit hstack hnone hcs
    rw [hstep]
    refine ⟨hpremature, rfl, rfl, fun x hx => ?_, ?_⟩
    · have hne : x ≠ k := by
        rintro rfl
        exact hx hnone
      simpa only [update_of_ne hne] using hx
    · simp only [update_self]
      exact Option.some_ne_none _
  · have hstep := step_exit_cached (R := R) hstack hnone
    rw [hstep]
    exact ⟨hpremature, rfl, rfl, fun _ hx => hx, hnone⟩

theorem Good.leave {T : κ → Option τ} (hT : R.IsTable T) {t : Walk κ τ} (h : R.Good T t.cache)
    (hstack : t.stack = .exit k :: rest) (hcs : R.deps k = some cs)
    (hsources : ∀ c ∈ cs, R.Live c → t.cache c ≠ none) : R.Good T (R.step t).cache := by
  by_cases hnone : t.cache k = none
  · rw [step_exit hstack hnone hcs]
    exact h.update hcs hsources hT
  · rw [step_exit_cached hstack hnone]
    exact h

/-- What a walk without a premature step does with the frames of `ks`. -/
structure Completes (R : Recipe κ τ) (T : κ → Option τ) (ks : List κ) (s t : Walk κ τ) : Prop where
  good : R.Good T t.cache
  kept : ∀ x, s.cache x ≠ none → t.cache x ≠ none
  done : ∀ k ∈ ks, R.Live k → t.cache k ≠ none
  /-- What was queued on the way was evaluated. -/
  queued : ∀ x ∈ t.queued, x ∈ s.queued ∨ t.cache x ≠ none ∨ ¬ R.Live x

/-- The evaluation of `k` can begin: what the sources listed later need is evaluated, and nothing
that `k` depends on is queued elsewhere. -/
structure Ready (R : Recipe κ τ) (T : κ → Option τ) (D : Set κ) (k : κ) (s : Walk κ τ) : Prop where
  good : R.Good T s.cache
  settled : ∀ x ∈ D, R.Live x → s.cache x ≠ none
  free : ∀ y, TransGen R.Needs k y → y ∈ s.queued → s.cache y ≠ none ∨ ¬ R.Live y

section Rank

variable {rank : κ → ℕ} (hrank : ∀ k c, R.Needs k c → rank c < rank k) {root : κ} {T : κ → Option τ}
  (hroot : R.Sequential root)

include hrank hroot

/-- The sources of a key are evaluated one after the other, each when it is ready. -/
theorem complete_sources {cs todo : List κ}
    (hpath : R.Path root k D) (hcs : R.deps k = some cs)
    (hvisit : ∀ c ∈ cs, ∀ (D : Set κ) (s : Walk κ τ) (rest : List (Frame κ)), R.Path root c D →
      R.Ready T D c s → s.stack = .enter c :: rest →
      ∃ t, R.Steps (fun s => ¬ R.Premature s) s t ∧ t.stack = rest ∧ R.Completes T [c] s t)
    (hstack : s.stack = todo.map .enter ++ rest)
    (hsorted : todo.Pairwise fun a b => cs.idxOf b < cs.idxOf a) (hmem : ∀ c ∈ todo, c ∈ cs)
    (hfresh : ∀ c ∈ todo, R.Live c → c ∉ D)
    (hlater : ∀ c ∈ todo, ∀ q ∈ cs, cs.idxOf c < cs.idxOf q →
      q ∈ todo ∨ (R.Live q → s.cache q ≠ none))
    (hgood : R.Good T s.cache) (hsettled : ∀ x ∈ D, R.Live x → s.cache x ≠ none)
    (hfree : ∀ y, TransGen R.Needs k y → y ∈ s.queued →
      y ∈ todo ∨ s.cache y ≠ none ∨ ¬ R.Live y) :
    ∃ t, R.Steps (fun s => ¬ R.Premature s) s t ∧ t.stack = rest ∧ R.Completes T todo s t := by
  induction todo generalizing s with
  | nil =>
    exact ⟨s, .refl, hstack, ⟨hgood, fun _ hx => hx, by simp, fun _ hx => .inl hx⟩⟩
  | cons c todo ih =>
    rw [List.pairwise_cons] at hsorted
    have hc : c ∈ cs := hmem c List.mem_cons_self
    have hneeds : R.Needs k c := ⟨cs, hcs, hc⟩
    have hready : R.Ready T (D ∪ {x | ∃ q ∈ cs, cs.idxOf c < cs.idxOf q ∧ R.Reaches q x}) c s := by
      refine ⟨hgood, fun x hx hlive => ?_, fun y hy hqueued => ?_⟩
      · rcases hx with hx | ⟨q, hq, hlt, hreach⟩
        · exact hsettled x hx hlive
        · rcases hlater c List.mem_cons_self q hq hlt with hq' | hdone
          · rcases List.mem_cons.1 hq' with rfl | hq'
            · exact absurd hlt (Nat.lt_irrefl _)
            · exact absurd hlt (Nat.lt_asymm (hsorted.1 q hq'))
          · exact hgood.closed.of_reaches (hdone (live_of_reaches hreach hlive)) hreach hlive
      · rcases hfree y (.head hneeds hy) hqueued with hy' | hdone
        · by_cases hlive : R.Live y
          · rcases List.mem_cons.1 hy' with rfl | hy'
            · obtain ⟨d, hd, hreach⟩ := TransGen.head'_iff.1 hy
              exact absurd hreach (not_reaches_of_needs hrank hd)
            · have hD : y ∈ D := hroot k D cs y c hpath hcs (hmem y (List.mem_cons_of_mem c hy')) hc
                (hsorted.1 y hy') hlive hy.to_reflTransGen
              exact absurd hD (hfresh y (List.mem_cons_of_mem c hy') hlive)
          · exact .inr hlive
        · exact hdone
    obtain ⟨t, hst, htstack, ht⟩ := hvisit c hc _ s _ (hpath.source hcs hc) hready hstack
    have hlater' : ∀ d ∈ todo, ∀ q ∈ cs, cs.idxOf d < cs.idxOf q →
        q ∈ todo ∨ (R.Live q → t.cache q ≠ none) := by
      intro d hd q hq hlt
      rcases hlater d (List.mem_cons_of_mem c hd) q hq hlt with hq | hdone
      · rcases List.mem_cons.1 hq with rfl | hq
        · exact .inr (ht.done q List.mem_cons_self)
        · exact .inl hq
      · exact .inr fun hlive => ht.kept q (hdone hlive)
    have hfree' : ∀ y, TransGen R.Needs k y → y ∈ t.queued →
        y ∈ todo ∨ t.cache y ≠ none ∨ ¬ R.Live y := by
      intro y hy hqueued
      rcases ht.queued y hqueued with hqueued | hdone
      · rcases hfree y hy hqueued with hy | hdone
        · rcases List.mem_cons.1 hy with rfl | hy
          · by_cases hlive : R.Live y
            · exact .inr (.inl (ht.done y List.mem_cons_self hlive))
            · exact .inr (.inr hlive)
          · exact .inl hy
        · exact .inr (hdone.imp_left (ht.kept y))
      · exact .inr hdone
    obtain ⟨u, htu, hustack, hu⟩ := ih htstack hsorted.2
      (fun d hd => hmem d (List.mem_cons_of_mem c hd))
      (fun d hd => hfresh d (List.mem_cons_of_mem c hd)) hlater' ht.good
      (fun x hx hlive => ht.kept x (hsettled x hx hlive)) hfree'
    refine ⟨u, hst.trans htu, hustack, hu.good, fun x hx => hu.kept x (ht.kept x hx), ?_, ?_⟩
    · intro d hd hlive
      rcases List.mem_cons.1 hd with rfl | hd
      · exact hu.kept d (ht.done d List.mem_cons_self hlive)
      · exact hu.done d hd hlive
    · intro x hx
      rcases hu.queued x hx with hx | hx
      · exact (ht.queued x hx).imp_right fun hx => hx.imp_left (hu.kept x)
      · exact .inr hx

/-- From a key that is ready, the walk evaluates the key without a premature step. -/
theorem complete (hT : R.IsTable T) (k : κ) (hpath : R.Path root k D) (hready : R.Ready T D k s)
    (hstack : s.stack = .enter k :: rest) :
    ∃ t, R.Steps (fun s => ¬ R.Premature s) s t ∧ t.stack = rest ∧ R.Completes T [k] s t := by
  induction hn : rank k using Nat.strongRecOn generalizing k D s rest with
  | _ n ih =>
    subst hn
    have henter : ¬ R.Premature s := by
      rintro ⟨x, rest', c, hexit, -⟩
      rw [hstack] at hexit
      cases hexit
    rcases hcache : s.cache k with _ | v
    · rcases hdeps : R.deps k with _ | cs
      · have hstep := step_enter_stale hstack hdeps
        have hlive : ¬ R.Live k := not_live_iff.2 hdeps
        refine ⟨_, .single ⟨henter, rfl⟩, by rw [hstep], by rw [hstep]; exact hready.good,
          ?_, ?_, ?_⟩
        · rw [hstep]
          exact fun _ hx => hx
        · intro c hc hc'
          exact absurd (List.mem_singleton.1 hc ▸ hc') hlive
        · rw [hstep]
          exact fun _ hx => .inl hx
      · obtain ⟨todo, hstep, htodo, hsorted⟩ := step_enter hstack hcache hdeps
        have hneeds : ∀ c ∈ cs, R.Needs k c := fun c hc => ⟨cs, hdeps, hc⟩
        -- a source is evaluated, to be evaluated, or stale
        have hsource : ∀ c ∈ cs, c ∈ todo ∨ (R.Live c → s.cache c ≠ none) := by
          intro c hc
          by_cases hnone : s.cache c = none
          · by_cases hqueued : c ∈ s.queued
            · refine .inr fun hlive => ?_
              exact (hready.free c (.single (hneeds c hc)) hqueued).resolve_right (not_not.2 hlive)
            · exact .inl ((htodo c).2 ⟨hc, hnone, hqueued⟩)
          · exact .inr fun _ => hnone
        have hmid : (R.step s).stack = todo.map .enter ++ .exit k :: rest := by rw [hstep]
        obtain ⟨t, hst, htstack, ht⟩ := complete_sources hrank hroot hpath hdeps
          (fun c hc D s rest hpath hready hs =>
            ih (rank c) (hrank k c (hneeds c hc)) c hpath hready hs rfl)
          hmid hsorted (fun c hc => ((htodo c).1 hc).1)
          (fun c hc hlive hD => hready.settled c hD hlive ((htodo c).1 hc).2.1)
          (fun c _ q hq _ => by rw [hstep]; exact hsource q hq) (by rw [hstep]; exact hready.good)
          (by rw [hstep]; exact hready.settled)
          (fun y hy hqueued => by
            rw [hstep] at hqueued ⊢
            rcases List.mem_append.1 hqueued with hqueued | hqueued
            · exact .inl hqueued
            · exact .inr (hready.free y hy hqueued))
        rw [hstep] at ht
        have hall : ∀ c ∈ cs, R.Live c → t.cache c ≠ none := by
          intro c hc hlive
          rcases hsource c hc with hc | hdone
          · exact ht.done c hc hlive
          · exact ht.kept c (hdone hlive)
        have hqueued : ∀ x ∈ t.queued, x ∈ s.queued ∨ t.cache x ≠ none ∨ ¬ R.Live x := by
          intro x hx
          rcases ht.queued x hx with hx | hx
          · rcases List.mem_append.1 hx with hx | hx
            · by_cases hlive : R.Live x
              · exact .inr (.inl (ht.done x hx hlive))
              · exact .inr (.inr hlive)
            · exact .inl hx
          · exact .inr hx
        obtain ⟨hexit, hstack', hcache', hkept, hdone⟩ := leave htstack hdeps hall
        refine ⟨R.step t, .head ⟨henter, rfl⟩ (hst.tail ⟨hexit, rfl⟩), hstack', ?_,
          fun x hx => hkept x (ht.kept x hx), ?_, fun x hx => ?_⟩
        · exact Good.leave hT ht.good htstack hdeps hall
        · intro c hc _
          rw [List.mem_singleton.1 hc]
          exact hdone
        · exact (hqueued x (hcache' ▸ hx)).imp_right fun hx => hx.imp_left (hkept x)
    · have hdone : s.cache k ≠ none := by
        rw [hcache]
        exact Option.some_ne_none v
      have hstep := step_enter_cached (R := R) hstack hdone
      refine ⟨_, .single ⟨henter, rfl⟩, by rw [hstep], by rw [hstep]; exact hready.good, ?_, ?_, ?_⟩
      · rw [hstep]
        exact fun _ hx => hx
      · intro c hc _
        rw [hstep, List.mem_singleton.1 hc]
        exact hdone
      · rw [hstep]
        exact fun _ hx => .inl hx

end Rank

/-! ### Walks from a root -/

/-- The states of the walk from a root. -/
def Visits (R : Recipe κ τ) (root : κ) (s : Walk κ τ) : Prop := ∃ m, R.step^[m] (begin root) = s

theorem Visits.steps {root : κ} {s t : Walk κ τ} (h : R.Visits root s) (hst : R.Steps P s t) :
    R.Visits root t := by
  induction hst with
  | refl => exact h
  | tail _ hstep ih =>
    obtain ⟨m, hm⟩ := ih
    exact ⟨m + 1, by rw [iterate_succ_apply', hm, hstep.2]⟩

theorem step_of_done (h : s.stack = []) : R.step s = s := by
  simp only [step, h]

omit [DecidableEq κ] in
theorem not_premature_of_done (h : s.stack = []) : ¬ R.Premature s := by
  rintro ⟨k, rest, c, hstack, -⟩
  rw [h] at hstack
  cases hstack

theorem iterate_of_steps {s t : Walk κ τ} (hst : R.Steps P s t) (ht : t.stack = []) (hP : P t) :
    (∀ m, P (R.step^[m] s)) ∧ ∃ n, ∀ m ≥ n, R.step^[m] s = t := by
  induction hst using ReflTransGen.head_induction_on with
  | refl =>
    have hfixed : ∀ m, R.step^[m] t = t := fun m => iterate_fixed (step_of_done ht) m
    exact ⟨fun m => (hfixed m).symm ▸ hP, 0, fun m _ => hfixed m⟩
  | head hstep _ ih =>
    obtain ⟨hPs, rfl⟩ := hstep
    obtain ⟨hall, n, hn⟩ := ih
    refine ⟨fun m => ?_, n + 1, fun m hm => ?_⟩
    · cases m with
      | zero => exact hPs
      | succ m => exact hall m
    · obtain ⟨m, rfl⟩ : ∃ l, m = l + 1 := ⟨m - 1, by omega⟩
      exact hn m (by omega)

section Rank

variable {rank : κ → ℕ} (hrank : ∀ k c, R.Needs k c → rank c < rank k) {root : κ}

include hrank

/-- The walk ends, with the root evaluated if it has a value. -/
theorem walk_ends : ∃ t : Walk κ τ, t.stack = [] ∧ (∃ n, ∀ m ≥ n, R.step^[m] (begin root) = t) ∧
    (R.Live root → t.cache root ≠ none) := by
  obtain ⟨t, hst, hstack, ht⟩ := visit hrank root (begin root : Walk κ τ) [] rfl
  exact ⟨t, hstack, (iterate_of_steps hst hstack trivial).2, ht.done root List.mem_cons_self⟩

/-- The walk from a sequential root has no premature step, and ends with the recursion's value. -/
theorem walk_sequential {T : κ → Option τ} (hT : R.IsTable T) (hroot : R.Sequential root) :
    (∀ m, ¬ R.Premature (R.step^[m] (begin root))) ∧
      ∃ n, ∀ m ≥ n, (R.step^[m] (begin root)).stack = [] ∧
        (R.step^[m] (begin root)).cache root = T root := by
  have hready : R.Ready T ∅ root (begin root : Walk κ τ) := by
    refine ⟨⟨fun x v hx => ?_, fun x c hx => ?_⟩, fun x hx => ?_, fun y hy hqueued => ?_⟩
    · cases hx
    · exact absurd rfl hx
    · exact absurd hx (Set.notMem_empty x)
    · obtain rfl : y = root := List.mem_singleton.1 hqueued
      obtain ⟨d, hd, hreach⟩ := TransGen.head'_iff.1 hy
      exact absurd hreach (not_reaches_of_needs hrank hd)
  obtain ⟨t, hst, hstack, ht⟩ := complete hrank hroot hT root .root hready rfl
  obtain ⟨hall, n, hn⟩ := iterate_of_steps hst hstack (not_premature_of_done hstack)
  refine ⟨hall, n, fun m hm => ?_⟩
  rw [hn m hm]
  refine ⟨hstack, ?_⟩
  by_cases hlive : R.Live root
  · obtain ⟨v, hv⟩ := Option.ne_none_iff_exists'.1 (ht.done root List.mem_cons_self hlive)
    rw [hv, ht.good.value root v hv]
  · rcases hcache : t.cache root with _ | v
    · rw [hT root, not_live_iff.1 hlive, Option.map_none]
    · exact (ht.good.value root v hcache).symm

variable (hall : ∀ m, ¬ R.Premature (R.step^[m] (begin root)))

include hall

omit hrank in
theorem closed_of_visits (h : R.Visits root s) : R.Closed s.cache := by
  obtain ⟨m, rfl⟩ := h
  induction m with
  | zero => exact fun x c hx => absurd rfl hx
  | succ m ih =>
    rw [iterate_succ_apply']
    exact ih.step (hall m)

/-- When a key is entered, its sources are evaluated or not queued yet. -/
theorem not_queued (h : R.Visits root s) (hstack : s.stack = .enter p :: rest)
    (hp : s.cache p = none) (hcs : R.deps p = some cs) (hc : c ∈ cs) (hlive : R.Live c)
    (hnone : s.cache c = none) : c ∉ s.queued := by
  intro hqueued
  obtain ⟨todo, hstep, htodo, -⟩ := step_enter hstack hp hcs
  have hneeds : ∀ d ∈ todo, R.Needs p d := fun d hd => ⟨cs, hcs, ((htodo d).1 hd).1⟩
  have hmid : (R.step s).stack = todo.map .enter ++ .exit p :: rest := by rw [hstep]
  obtain ⟨t, hst, htstack, ht⟩ := visit_list R (fun d _ => visit hrank d) hmid
  rw [hstep] at ht
  have hpnone : t.cache p = none := by
    by_contra hdone
    rcases ht.needed p hdone with hdone | ⟨d, hd, hreach⟩
    · exact hdone hp
    · exact not_reaches_of_needs hrank (hneeds d hd) hreach
  have hcnone : t.cache c = none := by
    rw [ht.still c (List.mem_append_right _ hqueued) fun hmem => ((htodo c).1 hmem).2.2 hqueued]
    exact hnone
  obtain ⟨m, hm⟩ := h.steps (.head ⟨trivial, rfl⟩ hst)
  refine hall m ?_
  rw [hm]
  exact ⟨p, rest, c, htstack, hpnone, ⟨cs, hcs, hc⟩, hlive, hcnone⟩

/-- A key on a path is entered when what the later sources need is evaluated, at most. -/
theorem entered (hpath : R.Path root p D) (hp : R.Live p) :
    p ∈ D ∨ ∃ s rest, R.Visits root s ∧ s.stack = .enter p :: rest ∧
      ∀ x, s.cache x ≠ none → x ∈ D := by
  induction hpath with
  | root => exact .inr ⟨begin root, [], ⟨0, rfl⟩, rfl, fun x hx => absurd rfl hx⟩
  | source hk hcs hc ih =>
    next k c cs D =>
    have hneeds : R.Needs k c := ⟨cs, hcs, hc⟩
    rcases ih hneeds.live with hmem | ⟨s, rest, hs, hstack, hcached⟩
    · exact .inl (.inl (hk.mem_of_reaches hmem (.single hneeds)))
    by_cases hknone : s.cache k = none
    · by_cases hcnone : s.cache c = none
      · obtain ⟨todo, hstep, htodo, hsorted⟩ := step_enter hstack hknone hcs
        have hctodo : c ∈ todo :=
          (htodo c).2 ⟨hc, hcnone, not_queued hrank hall hs hstack hknone hcs hc hp hcnone⟩
        obtain ⟨before, after, rfl⟩ := List.append_of_mem hctodo
        have hmid : (R.step s).stack =
            before.map .enter ++ .enter c :: (after.map .enter ++ .exit k :: rest) := by
          rw [hstep]
          simp
        obtain ⟨t, hst, htstack, ht⟩ := visit_list R (fun d _ => visit hrank d) hmid
        refine .inr ⟨t, _, hs.steps (.head ⟨trivial, rfl⟩ hst), htstack, fun x hx => ?_⟩
        rw [hstep] at ht
        rcases ht.needed x hx with hx | ⟨q, hq, hreach⟩
        · exact .inl (hcached x hx)
        · refine .inr ⟨q, ((htodo q).1 (List.mem_append_left _ hq)).1, ?_, hreach⟩
          exact (List.pairwise_append.1 hsorted).2.2 q hq c List.mem_cons_self
      · exact .inl (.inl (hcached c hcnone))
    · exact .inl (.inl (hk.mem_of_reaches (hcached k hknone) (.single hneeds)))

/-- A walk without a premature step starts from a sequential root. -/
theorem sequential_of_not_premature : R.Sequential root := by
  intro k D cs c q hpath hcs hc hq hlt hlive hreach
  by_contra hD
  have hk : R.Needs k c := ⟨cs, hcs, hc⟩
  rcases entered hrank hall hpath hk.live with hmem | ⟨s, rest, hs, hstack, hcached⟩
  · exact hD (hpath.mem_of_reaches hmem (.single hk))
  have hcnone : s.cache c = none := by
    by_contra hdone
    exact hD (hcached c hdone)
  have hknone : s.cache k = none := by
    by_contra hdone
    exact hD (hpath.mem_of_reaches (hcached k hdone) (.single hk))
  have hqlive : R.Live q := live_of_reaches hreach hlive
  have hqnone : s.cache q = none := by
    by_contra hdone
    exact (closed_of_visits hall hs).of_reaches hdone hreach hlive hcnone
  obtain ⟨todo, hstep, htodo, hsorted⟩ := step_enter hstack hknone hcs
  have hctodo : c ∈ todo :=
    (htodo c).2 ⟨hc, hcnone, not_queued hrank hall hs hstack hknone hcs hc hlive hcnone⟩
  have hqtodo : q ∈ todo :=
    (htodo q).2 ⟨hq, hqnone, not_queued hrank hall hs hstack hknone hcs hq hqlive hqnone⟩
  -- the walk up to and with `q` evaluates `q`, and does not touch `c`
  obtain ⟨before, after, rfl⟩ := List.append_of_mem hqtodo
  have hmid : (R.step s).stack =
      (before ++ [q]).map .enter ++ (after.map .enter ++ .exit k :: rest) := by
    rw [hstep]
    simp
  obtain ⟨t, hst, htstack, ht⟩ := visit_list R (fun d _ => visit hrank d) hmid
  rw [hstep] at ht
  have hcbefore : c ∉ before ++ [q] := by
    intro hmem
    rcases List.mem_append.1 hmem with hmem | hmem
    · have := (List.pairwise_append.1 hsorted).2.2 c hmem q List.mem_cons_self
      omega
    · rw [List.mem_singleton.1 hmem] at hlt
      exact absurd hlt (Nat.lt_irrefl _)
  have hqdone : t.cache q ≠ none := ht.done q (by simp) hqlive
  have hstill : t.cache c = none := by
    rw [ht.still c (List.mem_append_left _ hctodo) hcbefore]
    exact hcnone
  exact (closed_of_visits hall (hs.steps (.head ⟨trivial, rfl⟩ hst))).of_reaches hqdone hreach hlive
    hstill

end Rank

end Walk

end Recipe

end Oak.Lib
