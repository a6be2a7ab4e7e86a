import Mathlib.Data.List.Basic

/-!
# Runs of a machine

A machine takes actions one after the other. Its transition function `act` is total, and a
predicate `ok` says which actions its environment may take in which state.

* `run act s as` is the state after the actions `as`.
* `Permitted act ok s as` says that every action of `as` is taken where `ok` allows it.
* `shadow act upd` runs the machine with a second state alongside, which the machine never reads.

## Main results

* `invariant_run`, `invariant_always`: what one (permitted) action preserves holds after every
  (permitted) run.
* `forall_run_iff`: what one action preserves exactly when it is permitted.
* `run_shadow_fst`, `permitted_shadow`: a shadow changes neither the run nor what is permitted.
-/

namespace Oak.Lib

variable {S A : Type*} {act : S → A → S} {ok : S → A → Prop}

/-- The state after a run. -/
def run (act : S → A → S) : S → List A → S
  | s, [] => s
  | s, a :: as => run act (act s a) as

/-- Every action of the run is allowed where it is taken. -/
def Permitted (act : S → A → S) (ok : S → A → Prop) : S → List A → Prop
  | _, [] => True
  | s, a :: as => ok s a ∧ Permitted act ok (act s a) as

instance Permitted.decidable [h : ∀ s a, Decidable (ok s a)] :
    (s : S) → (as : List A) → Decidable (Permitted act ok s as)
  | _, [] => isTrue trivial
  | s, a :: as => @instDecidableAnd _ _ (h s a) (Permitted.decidable (act s a) as)

@[simp] theorem run_nil (s : S) : run act s [] = s := rfl

@[simp] theorem run_cons (s : S) (a : A) (as : List A) :
    run act s (a :: as) = run act (act s a) as := rfl

theorem run_append (s : S) (as bs : List A) :
    run act s (as ++ bs) = run act (run act s as) bs := by
  induction as generalizing s with
  | nil => rfl
  | cons a as ih => exact ih (act s a)

variable {as : List A}

/-- What one permitted action preserves holds after every permitted run. -/
theorem invariant_run {I : S → Prop} (hstep : ∀ s a, I s → ok s a → I (act s a)) {s : S} (hs : I s)
    (has : Permitted act ok s as) : I (run act s as) := by
  induction as generalizing s with
  | nil => exact hs
  | cons a as ih => exact ih (hstep s a hs has.1) has.2

/-- What every action preserves holds after every run. -/
theorem invariant_always {I : S → Prop} (hstep : ∀ s a, I s → I (act s a)) {s : S} (hs : I s)
    (as : List A) : I (run act s as) := by
  induction as generalizing s with
  | nil => exact hs
  | cons a as ih => exact ih (hstep s a hs)

theorem permitted_append {s : S} {as bs : List A} :
    Permitted act ok s (as ++ bs) ↔ Permitted act ok s as ∧ Permitted act ok (run act s as) bs := by
  induction as generalizing s with
  | nil => exact (and_iff_right trivial).symm
  | cons a as ih => exact (and_congr_right fun _ => ih).trans and_assoc.symm

theorem permitted_of_forall_mem (h : ∀ a ∈ as, ∀ s, ok s a) (s : S) : Permitted act ok s as := by
  induction as generalizing s with
  | nil => trivial
  | cons a as ih =>
    exact ⟨h a List.mem_cons_self s, ih (fun b hb => h b (List.mem_cons_of_mem a hb)) (act s a)⟩

/-- A property that one action preserves exactly when it is permitted holds all along exactly the
permitted runs. -/
theorem forall_run_iff {I J : S → Prop} (hJ : ∀ s a, J s → J (act s a))
    (hstep : ∀ s a, J s → I s → (I (act s a) ↔ ok s a)) {s : S} (hs : J s) (hI : I s) :
    (∀ bs cs, as = bs ++ cs → I (run act s bs)) ↔ Permitted act ok s as := by
  induction as generalizing s with
  | nil =>
    refine iff_of_true (fun bs cs h => ?_) trivial
    rw [(List.nil_eq_append_iff.1 h).1]
    exact hI
  | cons a as ih =>
    constructor
    · intro h
      have hnext : I (act s a) := h [a] as rfl
      exact ⟨(hstep s a hs hI).1 hnext,
        (ih (hJ s a hs) hnext).1 fun bs cs heq => h (a :: bs) cs (by rw [heq, List.cons_append])⟩
    · rintro ⟨ha, has⟩ bs cs h
      have hnext := (hstep s a hs hI).2 ha
      rcases bs with _ | ⟨b, bs⟩
      · exact hI
      · obtain ⟨rfl, hrest⟩ := List.cons.inj h
        exact (ih (hJ s a hs) hnext).2 has bs cs hrest

theorem Permitted.imp_of_invariant {I : S → Prop} {ok' : S → A → Prop}
    (hstep : ∀ s a, I s → ok s a → I (act s a)) (h : ∀ s a, I s → ok s a → ok' s a) {s : S}
    (hs : I s) (has : Permitted act ok s as) : Permitted act ok' s as := by
  induction as generalizing s with
  | nil => trivial
  | cons a as ih => exact ⟨h s a hs has.1, ih (hstep s a hs has.1) has.2⟩

/-! ### Shadow states -/

section Shadow

variable {G : Type*} {upd : S × G → A → G}

/-- The machine with a second state alongside. -/
def shadow (act : S → A → S) (upd : S × G → A → G) (t : S × G) (a : A) : S × G :=
  (act t.1 a, upd t a)

theorem run_shadow_fst (t : S × G) (as : List A) :
    (run (shadow act upd) t as).1 = run act t.1 as := by
  induction as generalizing t with
  | nil => rfl
  | cons a as ih => exact ih (shadow act upd t a)

/-- A second state that moves on its own is the run of a machine of its own. -/
theorem run_shadow_snd (step : G → A → G) (t : S × G) (as : List A) :
    (run (shadow act fun t a => step t.2 a) t as).2 = run step t.2 as := by
  induction as generalizing t with
  | nil => rfl
  | cons a as ih => exact ih _

theorem permitted_shadow {t : S × G} :
    Permitted (shadow act upd) (fun t a => ok t.1 a) t as ↔ Permitted act ok t.1 as := by
  induction as generalizing t with
  | nil => rfl
  | cons a as ih => exact and_congr_right fun _ => ih

end Shadow

end Oak.Lib
