import Mathlib.Data.List.Pairwise

/-!
# Steps in zones of their own

Steps are taken one after the other. Each of them reads and writes its own zone of the state, and no
two zones meet. Then every step does what it would do as the only one (`foldl_zones`). A state is
known by what `look` shows of it at every place.

Where a zone is not a set of places, the steps are free of interference when each keeps what the
others need and what they have established (`foldl_post`). `Inv n` holds while `n` steps are left.
-/

namespace Oak.Lib

variable {σ ι κ ν : Type*} {look : σ → κ → ν} {step : σ → ι → σ} {zone : ι → κ → Prop}
  {result : ι → κ → ν} {start s : σ} {l : List ι}

/-- From a state that looks like `start` in its zone, the step `i` leaves `result` there. Nothing
else changes. -/
def StaysIn (look : σ → κ → ν) (step : σ → ι → σ) (zone : ι → κ → Prop) (result : ι → κ → ν)
    (start : σ) (i : ι) : Prop :=
  ∀ s, (∀ k, zone i k → look s k = look start k) →
    (∀ k, zone i k → look (step s i) k = result i k) ∧
      ∀ k, ¬ zone i k → look (step s i) k = look s k

/-- Steps whose zones do not meet. -/
theorem foldl_zones (hzones : l.Pairwise fun i j => ∀ k, zone i k → ¬ zone j k)
    (hstep : ∀ i ∈ l, StaysIn look step zone result start i)
    (hs : ∀ i ∈ l, ∀ k, zone i k → look s k = look start k) :
    (∀ i ∈ l, ∀ k, zone i k → look (l.foldl step s) k = result i k) ∧
      ∀ k, (∀ i ∈ l, ¬ zone i k) → look (l.foldl step s) k = look s k := by
  induction l generalizing s with
  | nil => exact ⟨fun i hi => absurd hi List.not_mem_nil, fun k _ => rfl⟩
  | cons j l ih =>
    obtain ⟨hj, hl⟩ := List.pairwise_cons.1 hzones
    obtain ⟨hresult, hframe⟩ := hstep j List.mem_cons_self s (hs j List.mem_cons_self)
    -- the first step leaves the zones of the others as they were
    have hnext (i : ι) (hi : i ∈ l) (k : κ) (hk : zone i k) :
        look (step s j) k = look start k := by
      rw [hframe k fun hjk => hj i hi k hjk hk]
      exact hs i (List.mem_cons_of_mem j hi) k hk
    obtain ⟨hin, hout⟩ := ih hl (fun i hi => hstep i (List.mem_cons_of_mem j hi)) hnext
    rw [List.foldl_cons]
    refine ⟨fun i hi k hk => ?_, fun k hk => ?_⟩
    · rcases List.mem_cons.1 hi with rfl | hi
      · rw [hout k fun i' hi' => hj i' hi' k hk, hresult k hk]
      · exact hin i hi k hk
    · rw [hout k fun i hi => hk i (List.mem_cons_of_mem j hi), hframe k (hk j List.mem_cons_self)]

variable (Inv : ℕ → σ → Prop) {Pre : ι → σ → Prop}

theorem foldl_keep (Q : σ → Prop) (hnodup : l.Nodup)
    (hinv : ∀ i ∈ l, ∀ n s, Inv (n + 1) s → Pre i s → Inv n (step s i))
    (hpre : ∀ i ∈ l, ∀ j ∈ l, i ≠ j → ∀ n s, Inv (n + 1) s → Pre i s → Pre j s →
      Pre j (step s i))
    (hkeep : ∀ i ∈ l, ∀ n s, Inv (n + 1) s → Pre i s → Q s → Q (step s i))
    (hs : Inv l.length s) (hall : ∀ i ∈ l, Pre i s) (hQ : Q s) : Q (l.foldl step s) := by
  induction l generalizing s with
  | nil => exact hQ
  | cons j l ih =>
    obtain ⟨hj, hl⟩ := List.nodup_cons.1 hnodup
    have hprej := hall j List.mem_cons_self
    rw [List.foldl_cons]
    refine ih hl (fun i hi => hinv i (List.mem_cons_of_mem j hi))
      (fun i hi i' hi' => hpre i (List.mem_cons_of_mem j hi) i' (List.mem_cons_of_mem j hi'))
      (fun i hi => hkeep i (List.mem_cons_of_mem j hi))
      (hinv j List.mem_cons_self l.length s hs hprej) (fun i hi => ?_)
      (hkeep j List.mem_cons_self l.length s hs hprej hQ)
    refine hpre j List.mem_cons_self i (List.mem_cons_of_mem j hi) ?_ l.length s hs hprej
      (hall i (List.mem_cons_of_mem j hi))
    rintro rfl
    exact hj hi

/-- Steps that are free of interference establish all that they establish alone. -/
theorem foldl_post (Post : ι → σ → Prop) (hnodup : l.Nodup)
    (hinv : ∀ i ∈ l, ∀ n s, Inv (n + 1) s → Pre i s → Inv n (step s i))
    (hstep : ∀ i ∈ l, ∀ n s, Inv (n + 1) s → Pre i s → Post i (step s i))
    (hpre : ∀ i ∈ l, ∀ j ∈ l, i ≠ j → ∀ n s, Inv (n + 1) s → Pre i s → Pre j s →
      Pre j (step s i))
    (hpost : ∀ i ∈ l, ∀ j ∈ l, i ≠ j → ∀ n s, Inv (n + 1) s → Pre i s → Post j s →
      Post j (step s i))
    (hs : Inv l.length s) (hall : ∀ i ∈ l, Pre i s) : ∀ i ∈ l, Post i (l.foldl step s) := by
  induction l generalizing s with
  | nil => exact fun i hi => absurd hi List.not_mem_nil
  | cons j l ih =>
    obtain ⟨hj, hl⟩ := List.nodup_cons.1 hnodup
    have hne (i : ι) (hi : i ∈ l) : j ≠ i := by
      rintro rfl
      exact hj hi
    have hprej := hall j List.mem_cons_self
    have hs' := hinv j List.mem_cons_self l.length s hs hprej
    have hinv' := fun i (hi : i ∈ l) => hinv i (List.mem_cons_of_mem j hi)
    have hpre' := fun i (hi : i ∈ l) i' (hi' : i' ∈ l) =>
      hpre i (List.mem_cons_of_mem j hi) i' (List.mem_cons_of_mem j hi')
    have hall' (i : ι) (hi : i ∈ l) : Pre i (step s j) :=
      hpre j List.mem_cons_self i (List.mem_cons_of_mem j hi) (hne i hi) l.length s hs hprej
        (hall i (List.mem_cons_of_mem j hi))
    rw [List.foldl_cons]
    refine List.forall_mem_cons.2 ⟨?_, ?_⟩
    · -- what the first step establishes stays
      refine foldl_keep Inv (Post j) hl hinv' hpre' (fun i hi n s hn hi' hq => ?_) hs' hall'
        (hstep j List.mem_cons_self l.length s hs hprej)
      exact hpost i (List.mem_cons_of_mem j hi) j List.mem_cons_self (Ne.symm (hne i hi)) n s hn hi'
        hq
    · exact ih hl hinv' (fun i hi => hstep i (List.mem_cons_of_mem j hi)) hpre'
        (fun i hi i' hi' => hpost i (List.mem_cons_of_mem j hi) i' (List.mem_cons_of_mem j hi')) hs'
        hall'

end Oak.Lib
