import Mathlib.Logic.Relation
import Mathlib.Data.List.Basic

/-!
# Reachability in finite graphs

* `Acyclic r`: no element reaches itself along `r` in one or more steps.
* `search src dst es target fuel stack seen`: depth-first search along a list of edges, with an
  explicit stack (top first) and the list of the elements seen.

## Main results

* `acyclic_insert`: an edge that closes no path keeps a relation acyclic.
* `Acyclic.exists_rank`: ranks that decrease along the edges.
* `search_eq_true_iff`: with fuel for every edge, the search finds exactly what is reachable.
-/

namespace Oak.Lib

open Relation

section Acyclic

variable {α : Type*} {r s : α → α → Prop}

/-- No element reaches itself. -/
def Acyclic (r : α → α → Prop) : Prop := ∀ a, ¬ TransGen r a a

theorem Acyclic.mono (hs : Acyclic s) (h : ∀ a b, r a b → s a b) : Acyclic r :=
  fun a ha => hs a (TransGen.mono h _ _ ha)

/-- A path along `r` and one more edge `a → b` avoids the edge or passes through it. -/
theorem transGen_insert {a b x y : α}
    (h : TransGen (fun x y => r x y ∨ x = a ∧ y = b) x y) :
    TransGen r x y ∨ ReflTransGen r x a ∧ ReflTransGen r b y := by
  induction h with
  | single h =>
    rcases h with h | ⟨rfl, rfl⟩
    · exact .inl (.single h)
    · exact .inr ⟨.refl, .refl⟩
  | tail _ h ih =>
    rcases h with h | ⟨rfl, rfl⟩
    · rcases ih with ih | ⟨hxa, hby⟩
      · exact .inl (ih.tail h)
      · exact .inr ⟨hxa, hby.tail h⟩
    · rcases ih with ih | ⟨hxa, -⟩
      · exact .inr ⟨ih.to_reflTransGen, .refl⟩
      · exact .inr ⟨hxa, .refl⟩

/-- An edge from `a` to `b` closes no cycle when `b` does not reach `a`. -/
theorem acyclic_insert {a b : α} (hr : Acyclic r) (hba : ¬ ReflTransGen r b a) :
    Acyclic fun x y => r x y ∨ x = a ∧ y = b := by
  intro x hx
  rcases transGen_insert hx with h | ⟨hxa, hbx⟩
  · exact hr x h
  · exact hba (hbx.trans hxa)

/-- An acyclic relation whose edges start in a list has ranks, bounded by its length: along an edge
fewer elements of the list are reached. -/
theorem Acyclic.exists_rank (hr : Acyclic r) {l : List α} (hl : ∀ a b, r a b → a ∈ l) :
    ∃ rank : α → ℕ, (∀ a b, r a b → rank b < rank a) ∧ ∀ a, rank a ≤ l.length := by
  classical
  refine ⟨fun a => l.countP fun x => ReflTransGen r a x, fun a b hab => ?_, fun a =>
    List.countP_le_length⟩
  have hmono (l : List α) : l.countP (fun x => decide (ReflTransGen r b x)) ≤
      l.countP fun x => decide (ReflTransGen r a x) := by
    refine List.countP_mono_left fun x _ hx => ?_
    exact decide_eq_true (.head hab (of_decide_eq_true hx))
  have hba : ¬ ReflTransGen r b a := fun hba => hr a (.head' hab hba)
  obtain ⟨before, after, rfl⟩ := List.append_of_mem (hl a b hab)
  have hbefore := hmono before
  have hafter := hmono after
  simp only [List.countP_append, List.countP_cons, hba, ReflTransGen.refl, decide_true,
    decide_false, Bool.false_eq_true, if_true, if_false]
  omega

end Acyclic

/-! ### Depth-first search -/

variable {fuel : ℕ}

section Search

variable {α ε : Type*} [DecidableEq α] (src dst : ε → α) (es : List ε) (target : α)

/-- The targets of the edges that leave `a`, in edge order. -/
def successors (a : α) : List α := (es.filter fun e => src e = a).map dst

/-- Depth-first search for `target`; the top of the stack comes first. -/
def search : ℕ → List α → List α → Bool
  | 0, _, _ => false
  | _ + 1, [], _ => false
  | fuel + 1, a :: stack, seen =>
    if a = target then true
    else if a ∈ seen then search fuel stack seen
    else search fuel ((successors src dst es a).reverse ++ stack) (a :: seen)

variable {src dst es target}

theorem mem_successors {a b : α} :
    b ∈ successors src dst es a ↔ ∃ e ∈ es, src e = a ∧ dst e = b := by
  simp [successors, and_assoc]

/-- The steps left: the stack, and the edges that leave elements not yet seen. -/
private def pending (src : ε → α) (es : List ε) (stack seen : List α) : ℕ :=
  stack.length + (es.filter fun e => src e ∉ seen).length

variable {stack seen : List α}

private theorem pending_expand {a : α} (ha : a ∉ seen) :
    pending src es ((successors src dst es a).reverse ++ stack) (a :: seen) + 1 =
      pending src es (a :: stack) seen := by
  have hout : (es.filter fun e => src e ∉ seen).filter (fun e => src e = a) =
      es.filter fun e => src e = a := by
    rw [List.filter_filter]
    refine List.filter_congr fun e _ => ?_
    by_cases hea : src e = a <;> simp [hea, ha]
  have hrest : (es.filter fun e => src e ∉ seen).filter (fun e => !decide (src e = a)) =
      es.filter fun e => src e ∉ a :: seen := by
    rw [List.filter_filter]
    refine List.filter_congr fun e _ => ?_
    by_cases hea : src e = a <;> simp [hea]
  have hsplit := List.length_eq_length_filter_add (l := es.filter fun e => src e ∉ seen)
    fun e => src e = a
  rw [hout, hrest] at hsplit
  have hlen : (successors src dst es a).length = (es.filter fun e => src e = a).length :=
    List.length_map dst
  simp only [pending, List.length_append, List.length_reverse, List.length_cons, hsplit, hlen]
  omega

theorem reaches_of_search (h : search src dst es target fuel stack seen = true) :
    ∃ a ∈ stack, ReflTransGen (fun x y => ∃ e ∈ es, src e = x ∧ dst e = y) a target := by
  induction fuel generalizing stack seen with
  | zero => simp [search] at h
  | succ fuel ih =>
    rcases stack with _ | ⟨a, stack⟩
    · simp [search] at h
    · rw [search] at h
      split_ifs at h with htarget hseen
      · exact ⟨a, List.mem_cons_self, htarget ▸ .refl⟩
      · obtain ⟨b, hb, hreach⟩ := ih h
        exact ⟨b, List.mem_cons_of_mem a hb, hreach⟩
      · obtain ⟨b, hb, hreach⟩ := ih h
        rcases List.mem_append.1 hb with hb | hb
        · exact ⟨a, List.mem_cons_self, .head (mem_successors.1 (List.mem_reverse.1 hb)) hreach⟩
        · exact ⟨b, List.mem_cons_of_mem a hb, hreach⟩

/-- A search with enough fuel that finds nothing has seen everything that is reachable. -/
theorem not_reaches_of_search (hfuel : pending src es stack seen < fuel)
    (hclosed : ∀ a ∈ seen, a ≠ target ∧ ∀ b ∈ successors src dst es a, b ∈ seen ∨ b ∈ stack)
    (h : search src dst es target fuel stack seen = false) (a : α) (ha : a ∈ seen ∨ a ∈ stack) :
    ¬ ReflTransGen (fun x y => ∃ e ∈ es, src e = x ∧ dst e = y) a target := by
  induction fuel generalizing stack seen with
  | zero => exact absurd hfuel (Nat.not_lt_zero _)
  | succ fuel ih =>
    rcases stack with _ | ⟨b, stack⟩
    · -- everything seen is closed under the edges and does not hold the target
      intro hreach
      have hseen (c : α) (hc : ReflTransGen (fun x y => ∃ e ∈ es, src e = x ∧ dst e = y) a c) :
          c ∈ seen := by
        induction hc with
        | refl => simpa using ha
        | tail _ hstep ihc => simpa using (hclosed _ ihc).2 _ (mem_successors.2 hstep)
      exact (hclosed target (hseen target hreach)).1 rfl
    · rw [search] at h
      split_ifs at h with htarget hb
      · refine ih ?_ ?_ h ?_
        · simp only [pending, List.length_cons] at hfuel ⊢
          omega
        · intro c hc
          refine ⟨(hclosed c hc).1, fun d hd => ?_⟩
          rcases (hclosed c hc).2 d hd with hd | hd
          · exact .inl hd
          · rcases List.mem_cons.1 hd with rfl | hd
            · exact .inl hb
            · exact .inr hd
        · rcases ha with ha | ha
          · exact .inl ha
          · rcases List.mem_cons.1 ha with rfl | ha
            · exact .inl hb
            · exact .inr ha
      · refine ih ?_ ?_ h ?_
        · have hpending :
              pending src es ((successors src dst es b).reverse ++ stack) (b :: seen) + 1 =
                pending src es (b :: stack) seen := pending_expand hb
          omega
        · intro c hc
          rcases List.mem_cons.1 hc with rfl | hc
          · exact ⟨htarget, fun d hd => .inr (List.mem_append_left _ (List.mem_reverse.2 hd))⟩
          · refine ⟨(hclosed c hc).1, fun d hd => ?_⟩
            rcases (hclosed c hc).2 d hd with hd | hd
            · exact .inl (List.mem_cons_of_mem b hd)
            · rcases List.mem_cons.1 hd with rfl | hd
              · exact .inl List.mem_cons_self
              · exact .inr (List.mem_append_right _ hd)
        · rcases ha with ha | ha
          · exact .inl (List.mem_cons_of_mem b ha)
          · rcases List.mem_cons.1 ha with rfl | ha
            · exact .inl List.mem_cons_self
            · exact .inr (List.mem_append_right _ ha)

/-- The search from one element, with fuel for every edge, finds exactly what is reachable. -/
theorem search_eq_true_iff {a : α} (hfuel : es.length + 1 < fuel) :
    search src dst es target fuel [a] [] = true ↔
      ReflTransGen (fun x y => ∃ e ∈ es, src e = x ∧ dst e = y) a target := by
  constructor
  · intro h
    obtain ⟨b, hb, hreach⟩ := reaches_of_search h
    obtain rfl := List.mem_singleton.1 hb
    exact hreach
  · intro hreach
    by_contra hnot
    rw [Bool.not_eq_true] at hnot
    have hpending : pending src es [a] [] < fuel := by
      simp only [pending, List.length_singleton, List.not_mem_nil, not_false_eq_true,
        decide_true, List.filter_true]
      omega
    exact not_reaches_of_search hpending (by simp) hnot a (.inr List.mem_cons_self) hreach

end Search

end Oak.Lib
