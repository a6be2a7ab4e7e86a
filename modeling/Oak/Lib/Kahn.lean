import Oak.Lib.OrdSet
import Oak.Lib.Reach
import Mathlib.Data.List.Count
import Mathlib.Data.List.Nodup
import Mathlib.Data.List.Perm.Subperm

/-!
# Sweeping a graph along its edges

* `explore next fuel stack seen` : everything that `next` leads to, with an explicit stack (top
  first) and the list of the elements seen.
* `Kahn` : a sweep of the elements of a list `live`. An element is taken when no edge from a live
  element that was not taken leads to it; `degree` counts these edges, one by one, and `ready` holds
  the elements that can be taken. The least of them is next.

## Main results

* `mem_explore` : with fuel for every edge, exactly what is reachable is found.
* `Kahn.Inv.take` : the counters count the edges that are open.
* `Kahn.Inv.complete` : when the edges close no cycle, a sweep stops when everything is taken.
-/

namespace Oak.Lib

open Relation

/-- The elements of a list. -/
def OrdSet.ofList {α : Type*} [LinearOrder α] (l : List α) : OrdSet α :=
  l.foldr (fun a s => s.insert a) ∅

@[simp] theorem OrdSet.mem_ofList {α : Type*} [LinearOrder α] {l : List α} {a : α} :
    a ∈ OrdSet.ofList l ↔ a ∈ l := by
  induction l with
  | nil => simp [ofList]
  | cons b l ih =>
    rw [ofList, List.foldr_cons, mem_insert, List.mem_cons]
    exact or_congr_right ih

theorem countP_split {ε : Type*} {l : List ε} (p q : ε → Bool) :
    l.countP p = l.countP (fun e => p e && q e) + l.countP fun e => p e && !q e := by
  induction l with
  | nil => rfl
  | cons e l ih =>
    rw [List.countP_cons, List.countP_cons, List.countP_cons, ih]
    cases p e <;> cases q e <;> simp <;> omega

/-! ### What is reachable -/

variable {fuel : ℕ}

section Explore

variable {α ε : Type*} [DecidableEq α] (next : α → List α)

/-- The elements seen, and those that they or the elements of the stack lead to. -/
def explore : ℕ → List α → List α → List α
  | 0, _, seen => seen
  | _ + 1, [], seen => seen
  | fuel + 1, a :: stack, seen =>
    if a ∈ seen then explore fuel stack seen
    else explore fuel ((next a).reverse ++ stack) (a :: seen)

variable {next} {stack seen : List α}

theorem nodup_explore (hseen : seen.Nodup) : (explore next fuel stack seen).Nodup := by
  induction fuel generalizing stack seen with
  | zero => exact hseen
  | succ fuel ih =>
    rcases stack with _ | ⟨a, stack⟩
    · exact hseen
    · rw [explore]
      split_ifs with ha
      · exact ih hseen
      · exact ih (List.nodup_cons.2 ⟨ha, hseen⟩)

/-- What is found is seen already or reachable from the stack. -/
theorem reaches_of_mem_explore {b : α} (h : b ∈ explore next fuel stack seen) :
    b ∈ seen ∨ ∃ a ∈ stack, ReflTransGen (fun x y => y ∈ next x) a b := by
  induction fuel generalizing stack seen with
  | zero => exact .inl h
  | succ fuel ih =>
    rcases stack with _ | ⟨a, stack⟩
    · exact .inl h
    · rw [explore] at h
      split_ifs at h with ha
      · rcases ih h with hb | ⟨c, hc, hreach⟩
        · exact .inl hb
        · exact .inr ⟨c, List.mem_cons_of_mem a hc, hreach⟩
      · rcases ih h with hb | ⟨c, hc, hreach⟩
        · rcases List.mem_cons.1 hb with rfl | hb
          · exact .inr ⟨b, List.mem_cons_self, .refl⟩
          · exact .inl hb
        · rcases List.mem_append.1 hc with hc | hc
          · exact .inr ⟨a, List.mem_cons_self, .head (List.mem_reverse.1 hc) hreach⟩
          · exact .inr ⟨c, List.mem_cons_of_mem a hc, hreach⟩

variable {src : ε → α} {es : List ε}

/-- With fuel for the stack and for every edge that leaves an element not yet seen, what is found is
closed. -/
theorem explore_closed (hnext : ∀ a, (next a).length ≤ es.countP fun e => src e = a)
    (hfuel : stack.length + es.countP (fun e => src e ∉ seen) ≤ fuel)
    (hclosed : ∀ a ∈ seen, ∀ b ∈ next a, b ∈ seen ∨ b ∈ stack) :
    (∀ a, a ∈ seen ∨ a ∈ stack → a ∈ explore next fuel stack seen) ∧
      ∀ a ∈ explore next fuel stack seen, ∀ b ∈ next a, b ∈ explore next fuel stack seen := by
  induction fuel generalizing stack seen with
  | zero =>
    obtain rfl : stack = [] := List.eq_nil_of_length_eq_zero (by omega)
    simpa [explore] using hclosed
  | succ fuel ih =>
    rcases stack with _ | ⟨c, stack⟩
    · simpa [explore] using hclosed
    rw [List.length_cons] at hfuel
    rw [explore]
    split_ifs with hc
    · -- the top was seen, so it can be dropped
      have hdrop (b : α) (hb : b ∈ seen ∨ b ∈ c :: stack) : b ∈ seen ∨ b ∈ stack := by
        rcases hb with hb | hb
        · exact .inl hb
        · rcases List.mem_cons.1 hb with rfl | hb
          · exact .inl hc
          · exact .inr hb
      obtain ⟨hall, hnext'⟩ := ih (by omega) fun a ha b hb => hdrop b (hclosed a ha b hb)
      exact ⟨fun a ha => hall a (hdrop a ha), hnext'⟩
    · have hsplit : es.countP (fun e => src e ∉ seen) =
          es.countP (fun e => src e = c) + es.countP fun e => src e ∉ c :: seen := by
        rw [countP_split _ fun e => src e = c]
        congr 1
        · refine List.countP_congr fun e _ => ?_
          by_cases hec : src e = c <;> simp [hec, hc]
        · refine List.countP_congr fun e _ => ?_
          by_cases hec : src e = c <;> simp [hec]
      have hmove (b : α) (hb : b ∈ seen ∨ b ∈ c :: stack) :
          b ∈ c :: seen ∨ b ∈ (next c).reverse ++ stack := by
        rw [List.mem_cons, List.mem_append]
        rw [List.mem_cons] at hb
        tauto
      have hfuel' : ((next c).reverse ++ stack).length +
          es.countP (fun e => src e ∉ c :: seen) ≤ fuel := by
        have hlength := hnext c
        rw [List.length_append, List.length_reverse]
        omega
      have hclosed' : ∀ a ∈ c :: seen, ∀ b ∈ next a,
          b ∈ c :: seen ∨ b ∈ (next c).reverse ++ stack := by
        intro a ha b hb
        rcases List.mem_cons.1 ha with rfl | ha
        · exact .inr (List.mem_append_left _ (List.mem_reverse.2 hb))
        · exact hmove b (hclosed a ha b hb)
      obtain ⟨hall, hnext'⟩ := ih hfuel' hclosed'
      exact ⟨fun a ha => hall a (hmove a ha), hnext'⟩

/-- From one element, with fuel for every edge, exactly what is reachable is found. -/
theorem mem_explore (hnext : ∀ a, (next a).length ≤ es.countP fun e => src e = a)
    (hfuel : es.length < fuel) {a b : α} :
    b ∈ explore next fuel [a] [] ↔ ReflTransGen (fun x y => y ∈ next x) a b := by
  constructor
  · intro h
    obtain hb | ⟨c, hc, hreach⟩ := reaches_of_mem_explore h
    · exact absurd hb List.not_mem_nil
    · obtain rfl := List.mem_singleton.1 hc
      exact hreach
  · intro hreach
    have hcount : es.countP (fun e => src e ∉ ([] : List α)) ≤ es.length := List.countP_le_length
    have hstart : [a].length + es.countP (fun e => src e ∉ ([] : List α)) ≤ fuel := by
      rw [List.length_singleton]
      omega
    obtain ⟨hall, hclosed⟩ := explore_closed hnext hstart (by simp)
    induction hreach with
    | refl => exact hall a (.inr List.mem_cons_self)
    | tail _ hstep ih => exact hclosed _ ih _ hstep

end Explore

/-! ### The sweep -/

/-- The state of a sweep; `order` is what was taken, the first element first. -/
structure Kahn (α : Type*) [LinearOrder α] where
  degree : α → ℕ
  ready : OrdSet α
  order : List α

namespace Kahn

variable {α ε : Type*} [LinearOrder α] (src dst : ε → α) (es : List ε) (live : List α)

/-- The equality that comes with the order decides membership in a list. -/
local instance lawfulBEq : LawfulBEq α := inferInstance

/-- The number of edges into an element from the live elements that were not taken. -/
def openEdges (order : List α) (a : α) : ℕ :=
  es.countP fun e => dst e = a ∧ src e ∈ live ∧ src e ∉ order

/-- An edge to `b` is done. -/
def release (s : Kahn α) (b : α) : Kahn α :=
  if b ∈ live then
    { s with
      degree := Function.update s.degree b (s.degree b - 1)
      ready := if s.degree b - 1 = 0 then s.ready.insert b else s.ready }
  else s

/-- `a` is taken, and the edges that leave it are done. -/
def take (s : Kahn α) (a : α) : Kahn α :=
  (successors src dst es a).foldl (release live)
    { s with ready := s.ready.erase a, order := s.order ++ [a] }

/-- Nothing is taken. -/
def start : Kahn α where
  degree := openEdges src dst es live []
  ready := OrdSet.ofList (live.filter fun a => openEdges src dst es live [] a = 0)
  order := []

variable {src dst es live}

section Release

variable {s : Kahn α} {ts : List α} {b c : α}

theorem release_order : (release live s c).order = s.order := by
  rw [release]
  split_ifs <;> rfl

theorem release_degree :
    (release live s c).degree b = if b = c ∧ c ∈ live then s.degree b - 1 else s.degree b := by
  by_cases hc : c ∈ live
  · rw [release, if_pos hc]
    by_cases hbc : b = c
    · subst hbc
      simp [hc]
    · simp [hbc]
  · simp [release, hc]

theorem mem_release_ready : b ∈ (release live s c).ready ↔
    b ∈ s.ready ∨ b = c ∧ c ∈ live ∧ s.degree c ≤ 1 := by
  rw [release]
  split_ifs with hc hdegree
  · have hle : s.degree c ≤ 1 := by omega
    simp [hc, hle, or_comm]
  · have hle : ¬ s.degree c ≤ 1 := by omega
    simp [hle]
  · simp [hc]

theorem order_foldl_release : (ts.foldl (release live) s).order = s.order := by
  induction ts generalizing s with
  | nil => rfl
  | cons c ts ih => rw [List.foldl_cons, ih, release_order]

theorem degree_foldl_release (hb : b ∈ live) :
    (ts.foldl (release live) s).degree b = s.degree b - ts.count b := by
  induction ts generalizing s with
  | nil => rfl
  | cons c ts ih =>
    rw [List.foldl_cons, ih, release_degree]
    by_cases hbc : b = c
    · subst hbc
      rw [if_pos ⟨rfl, hb⟩, List.count_cons_self]
      omega
    · rw [if_neg (fun h => hbc h.1), List.count_cons_of_ne (Ne.symm hbc)]

/-- An element becomes ready when the last edge to it is done. -/
theorem mem_ready_foldl_release : b ∈ (ts.foldl (release live) s).ready ↔
    b ∈ s.ready ∨ b ∈ live ∧ b ∈ ts ∧ s.degree b ≤ ts.count b := by
  induction ts generalizing s with
  | nil => simp
  | cons c ts ih =>
    rw [List.foldl_cons, ih, mem_release_ready, release_degree]
    by_cases hbc : b = c
    · subst hbc
      have hcount : b ∉ ts → ts.count b = 0 := List.count_eq_zero_of_not_mem
      by_cases hb : b ∈ live
      · by_cases hts : b ∈ ts
        · simp only [hb, hts, and_self, if_true, true_and, List.mem_cons_self, List.count_cons_self,
            or_assoc]
          refine or_congr_right ⟨fun h => by omega, fun h => .inr (by omega)⟩
        · simp [hb, hts, hcount hts]
      · simp [hb]
    · simp [hbc, List.count_cons_of_ne (Ne.symm hbc)]

end Release

/-! ### What a sweep preserves -/

/-- The counters count the edges that are open, an element is ready when there is none to it, and an
element was taken once, after the live elements that an edge comes from. -/
structure Inv (src dst : ε → α) (es : List ε) (live : List α) (s : Kahn α) : Prop where
  degree : ∀ a ∈ live, s.degree a = openEdges src dst es live s.order a
  ready : ∀ a, a ∈ s.ready ↔
    a ∈ live ∧ a ∉ s.order ∧ openEdges src dst es live s.order a = 0
  nodup : s.order.Nodup
  subset : ∀ a ∈ s.order, a ∈ live
  sources : ∀ before b after, s.order = before ++ b :: after →
    ∀ e ∈ es, dst e = b → src e ∈ live → src e ∈ before

theorem openEdges_eq_zero {order : List α} {a : α} : openEdges src dst es live order a = 0 ↔
    ∀ e ∈ es, dst e = a → src e ∈ live → src e ∈ order := by
  rw [openEdges, List.countP_eq_zero]
  refine forall₂_congr fun e _ => ?_
  simp only [decide_eq_true_eq, not_and, not_not]

/-- When `a` is taken, the edges that leave it are not open any more. -/
theorem openEdges_concat {order : List α} {a b : α} (ha : a ∈ live) (horder : a ∉ order) :
    openEdges src dst es live order b =
      openEdges src dst es live (order ++ [a]) b + (successors src dst es a).count b := by
  rw [openEdges, countP_split _ fun e => !decide (src e = a)]
  congr 1
  · refine List.countP_congr fun e _ => ?_
    simp [and_assoc]
  · rw [successors, List.count_eq_countP, List.countP_map, List.countP_filter]
    refine List.countP_congr fun e _ => ?_
    by_cases hea : src e = a <;> simp [hea, ha, horder]

theorem inv_start : Inv src dst es live (start src dst es live) where
  degree _ _ := rfl
  ready a := by
    rw [start, OrdSet.mem_ofList, List.mem_filter, decide_eq_true_eq]
    simp
  nodup := List.nodup_nil
  subset _ ha := absurd ha List.not_mem_nil
  sources before b after h := by simp [start] at h

namespace Inv

variable {s : Kahn α} {a : α}

theorem source_mem (h : Inv src dst es live s) {e : ε} (he : e ∈ es) (hdst : dst e ∈ s.order)
    (hsrc : src e ∈ live) : src e ∈ s.order := by
  obtain ⟨before, after, heq⟩ := List.append_of_mem hdst
  have hmem := h.sources before (dst e) after heq e he rfl hsrc
  rw [heq]
  exact List.mem_append_left _ hmem

theorem take (h : Inv src dst es live s) (ha : a ∈ s.ready) :
    Inv src dst es live (take src dst es live s a) := by
  obtain ⟨hlive, horder, hopen⟩ := (h.ready a).1 ha
  have hconcat (b : α) : openEdges src dst es live s.order b =
      openEdges src dst es live (s.order ++ [a]) b + (successors src dst es a).count b :=
    openEdges_concat hlive horder
  have htake : (Kahn.take src dst es live s a).order = s.order ++ [a] := order_foldl_release
  refine ⟨fun b hb => ?_, fun b => ?_, ?_, fun b hb => ?_, fun before b after heq e he hdst hsrc => ?_⟩
  · rw [htake, Kahn.take, degree_foldl_release hb]
    have := h.degree b hb
    have := hconcat b
    simp only
    omega
  · rw [htake, Kahn.take, mem_ready_foldl_release, OrdSet.mem_erase]
    simp only [List.mem_append, List.mem_singleton, not_or]
    have hb := hconcat b
    constructor
    · rintro (⟨hready, hne⟩ | ⟨hlive', hmem, hle⟩)
      · obtain ⟨hlive', horder', hzero⟩ := (h.ready b).1 hready
        exact ⟨hlive', ⟨horder', hne⟩, by omega⟩
      · obtain ⟨e, he, hsrc, hdst⟩ := mem_successors.1 hmem
        simp only [h.degree b hlive'] at hle
        refine ⟨hlive', ⟨fun hdone => ?_, ?_⟩, by omega⟩
        · have hmem' := h.source_mem he (hdst ▸ hdone) (hsrc ▸ hlive)
          exact horder (hsrc ▸ hmem')
        · rintro rfl
          have hmem' := openEdges_eq_zero.1 hopen e he hdst (hsrc ▸ hlive)
          exact horder (hsrc ▸ hmem')
    · rintro ⟨hlive', ⟨horder', hne⟩, hzero⟩
      by_cases hmem : b ∈ successors src dst es a
      · refine .inr ⟨hlive', hmem, ?_⟩
        simp only [h.degree b hlive']
        omega
      · rw [List.count_eq_zero_of_not_mem hmem] at hb
        exact .inl ⟨(h.ready b).2 ⟨hlive', horder', by omega⟩, hne⟩
  · rw [htake]
    refine List.nodup_append.2 ⟨h.nodup, List.nodup_singleton a, ?_⟩
    rintro b hb c hc rfl
    exact horder (List.mem_singleton.1 hc ▸ hb)
  · rw [htake, List.mem_append, List.mem_singleton] at hb
    rcases hb with hb | rfl
    · exact h.subset b hb
    · exact hlive
  · rw [htake] at heq
    rcases List.eq_nil_or_concat after with rfl | ⟨after, c, rfl⟩
    · obtain ⟨rfl, rfl⟩ : s.order = before ∧ a = b := by
        simpa using List.append_inj' heq rfl
      exact openEdges_eq_zero.1 hopen e he hdst hsrc
    · have hprefix : s.order = before ++ b :: after := by
        rw [List.concat_eq_append, ← List.cons_append, ← List.append_assoc] at heq
        exact (List.append_inj' heq rfl).1
      exact h.sources before b after hprefix e he hdst hsrc

theorem length_lt (h : Inv src dst es live s) (ha : a ∈ s.ready) :
    s.order.length < live.length := by
  have hmore := h.take ha
  have hlength : (Kahn.take src dst es live s a).order.length = s.order.length + 1 := by
    rw [Kahn.take, order_foldl_release]
    simp
  have hle := (List.subperm_of_subset hmore.nodup hmore.subset).length_le
  omega

/-- A sweep that has nothing to take has taken everything, when the edges close no cycle. -/
theorem complete (h : Inv src dst es live s) (hready : ∀ a, a ∉ s.ready)
    (hacyclic : Acyclic fun x y => ∃ e ∈ es, src e = x ∧ dst e = y) (ha : a ∈ live) :
    a ∈ s.order := by
  have hback : Acyclic fun x y => ∃ e ∈ es, src e = y ∧ dst e = x := fun x hx =>
    hacyclic x (transGen_swap.1 hx)
  obtain ⟨rank, hrank, -⟩ := hback.exists_rank (l := es.map dst) fun x y ⟨e, he, _, hdst⟩ =>
    hdst ▸ List.mem_map_of_mem he
  induction hn : rank a using Nat.strong_induction_on generalizing a with
  | _ n ih =>
    subst hn
    by_contra hnot
    refine hready a ((h.ready a).2 ⟨ha, hnot, openEdges_eq_zero.2 fun e he hdst hsrc => ?_⟩)
    exact ih _ (hrank a (src e) ⟨e, he, rfl, hdst⟩) hsrc rfl

end Inv

end Kahn

end Oak.Lib
