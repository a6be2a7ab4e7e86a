import Oak.Timeline.Ripple

/-!
# Blocks in order

The blocks of a track whose ranges follow each other.

* `movedBy delta p` : the block of `p`, later by `delta`.

## Main results

* `track_unique` : the graph determines the blocks of a track.
* `sorted_middle_iff`, `sorted_around_iff` : a block fits where it fits between its neighbours.
-/

namespace Oak.Timeline

open Oak.Core Oak.Node

variable {F β : Type*} {g : ProjectGraph F β} {track : NodeId} {t : TrackBehavior F}
  {blocks blocks' pre post : List (NodeId × Behavior F β)} {b : Behavior F β}
  {p : NodeId × Behavior F β} {time : Rational}

/-- The graph determines the blocks of a track. -/
theorem track_unique (h : Track g track t blocks) (h' : Track g track t blocks') :
    blocks = blocks' := by
  have hfst : blocks.map Prod.fst = blocks'.map Prod.fst := h.order.symm.trans h'.order
  have hlen : blocks.length = blocks'.length := by
    simpa using congrArg List.length hfst
  refine List.ext_getElem hlen fun i hi hi' => ?_
  have hi₁ : (blocks[i]).1 = (blocks'[i]).1 := by
    have hget := List.getElem_of_eq hfst (i := i) (by simpa using hi)
    simpa using hget
  have hb := (h.block _ (List.getElem_mem hi)).1
  have hb' := (h'.block _ (List.getElem_mem hi')).1
  rw [hi₁] at hb
  exact Prod.ext hi₁ (Option.some.inj (hb.symm.trans hb'))

theorem out_le_of_getLast? (h : Sorted pre) (hlast : ∀ q ∈ pre.getLast?, outOf q.2 ≤ time)
    (hp : p ∈ pre) : outOf p.2 ≤ time := by
  obtain rfl | ⟨init, last, rfl⟩ := List.eq_nil_or_concat' pre
  · exact absurd hp List.not_mem_nil
  · have hle := hlast last (by simp)
    obtain hp | hp := List.mem_append.1 hp
    · have hstep := (sorted_append.1 h).2.2 p hp last List.mem_cons_self
      exact hstep.trans ((h.1 last (by simp)).le.trans hle)
    · obtain rfl := List.mem_singleton.1 hp
      exact hle

theorem le_in_of_head? (h : Sorted post) (hhead : ∀ q ∈ post.head?, time ≤ inOf q.2)
    (hp : p ∈ post) : time ≤ inOf p.2 := by
  cases post with
  | nil => exact absurd hp List.not_mem_nil
  | cons q post =>
    have hle := hhead q rfl
    obtain rfl | hp := List.mem_cons.1 hp
    · exact hle
    · exact hle.trans ((h.1 q List.mem_cons_self).le.trans ((sorted_cons.1 h).2.2 p hp))

/-- A block fits between blocks in order when it fits between its neighbours. -/
theorem sorted_middle_iff (hpre : Sorted pre) (hpost : Sorted post) :
    Sorted (pre ++ p :: post) ↔ inOf p.2 < outOf p.2 ∧
      (∀ q ∈ pre.getLast?, outOf q.2 ≤ inOf p.2) ∧ ∀ q ∈ post.head?, outOf p.2 ≤ inOf q.2 := by
  rw [sorted_append, sorted_cons]
  constructor
  · rintro ⟨-, ⟨hp, -, hbehind⟩, hbefore⟩
    exact ⟨hp, fun q hq => hbefore q (List.mem_of_getLast? hq) p List.mem_cons_self,
      fun q hq => hbehind q (List.mem_of_head? hq)⟩
  · rintro ⟨hp, hlast, hhead⟩
    have hbehind : ∀ q ∈ post, outOf p.2 ≤ inOf q.2 := fun q hq => le_in_of_head? hpost hhead hq
    refine ⟨hpre, ⟨hp, hpost, hbehind⟩, fun q hq r hr => ?_⟩
    have hq := out_le_of_getLast? hpre hlast hq
    obtain rfl | hr := List.mem_cons.1 hr
    · exact hq
    · exact hq.trans (hp.le.trans (hbehind r hr))

theorem sorted_around_iff : Sorted (pre ++ p :: post) ↔
    (Sorted pre ∧ ∀ q ∈ pre.getLast?, outOf q.2 ≤ inOf p.2) ∧ inOf p.2 < outOf p.2 ∧
      (Sorted post ∧ ∀ q ∈ post.head?, outOf p.2 ≤ inOf q.2) := by
  constructor
  · intro h
    have hpre : Sorted pre := h.sublist (List.sublist_append_left ..)
    have hpost : Sorted post := (sorted_cons.1 (sorted_append.1 h).2.1).2.1
    obtain ⟨hp, hlast, hhead⟩ := (sorted_middle_iff hpre hpost).1 h
    exact ⟨⟨hpre, hlast⟩, hp, hpost, hhead⟩
  · rintro ⟨⟨hpre, hlast⟩, hp, hpost, hhead⟩
    exact (sorted_middle_iff hpre hpost).2 ⟨hp, hlast, hhead⟩

theorem exists_core_of_lt (h : inOf b < outOf b) : ∃ core, b.blockCore = some core := by
  cases hcore : b.blockCore with
  | none =>
    rw [inOf, outOf, hcore] at h
    exact absurd h (lt_irrefl _)
  | some core => exact ⟨core, rfl⟩

theorem inOf_modifyCore {core : BlockCore F} (hcore : b.blockCore = some core)
    (f : BlockCore F → BlockCore F) : inOf (b.modifyCore f) = (f core).in_ :=
  inOf_eq (by rw [Behavior.blockCore_modifyCore, hcore, Option.map_some])

theorem outOf_modifyCore {core : BlockCore F} (hcore : b.blockCore = some core)
    (f : BlockCore F → BlockCore F) : outOf (b.modifyCore f) = (f core).out :=
  outOf_eq (by rw [Behavior.blockCore_modifyCore, hcore, Option.map_some])

/-- The block of `p`, `delta` later. -/
def movedBy (delta : Rational) (p : NodeId × Behavior F β) : NodeId × Behavior F β :=
  (p.1, p.2.modifyCore fun core => core.setIn (inOf p.2 + delta))

theorem inOf_movedBy (hp : inOf p.2 < outOf p.2) (delta : Rational) :
    inOf (movedBy delta p).2 = inOf p.2 + delta := by
  obtain ⟨core, hcore⟩ := exists_core_of_lt hp
  rw [movedBy, inOf_modifyCore hcore, BlockCore.setIn_of_le]
  · rfl
  · rw [← inOf_eq hcore, ← outOf_eq hcore]
    exact hp.le

theorem outOf_movedBy (hp : inOf p.2 < outOf p.2) (delta : Rational) :
    outOf (movedBy delta p).2 = outOf p.2 + delta := by
  obtain ⟨core, hcore⟩ := exists_core_of_lt hp
  rw [movedBy, outOf_modifyCore hcore, BlockCore.setIn_of_le]
  · rw [inOf_eq hcore, outOf_eq hcore]
    change core.in_ + delta + (core.out - core.in_) = _
    ring
  · rw [← inOf_eq hcore, ← outOf_eq hcore]
    exact hp.le

theorem sorted_movedBy (h : Sorted post) (delta : Rational) :
    Sorted (post.map (movedBy delta)) := by
  refine ⟨fun q hq => ?_, List.pairwise_map.2 ?_⟩
  · obtain ⟨p, hp, rfl⟩ := List.mem_map.1 hq
    rw [inOf_movedBy (h.1 p hp), outOf_movedBy (h.1 p hp)]
    exact add_lt_add_left (h.1 p hp) delta
  · refine h.2.imp_of_mem fun hp hq hle => ?_
    rw [outOf_movedBy (h.1 _ hp), inOf_movedBy (h.1 _ hq)]
    exact add_le_add_left hle delta

end Oak.Timeline
