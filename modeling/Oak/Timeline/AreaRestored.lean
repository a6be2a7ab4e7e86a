import Oak.Timeline.AreaUndo
import Oak.Timeline.RippleCleared
import Oak.Timeline.SplitUndo

/-!
# When the removal of an area is taken back

A redo, its undo and another redo of `TrackRippleRemoveAreaCommand`, from the first redo on.

* `TakenBack order c g`: the undo leaves the project as it was, and another redo does what the first
  one did.
* `Undoable g allow blocks a c`: how the blocks have to lie around the area, and to be connected.

## Main results

* `takenBack_iff_undoable`: when the removal of an area can be taken back.
-/

namespace Oak.Timeline

open Oak.Core Oak.Node Oak.Undo TrackRippleRemoveAreaCommand

variable {F β : Type*} {g g' : ProjectGraph F β} {track x y : NodeId} {t : TrackBehavior F}
  {b : Behavior F β} {core : BlockCore F} {p : NodeId × Behavior F β}
  {blocks pre post head mid cut rest : List (NodeId × Behavior F β)}
  {c : TrackRippleRemoveAreaCommand F β} {length : TrimOperation → Rational} {o : TrimOperation}

/-! ### Trims that are taken back -/

theorem trimmed_eq_self (hout : ∀ o ∈ c.trimOut, y ≠ o.block) (hin : ∀ o ∈ c.trimIn, y ≠ o.block)
    (length : TrimOperation → Rational) (b : Behavior F β) : c.trimmed length y b = b := by
  have hkeep {o : Option TrimOperation} {f : TrimOperation → Behavior F β} {b : Behavior F β}
      (ho : ∀ o' ∈ o, y ≠ o'.block) :
      (o.elim b fun o => if y = o.block then f o else b) = b := by
    rcases o with _ | o
    · rfl
    · exact if_neg (ho o rfl)
  rw [TrackRippleRemoveAreaCommand.trimmed, hkeep hout, hkeep hin]

theorem trimmed_eq_out (hout : c.trimOut = some o) (hy : y = o.block)
    (hin : ∀ o ∈ c.trimIn, y ≠ o.block) (length : TrimOperation → Rational) (b : Behavior F β) :
    c.trimmed length y b = b.modifyCore fun core => core.setLengthAndMediaIn (length o) := by
  have hstep : (c.trimOut.elim b fun o =>
      if y = o.block then b.modifyCore fun core => core.setLengthAndMediaIn (length o) else b) =
        b.modifyCore fun core => core.setLengthAndMediaIn (length o) := by
    rw [hout]
    exact if_pos hy
  rw [TrackRippleRemoveAreaCommand.trimmed, hstep]
  rcases hnone : c.trimIn with _ | o'
  · rfl
  · exact if_neg (hin o' hnone)

theorem trimmed_eq_in (hout : ∀ o ∈ c.trimOut, y ≠ o.block) (hin : c.trimIn = some o)
    (hy : y = o.block) (length : TrimOperation → Rational) (b : Behavior F β) :
    c.trimmed length y b = b.modifyCore fun core => core.setLengthAndMediaOut (length o) := by
  have hstep : (c.trimOut.elim b fun o =>
      if y = o.block then b.modifyCore fun core => core.setLengthAndMediaIn (length o) else b) =
        b := by
    rcases hnone : c.trimOut with _ | o'
    · rfl
    · exact if_neg (hout o' hnone)
  rw [TrackRippleRemoveAreaCommand.trimmed, hstep, hin]
  exact if_pos hy

theorem setLengthAndMediaIn_back {n : Rational} (hn : 0 ≤ n) (h : core.in_ ≤ core.out) :
    (core.setLengthAndMediaIn n).setLengthAndMediaIn (core.out - core.in_) = core := by
  rw [core.setLengthAndMediaIn_of_le hn, BlockCore.setLengthAndMediaIn_of_le _ (sub_nonneg.2 h)]
  simp only [BlockCore.in_, add_sub_cancel]
  rfl

/-- A trim at the beginning of a block leaves the out point, and the media begin with the block. -/
theorem setLengthAndMediaOut_back {n : Rational} (hn : 0 ≤ n) (h : core.in_ ≤ core.out) :
    (core.setLengthAndMediaOut n).setLengthAndMediaOut (core.out - core.in_) =
      { core with mediaIn := core.in_ } := by
  rw [core.setLengthAndMediaOut_of_le hn, BlockCore.setLengthAndMediaOut_of_le _ (sub_nonneg.2 h)]
  simp only [BlockCore.out, sub_sub_cancel]
  rfl

theorem trimmedBack_eq_self (hout : ∀ o ∈ c.trimOut, y ≠ o.block)
    (hin : ∀ o ∈ c.trimIn, y ≠ o.block) (b : Behavior F β) : trimmedBack c y b = b := by
  rw [trimmedBack, trimmed_eq_self hout hin, trimmed_eq_self hout hin]

theorem trimmedBack_out (hout : c.trimOut = some o) (hblock : p.1 = o.block)
    (hold : o.oldLength = outOf p.2 - inOf p.2) (hnew : 0 ≤ o.newLength)
    (hin : ∀ o ∈ c.trimIn, p.1 ≠ o.block) (hp : inOf p.2 < outOf p.2) :
    trimmedBack c p.1 p.2 = p.2 := by
  obtain ⟨core, hcore⟩ := exists_core_of_lt hp
  rw [inOf_eq hcore, outOf_eq hcore] at hold hp
  rw [trimmedBack, trimmed_eq_out hout hblock hin, trimmed_eq_out hout hblock hin,
    Behavior.modifyCore_modifyCore]
  refine Behavior.modifyCore_eq_self hcore ?_
  rw [Function.comp_apply, hold, setLengthAndMediaIn_back hnew hp.le]

/-- The block with its media beginning where it begins. -/
def withMediaIn (core : BlockCore F) : BlockCore F := { core with mediaIn := core.in_ }

theorem trimmedBack_in (hout : ∀ o ∈ c.trimOut, p.1 ≠ o.block) (hin : c.trimIn = some o)
    (hblock : p.1 = o.block) (hold : o.oldLength = outOf p.2 - inOf p.2) (hnew : 0 ≤ o.newLength)
    (hp : inOf p.2 < outOf p.2) : trimmedBack c p.1 p.2 = p.2.modifyCore withMediaIn := by
  obtain ⟨core, hcore⟩ := exists_core_of_lt hp
  rw [inOf_eq hcore, outOf_eq hcore] at hold hp
  rw [trimmedBack, trimmed_eq_in hout hin hblock, trimmed_eq_in hout hin hblock,
    Behavior.modifyCore_modifyCore]
  refine Behavior.modifyCore_congr hcore ?_
  rw [Function.comp_apply, hold, setLengthAndMediaOut_back hnew hp.le, withMediaIn]

/-- The media begin with the block. -/
def Anchored (p : NodeId × Behavior F β) : Prop :=
  ∀ core, p.2.blockCore = some core → core.mediaIn = core.in_

theorem modifyCore_withMediaIn_iff (hp : inOf p.2 < outOf p.2) :
    p.2.modifyCore withMediaIn = p.2 ↔ Anchored p := by
  obtain ⟨core, hcore⟩ := exists_core_of_lt hp
  constructor
  · intro h core' hcore'
    have hsame := congrArg Behavior.blockCore h
    rw [Behavior.blockCore_modifyCore, hcore', Option.map_some] at hsame
    exact (congrArg BlockCore.mediaIn (Option.some.inj hsame)).symm
  · intro h
    refine Behavior.modifyCore_eq_self hcore ?_
    rw [withMediaIn, ← h core hcore]

/-! ### An area that no block spans -/

theorem Track.fst_ne_fst (h : Track g track t (pre ++ post)) {q : NodeId × Behavior F β}
    (hp : p ∈ pre) (hq : q ∈ post) : p.1 ≠ q.1 := by
  have hnodup := h.nodup
  rw [List.map_append, List.nodup_append] at hnodup
  exact hnodup.2.2 p.1 (List.mem_map_of_mem hp) q.1 (List.mem_map_of_mem hq)

section Area

variable {range : TimeRange}

/-- What was derived leaves the blocks in the area, and changes only the cut block when it is taken
back. -/
theorem trimmedBack_iff_of_area (h : Track g track t (head ++ (mid ++ (cut ++ rest))))
    (hsorted : Sorted (head ++ (mid ++ (cut ++ rest))))
    (harea : Area head mid cut rest range.in_ range.out)
    (hout : ∀ o ∈ c.trimOut, ∃ p ∈ head, o = trimOutOf range.in_ p)
    (hin : c.trimIn = cut.head?.map (trimInOf range.out)) :
    (∀ p ∈ mid, ∀ length, ∀ b : Behavior F β, c.trimmed length p.1 b = b) ∧
      ((∀ y, (g.behaviorOf y).map (trimmedBack c y) = g.behaviorOf y) ↔
        ∀ q ∈ cut, Anchored q) := by
  have hcut : ∀ o ∈ c.trimIn, ∃ q ∈ cut, o = trimInOf range.out q := by
    intro o ho
    rw [hin, Option.mem_def, Option.map_eq_some_iff] at ho
    obtain ⟨q, hq, rfl⟩ := ho
    exact ⟨q, List.mem_of_head? hq, rfl⟩
  have hheadcut : ∀ p ∈ head, ∀ o ∈ c.trimIn, p.1 ≠ o.block := by
    intro p hp o ho
    obtain ⟨q, hq, rfl⟩ := hcut o ho
    exact h.fst_ne_fst hp (by simp [hq])
  have hcuthead : ∀ q ∈ cut, ∀ o ∈ c.trimOut, q.1 ≠ o.block := by
    intro q hq o ho
    obtain ⟨p, hp, rfl⟩ := hout o ho
    exact (h.fst_ne_fst hp (by simp [hq])).symm
  have hback : ∀ q ∈ cut, trimmedBack c q.1 q.2 = q.2.modifyCore withMediaIn := by
    intro q hq
    have hlength := harea.cut_length
    rcases cut with _ | ⟨q', _ | ⟨q'', cut⟩⟩
    · exact absurd hq List.not_mem_nil
    · obtain rfl := List.mem_singleton.1 hq
      exact trimmedBack_in (hcuthead q hq) hin rfl rfl
        (sub_nonneg.2 (harea.cut_out q hq).2.le) (hsorted.1 q (by simp))
    · exact absurd hlength (by simp)
  constructor
  · intro p hp length b
    refine trimmed_eq_self (fun o ho => ?_) (fun o ho => ?_) length b
    · obtain ⟨q, hq, rfl⟩ := hout o ho
      exact (h.fst_ne_fst hq (by simp [hp])).symm
    · obtain ⟨q, hq, rfl⟩ := hcut o ho
      rw [← List.append_assoc] at h
      exact h.fst_ne_fst (List.mem_append_right _ hp) (List.mem_append_left _ hq)
  constructor
  · intro hsame q hq
    have hmem : q ∈ head ++ (mid ++ (cut ++ rest)) := by simp [hq]
    have hq' := hsame q.1
    rw [(h.block q hmem).1, Option.map_some, hback q hq] at hq'
    exact (modifyCore_withMediaIn_iff (hsorted.1 q hmem)).1 (Option.some.inj hq')
  · intro hanchored y
    rcases hy : g.behaviorOf y with _ | b
    · rfl
    refine congrArg some ?_
    by_cases hyout : ∃ o ∈ c.trimOut, y = o.block
    · obtain ⟨o, ho, rfl⟩ := hyout
      obtain ⟨p, hp, rfl⟩ := hout o ho
      have hmem : p ∈ head ++ (mid ++ (cut ++ rest)) := List.mem_append_left _ hp
      obtain rfl : b = p.2 := Option.some.inj (hy.symm.trans (h.block p hmem).1)
      exact trimmedBack_out ho rfl rfl (sub_nonneg.2 (harea.head_in p hp).le) (hheadcut p hp)
        (hsorted.1 p hmem)
    by_cases hyin : ∃ o ∈ c.trimIn, y = o.block
    · obtain ⟨o, ho, rfl⟩ := hyin
      obtain ⟨q, hq, rfl⟩ := hcut o ho
      have hmem : q ∈ head ++ (mid ++ (cut ++ rest)) := by simp [hq]
      obtain rfl : b = q.2 := Option.some.inj (hy.symm.trans (h.block q hmem).1)
      exact (hback q hq).trans
        ((modifyCore_withMediaIn_iff (hsorted.1 q hmem)).2 (hanchored q hq))
    · exact trimmedBack_eq_self (fun o ho heq => hyout ⟨o, ho, heq⟩)
        (fun o ho heq => hyin ⟨o, ho, heq⟩) b

end Area

/-! ### Redo, undo and redo -/

variable {cmd cmd' : BlockSplitCommand F β} {carried : List (NodeId × NodeId)}

section TakenBack

variable [ClipSpeed F] [NodeBehavior F β] (order : List NodeId → List NodeId)

/-- A redo and its undo. -/
def takeBack (c : TrackRippleRemoveAreaCommand F β) (g : ProjectGraph F β) :
    TrackRippleRemoveAreaCommand F β × ProjectGraph F β :=
  (c.redo order g).1.undo (c.redo order g).2

/-- The undo leaves the project as it was, and another redo does what the first one did. -/
structure TakenBack (c : TrackRippleRemoveAreaCommand F β) (g : ProjectGraph F β) : Prop where
  undone : Same g (takeBack order c g).2
  redone : Same (c.redo order g).2 ((takeBack order c g).1.redo order (takeBack order c g).2).2

omit [ClipSpeed F] [NodeBehavior F β] in
theorem edges_kept_iff (g : ProjectGraph F β) (mid : List (NodeId × Behavior F β)) :
    (∀ e ∈ g.edges, e.source ∉ removable g mid ∧ e.target ∉ removable g mid) ↔
      ∀ p ∈ mid, ∀ e ∈ g.edges, e.target = p.1 → ∃ e' ∈ g.edges, e'.source = p.1 := by
  have hremovable (id : NodeId) : id ∈ removable g mid ↔
      (∃ p ∈ mid, p.1 = id) ∧ ∀ e ∈ g.edges, e.source ≠ id := by
    rw [removable, List.mem_filter, List.mem_map, nodeCanBeRemoved_iff]
  simp only [hremovable]
  constructor
  · rintro h p hp e he htarget
    by_contra hnone
    exact (h e he).2 ⟨⟨p, hp, htarget.symm⟩, fun e' he' hsource =>
      hnone ⟨e', he', hsource.trans htarget⟩⟩
  · refine fun h e he => ⟨fun hsource => hsource.2 e he rfl, ?_⟩
    rintro ⟨⟨p, hp, htarget⟩, hnone⟩
    obtain ⟨e', he', hsource⟩ := h p hp e he htarget.symm
    exact hnone e' he' (hsource.trans htarget)

/-- Derived operations without a splice are taken back when they restore the trimmed blocks and
lose no edge. -/
theorem takenBack_iff_of_prepared (hprepared : c.prepared = true)
    (hsplice : c.spliceSplitCommand = none)
    (hremovals : c.removals = removalsOf ((pre.map Prod.fst).getLast?) mid)
    (hcommands : c.removeBlockCommands = []) (h : Track g c.track t (pre ++ (mid ++ post)))
    (hapart : ∀ p ∈ mid, ∀ length, ∀ b : Behavior F β, c.trimmed length p.1 b = b) :
    TakenBack order c g ↔ (∀ y, (g.behaviorOf y).map (trimmedBack c y) = g.behaviorOf y) ∧
      ∀ p ∈ mid, ∀ e ∈ g.edges, e.target = p.1 → ∃ e' ∈ g.edges, e'.source = p.1 := by
  obtain ⟨hcommand, hbehavior, hedges⟩ :=
    undo_prepared order hprepared hsplice hremovals hcommands h hapart
  rw [← edges_kept_iff]
  constructor
  · rintro ⟨hundone, -⟩
    refine ⟨fun y => (hbehavior y).symm.trans (hundone.behaviorOf y), fun e he => ?_⟩
    exact ((hedges e).1 ((hundone.edges e).2 he)).2
  · rintro ⟨hsame, hkept⟩
    have hundone : Same g (takeBack order c g).2 :=
      ⟨fun y => (hbehavior y).trans (hsame y), fun e =>
        (hedges e).trans (and_iff_left_of_imp fun he => hkept e he)⟩
    refine ⟨hundone, ?_⟩
    have hagain := redo_again order hprepared hsplice hremovals hcommands h hapart hundone
    rw [← hcommand] at hagain
    exact hagain

theorem takenBack_new_iff (hnew : c.prepared = false) (hprepared : (c.prepare g).prepared = true) :
    TakenBack order c g ↔ TakenBack order (c.prepare g) g := by
  have hredo : c.redo order g = (c.prepare g).redo order g := redo_new order hnew hprepared
  have hback : takeBack order c g = takeBack order (c.prepare g) g := by
    rw [takeBack, takeBack, hredo]
  constructor
  · rintro ⟨hundone, hredone⟩
    rw [hback, hredo] at *
    exact ⟨hundone, hredone⟩
  · rintro ⟨hundone, hredone⟩
    rw [← hback, ← hredo] at *
    exact ⟨hundone, hredone⟩

/-- The removal of an area can be taken back: no block is split, a block that is cut at the end of
the area has its media begin with it, and a block that is removed and is fed by others also feeds
one. -/
structure Undoable (g : ProjectGraph F β) (allow : Bool) (blocks : List (NodeId × Behavior F β))
    (a c : Rational) : Prop where
  spans : ∀ p ∈ blocks, inOf p.2 < a → c < outOf p.2 → allow = false ∧ isGapBlock p.2 = true
  cuts : (∃ q ∈ blocks, inOf q.2 ≤ a) → ∀ p ∈ blocks, a ≤ inOf p.2 → inOf p.2 < c →
    c < outOf p.2 → Anchored p
  removes : (∃ q ∈ blocks, inOf q.2 ≤ a) → ∀ p ∈ blocks, a ≤ inOf p.2 → outOf p.2 ≤ c →
    ∀ e ∈ g.edges, e.target = p.1 → ∃ e' ∈ g.edges, e'.source = p.1

variable {range : TimeRange} (allow : Bool)

theorem takenBack_of_lt (h : Track g track t blocks) (hsorted : Sorted blocks)
    (hlt : ∀ p ∈ blocks, range.in_ < inOf p.2) :
    TakenBack order (new track range allow) g ↔ Undoable g allow blocks range.in_ range.out := by
  have hredo := redo_of_lt order allow h hsorted hlt
  have hback : takeBack order (new track range allow) g = (new track range allow, g) := by
    rw [takeBack, hredo]
    rfl
  have hnone : ¬ ∃ q ∈ blocks, inOf q.2 ≤ range.in_ := fun ⟨q, hq, hle⟩ =>
    absurd hle (not_le.2 (hlt q hq))
  refine iff_of_true ⟨?_, ?_⟩ ⟨fun p hp hin => absurd hin (hlt p hp).not_gt,
    fun hsome => absurd hsome hnone, fun hsome => absurd hsome hnone⟩
  · rw [hback]
    exact .refl g
  · rw [hback]
    exact .refl _

omit [ClipSpeed F] [NodeBehavior F β] in
theorem undoable_iff_of_span {a e : Rational} (h : Sorted (pre ++ p :: post)) (hin : inOf p.2 < a)
    (hout : e < outOf p.2) (hae : a < e) :
    Undoable g allow (pre ++ p :: post) a e ↔ allow = false ∧ isGapBlock p.2 = true := by
  obtain ⟨hpre, hpost⟩ := around_span h hin hout
  have hcases : ∀ q ∈ pre ++ p :: post, outOf q.2 < a ∨ q = p ∨ e < inOf q.2 := by
    intro q hq
    rcases List.mem_append.1 hq with hq | hq
    · exact .inl (hpre q hq).2
    rcases List.mem_cons.1 hq with hq | hq
    · exact .inr (.inl hq)
    · exact .inr (.inr (hpost q hq).1)
  constructor
  · exact fun hundoable => hundoable.spans p (by simp) hin hout
  · intro hgap
    refine ⟨fun q hq hlt hgt => ?_, fun _ q hq hge hlt _ => ?_, fun _ q hq hge hle => ?_⟩
    · rcases hcases q hq with hend | rfl | hstart
      · exact absurd (hend.trans hae) hgt.not_gt
      · exact hgap
      · exact absurd (hae.trans hstart) hlt.not_gt
    · rcases hcases q hq with hend | rfl | hstart
      · exact absurd (hge.trans_lt (h.1 q hq)) hend.not_gt
      · exact absurd hin (not_lt.2 hge)
      · exact absurd hlt hstart.not_gt
    · rcases hcases q hq with hend | rfl | hstart
      · exact absurd (hge.trans_lt (h.1 q hq)) hend.not_gt
      · exact absurd hin (not_lt.2 hge)
      · exact absurd hle (not_le.2 (hstart.trans (h.1 q hq)))

/-- A gap that spans the area is trimmed, and trimmed back. -/
theorem takenBack_of_gap (h : Track g track t (pre ++ (x, b) :: post))
    (hsorted : Sorted (pre ++ (x, b) :: post)) (hrange : range.in_ < range.out)
    (hin : inOf b < range.in_) (hout : range.out < outOf b) (hgap : allow = false ∧ isGap g x) :
    TakenBack order (new track range allow) g := by
  have hprepare := prepare_of_span allow h hsorted hrange hin hout
  rw [if_pos hgap] at hprepare
  rw [takenBack_new_iff order rfl (by rw [hprepare]), hprepare]
  have hempty : Track g track t ([] ++ ([] ++ (pre ++ (x, b) :: post))) := h
  refine (takenBack_iff_of_prepared order rfl rfl rfl rfl hempty (by simp)).2
    ⟨fun y => ?_, by simp⟩
  rcases hy : g.behaviorOf y with _ | d
  · rfl
  refine congrArg some ?_
  by_cases hyx : y = x
  · obtain rfl := hyx
    obtain rfl := Option.some.inj (hy.symm.trans h.behaviorOf)
    have hnew : 0 ≤ outOf d - inOf d - range.length := by
      rw [TimeRange.length]
      linarith
    exact trimmedBack_out (p := (y, d)) rfl rfl rfl hnew (by simp [new])
      (hin.trans (hrange.trans hout))
  · exact trimmedBack_eq_self (by simpa [Option.mem_def] using hyx) (by simp [new]) d

omit [ClipSpeed F] [NodeBehavior F β] in
theorem undoable_iff_of_area {a e : Rational} (hsorted : Sorted (head ++ (mid ++ (cut ++ rest))))
    (harea : Area head mid cut rest a e) (hae : a < e)
    (hsome : ∃ p ∈ head ++ (mid ++ (cut ++ rest)), inOf p.2 ≤ a) :
    Undoable g allow (head ++ (mid ++ (cut ++ rest))) a e ↔ (∀ q ∈ cut, Anchored q) ∧
      ∀ p ∈ mid, ∀ e ∈ g.edges, e.target = p.1 → ∃ e' ∈ g.edges, e'.source = p.1 := by
  constructor
  · rintro ⟨-, hcuts, hremoves⟩
    refine ⟨fun q hq => ?_, fun p hp => ?_⟩
    · exact hcuts hsome q (by simp [hq]) (harea.cut_in q hq) (harea.cut_out q hq).1
        (harea.cut_out q hq).2
    · exact hremoves hsome p (by simp [hp]) (harea.mid_in p hp) (harea.mid_out p hp).2
  · rintro ⟨hcut, hmid⟩
    have hcases {p : NodeId × Behavior F β} (hp : p ∈ head ++ (mid ++ (cut ++ rest))) :
        p ∈ head ∨ p ∈ mid ∨ p ∈ cut ∨ p ∈ rest := by simpa using hp
    refine ⟨fun p hp hlt hgt => ?_, fun _ p hp hle hlt hgt => ?_, fun _ p hp hle hout => ?_⟩
    · rcases hcases hp with hp | hp | hp | hp
      · exact absurd hgt (harea.head_out p hp).not_gt
      · exact absurd hlt (harea.mid_in p hp).not_gt
      · exact absurd hlt (harea.cut_in p hp).not_gt
      · exact absurd hlt (hae.le.trans (harea.rest_in p hp)).not_gt
    · rcases hcases hp with hp | hp | hp | hp
      · exact absurd (harea.head_in p hp) hle.not_gt
      · exact absurd hgt (harea.mid_out p hp).2.not_gt
      · exact hcut p hp
      · exact absurd hlt (harea.rest_in p hp).not_gt
    · have hlt := hsorted.1 p hp
      rcases hcases hp with hp | hp | hp | hp
      · exact absurd (harea.head_in p hp) hle.not_gt
      · exact hmid p hp
      · exact absurd (harea.cut_out p hp).2 hout.not_gt
      · exact absurd ((harea.rest_in p hp).trans_lt hlt) hout.not_gt

theorem takenBack_of_area (h : Track g track t (head ++ (mid ++ (cut ++ rest))))
    (hsorted : Sorted (head ++ (mid ++ (cut ++ rest)))) (hrange : range.in_ < range.out)
    (harea : Area head mid cut rest range.in_ range.out)
    (hsome : ∃ p ∈ head ++ (mid ++ (cut ++ rest)), inOf p.2 ≤ range.in_) :
    TakenBack order (new track range allow) g ↔ (∀ q ∈ cut, Anchored q) ∧
      ∀ p ∈ mid, ∀ e ∈ g.edges, e.target = p.1 → ∃ e' ∈ g.edges, e'.source = p.1 := by
  obtain ⟨trimOut, previous, hprepare, hfirst⟩ :=
    prepare_of_area allow h hsorted hrange harea hsome
  rw [takenBack_new_iff order rfl (by rw [hprepare]), hprepare]
  have hout : ∀ o ∈ trimOut, ∃ p ∈ head, o = trimOutOf range.in_ p := by
    rcases hfirst with ⟨-, rfl⟩ | ⟨-, init, p, rfl, rfl⟩
    · simp
    · exact fun o ho => ⟨p, by simp, (Option.some.inj ho).symm⟩
  obtain ⟨hapart, hback⟩ := trimmedBack_iff_of_area (c := ⟨track, range, true, trimOut,
    removalsOf ((head.map Prod.fst).getLast?) mid, cut.head?.map (trimInOf range.out), previous,
      allow, none, []⟩) h hsorted harea hout rfl
  rw [← hback]
  exact takenBack_iff_of_prepared order rfl rfl rfl rfl h hapart

/-! ### A block that is split -/

/-- A redo that splits a block, and trims the second half. -/
theorem redo_halves {new : NodeId} (hprepared : c.prepared = true)
    (hsplice : c.spliceSplitCommand = some cmd) (hsplit : cmd.redo order g = (cmd', g'))
    (hnew : cmd'.newBlock = some new) :
    c.redo order g = ({ c with spliceSplitCommand := some cmd' },
      blockSetLengthAndMediaIn g' new
        (blockLength g' new - (c.range.out - blockIn g' new))) := by
  rw [redo, if_pos hprepared]
  dsimp only
  rw [hsplice]
  dsimp only
  rw [hsplit]
  dsimp only
  rw [hnew]

omit [ClipSpeed F] [NodeBehavior F β] in
theorem undo_halves {cmd : BlockSplitCommand F β} (hsplice : c.spliceSplitCommand = some cmd) :
    c.undo g = ({ c with spliceSplitCommand := some (cmd.undo g).1 }, (cmd.undo g).2) := by
  rw [undo, hsplice]

theorem not_takenBack_of_refused (h : Splittable g carried track t pre x b post)
    (hcopyable : ¬ g.Copyable x) (hprepared : c.prepared = true)
    (hsplice : c.spliceSplitCommand = some (.new x range.in_)) : ¬ TakenBack order c g := by
  obtain ⟨new, s, -, hfresh, hnew, hsplit⟩ := redo_refused order h hcopyable range.in_
  have hredo : c.redo order g = ({ c with
      spliceSplitCommand := some { BlockSplitCommand.new x range.in_ with
        oldLength := blockLength s.graph x } }, s.graph) := by
    rw [redo, if_pos hprepared]
    dsimp only
    rw [hsplice]
    dsimp only
    rw [hsplit]
    rfl
  -- the copy is still there
  have hundo : ((c.redo order g).1.undo (c.redo order g).2).2.behaviorOf new ≠ none := by
    rw [hredo, undo_halves rfl, BlockSplitCommand.undo]
    have hkept : s.graph.behaviorOf new ≠ none := by
      rw [hnew]
      exact Option.some_ne_none b
    have hlengths : (blockSetLengthAndMediaIn s.graph x (blockLength s.graph x)).behaviorOf new ≠
        none := by
      rw [blockSetLengthAndMediaIn, behaviorOf_modifyBlock, hnew]
      split_ifs
      · exact Option.some_ne_none _
      · exact Option.some_ne_none _
    dsimp only
    split
    · exact hkept
    · exact hlengths
  rintro ⟨hundone, -⟩
  refine hundo ((hundone.behaviorOf new).trans ?_)
  rw [Graph.behaviorOf, hfresh, Option.map_none]


/-- Another redo splits the block and trims the second half once more. -/
theorem blockIn_redo_takeBack {new : NodeId} {g₂ : ProjectGraph F β} (hprepared : c.prepared = true)
    (hredo : c.redo order g = ({ c with spliceSplitCommand := some cmd }, g₂))
    (hagain : (cmd.undo g₂).1.redo order (cmd.undo g₂).2 = (cmd', g'))
    (hnew : cmd'.newBlock = some new) (hcore : blockCoreOf g' new = some core) :
    blockIn ((takeBack order c g).1.redo order (takeBack order c g).2).2 new =
      (core.setLengthAndMediaIn (core.length - (c.range.out - core.in_))).in_ := by
  rw [takeBack, hredo, undo_halves rfl]
  dsimp only
  rw [redo_halves order (c := { c with spliceSplitCommand := some (cmd.undo g₂).1 }) hprepared rfl
    hagain hnew, blockLength_eq hcore, blockIn_eq hcore]
  refine blockIn_eq (?_ : _ = some (core.setLengthAndMediaIn _))
  obtain ⟨d, hd, hcore⟩ := Option.bind_eq_some_iff.1 hcore
  rw [blockCoreOf, blockSetLengthAndMediaIn, behaviorOf_modifyBlock, if_pos rfl, hd,
    Option.map_some, Option.bind_some, Behavior.blockCore_modifyCore, hcore, Option.map_some]

omit [ClipSpeed F] [NodeBehavior F β] in
/-- A second half that got the length before its trim back, at its beginning, and is trimmed
again. -/
theorem in_trimmed_again {a e out : Rational} (hae : a < e) (hout : e < out)
    (hcore : core.range = ⟨out - (e - a) - (out - a), out - (e - a)⟩) :
    (core.setLengthAndMediaIn (core.length - (e - core.in_))).in_ ≠ a := by
  have hin : core.in_ = out - (e - a) - (out - a) := congrArg TimeRange.in_ hcore
  have hend : core.out = out - (e - a) := congrArg TimeRange.out hcore
  rw [BlockCore.length_eq, hin, hend, BlockCore.setLengthAndMediaIn, BlockCore.in_, hin,
    TimeRange.new]
  split_ifs with hlt
  · exact fun heq => by linarith [hlt, heq]
  · exact fun heq => by linarith [heq]

/-- The second half of a block is trimmed by the rest of the area once more, and begins
elsewhere. -/
theorem not_takenBack_of_copied (h : Splittable g carried track t pre x b post)
    (hcopyable : g.Copyable x) (hrange : c.range.in_ < c.range.out) (hin : inOf b < c.range.in_)
    (hout : c.range.out < outOf b) (hprepared : c.prepared = true)
    (hsplice : c.spliceSplitCommand = some (.new x c.range.in_)) : ¬ TakenBack order c g := by
  obtain ⟨core, hcore, -, -⟩ := h.track.exists_core
  rw [inOf_eq hcore] at hin
  rw [outOf_eq hcore] at hout
  obtain ⟨new, others, edges, g₁, hsplit, hothers, htrack⟩ :=
    h.track_redo order hcopyable hcore hin.le (hrange.trans hout).le
  have hsound : g₁.Sound carried := by
    have hsound := h.sound_redo order c.range.in_
    rwa [hsplit] at hsound
  have hlate : c.range.in_ ≤ outOf b - (c.range.out - c.range.in_) := by
    rw [outOf_eq hcore]
    linarith
  have htrimmed := track_trim_second htrack hcore hlate
  have hredo := redo_halves order hprepared hsplice hsplit rfl
  have htrimmedcore : (b.modifyCore (replaced ⟨c.range.in_, outOf b - (c.range.out - c.range.in_)⟩
      c.range.in_)).blockCore = some (replaced ⟨c.range.in_, outOf b -
        (c.range.out - c.range.in_)⟩ c.range.in_ core) := by
    rw [Behavior.blockCore_modifyCore, hcore, Option.map_some]
  have hfirst : blockIn (c.redo order g).2 new = c.range.in_ := by
    have hbehavior := (htrimmed.block (new, b.modifyCore
      (replaced ⟨c.range.in_, outOf b - (c.range.out - c.range.in_)⟩ c.range.in_)) (by simp)).1
    rw [hredo]
    exact (blockIn_eq_inOf hbehavior).trans (inOf_eq htrimmedcore)
  -- the second redo
  obtain ⟨hnew, core', hcore', hcorerange⟩ := redo_undo_split order ⟨x, c.range.in_, some new,
    new :: others, edges, (new :: others).map fun _ => none, core.length⟩ rfl rfl rfl rfl rfl
      hothers (sound_modifyBlock hsound _ _) htrimmed hcore htrimmedcore
      (hin.trans (hrange.trans hout)).le (hrange.trans hout).le
  have hsecond := blockIn_redo_takeBack order hprepared hredo rfl hnew hcore'
  have hne := in_trimmed_again hrange hout (hcorerange.trans (by rw [← outOf_eq hcore]; rfl))
  rintro ⟨-, hredone⟩
  have hsame : blockIn _ new = blockIn _ new :=
    congrArg (fun d => ((d.bind Behavior.blockCore).map BlockCore.in_).getD 0)
      (hredone.behaviorOf new)
  exact hne (hsecond.symm.trans (hsame.trans hfirst))

/-! ### Every area -/

/-- Where the times are exact, the first redo of the removal of an area can be taken back, and done
again, exactly when no block is split, a block that is cut at the end of the area has its media
begin with it, and a block that is removed and is fed also feeds. -/
theorem takenBack_iff_undoable {carried : List (NodeId × NodeId)} (hsound : g.Sound carried)
    (hroom : g.HasRoom) (h : Track g track t blocks) (hsorted : Sorted blocks)
    (hrange : range.in_ < range.out) (hitems : ∀ p ∈ blocks, ∀ entry, g.get p.1 = some entry →
      entry.core.flags &&& NodeFlags.isItem = 0)
    (_ : Exacts (areaTimes blocks range.in_ range.out)) :
    TakenBack order (new track range allow) g ↔ Undoable g allow blocks range.in_ range.out := by
  by_cases hlt : ∀ p ∈ blocks, range.in_ < inOf p.2
  · exact takenBack_of_lt order allow h hsorted hlt
  rcases exists_area hsorted range.in_ range.out with
    ⟨pre, ⟨x, b⟩, post, rfl, hin, hout⟩ | ⟨head, mid, cut, rest, rfl, harea⟩
  · rw [undoable_iff_of_span allow hsorted hin hout hrange]
    have hkind : isGap g x = true ↔ isGapBlock b = true :=
      decide_eq_true_iff.trans (blockKind_eq_gap_iff h.behaviorOf)
    by_cases hgap : allow = false ∧ isGap g x = true
    · exact iff_of_true (takenBack_of_gap order allow h hsorted hrange hin hout hgap)
        ⟨hgap.1, hkind.1 hgap.2⟩
    · refine iff_of_false ?_ fun hboth => hgap ⟨hboth.1, hkind.2 hboth.2⟩
      have hsplittable : Splittable g carried track t pre x b post :=
        ⟨hsound, hroom, h, hitems (x, b) (by simp)⟩
      have hprepare := prepare_of_span allow h hsorted hrange hin hout
      rw [if_neg hgap] at hprepare
      rw [takenBack_new_iff order rfl (by rw [hprepare]), hprepare]
      by_cases hcopyable : g.Copyable x
      · exact not_takenBack_of_copied order hsplittable hcopyable hrange hin hout rfl rfl
      · exact not_takenBack_of_refused order hsplittable hcopyable rfl rfl
  · have hsome : ∃ p ∈ head ++ (mid ++ (cut ++ rest)), inOf p.2 ≤ range.in_ := by
      by_contra hnone
      exact hlt fun p hp => not_le.1 fun hle => hnone ⟨p, hp, hle⟩
    rw [undoable_iff_of_area allow hsorted harea hrange hsome]
    exact takenBack_of_area order allow h hsorted hrange harea hsome

end TakenBack

/-! ### A clip and two areas -/

/-- The end of the clip is cut off. -/
theorem takenBack_iff_undoable_oneClip :
    TakenBack id (new ⟨0, 0⟩ ⟨15, 25⟩ false) (oneClip 0) := by
  have hrange : (⟨15, 25⟩ : TimeRange).in_ < (⟨15, 25⟩ : TimeRange).out := by
    show (15 : ℚ) < 25
    norm_num
  refine (takenBack_iff_undoable id false (splittable_oneClip 0).sound (splittable_oneClip 0).room
    track_oneClip sorted_clipBlocks hrange (fun p hp => ?_) (by decide +kernel)).2
      ⟨fun p hp _ hout => ?_, fun _ p hp hin _ _ => ?_, fun _ p hp hin _ => ?_⟩
  · obtain rfl := List.mem_singleton.1 hp
    exact (splittable_oneClip 0).notItem
  · rw [(range_clipBlocks p hp).2.2] at hout
    exact absurd hout (by norm_num)
  · rw [(range_clipBlocks p hp).2.1] at hin
    exact absurd hin (by norm_num)
  · rw [(range_clipBlocks p hp).2.1] at hin
    exact absurd hin (by norm_num)

/-- A clip that was moved to ten seconds plays its media from the start. When its first five seconds
are removed and put back, it plays them from the tenth second. -/
theorem area_not_takenBack :
    ¬ TakenBack id (new ⟨0, 0⟩ ⟨10, 15⟩ false) (oneClip 0) := by
  have hrange : (⟨10, 15⟩ : TimeRange).in_ < (⟨10, 15⟩ : TimeRange).out := by
    show (10 : ℚ) < 15
    norm_num
  have hcut : ∀ p ∈ clipBlocks, inOf p.2 < 15 ∧ 15 < outOf p.2 := by
    intro p hp
    rw [(range_clipBlocks p hp).2.1, (range_clipBlocks p hp).2.2]
    norm_num
  have harea : Area [] [] clipBlocks [] (10 : Rational) 15 :=
    ⟨by simp, by simp, by simp, by simp, fun p hp => (range_clipBlocks p hp).2.1.ge, hcut, le_rfl,
      by simp⟩
  have hfirst : ((⟨1, 0⟩ : NodeId), (.clip (tenSeconds 0) : Behavior ℚ Plain)) ∈ clipBlocks :=
    List.mem_cons_self
  have hblocks : clipBlocks = [] ++ ([] ++ (clipBlocks ++ [])) := by simp
  have htrack := track_oneClip
  have hsorted := sorted_clipBlocks
  rw [hblocks] at htrack hsorted
  rw [takenBack_of_area id false htrack hsorted hrange harea
    ⟨_, by simpa using hfirst, (range_clipBlocks _ hfirst).2.1.le⟩]
  intro hundoable
  have hanchored := hundoable.1 _ hfirst _ rfl
  exact absurd (show (0 : ℚ) = 10 from hanchored) (by norm_num)

end Oak.Timeline
