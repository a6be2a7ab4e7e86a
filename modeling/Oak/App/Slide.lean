import Oak.App.BlockEdit

/-!
# Sliding a clip

`slide_clip` of `oak-app/src/oakui/graphops.rs`: a clip is moved to a new start, and its two
neighbours give way or follow. The block before it keeps its in point and changes its length by the
distance, the block behind it keeps its out point. A neighbour that the clip would cover to its far
end is left alone.

* `slideClip` is the composite that is pushed.
* `BlockCore.Resumes` says that a clip that begins at another time, with the media at that time,
  shows what it showed.

## Main results

* `slidesExactly_iff`: exactly when a slide leaves a track in order, with its media in place, and
  can be undone.
-/

namespace Oak.App

open Oak.Core Oak.Node Oak.Timeline Oak.Undo

variable {F β : Type*}

/-- The length change of the block before the clip: none when the clip is to begin before it. -/
def slideLeft (g : ProjectGraph F β) (new delta : Rational) (l : NodeId) : List BlockClosure :=
  if blockIn g l < new then [.trim ⟨l, false, blockLength g l, blockLength g l + delta⟩] else []

/-- The length change of the block behind the clip: none when the clip is to end behind it. -/
def slideRight (g : ProjectGraph F β) (newOut delta : Rational) (r : NodeId) : List BlockClosure :=
  if newOut < blockOut g r then [.trim ⟨r, true, blockLength g r, blockLength g r - delta⟩] else []

/-- The closures of a slide of `clip` to `new`, between the blocks `left` and `right`. -/
def slideChildren (g : ProjectGraph F β) (clip : NodeId) (core : BlockCore F) (new : Rational)
    (left right : Option NodeId) : List BlockClosure :=
  .setIn clip core.in_ new ::
    (left.elim [] (slideLeft g new (new - core.in_)) ++
      right.elim [] (slideRight g (new + (core.out - core.in_)) (new - core.in_)))

/-- `slide_clip`: the command that is pushed, if any. A negative start is taken for zero. -/
def slideClip (rate : NodeId → Option Rational) (g : ProjectGraph F β) (clip : NodeId)
    (newStart : ℤ) : Except String (Option (UndoCommand BlockClosure)) :=
  match clipOnTrack rate g clip with
  | .error e => .error e
  | .ok (tb, core, blocks, index) =>
    let left := if index = 0 then none else blocks[index - 1]?
    let right := blocks[index + 1]?
    let new := tsToRational (max newStart 0) tb
    if new - core.in_ = 0 then .ok none
    else .ok (pushMulti (slideChildren g clip core new left right))

/-- The times of a slide between the blocks `left` and `right`. -/
def slideTimes (core : BlockCore F) (new : Rational) (left right : Option (NodeId × Behavior F β)) :
    List Rational :=
  let delta := new - core.in_
  let length (p : NodeId × Behavior F β) := outOf p.2 - inOf p.2
  [core.in_, core.out, core.length, new, delta, new + core.length] ++
    (left.elim [] fun l => [inOf l.2, outOf l.2, length l, length l + delta, outOf l.2 + delta,
      outOf l.2 + delta + length l]) ++
    right.elim [] fun r => [inOf r.2, outOf r.2, length r, length r - delta, inOf r.2 + delta,
      inOf r.2 + delta - length r]

variable {g : ProjectGraph F β} {track x : NodeId} {t : TrackBehavior F} {b : Behavior F β}
  {core : BlockCore F} {pre post : List (NodeId × Behavior F β)} {new : Rational}

/-! ### The closures of a slide -/

/-- The closures of a slide of the block between `pre` and `post`. -/
def slideOf (g : ProjectGraph F β) (x : NodeId) (core : BlockCore F) (new : Rational)
    (pre post : List (NodeId × Behavior F β)) : List BlockClosure :=
  slideChildren g x core new (pre.map Prod.fst).getLast? (post.map Prod.fst).head?

variable {rate : NodeId → Option Rational}

theorem slideClip_eq {tb : TimeBase} {newStart : ℤ} (h : Track g track t (pre ++ (x, b) :: post))
    (hcore : b.blockCore = some core)
    (htb : (sequenceOf g x).bind (sequenceTimeBase rate) = some tb) :
    slideClip rate g x newStart =
      if tsToRational (max newStart 0) tb - core.in_ = 0 then .ok none
      else .ok (pushMulti (slideOf g x core (tsToRational (max newStart 0) tb) pre post)) := by
  have hleft : (if pre.length = 0 then none else t.blocks[pre.length - 1]?) =
      (pre.map Prod.fst).getLast? := by
    rw [h.order]
    rcases List.eq_nil_or_concat' pre with rfl | ⟨init, last, rfl⟩
    · rfl
    · simp
  have hright : t.blocks[pre.length + 1]? = (post.map Prod.fst).head? := by
    rw [h.order, List.map_append, List.getElem?_append_right (by simp)]
    cases post <;> simp
  delta slideClip
  rw [clipOnTrack_eq h hcore htb]
  simp only [hleft, hright, slideOf]

/-- The blocks that a slide changes are the clip and its neighbours. -/
theorem sublist_slideChildren (left right : Option NodeId) :
    ((slideChildren g x core new left right).map BlockClosure.block).Sublist
      (x :: (left.toList ++ right.toList)) := by
  have hleft : ((left.elim [] (slideLeft g new (new - core.in_))).map BlockClosure.block).Sublist
      left.toList := by
    cases left with
    | none => exact List.Sublist.refl _
    | some l =>
      rw [Option.elim_some, slideLeft]
      split_ifs
      · exact List.Sublist.refl _
      · exact List.nil_sublist _
  have hright : ((right.elim [] (slideRight g (new + (core.out - core.in_))
      (new - core.in_))).map BlockClosure.block).Sublist right.toList := by
    cases right with
    | none => exact List.Sublist.refl _
    | some r =>
      rw [Option.elim_some, slideRight]
      split_ifs
      · exact List.Sublist.refl _
      · exact List.nil_sublist _
  rw [slideChildren, List.map_cons, List.map_append]
  exact (hleft.append hright).cons_cons x

theorem nodup_slideChildren (h : Track g track t (pre ++ (x, b) :: post)) :
    ((slideOf g x core new pre post).map BlockClosure.block).Nodup := by
  refine List.Nodup.sublist (sublist_slideChildren _ _) ?_
  have hnodup := h.nodup
  rw [List.map_append, List.map_cons, List.nodup_middle] at hnodup
  refine List.Nodup.sublist (List.Sublist.cons_cons x (List.Sublist.append ?_ ?_)) hnodup
  · rcases List.eq_nil_or_concat' pre with rfl | ⟨init, last, rfl⟩
    · exact List.Sublist.refl _
    · simp
  · cases post with
    | nil => exact List.Sublist.refl _
    | cons r rest => simp

/-- What the slide makes of the block before the clip. -/
def leftCore (new delta : Rational) (c : BlockCore F) : BlockCore F :=
  if c.in_ < new then c.setLengthAndMediaIn (c.length + delta) else c

/-- What the slide makes of the block behind the clip. -/
def rightCore (newOut delta : Rational) (c : BlockCore F) : BlockCore F :=
  if newOut < c.out then c.setLengthAndMediaOut (c.length - delta) else c

variable {d : BlockClosure} {p : NodeId × Behavior F β} {y : NodeId}

section Changed

variable {cs : List BlockClosure} {l r : NodeId × Behavior F β} {c : BlockCore F}

theorem changed_clip (h : Track g track t (pre ++ (x, b) :: post)) :
    changed (slideOf g x core new pre post) x = fun c : BlockCore F => c.setIn new :=
  funext (changed_of_mem (nodup_slideChildren h) List.mem_cons_self rfl)

theorem getLast?_map_fst (hl : pre.getLast? = some l) : (pre.map Prod.fst).getLast? = some l.1 := by
  rw [List.getLast?_map, hl, Option.map_some]

theorem head?_map_fst (hr : post.head? = some r) : (post.map Prod.fst).head? = some r.1 := by
  rw [List.head?_map, hr, Option.map_some]

theorem slideLeft_subset (hl : pre.getLast? = some l) :
    slideLeft g new (new - core.in_) l.1 ⊆ slideOf g x core new pre post := by
  intro c hc
  rw [slideOf, getLast?_map_fst hl]
  exact List.mem_cons_of_mem _ (List.mem_append_left _ hc)

theorem slideRight_subset (hr : post.head? = some r) :
    slideRight g (new + (core.out - core.in_)) (new - core.in_) r.1 ⊆
      slideOf g x core new pre post := by
  intro c hc
  rw [slideOf, head?_map_fst hr]
  exact List.mem_cons_of_mem _ (List.mem_append_right _ hc)

theorem mem_slide (hd : d ∈ slideOf g x core new pre post) :
    d = .setIn x core.in_ new ∨
      (∃ l, pre.getLast? = some l ∧ d ∈ slideLeft g new (new - core.in_) l.1) ∨
      ∃ r, post.head? = some r ∧
        d ∈ slideRight g (new + (core.out - core.in_)) (new - core.in_) r.1 := by
  obtain rfl | hd := List.mem_cons.1 hd
  · exact .inl rfl
  obtain hd | hd := List.mem_append.1 hd
  · rw [List.getLast?_map] at hd
    cases hl : pre.getLast? with
    | none =>
      rw [hl] at hd
      exact absurd hd List.not_mem_nil
    | some l =>
      rw [hl] at hd
      exact .inr (.inl ⟨l, rfl, hd⟩)
  · rw [List.head?_map] at hd
    cases hr : post.head? with
    | none =>
      rw [hr] at hd
      exact absurd hd List.not_mem_nil
    | some r =>
      rw [hr] at hd
      exact .inr (.inr ⟨r, rfl, hd⟩)

theorem block_of_mem_slideLeft {delta : Rational} (hd : d ∈ slideLeft g new delta y) :
    d.block = y := by
  rw [slideLeft] at hd
  split_ifs at hd
  · rw [List.mem_singleton.1 hd]
    rfl
  · exact absurd hd List.not_mem_nil

theorem block_of_mem_slideRight {newOut delta : Rational} (hd : d ∈ slideRight g newOut delta y) :
    d.block = y := by
  rw [slideRight] at hd
  split_ifs at hd
  · rw [List.mem_singleton.1 hd]
    rfl
  · exact absurd hd List.not_mem_nil

theorem changed_other (hx : y ≠ x) (hl : ∀ l ∈ pre.getLast?, y ≠ l.1)
    (hr : ∀ r ∈ post.head?, y ≠ r.1) (c : BlockCore F) :
    changed (slideOf g x core new pre post) y c = c := by
  refine changed_of_notMem (fun hmem => ?_) c
  obtain ⟨d, hd, rfl⟩ := List.mem_map.1 hmem
  obtain rfl | ⟨l, hlast, hd⟩ | ⟨r, hhead, hd⟩ := mem_slide hd
  · exact hx rfl
  · exact hl l hlast (block_of_mem_slideLeft hd)
  · exact hr r hhead (block_of_mem_slideRight hd)

section

variable (h : Track g track t (pre ++ (x, b) :: post))

include h

theorem changed_left (hl : pre.getLast? = some l) (hc : blockCoreOf g l.1 = some c) :
    changed (slideOf g x core new pre post) l.1 c = leftCore new (new - core.in_) c := by
  have hlx : l.1 ≠ x := h.fst_ne (List.mem_append_left _ (List.mem_of_getLast? hl))
  rw [leftCore]
  split_ifs with hlt
  · have hmem : BlockClosure.trim ⟨l.1, false, c.length, c.length + (new - core.in_)⟩ ∈
        slideOf g x core new pre post := by
      refine slideLeft_subset hl ?_
      rw [slideLeft, blockIn_eq hc, blockLength_eq hc, if_pos hlt]
      exact List.mem_cons_self
    exact changed_of_mem (nodup_slideChildren h) hmem rfl c
  · refine changed_of_notMem (fun hmem => ?_) c
    obtain ⟨d, hd, hblock⟩ := List.mem_map.1 hmem
    obtain rfl | ⟨l', hlast, hd⟩ | ⟨r, hhead, hd⟩ := mem_slide hd
    · exact hlx hblock.symm
    · obtain rfl := Option.some.inj (hl.symm.trans hlast)
      rw [slideLeft, blockIn_eq hc, if_neg hlt] at hd
      exact absurd hd List.not_mem_nil
    · have hnodup := h.nodup
      rw [List.map_append] at hnodup
      refine (List.nodup_append.1 hnodup).2.2 l.1 (List.mem_map_of_mem (List.mem_of_getLast? hl))
        r.1 (List.mem_map_of_mem (List.mem_cons_of_mem _ (List.mem_of_head? hhead))) ?_
      rw [← hblock, block_of_mem_slideRight hd]

theorem changed_right (hr : post.head? = some r) (hc : blockCoreOf g r.1 = some c) :
    changed (slideOf g x core new pre post) r.1 c =
      rightCore (new + (core.out - core.in_)) (new - core.in_) c := by
  have hrx : r.1 ≠ x := h.fst_ne (List.mem_append_right _ (List.mem_of_head? hr))
  rw [rightCore]
  split_ifs with hlt
  · have hmem : BlockClosure.trim ⟨r.1, true, c.length, c.length - (new - core.in_)⟩ ∈
        slideOf g x core new pre post := by
      refine slideRight_subset hr ?_
      rw [slideRight, blockOut_eq hc, blockLength_eq hc, if_pos hlt]
      exact List.mem_cons_self
    exact changed_of_mem (nodup_slideChildren h) hmem rfl c
  · refine changed_of_notMem (fun hmem => ?_) c
    obtain ⟨d, hd, hblock⟩ := List.mem_map.1 hmem
    obtain rfl | ⟨l, hlast, hd⟩ | ⟨r', hhead, hd⟩ := mem_slide hd
    · exact hrx hblock.symm
    · have hnodup := h.nodup
      rw [List.map_append] at hnodup
      refine (List.nodup_append.1 hnodup).2.2 l.1
        (List.mem_map_of_mem (List.mem_of_getLast? hlast)) r.1
        (List.mem_map_of_mem (List.mem_cons_of_mem _ (List.mem_of_head? hr))) ?_
      rw [← hblock, block_of_mem_slideLeft hd]
    · obtain rfl := Option.some.inj (hr.symm.trans hhead)
      rw [slideRight, blockOut_eq hc, if_neg hlt] at hd
      exact absurd hd List.not_mem_nil

theorem changed_init (hp : p ∈ pre.dropLast) (c : BlockCore F) :
    changed (slideOf g x core new pre post) p.1 c = c := by
  rcases List.eq_nil_or_concat' pre with rfl | ⟨init, l, rfl⟩
  · exact absurd hp List.not_mem_nil
  · have hp : p ∈ init := by simpa using hp
    have hnodup := h.nodup
    rw [List.append_assoc, List.map_append] at hnodup
    have hother := (List.nodup_append.1 hnodup).2.2 p.1 (List.mem_map_of_mem hp)
    refine changed_other (hother x (by simp)) (fun l' hl' => ?_) (fun r hr => ?_) c
    · obtain rfl : l = l' := by simpa using hl'
      exact hother l.1 (by simp)
    · exact hother r.1 (List.mem_map_of_mem (List.mem_append_right _
        (List.mem_cons_of_mem _ (List.mem_of_head? hr))))

theorem changed_tail (hp : p ∈ post.tail) (c : BlockCore F) :
    changed (slideOf g x core new pre post) p.1 c = c := by
  rcases post with _ | ⟨r, rest⟩
  · exact absurd hp List.not_mem_nil
  · have hp : p ∈ rest := hp
    have hsplit : pre ++ (x, b) :: r :: rest = (pre ++ [(x, b), r]) ++ rest := by simp
    have hnodup := h.nodup
    rw [hsplit, List.map_append] at hnodup
    have hother : ∀ q ∈ pre ++ [(x, b), r], p.1 ≠ q.1 := fun q hq =>
      Ne.symm ((List.nodup_append.1 hnodup).2.2 q.1 (List.mem_map_of_mem hq) p.1
        (List.mem_map_of_mem hp))
    refine changed_other (hother (x, b) (by simp)) (fun l hl => ?_) (fun r' hr => ?_) c
    · exact hother l (List.mem_append_left _ (List.mem_of_getLast? hl))
    · obtain rfl : r = r' := by simpa using hr
      exact hother r (by simp)

end

end Changed

/-! ### The neighbours -/

variable {clip : ClipBlockBehavior F}

section Neighbours

variable {c : BlockCore F} {delta newOut : Rational}

theorem leftCore_of_fits (hfits : c.in_ < c.out + delta) (hmeet : c.out + delta ≤ new) :
    leftCore new delta c = { c with range := ⟨c.in_, c.out + delta⟩ } := by
  rw [leftCore, if_pos (hfits.trans_le hmeet), BlockCore.setLengthAndMediaIn_of_le]
  · rw [← add_assoc, BlockCore.in_add_length]
  · rw [BlockCore.length_eq]
    linarith

/-- It does when it is left in order, and can be restored. -/
theorem fits_of_leftCore (hc : c.in_ < c.out)
    (hpos : (leftCore new delta c).in_ < (leftCore new delta c).out)
    (hmeet : (leftCore new delta c).out ≤ new)
    (hback : c.in_ < new → ((c.setLengthAndMediaIn (c.length + delta)).setLengthAndMediaIn
      c.length).range = c.range) : c.in_ < c.out + delta := by
  have hlength : 0 < c.length := by
    rw [BlockCore.length_eq]
    linarith
  by_cases hlt : c.in_ < new
  · by_contra hnot
    rw [leftCore, if_pos hlt] at hpos
    obtain hneg | hzero := (sub_nonpos.2 (not_lt.1 hnot)).lt_or_eq
    · -- the ends are swapped, and the block is not moved back
      have hswapped : (c.setLengthAndMediaIn (c.length + delta)).in_ = c.in_ + (c.length + delta) := by
        rw [BlockCore.setLengthAndMediaIn, TimeRange.new, if_pos]
        · rfl
        · rw [BlockCore.length_eq]
          linarith
      have hin := congrArg TimeRange.in_ (hback hlt)
      rw [BlockCore.setLengthAndMediaIn_of_le _ hlength.le] at hin
      have hin : c.in_ + (c.length + delta) = c.in_ := hswapped.symm.trans hin
      rw [BlockCore.length_eq] at hin
      linarith
    · have hempty : c.length + delta = 0 := by
        rw [BlockCore.length_eq]
        linarith
      rw [hempty, BlockCore.setLengthAndMediaIn_of_le _ le_rfl, add_zero] at hpos
      exact absurd hpos (lt_irrefl _)
  · rw [leftCore, if_neg hlt] at hmeet
    linarith [not_lt.1 hlt]

theorem rightCore_of_fits (hfits : c.in_ + delta < c.out) (hmeet : newOut ≤ c.in_ + delta) :
    rightCore newOut delta c =
      { c with
        range := ⟨c.in_ + delta, c.out⟩
        mediaIn := c.in_ + delta } := by
  have hin : c.out - (c.length - delta) = c.in_ + delta := by
    rw [BlockCore.length_eq]
    ring
  rw [rightCore, if_pos (hmeet.trans_lt hfits), BlockCore.setLengthAndMediaOut_of_le, hin]
  rw [BlockCore.length_eq]
  linarith

theorem fits_of_rightCore (hc : c.in_ < c.out)
    (hpos : (rightCore newOut delta c).in_ < (rightCore newOut delta c).out)
    (hmeet : newOut ≤ (rightCore newOut delta c).in_)
    (hback : newOut < c.out → ((c.setLengthAndMediaOut (c.length - delta)).setLengthAndMediaOut
      c.length).range = c.range) : c.in_ + delta < c.out := by
  have hlength : 0 < c.length := by
    rw [BlockCore.length_eq]
    linarith
  by_cases hlt : newOut < c.out
  · by_contra hnot
    rw [rightCore, if_pos hlt] at hpos
    obtain hneg | hzero := (sub_nonpos.2 (not_lt.1 hnot)).lt_or_eq
    · have hswapped : (c.setLengthAndMediaOut (c.length - delta)).out =
          c.out - (c.length - delta) := by
        rw [BlockCore.setLengthAndMediaOut, BlockCore.in_add_length, TimeRange.new, if_pos]
        · rfl
        · rw [BlockCore.length_eq]
          linarith
      have hout := congrArg TimeRange.out (hback hlt)
      rw [BlockCore.setLengthAndMediaOut_of_le _ hlength.le] at hout
      have hout : c.out - (c.length - delta) = c.out := hswapped.symm.trans hout
      rw [BlockCore.length_eq] at hout
      linarith
    · have hempty : c.length - delta = 0 := by
        rw [BlockCore.length_eq]
        linarith
      rw [hempty, BlockCore.setLengthAndMediaOut_of_le _ le_rfl, sub_zero] at hpos
      exact absurd hpos (lt_irrefl _)
  · rw [rightCore, if_neg hlt] at hmeet
    linarith [not_lt.1 hlt]

/-- The length change of the block before the clip is taken back. -/
theorem leftBack (hc : c.in_ ≤ c.out) (hfits : c.in_ ≤ c.out + delta) :
    (c.setLengthAndMediaIn (c.length + delta)).setLengthAndMediaIn c.length = c := by
  rw [BlockCore.length_eq, BlockCore.setLengthAndMediaIn_of_le c (by linarith),
    BlockCore.setLengthAndMediaIn_of_le _ (by linarith)]
  simp only [BlockCore.in_, BlockCore.out, add_sub_cancel]

/-- The length change of the block behind the clip is taken back, up to the media in point. -/
theorem rightBack (hc : c.in_ ≤ c.out) (hfits : c.in_ + delta ≤ c.out) :
    (c.setLengthAndMediaOut (c.length - delta)).setLengthAndMediaOut c.length =
      { c with mediaIn := c.in_ } := by
  rw [BlockCore.length_eq, BlockCore.setLengthAndMediaOut_of_le c (by linarith),
    BlockCore.setLengthAndMediaOut_of_le _ (by linarith)]
  simp only [BlockCore.in_, BlockCore.out, sub_sub_cancel]

variable [ClipSpeed F]

/-- A clip that is to begin at `time`, with the media at `time`, and that began with the media at
its own in point, shows what it showed. At another speed than the normal one the media that pass
are computed with the speed. -/
def BlockCore.Resumes (c : BlockCore F) (time : Rational) : Prop :=
  ∀ t, c.in_ ≤ t → time ≤ t → t < c.out →
    if c.reversed then c.elapsed (t - time) = c.elapsed (t - c.in_)
    else c.elapsed (t - time) + (time - c.in_) = c.elapsed (t - c.in_)

/-- A neighbour shows what it showed at every time that it still covers. -/
def KeepsShown (b b' : Behavior F β) : Prop :=
  ∀ clip, b = .clip clip → ∃ clip', b' = .clip clip' ∧ ∀ t, clip.core.range.contains t = true →
    clip'.core.range.contains t = true → clip'.shownAt t = clip.shownAt t

theorem shownAt_eq_mediaAt (clip : ClipBlockBehavior F) (t : Rational) :
    clip.shownAt t = clip.mediaAt t := clip.inputTimeAdjustment_point t

/-- A clip that changes at its end shows what it showed when it is not reversed. -/
theorem keepsShown_left_iff (hc : clip.core.in_ < clip.core.out)
    (hfits : clip.core.in_ < clip.core.out + delta) (hdelta : delta ≠ 0) :
    KeepsShown (Behavior.clip clip : Behavior F β) (.clip { clip with core :=
      { clip.core with range := ⟨clip.core.in_, clip.core.out + delta⟩ } }) ↔
      clip.core.reversed = false := by
  have hshown (t : Rational) : ClipBlockBehavior.mediaAt { clip with core :=
      { clip.core with range := ⟨clip.core.in_, clip.core.out + delta⟩ } } t =
      clip.mediaAt t + if clip.core.reversed then delta else 0 := by
    have hlength : (⟨clip.core.in_, clip.core.out + delta⟩ : TimeRange).length =
        clip.core.length + delta := by
      rw [BlockCore.length_eq, TimeRange.length]
      ring
    simp only [ClipBlockBehavior.mediaAt, BlockCore.length, BlockCore.in_, BlockCore.elapsed,
      BlockCore.out] at hlength ⊢
    rw [hlength]
    split_ifs <;> ring
  constructor
  · intro h
    obtain ⟨clip', hclip', hkept⟩ := h clip rfl
    obtain rfl := Behavior.clip.inj hclip'
    have hfirst := hkept clip.core.in_ (TimeRange.contains_iff.2 ⟨le_rfl, hc⟩)
      (TimeRange.contains_iff.2 ⟨le_rfl, hfits⟩)
    rw [shownAt_eq_mediaAt, shownAt_eq_mediaAt, hshown] at hfirst
    by_contra hrev
    rw [if_pos (by simpa using hrev)] at hfirst
    exact hdelta (by linarith)
  · rintro hrev clip' hclip'
    obtain rfl := Behavior.clip.inj hclip'
    refine ⟨_, rfl, fun t _ _ => ?_⟩
    rw [shownAt_eq_mediaAt, shownAt_eq_mediaAt, hshown, hrev]
    simp

theorem keepsShown_right_iff (hanchored : clip.core.mediaIn = clip.core.in_) :
    KeepsShown (Behavior.clip clip : Behavior F β) (.clip { clip with core :=
      { clip.core with
        range := ⟨clip.core.in_ + delta, clip.core.out⟩
        mediaIn := clip.core.in_ + delta } }) ↔
      BlockCore.Resumes clip.core (clip.core.in_ + delta) := by
  have hshown (t : Rational) : ClipBlockBehavior.shownAt { clip with core :=
      { clip.core with
        range := ⟨clip.core.in_ + delta, clip.core.out⟩
        mediaIn := clip.core.in_ + delta } } t = clip.shownAt t ↔
      if clip.core.reversed then clip.core.elapsed (t - (clip.core.in_ + delta)) =
          clip.core.elapsed (t - clip.core.in_)
        else clip.core.elapsed (t - (clip.core.in_ + delta)) +
          (clip.core.in_ + delta - clip.core.in_) = clip.core.elapsed (t - clip.core.in_) := by
    rw [shownAt_eq_mediaAt, shownAt_eq_mediaAt, ClipBlockBehavior.mediaAt,
      ClipBlockBehavior.mediaAt, hanchored]
    change ((if clip.core.reversed = true then clip.core.out - (clip.core.in_ + delta) -
        clip.core.elapsed (t - (clip.core.in_ + delta)) else
        clip.core.elapsed (t - (clip.core.in_ + delta))) + (clip.core.in_ + delta) = _) ↔ _
    rw [BlockCore.length_eq]
    split_ifs
    · constructor <;> intro h <;> linarith
    · constructor <;> intro h <;> linarith
  constructor
  · intro h t hin htime hout
    obtain ⟨clip', hclip', hkept⟩ := h clip rfl
    obtain rfl := Behavior.clip.inj hclip'
    exact (hshown t).1 (hkept t (TimeRange.contains_iff.2 ⟨hin, hout⟩)
      (TimeRange.contains_iff.2 ⟨htime, hout⟩))
  · rintro h clip' hclip'
    obtain rfl := Behavior.clip.inj hclip'
    refine ⟨_, rfl, fun t hold hnew => (hshown t).2 ?_⟩
    obtain ⟨hin, hout⟩ := TimeRange.contains_iff.1 hold
    exact h t hin (TimeRange.contains_iff.1 hnew).1 hout

end Neighbours

/-! ### A slide by frames -/

section Slides

/-- What one undo of a slide restores. -/
theorem restored_slide_iff (h : Track g track t (pre ++ (x, b) :: post))
    (hcore : b.blockCore = some core) (hpos : core.in_ ≤ core.out) :
    Restored g (undone g (pushMulti (slideOf g x core new pre post))) ↔
      (∀ l ∈ pre.getLast?, ∀ c, blockCoreOf g l.1 = some c → c.in_ < new →
        ((c.setLengthAndMediaIn (c.length + (new - core.in_))).setLengthAndMediaIn c.length).range =
          c.range) ∧
      ∀ r ∈ post.head?, ∀ c, blockCoreOf g r.1 = some c → new + (core.out - core.in_) < c.out →
        ((c.setLengthAndMediaOut (c.length - (new - core.in_))).setLengthAndMediaOut
          c.length).range = c.range ∧
        ((c.setLengthAndMediaOut (c.length - (new - core.in_))).setLengthAndMediaOut
          c.length).mediaIn = c.mediaIn := by
  have hx : blockCoreOf g x = some core := by rw [blockCoreOf_eq h.behaviorOf, hcore]
  rw [restored_undone_iff (nodup_slideChildren h)]
  constructor
  · intro hall
    constructor
    · intro l hl c hc hlt
      refine (hall (.trim ⟨l.1, false, c.length, c.length + (new - core.in_)⟩)
        (slideLeft_subset hl ?_) c hc).1
      rw [slideLeft, blockIn_eq hc, blockLength_eq hc, if_pos hlt]
      exact List.mem_cons_self
    · intro r hr c hc hlt
      refine hall (.trim ⟨r.1, true, c.length, c.length - (new - core.in_)⟩)
        (slideRight_subset hr ?_) c hc
      rw [slideRight, blockOut_eq hc, blockLength_eq hc, if_pos hlt]
      exact List.mem_cons_self
  · rintro ⟨hleft, hright⟩ d hd c hc
    obtain rfl | ⟨l, hl, hd⟩ | ⟨r, hr, hd⟩ := mem_slide hd
    · obtain rfl := Option.some.inj (hx.symm.trans hc)
      have hback : (core.setIn new).setIn core.in_ = core := BlockCore.setIn_setIn hpos new
      exact ⟨congrArg BlockCore.range hback, congrArg BlockCore.mediaIn hback⟩
    · rw [block_of_mem_slideLeft hd] at hc
      rw [slideLeft, blockIn_eq hc, blockLength_eq hc] at hd
      split_ifs at hd with hlt
      · obtain rfl := List.mem_singleton.1 hd
        exact ⟨hleft l hl c hc hlt, rfl⟩
      · exact absurd hd List.not_mem_nil
    · rw [block_of_mem_slideRight hd] at hc
      rw [slideRight, blockOut_eq hc, blockLength_eq hc] at hd
      split_ifs at hd with hlt
      · obtain rfl := List.mem_singleton.1 hd
        exact hright r hr c hc hlt
      · exact absurd hd List.not_mem_nil

variable [ClipSpeed F]

/-- The block before the clip can follow: it keeps a positive length, and is no reversed clip. -/
structure LeftFits (delta : Rational) (b : Behavior F β) : Prop where
  positive : inOf b < outOf b + delta
  forward : ∀ clip, b = .clip clip → clip.core.reversed = false

/-- The block behind the clip can follow: it keeps a positive length, its media begin at its own in
point, and a clip resumes its media at the new one. -/
structure RightFits (delta : Rational) (b : Behavior F β) : Prop where
  positive : inOf b + delta < outOf b
  anchored : ∀ core, b.blockCore = some core → core.mediaIn = core.in_
  resumes : ∀ clip, b = .clip clip → BlockCore.Resumes clip.core (clip.core.in_ + delta)

/-- A slide of a block of a track to `new`. -/
structure Slid (g g' : ProjectGraph F β) (track : NodeId) (t : TrackBehavior F)
    (pre : List (NodeId × Behavior F β)) (x : NodeId) (core : BlockCore F)
    (post : List (NodeId × Behavior F β)) (new : Rational) : Prop where
  wellFormed : ∃ blocks', Track g' track t blocks' ∧ Timeline.Sorted blocks'
  clip : ∃ core', blockCoreOf g' x = some core' ∧ core'.in_ = new ∧ core'.length = core.length ∧
    core'.mediaIn = core.mediaIn
  others : ∀ y, y ≠ x → (∀ l ∈ pre.getLast?, y ≠ l.1) → (∀ r ∈ post.head?, y ≠ r.1) →
    g'.behaviorOf y = g.behaviorOf y
  left : ∀ l ∈ pre.getLast?, ∃ b', g'.behaviorOf l.1 = some b' ∧ KeepsShown l.2 b'
  right : ∀ r ∈ post.head?, ∃ b', g'.behaviorOf r.1 = some b' ∧ KeepsShown r.2 b'

/-- A clip slides to a frame, and one undo restores every block. -/
def SlidesExactly (rate : NodeId → Option Rational) (g : ProjectGraph F β) (track : NodeId)
    (t : TrackBehavior F) (pre : List (NodeId × Behavior F β)) (x : NodeId) (core : BlockCore F)
    (post : List (NodeId × Behavior F β)) (newStart : ℤ) (new : Rational) : Prop :=
  ∃ cmd, slideClip rate g x newStart = .ok cmd ∧
    Slid g (redone g cmd) track t pre x core post new ∧ Restored g (undone g cmd)

variable {cs : List BlockClosure}

/-- The side before the clip. -/
theorem left_iff (hpre : Timeline.Sorted pre)
    (hbefore : ∀ p ∈ pre, outOf p.2 ≤ core.in_)
    (hblock : ∀ p ∈ pre, blockCoreOf g p.1 = p.2.blockCore) (hne : new - core.in_ ≠ 0)
    (hlast : ∀ l ∈ pre.getLast?, ∀ c, l.2.blockCore = some c →
      changed cs l.1 c = leftCore new (new - core.in_) c)
    (hinit : ∀ p ∈ pre.dropLast, ∀ c : BlockCore F, changed cs p.1 c = c) :
    ((Timeline.Sorted (changedBlocks cs pre) ∧
        ∀ q ∈ (changedBlocks cs pre).getLast?, outOf q.2 ≤ new) ∧
      (∀ l ∈ pre.getLast?, KeepsShown l.2 (l.2.modifyCore (changed cs l.1))) ∧
      ∀ l ∈ pre.getLast?, ∀ c, blockCoreOf g l.1 = some c → c.in_ < new →
        ((c.setLengthAndMediaIn (c.length + (new - core.in_))).setLengthAndMediaIn c.length).range =
          c.range) ↔
    ∀ l ∈ pre.getLast?, LeftFits (new - core.in_) l.2 := by
  rcases List.eq_nil_or_concat' pre with rfl | ⟨init, l, rfl⟩
  · simp [changedBlocks, hpre]
  have hinit' : changedBlocks cs init = init := by
    conv_rhs => rw [← List.map_id init]
    refine List.map_congr_left fun p hp => ?_
    have hid : changed cs p.1 = (id : BlockCore F → BlockCore F) :=
      funext (hinit p (by simpa using hp))
    rw [hid, Behavior.modifyCore_id]
    rfl
  obtain ⟨hsinit, hsl, hinitl⟩ := sorted_append.1 hpre
  have hlt : inOf l.2 < outOf l.2 := hpre.1 l (by simp)
  obtain ⟨c, hc⟩ := exists_core_of_lt hlt
  rw [inOf_eq hc, outOf_eq hc] at hlt
  have hmeet : c.out ≤ core.in_ := by
    rw [← outOf_eq hc]
    exact hbefore l (by simp)
  have hl' : l.2.modifyCore (changed cs l.1) =
      l.2.modifyCore (leftCore new (new - core.in_)) :=
    Behavior.modifyCore_congr hc (hlast l (by simp) c hc)
  have hin : inOf (l.2.modifyCore (leftCore new (new - core.in_))) =
      (leftCore new (new - core.in_) c).in_ := inOf_modifyCore hc _
  have hout : outOf (l.2.modifyCore (leftCore new (new - core.in_))) =
      (leftCore new (new - core.in_) c).out := outOf_modifyCore hc _
  have hblocks : changedBlocks cs (init ++ [l]) =
      init ++ [(l.1, l.2.modifyCore (leftCore new (new - core.in_)))] := by
    rw [changedBlocks, List.map_append, List.map_cons, hl']
    exact congrArg (· ++ _) hinit'
  have hlc : blockCoreOf g l.1 = some c := (hblock l (by simp)).trans hc
  rw [hblocks]
  have hmem {P : NodeId × Behavior F β → Prop} {l : NodeId × Behavior F β} {init} :
      (∀ q ∈ (init ++ [l]).getLast?, P q) ↔ P l := by simp
  have hcores {P : BlockCore F → Prop} : (∀ c', blockCoreOf g l.1 = some c' → P c') ↔ P c := by
    simp [hlc]
  rw [hmem, hmem, hmem, hmem, hcores, sorted_append, hl', hout]
  constructor
  · rintro ⟨⟨⟨-, ⟨hpos, -⟩, -⟩, hle⟩, hshown, hback⟩
    have hpos := hpos _ List.mem_cons_self
    rw [hin, hout] at hpos
    have hfits := fits_of_leftCore hlt hpos hle hback
    refine ⟨by rwa [inOf_eq hc, outOf_eq hc], fun clip hclip => ?_⟩
    rw [hclip] at hc hshown
    obtain rfl := Option.some.inj hc
    refine (keepsShown_left_iff (β := β) hlt hfits hne).1 ?_
    have hmodify : (Behavior.clip clip : Behavior F β).modifyCore
        (leftCore new (new - core.in_)) = .clip { clip with core :=
          { clip.core with range := ⟨clip.core.in_, clip.core.out + (new - core.in_)⟩ } } := by
      rw [Behavior.modifyCore, leftCore_of_fits hfits (by linarith)]
    rwa [hmodify] at hshown
  · rintro ⟨hfits, hforward⟩
    rw [inOf_eq hc, outOf_eq hc] at hfits
    have hcore : leftCore new (new - core.in_) c = _ := leftCore_of_fits hfits (by linarith)
    rw [hcore] at hin hout ⊢
    refine ⟨⟨⟨hsinit, ⟨?_, List.pairwise_singleton ..⟩, ?_⟩, ?_⟩, ?_, ?_⟩
    · intro q hq
      obtain rfl := List.mem_singleton.1 hq
      rw [hin, hout]
      exact hfits
    · intro p hp q hq
      obtain rfl := List.mem_singleton.1 hq
      rw [hin]
      have hle := hinitl p hp l List.mem_cons_self
      rwa [inOf_eq hc] at hle
    · change c.out + (new - core.in_) ≤ new
      linarith
    · intro clip hclip
      have hforward := hforward clip hclip
      rw [hclip] at hc ⊢
      obtain rfl := Option.some.inj hc
      rw [Behavior.modifyCore, hcore]
      exact (keepsShown_left_iff (β := β) hlt hfits hne).2 hforward clip rfl
    · intro _
      rw [leftBack hlt.le hfits.le]

/-- The side behind the clip. -/
theorem right_iff (hpost : Timeline.Sorted post)
    (hbehind : ∀ p ∈ post, core.out ≤ inOf p.2)
    (hblock : ∀ p ∈ post, blockCoreOf g p.1 = p.2.blockCore)
    (hhead : ∀ r ∈ post.head?, ∀ c, r.2.blockCore = some c →
      changed cs r.1 c = rightCore (new + (core.out - core.in_)) (new - core.in_) c)
    (htail : ∀ p ∈ post.tail, ∀ c : BlockCore F, changed cs p.1 c = c) :
    ((Timeline.Sorted (changedBlocks cs post) ∧
        ∀ q ∈ (changedBlocks cs post).head?, new + (core.out - core.in_) ≤ inOf q.2) ∧
      (∀ r ∈ post.head?, KeepsShown r.2 (r.2.modifyCore (changed cs r.1))) ∧
      ∀ r ∈ post.head?, ∀ c, blockCoreOf g r.1 = some c → new + (core.out - core.in_) < c.out →
        ((c.setLengthAndMediaOut (c.length - (new - core.in_))).setLengthAndMediaOut
          c.length).range = c.range ∧
        ((c.setLengthAndMediaOut (c.length - (new - core.in_))).setLengthAndMediaOut
          c.length).mediaIn = c.mediaIn) ↔
    ∀ r ∈ post.head?, RightFits (new - core.in_) r.2 := by
  rcases post with _ | ⟨r, rest⟩
  · simp [changedBlocks, hpost]
  have htail' : changedBlocks cs rest = rest := by
    conv_rhs => rw [← List.map_id rest]
    refine List.map_congr_left fun p hp => ?_
    have hid : changed cs p.1 = (id : BlockCore F → BlockCore F) := funext (htail p hp)
    rw [hid, Behavior.modifyCore_id]
    rfl
  obtain ⟨hlt, hsrest, hrestr⟩ := sorted_cons.1 hpost
  obtain ⟨c, hc⟩ := exists_core_of_lt hlt
  rw [inOf_eq hc, outOf_eq hc] at hlt
  have hmeet : core.out ≤ c.in_ := by
    rw [← inOf_eq hc]
    exact hbehind r List.mem_cons_self
  have hr' : r.2.modifyCore (changed cs r.1) =
      r.2.modifyCore (rightCore (new + (core.out - core.in_)) (new - core.in_)) :=
    Behavior.modifyCore_congr hc (hhead r rfl c hc)
  have hin : inOf (r.2.modifyCore (rightCore (new + (core.out - core.in_)) (new - core.in_))) =
      (rightCore (new + (core.out - core.in_)) (new - core.in_) c).in_ := inOf_modifyCore hc _
  have hout : outOf (r.2.modifyCore (rightCore (new + (core.out - core.in_)) (new - core.in_))) =
      (rightCore (new + (core.out - core.in_)) (new - core.in_) c).out := outOf_modifyCore hc _
  have hblocks : changedBlocks cs (r :: rest) =
      (r.1, r.2.modifyCore (rightCore (new + (core.out - core.in_)) (new - core.in_))) :: rest := by
    rw [changedBlocks, List.map_cons, hr']
    exact congrArg (_ :: ·) htail'
  have hrc : blockCoreOf g r.1 = some c := (hblock r List.mem_cons_self).trans hc
  rw [hblocks]
  have hmem {P : NodeId × Behavior F β → Prop} {r : NodeId × Behavior F β} {rest} :
      (∀ q ∈ (r :: rest).head?, P q) ↔ P r := by simp
  have hcores {P : BlockCore F → Prop} : (∀ c', blockCoreOf g r.1 = some c' → P c') ↔ P c := by
    simp [hrc]
  rw [hmem, hmem, hmem, hmem, hcores, sorted_cons, hr', hin, hout]
  constructor
  · rintro ⟨⟨⟨hpos, -⟩, hle⟩, hshown, hback⟩
    have hfits := fits_of_rightCore hlt hpos hle fun hlt' => (hback hlt').1
    have hanchored : c.mediaIn = c.in_ := by
      have hmedia := (hback (by linarith)).2
      rw [rightBack hlt.le hfits.le] at hmedia
      exact hmedia.symm
    refine ⟨by rwa [inOf_eq hc, outOf_eq hc], fun c' hc' => ?_, fun clip hclip => ?_⟩
    · obtain rfl := Option.some.inj (hc.symm.trans hc')
      exact hanchored
    · rw [hclip] at hc hshown
      obtain rfl := Option.some.inj hc
      refine (keepsShown_right_iff (β := β) hanchored).1 ?_
      rwa [Behavior.modifyCore, rightCore_of_fits hfits (by linarith)] at hshown
  · rintro ⟨hfits, hanchored, hresumes⟩
    rw [inOf_eq hc, outOf_eq hc] at hfits
    have hanchored := hanchored c hc
    have hcore : rightCore (new + (core.out - core.in_)) (new - core.in_) c = _ :=
      rightCore_of_fits hfits (by linarith)
    rw [hcore] at hin hout ⊢
    refine ⟨⟨⟨hfits, hsrest, fun q hq => ?_⟩, ?_⟩, ?_, ?_⟩
    · have hle := hrestr q hq
      rwa [outOf_eq hc] at hle
    · change new + (core.out - core.in_) ≤ c.in_ + (new - core.in_)
      linarith
    · intro clip hclip
      have hresumes := hresumes clip hclip
      rw [hclip] at hc ⊢
      obtain rfl := Option.some.inj hc
      rw [Behavior.modifyCore, hcore]
      exact (keepsShown_right_iff (β := β) hanchored).2 hresumes clip rfl
    · intro _
      rw [rightBack hlt.le hfits.le]
      exact ⟨rfl, hanchored.symm⟩

section

variable {tb : TimeBase} {newStart : ℤ} (h : Track g track t (pre ++ (x, b) :: post))
  (hsorted : Timeline.Sorted (pre ++ (x, b) :: post)) (hcore : b.blockCore = some core)
  (htb : (sequenceOf g x).bind (sequenceTimeBase rate) = some tb)

include h hsorted hcore htb

theorem slidesExactly_of_unmoved (hnew : tsToRational (max newStart 0) tb = core.in_) :
    SlidesExactly rate g track t pre x core post newStart (tsToRational (max newStart 0) tb) := by
  have hkept : ∀ p ∈ pre ++ (x, b) :: post, ∃ b', g.behaviorOf p.1 = some b' ∧ KeepsShown p.2 b' :=
    fun p hp => ⟨p.2, (h.block p hp).1, fun clip hclip => ⟨clip, hclip, fun _ _ _ => rfl⟩⟩
  refine ⟨none, ?_, ⟨⟨_, h, hsorted⟩, ⟨core, ?_, hnew.symm, rfl, rfl⟩, fun _ _ _ _ => rfl,
    fun l hl => hkept l ?_, fun r hr => hkept r ?_⟩, fun y core hy => ⟨core, hy, rfl, rfl⟩⟩
  · rw [slideClip_eq h hcore htb, if_pos (sub_eq_zero.2 hnew)]
  · exact (blockCoreOf_eq h.behaviorOf).trans hcore
  · exact List.mem_append_left _ (List.mem_of_getLast? hl)
  · exact List.mem_append_right _ (List.mem_cons_of_mem _ (List.mem_of_head? hr))

theorem slidesExactly_of_moved (hnew : tsToRational (max newStart 0) tb = new)
    (hne : new - core.in_ ≠ 0) :
    SlidesExactly rate g track t pre x core post newStart new ↔
      (∀ l ∈ pre.getLast?, LeftFits (new - core.in_) l.2) ∧
        ∀ r ∈ post.head?, RightFits (new - core.in_) r.2 := by
  set cs := slideOf g x core new pre post with hcs
  set g' := redone g (pushMulti cs)
  have hlt : core.in_ < core.out := by
    have hpos := hsorted.1 (x, b) (by simp)
    rwa [inOf_eq hcore, outOf_eq hcore] at hpos
  have hpre : Timeline.Sorted pre := hsorted.sublist (List.sublist_append_left ..)
  have hpost : Timeline.Sorted post := (sorted_cons.1 (sorted_append.1 hsorted).2.1).2.1
  have hbefore : ∀ p ∈ pre, outOf p.2 ≤ core.in_ := by
    intro p hp
    rw [← inOf_eq hcore]
    exact (sorted_append.1 hsorted).2.2 p hp (x, b) List.mem_cons_self
  have hbehind : ∀ p ∈ post, core.out ≤ inOf p.2 := by
    intro p hp
    rw [← outOf_eq hcore]
    exact (sorted_cons.1 (sorted_append.1 hsorted).2.1).2.2 p hp
  have hblock : ∀ p ∈ pre ++ (x, b) :: post, blockCoreOf g p.1 = p.2.blockCore :=
    fun p hp => blockCoreOf_eq (h.block p hp).1
  have hg' : ∀ p ∈ pre ++ (x, b) :: post,
      g'.behaviorOf p.1 = some (p.2.modifyCore (changed cs p.1)) := by
    intro p hp
    rw [behaviorOf_redone_closures, (h.block p hp).1, Option.map_some]
  have hmempre : ∀ l ∈ pre.getLast?, l ∈ pre ++ (x, b) :: post := fun l hl =>
    List.mem_append_left _ (List.mem_of_getLast? hl)
  have hmempost : ∀ r ∈ post.head?, r ∈ pre ++ (x, b) :: post := fun r hr =>
    List.mem_append_right _ (List.mem_cons_of_mem _ (List.mem_of_head? hr))
  have hblocks : changedBlocks cs (pre ++ (x, b) :: post) = changedBlocks cs pre ++
      (x, b.modifyCore fun c => c.setIn new) :: changedBlocks cs post := by
    rw [changedBlocks, List.map_append, List.map_cons, changed_clip h]
    rfl
  have hsetIn : core.setIn new = { core with range := ⟨new, new + core.length⟩ } :=
    BlockCore.setIn_of_le core new hlt.le
  have hx : blockCoreOf g' x = some (core.setIn new) := by
    rw [blockCoreOf_eq (hg' (x, b) (by simp)), changed_clip h, Behavior.blockCore_modifyCore, hcore,
      Option.map_some]
  have hin : inOf (b.modifyCore fun c => c.setIn new) = new := by
    rw [inOf_modifyCore hcore, hsetIn]
    rfl
  have hout : outOf (b.modifyCore fun c => c.setIn new) = new + (core.out - core.in_) := by
    rw [outOf_modifyCore hcore, hsetIn]
    rfl
  have hordered : Timeline.Sorted (changedBlocks cs (pre ++ (x, b) :: post)) ↔
      (Timeline.Sorted (changedBlocks cs pre) ∧
        ∀ q ∈ (changedBlocks cs pre).getLast?, outOf q.2 ≤ new) ∧
      Timeline.Sorted (changedBlocks cs post) ∧
        ∀ q ∈ (changedBlocks cs post).head?, new + (core.out - core.in_) ≤ inOf q.2 := by
    rw [hblocks, sorted_around_iff, hin, hout]
    constructor
    · exact fun hall => ⟨hall.1, hall.2.2⟩
    · exact fun hall => ⟨hall.1, by linarith, hall.2⟩
  have hleft := left_iff hpre hbefore (fun p hp => hblock p (by simp [hp])) hne
    (fun l hl c hc => changed_left h hl ((hblock l (hmempre l hl)).trans hc))
    (fun p hp c => changed_init h hp c)
  have hright : _ ↔ ∀ r ∈ post.head?, RightFits (new - core.in_) r.2 := right_iff hpost hbehind
    (fun p hp => hblock p (by simp [hp]))
    (fun r hr c hc => changed_right h hr ((hblock r (hmempost r hr)).trans hc))
    (fun p hp c => changed_tail h hp c)
  have hrestored : Restored g (undone g (pushMulti cs)) ↔ _ := restored_slide_iff h hcore hlt.le
  rw [← hleft, ← hright]
  rw [SlidesExactly, slideClip_eq h hcore htb, hnew, if_neg hne]
  constructor
  · rintro ⟨cmd, hcmd, ⟨⟨blocks', htrack', hsorted'⟩, -, -, hl, hr⟩, hback⟩
    obtain rfl := Except.ok.inj hcmd
    rw [track_unique htrack' (track_redone h cs), hordered] at hsorted'
    obtain ⟨hbackl, hbackr⟩ := hrestored.1 hback
    refine ⟨⟨hsorted'.1, fun l hlast => ?_, hbackl⟩, hsorted'.2, fun r hhead => ?_, hbackr⟩
    · obtain ⟨b', hb', hshown⟩ := hl l hlast
      obtain rfl := Option.some.inj (hb'.symm.trans (hg' l (hmempre l hlast)))
      exact hshown
    · obtain ⟨b', hb', hshown⟩ := hr r hhead
      obtain rfl := Option.some.inj (hb'.symm.trans (hg' r (hmempost r hhead)))
      exact hshown
  · rintro ⟨⟨hsl, hl, hbackl⟩, hsr, hr, hbackr⟩
    refine ⟨_, rfl, ⟨⟨_, track_redone h cs, hordered.2 ⟨hsl, hsr⟩⟩, ⟨_, hx, ?_, ?_, ?_⟩, ?_,
      fun l hlast => ⟨_, hg' l (hmempre l hlast), hl l hlast⟩,
      fun r hhead => ⟨_, hg' r (hmempost r hhead), hr r hhead⟩⟩, hrestored.2 ⟨hbackl, hbackr⟩⟩
    · rw [hsetIn]
      rfl
    · rw [hsetIn]
      exact add_sub_cancel_left ..
    · rw [hsetIn]
    · intro y hyx hyl hyr
      change g'.behaviorOf y = _
      have hid : changed cs y = (id : BlockCore F → BlockCore F) :=
        funext (changed_other hyx hyl hyr)
      rw [behaviorOf_redone_closures, hid]
      cases g.behaviorOf y with
      | none => rfl
      | some b => exact congrArg some (Behavior.modifyCore_id b)

end

/-- **When a slide keeps the track.** Where its times are exact: the new start is that of the clip,
or both neighbours can follow. -/
theorem slidesExactly_iff {rate : NodeId → Option Rational} {tb : TimeBase} {newStart : ℤ}
    (h : Track g track t (pre ++ (x, b) :: post))
    (hsorted : Timeline.Sorted (pre ++ (x, b) :: post)) (hcore : b.blockCore = some core)
    (htb : (sequenceOf g x).bind (sequenceTimeBase rate) = some tb)
    (_ : Exacts (slideTimes core (tsToRational (max newStart 0) tb) pre.getLast? post.head?)) :
    SlidesExactly rate g track t pre x core post newStart (tsToRational (max newStart 0) tb) ↔
      (tsToRational (max newStart 0) tb ≠ core.in_ →
        (∀ l ∈ pre.getLast?, LeftFits (tsToRational (max newStart 0) tb - core.in_) l.2) ∧
          ∀ r ∈ post.head?, RightFits (tsToRational (max newStart 0) tb - core.in_) r.2) := by
  by_cases hnew : tsToRational (max newStart 0) tb = core.in_
  · exact iff_of_true (slidesExactly_of_unmoved h hsorted hcore htb hnew)
      fun hne => absurd hnew hne
  · rw [slidesExactly_of_moved h hsorted hcore htb rfl (sub_ne_zero.2 hnew)]
    exact ⟨fun hfits _ => hfits, fun hfits => hfits hnew⟩

end Slides

/-! ### Two clips -/

theorem track_twoClips_second : Track twoClips ⟨2, 0⟩
    ⟨.video, [⟨3, 0⟩, ⟨4, 0⟩], false, false, 3, 0, some ⟨1, 0⟩⟩
    ([(⟨3, 0⟩, anchoredClip 0)] ++ (⟨4, 0⟩, anchoredClip 10) :: []) := track_twoClips

theorem sorted_twoClips_second : Timeline.Sorted
    ([(⟨3, 0⟩, anchoredClip 0)] ++ (⟨4, 0⟩, anchoredClip 10) :: []) := sorted_twoClips

/-- The second of two clips slides two seconds on, and the first one follows. -/
theorem slidesExactly_iff_on : SlidesExactly (fun _ => some 10) twoClips ⟨2, 0⟩
    ⟨.video, [⟨3, 0⟩, ⟨4, 0⟩], false, false, 3, 0, some ⟨1, 0⟩⟩ [(⟨3, 0⟩, anchoredClip 0)] ⟨4, 0⟩
    ⟨⟨10, 10 + 10⟩, 10, 1, false, [], true, false, 0, some ⟨2, 0⟩⟩ [] 120
    (tsToRational (max 120 0) (1, 10)) := by
  have htb : (sequenceOf twoClips ⟨4, 0⟩).bind (sequenceTimeBase fun _ => some 10) =
      some (1, 10) := by decide
  refine (slidesExactly_iff track_twoClips_second sorted_twoClips_second rfl htb
    (by decide +kernel)).2 fun _ => ⟨fun l hl => ?_, ?_⟩
  · obtain rfl := Option.some.inj hl
    refine ⟨?_, fun clip hclip => ?_⟩
    · norm_num [inOf, outOf, anchoredClip, Behavior.blockCore, BlockCore.in_, BlockCore.out,
        tsToRational]
    · rw [← Behavior.clip.inj hclip]
  · exact fun r hr => absurd hr (by simp)

/-- The second of two clips slides to the start of the first one, and lies over it. -/
theorem slide_covers : ¬ SlidesExactly (fun _ => some 10) twoClips ⟨2, 0⟩
    ⟨.video, [⟨3, 0⟩, ⟨4, 0⟩], false, false, 3, 0, some ⟨1, 0⟩⟩ [(⟨3, 0⟩, anchoredClip 0)] ⟨4, 0⟩
    ⟨⟨10, 10 + 10⟩, 10, 1, false, [], true, false, 0, some ⟨2, 0⟩⟩ [] 0 0 := by
  have htb : (sequenceOf twoClips ⟨4, 0⟩).bind (sequenceTimeBase fun _ => some 10) =
      some (1, 10) := by decide
  have hnew : tsToRational (max 0 0) (1, 10) = 0 := by norm_num [tsToRational]
  rw [slidesExactly_of_moved track_twoClips_second sorted_twoClips_second rfl htb hnew
    (by norm_num [BlockCore.in_])]
  rintro ⟨hleft, -⟩
  have hpos := (hleft (⟨3, 0⟩, anchoredClip 0) rfl).positive
  norm_num [inOf, outOf, anchoredClip, Behavior.blockCore, BlockCore.in_, BlockCore.out] at hpos

end Oak.App
