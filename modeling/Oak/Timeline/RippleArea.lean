import Oak.Timeline.RippleRedo
import Oak.Timeline.Shown

/-!
# What clearing an area leaves

The first redo of `TrackRippleRemoveAreaCommand` on a track whose blocks are in order.

* `Outcome g a c blocks blocks'`: what becomes of the blocks of a track, for every way in which they
  lie around the area from `a` to `c`.

## Main results

* `exists_outcome`: the blocks after the first redo.
* `Outcome.sorted`: they are in order.
-/

namespace Oak.Timeline

open Oak.Core Oak.Node Oak.Undo TrackRippleRemoveAreaCommand

variable {F β : Type*} [ClipSpeed F] {g : ProjectGraph F β} {track x : NodeId}
  {t : TrackBehavior F} {b : Behavior F β} {core : BlockCore F} {p : NodeId × Behavior F β}
  {blocks blocks' pre post head mid cut rest : List (NodeId × Behavior F β)} {a c : Rational}

/-! ### The blocks after the first redo -/

/-- What the blocks of a track become. -/
inductive Outcome [NodeBehavior F β] (g : ProjectGraph F β) (a c : Rational) :
    List (NodeId × Behavior F β) → List (NodeId × Behavior F β) → Prop
  | hole {blocks : List (NodeId × Behavior F β)} (hlt : ∀ p ∈ blocks, a < inOf p.2) :
      Outcome g a c blocks blocks
  | kept {head mid cut rest : List (NodeId × Behavior F β)} (harea : Area head mid cut rest a c)
      (hfirst : FirstAt a (mid ++ (cut ++ rest))) :
      Outcome g a c (head ++ (mid ++ (cut ++ rest))) (head ++ (cut.map (trimStart c) ++ rest))
  | trimmed {init mid cut rest : List (NodeId × Behavior F β)} {p : NodeId × Behavior F β}
      (harea : Area (init ++ [p]) mid cut rest a c)
      (hfirst : ¬ FirstAt a (mid ++ (cut ++ rest))) :
      Outcome g a c (init ++ [p] ++ (mid ++ (cut ++ rest)))
        (init ++ [trimEnd a p] ++ (cut.map (trimStart c) ++ rest))
  | gap {pre post : List (NodeId × Behavior F β)} {p : NodeId × Behavior F β}
      (hin : inOf p.2 < a) (hout : c < outOf p.2) (hgap : isGapBlock p.2 = true) :
      Outcome g a c (pre ++ p :: post) (pre ++ trimEnd (outOf p.2 - (c - a)) p :: post)
  | refused {pre post : List (NodeId × Behavior F β)} {p : NodeId × Behavior F β}
      (hin : inOf p.2 < a) (hout : c < outOf p.2) (hcopy : ¬ g.Copyable p.1) :
      Outcome g a c (pre ++ p :: post) (pre ++ p :: post)
  | splice {pre post : List (NodeId × Behavior F β)} {p : NodeId × Behavior F β} (new : NodeId)
      (hin : inOf p.2 < a) (hout : c < outOf p.2) (hcopy : g.Copyable p.1) :
      Outcome g a c (pre ++ p :: post) (pre ++ trimEnd a p :: resumed a c new p :: post)

variable [NodeBehavior F β] (order : List NodeId → List NodeId)
  {carried : List (NodeId × NodeId)} {range : TimeRange} (allow : Bool)

theorem redo_new {c : TrackRippleRemoveAreaCommand F β} (hnew : c.prepared = false)
    (hprepared : (c.prepare g).prepared = true) : c.redo order g = (c.prepare g).redo order g := by
  rw [redo, redo, hnew, hprepared]
  rfl

theorem Splittable.track_redo (h : Splittable g carried track t pre x b post)
    (hcopyable : g.Copyable x) (hcore : b.blockCore = some core) {point : Rational}
    (hin : core.in_ ≤ point) (hout : point ≤ core.out) :
    ∃ new others edges g', (BlockSplitCommand.new x point).redo order g =
        (⟨x, point, some new, new :: others, edges, (new :: others).map fun _ => none,
          core.length⟩, g') ∧
      x ∉ others ∧
      Track g' track { t with blocks := pre.map Prod.fst ++ x :: new :: post.map Prod.fst }
        (pre ++ (x, b.modifyCore (firstHalf point)) :: (new, b.modifyCore (secondHalf point)) ::
          post) := by
  obtain ⟨new, s, others, edges, g', hcopying, hfresh, hothers, hredo, hbehavior⟩ :=
    redo_copied order h hcopyable hcore hin hout
  have hne {y : NodeId} {d : Behavior F β} (hy : g.behaviorOf y = some d) : y ≠ new := by
    rintro rfl
    rw [Graph.behaviorOf, hfresh] at hy
    exact absurd hy (by simp)
  have hxtrack : x ≠ track := h.track.ne_track (p := (x, b)) (by simp)
  obtain ⟨core', hcore', -, howner⟩ := h.track.exists_core
  obtain rfl := Option.some.inj (hcore.symm.trans hcore')
  have hfirst : g'.behaviorOf x = some (b.modifyCore (firstHalf point)) := by
    rw [hbehavior, if_neg hxtrack, if_neg (hne h.track.behaviorOf), if_pos rfl]
  have hsecond : g'.behaviorOf new = some (b.modifyCore (secondHalf point)) := by
    rw [hbehavior, if_neg (Ne.symm (hne h.track.behavior)), if_pos rfl]
  refine ⟨new, others, edges, g', hredo, fun hmem => ?_, ?_, by simp, ?_, fun p hp => ?_⟩
  · have hx := h.track.behaviorOf
    rw [Graph.behaviorOf, hothers x hmem] at hx
    exact absurd hx (by simp)
  · rw [hbehavior, if_pos rfl]
  · have hnotMem : new ∉ (pre ++ (x, b) :: post).map Prod.fst := by
      intro hmem
      obtain ⟨p, hp, rfl⟩ := List.mem_map.1 hmem
      exact hne (h.track.block p hp).1 rfl
    have hnodup : (new :: (pre ++ (x, b) :: post).map Prod.fst).Nodup :=
      List.nodup_cons.2 ⟨hnotMem, h.track.nodup⟩
    have hperm : ((pre ++ (x, b.modifyCore (firstHalf point)) ::
        (new, b.modifyCore (secondHalf point)) :: post).map Prod.fst).Perm
          (new :: (pre ++ (x, b) :: post).map Prod.fst) := by
      have hmiddle : (pre.map Prod.fst ++ [x] ++ new :: post.map Prod.fst).Perm
          (new :: (pre.map Prod.fst ++ [x] ++ post.map Prod.fst)) := List.perm_middle
      simpa using hmiddle
    exact hperm.nodup_iff.2 hnodup
  · have hother (hp : p ∈ pre ++ post) : g'.behaviorOf p.1 = some p.2 ∧
        ∃ core, p.2.blockCore = some core ∧ core.track = some track := by
      have hmem : p ∈ pre ++ (x, b) :: post :=
        ((List.sublist_cons_self _ _).append_left _).subset hp
      obtain ⟨hb, hc⟩ := h.track.block p hmem
      refine ⟨?_, hc⟩
      rw [hbehavior, if_neg (h.track.ne_track hmem), if_neg (hne hb),
        if_neg (h.track.fst_ne hp)]
      exact behaviorOf_copying hcopying hb
    rcases List.mem_append.1 hp with hp | hp
    · exact hother (List.mem_append_left _ hp)
    rcases List.mem_cons.1 hp with rfl | hp
    · exact ⟨hfirst, firstHalf point core, by rw [Behavior.blockCore_modifyCore, hcore]; rfl,
        howner⟩
    rcases List.mem_cons.1 hp with rfl | hp
    · exact ⟨hsecond, secondHalf point core, by rw [Behavior.blockCore_modifyCore, hcore]; rfl,
        howner⟩
    · exact hother (List.mem_append_right _ hp)

/-- The blocks of a track after the blocks in the area were removed. -/
theorem track_redo_area {c : TrackRippleRemoveAreaCommand F β} {before : Option NodeId}
    (hprepared : c.prepared = true) (hsplice : c.spliceSplitCommand = none)
    (hremovals : c.removals = removalsOf before mid) (hcommands : c.removeBlockCommands = [])
    (h : Track (c.trims TrimOperation.newLength g) c.track t (pre ++ (mid ++ post))) :
    Track (c.redo order g).2 c.track { t with blocks := (pre ++ post).map Prod.fst }
      (pre ++ post) := by
  obtain ⟨ps, g', hredo, -, hwithout⟩ :=
    redo_prepared order hprepared hsplice hremovals (.inl hcommands) h
  rw [hredo]
  have hnodup : ((mid ++ (pre ++ post)).map Prod.fst).Nodup := by
    refine (List.Perm.map _ ?_).nodup_iff.1 h.nodup
    rw [← List.append_assoc, ← List.append_assoc]
    exact List.perm_append_comm.append_right post
  rw [List.map_append] at hnodup
  have hnot {p : NodeId × Behavior F β} (hp : p ∈ pre ++ post) : p.1 ∉ mid.map Prod.fst :=
    fun hmid => List.disjoint_of_nodup_append hnodup hmid (List.mem_map_of_mem hp)
  have hmem {p : NodeId × Behavior F β} (hp : p ∈ pre ++ post) : p ∈ pre ++ (mid ++ post) :=
    ((List.sublist_append_right _ _).append_left _).subset hp
  have hids {y : NodeId} (hy : y ∉ mid.map Prod.fst) : y ∉ removable g mid :=
    fun hmem => hy (List.mem_filter.1 hmem).1
  refine ⟨?_, rfl, ?_, fun p hp => ?_⟩
  · have htrack : c.track ∉ mid.map Prod.fst := by
      intro hmid
      obtain ⟨q, hq, heq⟩ := List.mem_map.1 hmid
      exact h.ne_track (p := q) (by simp [hq]) heq
    rw [hwithout.behaviorOf, if_neg (hids htrack), hremovals, h.behaviorOf_rippleRemoveAll,
      if_pos rfl]
  · exact h.nodup.sublist (((List.sublist_append_right _ _).append_left _).map _)
  · rw [hwithout.behaviorOf, if_neg (hids (hnot hp)), hremovals, h.behaviorOf_rippleRemoveAll,
      if_neg (h.ne_track (hmem hp)), if_neg (hnot hp)]
    exact h.block p (hmem hp)

omit [ClipSpeed F] [NodeBehavior F β] in
theorem Track.trimEnd (h : Track g track t (pre ++ p :: post)) (a : Rational) :
    Track (blockSetLengthAndMediaIn g p.1 (a - inOf p.2)) track t (pre ++ trimEnd a p :: post) :=
  h.modifyBlock fun _ => rfl

omit [ClipSpeed F] [NodeBehavior F β] in
theorem Track.trimStart (h : Track g track t (pre ++ p :: post)) (c : Rational) :
    Track (blockSetLengthAndMediaOut g p.1 (outOf p.2 - c)) track t
      (pre ++ trimStart c p :: post) :=
  h.modifyBlock fun _ => rfl

/-- All blocks begin behind the start of the area, so that nothing is derived. -/
theorem redo_of_lt (h : Track g track t blocks) (hsorted : Sorted blocks)
    (hlt : ∀ p ∈ blocks, range.in_ < inOf p.2) :
    (new track range allow : TrackRippleRemoveAreaCommand F β).redo order g =
      (new track range allow, g) := by
  have hprepare : (new track range allow : TrackRippleRemoveAreaCommand F β).prepare g =
      new track range allow := prepare_of_lt allow h hsorted hlt
  rw [redo, if_neg (by simp [new]), hprepare]
  rfl

/-- A gap that spans the area is trimmed, unless gaps may be split. -/
theorem redo_of_gap (h : Track g track t (pre ++ (x, b) :: post))
    (hsorted : Sorted (pre ++ (x, b) :: post)) (hrange : range.in_ < range.out)
    (hin : inOf b < range.in_) (hout : range.out < outOf b) (hgap : allow = false ∧ isGap g x) :
    ((new track range allow : TrackRippleRemoveAreaCommand F β).redo order g).2 =
      blockSetLengthAndMediaIn g x (outOf b - (range.out - range.in_) - inOf b) := by
  have hprepare := prepare_of_span allow h hsorted hrange hin hout
  rw [if_pos hgap] at hprepare
  have hlength : outOf b - inOf b - range.length =
      outOf b - (range.out - range.in_) - inOf b := by
    rw [TimeRange.length]
    ring
  rw [redo_new order rfl (by rw [hprepare]), hprepare, ← hlength]
  rfl

theorem redo_splice {c : TrackRippleRemoveAreaCommand F β} {cmd : BlockSplitCommand F β}
    (hprepared : c.prepared = true) (hsplice : c.spliceSplitCommand = some cmd) :
    (c.redo order g).2 =
      (cmd.redo order g).1.newBlock.elim (cmd.redo order g).2 fun new =>
        blockSetLengthAndMediaIn (cmd.redo order g).2 new
          (blockLength (cmd.redo order g).2 new -
            (c.range.out - blockIn (cmd.redo order g).2 new)) := by
  rw [redo, if_pos hprepared]
  dsimp only
  rw [hsplice]
  dsimp only
  rcases (cmd.redo order g).1.newBlock with _ | new
  · rfl
  · rfl

omit [ClipSpeed F] [NodeBehavior F β] in
theorem trimEnd_firstHalf (hcore : b.blockCore = some core) (ha : core.in_ ≤ a) :
    trimEnd a (x, b) = (x, b.modifyCore (firstHalf a)) := by
  rw [trimEnd_eq (p := (x, b)) hcore (inOf_eq hcore ▸ ha), inOf_eq hcore]
  exact congrArg (Prod.mk x) (Behavior.modifyCore_congr hcore rfl)

omit [ClipSpeed F] [NodeBehavior F β] in
theorem trimEnd_secondHalf (hcore : b.blockCore = some core) (ha : a ≤ c) :
    trimEnd c (x, b.modifyCore (secondHalf a)) = (x, b.modifyCore (replaced ⟨a, c⟩ a)) := by
  have hsecond : (b.modifyCore (secondHalf a)).blockCore = some (secondHalf a core) := by
    rw [Behavior.blockCore_modifyCore, hcore, Option.map_some]
  have hin : inOf (b.modifyCore (secondHalf a)) = a := inOf_eq hsecond
  have htrim := trimEnd_eq (p := (x, b.modifyCore (secondHalf a))) hsecond (hin.trans_le ha)
  rw [htrim, hin, Behavior.modifyCore_modifyCore]
  rfl

omit [ClipSpeed F] [NodeBehavior F β] in
/-- The second half of a split, trimmed by the rest of the area. -/
theorem track_trim_second {new : NodeId}
    (h : Track g track t (pre ++ (x, b.modifyCore (firstHalf range.in_)) ::
      (new, b.modifyCore (secondHalf range.in_)) :: post))
    (hcore : b.blockCore = some core) (hlate : range.in_ ≤ outOf b - (range.out - range.in_)) :
    Track (blockSetLengthAndMediaIn g new (blockLength g new - (range.out - blockIn g new))) track t
      (pre ++ (x, b.modifyCore (firstHalf range.in_)) :: (new, b.modifyCore
        (replaced ⟨range.in_, outOf b - (range.out - range.in_)⟩ range.in_)) :: post) := by
  have hcore' : (b.modifyCore (secondHalf range.in_)).blockCore =
      some (secondHalf range.in_ core) := by
    rw [Behavior.blockCore_modifyCore, hcore, Option.map_some]
  have hstart : inOf (b.modifyCore (secondHalf range.in_)) = range.in_ := inOf_eq hcore'
  have hend : outOf (b.modifyCore (secondHalf range.in_)) = outOf b := by
    rw [outOf_eq hcore', outOf_eq hcore]
    rfl
  have hlength : outOf b - range.in_ - (range.out - range.in_) =
      outOf b - (range.out - range.in_) - range.in_ := by ring
  rw [List.append_cons] at h
  have hbehavior := h.behaviorOf
  have htrimmed := h.trimEnd (outOf b - (range.out - range.in_))
  rw [trimEnd_secondHalf hcore hlate, ← List.append_cons] at htrimmed
  dsimp only at htrimmed
  rw [hstart, ← hlength] at htrimmed
  rw [blockLength_eq_sub hbehavior, blockIn_eq_inOf hbehavior, hstart, hend]
  exact htrimmed

/-- Another block that spans the area is split, and its second half begins where the area begins. -/
theorem track_redo_splice (h : Splittable g carried track t pre x b post)
    (hsorted : Sorted (pre ++ (x, b) :: post)) (hrange : range.in_ < range.out)
    (hin : inOf b < range.in_) (hout : range.out < outOf b)
    (hgap : ¬ (allow = false ∧ isGap g x)) :
    ∃ blocks', Outcome g range.in_ range.out (pre ++ (x, b) :: post) blocks' ∧
      Track ((new track range allow : TrackRippleRemoveAreaCommand F β).redo order g).2 track
        { t with blocks := blocks'.map Prod.fst } blocks' := by
  have hprepare := prepare_of_span allow h.track hsorted hrange hin hout
  rw [if_neg hgap] at hprepare
  rw [redo_new order rfl (by rw [hprepare]), hprepare]
  obtain ⟨core, hcore, -, -⟩ := h.track.exists_core
  by_cases hcopyable : g.Copyable x
  · have hin' : core.in_ ≤ range.in_ := inOf_eq hcore ▸ hin.le
    have hout' : range.in_ ≤ core.out := outOf_eq hcore ▸ (hrange.trans hout).le
    obtain ⟨new, others, edges, g', hsplit, -, htrack⟩ :=
      h.track_redo order hcopyable hcore hin' hout'
    refine ⟨_, .splice (p := (x, b)) new hin hout hcopyable, ?_⟩
    have hlate : range.in_ ≤ outOf b - (range.out - range.in_) := by linarith
    have htrimmed := track_trim_second htrack hcore hlate
    have hblocks : pre.map Prod.fst ++ x :: new :: post.map Prod.fst =
        (pre ++ (x, b.modifyCore (firstHalf range.in_)) :: (new, b.modifyCore
          (replaced ⟨range.in_, outOf b - (range.out - range.in_)⟩ range.in_)) :: post).map
            Prod.fst := by
      rw [List.map_append, List.map_cons, List.map_cons]
    rw [hblocks] at htrimmed
    rw [redo_splice order rfl rfl, hsplit, Option.elim_some, trimEnd_firstHalf hcore hin']
    exact htrimmed
  · obtain ⟨new, s, hcopying, -, -, hsplit⟩ := redo_refused order h hcopyable range.in_
    refine ⟨_, .refused (p := (x, b)) hin hout hcopyable, ?_⟩
    rw [redo_splice order rfl rfl, hsplit, ← h.track.order]
    exact h.track.congr ((behaviorOf_copying hcopying h.track.behavior).trans
      h.track.behavior.symm) fun p hp => (behaviorOf_copying hcopying (h.track.block p hp).1).trans
        (h.track.block p hp).1.symm

theorem track_redo_of_area (h : Track g track t (head ++ (mid ++ (cut ++ rest))))
    (hsorted : Sorted (head ++ (mid ++ (cut ++ rest)))) (hrange : range.in_ < range.out)
    (harea : Area head mid cut rest range.in_ range.out)
    (hsome : ∃ p ∈ head ++ (mid ++ (cut ++ rest)), inOf p.2 ≤ range.in_) :
    ∃ blocks', Outcome g range.in_ range.out (head ++ (mid ++ (cut ++ rest))) blocks' ∧
      Track ((new track range allow : TrackRippleRemoveAreaCommand F β).redo order g).2 track
        { t with blocks := blocks'.map Prod.fst } blocks' := by
  obtain ⟨trimOut, previous, hprepare, hfirst⟩ :=
    prepare_of_area allow h hsorted hrange harea hsome
  rw [redo_new order rfl (by rw [hprepare]), hprepare]
  -- the end of the area
  have hcut {g : ProjectGraph F β} {front : List (NodeId × Behavior F β)}
      (hfront : Track g track t (front ++ (mid ++ (cut ++ rest)))) :
      Track ((cut.head?.map (trimInOf range.out)).elim g fun o =>
          blockSetLengthAndMediaOut g o.block o.newLength) track t
        (front ++ (mid ++ (cut.map (trimStart range.out) ++ rest))) := by
    rcases cut with _ | ⟨q, _ | ⟨q', cut⟩⟩
    · exact hfront
    · rw [← List.append_assoc] at hfront ⊢
      exact hfront.trimStart range.out
    · exact absurd harea.cut_length (by simp)
  rcases hfirst with ⟨hfirst, rfl⟩ | ⟨hfirst, init, p, rfl, rfl⟩
  · exact ⟨_, .kept harea hfirst, track_redo_area order rfl rfl rfl rfl (hcut h)⟩
  · have htrim : Track (blockSetLengthAndMediaIn g p.1 (range.in_ - inOf p.2)) track t
        (init ++ [Timeline.trimEnd range.in_ p] ++ (mid ++ (cut ++ rest))) := by
      rw [← List.append_cons] at h ⊢
      exact h.trimEnd range.in_
    exact ⟨_, .trimmed harea hfirst, track_redo_area order rfl rfl rfl rfl (hcut htrim)⟩

/-- The blocks after the first redo. -/
theorem exists_outcome (hsound : g.Sound carried) (hroom : g.HasRoom)
    (h : Track g track t blocks) (hsorted : Sorted blocks) (hrange : range.in_ < range.out)
    (hitems : ∀ p ∈ blocks, ∀ entry, g.get p.1 = some entry →
      entry.core.flags &&& NodeFlags.isItem = 0) :
    ∃ blocks', Outcome g range.in_ range.out blocks blocks' ∧
      Track ((new track range allow : TrackRippleRemoveAreaCommand F β).redo order g).2 track
        { t with blocks := blocks'.map Prod.fst } blocks' := by
  by_cases hlt : ∀ p ∈ blocks, range.in_ < inOf p.2
  · refine ⟨_, .hole hlt, ?_⟩
    rw [redo_of_lt order allow h hsorted hlt, ← h.order]
    exact h
  rcases exists_area hsorted range.in_ range.out with
    ⟨pre, ⟨x, b⟩, post, rfl, hin, hout⟩ | ⟨head, mid, cut, rest, rfl, harea⟩
  · by_cases hgap : allow = false ∧ isGap g x
    · have hkind : isGapBlock b = true :=
        (blockKind_eq_gap_iff h.behaviorOf).1 (of_decide_eq_true hgap.2)
      refine ⟨_, .gap (p := (x, b)) hin hout hkind, ?_⟩
      rw [redo_of_gap order allow h hsorted hrange hin hout hgap]
      have htrim := h.trimEnd (outOf b - (range.out - range.in_))
      have hblocks : t.blocks = (pre ++ Timeline.trimEnd (outOf b - (range.out - range.in_)) (x, b)
          :: post).map Prod.fst := by
        rw [h.order, List.map_append, List.map_append]
        rfl
      rw [← hblocks]
      exact htrim
    · exact track_redo_splice order allow ⟨hsound, hroom, h, hitems (x, b) (by simp)⟩ hsorted
        hrange hin hout hgap
  · refine track_redo_of_area order allow h hsorted hrange harea ?_
    by_contra hnone
    exact hlt fun p hp => not_le.1 fun hle => hnone ⟨p, hp, hle⟩

/-! ### The blocks stay in order -/

omit [ClipSpeed F] [NodeBehavior F β] in
/-- A block can be trimmed to end before the next one begins. -/
theorem sorted_trimEnd (h : Sorted (pre ++ [p])) (hpost : Sorted post) (ha : inOf p.2 < a)
    (hnext : ∀ q ∈ post, a ≤ inOf q.2) : Sorted (pre ++ trimEnd a p :: post) := by
  obtain ⟨hpre, hp, hbehind⟩ := sorted_append.1 h
  have hlt := hp.1 p List.mem_cons_self
  have hin := inOf_trimEnd hlt ha.le
  have hout := outOf_trimEnd hlt ha.le
  refine sorted_append.2 ⟨hpre, sorted_cons.2 ⟨?_, hpost, fun q hq => ?_⟩, fun r hr q hq => ?_⟩
  · rw [hin, hout]
    exact ha
  · rw [hout]
    exact hnext q hq
  · have hle := hbehind r hr p List.mem_cons_self
    rcases List.mem_cons.1 hq with rfl | hq
    · rw [hin]
      exact hle
    · exact hle.trans (ha.le.trans (hnext q hq))

omit [ClipSpeed F] [NodeBehavior F β] in
theorem sorted_behind (h : Sorted (mid ++ (cut ++ rest))) (harea : Area head mid cut rest a c) :
    Sorted (cut.map (trimStart c) ++ rest) ∧
      ∀ q ∈ cut.map (trimStart c) ++ rest, c ≤ inOf q.2 := by
  obtain ⟨-, hcutrest, -⟩ := sorted_append.1 h
  obtain ⟨hcut, hrest, hbehind⟩ := sorted_append.1 hcutrest
  have hends : ∀ q ∈ cut, inOf (trimStart c q).2 = c ∧ outOf (trimStart c q).2 = outOf q.2 :=
    fun q hq => ⟨inOf_trimStart (hcut.1 q hq) (harea.cut_out q hq).2.le,
      outOf_trimStart (hcut.1 q hq) (harea.cut_out q hq).2.le⟩
  constructor
  · refine sorted_append.2 ⟨⟨fun q' hq' => ?_, ?_⟩, hrest, fun q' hq' r hr => ?_⟩
    · obtain ⟨q, hq, rfl⟩ := List.mem_map.1 hq'
      rw [(hends q hq).1, (hends q hq).2]
      exact (harea.cut_out q hq).2
    · have hlength := harea.cut_length
      rcases cut with _ | ⟨q, _ | ⟨q', cut⟩⟩
      · exact .nil
      · exact List.pairwise_singleton _ _
      · exact absurd hlength (by simp)
    · obtain ⟨q, hq, rfl⟩ := List.mem_map.1 hq'
      rw [(hends q hq).2]
      exact hbehind q hq r hr
  · refine List.forall_mem_append.2 ⟨fun q' hq' => ?_, harea.rest_in⟩
    obtain ⟨q, hq, rfl⟩ := List.mem_map.1 hq'
    exact (hends q hq).1.ge

omit [ClipSpeed F] [NodeBehavior F β] in
theorem around_span (h : Sorted (pre ++ p :: post)) (hin : inOf p.2 < a) (hout : c < outOf p.2) :
    (∀ q ∈ pre, inOf q.2 < outOf q.2 ∧ outOf q.2 < a) ∧
      ∀ q ∈ post, c < inOf q.2 ∧ inOf q.2 < outOf q.2 := by
  obtain ⟨hpre, htail, hbehind⟩ := sorted_append.1 h
  obtain ⟨-, hpost, hnext⟩ := sorted_cons.1 htail
  exact ⟨fun q hq => ⟨hpre.1 q hq, (hbehind q hq p List.mem_cons_self).trans_lt hin⟩,
    fun q hq => ⟨hout.trans_le (hnext q hq), hpost.1 q hq⟩⟩

theorem Outcome.sorted (ho : Outcome g a c blocks blocks') (hac : a < c) (h : Sorted blocks) :
    Sorted blocks' := by
  cases ho with
  | hole => exact h
  | kept harea hfirst =>
    obtain ⟨hhead, htail, -⟩ := sorted_append.1 h
    obtain ⟨hsorted, hin⟩ := sorted_behind htail harea
    exact sorted_append.2 ⟨hhead, hsorted, fun p hp q hq => (harea.head_out p hp).trans (hin q hq)⟩
  | trimmed harea hfirst =>
    obtain ⟨hhead, htail, -⟩ := sorted_append.1 h
    obtain ⟨hsorted, hin⟩ := sorted_behind htail harea
    rw [← List.append_cons]
    exact sorted_trimEnd hhead hsorted (harea.head_in _ (by simp)) fun q hq =>
      hac.le.trans (hin q hq)
  | gap hin hout hgap =>
    rw [List.append_cons] at h
    obtain ⟨hpre, hpost, hbehind⟩ := sorted_append.1 h
    refine sorted_trimEnd hpre hpost (by linarith) fun q hq => ?_
    have hle := hbehind _ (List.mem_append_right _ (List.mem_singleton_self _)) q hq
    linarith
  | refused => exact h
  | @splice pre post p new hin hout hcopy =>
    rw [List.append_cons] at h
    obtain ⟨hpre, hpost, hbehind⟩ := sorted_append.1 h
    have hp := hpre.1 p (by simp)
    have hstart := inOf_resumed (a := a) (c := c) hp new
    have hend := outOf_resumed (a := a) (c := c) hp new
    have hnext : ∀ q ∈ post, outOf p.2 ≤ inOf q.2 :=
      hbehind p (List.mem_append_right _ (List.mem_singleton_self p))
    refine sorted_trimEnd hpre (sorted_cons.2 ⟨?_, hpost, fun q hq => ?_⟩) hin fun q hq => ?_
    · rw [hstart, hend]
      linarith
    · rw [hend]
      linarith [hnext q hq]
    · rcases List.mem_cons.1 hq with rfl | hq
      · rw [hstart]
      · linarith [hnext q hq]

end Oak.Timeline
