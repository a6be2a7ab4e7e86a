import Oak.Timeline.Common

/-!
# Track lists

The track lists of `oak-timeline/src/util.rs`, and the command of `undogeneral.rs` that adds a track
to one.

* `Detached g id entry` says that the slot of a node that was taken out, with its entry, is still
  free.

## Main results

* `addTracks_spec`: new tracks.
* `redoAll_spec`, `undoAll_spec`: adding the tracks to their list, and taking them out of it.
-/

namespace Oak.Timeline

open Oak.Core Oak.Node Oak.Undo
open Graph

variable {F β : Type*}

/-- `TrackBehavior::new`; the default height is `3.0`. -/
def newTrackBehavior [OfNat F 3] (kind : TrackType) : TrackBehavior F :=
  ⟨kind, [], false, false, 3, 0, none⟩

/-- `tracklist_behavior_of`. -/
def trackListBehaviorOf (g : ProjectGraph F β) (id : NodeId) : Option TrackListBehavior :=
  match g.behaviorOf id with
  | some (.trackList l) => some l
  | _ => none

/-- `track_behavior_of_mut`: a track is changed by `f`. -/
def modifyTrack (g : ProjectGraph F β) (f : TrackBehavior F → TrackBehavior F) (track : NodeId) :
    ProjectGraph F β :=
  g.modifyBehavior (fun b => match b with
    | .track t => .track (f t)
    | b => b) track

/-- `tracklist_track_count`. -/
def tracklistTrackCount (g : ProjectGraph F β) (list : NodeId) : ℕ :=
  ((trackListBehaviorOf g list).map fun l => l.tracks.length).getD 0

/-- `tracklist_track_at`. -/
def tracklistTrackAt (g : ProjectGraph F β) (list : NodeId) (index : ℕ) : Option NodeId :=
  (trackListBehaviorOf g list).bind fun l => l.tracks[index]?

/-- `tracklist_type`. -/
def tracklistType (g : ProjectGraph F β) (list : NodeId) : Option TrackType :=
  (trackListBehaviorOf g list).map TrackListBehavior.kind

/-- `track_create`. -/
def trackCreate [OfNat F 3] (g : ProjectGraph F β) (kind : TrackType) : ProjectGraph F β × NodeId :=
  g.addNode .new (.track (newTrackBehavior kind))

/-- `tracklist_append`. -/
def tracklistAppend (g : ProjectGraph F β) (list track : NodeId) : ProjectGraph F β :=
  match trackListBehaviorOf g list with
  | none => g
  | some l =>
    let g := g.modifyBehavior (fun _ => .trackList { l with tracks := l.tracks ++ [track] }) list
    let index := toI32 (l.tracks.length + 1) - 1
    if 0 ≤ index then
      modifyTrack g (fun t => { t with
        trackList := some list
        index := index }) track
    else g

/-- The loop of `tracklist_remove`: the tracks are numbered from `index` on. -/
def renumber : ℕ → List NodeId → ProjectGraph F β → ProjectGraph F β
  | _, [], g => g
  | index, track :: tracks, g =>
    renumber (index + 1) tracks (modifyTrack g (fun t => { t with index := toI32 index }) track)

/-- `tracklist_remove`. -/
def tracklistRemove (g : ProjectGraph F β) (list track : NodeId) : ProjectGraph F β :=
  match trackListBehaviorOf g list with
  | none => g
  | some l =>
    let tracks := l.tracks.filter fun t => t ≠ track
    renumber 0 tracks (g.modifyBehavior (fun _ => .trackList { l with tracks := tracks }) list)

/-- `track_append_block`. -/
def trackAppendBlock (g : ProjectGraph F β) (track block : NodeId) : ProjectGraph F β :=
  match trackBehaviorOf g track with
  | none => g
  | some t =>
    setTrack (g.modifyBehavior (fun _ => .track { t with blocks := t.blocks ++ [block] }) track)
      block (some track)

/-- `track_length`: the end of the last block to end, at least 0. -/
def trackLength (g : ProjectGraph F β) (track : NodeId) : Rational :=
  ((trackBehaviorOf g track).map fun t =>
    t.blocks.foldl (fun end_ b => if end_ < blockOut g b then blockOut g b else end_) 0).getD 0

/-- `TimelineAddTrackCommand`. -/
structure TimelineAddTrackCommand (F β : Type*) where
  timeline : NodeId
  track : NodeId
  /-- The entry of the track while it is detached. -/
  trackEntry : Option (NodeEntry F (Behavior F β))

namespace TimelineAddTrackCommand

/-- `new`: the track is created with the command. -/
def new [OfNat F 3] (timeline : NodeId) (g : ProjectGraph F β) :
    TimelineAddTrackCommand F β × ProjectGraph F β :=
  let created := trackCreate g ((tracklistType g timeline).getD .video)
  (⟨timeline, created.2, none⟩, created.1)

/-- `redo`. -/
def redo (c : TimelineAddTrackCommand F β) (g : ProjectGraph F β) :
    TimelineAddTrackCommand F β × ProjectGraph F β :=
  ({ c with trackEntry := none },
    tracklistAppend (blockAddToGraph g c.track c.trackEntry) c.timeline c.track)

/-- `undo`. -/
def undo (c : TimelineAddTrackCommand F β) (g : ProjectGraph F β) :
    TimelineAddTrackCommand F β × ProjectGraph F β :=
  let g := tracklistRemove g c.timeline c.track
  match c.trackEntry with
  | some _ => (c, g)
  | none =>
    ({ c with trackEntry := (blockRemoveFromGraph g c.track).1 },
      (blockRemoveFromGraph g c.track).2)

/-- `n` commands, each with a new track. -/
def addTracks [OfNat F 3] (timeline : NodeId) :
    ℕ → ProjectGraph F β → List (TimelineAddTrackCommand F β) × ProjectGraph F β
  | 0, g => ([], g)
  | n + 1, g =>
    let first := new timeline g
    let others := addTracks timeline n first.2
    (first.1 :: others.1, others.2)

/-- Commands are redone in order. -/
def redoAll : List (TimelineAddTrackCommand F β) → ProjectGraph F β →
    List (TimelineAddTrackCommand F β) × ProjectGraph F β
  | [], g => ([], g)
  | c :: cs, g =>
    let first := c.redo g
    let others := redoAll cs first.2
    (first.1 :: others.1, others.2)

/-- Commands are undone in reverse order. -/
def undoAll : List (TimelineAddTrackCommand F β) → ProjectGraph F β →
    List (TimelineAddTrackCommand F β) × ProjectGraph F β
  | [], g => ([], g)
  | c :: cs, g =>
    let others := undoAll cs g
    let first := c.undo others.2
    (first.1 :: others.1, first.2)

end TimelineAddTrackCommand

variable {g g' : ProjectGraph F β} {list track x y : NodeId} {l : TrackListBehavior}
  {t : TrackBehavior F} {b : Behavior F β} {entry : NodeEntry F (Behavior F β)}

theorem trackListBehaviorOf_eq (h : g.behaviorOf list = some (.trackList l)) :
    trackListBehaviorOf g list = some l := by
  rw [trackListBehaviorOf, h]

/-! ### Nodes that leave the graph and come back -/

/-- A node was taken out with its entry, and its slot is still free. -/
structure Detached (g : ProjectGraph F β) (id : NodeId) (entry : NodeEntry F (Behavior F β)) :
    Prop where
  vacant : ∃ n, g.entries[id.index]? = some (.vacant n)
  valid : id.valid = true
  generation : entry.generation = id.generation

theorem Detached.congr (h : Detached g x entry)
    (hvacant : ∀ n, g.entries[x.index]? = some (.vacant n) →
      ∃ m, g'.entries[x.index]? = some (.vacant m)) : Detached g' x entry := by
  obtain ⟨⟨n, hn⟩, hvalid, hgen⟩ := h
  exact ⟨hvacant n hn, hvalid, hgen⟩

theorem blockRemoveFromGraph_spec (h : g.behaviorOf x = some b) :
    ∃ entry g', blockRemoveFromGraph g x = (some entry, g') ∧ entry.behavior = b ∧
      Detached g' x entry ∧
      (∀ y, g'.behaviorOf y = if y = x then none else g.behaviorOf y) ∧
      (∀ y e, Detached g y e → Detached g' y e) := by
  obtain ⟨e, hget, rfl⟩ := behaviorOf_eq_some_iff.1 h
  obtain ⟨⟨g', entry⟩, htake⟩ : ∃ t, g.takeNode x = some t := by
    rw [← Option.isSome_iff_exists, takeNode_isSome_iff, isValid_of_get hget]
  obtain ⟨hsame, -⟩ := takeNode_spec htake
  obtain rfl := Option.some.inj (hget.symm.trans hsame)
  obtain ⟨hvalid, -, hgen⟩ := get_eq_some_iff.1 hget
  refine ⟨e, g', ?_, rfl, ⟨⟨_, vacant_of_takeNode htake⟩, hvalid, hgen⟩,
    fun y => behaviorOf_takeNode htake, fun y e' hy => hy.congr fun n hn => ?_⟩
  · rw [blockRemoveFromGraph, htake]
  · exact vacant_takeNode htake hn

theorem Detached.behaviorOf_blockAddToGraph (h : Detached g x entry) (y : NodeId) :
    (blockAddToGraph g x (some entry)).behaviorOf y =
      if y = x then some entry.behavior else g.behaviorOf y := by
  obtain ⟨⟨n, hn⟩, hvalid, hgen⟩ := h
  exact behaviorOf_addEntry hn hvalid hgen

theorem Detached.blockAddToGraph (h : Detached g x entry) {e : NodeEntry F (Behavior F β)}
    (hy : Detached g y e) (hne : x.index ≠ y.index) :
    Detached (blockAddToGraph g y (some e)) x entry := by
  obtain ⟨n, hn⟩ := hy.vacant
  refine h.congr fun m hm => ⟨m, ?_⟩
  rw [Timeline.blockAddToGraph, Option.elim_some, addEntry_in_place hn]
  exact (List.getElem?_set_ne (Ne.symm hne)).trans hm

/-! ### Changes of tracks and lists -/

variable (f : TrackBehavior F → TrackBehavior F)

theorem behaviorOf_modifyTrack (ht : g.behaviorOf track = some (.track t)) (y : NodeId) :
    (modifyTrack g f track).behaviorOf y =
      if y = track then some (.track (f t)) else g.behaviorOf y := by
  rw [modifyTrack, behaviorOf_modifyBehavior]
  split_ifs with hy
  · rw [hy, ht, Option.map_some]
  · rfl

theorem behaviorOf_trackAppendBlock (ht : g.behaviorOf track = some (.track t)) (hx : x ≠ track)
    (y : NodeId) : (trackAppendBlock g track x).behaviorOf y =
      if y = track then some (.track { t with blocks := t.blocks ++ [x] })
      else if y = x then (g.behaviorOf y).map (.modifyCore fun c => { c with track := some track })
      else g.behaviorOf y := by
  simp only [trackAppendBlock, trackBehaviorOf_eq_some_iff.2 ht]
  exact behaviorOf_setTrack ht hx _

theorem behaviorOf_tracklistAppend (hlist : g.behaviorOf list = some (.trackList l))
    (ht : g.behaviorOf track = some (.track t)) (hsize : l.tracks.length + 1 < 2 ^ 31)
    (y : NodeId) : (tracklistAppend g list track).behaviorOf y =
      if y = list then some (.trackList { l with tracks := l.tracks ++ [track] })
      else if y = track then some (.track { t with
        trackList := some list
        index := l.tracks.length })
      else g.behaviorOf y := by
  have hne : track ≠ list := ne_of_found ht hlist
  have hindex : toI32 (l.tracks.length + 1) - 1 = l.tracks.length := by
    rw [toI32_of_isI32 ⟨by omega, by exact_mod_cast hsize⟩, add_sub_cancel_right]
  have htrack : (g.modifyBehavior (fun _ => .trackList { l with tracks := l.tracks ++ [track] })
      list).behaviorOf track = some (.track t) := by
    rw [behaviorOf_modifyBehavior, if_neg hne, ht]
  simp only [tracklistAppend, trackListBehaviorOf_eq hlist, hindex]
  rw [if_pos (Int.natCast_nonneg _), behaviorOf_modifyTrack _ htrack,
    behaviorOf_modifyBehavior]
  by_cases hy : y = list
  · rw [hy, if_neg (Ne.symm hne), if_pos rfl, if_pos rfl, hlist, Option.map_some]
  · rw [if_neg hy, if_neg hy]

theorem behaviorOf_renumber {tracks : List NodeId} {start : ℕ}
    (hnumbered : ∀ (i : ℕ) (x : NodeId), tracks[i]? = some x →
      ∃ t, g.behaviorOf x = some (.track t) ∧ t.index = start + i)
    (hsize : start + tracks.length < 2 ^ 31) (y : NodeId) :
    (renumber start tracks g).behaviorOf y = g.behaviorOf y := by
  induction tracks generalizing start g with
  | nil => rfl
  | cons x tracks ih =>
    obtain ⟨t, ht, hindex⟩ := hnumbered 0 x rfl
    rw [List.length_cons] at hsize
    have hsame : { t with index := toI32 start } = t := by
      rw [toI32_of_isI32 ⟨by omega, by exact_mod_cast (by omega : start < 2 ^ 31)⟩]
      rw [Nat.cast_zero, add_zero] at hindex
      rw [← hindex]
    have hkept (z : NodeId) : (modifyTrack g (fun t => { t with index := toI32 start })
        x).behaviorOf z = g.behaviorOf z := by
      rw [behaviorOf_modifyTrack _ ht, hsame]
      split_ifs with hz
      · rw [hz, ht]
      · rfl
    rw [renumber, ih (fun i z hz => ?_) (by omega), hkept]
    obtain ⟨t', ht', hindex'⟩ := hnumbered (i + 1) z hz
    exact ⟨t', (hkept z).trans ht', by rw [hindex', Nat.cast_succ, Nat.cast_succ]; omega⟩

/-- A track leaves a list whose tracks have their numbers afterwards. -/
theorem behaviorOf_tracklistRemove (track : NodeId)
    (hlist : g.behaviorOf list = some (.trackList l))
    (hnumbered : ∀ (i : ℕ) (x : NodeId), (l.tracks.filter fun t => t ≠ track)[i]? = some x →
      ∃ t, g.behaviorOf x = some (.track t) ∧ t.index = i)
    (hsize : l.tracks.length < 2 ^ 31) (y : NodeId) :
    (tracklistRemove g list track).behaviorOf y =
      if y = list then some (.trackList { l with tracks := l.tracks.filter fun t => t ≠ track })
      else g.behaviorOf y := by
  have hshort : (l.tracks.filter fun t => t ≠ track).length < 2 ^ 31 :=
    (l.tracks.length_filter_le _).trans_lt hsize
  simp only [tracklistRemove, trackListBehaviorOf_eq hlist]
  rw [behaviorOf_renumber (fun i x hx => ?_) (by rwa [Nat.zero_add]),
    behaviorOf_modifyBehavior]
  · split_ifs with hy
    · rw [hy, hlist, Option.map_some]
    · rfl
  · obtain ⟨t, ht, hindex⟩ := hnumbered i x hx
    have hne : x ≠ list := ne_of_found ht hlist
    refine ⟨t, ?_, by rw [hindex, Nat.cast_zero, zero_add]⟩
    rw [behaviorOf_modifyBehavior, if_neg hne, ht]

theorem vacant_modifyTrack {i n : ℕ} :
    (modifyTrack g f track).entries[i]? = some (.vacant n) ↔
      g.entries[i]? = some (.vacant n) := vacant_modifyBehavior _

theorem vacant_tracklistAppend {i n : ℕ} :
    (tracklistAppend g list track).entries[i]? = some (.vacant n) ↔
      g.entries[i]? = some (.vacant n) := by
  rcases hl : trackListBehaviorOf g list with _ | l
  · simp only [tracklistAppend, hl]
  · by_cases hindex : 0 ≤ toI32 (l.tracks.length + 1) - 1
    · simp only [tracklistAppend, hl]
      rw [if_pos hindex, vacant_modifyTrack, vacant_modifyBehavior]
    · simp only [tracklistAppend, hl]
      rw [if_neg hindex, vacant_modifyBehavior]

theorem vacant_renumber (tracks : List NodeId) (start : ℕ) {i n : ℕ} :
    (renumber start tracks g).entries[i]? = some (.vacant n) ↔
      g.entries[i]? = some (.vacant n) := by
  induction tracks generalizing start g with
  | nil => rfl
  | cons x tracks ih => rw [renumber, ih, vacant_modifyTrack]

theorem vacant_tracklistRemove {i n : ℕ} :
    (tracklistRemove g list track).entries[i]? = some (.vacant n) ↔
      g.entries[i]? = some (.vacant n) := by
  rw [tracklistRemove]
  split
  · rfl
  · rw [vacant_renumber, vacant_modifyBehavior]

theorem sound_tracklistAppend {carried : List (NodeId × NodeId)} (h : g.Sound carried) :
    (tracklistAppend g list track).Sound carried := by
  rcases hl : trackListBehaviorOf g list with _ | l
  · simpa only [tracklistAppend, hl] using h
  · by_cases hindex : 0 ≤ toI32 (l.tracks.length + 1) - 1
    · simp only [tracklistAppend, hl]
      rw [if_pos hindex]
      exact (h.modifyBehavior _ _).modifyBehavior _ _
    · simp only [tracklistAppend, hl]
      rw [if_neg hindex]
      exact h.modifyBehavior _ _

@[simp] theorem length_tracklistAppend :
    (tracklistAppend g list track).entries.length = g.entries.length := by
  rcases hl : trackListBehaviorOf g list with _ | l
  · simp only [tracklistAppend, hl]
  · by_cases hindex : 0 ≤ toI32 (l.tracks.length + 1) - 1
    · simp only [tracklistAppend, hl]
      rw [if_pos hindex, modifyTrack, length_modifyBehavior, length_modifyBehavior]
    · simp only [tracklistAppend, hl]
      rw [if_neg hindex, length_modifyBehavior]

theorem Detached.of_vacant_iff (h : Detached g x entry)
    (hvacant : ∀ i n : ℕ, g'.entries[i]? = some (.vacant n) ↔ g.entries[i]? = some (.vacant n)) :
    Detached g' x entry :=
  h.congr fun n hn => ⟨n, (hvacant _ n).2 hn⟩

theorem Detached.behaviorOf_eq_none (h : Detached g x entry) :
    g.behaviorOf x = none := by
  obtain ⟨⟨n, hn⟩, -⟩ := h
  rw [behaviorOf, get_of_vacant hn, Option.map_none]

/-! ### Adding tracks -/

variable {c : TimelineAddTrackCommand F β} {kind : TrackType}

variable {cs : List (TimelineAddTrackCommand F β)}

namespace TimelineAddTrackCommand

variable [OfNat F 3] {carried : List (NodeId × NodeId)} {n : ℕ}

/-- New tracks, which no list holds yet. -/
theorem addTracks_spec (hsound : g.Sound carried) (hroom : g.entries.length + n < u32Size)
    (hlist : g.behaviorOf list = some (.trackList l)) :
    ∃ (ids : List NodeId) (g' : ProjectGraph F β),
      addTracks list n g = (ids.map fun id => ⟨list, id, none⟩, g') ∧ ids.length = n ∧
      ids.Nodup ∧ (∀ id ∈ ids, g.behaviorOf id = none) ∧
      (∀ y, g'.behaviorOf y = if y ∈ ids then some (.track (newTrackBehavior l.kind))
        else g.behaviorOf y) ∧
      g'.Sound carried ∧ g'.entries.length ≤ g.entries.length + n := by
  induction n generalizing g with
  | zero => exact ⟨[], g, rfl, rfl, List.nodup_nil, by simp, by simp, hsound, le_rfl⟩
  | succ n ih =>
    obtain ⟨hfresh, hcreated⟩ := behaviorOf_allocate hsound.freeVacant (by omega)
      NodeCore.new (.track (newTrackBehavior l.kind) : Behavior F β)
    have hsound' := hsound.allocate NodeCore.new (.track (newTrackBehavior l.kind) : Behavior F β)
    rw [show (NodeCore.new : NodeCore F).links = [] from rfl, List.map_nil, List.nil_append]
      at hsound'
    have hlength := length_allocate_le (g := g) NodeCore.new
      (.track (newTrackBehavior l.kind) : Behavior F β)
    have hnew : new list g = (⟨list, (g.allocate NodeCore.new
        (.track (newTrackBehavior l.kind))).2, none⟩, (g.allocate NodeCore.new
          (.track (newTrackBehavior l.kind))).1) := by
      rw [new, tracklistType, trackListBehaviorOf_eq hlist]
      rfl
    generalize g.allocate NodeCore.new (.track (newTrackBehavior l.kind) : Behavior F β) = created
      at hfresh hcreated hsound' hlength hnew
    obtain ⟨g₁, id⟩ := created
    dsimp only at hfresh hcreated hsound' hlength hnew
    have hne : list ≠ id := ne_of_found hlist hfresh
    obtain ⟨ids, g', hadd, hn, hnodup, hids, hbehavior, hsound'', hlength'⟩ := ih hsound' (by omega)
      (by rw [hcreated, if_neg hne, hlist])
    have hnot : id ∉ ids := by
      intro hid
      have hnone := hids id hid
      rw [hcreated, if_pos rfl] at hnone
      exact absurd hnone (by simp)
    refine ⟨id :: ids, g', ?_, ?_, List.nodup_cons.2 ⟨hnot, hnodup⟩, fun y hy => ?_, fun y => ?_,
      hsound'', by omega⟩
    · rw [addTracks, hnew]
      dsimp only
      rw [hadd, List.map_cons]
    · rw [List.length_cons, hn]
    · rcases List.mem_cons.1 hy with rfl | hy
      · exact hfresh
      · have hnone := hids y hy
        rw [hcreated] at hnone
        split_ifs at hnone
        exact hnone
    · rw [hbehavior, hcreated]
      by_cases hy : y ∈ ids
      · rw [if_pos hy, if_pos (List.mem_cons_of_mem id hy)]
      · rw [if_neg hy]
        by_cases hyid : y = id
        · rw [if_pos hyid, if_pos (by rw [hyid]; exact List.mem_cons_self)]
        · rw [if_neg hyid, if_neg (by simp [hyid, hy])]

omit [OfNat F 3] in
/-- Tracks that are in the graph are added to their list in place. -/
theorem sound_redoAll (hsound : g.Sound carried) (hattached : ∀ c ∈ cs, c.trackEntry = none) :
    (redoAll cs g).2.Sound carried ∧
      (redoAll cs g).2.entries.length = g.entries.length := by
  induction cs generalizing g with
  | nil => exact ⟨hsound, rfl⟩
  | cons c cs ih =>
    obtain ⟨hc, hcs⟩ := List.forall_mem_cons.1 hattached
    have hredo : (c.redo g).2 = tracklistAppend g c.timeline c.track := by
      rw [redo, hc]
      rfl
    have hsound' : (c.redo g).2.Sound carried := by
      rw [hredo]
      exact sound_tracklistAppend hsound
    obtain ⟨hrun, hlength⟩ := ih hsound' hcs
    refine ⟨hrun, hlength.trans ?_⟩
    rw [hredo, length_tracklistAppend]

/-- A new track in the list `owner`, with its number. -/
def newTrackAt (kind : TrackType) (owner : Option NodeId) (index : ℤ) : TrackBehavior F :=
  { newTrackBehavior kind with
    trackList := owner
    index := index }

/-- The track of a command is a new one, in the graph or taken out of it. -/
def Ready (g : ProjectGraph F β) (kind : TrackType) (c : TimelineAddTrackCommand F β) : Prop :=
  ∃ owner index, match c.trackEntry with
    | none => g.behaviorOf c.track = some (.track (newTrackAt kind owner index))
    | some e => Detached g c.track e ∧ e.behavior = .track (newTrackAt kind owner index)

/-- The track of a command enters the graph, if it is not there. -/
theorem Ready.behaviorOf (h : Ready g kind c) :
    (∃ owner index, (blockAddToGraph g c.track c.trackEntry).behaviorOf c.track =
      some (.track (newTrackAt kind owner index))) ∧
    (∀ y, y ≠ c.track →
      (blockAddToGraph g c.track c.trackEntry).behaviorOf y = g.behaviorOf y) ∧
    ∀ y e, Detached g y e → y.index ≠ c.track.index →
      Detached (blockAddToGraph g c.track c.trackEntry) y e := by
  obtain ⟨owner, index, hready⟩ := h
  rcases hentry : c.trackEntry with _ | e
  · rw [hentry] at hready
    exact ⟨⟨owner, index, hready⟩, fun y _ => rfl, fun y e hy _ => hy⟩
  · rw [hentry] at hready
    obtain ⟨hdetached, hbehavior⟩ := hready
    refine ⟨⟨owner, index, ?_⟩, fun y hy => ?_, fun y e' hy hne => hy.blockAddToGraph hdetached hne⟩
    · rw [hdetached.behaviorOf_blockAddToGraph, if_pos rfl, hbehavior]
    · rw [hdetached.behaviorOf_blockAddToGraph, if_neg hy]

theorem Ready.ne (h : Ready g kind c) (hlist : g.behaviorOf list = some (.trackList l)) :
    list ≠ c.track := by
  rintro rfl
  obtain ⟨owner, index, hready⟩ := h
  rcases hentry : c.trackEntry with _ | e
  · rw [hentry] at hready
    rw [hready] at hlist
    exact absurd hlist (by simp)
  · rw [hentry] at hready
    rw [hready.1.behaviorOf_eq_none] at hlist
    exact absurd hlist (by simp)

theorem Ready.congr (h : Ready g kind c) (hbehavior : g'.behaviorOf c.track = g.behaviorOf c.track)
    (hdetached : ∀ e, Detached g c.track e → Detached g' c.track e) : Ready g' kind c := by
  obtain ⟨owner, index, hready⟩ := h
  refine ⟨owner, index, ?_⟩
  rcases hentry : c.trackEntry with _ | e
  · rw [hentry] at hready
    exact hbehavior.trans hready
  · rw [hentry] at hready
    exact ⟨hdetached e hready.1, hready.2⟩

/-- Adding new tracks to the end of a list. -/
theorem redoAll_spec (hlist : g.behaviorOf list = some (.trackList l))
    (htimeline : ∀ c ∈ cs, c.timeline = list) (hready : ∀ c ∈ cs, Ready g l.kind c)
    (hnodup : (cs.map fun c => c.track.index).Nodup) (hsize : l.tracks.length + cs.length < 2 ^ 31)
    :
    ∃ g', redoAll cs g = (cs.map fun c => { c with trackEntry := none }, g') ∧
      (∀ y, g'.behaviorOf y =
        if y = list then
          some (.trackList { l with tracks := l.tracks ++ cs.map TimelineAddTrackCommand.track })
        else if y ∈ cs.map TimelineAddTrackCommand.track then
          some (.track (newTrackAt l.kind (some list)
            (l.tracks.length + (cs.map TimelineAddTrackCommand.track).idxOf y : ℕ)))
        else g.behaviorOf y) ∧
      ∀ y e, Detached g y e → y.index ∉ cs.map (fun c => c.track.index) → Detached g' y e := by
  induction cs generalizing g l with
  | nil =>
    refine ⟨g, rfl, fun y => ?_, fun y e hy _ => hy⟩
    simp only [List.map_nil, List.append_nil, List.not_mem_nil, if_false]
    split_ifs with hy
    · rw [hy, hlist]
    · rfl
  | cons c cs ih =>
    obtain ⟨hc, htimelines⟩ := List.forall_mem_cons.1 htimeline
    obtain ⟨hfirst, hrest⟩ := List.forall_mem_cons.1 hready
    rw [List.map_cons, List.nodup_cons] at hnodup
    rw [List.length_cons] at hsize
    obtain ⟨⟨owner, index, htrack⟩, hothers, hdetached⟩ := hfirst.behaviorOf
    have hne := hfirst.ne hlist
    have hindexes (c' : TimelineAddTrackCommand F β) (hc' : c' ∈ cs) :
        c'.track.index ≠ c.track.index := fun heq =>
      hnodup.1 (List.mem_map.2 ⟨c', hc', heq⟩)
    have happend := behaviorOf_tracklistAppend ((hothers list hne).trans hlist) htrack
      (by omega : l.tracks.length + 1 < 2 ^ 31)
    have hkept (y : NodeId) (e : NodeEntry F (Behavior F β)) (hy : Detached g y e)
        (hindex : y.index ≠ c.track.index) : Detached (tracklistAppend (blockAddToGraph g c.track
          c.trackEntry) list c.track) y e :=
      (hdetached y e hy hindex).of_vacant_iff fun _ _ => vacant_tracklistAppend
    have hredo : c.redo g = ({ c with trackEntry := none },
        tracklistAppend (blockAddToGraph g c.track c.trackEntry) list c.track) := by
      rw [redo, hc]
    generalize tracklistAppend (blockAddToGraph g c.track c.trackEntry) list c.track = g₁
      at happend hkept hredo
    have hready' : ∀ c' ∈ cs, Ready g₁ l.kind c' := by
      intro c' hc'
      have hindex := hindexes c' hc'
      have hnec : c'.track ≠ c.track := fun heq => hindex (congrArg NodeId.index heq)
      refine (hrest c' hc').congr ?_ fun e he => hkept c'.track e he hindex
      rw [happend, if_neg (Ne.symm ((hrest c' hc').ne hlist)), if_neg hnec, hothers c'.track hnec]
    obtain ⟨g', hrun, hbehavior, hdetached'⟩ := ih
      (l := { l with tracks := l.tracks ++ [c.track] }) (by rw [happend, if_pos rfl]) htimelines
      hready' hnodup.2 (by rw [List.length_append, List.length_singleton]; omega)
    refine ⟨g', ?_, fun y => ?_, fun y e hy hindex => ?_⟩
    · rw [redoAll, hredo]
      dsimp only
      rw [hrun, List.map_cons]
    · rw [hbehavior, happend]
      simp only [List.map_cons, List.append_assoc, List.singleton_append, List.length_append,
        List.length_singleton]
      by_cases hy : y = list
      · rw [if_pos hy, if_pos hy]
      · rw [if_neg hy, if_neg hy, if_neg hy]
        by_cases hyc : y = c.track
        · have hnot : y ∉ cs.map TimelineAddTrackCommand.track := by
            rintro hmem
            obtain ⟨c', hc', rfl⟩ := List.mem_map.1 hmem
            exact hindexes c' hc' (congrArg NodeId.index hyc)
          rw [if_neg hnot, if_pos hyc, if_pos (by rw [hyc]; exact List.mem_cons_self), hyc,
            List.idxOf_cons_self, Nat.add_zero]
          rfl
        · rw [List.idxOf_cons_ne _ (Ne.symm hyc), Nat.succ_eq_one_add, ← Nat.add_assoc]
          simp only [List.mem_cons, hyc, false_or, if_false, hothers y hyc]
    · rw [List.map_cons, List.mem_cons, not_or] at hindex
      exact hdetached' y e (hkept y e hy hindex.1) hindex.2

omit [OfNat F 3] in
/-- Taking the last tracks of a list out of it again. -/
theorem undoAll_spec {ids : List NodeId}
    (hlist : g.behaviorOf list = some (.trackList { l with tracks := l.tracks ++ ids }))
    (hnodup : (l.tracks ++ ids).Nodup)
    (hnumbered : ∀ (i : ℕ) (x : NodeId), (l.tracks ++ ids)[i]? = some x →
      ∃ t, g.behaviorOf x = some (.track t) ∧ t.index = i)
    (hsize : (l.tracks ++ ids).length < 2 ^ 31) :
    ∃ cs g', undoAll (ids.map fun id => ⟨list, id, none⟩) g = (cs, g') ∧
      cs.map TimelineAddTrackCommand.track = ids ∧ (∀ c ∈ cs, c.timeline = list) ∧
      (∀ c ∈ cs, ∃ e, c.trackEntry = some e ∧ Detached g' c.track e ∧
        g.behaviorOf c.track = some e.behavior) ∧
      (∀ y, g'.behaviorOf y = if y = list then some (.trackList l)
        else if y ∈ ids then none else g.behaviorOf y) ∧
      ∀ y e, Detached g y e → Detached g' y e := by
  induction ids generalizing l with
  | nil =>
    refine ⟨[], g, rfl, rfl, by simp, by simp, fun y => ?_, fun y e hy => hy⟩
    rw [List.append_nil] at hlist
    simp only [List.not_mem_nil, if_false]
    split_ifs with hy
    · rw [hy, hlist]
    · rfl
  | cons id ids ih =>
    have happend : l.tracks ++ id :: ids = (l.tracks ++ [id]) ++ ids := by simp
    rw [happend] at hlist hnodup hnumbered hsize
    obtain ⟨cs, g₁, hrun, hids, htimelines, hentries, hbehavior, hdetached⟩ :=
      ih (l := { l with tracks := l.tracks ++ [id] }) hlist hnodup hnumbered hsize
    obtain ⟨hnodup', -, hdisjoint⟩ := List.nodup_append.1 hnodup
    have hnot : id ∉ ids := fun hid => hdisjoint id (by simp) id hid rfl
    have hnotTracks : id ∉ l.tracks := fun hid =>
      (List.nodup_append.1 hnodup').2.2 id hid id (by simp) rfl
    have hfilter : (l.tracks ++ [id]).filter (fun t => t ≠ id) = l.tracks := by
      rw [List.filter_append, List.filter_eq_self.2 fun y hy => ?_]
      · simp
      · simpa using fun heq : y = id => hnotTracks (heq ▸ hy)
    have hne (y : NodeId) (t : TrackBehavior F) (hy : g.behaviorOf y = some (.track t)) :
        y ≠ list := ne_of_found hy hlist
    have hkept (i : ℕ) (x : NodeId) (hx : (l.tracks ++ [id])[i]? = some x) :
        ∃ t, g₁.behaviorOf x = some (.track t) ∧ t.index = i := by
      have hlt : i < (l.tracks ++ [id]).length := (List.getElem?_eq_some_iff.1 hx).1
      obtain ⟨t, ht, hindex⟩ := hnumbered i x (by rw [List.getElem?_append_left hlt, hx])
      have hxids : x ∉ ids := fun hmem => hdisjoint x (List.mem_of_getElem? hx) x hmem rfl
      exact ⟨t, by rw [hbehavior, if_neg (hne x t ht), if_neg hxids, ht], hindex⟩
    have hlist₁ : g₁.behaviorOf list =
        some (.trackList { l with tracks := l.tracks ++ [id] }) := by
      rw [hbehavior, if_pos rfl]
    have hlast : (l.tracks ++ [id])[l.tracks.length]? = some id := List.getElem?_concat_length
    obtain ⟨t, ht, -⟩ := hkept _ id hlast
    have hidlist : id ≠ list := ne_of_found ht hlist₁
    have hremove := behaviorOf_tracklistRemove id hlist₁ (fun i x hx => ?_)
      (by rw [List.length_append] at hsize; exact Nat.lt_of_le_of_lt (Nat.le_add_right _ _) hsize)
    · dsimp only at hremove
      rw [hfilter] at hremove
      obtain ⟨entry, g₂, htake, hentry, hself, htaken, hdetached₂⟩ :=
        blockRemoveFromGraph_spec (x := id) ((hremove id).trans ((if_neg hidlist).trans ht))
      have hundo : undo (⟨list, id, none⟩ : TimelineAddTrackCommand F β) g₁ =
          (⟨list, id, some entry⟩, g₂) := by
        simp only [undo, htake]
      have hkept₂ (y : NodeId) (e : NodeEntry F (Behavior F β)) (hy : Detached g₁ y e) :
          Detached g₂ y e :=
        hdetached₂ y e (hy.of_vacant_iff fun _ _ => vacant_tracklistRemove)
      have hid : g.behaviorOf id = some (.track t) := by
        rw [hbehavior, if_neg hidlist, if_neg hnot] at ht
        exact ht
      refine ⟨⟨list, id, some entry⟩ :: cs, g₂, ?_, by rw [List.map_cons, hids],
        List.forall_mem_cons.2 ⟨rfl, htimelines⟩, List.forall_mem_cons.2 ⟨⟨entry, rfl, hself, ?_⟩,
          fun c hc => ?_⟩, fun y => ?_, fun y e hy => hkept₂ y e (hdetached y e hy)⟩
      · rw [List.map_cons, undoAll, hrun]
        dsimp only
        rw [hundo]
      · rw [hid, hentry]
      · obtain ⟨e, he, hdet, hbeh⟩ := hentries c hc
        exact ⟨e, he, hkept₂ c.track e hdet, hbeh⟩
      · rw [htaken, hremove, hbehavior]
        simp only [List.mem_cons]
        by_cases hyid : y = id
        · rw [if_pos hyid, hyid, if_neg hidlist, if_pos (.inl rfl)]
        · simp only [hyid, if_false, false_or]
          split_ifs <;> rfl
    · rw [hfilter] at hx
      have hlt : i < l.tracks.length := (List.getElem?_eq_some_iff.1 hx).1
      exact hkept i x (by rw [List.getElem?_append_left hlt, hx])

end TimelineAddTrackCommand

end Oak.Timeline
