import Mathlib.Data.List.InsertIdx
import Oak.Lib.Machine
import Oak.Timeline.TrackList

/-!
# Adding and removing tracks

The command of `undogeneral.rs` that removes a track, and the sessions in which tracks are added and
removed with undos and redos.

* `TrackSession` is a graph with the commands that are done and those that are undone.
* `Numbered` says that the tracks of each list have their places as numbers and belong to it.
* `Past` and `Future` say through which states the commands of a session lead.

## Main results

* `Done.undo`, `Undone.redo`: a command leads back to the state before it, and ahead again.
* `trackLists_run`: every run keeps the lists numbered, and every undo leads back.
* `trackLists_crowded`: a list with more tracks than there are numbers.
-/

namespace Oak.Timeline

open Oak.Core Oak.Lib Oak.Node

variable {F β : Type*}

/-- A loop over tracks in which each is changed by `f`. -/
def modifyTracks (f : TrackBehavior F → TrackBehavior F) (tracks : List NodeId)
    (g : ProjectGraph F β) : ProjectGraph F β :=
  tracks.foldl (fun g track => modifyTrack g f track) g

/-- `TimelineRemoveTrackCommand`. -/
structure TimelineRemoveTrackCommand (F β : Type*) where
  track : NodeId
  /-- The list of the track, found by `prepare`. -/
  list : Option NodeId
  /-- The place of the track in its list, found by `prepare`. -/
  index : Option ℕ
  /-- The entry of the track while it is detached. -/
  trackEntry : Option (NodeEntry F (Behavior F β))

namespace TimelineRemoveTrackCommand

/-- `new`. -/
def new (track : NodeId) : TimelineRemoveTrackCommand F β := ⟨track, none, none, none⟩

variable (c : TimelineRemoveTrackCommand F β) (g : ProjectGraph F β)

/-- `prepare`. -/
def prepare : TimelineRemoveTrackCommand F β :=
  match c.list with
  | some _ => c
  | none =>
    match (trackBehaviorOf g c.track).bind TrackBehavior.trackList with
    | none => c
    | some list =>
      if g.isValid list then
        { c with
          list := some list
          index := (trackListBehaviorOf g list).bind fun l => l.tracks.idxOf? c.track }
      else c

/-- `redo` after `prepare`. -/
def redoPrepared : TimelineRemoveTrackCommand F β × ProjectGraph F β :=
  match c.list with
  | none => (c, g)
  | some list =>
    match trackListBehaviorOf g list with
    | none => (c, g)
    | some l =>
      match l.tracks.idxOf? c.track with
      | none => (c, g)
      | some i =>
        let tracks := l.tracks.eraseIdx i
        let g := g.modifyBehavior (fun _ => .trackList { l with tracks := tracks }) list
        let g := modifyTracks (fun t =>
          if toI32 (c.index.getD 0) < t.index then { t with index := t.index - 1 } else t)
          (tracks.drop i) g
        match c.trackEntry with
        | some _ => (c, g)
        | none =>
          ({ c with trackEntry := (blockRemoveFromGraph g c.track).1 },
            (blockRemoveFromGraph g c.track).2)

/-- `redo`. -/
def redo : TimelineRemoveTrackCommand F β × ProjectGraph F β := (c.prepare g).redoPrepared g

/-- `undo`. -/
def undo : TimelineRemoveTrackCommand F β × ProjectGraph F β :=
  match c.list with
  | none => (c, g)
  | some list =>
    let g := blockAddToGraph g c.track c.trackEntry
    let index := c.index.getD 0
    let inserted : List NodeId × ProjectGraph F β :=
      match trackListBehaviorOf g list with
      | none => ([], g)
      | some l =>
        let insertAt := min index l.tracks.length
        let tracks := l.tracks.insertIdx insertAt c.track
        (tracks.drop (insertAt + 1),
          g.modifyBehavior (fun _ => .trackList { l with tracks := tracks }) list)
    let g := modifyTracks (fun t =>
      if toI32 index ≤ t.index then { t with index := t.index + 1 } else t) inserted.1 inserted.2
    ({ c with trackEntry := none }, modifyTrack g (fun t => { t with
      trackList := some list
      index := toI32 index }) c.track)

end TimelineRemoveTrackCommand

open TimelineRemoveTrackCommand

/-- The commands that add and remove tracks. -/
inductive TrackCommand (F β : Type*)
  | add (c : TimelineAddTrackCommand F β)
  | remove (c : TimelineRemoveTrackCommand F β)

namespace TrackCommand

def redo (c : TrackCommand F β) (g : ProjectGraph F β) : TrackCommand F β × ProjectGraph F β :=
  match c with
  | add c => (add (c.redo g).1, (c.redo g).2)
  | remove c => (remove (c.redo g).1, (c.redo g).2)

def undo (c : TrackCommand F β) (g : ProjectGraph F β) : TrackCommand F β × ProjectGraph F β :=
  match c with
  | add c => (add (c.undo g).1, (c.undo g).2)
  | remove c => (remove (c.undo g).1, (c.undo g).2)

end TrackCommand

/-- A graph with the commands that are done, the last one first, and the commands that were undone,
the next one first. -/
structure TrackSession (F β : Type*) where
  graph : ProjectGraph F β
  done : List (TrackCommand F β)
  undone : List (TrackCommand F β)

/-- What a session is asked to do. -/
inductive TrackAction
  | addTrack (list : NodeId)
  | removeTrack (track : NodeId)
  | undo
  | redo

namespace TrackSession

def start (g : ProjectGraph F β) : TrackSession F β := ⟨g, [], []⟩

/-- A new command is done, and what was undone is forgotten. -/
def push (s : TrackSession F β) (c : TrackCommand F β) (g : ProjectGraph F β) :
    TrackSession F β :=
  ⟨(c.redo g).2, (c.redo g).1 :: s.done, []⟩

/-- One action. -/
def act [OfNat F 3] (s : TrackSession F β) : TrackAction → TrackSession F β
  | .addTrack list =>
    s.push (.add (TimelineAddTrackCommand.new list s.graph).1)
      (TimelineAddTrackCommand.new list s.graph).2
  | .removeTrack track => s.push (.remove (.new track)) s.graph
  | .undo =>
    match s.done with
    | [] => s
    | c :: cs => ⟨(c.undo s.graph).2, cs, (c.undo s.graph).1 :: s.undone⟩
  | .redo =>
    match s.undone with
    | [] => s
    | c :: cs => ⟨(c.redo s.graph).2, (c.redo s.graph).1 :: s.done, cs⟩

end TrackSession

/-! ### The behaviors of a graph -/

/-- What the nodes of a graph are. -/
abbrev View (F β : Type*) := NodeId → Option (Behavior F β)

/-- The track list that a node is. -/
def listAt (s : View F β) (list : NodeId) : Option TrackListBehavior :=
  match s list with
  | some (.trackList l) => some l
  | _ => none

theorem listAt_eq_some_iff {s : View F β} {list : NodeId} {l : TrackListBehavior} :
    listAt s list = some l ↔ s list = some (.trackList l) := by
  rw [listAt]
  split
  next l' h => simp [h]
  next h =>
    simp only [reduceCtorEq, false_iff]
    exact h l

/-- The tracks of each list are numbered by their places, know their list and are in no other. -/
structure Numbered (s : View F β) : Prop where
  nodup : ∀ list l, s list = some (.trackList l) → l.tracks.Nodup
  held : ∀ list l (i : ℕ) x, s list = some (.trackList l) → l.tracks[i]? = some x →
    ∃ t, s x = some (.track t) ∧ t.index = i ∧ t.trackList = some list
  holder : ∀ x t list, s x = some (.track t) → t.trackList = some list →
    ∃ l, s list = some (.trackList l) ∧ x ∈ l.tracks

/-- No two nodes share a slot. -/
def Separate (s : View F β) : Prop :=
  ∀ x y, s x ≠ none → s y ≠ none → x.index = y.index → x = y

theorem separate_behaviorOf (g : ProjectGraph F β) : Separate g.behaviorOf := by
  intro x y hx hy hindex
  obtain ⟨b, hb⟩ := Option.ne_none_iff_exists'.1 hx
  obtain ⟨c, hc⟩ := Option.ne_none_iff_exists'.1 hy
  obtain ⟨e, he, -⟩ := Graph.behaviorOf_eq_some_iff.1 hb
  obtain ⟨e', he', -⟩ := Graph.behaviorOf_eq_some_iff.1 hc
  exact Graph.eq_of_index_eq he he' hindex

theorem Numbered.notMem {s : View F β} {list u : NodeId} (hs : Numbered s) (hfresh : s u = none)
    {l : TrackListBehavior}
    (hlist : s list = some (.trackList l)) : u ∉ l.tracks := by
  intro hmem
  obtain ⟨i, hi⟩ := List.mem_iff_getElem?.1 hmem
  obtain ⟨t, ht, -⟩ := hs.held list l i u hlist hi
  rw [hfresh] at ht
  cases ht

/-- The tracks of a list, and the list, have slots of their own. -/
theorem Numbered.length_lt {g : ProjectGraph F β} (h : Numbered g.behaviorOf) {list : NodeId}
    {l : TrackListBehavior} (hlist : g.behaviorOf list = some (.trackList l)) :
    l.tracks.length < g.entries.length := by
  have hlive {x : NodeId} {b : Behavior F β} (hx : g.behaviorOf x = some b) : x ∈ g.nodeIds := by
    apply Graph.mem_nodeIds
    rw [Graph.isValid_eq_isSome_behaviorOf, hx, Option.isSome_some]
  have hnot : list ∉ l.tracks := by
    intro hmem
    obtain ⟨i, hi⟩ := List.mem_iff_getElem?.1 hmem
    obtain ⟨t, ht, -⟩ := h.held list l i list hlist hi
    rw [hlist] at ht
    exact absurd ht (by simp)
  have hsub : list :: l.tracks ⊆ g.nodeIds := by
    intro x hx
    rcases List.mem_cons.1 hx with rfl | hx
    · exact hlive hlist
    · obtain ⟨i, hi⟩ := List.mem_iff_getElem?.1 hx
      obtain ⟨t, ht, -⟩ := h.held list l i x hlist hi
      exact hlive ht
  have hnodup : (list :: l.tracks).Nodup := List.nodup_cons.2 ⟨hnot, h.nodup list l hlist⟩
  exact (hnodup.subperm hsub).length_le.trans (Graph.length_nodeIds_le g)

/-! ### The slots of a graph -/

variable {x : NodeId} {e : NodeEntry F (Behavior F β)}

theorem detached_of_free {g : ProjectGraph F β} (hlt : x.index < g.entries.length)
    (hsize : g.entries.length < 2 ^ 31) (hgeneration : e.generation = x.generation)
    (hfree : ∀ y, y.index = x.index → g.behaviorOf y = none) : Detached g x e := by
  have hvalid {i : ℕ} (hi : i < g.entries.length) (k : ℕ) :
      (⟨i, k⟩ : NodeId).valid = true := by
    rw [NodeId.valid, decide_eq_true_eq, u32Size]
    dsimp only
    omega
  refine ⟨?_, hvalid hlt x.generation, hgeneration⟩
  obtain ⟨slot, hslot⟩ : ∃ slot, g.entries[x.index]? = some slot :=
    ⟨_, List.getElem?_eq_getElem hlt⟩
  cases slot with
  | vacant n => exact ⟨n, hslot⟩
  | live e' =>
    have hget : g.get ⟨x.index, e'.generation⟩ = some e' :=
      Graph.get_eq_some_iff.2 ⟨hvalid hlt _, hslot, rfl⟩
    have hnone := hfree ⟨x.index, e'.generation⟩ rfl
    rw [Graph.behaviorOf_of_get hget] at hnone
    cases hnone

/-- What the arena keeps. -/
structure Stored (bound : ℕ) (g : ProjectGraph F β) : Prop where
  sound : ∃ carried, g.Sound carried
  length_eq : g.entries.length = bound

theorem Stored.modifyBehavior {n : ℕ} {g : ProjectGraph F β} (h : Stored n g)
    (f : Behavior F β → Behavior F β) (id : NodeId) : Stored n (g.modifyBehavior f id) := by
  obtain ⟨⟨carried, hsound⟩, hlength⟩ := h
  exact ⟨⟨carried, hsound.modifyBehavior f id⟩, by rw [Graph.length_modifyBehavior, hlength]⟩

theorem Stored.modifyTracks {n : ℕ} {g : ProjectGraph F β} (h : Stored n g)
    (f : TrackBehavior F → TrackBehavior F) (tracks : List NodeId) :
    Stored n (modifyTracks f tracks g) := by
  induction tracks generalizing g with
  | nil => exact h
  | cons x tracks ih => exact ih (h.modifyBehavior _ x)

theorem Stored.renumber {n : ℕ} {g : ProjectGraph F β} (h : Stored n g) (start : ℕ)
    (tracks : List NodeId) : Stored n (renumber start tracks g) := by
  induction tracks generalizing start g with
  | nil => exact h
  | cons x tracks ih => exact ih (h.modifyBehavior _ x) (start + 1)

theorem Stored.tracklistAppend {n : ℕ} {g : ProjectGraph F β} (h : Stored n g)
    (list track : NodeId) : Stored n (tracklistAppend g list track) := by
  obtain ⟨⟨carried, hsound⟩, hlength⟩ := h
  exact ⟨⟨carried, sound_tracklistAppend hsound⟩, by rw [length_tracklistAppend, hlength]⟩

theorem Stored.tracklistRemove {n : ℕ} {g : ProjectGraph F β} (h : Stored n g)
    (list track : NodeId) : Stored n (tracklistRemove g list track) := by
  rw [Timeline.tracklistRemove]
  split
  · exact h
  · exact (h.modifyBehavior _ list).renumber 0 _

/-- A live node is taken out, and its entry is what puts it back. -/
theorem Stored.blockRemoveFromGraph {n : ℕ} {g : ProjectGraph F β} (h : Stored n g) {x : NodeId}
    {b : Behavior F β} (hx : g.behaviorOf x = some b) :
    ∃ e, (blockRemoveFromGraph g x).1 = some e ∧ e.behavior = b ∧ e.generation = x.generation ∧
      x.index < n ∧ Stored n (blockRemoveFromGraph g x).2 ∧
      ∀ y, (blockRemoveFromGraph g x).2.behaviorOf y = if y = x then none else g.behaviorOf y := by
  obtain ⟨⟨carried, hsound⟩, hlength⟩ := h
  obtain ⟨e, hget, rfl⟩ := Graph.behaviorOf_eq_some_iff.1 hx
  obtain ⟨⟨g', entry⟩, htake⟩ : ∃ t, g.takeNode x = some t := by
    rw [← Option.isSome_iff_exists, Graph.takeNode_isSome_iff, Graph.isValid_of_get hget]
  obtain ⟨hsame, hshells, -⟩ := Graph.takeNode_spec htake
  obtain rfl := Option.some.inj (hget.symm.trans hsame)
  have hlength' : g'.entries.length = n := by
    rw [← Graph.length_shells, hshells, List.length_set, Graph.length_shells, hlength]
  rw [Timeline.blockRemoveFromGraph, htake]
  exact ⟨e, rfl, rfl, Graph.generation_of_get hget, hlength ▸ Graph.index_lt_of_get hget,
    ⟨⟨_, hsound.takeNode htake⟩, hlength'⟩, fun y => Graph.behaviorOf_takeNode htake⟩

theorem Stored.blockAddToGraph {n : ℕ} {g : ProjectGraph F β} (h : Stored n g) (hn : n < 2 ^ 31)
    {x : NodeId} {e : NodeEntry F (Behavior F β)} (hlt : x.index < n)
    (hgeneration : e.generation = x.generation)
    (hfree : ∀ y, y.index = x.index → g.behaviorOf y = none) :
    Stored n (blockAddToGraph g x (some e)) ∧ ∀ y, (blockAddToGraph g x (some e)).behaviorOf y =
      if y = x then some e.behavior else g.behaviorOf y := by
  obtain ⟨⟨carried, hsound⟩, hlength⟩ := h
  have hdetached := detached_of_free (hlength ▸ hlt) (hlength ▸ hn) hgeneration hfree
  obtain ⟨m, hm⟩ := hdetached.vacant
  refine ⟨⟨⟨_, hsound.addEntry e x⟩, ?_⟩, hdetached.behaviorOf_blockAddToGraph⟩
  rw [Timeline.blockAddToGraph, Option.elim_some, Graph.addEntry_in_place hm, List.length_set,
    hlength]

/-! ### Adding a track -/

section Add

variable [OfNat F 3] {g : ProjectGraph F β} {s : View F β} {list u : NodeId} {n : ℕ}

open TimelineAddTrackCommand

/-- A new track at the end of a list, or in no list when there is none. -/
def appended (s : View F β) (list u : NodeId) : View F β := fun y =>
  match listAt s list with
  | some l =>
    if y = list then some (.trackList { l with tracks := l.tracks ++ [u] })
    else if y = u then some (.track (newTrackAt l.kind (some list) l.tracks.length))
    else s y
  | none => if y = u then some (.track (newTrackAt .video none 0)) else s y

theorem appended_of_list {l : TrackListBehavior} (h : s list = some (.trackList l)) (y : NodeId) :
    appended s list u y =
      if y = list then some (.trackList { l with tracks := l.tracks ++ [u] })
      else if y = u then some (.track (newTrackAt l.kind (some list) l.tracks.length))
      else s y := by
  rw [appended, listAt_eq_some_iff.2 h]

theorem appended_of_none (h : listAt s list = none) (y : NodeId) :
    appended s list u y = if y = u then some (.track (newTrackAt .video none 0)) else s y := by
  rw [appended, h]

theorem appended_self (list : NodeId) (hfresh : s u = none) : ∃ owner index,
    appended s list u u =
      some (.track (newTrackAt (((listAt s list).map TrackListBehavior.kind).getD .video)
        owner index)) ∧
    (listAt s list = none → owner = none ∧ index = 0) := by
  rcases hl : listAt s list with _ | l
  · rw [appended_of_none hl]
    exact ⟨none, 0, if_pos rfl, fun _ => ⟨rfl, rfl⟩⟩
  · have hlist := listAt_eq_some_iff.1 hl
    have hne : u ≠ list := ne_of_found hfresh hlist
    rw [appended_of_list hlist]
    rw [if_neg hne, if_pos rfl]
    exact ⟨some list, l.tracks.length, rfl, fun h => absurd h (by simp)⟩

/-- The track is appended to its list, wherever it was before. -/
theorem behaviorOf_append {owner : Option NodeId} {index : ℤ} (hfresh : s u = none)
    (hview : ∀ y, g.behaviorOf y = if y = u then
      some (.track (newTrackAt (((listAt s list).map TrackListBehavior.kind).getD .video)
        owner index)) else s y)
    (hnone : listAt s list = none → owner = none ∧ index = 0)
    (hsize : ∀ l, s list = some (.trackList l) → l.tracks.length + 1 < 2 ^ 31) :
    (tracklistAppend g list u).behaviorOf = appended s list u := by
  funext y
  rcases hl : listAt s list with _ | l
  · have hnolist : trackListBehaviorOf g list = none := by
      have hat : trackListBehaviorOf g list = listAt g.behaviorOf list := rfl
      rw [hat, listAt, hview]
      by_cases heq : list = u
      · rw [if_pos heq]
      · rw [if_neg heq]
        exact hl
    obtain ⟨rfl, rfl⟩ := hnone hl
    rw [appended_of_none hl, tracklistAppend, hnolist, hview, hl]
    rfl
  · have hlist := listAt_eq_some_iff.1 hl
    have hne : list ≠ u := ne_of_found hlist hfresh
    rw [hl] at hview
    rw [appended_of_list hlist, behaviorOf_tracklistAppend ((hview list).trans ((if_neg hne).trans
      hlist)) ((hview u).trans (if_pos rfl)) (hsize l hlist), hview]
    by_cases hy : y = list
    · rw [if_pos hy, if_pos hy]
    · by_cases hyu : y = u
      · rw [if_neg hy, if_neg hy, if_pos hyu, if_pos hyu]
        rfl
      · simp only [if_neg hy, if_neg hyu]

theorem new_spec (list : NodeId) (h : Stored n g) (hn : n + 1 < 2 ^ 31) :
    let created := TimelineAddTrackCommand.new list g
    created.1.timeline = list ∧ created.1.trackEntry = none ∧
      g.behaviorOf created.1.track = none ∧
      (∃ m, n ≤ m ∧ m ≤ n + 1 ∧ Stored m created.2) ∧
      ∀ y, created.2.behaviorOf y = if y = created.1.track then
        some (.track (newTrackAt (((listAt g.behaviorOf list).map TrackListBehavior.kind).getD
          .video) none 0)) else g.behaviorOf y := by
  obtain ⟨⟨carried, hsound⟩, hlength⟩ := h
  have hroom : g.entries.length < u32Size - 1 := by
    rw [u32Size]
    omega
  obtain ⟨hfresh, hcreated⟩ := Graph.behaviorOf_allocate hsound.freeVacant hroom NodeCore.new
    (.track (newTrackBehavior ((tracklistType g list).getD .video)) : Behavior F β)
  have hle := Graph.length_allocate_le (g := g) NodeCore.new
    (.track (newTrackBehavior ((tracklistType g list).getD .video)) : Behavior F β)
  have hge : g.entries.length ≤ (g.allocate NodeCore.new (.track (newTrackBehavior
      ((tracklistType g list).getD .video)) : Behavior F β)).1.entries.length := by
    rw [Graph.allocate]
    split <;> simp
  exact ⟨rfl, rfl, hfresh, ⟨_, hlength ▸ hge, hlength ▸ hle, ⟨⟨_, hsound.allocate _ _⟩, rfl⟩⟩,
    hcreated⟩

/-- A list that the new track enters keeps its tracks, and the new track is the last one. -/
theorem numbered_appended (hs : Numbered s) (hfresh : s u = none) :
    Numbered (appended s list u) := by
  rcases hl : listAt s list with _ | l
  · have hother {y : NodeId} {b : Behavior F β} (hy : s y = some b) :
        appended s list u y = some b := by
      have hne : y ≠ u := ne_of_found hy hfresh
      rw [appended_of_none hl, if_neg hne, hy]
    have hlists {y : NodeId} {l : TrackListBehavior}
        (hy : appended s list u y = some (.trackList l)) : s y = some (.trackList l) := by
      rw [appended_of_none hl] at hy
      split_ifs at hy
      · cases hy
      · exact hy
    refine ⟨fun y l hy => hs.nodup y l (hlists hy), fun y l i x hy hx => ?_,
      fun x t y hx hlist => ?_⟩
    · obtain ⟨t, ht, hindex⟩ := hs.held y l i x (hlists hy) hx
      exact ⟨t, hother ht, hindex⟩
    · rw [appended_of_none hl] at hx
      split_ifs at hx
      · cases hx
        cases hlist
      · obtain ⟨l, hy, hmem⟩ := hs.holder x t y hx hlist
        exact ⟨l, hother hy, hmem⟩
  · have hlist := listAt_eq_some_iff.1 hl
    have hne : u ≠ list := ne_of_found hfresh hlist
    have htrack {x : NodeId} {t : TrackBehavior F} (hx : s x = some (.track t)) :
        appended s list u x = some (.track t) := by
      have hxlist : x ≠ list := ne_of_found hx hlist
      have hxu : x ≠ u := ne_of_found hx hfresh
      rw [appended_of_list hlist, if_neg hxlist, if_neg hxu, hx]
    have hlists {y : NodeId} {l' : TrackListBehavior}
        (hy : appended s list u y = some (.trackList l')) :
        y = list ∧ l' = { l with tracks := l.tracks ++ [u] } ∨
          y ≠ list ∧ s y = some (.trackList l') := by
      rw [appended_of_list hlist] at hy
      split_ifs at hy with hylist
      · cases hy
        exact Or.inl ⟨hylist, rfl⟩
      · cases hy
      · exact Or.inr ⟨hylist, hy⟩
    refine ⟨fun y l' hy => ?_, fun y l' i x hy hx => ?_, fun x t y hx hxlist => ?_⟩
    · rcases hlists hy with ⟨-, rfl⟩ | ⟨-, hy⟩
      · exact (hs.nodup list l hlist).append (List.nodup_singleton u)
          (List.disjoint_singleton.2 (hs.notMem hfresh hlist))
      · exact hs.nodup y l' hy
    · rcases hlists hy with ⟨rfl, rfl⟩ | ⟨-, hy⟩
      · rw [List.getElem?_append] at hx
        split_ifs at hx with hi
        · obtain ⟨t, ht, hindex⟩ := hs.held y l i x hlist hx
          exact ⟨t, htrack ht, hindex⟩
        · rw [List.getElem?_singleton] at hx
          split_ifs at hx with hlast
          cases hx
          refine ⟨newTrackAt l.kind (some y) l.tracks.length, ?_, ?_, rfl⟩
          · rw [appended_of_list hlist, if_neg hne, if_pos rfl]
          · show (l.tracks.length : ℤ) = i
            omega
      · obtain ⟨t, ht, hindex⟩ := hs.held y l' i x hy hx
        exact ⟨t, htrack ht, hindex⟩
    · rw [appended_of_list hlist] at hx
      split_ifs at hx with hxl hxu
      · cases hx
      · cases hx
        cases hxlist
        exact ⟨_, by rw [appended_of_list hlist, if_pos rfl], by rw [hxu]; simp⟩
      · obtain ⟨l', hy, hmem⟩ := hs.holder x t y hx hxlist
        by_cases hylist : y = list
        · rw [hylist, hlist] at hy
          cases hy
          exact ⟨_, by rw [hylist, appended_of_list hlist, if_pos rfl],
            List.mem_append_left _ hmem⟩
        · have hyu : y ≠ u := ne_of_found hy hfresh
          exact ⟨l', by rw [appended_of_list hlist, if_neg hylist, if_neg hyu, hy], hmem⟩

theorem behaviorOf_unappend (hs : Numbered s) (hfresh : s u = none)
    (hview : g.behaviorOf = appended s list u)
    (hsize : ∀ l, s list = some (.trackList l) → l.tracks.length + 1 < 2 ^ 31) (y : NodeId) :
    (tracklistRemove g list u).behaviorOf y = if y = u then g.behaviorOf u else s y := by
  rcases hl : listAt s list with _ | l
  · have hnolist : trackListBehaviorOf g list = none := by
      have hat : trackListBehaviorOf g list = listAt g.behaviorOf list := rfl
      rw [hat, listAt, hview, appended_of_none hl]
      by_cases heq : list = u
      · rw [if_pos heq]
      · rw [if_neg heq]
        exact hl
    rw [tracklistRemove, hnolist, hview]
    by_cases hy : y = u
    · rw [if_pos hy, hy]
    · rw [if_neg hy, appended_of_none hl, if_neg hy]
  · have hlist := listAt_eq_some_iff.1 hl
    have hne : u ≠ list := ne_of_found hfresh hlist
    have hlist' : g.behaviorOf list = some (.trackList { l with tracks := l.tracks ++ [u] }) := by
      rw [hview, appended_of_list hlist, if_pos rfl]
    have hfilter : (l.tracks ++ [u]).filter (fun t => t ≠ u) = l.tracks := by
      have hnot := hs.notMem hfresh hlist
      rw [List.filter_append, List.filter_eq_self.2 fun y hy => ?_]
      · simp
      · simpa using fun heq : y = u => hnot (heq ▸ hy)
    have hremove := behaviorOf_tracklistRemove u hlist' (fun i x hx => ?_)
      (by rw [List.length_append]; exact hsize l hlist) y
    · dsimp only at hremove
      rw [hremove, hfilter, hview, appended_of_list hlist, appended_of_list hlist, if_neg hne,
        if_pos rfl]
      by_cases hy : y = list
      · have hyu : y ≠ u := fun h => hne (h.symm.trans hy)
        rw [if_pos hy, if_neg hyu, hy, hlist]
      · rw [if_neg hy, if_neg hy]
    · dsimp only at hx
      rw [hfilter] at hx
      obtain ⟨t, ht, hindex, -⟩ := hs.held list l i x hlist hx
      refine ⟨t, ?_, hindex⟩
      have hxlist : x ≠ list := ne_of_found ht hlist
      have hxu : x ≠ u := ne_of_found ht hfresh
      rw [hview, appended_of_list hlist, if_neg hxlist, if_neg hxu, ht]

end Add

/-! ### Removing a track -/

variable {y : NodeId} {l' : TrackListBehavior}

section Remove

variable {g : ProjectGraph F β} {s : View F β} {list u : NodeId} {l : TrackListBehavior}
  {t : TrackBehavior F} {i n : ℕ}

variable (f : TrackBehavior F → TrackBehavior F)

/-- A behavior with the track that it is changed. -/
def onTrack : Behavior F β → Behavior F β
  | .track t => .track (f t)
  | b => b

theorem behaviorOf_modifyTracks {tracks : List NodeId} (hnodup : tracks.Nodup) (y : NodeId) :
    (modifyTracks f tracks g).behaviorOf y =
      if y ∈ tracks then (g.behaviorOf y).map (onTrack f) else g.behaviorOf y := by
  induction tracks generalizing g with
  | nil => simp [modifyTracks]
  | cons x tracks ih =>
    obtain ⟨hx, hnodup⟩ := List.nodup_cons.1 hnodup
    have hfirst : (modifyTrack g f x).behaviorOf y =
        if y = x then (g.behaviorOf y).map (onTrack f) else g.behaviorOf y := by
      rw [modifyTrack, Graph.behaviorOf_modifyBehavior]
      rfl
    have hrest := ih (g := modifyTrack g f x) hnodup
    rw [modifyTracks] at hrest ⊢
    rw [List.foldl_cons, hrest, hfirst]
    by_cases hy : y = x
    · rw [if_pos hy, if_neg (hy ▸ hx), if_pos (hy ▸ List.mem_cons_self)]
    · rw [if_neg hy]
      simp only [List.mem_cons, hy, false_or]

/-- A list without the track at place `i`, whose later tracks move up by one. -/
def removedAt (s : View F β) (list u : NodeId) (l : TrackListBehavior) (i : ℕ) : View F β :=
  fun y =>
    if y = u then none
    else if y = list then some (.trackList { l with tracks := l.tracks.eraseIdx i })
    else if y ∈ l.tracks.drop (i + 1) then
      (s y).map (onTrack fun t => { t with index := t.index - 1 })
    else s y

/-- The place of a track in its list. -/
structure Placed (s : View F β) (list u : NodeId) (l : TrackListBehavior) (i : ℕ)
    (t : TrackBehavior F) : Prop where
  list_eq : s list = some (.trackList l)
  getElem? : l.tracks[i]? = some u
  track_eq : s u = some (.track t)
  index_eq : t.index = i
  trackList_eq : t.trackList = some list

theorem Placed.ne (h : Placed s list u l i t) : u ≠ list := by
  rintro rfl
  have htrack := h.track_eq
  rw [h.list_eq] at htrack
  cases htrack

theorem Placed.idxOf? (h : Placed s list u l i t) (hs : Numbered s) :
    l.tracks.idxOf? u = some i := by
  obtain ⟨hlt, rfl⟩ := List.getElem?_eq_some_iff.1 h.getElem?
  rw [List.idxOf?_eq_some_iff]
  refine ⟨hlt, rfl, fun j hj heq => ?_⟩
  have := (hs.nodup list l h.list_eq).getElem_inj_iff.1 heq
  omega

/-- The tracks behind a track are not it, and have greater numbers. -/
theorem Placed.later (h : Placed s list u l i t) (hs : Numbered s) (hx : x ∈ l.tracks.drop (i + 1))
    :
    x ≠ u ∧ x ≠ list ∧ ∃ t', s x = some (.track t') ∧ (i : ℤ) < t'.index ∧
      t'.index < l.tracks.length := by
  obtain ⟨j, hj⟩ := List.mem_iff_getElem?.1 hx
  rw [List.getElem?_drop] at hj
  obtain ⟨t', ht', hindex, -⟩ := hs.held list l _ x h.list_eq hj
  have hlt := (List.getElem?_eq_some_iff.1 hj).1
  refine ⟨?_, ?_, t', ht', by omega, by omega⟩
  · rintro rfl
    have htrack := h.track_eq
    rw [ht'] at htrack
    cases htrack
    have := h.index_eq
    omega
  · rintro rfl
    have hlist := h.list_eq
    rw [ht'] at hlist
    cases hlist

theorem Numbered.exists_placed (hs : Numbered s) (hu : s u = some (.track t))
    (hlist : t.trackList = some list) : ∃ l i, Placed s list u l i t := by
  obtain ⟨l, hl, hmem⟩ := hs.holder u t list hu hlist
  obtain ⟨i, hi⟩ := List.mem_iff_getElem?.1 hmem
  obtain ⟨t', ht', hindex, -⟩ := hs.held list l i u hl hi
  rw [hu] at ht'
  cases ht'
  exact ⟨l, i, hl, hi, hu, hindex, hlist⟩

theorem removedAt_of_later (hs : Numbered s) (h : Placed s list u l i t) {t' : TrackBehavior F}
    (hx : x ∈ l.tracks.drop (i + 1)) (ht' : s x = some (.track t')) :
    removedAt s list u l i x = some (.track { t' with index := t'.index - 1 }) := by
  obtain ⟨hxu, hxlist, -⟩ := h.later hs hx
  rw [removedAt, if_neg hxu, if_neg hxlist, if_pos hx, ht', Option.map_some]
  rfl

theorem removedAt_of_notMem (hxu : x ≠ u) (hxlist : x ≠ list) (hx : x ∉ l.tracks.drop (i + 1)) :
    removedAt s list u l i x = s x := by
  rw [removedAt, if_neg hxu, if_neg hxlist, if_neg hx]

theorem removedAt_list (h : Placed s list u l i t) :
    removedAt s list u l i list =
      some (.trackList { l with tracks := l.tracks.eraseIdx i }) := by
  rw [removedAt, if_neg (Ne.symm h.ne), if_pos rfl]

section

variable (hs : Numbered s) (h : Placed s list u l i t)

include hs h

theorem of_removedAt_trackList (hy : removedAt s list u l i y = some (.trackList l')) :
    y = list ∧ l' = { l with tracks := l.tracks.eraseIdx i } ∨
      y ≠ list ∧ s y = some (.trackList l') := by
  by_cases hylist : y = list
  · rw [hylist, removedAt_list h] at hy
    cases hy
    exact Or.inl ⟨hylist, rfl⟩
  · by_cases hlater : y ∈ l.tracks.drop (i + 1)
    · obtain ⟨-, -, t', ht', -⟩ := h.later hs hlater
      rw [removedAt_of_later hs h hlater ht'] at hy
      cases hy
    · by_cases hyu : y = u
      · rw [hyu, removedAt, if_pos rfl] at hy
        cases hy
      · rw [removedAt_of_notMem hyu hylist hlater] at hy
        exact Or.inr ⟨hylist, hy⟩

/-- A list stays a list, with the same tracks but for the removed one. -/
theorem removedAt_trackList (hy : s y = some (.trackList l')) (hylist : y ≠ list) :
    removedAt s list u l i y = some (.trackList l') := by
  rw [removedAt_of_notMem ?_ hylist ?_, hy]
  · rintro rfl
    have htrack := h.track_eq
    rw [hy] at htrack
    cases htrack
  · intro hlater
    obtain ⟨-, -, t', ht', -⟩ := h.later hs hlater
    rw [hy] at ht'
    cases ht'

theorem removedAt_eq_none (hy : s y = none) : removedAt s list u l i y = none := by
  by_cases hyu : y = u
  · rw [removedAt, if_pos hyu]
  · rw [removedAt_of_notMem hyu ?_ ?_, hy]
    · rintro rfl
      have hlist := h.list_eq
      rw [hy] at hlist
      cases hlist
    · intro hlater
      obtain ⟨-, -, t', ht', -⟩ := h.later hs hlater
      rw [hy] at ht'
      cases ht'

/-- The tracks of a list without one of them are numbered again. -/
theorem numbered_removedAt : Numbered (removedAt s list u l i) := by
  have hnodup := hs.nodup list l h.list_eq
  refine ⟨fun y l' hy => ?_, fun y l' j x hy hx => ?_, fun x t' y hx hlist => ?_⟩
  · rcases of_removedAt_trackList hs h hy with ⟨-, rfl⟩ | ⟨-, hy⟩
    · exact hnodup.sublist (List.eraseIdx_sublist l.tracks i)
    · exact hs.nodup y l' hy
  · rcases of_removedAt_trackList hs h hy with ⟨rfl, rfl⟩ | ⟨hylist, hy⟩
    · rw [List.getElem?_eraseIdx] at hx
      split_ifs at hx with hj
      · obtain ⟨t', ht', hindex, hlist⟩ := hs.held y l j x h.list_eq hx
        refine ⟨t', ?_, hindex, hlist⟩
        rw [removedAt_of_notMem ?_ ?_ ?_, ht']
        · rintro rfl
          have htrack := h.track_eq
          rw [ht'] at htrack
          cases htrack
          have := h.index_eq
          omega
        · rintro rfl
          have hlist' := h.list_eq
          rw [ht'] at hlist'
          cases hlist'
        · intro hlater
          obtain ⟨-, -, t'', ht'', hlt, -⟩ := h.later hs hlater
          rw [ht'] at ht''
          cases ht''
          omega
      · obtain ⟨t', ht', hindex, hlist⟩ := hs.held y l (j + 1) x h.list_eq hx
        have hlater : x ∈ l.tracks.drop (i + 1) := by
          rw [List.mem_iff_getElem?]
          refine ⟨j - i, ?_⟩
          rw [List.getElem?_drop, ← hx]
          congr 1
          omega
        exact ⟨_, removedAt_of_later hs h hlater ht', by dsimp only; omega, hlist⟩
    · obtain ⟨t', ht', hindex, hlist⟩ := hs.held y l' j x hy hx
      have hother {z : NodeId} (hz : z ∈ l.tracks) : x ≠ z := by
        rintro rfl
        obtain ⟨k, hk⟩ := List.mem_iff_getElem?.1 hz
        obtain ⟨t'', ht'', -, hlist'⟩ := hs.held list l k x h.list_eq hk
        rw [ht'] at ht''
        cases ht''
        rw [hlist] at hlist'
        exact hylist (Option.some.inj hlist')
      refine ⟨t', ?_, hindex, hlist⟩
      rw [removedAt_of_notMem (hother (List.mem_of_getElem? h.getElem?)) ?_ ?_, ht']
      · rintro rfl
        have hlist' := h.list_eq
        rw [ht'] at hlist'
        cases hlist'
      · exact fun hlater => hother (List.mem_of_mem_drop hlater) rfl
  · have hbefore : ∃ t'', s x = some (.track t'') ∧ t''.trackList = some y ∧ x ≠ u := by
      by_cases hxu : x = u
      · rw [hxu, removedAt, if_pos rfl] at hx
        cases hx
      · by_cases hlater : x ∈ l.tracks.drop (i + 1)
        · obtain ⟨-, -, t'', ht'', -⟩ := h.later hs hlater
          rw [removedAt_of_later hs h hlater ht''] at hx
          cases hx
          exact ⟨t'', ht'', hlist, hxu⟩
        · by_cases hxlist : x = list
          · rw [hxlist, removedAt_list h] at hx
            cases hx
          · rw [removedAt_of_notMem hxu hxlist hlater] at hx
            exact ⟨t', hx, hlist, hxu⟩
    obtain ⟨t'', ht'', hlist, hxu⟩ := hbefore
    obtain ⟨l', hy, hmem⟩ := hs.holder x t'' y ht'' hlist
    by_cases hylist : y = list
    · rw [hylist, h.list_eq] at hy
      cases hy
      refine ⟨_, by rw [hylist, removedAt_list h], ?_⟩
      rw [List.mem_eraseIdx_iff_getElem?]
      obtain ⟨k, hk⟩ := List.mem_iff_getElem?.1 hmem
      refine ⟨k, fun hki => hxu ?_, hk⟩
      rw [hki, h.getElem?] at hk
      exact (Option.some.inj hk).symm
    · exact ⟨l', removedAt_trackList hs h hy hylist, hmem⟩

end

theorem Placed.lt (h : Placed s list u l i t) : i < l.tracks.length :=
  (List.getElem?_eq_some_iff.1 h.getElem?).1

theorem Placed.drop_eraseIdx (h : Placed s list u l i t) :
    (l.tracks.eraseIdx i).drop i = l.tracks.drop (i + 1) := by
  rw [List.eraseIdx_eq_take_drop_succ, List.drop_left' (by simp [h.lt.le])]

theorem Placed.insertIdx_eraseIdx (h : Placed s list u l i t) :
    (l.tracks.eraseIdx i).insertIdx i u = l.tracks := by
  obtain ⟨hlt, hi⟩ := List.getElem?_eq_some_iff.1 h.getElem?
  rw [← hi, List.insertIdx_eraseIdx_getElem hlt]

theorem toI32_natCast {k : ℕ} (hk : k < 2 ^ 31) : toI32 k = k :=
  toI32_of_isI32 ⟨by omega, by exact_mod_cast hk⟩

variable (hn : n < 2 ^ 31) (hs : Numbered s) (h : Placed s list u l i t)

include hn hs h

theorem TimelineRemoveTrackCommand.redoPrepared_spec (hg : Stored n g) (hview : g.behaviorOf = s) :
    ∃ e g', redoPrepared ⟨u, some list, some i, none⟩ g = (⟨u, some list, some i, some e⟩, g') ∧
      e.behavior = .track t ∧ e.generation = u.generation ∧ u.index < n ∧ Stored n g' ∧
      g'.behaviorOf = removedAt s list u l i := by
  have hi : i < 2 ^ 31 := by
    have := (hview ▸ hs).length_lt (hview ▸ h.list_eq)
    have := h.lt
    have := hg.length_eq
    omega
  have hlist : trackListBehaviorOf g list = some l :=
    trackListBehaviorOf_eq (hview ▸ h.list_eq)
  obtain ⟨g₂, hg₂⟩ : ∃ g₂, g₂ = modifyTracks (fun t : TrackBehavior F =>
      if toI32 ((some i : Option ℕ).getD 0) < t.index then { t with index := t.index - 1 } else t)
      ((l.tracks.eraseIdx i).drop i)
      (g.modifyBehavior (fun _ => .trackList { l with tracks := l.tracks.eraseIdx i }) list) :=
    ⟨_, rfl⟩
  have hstored : Stored n g₂ := hg₂ ▸ (hg.modifyBehavior _ _).modifyTracks _ _
  have hview₂ (y : NodeId) :
      g₂.behaviorOf y = if y = u then some (.track t) else removedAt s list u l i y := by
    rw [hg₂, h.drop_eraseIdx, behaviorOf_modifyTracks _ (hs.nodup list l h.list_eq).drop,
      Graph.behaviorOf_modifyBehavior, hview]
    by_cases hlater : y ∈ l.tracks.drop (i + 1)
    · obtain ⟨hyu, hylist, t', ht', hlt, -⟩ := h.later hs hlater
      rw [if_pos hlater, if_neg hylist, if_neg hyu, removedAt_of_later hs h hlater ht', ht',
        Option.map_some, onTrack, Option.getD_some, toI32_natCast hi, if_pos hlt]
    · rw [if_neg hlater]
      by_cases hylist : y = list
      · have hyu : y ≠ u := fun heq => h.ne (heq.symm.trans hylist)
        rw [if_pos hylist, if_neg hyu, hylist, removedAt_list h, h.list_eq, Option.map_some]
      · rw [if_neg hylist]
        by_cases hyu : y = u
        · rw [if_pos hyu, hyu, h.track_eq]
        · rw [if_neg hyu, removedAt_of_notMem hyu hylist hlater]
  obtain ⟨e, htaken, hbehavior, hgeneration, hlt, hstored', hview'⟩ :=
    hstored.blockRemoveFromGraph ((hview₂ u).trans (if_pos rfl))
  refine ⟨e, (blockRemoveFromGraph g₂ u).2, ?_, hbehavior, hgeneration, hlt, hstored', ?_⟩
  · simp only [redoPrepared, hlist, h.idxOf? hs, ← hg₂, htaken]
  · funext y
    rw [hview', hview₂]
    split_ifs with hyu
    · rw [hyu, removedAt, if_pos rfl]
    · rfl

theorem TimelineRemoveTrackCommand.undo_spec (hseparate : Separate s) (hg : Stored n g)
    (hview : g.behaviorOf = removedAt s list u l i) (hbehavior : e.behavior = .track t)
    (hgeneration : e.generation = u.generation) (hlt : u.index < n) (hi : i < 2 ^ 31) :
    ∃ g', undo ⟨u, some list, some i, some e⟩ g = (⟨u, some list, some i, none⟩, g') ∧
      Stored n g' ∧ g'.behaviorOf = s := by
  have hfree (y : NodeId) (hy : y.index = u.index) : g.behaviorOf y = none := by
    rw [hview]
    by_cases hyu : y = u
    · rw [removedAt, if_pos hyu]
    · rcases hsy : s y with _ | b
      · exact removedAt_eq_none hs h hsy
      · exact absurd (hseparate y u (by simp [hsy]) (by simp [h.track_eq]) hy) hyu
  obtain ⟨hstored, hadded⟩ := hg.blockAddToGraph hn hlt hgeneration hfree
  generalize hg₁ : blockAddToGraph g u (some e) = g₁ at hstored hadded
  have hlist : trackListBehaviorOf g₁ list = some { l with tracks := l.tracks.eraseIdx i } := by
    apply trackListBehaviorOf_eq
    rw [hadded, if_neg (Ne.symm h.ne), hview, removedAt_list h]
  have hmin : min i (l.tracks.eraseIdx i).length = i := by
    have := h.lt
    rw [List.length_eraseIdx_of_lt h.lt]
    omega
  obtain ⟨g₂, hg₂⟩ : ∃ g₂, g₂ = modifyTracks (fun t : TrackBehavior F =>
      if toI32 i ≤ t.index then { t with index := t.index + 1 } else t) (l.tracks.drop (i + 1))
      (g₁.modifyBehavior (fun _ => .trackList l) list) := ⟨_, rfl⟩
  have hview₂ (y : NodeId) : g₂.behaviorOf y = s y := by
    rw [hg₂, behaviorOf_modifyTracks _ (hs.nodup list l h.list_eq).drop,
      Graph.behaviorOf_modifyBehavior, hadded, hview]
    by_cases hlater : y ∈ l.tracks.drop (i + 1)
    · obtain ⟨hyu, hylist, t', ht', hlt, -⟩ := h.later hs hlater
      have hle : toI32 i ≤ t'.index - 1 := by
        rw [toI32_natCast hi]
        omega
      rw [if_pos hlater, if_neg hylist, if_neg hyu, removedAt_of_later hs h hlater ht', ht',
        Option.map_some, onTrack, if_pos hle]
      dsimp only
      rw [sub_add_cancel]
    · rw [if_neg hlater]
      by_cases hylist : y = list
      · have hyu : y ≠ u := fun heq => h.ne (heq.symm.trans hylist)
        rw [if_pos hylist, if_neg hyu, hylist, removedAt_list h, h.list_eq, Option.map_some]
      · rw [if_neg hylist]
        by_cases hyu : y = u
        · rw [if_pos hyu, hyu, h.track_eq, hbehavior]
        · rw [if_neg hyu, removedAt_of_notMem hyu hylist hlater]
  have hstored₂ : Stored n g₂ := hg₂ ▸ (hstored.modifyBehavior _ _).modifyTracks _ _
  refine ⟨modifyTrack g₂ (fun t => { t with
    trackList := some list
    index := toI32 i }) u, ?_, hstored₂.modifyBehavior _ u, ?_⟩
  · simp only [undo, hg₁, Option.getD_some, hlist, hmin, h.insertIdx_eraseIdx, hg₂]
  · funext y
    rw [behaviorOf_modifyTrack _ ((hview₂ u).trans h.track_eq), hview₂, toI32_natCast hi,
      ← h.index_eq, ← h.trackList_eq]
    split_ifs with hyu
    · rw [hyu, h.track_eq]
    · rfl

end Remove

/-! ### Commands between two states -/

variable {r : TrackSession F β × List (View F β)}

section Between

variable [OfNat F 3] {g : ProjectGraph F β} {c : TrackCommand F β} {s s' : View F β} {n m : ℕ}

/-- A command that is done leads from one state to another. -/
inductive Done (n : ℕ) : TrackCommand F β → View F β → View F β → Prop
  | add {s : View F β} {list u : NodeId} (hfresh : s u = none) :
      Done n (.add ⟨list, u, none⟩) s (appended s list u)
  | remove {s : View F β} {list u : NodeId} {l : TrackListBehavior} {i : ℕ} {t : TrackBehavior F}
      {e : NodeEntry F (Behavior F β)} (h : Placed s list u l i t) (hbehavior : e.behavior = .track t)
      (hgeneration : e.generation = u.generation) (hlt : u.index < n) :
      Done n (.remove ⟨u, some list, some i, some e⟩) s (removedAt s list u l i)
  /-- There is no track, or it is in no list. -/
  | idle {s : View F β} {u : NodeId} (h : ∀ t, s u = some (.track t) → t.trackList = none) :
      Done n (.remove ⟨u, none, none, none⟩) s s

/-- A command that was undone leads from one state to another when it is done again. -/
inductive Undone (n : ℕ) : TrackCommand F β → View F β → View F β → Prop
  | add {s : View F β} {list u : NodeId} {e : NodeEntry F (Behavior F β)} (hfresh : s u = none)
      (hbehavior : appended s list u u = some e.behavior)
      (hgeneration : e.generation = u.generation) (hlt : u.index < n) :
      Undone n (.add ⟨list, u, some e⟩) s (appended s list u)
  | remove {s : View F β} {list u : NodeId} {l : TrackListBehavior} {i : ℕ} {t : TrackBehavior F}
      (h : Placed s list u l i t) :
      Undone n (.remove ⟨u, some list, some i, none⟩) s (removedAt s list u l i)
  | idle {s : View F β} {u : NodeId} (h : ∀ t, s u = some (.track t) → t.trackList = none) :
      Undone n (.remove ⟨u, none, none, none⟩) s s

theorem Done.mono (h : Done n c s s') (hle : n ≤ m) : Done m c s s' := by
  cases h with
  | add hfresh => exact .add hfresh
  | remove h hbehavior hgeneration hlt => exact .remove h hbehavior hgeneration (hlt.trans_le hle)
  | idle h => exact .idle h

theorem Done.numbered (h : Done n c s s') (hs : Numbered s) : Numbered s' := by
  cases h with
  | add hfresh => exact numbered_appended hs hfresh
  | remove h => exact numbered_removedAt hs h
  | idle => exact hs

theorem appended_ne_none {list u y : NodeId} (hy : s y ≠ none) : appended s list u y ≠ none := by
  rcases hl : listAt s list with _ | l
  · rw [appended_of_none hl]
    split_ifs <;> simp [hy]
  · rw [appended_of_list (listAt_eq_some_iff.1 hl)]
    split_ifs <;> simp [hy]

omit [OfNat F 3] in
/-- A removal that finds no track in a list does nothing. -/
theorem prepare_idle {u : NodeId} (h : ∀ t, s u = some (.track t) → t.trackList = none)
    (hview : g.behaviorOf = s) :
    redo (⟨u, none, none, none⟩ : TimelineRemoveTrackCommand F β) g =
      (⟨u, none, none, none⟩, g) := by
  have hnone : (trackBehaviorOf g u).bind TrackBehavior.trackList = none := by
    rw [Option.bind_eq_none_iff]
    intro t ht
    exact h t (hview ▸ trackBehaviorOf_eq_some_iff.1 ht)
  simp only [redo, prepare, hnone,
    redoPrepared]

/-- A command that was undone is done again. -/
theorem Undone.redo (h : Undone n c s s') (hn : n < 2 ^ 31) (hs : Numbered s)
    (hseparate : Separate s') (hg : Stored n g) (hview : g.behaviorOf = s) :
    Done n (c.redo g).1 s s' ∧ Stored n (c.redo g).2 ∧ (c.redo g).2.behaviorOf = s' := by
  cases h with
  | @add _ list u e hfresh hbehavior hgeneration hlt =>
    have hfree (y : NodeId) (hy : y.index = u.index) : g.behaviorOf y = none := by
      rw [hview]
      by_contra hlive
      have hyu := hseparate y u (appended_ne_none hlive) (by simp [hbehavior]) hy
      exact hlive (hyu ▸ hfresh)
    obtain ⟨hstored, hadded⟩ := hg.blockAddToGraph hn hlt hgeneration hfree
    have hsize (l : TrackListBehavior) (hl : s list = some (.trackList l)) :
        l.tracks.length + 1 < 2 ^ 31 := by
      have := (hview ▸ hs).length_lt (hview ▸ hl)
      have := hg.length_eq
      omega
    obtain ⟨owner, index, hself, hnone⟩ := appended_self list hfresh
    have hentry := Option.some.inj (hbehavior.symm.trans hself)
    rw [hview, hentry] at hadded
    exact ⟨.add hfresh, hstored.tracklistAppend list u,
      behaviorOf_append hfresh hadded hnone hsize⟩
  | @remove _ list u l i t h =>
    obtain ⟨e, g', hredo, hbehavior, hgeneration, hlt, hstored, hview'⟩ :=
      redoPrepared_spec hn hs h hg hview
    have heq : (TrackCommand.remove ⟨u, some list, some i, none⟩ : TrackCommand F β).redo g =
        (.remove ⟨u, some list, some i, some e⟩, g') := by
      simp only [TrackCommand.redo, redo,
        prepare, hredo]
    rw [heq]
    exact ⟨.remove h hbehavior hgeneration hlt, hstored, hview'⟩
  | @idle _ u h =>
    rw [TrackCommand.redo, prepare_idle h hview]
    exact ⟨.idle h, hg, hview⟩

/-- A command that is done is undone. -/
theorem Done.undo (h : Done n c s s') (hn : n < 2 ^ 31) (hs : Numbered s)
    (hseparate : Separate s) (hg : Stored n g) (hview : g.behaviorOf = s') :
    Undone n (c.undo g).1 s s' ∧ Stored n (c.undo g).2 ∧ (c.undo g).2.behaviorOf = s := by
  have hs' := h.numbered hs
  cases h with
  | @add _ list u hfresh =>
    have hsize (l : TrackListBehavior) (hl : s list = some (.trackList l)) :
        l.tracks.length + 1 < 2 ^ 31 := by
      have hlist : g.behaviorOf list = some (.trackList { l with tracks := l.tracks ++ [u] }) := by
        rw [hview, appended_of_list hl, if_pos rfl]
      have hlt := (hview ▸ hs').length_lt hlist
      rw [List.length_append, List.length_singleton, hg.length_eq] at hlt
      omega
    obtain ⟨owner, index, hself, -⟩ := appended_self list hfresh
    have hview₁ := behaviorOf_unappend hs hfresh hview hsize
    obtain ⟨e, htaken, hbehavior, hgeneration, hlt, hstored, hview₂⟩ :=
      (hg.tracklistRemove list u).blockRemoveFromGraph
        ((hview₁ u).trans ((if_pos rfl).trans ((congrFun hview u).trans hself)))
    have heq : (TrackCommand.add ⟨list, u, none⟩ : TrackCommand F β).undo g =
        (.add ⟨list, u, some e⟩, (blockRemoveFromGraph (tracklistRemove g list u) u).2) := by
      simp only [TrackCommand.undo, TimelineAddTrackCommand.undo, htaken]
    rw [heq]
    refine ⟨.add hfresh (hself.trans (congrArg some hbehavior.symm)) hgeneration hlt, hstored, ?_⟩
    funext y
    rw [hview₂, hview₁]
    split_ifs with hyu
    · rw [hyu, hfresh]
    · rfl
  | @remove _ list u l i t e h hbehavior hgeneration hlt =>
    have hi : i < 2 ^ 31 := by
      have hlength := (hview ▸ hs').length_lt (hview ▸ removedAt_list h)
      rw [List.length_eraseIdx_of_lt h.lt, hg.length_eq] at hlength
      have := h.lt
      omega
    obtain ⟨g', hundo, hstored, hview'⟩ := undo_spec hn hs h hseparate
      hg hview hbehavior hgeneration hlt hi
    rw [TrackCommand.undo, hundo]
    exact ⟨.remove h, hstored, hview'⟩
  | @idle _ u h =>
    exact ⟨.idle h, hg, hview⟩

theorem add_push (list : NodeId) (hg : Stored n g) (hn : n + 1 < 2 ^ 31)
    (hs : Numbered g.behaviorOf) :
    let created := TimelineAddTrackCommand.new list g
    let redone := (TrackCommand.add created.1).redo created.2
    ∃ m s', n ≤ m ∧ m ≤ n + 1 ∧ Done m redone.1 g.behaviorOf s' ∧ Stored m redone.2 ∧
      redone.2.behaviorOf = s' := by
  obtain ⟨hlist, hentry, hfresh, ⟨m, hle, hge, hstored⟩, hview⟩ := new_spec list hg hn
  generalize TimelineAddTrackCommand.new list g = created at *
  obtain ⟨⟨list', u, entry⟩, g₁⟩ := created
  dsimp only at *
  subst hlist hentry
  have hsize (l : TrackListBehavior) (hl : g.behaviorOf list' = some (.trackList l)) :
      l.tracks.length + 1 < 2 ^ 31 := by
    have := hs.length_lt hl
    have := hg.length_eq
    omega
  exact ⟨m, _, hle, hge, .add hfresh, hstored.tracklistAppend list' u,
    behaviorOf_append hfresh hview (fun _ => ⟨rfl, rfl⟩) hsize⟩

theorem remove_push {u : NodeId} (hg : Stored n g) (hn : n < 2 ^ 31) (hs : Numbered g.behaviorOf) :
    let redone := (TrackCommand.remove (.new u)).redo g
    ∃ s', Done n redone.1 g.behaviorOf s' ∧ Stored n redone.2 ∧ redone.2.behaviorOf = s' := by
  by_cases hidle : ∀ t, g.behaviorOf u = some (.track t) → t.trackList = none
  · refine ⟨g.behaviorOf, ?_⟩
    rw [TrackCommand.redo, new, prepare_idle hidle rfl]
    exact ⟨.idle hidle, hg, rfl⟩
  · simp only [not_forall] at hidle
    obtain ⟨t, ht, hsome⟩ := hidle
    obtain ⟨list, hlist⟩ := Option.ne_none_iff_exists'.1 hsome
    obtain ⟨l, i, h⟩ := hs.exists_placed ht hlist
    obtain ⟨e, g', hredo, hbehavior, hgeneration, hlt, hstored, hview⟩ :=
      redoPrepared_spec hn hs h hg rfl
    have hprepare : prepare
        (⟨u, none, none, none⟩ : TimelineRemoveTrackCommand F β) g =
          ⟨u, some list, some i, none⟩ := by
      have hbind : (trackBehaviorOf g u).bind TrackBehavior.trackList = some list := by
        rw [trackBehaviorOf_eq_some_iff.2 ht, Option.bind_some, hlist]
      have hvalid : g.isValid list = true := by
        rw [Graph.isValid_eq_isSome_behaviorOf, h.list_eq, Option.isSome_some]
      simp only [prepare, hbind, hvalid, if_true,
        trackListBehaviorOf_eq h.list_eq, Option.bind_some, h.idxOf? hs]
    refine ⟨removedAt g.behaviorOf list u l i, ?_⟩
    rw [TrackCommand.redo, redo, new,
      hprepare, hredo]
    exact ⟨.remove h hbehavior hgeneration hlt, hstored, hview⟩

/-! ### Whole sessions -/

/-- The commands that are done lead to a state through the states before them. -/
inductive Past (n : ℕ) : List (TrackCommand F β) → List (View F β) → View F β → Prop
  | nil (s : View F β) : Past n [] [] s
  | cons {c : TrackCommand F β} {cs : List (TrackCommand F β)} {s s' : View F β}
      {ss : List (View F β)} (h : Done n c s s') (hs : Numbered s) (hseparate : Separate s)
      (hpast : Past n cs ss s) : Past n (c :: cs) (s :: ss) s'

/-- The commands that were undone lead on from a state. -/
inductive Future (n : ℕ) : List (TrackCommand F β) → View F β → Prop
  | nil (s : View F β) : Future n [] s
  | cons {c : TrackCommand F β} {cs : List (TrackCommand F β)} {s s' : View F β}
      (h : Undone n c s s') (hseparate : Separate s') (hfuture : Future n cs s') :
      Future n (c :: cs) s

theorem Past.mono {cs : List (TrackCommand F β)} {ss : List (View F β)} (h : Past n cs ss s)
    (hle : n ≤ m) : Past m cs ss s := by
  induction h with
  | nil s => exact .nil s
  | cons h hs hseparate _ ih => exact .cons (h.mono hle) hs hseparate ih

namespace TrackSession

/-- The states before the commands that are done, the last one first. -/
def remember (r : TrackSession F β × List (View F β)) : TrackAction → List (View F β)
  | .addTrack _ | .removeTrack _ => r.1.graph.behaviorOf :: r.2
  | .undo => r.2.tail
  | .redo => if r.1.undone.isEmpty then r.2 else r.1.graph.behaviorOf :: r.2

/-- A session that remembers the states it went through. -/
def track : TrackSession F β × List (View F β) → TrackAction → TrackSession F β × List (View F β) :=
  shadow act remember

/-- What every action keeps, with at most `n` slots in the arena. -/
structure Lawful (n : ℕ) (r : TrackSession F β × List (View F β)) : Prop where
  stored : ∃ m ≤ n, Stored m r.1.graph ∧ Past m r.1.done r.2 r.1.graph.behaviorOf ∧
    Future m r.1.undone r.1.graph.behaviorOf
  numbered : Numbered r.1.graph.behaviorOf

theorem lawful_start (hg : Stored n g) (hs : Numbered g.behaviorOf) : Lawful n (start g, []) :=
  ⟨⟨n, le_rfl, hg, .nil _, .nil _⟩, hs⟩

/-- An undo leads back to the state before the last command. -/
theorem Lawful.undo (h : Lawful n r) (hn : n < 2 ^ 31) :
    Lawful n (track r .undo) ∧
      ∀ s ss, r.2 = s :: ss → (r.1.act .undo).graph.behaviorOf = s := by
  obtain ⟨⟨g, done, undone⟩, past⟩ := r
  obtain ⟨⟨m, hm, hg, hpast, hfuture⟩, hs⟩ := h
  cases hpast with
  | nil => exact ⟨⟨⟨m, hm, hg, .nil _, hfuture⟩, hs⟩, by simp⟩
  | @cons c cs s _ ss hdone hs' hseparate hpast =>
    obtain ⟨hundone, hg', hview⟩ := hdone.undo (hm.trans_lt hn) hs' hseparate hg rfl
    have hseparate' := separate_behaviorOf g
    refine ⟨⟨⟨m, hm, hg', ?_, ?_⟩, ?_⟩, ?_⟩
    · exact hview ▸ hpast
    · exact .cons (hview ▸ hundone) hseparate' hfuture
    · exact hview ▸ hs'
    · rintro s₀ ss₀ heq
      obtain ⟨rfl, -⟩ := List.cons.inj heq
      exact hview

theorem Lawful.redo (h : Lawful n r) (hn : n < 2 ^ 31) : Lawful n (track r .redo) := by
  obtain ⟨⟨g, done, undone⟩, past⟩ := r
  obtain ⟨⟨m, hm, hg, hpast, hfuture⟩, hs⟩ := h
  cases hfuture with
  | nil => exact ⟨⟨m, hm, hg, hpast, .nil _⟩, hs⟩
  | @cons c cs _ s' hundone hseparate hfuture =>
    obtain ⟨hdone, hg', hview⟩ := hundone.redo (hm.trans_lt hn) hs hseparate hg rfl
    refine ⟨⟨m, hm, hg', ?_, ?_⟩, ?_⟩
    · exact .cons (hview ▸ hdone) hs (separate_behaviorOf g) hpast
    · exact hview ▸ hfuture
    · exact hview ▸ hdone.numbered hs

theorem Lawful.mono (h : Lawful n r) (hle : n ≤ m) : Lawful m r := by
  obtain ⟨⟨k, hk, h⟩, hs⟩ := h
  exact ⟨⟨k, hk.trans hle, h⟩, hs⟩

theorem Lawful.act (h : Lawful n r) (hn : n + 1 < 2 ^ 31) (a : TrackAction) :
    Lawful (n + 1) (track r a) := by
  have hn' : n < 2 ^ 31 := by omega
  cases a with
  | addTrack list =>
    obtain ⟨⟨g, done, undone⟩, past⟩ := r
    obtain ⟨⟨m, hm, hg, hpast, -⟩, hs⟩ := h
    obtain ⟨m', s', hle, hge, hdone, hg', hview⟩ := add_push list hg (by omega) hs
    refine ⟨⟨m', by omega, hg', ?_, .nil _⟩, ?_⟩
    · exact .cons (hview ▸ hdone) hs (separate_behaviorOf g) (hpast.mono hle)
    · exact hview ▸ hdone.numbered hs
  | removeTrack u =>
    obtain ⟨⟨g, done, undone⟩, past⟩ := r
    obtain ⟨⟨m, hm, hg, hpast, -⟩, hs⟩ := h
    obtain ⟨s', hdone, hg', hview⟩ := remove_push (u := u) hg (by omega) hs
    refine ⟨⟨m, by omega, hg', ?_, .nil _⟩, ?_⟩
    · exact .cons (hview ▸ hdone) hs (separate_behaviorOf g) hpast
    · exact hview ▸ hdone.numbered hs
  | undo => exact (h.undo hn').1.mono n.le_succ
  | redo => exact (h.redo hn').mono n.le_succ

theorem lawful_run (h : Lawful n r) {as : List TrackAction} (hn : n + as.length < 2 ^ 31) :
    Lawful (n + as.length) (run track r as) := by
  induction as generalizing r n with
  | nil => exact h
  | cons a as ih =>
    rw [List.length_cons] at hn
    have hrest := ih (h.act (by omega) a) (by omega)
    rw [run_cons, List.length_cons]
    exact hrest.mono (by omega)

/-- In every session the tracks of each list have their places as numbers and are in no other list,
and every undo leads back to what the nodes were before the command. -/
theorem trackLists_run {carried : List (NodeId × NodeId)} (hsound : g.Sound carried)
    (hs : Numbered g.behaviorOf) {as : List TrackAction}
    (hsize : g.entries.length + as.length < 2 ^ 31) :
    let r := run track (start g, []) as
    (∀ list l (i : ℕ) x, r.1.graph.behaviorOf list = some (.trackList l) →
      l.tracks[i]? = some x → ∃ t, r.1.graph.behaviorOf x = some (.track t) ∧ t.index = i ∧
        t.trackList = some list ∧ ∀ list' l', r.1.graph.behaviorOf list' = some (.trackList l') →
          x ∈ l'.tracks → list' = list) ∧
      ∀ s ss, r.2 = s :: ss → (r.1.act .undo).graph.behaviorOf = s := by
  have hlawful := lawful_run (lawful_start ⟨⟨carried, hsound⟩, rfl⟩ hs) hsize
  refine ⟨fun list l i x hlist hx => ?_, (hlawful.undo hsize).2⟩
  obtain ⟨t, ht, hindex, howner⟩ := hlawful.numbered.held list l i x hlist hx
  refine ⟨t, ht, hindex, howner, fun list' l' hlist' hmem => ?_⟩
  obtain ⟨j, hj⟩ := List.mem_iff_getElem?.1 hmem
  obtain ⟨t', ht', -, howner'⟩ := hlawful.numbered.held list' l' j x hlist' hj
  rw [ht] at ht'
  cases ht'
  exact Option.some.inj (howner'.symm.trans howner)

end TrackSession

end Between

/-! ### More tracks than numbers -/

/-- The list of `n` tracks. -/
def crowdedTracks (n : ℕ) : TrackListBehavior :=
  ⟨.video, (List.range n).map fun i : ℕ => ⟨i + 1, 0⟩, none, 0⟩

/-- A list in the first slot with `n` tracks behind it. -/
def crowdedList (n : ℕ) : ProjectGraph ℚ Unit where
  entries := .live ⟨.new, .trackList (crowdedTracks n), 0⟩ :: (List.range n).map fun i : ℕ =>
    .live ⟨.new, .track (TimelineAddTrackCommand.newTrackAt .video (some ⟨0, 0⟩) i), 0⟩
  freeList := []
  edges := ∅
  inputNames := fun _ => none

section Crowded

variable {n : ℕ}

theorem getElem?_range_iff {i j : ℕ} : (List.range n)[i]? = some j ↔ i < n ∧ i = j := by
  rw [List.getElem?_eq_some_iff]
  simp

theorem get_crowdedList {e : NodeEntry ℚ (Behavior ℚ Unit)} (h : (crowdedList n).get x = some e) :
    x = ⟨0, 0⟩ ∧ e = ⟨.new, .trackList (crowdedTracks n), 0⟩ ∨
      ∃ i < n, x = ⟨i + 1, 0⟩ ∧
        e = ⟨.new, .track (TimelineAddTrackCommand.newTrackAt .video (some ⟨0, 0⟩) i), 0⟩ := by
  obtain ⟨-, hslot, hgeneration⟩ := Graph.get_eq_some_iff.1 h
  rcases x with ⟨_ | i, k⟩
  · simp only [crowdedList, List.getElem?_cons_zero, Option.some.injEq, Slot.live.injEq] at hslot
    subst hslot hgeneration
    exact Or.inl ⟨rfl, rfl⟩
  · simp only [crowdedList, List.getElem?_cons_succ, List.getElem?_map, Option.map_eq_some_iff,
      Slot.live.injEq, getElem?_range_iff] at hslot
    obtain ⟨j, ⟨hlt, rfl⟩, rfl⟩ := hslot
    subst hgeneration
    exact Or.inr ⟨i, hlt, rfl, rfl⟩

theorem behaviorOf_crowdedList {b : Behavior ℚ Unit} (h : (crowdedList n).behaviorOf x = some b) :
    x = ⟨0, 0⟩ ∧ b = .trackList (crowdedTracks n) ∨
      ∃ i < n, x = ⟨i + 1, 0⟩ ∧
        b = .track (TimelineAddTrackCommand.newTrackAt .video (some ⟨0, 0⟩) i) := by
  obtain ⟨e, he, rfl⟩ := Graph.behaviorOf_eq_some_iff.1 h
  rcases get_crowdedList he with ⟨hx, rfl⟩ | ⟨i, hi, hx, rfl⟩
  · exact Or.inl ⟨hx, rfl⟩
  · exact Or.inr ⟨i, hi, hx, rfl⟩

theorem behaviorOf_crowdedList_zero :
    (crowdedList n).behaviorOf ⟨0, 0⟩ = some (.trackList (crowdedTracks n)) := rfl

theorem behaviorOf_crowdedList_succ {i : ℕ} (hi : i < n) (hn : n < u32Size - 2) :
    (crowdedList n).behaviorOf ⟨i + 1, 0⟩ =
      some (.track (TimelineAddTrackCommand.newTrackAt .video (some ⟨0, 0⟩) i)) := by
  have hget : (crowdedList n).get ⟨i + 1, 0⟩ = some ⟨.new,
      .track (TimelineAddTrackCommand.newTrackAt .video (some ⟨0, 0⟩) i), 0⟩ := by
    refine Graph.get_eq_some_iff.2 ⟨?_, ?_, rfl⟩
    · rw [NodeId.valid, decide_eq_true_eq]
      dsimp only
      omega
    · simp only [crowdedList, List.getElem?_cons_succ, List.getElem?_map, List.getElem?_range hi,
        Option.map_some]
  exact Graph.behaviorOf_of_get hget

theorem getElem?_crowdedTracks {i : ℕ} :
    (crowdedTracks n).tracks[i]? = some x ↔ i < n ∧ x = ⟨i + 1, 0⟩ := by
  simp only [crowdedTracks, List.getElem?_map, Option.map_eq_some_iff, getElem?_range_iff]
  constructor
  · rintro ⟨j, ⟨hi, rfl⟩, rfl⟩
    exact ⟨hi, rfl⟩
  · rintro ⟨hi, rfl⟩
    exact ⟨i, ⟨hi, rfl⟩, rfl⟩

theorem numbered_crowdedList (hn : n < u32Size - 2) : Numbered (crowdedList n).behaviorOf := by
  refine ⟨fun list l hl => ?_, fun list l i x hl hx => ?_, fun x t list hx hlist => ?_⟩
  · rcases behaviorOf_crowdedList hl with ⟨-, hb⟩ | ⟨i, -, -, hb⟩
    · cases hb
      exact List.nodup_range.map fun i j hij => by simpa using hij
    · cases hb
  · rcases behaviorOf_crowdedList hl with ⟨rfl, hb⟩ | ⟨i, -, -, hb⟩
    · cases hb
      obtain ⟨hi, rfl⟩ := getElem?_crowdedTracks.1 hx
      exact ⟨_, behaviorOf_crowdedList_succ hi hn, rfl, rfl⟩
    · cases hb
  · rcases behaviorOf_crowdedList hx with ⟨-, hb⟩ | ⟨i, hi, rfl, hb⟩
    · cases hb
    · cases hb
      cases hlist
      exact ⟨_, behaviorOf_crowdedList_zero,
        List.mem_of_getElem? (getElem?_crowdedTracks.2 ⟨hi, rfl⟩)⟩

theorem sound_crowdedList : (crowdedList n).Sound [] := by
  refine ⟨⟨List.nodup_nil, fun i => ?_⟩, EdgesOk.empty, fun a b hb => ?_⟩
  · rcases i with _ | i
    · simp [crowdedList, Graph.shells, Slot.shell, Slot.occupant]
    · simp [crowdedList, Graph.shells, Slot.shell, Slot.occupant]
  · rcases hget : (crowdedList n).get a with _ | e
    · rw [Graph.linksOf_of_stale hget] at hb
      exact absurd hb List.not_mem_nil
    · rw [Graph.linksOf_of_get hget] at hb
      rcases get_crowdedList hget with ⟨-, rfl⟩ | ⟨i, -, -, rfl⟩
      · exact absurd hb List.not_mem_nil
      · exact absurd hb List.not_mem_nil

/-- A track that is added to a list of `n` tracks, when its number is below zero, knows nothing of
the list. -/
theorem addTrack_crowdedList (hn : n < u32Size - 2) (hindex : toI32 (n + 1) - 1 < 0) :
    ∃ l x t, ((TrackSession.start (crowdedList n)).act (.addTrack ⟨0, 0⟩)).graph.behaviorOf
        ⟨0, 0⟩ = some (.trackList l) ∧ l.tracks[n]? = some x ∧
      ((TrackSession.start (crowdedList n)).act (.addTrack ⟨0, 0⟩)).graph.behaviorOf x =
        some (.track t) ∧ t.index = 0 ∧ t.trackList = none := by
  have hlength : (crowdedList n).entries.length = n + 1 := by simp [crowdedList]
  obtain ⟨hfresh, hcreated⟩ := Graph.behaviorOf_allocate (sound_crowdedList (n := n)).freeVacant
    (by omega) NodeCore.new (.track (newTrackBehavior .video) : Behavior ℚ Unit)
  have hkind : tracklistType (crowdedList n) ⟨0, 0⟩ = some .video := by
    rw [tracklistType, trackListBehaviorOf_eq behaviorOf_crowdedList_zero]
    rfl
  have hnew : TimelineAddTrackCommand.new ⟨0, 0⟩ (crowdedList n) =
      (⟨⟨0, 0⟩, ((crowdedList n).allocate NodeCore.new (.track (newTrackBehavior .video))).2, none⟩,
        ((crowdedList n).allocate NodeCore.new (.track (newTrackBehavior .video))).1) := by
    rw [TimelineAddTrackCommand.new, hkind]
    rfl
  generalize (crowdedList n).allocate NodeCore.new
    (.track (newTrackBehavior .video) : Behavior ℚ Unit) = created at hfresh hcreated hnew
  obtain ⟨g, u⟩ := created
  dsimp only at hfresh hcreated hnew
  have hne : (⟨0, 0⟩ : NodeId) ≠ u := ne_of_found behaviorOf_crowdedList_zero hfresh
  have hlist : g.behaviorOf ⟨0, 0⟩ = some (.trackList (crowdedTracks n)) := by
    rw [hcreated, if_neg hne, behaviorOf_crowdedList_zero]
  have hcount : (crowdedTracks n).tracks.length = n := by simp [crowdedTracks]
  have happend : tracklistAppend g ⟨0, 0⟩ u = g.modifyBehavior (fun _ => .trackList
      { crowdedTracks n with tracks := (crowdedTracks n).tracks ++ [u] }) ⟨0, 0⟩ := by
    simp only [tracklistAppend, trackListBehaviorOf_eq hlist, hcount]
    exact if_neg (not_le.2 hindex)
  have hact : ((TrackSession.start (crowdedList n)).act (.addTrack ⟨0, 0⟩)).graph =
      tracklistAppend g ⟨0, 0⟩ u := by
    rw [TrackSession.act, TrackSession.start, TrackSession.push]
    dsimp only
    rw [hnew]
    rfl
  rw [hact, happend]
  refine ⟨{ crowdedTracks n with tracks := (crowdedTracks n).tracks ++ [u] }, u,
    newTrackBehavior .video, ?_, ?_, ?_, rfl, rfl⟩
  · rw [Graph.behaviorOf_modifyBehavior, if_pos rfl, hlist, Option.map_some]
  · rw [List.getElem?_append_right hcount.le, hcount, Nat.sub_self]
    rfl
  · rw [Graph.behaviorOf_modifyBehavior, if_neg (Ne.symm hne), hcreated, if_pos rfl]

/-- With `2 ^ 31` tracks in a list, the next track gets no number. -/
theorem trackLists_crowded :
    (crowdedList (2 ^ 31)).Sound [] ∧ Numbered (crowdedList (2 ^ 31)).behaviorOf ∧
      ∃ l x t, ((TrackSession.start (crowdedList (2 ^ 31))).act (.addTrack ⟨0, 0⟩)).graph.behaviorOf
          ⟨0, 0⟩ = some (.trackList l) ∧ l.tracks[2 ^ 31]? = some x ∧
        ((TrackSession.start (crowdedList (2 ^ 31))).act (.addTrack ⟨0, 0⟩)).graph.behaviorOf x =
          some (.track t) ∧ t.index = 0 ∧ t.trackList = none :=
  ⟨sound_crowdedList, numbered_crowdedList (by norm_num [u32Size]),
    addTrack_crowdedList (by norm_num [u32Size]) (by norm_num [toI32, Int.bmod])⟩

/-- The second of three tracks is removed and a track is added, both are undone, and the removal is
done again. -/
theorem trackLists_run_three :
    let r := run TrackSession.track (TrackSession.start (crowdedList 3), [])
      [.removeTrack ⟨2, 0⟩, .addTrack ⟨0, 0⟩, .undo, .undo, .redo]
    (∀ list l (i : ℕ) x, r.1.graph.behaviorOf list = some (.trackList l) →
      l.tracks[i]? = some x → ∃ t, r.1.graph.behaviorOf x = some (.track t) ∧ t.index = i ∧
        t.trackList = some list ∧ ∀ list' l', r.1.graph.behaviorOf list' = some (.trackList l') →
          x ∈ l'.tracks → list' = list) ∧
      ∀ s ss, r.2 = s :: ss → (r.1.act .undo).graph.behaviorOf = s :=
  TrackSession.trackLists_run sound_crowdedList (numbered_crowdedList (by norm_num [u32Size]))
    (by simp [crowdedList])

end Crowded

end Oak.Timeline
