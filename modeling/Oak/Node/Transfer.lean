import Oak.Lib.Relabel
import Oak.Node.Heap
import Mathlib.Data.List.Nodup

/-!
# Moving a whole graph

`transfer_all` of `oak-node/src/graph.rs`: the nodes of a graph are taken out in the order of their
slots and put into another graph, each under its own id when its slot is vacant there. The edges are
read after the nodes were taken out, and a stored link keeps the old id of its partner.

* `Transfer` is a state of the call, `HashOrder` the order in which the new ids come out of the map.
* `recorded` are the links that a node is taken out with, and `Vacancy` are the slots that it may
  get.
* `Transferred` says what the call is for, `Movable` that it loses nothing.

## Main results

* `moving_run`: where the nodes are after some of them were moved.
* `Relinked.areLinked`: the missing directions of links are added between linked nodes only.
* `transferAll_movable`: when exactly a graph is moved as a whole.
-/

namespace Oak.Node

open Oak.Lib

variable {F β : Type*}

/-! ### The code -/

/-- The graph that adopts nodes, the graph that they come from, and the new ids. -/
structure Transfer (F β : Type*) where
  graph : Graph F β
  other : Graph F β
  map : NodeId → Option NodeId

/-- The order of the values of a hash map. -/
structure HashOrder where
  order : List NodeId → List NodeId
  perm : ∀ ids, (order ids).Perm ids

namespace Transfer

def start (g other : Graph F β) : Transfer F β := ⟨g, other, fun _ => none⟩

/-- One round of the loop that moves the nodes. -/
def move (s : Transfer F β) (id : NodeId) : Transfer F β :=
  match s.other.takeNode id with
  | none => s
  | some (other, entry) =>
    let added := s.graph.addEntry entry id
    ⟨added.1, other, Function.update s.map id (some added.2)⟩

/-- One round of the loop that creates the edges again. -/
def reconnect (map : NodeId → Option NodeId) (g : Graph F β)
    (edge : NodeId × NodeId × String × ℤ) : Graph F β :=
  let (source, target, input, element) := edge
  match g.connect ((map source).getD source) ((map target).getD target) input element with
  | .ok g' => g'
  | .error _ => g

/-- One round of the loop that adds the missing directions of links. -/
def relink (g : Graph F β) (id : NodeId) : Graph F β :=
  (g.linksOf id).foldl
    (fun h partner => h.modifyLinks (fun ls => if ls.contains id then ls else ls ++ [id]) partner) g

end Transfer

/-- `transfer_all`. -/
def Graph.transferAll (hash : HashOrder) (g other : Graph F β) : Transfer F β :=
  let moved := other.nodeIds.foldl Transfer.move (.start g other)
  let connected := moved.other.outputConnectionsAll.foldl (Transfer.reconnect moved.map) moved.graph
  let ids := hash.order (other.nodeIds.filterMap moved.map)
  { moved with graph := ids.foldl Transfer.relink connected }

/-! ### The slots that a node may get -/

/-- The free slots of a graph, the next one to use first, and the number of all. -/
structure Vacancy where
  free : List ℕ
  count : ℕ
  deriving DecidableEq, Repr

namespace Vacancy

/-- The slots after a node was put into one of them. -/
def claim (v : Vacancy) (id : NodeId) : Vacancy :=
  if id.index ∈ v.free then { v with free := v.free.filter fun i => i ≠ id.index }
  else
    match v.free with
    | _ :: rest => { v with free := rest }
    | [] => { v with count := v.count + 1 }

/-- The slot that a node is put into: its own one when that is free. -/
def slotFor (v : Vacancy) (id : NodeId) : ℕ :=
  if id.index ∈ v.free then id.index else v.free.headD v.count

/-- A node keeps its id: its slot is free, or is the next one behind all slots. -/
def Keeps (v : Vacancy) (id : NodeId) : Prop :=
  id.index ∈ v.free ∨ v.free = [] ∧ v.count = id.index ∧ id.generation = 0

instance (v : Vacancy) (id : NodeId) : Decidable (v.Keeps id) := by
  unfold Keeps
  infer_instance

variable {v : Vacancy} {id p : NodeId}

theorem free_claim : (v.claim id).free ⊆ v.free := by
  intro i hi
  rw [claim] at hi
  split_ifs at hi
  · exact List.mem_of_mem_filter hi
  · split at hi
    · next j rest heq =>
      rw [heq]
      exact List.mem_cons_of_mem j hi
    · next heq => exact hi

theorem count_claim : v.count ≤ (v.claim id).count := by
  rw [claim]
  split_ifs
  · exact le_refl _
  · split
    · exact le_refl _
    · exact Nat.le_succ _

theorem free_claims (ids : List NodeId) : (ids.foldl claim v).free ⊆ v.free := by
  induction ids generalizing v with
  | nil => exact List.Subset.refl _
  | cons id ids ih => exact List.Subset.trans ih free_claim

theorem count_claims (ids : List NodeId) : v.count ≤ (ids.foldl claim v).count := by
  induction ids generalizing v with
  | nil => exact le_refl _
  | cons id ids ih => exact count_claim.trans ih

/-- A node whose slot is not free does not get a slot behind its own when a later node is put
into its slot. -/
theorem slotFor_lt (hfree : ∀ i ∈ v.free, i < v.count) (hid : id.index ∉ v.free)
    (ids : List NodeId) (hp : ((ids.foldl claim (v.claim id)).slotFor p) = id.index) :
    v.slotFor id < id.index := by
  have hlater : (ids.foldl claim (v.claim id)).count ≤ id.index := by
    have hsub := List.Subset.trans (free_claims ids)
      (free_claim : (v.claim id).free ⊆ v.free)
    rw [slotFor] at hp
    split_ifs at hp with hmem
    · exact absurd (hsub (hp ▸ hmem)) hid
    · rcases hlist : (ids.foldl claim (v.claim id)).free with _ | ⟨i, rest⟩
      · rw [hlist] at hp
        exact hp.le
      · rw [hlist] at hp
        have hi : i ∈ (ids.foldl claim (v.claim id)).free := by
          rw [hlist]
          exact List.mem_cons_self
        exact absurd (hsub hi) (by rwa [show i = id.index from hp])
  have hcount := (count_claims ids (v := v.claim id)).trans hlater
  rw [slotFor, if_neg hid]
  rcases hlist : v.free with _ | ⟨i, rest⟩
  · rw [claim, if_neg hid, hlist] at hcount
    exact hcount
  · have hi := hfree i (by rw [hlist]; exact List.mem_cons_self)
    have hle : v.count ≤ (v.claim id).count := count_claim
    show i < id.index
    omega

end Vacancy

variable {carried' : List (NodeId × NodeId)}

namespace Graph

variable {g g' other : Graph F β} {carried : List (NodeId × NodeId)} {id x y : NodeId}
  {entry : NodeEntry F β}

/-- The slots of a graph. -/
def vacancy (g : Graph F β) : Vacancy := ⟨g.freeList, g.entries.length⟩

section

variable (hg : g.Sound carried)

include hg

theorem mem_freeList_iff {i : ℕ} : i ∈ g.freeList ↔ ∃ n, g.entries[i]? = some (.vacant n) := by
  rw [hg.slots.mem_iff]
  simp only [shells_eq_vacant_iff]

theorem vacancy_addEntry (entry : NodeEntry F β) (id : NodeId) :
    (g.addEntry entry id).1.vacancy = g.vacancy.claim id := by
  by_cases hslot : ∃ n, g.entries[id.index]? = some (.vacant n)
  · have hmem := (mem_freeList_iff hg).2 hslot
    obtain ⟨n, hn⟩ := hslot
    rw [addEntry_in_place hn, vacancy, vacancy, Vacancy.claim, if_pos hmem, List.length_set]
  · have hmem := mt (mem_freeList_iff hg).1 hslot
    rw [addEntry_elsewhere fun n hn => hslot ⟨n, hn⟩]
    rcases hlist : g.freeList with _ | ⟨i, rest⟩
    · rw [allocate_append hlist, vacancy, vacancy, Vacancy.claim, if_neg hmem]
      dsimp only
      rw [hlist, List.length_append, List.length_singleton]
    · rw [allocate_reuse hlist, vacancy, vacancy, Vacancy.claim, if_neg hmem]
      dsimp only
      rw [hlist, List.length_set]

theorem index_addEntry (hroom : g.entries.length < u32Size) (entry : NodeEntry F β) (id : NodeId) :
    (g.addEntry entry id).2.index = g.vacancy.slotFor id := by
  by_cases hslot : ∃ n, g.entries[id.index]? = some (.vacant n)
  · have hmem := (mem_freeList_iff hg).2 hslot
    obtain ⟨n, hn⟩ := hslot
    rw [addEntry_in_place hn, vacancy, Vacancy.slotFor, if_pos hmem]
  · have hmem := mt (mem_freeList_iff hg).1 hslot
    rw [addEntry_elsewhere fun n hn => hslot ⟨n, hn⟩, vacancy, Vacancy.slotFor, if_neg hmem]
    rcases hlist : g.freeList with _ | ⟨i, rest⟩
    · rw [allocate_append hlist]
      exact Nat.mod_eq_of_lt hroom
    · rw [allocate_reuse hlist]
      rfl

theorem addEntry_eq_self_iff (hroom : g.entries.length < u32Size)
    (hgen : entry.generation = id.generation) :
    (g.addEntry entry id).2 = id ↔ g.vacancy.Keeps id := by
  by_cases hslot : ∃ n, g.entries[id.index]? = some (.vacant n)
  · have hmem := (mem_freeList_iff hg).2 hslot
    obtain ⟨n, hn⟩ := hslot
    rw [addEntry_in_place hn, hgen]
    exact ⟨fun _ => .inl hmem, fun _ => rfl⟩
  · have hmem := mt (mem_freeList_iff hg).1 hslot
    rw [addEntry_elsewhere fun n hn => hslot ⟨n, hn⟩, vacancy, Vacancy.Keeps]
    rcases hlist : g.freeList with _ | ⟨i, rest⟩
    · rw [allocate_append hlist, Nat.mod_eq_of_lt hroom]
      constructor
      · rintro rfl
        exact .inr ⟨rfl, rfl, rfl⟩
      · rintro (hin | ⟨-, hindex, hzero⟩)
        · exact absurd hin List.not_mem_nil
        · exact NodeId.ext hindex hzero.symm
    · rw [allocate_reuse hlist]
      constructor
      · rintro rfl
        rw [hlist] at hmem
        exact absurd List.mem_cons_self hmem
      · rintro (hin | ⟨hnil, -⟩)
        · rw [hlist] at hmem
          exact absurd hin hmem
        · exact absurd hnil (by simp)

theorem get_addEntry_fresh (hroom : g.entries.length < u32Size - 1) (entry : NodeEntry F β)
    (id : NodeId) : g.get (g.addEntry entry id).2 = none := by
  by_cases hslot : ∃ n, g.entries[id.index]? = some (.vacant n)
  · obtain ⟨n, hn⟩ := hslot
    rw [addEntry_in_place hn]
    exact get_of_vacant hn
  · rw [addEntry_elsewhere fun n hn => hslot ⟨n, hn⟩]
    exact get_allocate_fresh hg.freeVacant hroom _ _

end

theorem length_addEntry_le (entry : NodeEntry F β) (id : NodeId) :
    (g.addEntry entry id).1.entries.length ≤ g.entries.length + 1 := by
  rw [addEntry]
  split
  · rw [List.length_set]
    omega
  · exact length_allocate_le _ _

theorem get_addEntry_self (hg : g.Sound carried) (hroom : g.entries.length < u32Size - 1)
    (hvalid : id.valid = true) (hgen : entry.generation = id.generation) :
    ∃ e, (g.addEntry entry id).1.get (g.addEntry entry id).2 = some e ∧ e.core = entry.core ∧
      e.behavior = entry.behavior := by
  by_cases hslot : ∃ n, g.entries[id.index]? = some (.vacant n)
  · obtain ⟨n, hn⟩ := hslot
    have hlt : id.index < g.entries.length := (List.getElem?_eq_some_iff.1 hn).1
    rw [addEntry_in_place hn, hgen]
    exact ⟨entry, get_eq_some_iff.2 ⟨hvalid, List.getElem?_set_self hlt, hgen⟩, rfl, rfl⟩
  · rw [addEntry_elsewhere fun n hn => hslot ⟨n, hn⟩]
    obtain ⟨generation, hself⟩ := get_allocate_self hg.freeVacant hroom entry.core entry.behavior
    exact ⟨_, hself, rfl, rfl⟩

/-! ### Moving the nodes -/

/-- The links that a node still has when its partners among some nodes were taken out. -/
def linksWithout (other : Graph F β) (gone : NodeId → Prop) [DecidablePred gone] (x : NodeId) :
    List NodeId :=
  (other.linksOf x).filter fun l => ¬ (gone l ∧ x ∈ other.linksOf l)

/-- The links that a node is taken out with. -/
def recorded (other : Graph F β) (x : NodeId) : List NodeId :=
  other.linksWithout (fun l => l.index < x.index) x

/-- The slots of `g` after the nodes of `done` were put there. -/
def vacancyAfter (g : Graph F β) (done : List NodeId) : Vacancy := done.foldl .claim g.vacancy

/-- Where the nodes are after those of `done` were moved. -/
structure Moving (g other : Graph F β) (done : List NodeId) (s : Transfer F β) : Prop where
  sound : ∃ carried, s.graph.Sound carried
  otherSound : ∃ carried, s.other.Sound carried
  vacancy : s.graph.vacancy = g.vacancyAfter done
  room : s.graph.entries.length ≤ g.entries.length + done.length
  edges : s.graph.edges = g.edges
  left : ∀ x, s.other.get x = if x ∈ done then none
    else (other.get x).map (.withLinks fun _ => other.linksWithout (· ∈ done) x)
  map : ∀ x, (s.map x).isSome = true ↔ x ∈ done
  moved : ∀ x y, s.map x = some y → g.get y = none ∧ ∃ e e', other.get x = some e ∧
    s.graph.get y = some e' ∧ e'.behavior = e.behavior ∧
      e'.core = { e.core with links := other.recorded x }
  injective : ∀ x x' y, s.map x = some y → s.map x' = some y → x = x'
  own : ∀ y e, g.get y = some e → s.graph.get y = some e
  nodes : ∀ y e, s.graph.get y = some e → g.get y = some e ∨ ∃ x, s.map x = some y

theorem moving_start (hg : g.Sound carried) (hother : other.Sound carried') :
    Moving g other [] (.start g other) where
  sound := ⟨carried, hg⟩
  otherSound := ⟨carried', hother⟩
  vacancy := rfl
  room := Nat.le_add_right _ _
  edges := rfl
  left x := by
    have hlinks : other.linksWithout (· ∈ ([] : List NodeId)) x = other.linksOf x := by
      simp [linksWithout]
    rw [if_neg List.not_mem_nil, hlinks]
    rcases hget : other.get x with _ | e
    · exact hget
    · rw [Option.map_some, linksOf_of_get hget]
      exact hget
  map x := by simp [Transfer.start]
  moved x y h := nomatch h
  injective x x' y h := nomatch h
  own y e h := h
  nodes y e h := Or.inl h

/-- What is left of the links, after one more node was taken out. -/
theorem linksWithout_concat {done : List NodeId} (hx : x ∉ done) (hydone : y ∉ done) :
    other.linksWithout (· ∈ done ++ [x]) y =
      if y ∈ other.linksWithout (· ∈ done) x then
        (other.linksWithout (· ∈ done) y).filter fun l => l ≠ x
      else other.linksWithout (· ∈ done) y := by
  have hmem : y ∈ other.linksWithout (· ∈ done) x ↔ y ∈ other.linksOf x := by
    simp [linksWithout, List.mem_filter, hydone]
  by_cases hlinked : y ∈ other.linksOf x
  · rw [if_pos (hmem.2 hlinked), linksWithout, linksWithout, List.filter_filter]
    refine List.filter_congr fun l _ => ?_
    by_cases hlx : l = x
    · subst hlx
      simp [hlinked]
    · simp [hlx]
  · rw [if_neg (mt hmem.1 hlinked)]
    refine List.filter_congr fun l _ => ?_
    by_cases hlx : l = x
    · subst hlx
      simp [hlinked, hx]
    · simp [hlx]

/-- The links that a node has when those before it are gone are the ones it is taken out with. -/
theorem linksWithout_eq_recorded {done : List NodeId}
    (hbefore : ∀ l, other.isValid l = true → (l ∈ done ↔ l.index < x.index)) :
    other.linksWithout (· ∈ done) x = other.recorded x := by
  refine List.filter_congr fun l _ => ?_
  rcases hget : other.get l with _ | e
  · rw [linksOf_of_stale hget]
    simp
  · simp only [hbefore l (isValid_of_get hget)]

variable {done : List NodeId} {s : Transfer F β} {e : NodeEntry F β}

section

variable (h : Moving g other done s)
  (hbefore : ∀ l, other.isValid l = true → (l ∈ done ↔ l.index < x.index))
  (hx : other.get x = some e)

include h hbefore hx

/-- What is left of the other graph after one more node was taken out. -/
theorem Moving.left_takeNode :
    ∃ g₁, s.other.takeNode x = some (g₁, e.withLinks fun _ => other.recorded x) ∧
      ∀ z, g₁.get z = if z ∈ done ++ [x] then none
        else (other.get z).map (.withLinks fun _ => other.linksWithout (· ∈ done ++ [x]) z) := by
  have hnot : x ∉ done := fun hmem =>
    absurd ((hbefore x (isValid_of_get hx)).1 hmem) (lt_irrefl _)
  have hrecorded := linksWithout_eq_recorded hbefore
  have hleft : s.other.get x = some (e.withLinks fun _ => other.recorded x) := by
    rw [h.left, if_neg hnot, hx, Option.map_some, hrecorded]
  obtain ⟨⟨g₁, entry⟩, htake⟩ : ∃ t, s.other.takeNode x = some t := by
    rw [← Option.isSome_iff_exists, takeNode_isSome_iff, isValid_of_get hleft]
  obtain ⟨hget, -, -, -, -, hgets⟩ := takeNode_spec htake
  obtain rfl := Option.some.inj (hget.symm.trans hleft)
  refine ⟨g₁, htake, fun z => ?_⟩
  have hlinks : (e.withLinks fun _ => other.recorded x).core.links =
      other.linksWithout (· ∈ done) x := hrecorded.symm
  rw [hgets, hlinks, h.left]
  by_cases hzx : z = x
  · rw [if_pos (congrArg NodeId.index hzx), if_pos (by simp [hzx])]
  · by_cases hz : z ∈ done
    · rw [if_pos (List.mem_append_left _ hz), if_pos hz]
      split_ifs <;> rfl
    · have hz' : z ∉ done ++ [x] := by simp [hz, hzx]
      rw [if_neg hz', if_neg hz, linksWithout_concat hnot hz]
      rcases hzget : other.get z with _ | d
      · split_ifs <;> rfl
      · have hindex : z.index ≠ x.index := fun hi => hzx (eq_of_index_eq hzget hx hi)
        rw [if_neg hindex]
        split_ifs <;> rfl

theorem Moving.step (hroom : g.entries.length + done.length < u32Size - 1) :
    Moving g other (done ++ [x]) (s.move x) ∧
      (∃ y, (s.move x).map x = some y ∧ y.index = (g.vacancyAfter done).slotFor x ∧
        (y = x ↔ (g.vacancyAfter done).Keeps x)) ∧
      ∀ z, z ≠ x → (s.move x).map z = s.map z := by
  have hnot : x ∉ done := fun hmem =>
    absurd ((hbefore x (isValid_of_get hx)).1 hmem) (lt_irrefl _)
  have hunmapped : s.map x = none := by
    rw [← Option.not_isSome_iff_eq_none, h.map]
    exact hnot
  obtain ⟨g₁, htake, hleft⟩ := h.left_takeNode hbefore hx
  obtain ⟨carried, hsound⟩ := h.sound
  obtain ⟨carried', hother⟩ := h.otherSound
  have hlen := h.room
  let entry := e.withLinks fun _ => other.recorded x
  have hgen : entry.generation = x.generation := (generation_of_get hx : e.generation = _)
  obtain ⟨e', hself, hcore, hbehavior⟩ := get_addEntry_self hsound (by omega)
    (get_eq_some_iff.1 hx).1 hgen
  have hfresh := get_addEntry_fresh hsound (by omega) entry x
  have hmove : s.move x = ⟨(s.graph.addEntry entry x).1, g₁,
      Function.update s.map x (some (s.graph.addEntry entry x).2)⟩ := by
    simp only [Transfer.move, htake]
    rfl
  have hmap (z : NodeId) : (s.move x).map z =
      if z = x then some (s.graph.addEntry entry x).2 else s.map z := by
    rw [hmove]
    exact Function.update_apply _ _ _ _
  refine ⟨⟨?_, ?_, ?_, ?_, ?_, fun z => ?_, fun z => ?_, fun z w hz => ?_,
    fun z z' w hz hz' => ?_, fun w d hw => ?_, fun w d hw => ?_⟩, ⟨_, (hmap x).trans (if_pos rfl),
      ?_, ?_⟩, fun z hz => (hmap z).trans (if_neg hz)⟩
  · rw [hmove]
    exact ⟨_, hsound.addEntry entry x⟩
  · rw [hmove]
    exact ⟨_, hother.takeNode htake⟩
  · rw [hmove, vacancyAfter, List.foldl_append, ← vacancyAfter, ← h.vacancy]
    exact vacancy_addEntry hsound entry x
  · rw [hmove, List.length_append, List.length_singleton]
    exact (length_addEntry_le entry x).trans (by omega)
  · rw [hmove, ← h.edges]
    exact edges_addEntry entry
  · rw [hmove]
    exact hleft z
  · rw [hmap, List.mem_append, List.mem_singleton, ← h.map]
    split_ifs with hzx
    · simp [hzx]
    · simp [hzx]
  · rw [hmap] at hz
    rw [hmove]
    split_ifs at hz with hzx
    · obtain rfl := Option.some.inj hz
      subst hzx
      refine ⟨?_, e, e', hx, hself, hbehavior, hcore⟩
      rcases hold : g.get (s.graph.addEntry entry z).2 with _ | d
      · rfl
      · exact absurd (hfresh.symm.trans (h.own _ d hold)) (by simp)
    · obtain ⟨hnew, d, d', hd, hd', hrest⟩ := h.moved z w hz
      exact ⟨hnew, d, d', hd, get_addEntry_of_get hsound.freeVacant hd' entry, hrest⟩
  · have hother (w' : NodeId) (u : NodeId) (hu : s.map u = some w') :
        w' ≠ (s.graph.addEntry entry x).2 := by
      rintro rfl
      obtain ⟨-, d, d', -, hd', -⟩ := h.moved u _ hu
      exact absurd (hfresh.symm.trans hd') (by simp)
    rw [hmap] at hz hz'
    split_ifs at hz hz' with hzx hzx' hzx'
    · exact hzx.trans hzx'.symm
    · exact absurd (Option.some.inj hz).symm (hother w z' hz')
    · exact absurd (Option.some.inj hz').symm (hother w z hz)
    · exact h.injective z z' w hz hz'
  · rw [hmove]
    exact get_addEntry_of_get hsound.freeVacant (h.own w d hw) entry
  · rw [hmove] at hw
    rcases get_addEntry_cases hw with hold | ⟨rfl, -⟩
    · refine (h.nodes w d hold).imp_right ?_
      rintro ⟨z, hz⟩
      have hzx : z ≠ x := ne_of_found hz hunmapped
      exact ⟨z, (hmap z).trans ((if_neg hzx).trans hz)⟩
    · exact .inr ⟨x, (hmap x).trans (if_pos rfl)⟩
  · rw [index_addEntry hsound (by omega), h.vacancy]
  · rw [addEntry_eq_self_iff hsound (by omega) hgen, h.vacancy]

end

/-- There are slot numbers left for the nodes of the other graph. -/
def RoomFor (g other : Graph F β) : Prop :=
  g.entries.length + other.entries.length < u32Size - 1

/-- Where a node went: it claimed its slot after the nodes before it. -/
def Placed (g : Graph F β) (pre : List NodeId) (x y : NodeId) : Prop :=
  y.index = (g.vacancyAfter pre).slotFor x ∧ (y = x ↔ (g.vacancyAfter pre).Keeps x)

/-- Where the nodes are after some of them were moved. -/
theorem moving_run (hg : g.Sound carried) (hother : other.Sound carried') (hroom : g.RoomFor other)
    {rest : List NodeId} (hids : other.nodeIds = done ++ rest) :
    Moving g other done (done.foldl Transfer.move (.start g other)) ∧
      ∀ pre x post, done = pre ++ x :: post →
        ∃ y, (done.foldl Transfer.move (.start g other)).map x = some y ∧ g.Placed pre x y := by
  have hlength := other.length_nodeIds_le
  rw [RoomFor] at hroom
  induction done using List.reverseRecOn generalizing rest with
  | nil => exact ⟨moving_start hg hother, fun pre x post h => absurd h (by simp)⟩
  | append_singleton done x ih =>
    rw [List.append_assoc, List.singleton_append] at hids
    obtain ⟨hmoving, hplaced⟩ := ih hids
    have hpairwise : (done ++ x :: rest).Pairwise fun a b => a.index < b.index :=
      hids ▸ pairwise_nodeIds (by omega)
    have hx : other.isValid x = true := by
      rw [← mem_nodeIds_iff (by omega), hids]
      simp
    obtain ⟨e, he⟩ := isValid_iff.1 hx
    have hbefore (l : NodeId) (hl : other.isValid l = true) : l ∈ done ↔ l.index < x.index := by
      rw [← mem_nodeIds_iff (by omega), hids] at hl
      rw [List.pairwise_append, List.pairwise_cons] at hpairwise
      refine ⟨fun hmem => hpairwise.2.2 l hmem x List.mem_cons_self, fun hlt => ?_⟩
      rcases List.mem_append.1 hl with hmem | hmem
      · exact hmem
      · rcases List.mem_cons.1 hmem with rfl | hmem
        · exact absurd hlt (lt_irrefl _)
        · exact absurd (hpairwise.2.1.1 l hmem) (by omega)
    have hcount := congrArg List.length hids
    rw [List.length_append, List.length_cons] at hcount
    obtain ⟨hstep, ⟨y, hy, hplace⟩, hkept⟩ := hmoving.step hbefore he (by omega)
    rw [List.foldl_append, List.foldl_cons, List.foldl_nil]
    refine ⟨hstep, fun pre z post heq => ?_⟩
    rcases List.eq_nil_or_concat' post with rfl | ⟨post, last, rfl⟩
    · obtain ⟨rfl, hz⟩ := List.append_inj' heq rfl
      obtain rfl : x = z := List.singleton_inj.1 hz
      exact ⟨y, hy, hplace⟩
    · rw [← List.cons_append, ← List.append_assoc] at heq
      obtain ⟨hdone, -⟩ := List.append_inj' heq rfl
      obtain ⟨w, hw, hplace⟩ := hplaced pre z post hdone
      refine ⟨w, ?_, hplace⟩
      rw [hkept z, hw]
      rintro rfl
      exact absurd ((hbefore z hx).1 (by simp [hdone])) (lt_irrefl _)

/-! ### Adding the missing directions -/

theorem relink_spec (g : Graph F β) (id : NodeId) :
    (Transfer.relink g id).edges = g.edges ∧
      ∀ x, (Transfer.relink g id).get x = if x ∈ g.linksOf id then
          (g.get x).map (.withLinks fun ls => if ls.contains id then ls else ls ++ [id])
        else g.get x := by
  have hidem (ls : List NodeId) :
      (if (if ls.contains id then ls else ls ++ [id]).contains id then
          (if ls.contains id then ls else ls ++ [id])
        else (if ls.contains id then ls else ls ++ [id]) ++ [id]) =
        if ls.contains id then ls else ls ++ [id] := by
    split_ifs with h h' <;> simp_all
  obtain ⟨-, -, hedges, -, hget⟩ := foldl_modifyLinks
    (f := fun ls : List NodeId => if ls.contains id then ls else ls ++ [id]) hidem (g.linksOf id) g
  exact ⟨hedges, hget⟩

theorem mem_linksOf_relink (hx : g.isValid x = true) :
    y ∈ (Transfer.relink g id).linksOf x ↔
      y ∈ g.linksOf x ∨ y = id ∧ x ∈ g.linksOf id := by
  obtain ⟨e, he⟩ := isValid_iff.1 hx
  rw [linksOf, (relink_spec _ _).2, linksOf_of_get he, he]
  split_ifs with hpartner
  · by_cases hmem : id ∈ e.core.links
    · simp only [Option.map_some, Option.getD_some, NodeEntry.withLinks, List.contains_iff_mem,
        hmem, if_true, hpartner, and_true]
      exact ⟨.inl, fun h => h.elim (fun h => h) fun heq => heq ▸ hmem⟩
    · simp [NodeEntry.withLinks, hmem, hpartner]
  · simp [hpartner]

/-- What the missing directions change: a link is added only where there is one the other way, and
only to a partner of the nodes in `ids`. -/
structure Relinked (g g' : Graph F β) (ids : List NodeId) : Prop where
  entry : ∀ x, g'.get x = (g.get x).map (.withLinks fun _ => g'.linksOf x)
  edges : g'.edges = g.edges
  mono : ∀ x y, y ∈ g.linksOf x → y ∈ g'.linksOf x
  back : ∀ x y, y ∈ g'.linksOf x → y ∈ g.linksOf x ∨ y ∈ ids ∧ x ∈ g.linksOf y
  kept : ∀ x, x ∉ ids → (∀ id ∈ ids, x ∉ g.linksOf id) → g'.get x = g.get x

theorem relinked_refl (g : Graph F β) : Relinked g g [] where
  entry x := by
    rcases h : g.get x with _ | e
    · rfl
    · rw [Option.map_some, linksOf_of_get h]
      rfl
  edges := rfl
  mono _ _ h := h
  back _ _ h := .inl h
  kept _ _ _ := rfl

theorem Relinked.isValid {ids : List NodeId} (h : Relinked g g' ids) (x : NodeId) :
    g'.isValid x = g.isValid x := by
  rw [Graph.isValid, h.entry, Option.isSome_map, Graph.isValid]

theorem Relinked.step {ids : List NodeId} (h : Relinked g g' ids) (id : NodeId) :
    Relinked g (Transfer.relink g' id) (ids ++ [id]) where
  entry x := by
    rcases hx : g.get x with _ | e
    · rw [(relink_spec _ _).2, h.entry, hx]
      split_ifs <;> rfl
    · have hx' : g'.get x = some (e.withLinks fun _ => g'.linksOf x) := by
        rw [h.entry, hx, Option.map_some]
      have hget := (relink_spec g' id).2 x
      rw [hx'] at hget
      split_ifs at hget
      · rw [hget, linksOf_of_get hget]
        rfl
      · rw [hget, linksOf_of_get hget]
        rfl
  edges := (relink_spec g' id).1.trans h.edges
  mono x y hy := by
    have hx : g'.isValid x = true := by
      rcases hget : g.get x with _ | e
      · rw [linksOf_of_stale hget] at hy
        exact absurd hy List.not_mem_nil
      · rw [h.isValid, isValid_of_get hget]
    exact (mem_linksOf_relink hx).2 (.inl (h.mono x y hy))
  back x y hy := by
    have hx : g'.isValid x = true := by
      rcases hget : g'.get x with _ | e
      · rw [linksOf, (relink_spec _ _).2, hget] at hy
        split_ifs at hy <;> exact absurd hy List.not_mem_nil
      · exact isValid_of_get hget
    rcases (mem_linksOf_relink hx).1 hy with hy | ⟨rfl, hpartner⟩
    · exact (h.back x y hy).imp_right fun hback => ⟨List.mem_append_left _ hback.1, hback.2⟩
    · rcases h.back y x hpartner with hback | ⟨-, hback⟩
      · exact .inr ⟨by simp, hback⟩
      · exact .inl hback
  kept x hx hlinks := by
    rw [List.mem_append, List.mem_singleton, not_or] at hx
    have hold : ∀ id ∈ ids, x ∉ g.linksOf id := fun z hz => hlinks z (List.mem_append_left _ hz)
    rw [(relink_spec _ _).2, if_neg, h.kept x hx.1 hold]
    intro hpartner
    rcases h.back id x hpartner with hback | ⟨hmem, -⟩
    · exact hlinks id (by simp) hback
    · exact hx.1 hmem

theorem relinked_run (g : Graph F β) (ids : List NodeId) :
    Relinked g (ids.foldl Transfer.relink g) ids := by
  induction ids using List.reverseRecOn with
  | nil => exact relinked_refl g
  | append_singleton ids id ih =>
    rw [List.foldl_append, List.foldl_cons, List.foldl_nil]
    exact ih.step id

/-- Two nodes that are linked were linked before. -/
theorem Relinked.areLinked {ids : List NodeId} (h : Relinked g g' ids) (x y : NodeId) :
    g'.areLinked x y = g.areLinked x y := by
  rw [Bool.eq_iff_iff]
  simp only [Graph.areLinked, Bool.or_eq_true, List.contains_iff_mem]
  constructor
  · rintro (hy | hx)
    · exact (h.back x y hy).imp_right And.right
    · exact ((h.back y x hx).imp_right And.right).symm
  · exact Or.imp (h.mono x y) (h.mono y x)

/-! ### The whole call -/

/-- The nodes, edges and links of `other` are in `s.graph` under their new ids, beside what was
there, and nothing is left of `other`. -/
structure Transferred (g other : Graph F β) (s : Transfer F β) : Prop where
  nodes : ∀ x e, other.get x = some e → ∃ y e' links, s.map x = some y ∧ g.get y = none ∧
    s.graph.get y = some e' ∧ e'.behavior = e.behavior ∧ e'.core = { e.core with links := links }
  injective : ∀ x x' y, s.map x = some y → s.map x' = some y → x = x'
  edges : ∀ x x' y y', s.map x = some y → s.map x' = some y' → ∀ key element,
    ⟨y, y', key, element⟩ ∈ s.graph.edges ↔ ⟨x, x', key, element⟩ ∈ other.edges
  linked : ∀ x x' y y', s.map x = some y → s.map x' = some y' → other.areLinked x x' = true →
    s.graph.areLinked y y' = true
  links : ∀ x y, s.map x = some y → ∀ y' ∈ s.graph.linksOf y,
    ∃ x', s.map x' = some y' ∧ other.areLinked x x' = true
  own : ∀ y e, g.get y = some e → s.graph.get y = some e
  ownEdges : ∀ e : Edge, g.isValid e.source = true → g.isValid e.target = true →
    (e ∈ s.graph.edges ↔ e ∈ g.edges)
  left : ∀ x, s.other.get x = none

/-- A node keeps its id: its slot is still vacant when the nodes before it were moved, or is the
next one to be added. -/
def KeepsId (g other : Graph F β) (x : NodeId) : Prop :=
  (g.vacancyAfter (other.nodeIds.filter fun n => n.index < x.index)).Keeps x

/-- No edge is lost, and a link that a node is taken out with names a node that keeps its id. -/
structure Movable (g other : Graph F β) : Prop where
  edges : ∀ e, e ∉ other.edges
  links : ∀ x, ∀ l ∈ other.recorded x, other.isValid l = true ∧ g.KeepsId other l

/-- Links name other live nodes. -/
def LinksLive (other : Graph F β) : Prop :=
  ∀ x, ∀ l ∈ other.linksOf x, other.isValid l = true ∧ l ≠ x

theorem mem_recorded : y ∈ other.recorded x ↔
    y ∈ other.linksOf x ∧ ¬ (y.index < x.index ∧ x ∈ other.linksOf y) := by
  simp only [recorded, linksWithout, List.mem_filter, decide_eq_true_eq]

theorem areLinked_iff : other.areLinked x y = true ↔ y ∈ other.linksOf x ∨ x ∈ other.linksOf y := by
  simp only [areLinked, Bool.or_eq_true, List.contains_iff_mem]

theorem areLinked_iff_recorded :
    other.areLinked x y = true ↔ y ∈ other.recorded x ∨ x ∈ other.recorded y := by
  simp only [areLinked_iff, mem_recorded]
  constructor
  · intro h
    by_cases hlt : y.index < x.index ∧ x ∈ other.linksOf y
    · exact .inr ⟨hlt.2, fun hgt => absurd hgt.1 (by omega)⟩
    by_cases hgt : x.index < y.index ∧ y ∈ other.linksOf x
    · exact .inl ⟨hgt.2, hlt⟩
    exact h.imp (fun h => ⟨h, hlt⟩) fun h => ⟨h, hgt⟩
  · exact Or.imp And.left And.left

/-- What the call leaves. -/
structure Moved (g other : Graph F β) (s : Transfer F β) (h : Graph F β) (ids : List NodeId) :
    Prop where
  moving : Moving g other other.nodeIds { s with graph := h }
  placed : ∀ pre x post, other.nodeIds = pre ++ x :: post →
    ∃ y, s.map x = some y ∧ g.Placed pre x y
  relinked : Relinked h s.graph ids
  ids : ∀ y, y ∈ ids ↔ ∃ x, s.map x = some y

theorem moved_transferAll (hg : g.Sound carried) (hother : other.Sound carried')
    (hroom : g.RoomFor other) (hash : HashOrder) :
    ∃ h ids, Moved g other (transferAll hash g other) h ids := by
  obtain ⟨hmoving, hplaced⟩ := moving_run hg hother hroom (List.append_nil other.nodeIds).symm
  have hsmall : other.entries.length < u32Size := by
    rw [RoomFor] at hroom
    omega
  generalize hs : other.nodeIds.foldl Transfer.move (.start g other) = s at hmoving hplaced
  have hempty : s.other.outputConnectionsAll = [] := by
    obtain ⟨_, hsound⟩ := hmoving.otherSound
    rw [outputConnectionsAll, List.map_eq_nil_iff, List.eq_nil_iff_forall_not_mem]
    intro e he
    obtain ⟨d, hd⟩ := isValid_iff.1 (hsound.edges.ends e he).1
    rw [hmoving.left] at hd
    split_ifs at hd with hmem
    obtain ⟨d', hd', -⟩ := Option.map_eq_some_iff.1 hd
    exact hmem (mem_nodeIds (isValid_of_get hd'))
  refine ⟨s.graph, hash.order (other.nodeIds.filterMap s.map), ?_⟩
  have heq : transferAll hash g other = { s with
      graph := (hash.order (other.nodeIds.filterMap s.map)).foldl Transfer.relink s.graph } := by
    simp only [transferAll, hs, hempty, List.foldl_nil]
  rw [heq]
  refine ⟨hmoving, hplaced, relinked_run _ _, fun y => ?_⟩
  rw [(hash.perm _).mem_iff, List.mem_filterMap]
  constructor
  · rintro ⟨x, -, hx⟩
    exact ⟨x, hx⟩
  · rintro ⟨x, hx⟩
    exact ⟨x, by rw [← hmoving.map, hx, Option.isSome_some], hx⟩

section Moved

variable {h : Graph F β} {ids : List NodeId}

/-- The links of a moved node before the missing directions are added. -/
theorem Moved.linksOf_eq (hm : Moved g other s h ids) (hx : s.map x = some y) :
    h.linksOf y = other.recorded x := by
  obtain ⟨-, e, e', -, he', -, hcore⟩ := hm.moving.moved x y hx
  rw [linksOf_of_get he', hcore]

theorem Moved.areLinked_iff (hm : Moved g other s h ids) {x' y' : NodeId} (hx : s.map x = some y)
    (hx' : s.map x' = some y') :
    s.graph.areLinked y y' = true ↔ y' ∈ other.recorded x ∨ y ∈ other.recorded x' := by
  rw [hm.relinked.areLinked, Graph.areLinked_iff, hm.linksOf_eq hx, hm.linksOf_eq hx']

section

variable (hm : Moved g other s h ids) (hsmall : other.entries.length < u32Size)

include hm hsmall

theorem Moved.exists_place (hx : other.isValid x = true) :
    ∃ y, s.map x = some y ∧ g.Placed (other.nodeIds.filter fun n => n.index < x.index) x y := by
  obtain ⟨pre, post, hids⟩ := List.append_of_mem (mem_nodeIds hx)
  obtain ⟨y, hy, hplace⟩ := hm.placed pre x post hids
  have hpairwise := hids ▸ pairwise_nodeIds hsmall
  rw [List.pairwise_append, List.pairwise_cons] at hpairwise
  have hpre : pre.filter (fun n => n.index < x.index) = pre :=
    List.filter_eq_self.2 fun n hn => by
      simpa using hpairwise.2.2 n hn x List.mem_cons_self
  have hpost : (x :: post).filter (fun n => n.index < x.index) = [] := by
    rw [List.filter_eq_nil_iff]
    intro n hn
    rcases List.mem_cons.1 hn with rfl | hn
    · simp
    · have hlt := hpairwise.2.1.1 n hn
      simp only [decide_eq_true_eq]
      omega
  refine ⟨y, hy, ?_⟩
  rwa [hids, List.filter_append, hpre, hpost, List.append_nil]

theorem Moved.keeps_iff (hx : other.isValid x = true) : s.map x = some x ↔ g.KeepsId other x := by
  obtain ⟨y, hy, -, hkeeps⟩ := hm.exists_place hsmall hx
  rw [KeepsId, ← hkeeps, hy, Option.some.injEq]

theorem Moved.transferred {carried : List (NodeId × NodeId)} (hg : g.Sound carried)
    (hmovable : Movable g other) : Transferred g other s := by
  have hkept {x l : NodeId} (hl : l ∈ other.recorded x) : s.map l = some l := by
    obtain ⟨hlive, hkeeps⟩ := hmovable.links x l hl
    exact (hm.keeps_iff hsmall hlive).2 hkeeps
  have hnew {x y : NodeId} (hx : s.map x = some y) : g.get y = none := (hm.moving.moved x y hx).1
  have hedges : s.graph.edges = g.edges := hm.relinked.edges.trans hm.moving.edges
  refine ⟨fun x e he => ?_, hm.moving.injective, fun x x' y y' hx hx' key element => ?_,
    fun x x' y y' hx hx' hlinked => ?_, fun x y hx y' hy' => ?_, fun y e he => ?_, fun e _ _ => ?_,
    fun x => ?_⟩
  · obtain ⟨y, hy⟩ := Option.isSome_iff_exists.1
      ((hm.moving.map x).2 (mem_nodeIds (isValid_of_get he)))
    obtain ⟨hfresh, d, e', hd, he', hbehavior, hcore⟩ := hm.moving.moved x y hy
    obtain rfl := Option.some.inj (he.symm.trans hd)
    have hentry : s.graph.get y = some (e'.withLinks fun _ => s.graph.linksOf y) :=
      (hm.relinked.entry y).trans (congrArg (Option.map _) he')
    refine ⟨y, _, s.graph.linksOf y, hy, hfresh, hentry, hbehavior, ?_⟩
    show { e'.core with links := s.graph.linksOf y } = _
    rw [hcore]
  · refine iff_of_false (fun hmem => ?_) (hmovable.edges _)
    rw [hedges] at hmem
    obtain ⟨d, hd⟩ := isValid_iff.1 (hg.edges.ends _ hmem).1
    exact absurd ((hnew hx).symm.trans hd) (by simp)
  · rw [hm.areLinked_iff hx hx']
    rcases areLinked_iff_recorded.1 hlinked with hl | hl
    · obtain rfl := Option.some.inj (hx'.symm.trans (hkept hl))
      exact .inl hl
    · obtain rfl := Option.some.inj (hx.symm.trans (hkept hl))
      exact .inr hl
  · rcases hm.relinked.back y y' hy' with hy' | ⟨hmem, hy⟩
    · rw [hm.linksOf_eq hx] at hy'
      exact ⟨y', hkept hy', areLinked_iff_recorded.2 (.inl hy')⟩
    · obtain ⟨x', hx'⟩ := (hm.ids y').1 hmem
      rw [hm.linksOf_eq hx'] at hy
      obtain rfl := hm.moving.injective _ _ _ hx (hkept hy)
      exact ⟨x', hx', areLinked_iff_recorded.2 (.inr hy)⟩
  · rw [hm.relinked.kept y, hm.moving.own y e he]
    · intro hmem
      obtain ⟨x, hx⟩ := (hm.ids y).1 hmem
      exact absurd ((hnew hx).symm.trans he) (by simp)
    · intro z hz hy
      obtain ⟨x, hx⟩ := (hm.ids z).1 hz
      rw [hm.linksOf_eq hx] at hy
      exact absurd ((hnew (hkept hy)).symm.trans he) (by simp)
  · rw [hedges]
  · have hleft := hm.moving.left x
    rcases hget : other.get x with _ | e
    · rw [hget, Option.map_none, ite_self] at hleft
      exact hleft
    · rwa [if_pos (mem_nodeIds (isValid_of_get hget))] at hleft

end

/-- The new id of a node. -/
def label (s : Transfer F β) (x : NodeId) : NodeId := (s.map x).getD x

theorem label_eq (hx : s.map x = some y) : label s x = y := by
  rw [label, hx, Option.getD_some]

theorem Moved.exists_map (hm : Moved g other s h ids) (hx : x ∈ other.nodeIds) :
    ∃ y, s.map x = some y :=
  Option.isSome_iff_exists.1 ((hm.moving.map x).2 hx)

/-- Every recorded link is found again between the new ids, be it as one that the other node
recorded. -/
theorem Moved.found (hm : Moved g other s h ids) (hlive : LinksLive other)
    (ht : Transferred g other s) :
    Relabel.Found other.nodeIds.toFinset (fun x l => l ∈ other.recorded x) (label s) := by
  refine ⟨fun x hx y hy heq => ?_, fun x _ y hy => ?_, fun x y hy hx => ?_, fun x hx y hy hxy => ?_⟩
  · obtain ⟨w, hw⟩ := hm.exists_map (List.mem_toFinset.1 hx)
    obtain ⟨w', hw'⟩ := hm.exists_map (List.mem_toFinset.1 hy)
    rw [label_eq hw, label_eq hw'] at heq
    exact hm.moving.injective x y w hw (heq ▸ hw')
  · exact List.mem_toFinset.2 (mem_nodeIds (hlive x y (mem_recorded.1 hy).1).1)
  · obtain ⟨hyl, hnot⟩ := mem_recorded.1 hy
    obtain ⟨hxl, hnot'⟩ := mem_recorded.1 hx
    obtain ⟨d, hd⟩ := isValid_iff.1 (hlive x y hyl).1
    obtain ⟨d', hd'⟩ := isValid_iff.1 (hlive y x hxl).1
    refine (hlive x y hyl).2 (eq_of_index_eq hd hd' ?_)
    have hle : ¬ y.index < x.index := fun hlt => hnot ⟨hlt, hxl⟩
    have hge : ¬ x.index < y.index := fun hlt => hnot' ⟨hlt, hyl⟩
    omega
  · obtain ⟨w, hw⟩ := hm.exists_map (List.mem_toFinset.1 hx)
    obtain ⟨w', hw'⟩ := hm.exists_map (List.mem_toFinset.1 hy)
    rw [label_eq hw, label_eq hw']
    exact (hm.areLinked_iff hw hw').1
      (ht.linked x y w w' hw hw' (areLinked_iff_recorded.2 (.inl hxy)))

/-- The node with the lowest slot among those that are linked to a node and lost their id would
have given its id to one behind it, and got a slot before its own. -/
theorem Moved.displaced_eq_empty (hm : Moved g other s h ids)
    (hsmall : other.entries.length < u32Size) {carried : List (NodeId × NodeId)}
    (hg : g.Sound carried)
    (hfound : Relabel.Found other.nodeIds.toFinset (fun x l => l ∈ other.recorded x) (label s)) :
    Relabel.displaced other.nodeIds.toFinset (fun x l => l ∈ other.recorded x) (label s) = ∅ := by
  rw [← Finset.not_nonempty_iff_eq_empty]
  intro hsome
  obtain ⟨x, hx, hmin⟩ := Finset.exists_min_image _ NodeId.index hsome
  obtain ⟨p, hp, hpx⟩ := hfound.exists_mem_displaced hx
  have hnext := hmin _ (hfound.mem_displaced hx)
  obtain ⟨hxV, -, hmoved⟩ := Relabel.mem_displaced.1 hx
  have hxmem := List.mem_toFinset.1 hxV
  have hpmem := List.mem_toFinset.1 (Relabel.mem_displaced.1 hp).1
  have hlt : x.index < p.index := by
    refine lt_of_le_of_ne (hmin p hp) fun heq => ?_
    obtain ⟨d, hd⟩ := isValid_iff.1 ((mem_nodeIds_iff hsmall).1 hxmem)
    obtain ⟨d', hd'⟩ := isValid_iff.1 ((mem_nodeIds_iff hsmall).1 hpmem)
    obtain rfl := eq_of_index_eq hd hd' heq
    exact hmoved hpx
  obtain ⟨pre, rest, hids⟩ := List.append_of_mem hxmem
  have hpairwise := hids ▸ pairwise_nodeIds hsmall
  rw [List.pairwise_append, List.pairwise_cons] at hpairwise
  have hrest : p ∈ rest := by
    rw [hids] at hpmem
    rcases List.mem_append.1 hpmem with hmem | hmem
    · exact absurd (hpairwise.2.2 p hmem x List.mem_cons_self) (by omega)
    · rcases List.mem_cons.1 hmem with rfl | hmem
      · exact absurd hlt (lt_irrefl _)
      · exact hmem
  obtain ⟨mid, post, rfl⟩ := List.append_of_mem hrest
  obtain ⟨y, hy, hplace, hkeeps⟩ := hm.placed pre x (mid ++ p :: post) hids
  obtain ⟨z, hz, hplace', -⟩ := hm.placed (pre ++ x :: mid) p post (by rw [hids]; simp)
  rw [label_eq hy] at hmoved hnext
  rw [label_eq hz] at hpx
  subst hpx
  have hfree : z.index ∉ (g.vacancyAfter pre).free := fun hmem => hmoved (hkeeps.2 (.inl hmem))
  have hbound : ∀ i ∈ (g.vacancyAfter pre).free, i < (g.vacancyAfter pre).count := by
    intro i hi
    obtain ⟨n, hn⟩ := (mem_freeList_iff hg).1 (Vacancy.free_claims pre hi)
    exact (List.getElem?_eq_some_iff.1 hn).1.trans_le (Vacancy.count_claims pre (v := g.vacancy))
  have hback := Vacancy.slotFor_lt hbound hfree mid (p := p) (by
    rw [hplace', vacancyAfter, vacancyAfter, List.foldl_append, List.foldl_cons])
  omega

/-- Where links name live nodes, nothing else makes a transfer complete. -/
theorem Moved.movable (hm : Moved g other s h ids) (hsmall : other.entries.length < u32Size)
    {carried carried' : List (NodeId × NodeId)} (hg : g.Sound carried)
    (hother : other.Sound carried') (hlive : LinksLive other)
    (ht : Transferred g other s) : Movable g other := by
  refine ⟨fun e he => ?_, fun x l hl => ?_⟩
  · -- an edge would be one of the old edges of `g`, whose ends are not new
    obtain ⟨hs, ht'⟩ := hother.edges.ends e he
    obtain ⟨a, ha⟩ := hm.exists_map (mem_nodeIds hs)
    obtain ⟨b, hb⟩ := hm.exists_map (mem_nodeIds ht')
    have hmem := (ht.edges _ _ a b ha hb e.inputKey e.element).2 he
    rw [hm.relinked.edges.trans hm.moving.edges] at hmem
    obtain ⟨d, hd⟩ := isValid_iff.1 (hg.edges.ends _ hmem).1
    exact absurd ((hm.moving.moved _ a ha).1.symm.trans hd) (by simp)
  · have hllive := (hlive x l (mem_recorded.1 hl).1).1
    refine ⟨hllive, by_contra fun hkeeps => ?_⟩
    have hxlive : other.isValid x = true := by
      rcases hget : other.get x with _ | e
      · have hmem := (mem_recorded.1 hl).1
        rw [linksOf_of_stale hget] at hmem
        exact absurd hmem List.not_mem_nil
      · exact isValid_of_get hget
    obtain ⟨y, hy⟩ := hm.exists_map (mem_nodeIds hllive)
    have hmem : l ∈ Relabel.displaced other.nodeIds.toFinset (fun x l => l ∈ other.recorded x)
        (label s) := by
      refine Relabel.mem_displaced.2 ⟨List.mem_toFinset.2 (mem_nodeIds hllive),
        ⟨x, List.mem_toFinset.2 (mem_nodeIds hxlive), hl⟩, fun heq => hkeeps ?_⟩
      rw [label_eq hy] at heq
      exact (hm.keeps_iff hsmall hllive).1 (heq ▸ hy)
    rw [hm.displaced_eq_empty hsmall hg (hm.found hlive ht)] at hmem
    exact absurd hmem (Finset.notMem_empty l)

end Moved

/-- A graph is moved as a whole if it has no edges and every link that a node is taken out with
names a node that keeps its id, and only then, where links name live nodes. -/
theorem transferAll_movable {carried' : List (NodeId × NodeId)} (hg : g.Sound carried)
    (hother : other.Sound carried') (hroom : g.RoomFor other) (hash : HashOrder) :
    (Movable g other → Transferred g other (transferAll hash g other)) ∧
      (LinksLive other → Transferred g other (transferAll hash g other) → Movable g other) := by
  obtain ⟨h, ids, hm⟩ := moved_transferAll hg hother hroom hash
  have hsmall : other.entries.length < u32Size := by
    rw [RoomFor] at hroom
    omega
  exact ⟨hm.transferred hsmall hg, hm.movable hsmall hg hother⟩

/-- Two nodes. -/
def twoNodes : Graph ℚ Plain := ((Graph.new.addNode .new .plain).1.addNode .new .plain).1

/-- Two nodes that are linked. -/
def linkedNodes : Graph ℚ Plain := (twoNodes.link ⟨0, 0⟩ ⟨1, 0⟩).1

/-- A node that feeds another one. -/
def fedNode : Graph ℚ Plain :=
  match twoNodes.connect ⟨0, 0⟩ ⟨1, 0⟩ enabledInput (-1) with
  | .ok g => g
  | .error _ => twoNodes

/-- A map that iterates in the order of the slots. -/
def slotOrder : HashOrder := ⟨fun ids => ids, fun _ => .refl _⟩

/-- Two linked nodes are moved into an empty graph. -/
theorem transferAll_movable_linkedNodes :
    Transferred .new linkedNodes (transferAll slotOrder .new linkedNodes) := by
  obtain ⟨_, hother⟩ : ∃ carried, linkedNodes.Sound carried :=
    ⟨_, ((sound_new.allocate NodeCore.new Plain.plain).allocate NodeCore.new Plain.plain).link
      ⟨0, 0⟩ ⟨1, 0⟩⟩
  have hroom : RoomFor .new linkedNodes := by
    show 0 + 2 < u32Size - 1
    decide
  have hedges : linkedNodes.edges = ∅ := rfl
  refine (transferAll_movable sound_new hother hroom slotOrder).1 ⟨fun e he => ?_, ?_⟩
  · rw [hedges] at he
    exact OrdSet.notMem_empty e he
  · intro x l hl
    have hx : x ∈ linkedNodes.nodeIds := by
      rcases hget : linkedNodes.get x with _ | e
      · have hmem := (mem_recorded.1 hl).1
        rw [linksOf_of_stale hget] at hmem
        exact absurd hmem List.not_mem_nil
      · exact mem_nodeIds (isValid_of_get hget)
    have hnodes : linkedNodes.nodeIds = [⟨0, 0⟩, ⟨1, 0⟩] := by decide
    rw [hnodes, List.mem_cons, List.mem_singleton] at hx
    rcases hx with rfl | rfl
    · obtain rfl : l = ⟨1, 0⟩ := List.mem_singleton.1 hl
      exact ⟨rfl, .inr ⟨rfl, rfl, rfl⟩⟩
    · exact absurd hl List.not_mem_nil

/-- The edge between two nodes is lost when these are moved into an empty graph. -/
theorem transferAll_loses_edge :
    ¬ Transferred .new fedNode (transferAll slotOrder .new fedNode) := by
  intro ht
  have hold : (⟨⟨0, 0⟩, ⟨1, 0⟩, hashStr enabledInput, -1⟩ : Edge) ∈ fedNode.edges := by
    decide +kernel
  have hnew := (ht.edges ⟨0, 0⟩ ⟨1, 0⟩ ⟨0, 0⟩ ⟨1, 0⟩ (by decide +kernel) (by decide +kernel)
    (hashStr enabledInput) (-1)).2 hold
  have hnone : (transferAll slotOrder .new fedNode).graph.edges = ∅ := by decide +kernel
  rw [hnone] at hnew
  exact OrdSet.notMem_empty _ hnew

end Graph

end Oak.Node
