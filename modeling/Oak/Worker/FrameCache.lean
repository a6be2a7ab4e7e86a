import Mathlib.Algebra.Ring.Nat
import Mathlib.Data.List.MinMax
import Oak.Lib.Assoc
import Oak.Lib.Machine

/-!
# The frame cache of a worker

`FrameCache` of `oak-worker/src/framecache.rs`: rendered frames under their keys, with a stamp for
when they were used last. An insert evicts what was not used for the longest time until the entries
are within the limits, and keeps one entry in any case. A frame without bytes is not inserted.

* `History` is the order in which the keys were used and the bytes that they were inserted with,
  whether or not these are still cached.
* `Ranked s es`: the entries of `s`, the most recently used first.

## Main results

* `evict_ranked`: an eviction keeps the longest front of the ranked entries that is within limits.
* `frameCache_run`: what is cached, and what an insert does, after every run that is not longer than
  the clock counts.
-/

namespace Oak.Worker

open Oak.Lib

variable {κ : Type*} [DecidableEq κ]

/-- The clock is a `u64`. -/
def clockSize : ℕ := 2 ^ 64

/-- `Entry`. -/
structure Entry where
  bytes : List UInt8
  stamp : ℕ
  deriving DecidableEq, Repr

/-- `FrameCache`. -/
structure FrameCache (κ : Type*) where
  entries : List (κ × Entry)
  budgetBytes : ℕ
  maxEntries : ℕ
  clock : ℕ
  deriving DecidableEq, Repr

/-- The bytes of all entries. -/
def totalBytes (entries : List (κ × Entry)) : ℕ := (entries.map fun p => p.2.bytes.length).sum

variable (budgetBytes maxEntries : ℕ)

namespace FrameCache

/-- `with_limits`. -/
def withLimits : FrameCache κ := ⟨[], budgetBytes, maxEntries, 0⟩

/-- The next reading of the clock, with `wrapping_add`. -/
def tick (s : FrameCache κ) : ℕ := (s.clock + 1) % clockSize

/-- The entries are within the limits. -/
def Fits (s : FrameCache κ) (entries : List (κ × Entry)) : Prop :=
  entries.length ≤ s.maxEntries ∧ totalBytes entries ≤ s.budgetBytes

instance (s : FrameCache κ) (entries : List (κ × Entry)) : Decidable (s.Fits entries) :=
  inferInstanceAs (Decidable (_ ∧ _))

/-- `get`. -/
def get (s : FrameCache κ) (key : κ) : FrameCache κ × Option (List UInt8) :=
  match s.entries.lookup key with
  | none => (s, none)
  | some entry =>
    ({ s with
        entries := s.entries.map fun p =>
          if p.1 = key then (p.1, { p.2 with stamp := s.tick }) else p
        clock := s.tick }, some entry.bytes)

/-- `evict_until_within_limits`. Each pass of the loop takes one entry out. -/
def evict (s : FrameCache κ) : ℕ → List (κ × Entry) → List (κ × Entry)
  | 0, entries => entries
  | fuel + 1, entries =>
    if s.Fits entries then entries
    else if entries.length ≤ 1 then entries
    else
      match entries.argmin fun p => p.2.stamp with
      | none => entries
      | some lru => s.evict fuel (entries.filter fun p => p.1 ≠ lru.1)

/-- `insert`. -/
def insert (s : FrameCache κ) (key : κ) (bytes : List UInt8) : FrameCache κ :=
  if bytes.isEmpty then s
  else
    let entries := (key, ⟨bytes, s.tick⟩) :: s.entries.filter fun p => p.1 ≠ key
    { s with
      entries := s.evict entries.length entries
      clock := s.tick }

/-- `clear`. -/
def clear (s : FrameCache κ) : FrameCache κ := { s with entries := [] }

end FrameCache

/-! ### Runs -/

/-- A call of the cache. -/
inductive CacheCall (κ : Type*) where
  | get (key : κ)
  | insert (key : κ) (bytes : List UInt8)
  | clear
  deriving DecidableEq, Repr

/-- What a call does. -/
def FrameCache.act (s : FrameCache κ) : CacheCall κ → FrameCache κ
  | .get key => (s.get key).1
  | .insert key bytes => s.insert key bytes
  | .clear => s.clear

/-- What was asked of a cache. -/
structure History (κ : Type*) where
  /-- The keys in the order of their last use, the most recent one first. -/
  order : List κ
  /-- The bytes that were inserted last under a key. -/
  last : κ → Option (List UInt8)

namespace History

/-- Nothing was asked yet. -/
def empty : History κ := ⟨[], fun _ => none⟩

/-- A key is used. -/
def use (h : History κ) (key : κ) : History κ :=
  { h with order := key :: h.order.filter fun k => k ≠ key }

/-- A hit uses its key, and so does an insert of some bytes. -/
def record (t : FrameCache κ × History κ) : CacheCall κ → History κ
  | .get key => if (t.1.get key).2 = none then t.2 else t.2.use key
  | .insert key bytes =>
    if bytes.isEmpty then t.2
    else { t.2.use key with last := Function.update t.2.last key (some bytes) }
  | .clear => t.2

end History

/-- A run with what was asked during it. -/
def cacheRun (calls : List (CacheCall κ)) : FrameCache κ × History κ :=
  run (shadow FrameCache.act History.record) (.withLimits budgetBytes maxEntries, .empty) calls

/-! ### Ranked entries -/

variable {s : FrameCache κ} {entries es : List (κ × Entry)} {key : κ} {entry : Entry}
  {bytes : List UInt8} {clock : ℕ}

omit [DecidableEq κ] in
/-- The entries in the order of their stamps, the greatest first. -/
structure Ranked (entries : List (κ × Entry)) (clock : ℕ) (es : List (κ × Entry)) : Prop where
  perm : es.Perm entries
  sorted : es.Pairwise fun p q => q.2.stamp < p.2.stamp
  nodup : (es.map Prod.fst).Nodup
  le_clock : ∀ p ∈ es, p.2.stamp ≤ clock

omit [DecidableEq κ] in
theorem fits_perm {entries' : List (κ × Entry)} (h : entries.Perm entries') :
    s.Fits entries ↔ s.Fits entries' := by
  rw [FrameCache.Fits, FrameCache.Fits, h.length_eq, totalBytes, totalBytes,
    (h.map fun p => p.2.bytes.length).sum_nat]

variable {init : List (κ × Entry)}

namespace Ranked

omit [DecidableEq κ] in
theorem nodup_entries (h : Ranked entries clock es) : (entries.map Prod.fst).Nodup :=
  (h.perm.map Prod.fst).nodup_iff.1 h.nodup

theorem touch (h : Ranked entries clock es) (key : κ) (bytes : List UInt8) :
    Ranked ((key, ⟨bytes, clock + 1⟩) :: entries.filter fun p => p.1 ≠ key) (clock + 1)
      ((key, ⟨bytes, clock + 1⟩) :: es.filter fun p => p.1 ≠ key) where
  perm := (h.perm.filter _).cons _
  sorted := List.pairwise_cons.2
    ⟨fun p hp => Nat.lt_succ_of_le (h.le_clock p (List.mem_filter.1 hp).1), h.sorted.filter _⟩
  nodup := by
    rw [List.map_cons, List.nodup_cons]
    refine ⟨fun hmem => ?_, h.nodup.sublist (List.filter_sublist.map _)⟩
    obtain ⟨p, hp, heq⟩ := List.mem_map.1 hmem
    exact absurd heq (by simpa using (List.mem_filter.1 hp).2)
  le_clock := List.forall_mem_cons.2
    ⟨le_rfl, fun p hp => (h.le_clock p (List.mem_filter.1 hp).1).trans (Nat.le_succ clock)⟩

omit [DecidableEq κ] in
theorem argmin_eq {p : κ × Entry} (h : Ranked entries clock (init ++ [p])) :
    (entries.argmin fun q => q.2.stamp) = some p := by
  have hp : p ∈ entries := h.perm.subset (by simp)
  obtain ⟨q, hq⟩ : ∃ q, (entries.argmin fun q => q.2.stamp) = some q := by
    rw [← Option.isSome_iff_exists, Option.isSome_iff_ne_none, Ne, List.argmin_eq_none]
    exact List.ne_nil_of_mem hp
  have hmem : q ∈ init ++ [p] := h.perm.symm.subset (List.argmin_mem hq)
  have hle := List.le_of_mem_argmin (f := fun q : κ × Entry => q.2.stamp) hp hq
  rcases List.mem_append.1 hmem with hinit | hlast
  · have hlt := (List.pairwise_append.1 h.sorted).2.2 q hinit p List.mem_cons_self
    exact absurd hle (not_le.2 hlt)
  · rw [hq, List.mem_singleton.1 hlast]

theorem filter_last {p : κ × Entry} (h : Ranked entries clock (init ++ [p])) :
    Ranked (entries.filter fun q => q.1 ≠ p.1) clock init where
  perm := by
    have hperm := h.perm.filter fun q => q.1 ≠ p.1
    have hinit : (init ++ [p]).filter (fun q => q.1 ≠ p.1) = init := by
      have hnodup := h.nodup
      rw [List.map_append, List.map_singleton, List.nodup_append] at hnodup
      rw [List.filter_append, List.filter_singleton]
      simp only [ne_eq, not_true_eq_false, decide_false, cond_false, List.append_nil]
      refine List.filter_eq_self.2 fun q hq => decide_eq_true ?_
      exact hnodup.2.2 q.1 (List.mem_map_of_mem hq) p.1 List.mem_cons_self
    rwa [hinit] at hperm
  sorted := (List.pairwise_append.1 h.sorted).1
  nodup := h.nodup.sublist ((List.sublist_append_left init [p]).map _)
  le_clock q hq := h.le_clock q (List.mem_append_left _ hq)

end Ranked

/-- What an eviction keeps: the longest front of the entries that is within the limits, or one
entry. -/
structure Longest (s : FrameCache κ) (es : List (κ × Entry)) (n : ℕ) : Prop where
  le : n ≤ es.length
  pos : es ≠ [] → 0 < n
  fits : s.Fits (es.take n) ∨ n ≤ 1
  longest : ∀ m, n < m → m ≤ es.length → ¬ s.Fits (es.take m)

theorem evict_ranked {fuel : ℕ} (h : Ranked entries clock es) (hfuel : es.length ≤ fuel) :
    ∃ n, Ranked (s.evict fuel entries) clock (es.take n) ∧ Longest s es n := by
  induction fuel generalizing entries es with
  | zero =>
    obtain rfl := List.eq_nil_of_length_eq_zero (Nat.le_zero.1 hfuel)
    exact ⟨0, h, le_rfl, fun hne => absurd rfl hne, .inr (Nat.zero_le 1), fun m hm hle => by
      simp at hle; omega⟩
  | succ fuel ih =>
    have hlength := h.perm.length_eq
    have hall : es.take es.length = es := List.take_length
    rw [FrameCache.evict]
    split_ifs with hfits hone
    · refine ⟨es.length, by rwa [hall], le_rfl, fun hne => List.length_pos_iff.2 hne, .inl ?_,
        fun m hm hle => absurd hm (not_lt.2 hle)⟩
      rw [hall]
      exact (fits_perm h.perm).2 hfits
    · refine ⟨es.length, by rwa [hall], le_rfl, fun hne => List.length_pos_iff.2 hne,
        .inr (hlength ▸ hone), fun m hm hle => absurd hm (not_lt.2 hle)⟩
    · obtain rfl | ⟨init, p, rfl⟩ := List.eq_nil_or_concat' es
      · simp at hlength
        omega
      · rw [h.argmin_eq]
        simp only [List.length_append, List.length_singleton] at hfuel hlength
        obtain ⟨n, hranked, hle, hpos, hkept, hlongest⟩ := ih h.filter_last (by omega)
        have htake {m : ℕ} (hm : m ≤ init.length) : (init ++ [p]).take m = init.take m :=
          List.take_append_of_le_length hm
        have hnonempty : init ≠ [] := by
          rintro rfl
          simp at hlength
          omega
        refine ⟨n, by rwa [htake hle], ?_, fun _ => hpos hnonempty, by rwa [htake hle],
          fun m hm hmle => ?_⟩
        · rw [List.length_append]
          omega
        · rw [List.length_append, List.length_singleton] at hmle
          rcases Nat.lt_or_ge init.length m with hlt | hge
          · obtain rfl : m = (init ++ [p]).length := by
              rw [List.length_append, List.length_singleton]
              omega
            rw [List.take_length]
            exact fun hf => hfits ((fits_perm h.perm).1 hf)
          · rw [htake hge]
            exact hlongest m hm hge

/-! ### Calls -/

/-- The clock does not wrap with the next use. -/
def Counts (s : FrameCache κ) : Prop := s.clock + 1 < clockSize

omit [DecidableEq κ] in
theorem tick_eq (h : Counts s) : s.tick = s.clock + 1 := Nat.mod_eq_of_lt h

/-- The ranked entries of a cache are those of the keys that were used last, with the bytes that
were inserted last. -/
structure Kept (t : FrameCache κ × History κ) (es : List (κ × Entry)) : Prop where
  ranked : Ranked t.1.entries t.1.clock es
  order : es.map Prod.fst <+: t.2.order
  distinct : t.2.order.Nodup
  last : ∀ p ∈ es, t.2.last p.1 = some p.2.bytes

theorem lookup_iff (h : Ranked entries clock es) :
    entries.lookup key = some entry ↔ (key, entry) ∈ es := by
  rw [h.perm.mem_iff]
  exact ⟨mem_of_lookup, fun hmem => lookup_of_nodup h.nodup_entries hmem⟩

/-- The keys in front are those in front, without the one that is used. -/
theorem prefix_use {h : History κ} (horder : es.map Prod.fst <+: h.order) (key : κ)
    (entry : Entry) :
    ((key, entry) :: es.filter fun p => p.1 ≠ key).map Prod.fst <+: (h.use key).order := by
  have hfilter : (es.filter fun p => p.1 ≠ key).map Prod.fst =
      (es.map Prod.fst).filter fun k => k ≠ key := by
    rw [List.filter_map]
    rfl
  rw [List.map_cons, hfilter]
  exact List.cons_prefix_cons.2 ⟨rfl, horder.filter _⟩

theorem distinct_use {h : History κ} (hdistinct : h.order.Nodup) (key : κ) :
    (h.use key).order.Nodup :=
  List.nodup_cons.2 ⟨fun hmem => of_decide_eq_true (List.mem_filter.1 hmem).2 rfl,
    hdistinct.filter _⟩

namespace Kept

variable {t : FrameCache κ × History κ}

theorem get_hit (h : Kept t es) (hcount : Counts t.1) (hhit : t.1.entries.lookup key = some entry) :
    Kept ((t.1.get key).1, t.2.use key)
      ((key, ⟨entry.bytes, t.1.clock + 1⟩) :: es.filter fun p => p.1 ≠ key) := by
  have htouch := h.ranked.touch key entry.bytes
  have hlast : t.2.last key = some entry.bytes := h.last _ ((lookup_iff h.ranked).1 hhit)
  refine ⟨?_, prefix_use h.order key _, distinct_use h.distinct key,
    List.forall_mem_cons.2 ⟨hlast, fun p hp => h.last p (List.mem_filter.1 hp).1⟩⟩
  have hget : (t.1.get key).1 = { t.1 with
      entries := t.1.entries.map fun p =>
        if p.1 = key then (p.1, { p.2 with stamp := t.1.clock + 1 }) else p
      clock := t.1.clock + 1 } := by
    rw [FrameCache.get, hhit, tick_eq hcount]
  have hmap : (t.1.entries.map fun p =>
      if p.1 = key then (p.1, { p.2 with stamp := t.1.clock + 1 }) else p).Perm
        ((key, ⟨entry.bytes, t.1.clock + 1⟩) :: t.1.entries.filter fun p => p.1 ≠ key) := by
    refine ((perm_cons_filter h.ranked.nodup_entries hhit).map _).trans ?_
    rw [List.map_cons, if_pos rfl, List.map_congr_left fun p hp => if_neg (by
      simpa using (List.mem_filter.1 hp).2), List.map_id']
  rw [hget]
  exact { htouch with perm := htouch.perm.trans hmap.symm }

theorem insert (h : Kept t es) (hcount : Counts t.1) (key : κ) (hbytes : bytes ≠ []) :
    ∃ n, Longest t.1 ((key, ⟨bytes, t.1.clock + 1⟩) :: es.filter fun p => p.1 ≠ key) n ∧
      Kept (t.1.insert key bytes, History.record t (.insert key bytes))
        (((key, ⟨bytes, t.1.clock + 1⟩) :: es.filter fun p => p.1 ≠ key).take n) := by
  have htouch := h.ranked.touch key bytes
  obtain ⟨n, hranked, hlongest⟩ := evict_ranked (s := t.1) htouch htouch.perm.length_eq.le
  have hempty : ¬ bytes.isEmpty = true := by simpa using hbytes
  refine ⟨n, hlongest, ?_, ?_, ?_, fun p hp => ?_⟩
  · rw [FrameCache.insert, if_neg hempty, tick_eq hcount]
    exact hranked
  · rw [History.record, if_neg hempty]
    exact ((List.take_prefix n _).map Prod.fst).trans (prefix_use h.order key _)
  · rw [History.record, if_neg hempty]
    exact distinct_use h.distinct key
  · rw [History.record, if_neg hempty]
    dsimp only
    rcases List.mem_cons.1 (List.mem_of_mem_take hp) with rfl | hp
    · rw [Function.update_self]
    · have hne : p.1 ≠ key := by simpa using (List.mem_filter.1 hp).2
      rw [Function.update_of_ne hne]
      exact h.last p (List.mem_filter.1 hp).1

theorem step (h : Kept t es) (hcount : Counts t.1) (call : CacheCall κ) :
    ∃ es', Kept (shadow FrameCache.act History.record t call) es' ∧
      (t.1.act call).clock ≤ t.1.clock + 1 := by
  cases call with
  | get key =>
    rcases hlookup : t.1.entries.lookup key with _ | entry
    · -- a miss changes nothing
      have hget : t.1.get key = (t.1, none) := by rw [FrameCache.get, hlookup]
      refine ⟨es, ?_, ?_⟩
      · rw [shadow, FrameCache.act, History.record, hget]
        exact h
      · rw [FrameCache.act, hget]
        exact Nat.le_succ _
    · have hsome : (t.1.get key).2 ≠ none := by simp [FrameCache.get, hlookup]
      refine ⟨(key, ⟨entry.bytes, t.1.clock + 1⟩) :: es.filter fun p => p.1 ≠ key, ?_, ?_⟩
      · rw [shadow, FrameCache.act, History.record, if_neg hsome]
        exact h.get_hit hcount hlookup
      · rw [FrameCache.act, FrameCache.get, hlookup]
        exact (tick_eq hcount).le
  | insert key bytes =>
    by_cases hbytes : bytes = []
    · refine ⟨es, ?_, ?_⟩
      · simpa [shadow, FrameCache.act, History.record, FrameCache.insert, hbytes] using h
      · simp [FrameCache.act, FrameCache.insert, hbytes]
    · obtain ⟨n, -, hkept⟩ := h.insert hcount key hbytes
      refine ⟨_, hkept, ?_⟩
      rw [FrameCache.act, FrameCache.insert, if_neg (by simpa using hbytes)]
      exact (tick_eq hcount).le
  | clear =>
    exact ⟨[], ⟨⟨.nil, .nil, List.nodup_nil, by simp⟩, List.nil_prefix, h.distinct, by simp⟩,
      Nat.le_succ _⟩

end Kept

/-- As long as the clock does not wrap, the cache keeps the keys that were used last. -/
theorem exists_kept (budgetBytes maxEntries : ℕ) {calls : List (CacheCall κ)}
    (hcalls : calls.length < clockSize) :
    ∃ es, Kept (cacheRun budgetBytes maxEntries calls) es ∧
      (cacheRun budgetBytes maxEntries calls).1.clock ≤ calls.length := by
  induction calls using List.reverseRecOn with
  | nil =>
    exact ⟨[], ⟨⟨.nil, .nil, List.nodup_nil, by simp⟩, List.nil_prefix, List.nodup_nil, by simp⟩,
      le_rfl⟩
  | append_singleton calls call ih =>
    rw [List.length_append, List.length_singleton] at hcalls
    obtain ⟨es, hkept, hclock⟩ := ih (by omega)
    have hcount : Counts (cacheRun budgetBytes maxEntries calls).1 := by
      rw [Counts]
      omega
    obtain ⟨es', hkept', hle⟩ := hkept.step hcount call
    rw [cacheRun, run_append, List.length_append]
    exact ⟨es', hkept', hle.trans (Nat.succ_le_succ hclock)⟩

/-- What is cached: the keys that were used last, with the bytes that they were inserted with. -/
structure Caches (s : FrameCache κ) (h : History κ) : Prop where
  found : ∀ key bytes, (s.get key).2 = some bytes → h.last key = some bytes
  recent : ∀ key, (s.get key).2.isSome = true ↔ key ∈ h.order.take s.entries.length

/-- What an insert does: the entry is there, the limits hold or it is alone, and the key that was
used last among those that are not cached was not cached before or had to go. -/
structure Inserts (s s' : FrameCache κ) (h : History κ) (key : κ) (bytes : List UInt8) : Prop where
  present : (s'.get key).2 = some bytes
  limits : s'.Fits s'.entries ∨ s'.entries.map Prod.fst = [key]
  needed : ∀ k ∈ (h.use key).order[s'.entries.length]?, ∀ other, (s.get k).2 = some other →
    s.maxEntries < s'.entries.length + 1 ∨ s.budgetBytes < totalBytes s'.entries + other.length

theorem get_eq_some_iff (h : Ranked s.entries clock es) :
    (s.get key).2 = some bytes ↔ ∃ entry, (key, entry) ∈ es ∧ entry.bytes = bytes := by
  simp only [← lookup_iff h, FrameCache.get]
  rcases s.entries.lookup key with _ | entry <;> simp

theorem Kept.caches {t : FrameCache κ × History κ} (h : Kept t es) : Caches t.1 t.2 where
  found key bytes hget := by
    obtain ⟨entry, hmem, rfl⟩ := (get_eq_some_iff h.ranked).1 hget
    exact h.last _ hmem
  recent key := by
    have hlength : t.1.entries.length = (es.map Prod.fst).length := by
      rw [List.length_map, h.ranked.perm.length_eq]
    rw [hlength, ← List.prefix_iff_eq_take.1 h.order, Option.isSome_iff_exists, List.mem_map]
    simp only [get_eq_some_iff h.ranked]
    constructor
    · rintro ⟨bytes, entry, hmem, -⟩
      exact ⟨_, hmem, rfl⟩
    · rintro ⟨⟨k, entry⟩, hmem, rfl⟩
      exact ⟨_, entry, hmem, rfl⟩

theorem fits_insert : (s.insert key bytes).Fits es ↔ s.Fits es := by
  rw [FrameCache.insert]
  split_ifs <;> rfl

theorem Kept.inserts {t : FrameCache κ × History κ} (h : Kept t es) (hcount : Counts t.1)
    (hbytes : bytes ≠ []) : Inserts t.1 (t.1.insert key bytes) t.2 key bytes := by
  obtain ⟨n, ⟨hle, hpos, hfits, hlongest⟩, hkept⟩ := h.insert hcount key hbytes
  have horder : (((key, ⟨bytes, t.1.clock + 1⟩) :: es.filter fun p => p.1 ≠ key).map Prod.fst) <+:
      (t.2.use key).order := prefix_use h.order key _
  have hperm := hkept.ranked.perm
  have hlength := hperm.length_eq
  rw [List.length_take, min_eq_left hle] at hlength
  have hn : 0 < n := hpos (List.cons_ne_nil _ _)
  have hfirst : (key, (⟨bytes, t.1.clock + 1⟩ : Entry)) ∈
      ((key, ⟨bytes, t.1.clock + 1⟩) :: es.filter fun p => p.1 ≠ key).take n := by
    obtain ⟨m, rfl⟩ := Nat.exists_eq_succ_of_ne_zero hn.ne'
    exact List.mem_cons_self
  refine ⟨(get_eq_some_iff hkept.ranked).2 ⟨_, hfirst, rfl⟩, ?_, fun k hk other hother => ?_⟩
  · rcases hfits with hfits | hone
    · exact .inl (fits_insert.2 ((fits_perm hperm).1 hfits))
    · obtain rfl : n = 1 := by omega
      have hkeys := hperm.map Prod.fst
      exact .inr (List.singleton_perm.1 hkeys).symm
  · -- the first entry that was left out
    obtain ⟨entry, hmem, rfl⟩ := (get_eq_some_iff h.ranked).1 hother
    rw [← hlength] at hk ⊢
    have hdistinct := distinct_use h.distinct key
    have hne : k ≠ key := by
      rintro rfl
      have hzero : (t.2.use k).order[0]? = (t.2.use k).order[n]? := hk.symm ▸ rfl
      exact absurd ((List.getElem?_inj (Nat.succ_pos _) hdistinct).1 hzero) hn.ne
    obtain ⟨i, hi⟩ := List.mem_iff_getElem?.1 (List.mem_cons_of_mem
      (key, (⟨bytes, t.1.clock + 1⟩ : Entry))
        (List.mem_filter.2 ⟨hmem, decide_eq_true hne⟩ : (k, entry) ∈ es.filter fun p => p.1 ≠ key))
    have hilt := (List.getElem?_eq_some_iff.1 hi).1
    obtain rfl : i = n := by
      obtain ⟨rest, hrest⟩ := horder
      have hat : (t.2.use key).order[i]? = (t.2.use key).order[n]? := by
        rw [hk, ← hrest, List.getElem?_append_left (by rwa [List.length_map]), List.getElem?_map,
          hi]
        rfl
      refine (List.getElem?_inj ?_ hdistinct).1 hat
      rw [← hrest, List.length_append, List.length_map]
      omega
    have hover := hlongest (i + 1) (Nat.lt_succ_self i) hilt
    rw [FrameCache.Fits, List.take_add_one, hi, not_and_or, not_le, not_le, List.length_append,
      List.length_take, min_eq_left hle, totalBytes, List.map_append, List.sum_append] at hover
    rwa [totalBytes, ← (hperm.map fun p => p.2.bytes.length).sum_nat]

/-- After every run that is shorter than the clock counts, and an insert of some bytes behind it. -/
theorem frameCache_run (budgetBytes maxEntries : ℕ) {calls : List (CacheCall κ)}
    (hcalls : calls.length + 1 < clockSize) :
    let t := cacheRun budgetBytes maxEntries calls
    Caches t.1 t.2 ∧ ∀ key bytes, bytes ≠ [] →
      Inserts t.1 (t.1.insert key bytes) t.2 key bytes := by
  obtain ⟨es, hkept, hclock⟩ := exists_kept budgetBytes maxEntries (by omega : calls.length < _)
  have hcount : Counts (cacheRun budgetBytes maxEntries calls).1 := by
    rw [Counts]
    omega
  exact ⟨hkept.caches, fun key bytes hbytes => hkept.inserts hcount hbytes⟩

/-- Two frames in a cache for one. -/
theorem frameCache_run_two :
    let t := cacheRun 8 1 [.insert "a" [1], .get "a"]
    Inserts t.1 (t.1.insert "b" [2, 3]) t.2 "b" [2, 3] :=
  (frameCache_run 8 1 (by decide)).2 "b" [2, 3] (by simp)

/-! ### Empty frames and a clock that wraps -/

theorem run_hits (s : FrameCache κ) (key : κ) (bytes : List UInt8) {clock n : ℕ}
    (hs : s.entries = [(key, ⟨bytes, clock⟩)]) (hclock : s.clock = clock)
    (hn : clock + n < clockSize) :
    run FrameCache.act s (List.replicate n (.get key)) =
      { s with
        entries := [(key, ⟨bytes, clock + n⟩)]
        clock := clock + n } := by
  induction n generalizing s clock with
  | zero =>
    rw [List.replicate_zero, run_nil, Nat.add_zero, ← hs, ← hclock]
  | succ n ih =>
    have htick : s.tick = clock + 1 := by
      rw [FrameCache.tick, hclock]
      exact Nat.mod_eq_of_lt (by omega)
    have hget : (s.get key).1 = { s with
        entries := [(key, ⟨bytes, clock + 1⟩)]
        clock := clock + 1 } := by
      simp [FrameCache.get, hs, htick]
    have hrest : clock + 1 + n < clockSize := by omega
    rw [List.replicate_succ, run_cons, FrameCache.act, hget, ih _ rfl rfl hrest]
    simp only [Nat.add_assoc, Nat.add_comm 1]

/-- An empty frame does not replace another one; and when the clock wraps, the frame that was just
inserted is the one that is evicted. -/
theorem frameCache_empty_and_wrapped :
    ((cacheRun 8 1 [.insert "a" [1], .insert "a" []]).1.get "a").2 = some [1] ∧
      ((run FrameCache.act (.withLimits 8 1) (.insert "a" [1] ::
        List.replicate (clockSize - 2) (.get "a") ++ [.insert "b" [2]])).get "b").2 = none := by
  refine ⟨by decide, ?_⟩
  have hfirst : FrameCache.act (.withLimits 8 1) (.insert "a" [1]) =
      (⟨[("a", ⟨[1], 1⟩)], 8, 1, 1⟩ : FrameCache String) := by decide
  have hhits := run_hits ⟨[("a", ⟨[1], 1⟩)], 8, 1, 1⟩ "a" [1] (n := clockSize - 2) rfl rfl
    (by decide)
  rw [List.cons_append, run_cons, run_append, hfirst, hhits]
  decide

end Oak.Worker
