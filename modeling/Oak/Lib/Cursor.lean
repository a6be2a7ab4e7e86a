import Oak.Lib.Text

/-!
# Parsers on bytes and on characters

A parser is written once, over what it asks of its input. One input is a cursor that counts bytes
and passes over white space, values and texts one byte at a time; it does not survive a place
within a character. The other takes whole characters and notes those that it passes.

* `Input m`: what a parser asks of its input.
* `cursor s`, `reader`: the two inputs.
* `Sim s c r`: cursor `c` on `s` does what reader `r` does as long as the characters that are
  passed have one byte each, and does not survive otherwise.
* `Ensures r t P`: reader `r` does not run out of rounds on `t` and leaves what `P` says.

## Main results

* `Sim.bind`, `Ensures.bind`, `Runs.bind`: the composition of parsers.
* `sim_startsWith`, `sim_eat`, `sim_atEnd`, `sim_word`, `sim_pass`: the two inputs agree.
-/

namespace Oak.Lib

open Text

/-- Why a parser gives up: what it has read, or the end of its rounds. -/
inductive Fault
  | failed (message : Text)
  | stuck
deriving DecidableEq

/-- What a parser asks of its input. -/
structure Input (m : Type → Type) where
  fail : {α : Type} → Fault → m α
  /-- Whether a text comes next. -/
  startsWith : Text → m Bool
  /-- Whether a text comes next, which is then behind the input. -/
  eat : Text → m Bool
  atEnd : m Bool
  /-- The characters with a property, taken as a whole. -/
  word : (Char → Bool) → m Text
  /-- The characters with a property, passed one byte at a time. -/
  pass : (Char → Bool) → m Text

/-! ### The two inputs -/

/-- A loop that looks at a character and steps one byte. -/
def walk (p : Char → Bool) (s : Text) : ℕ → ℕ → Option ℕ
  | 0, i => some i
  | k + 1, i => (suffix s i).bind fun t =>
    match t.head? with
    | some c => if p c then walk p s k (i + 1) else some i
    | none => some i

/-- A parser at a byte; `none` where it does not survive. -/
def Cursor (α : Type) : Type := ℕ → Option (Except Fault (α × ℕ))

instance : Monad Cursor where
  pure a := fun i => some (.ok (a, i))
  bind c f := fun i =>
    match c i with
    | none => none
    | some (.error e) => some (.error e)
    | some (.ok (a, j)) => f a j

/-- A parser in front of a text, with the characters it passes. -/
def Reader (α : Type) : Type := Text → Except Fault (α × Text) × List Char

instance : Monad Reader where
  pure a := fun t => (.ok (a, t), [])
  bind r f := fun t =>
    match r t with
    | (.error e, passed) => (.error e, passed)
    | (.ok (a, t), passed) => ((f a t).1, passed ++ (f a t).2)

/-- The bytes of a text. -/
def cursor (s : Text) : Input Cursor where
  fail e := fun _ => some (.error e)
  startsWith p := fun i => (suffix s i).map fun t => .ok (p.isPrefixOf t, i)
  eat p := fun i => (suffix s i).map fun t =>
    .ok (if p.isPrefixOf t then (true, i + size p) else (false, i))
  atEnd := fun i => some (.ok (decide (size s ≤ i), i))
  word p := fun i => (suffix s i).map fun t => .ok (t.takeWhile p, i + size (t.takeWhile p))
  pass p := fun i => (walk p s (size s - i) i).bind fun j => (slice s i j).map fun t => .ok (t, j)

/-- The characters of a text. -/
def reader : Input Reader where
  fail e := fun _ => (.error e, [])
  startsWith p := fun t => (.ok (p.isPrefixOf t, t), [])
  eat p := fun t => (.ok (if p.isPrefixOf t then (true, t.drop p.length) else (false, t)), [])
  atEnd := fun t => (.ok (t.isEmpty, t), [])
  word p := fun t => (.ok (t.takeWhile p, t.dropWhile p), [])
  pass p := fun t => (.ok (t.takeWhile p, t.dropWhile p), t.takeWhile p)

variable {α β : Type} {s t t' : Text} {i : ℕ} {c : Char} {p : Char → Bool} {e : Fault} {a : α}

/-! ### The loop -/

theorem suffix_append_add (pre t : Text) (k : ℕ) :
    suffix (pre ++ t) (size pre + k) = suffix t k := by
  induction pre with
  | nil => rw [List.nil_append, size_nil, Nat.zero_add]
  | cons c pre ih =>
    obtain ⟨n, hn⟩ : ∃ n, size (c :: pre) + k = n + 1 := by
      refine Nat.exists_eq_succ_of_ne_zero ?_
      have := c.utf8Size_pos
      rw [size_cons]
      omega
    have hsize : c.utf8Size + size pre + k = n + 1 := by rw [← size_cons, hn]
    rw [hn, List.cons_append, suffix, if_pos (by omega),
      show n + 1 - c.utf8Size = size pre + k by omega, ih]

/-- The place behind the first byte of a longer character is no boundary. -/
theorem suffix_succ_of_wide (h : At s i (c :: t)) (hc : isAscii c = false) :
    suffix s (i + 1) = none := by
  obtain ⟨pre, rfl, rfl⟩ := h
  have hsize : c.utf8Size ≠ 1 := fun hone =>
    absurd (Char.utf8Size_eq_one_iff.1 hone) (of_decide_eq_false hc)
  have hpos := c.utf8Size_pos
  rw [suffix_append_add, suffix, if_neg (by omega)]

/-- The loop ends behind the characters that it passes, or within the first long one of them. -/
theorem walk_eq (h : At s i t) :
    walk p s (size s - i) i =
      if ∀ c ∈ t.takeWhile p, isAscii c = true then some (i + size (t.takeWhile p)) else none := by
  induction t generalizing i with
  | nil =>
    have hsize := h.size_eq
    rw [size_nil] at hsize
    rw [show size s - i = 0 by omega, walk, List.takeWhile_nil, if_pos (by simp), size_nil]
    rfl
  | cons c t ih =>
    have hlt := h.lt_size
    obtain ⟨k, hk⟩ : ∃ k, size s - i = k + 1 := ⟨size s - i - 1, by omega⟩
    rw [hk, walk, suffix_eq_some_iff.2 h, Option.bind_some, List.head?_cons]
    dsimp only
    cases hp : p c with
    | false =>
      rw [List.takeWhile_cons_of_neg (by rw [hp]; decide), if_neg Bool.false_ne_true,
        if_pos (by simp), size_nil]
      rfl
    | true =>
      rw [if_pos rfl, List.takeWhile_cons_of_pos hp]
      cases hc : isAscii c with
      | true =>
        rw [show k = size s - (i + 1) by omega, ih (h.cons_ascii hc)]
        simp only [List.forall_mem_cons, hc, true_and, size_cons, utf8Size_of_isAscii hc,
          Nat.add_assoc]
      | false =>
        have hneg : ¬ ∀ d ∈ c :: t.takeWhile p, isAscii d = true := fun hall =>
          Bool.false_ne_true (hc ▸ hall c List.mem_cons_self)
        have hsize := h.size_eq
        have htwo : c.utf8Size ≠ 1 := fun hone =>
          absurd (Char.utf8Size_eq_one_iff.1 hone) (of_decide_eq_false hc)
        have hpos := c.utf8Size_pos
        rw [size_cons] at hsize
        obtain ⟨l, rfl⟩ : ∃ l, k = l + 1 := ⟨k - 1, by omega⟩
        rw [if_neg hneg, walk, suffix_succ_of_wide h hc, Option.bind_none]

/-! ### Composition -/

theorem cursor_bind (x : Cursor α) (f : α → Cursor β) (i : ℕ) :
    (x >>= f) i = match x i with
      | none => none
      | some (.error e) => some (.error e)
      | some (.ok (a, j)) => f a j := rfl

theorem reader_bind (r : Reader α) (f : α → Reader β) (t : Text) :
    (r >>= f) t = match r t with
      | (.error e, passed) => (.error e, passed)
      | (.ok (a, t), passed) => ((f a t).1, passed ++ (f a t).2) := rfl

/-- What a cursor does where a reader does `y`. -/
def Agrees (s : Text) (x : Option (Except Fault (α × ℕ)))
    (y : Except Fault (α × Text) × List Char) : Prop :=
  if ∀ c ∈ y.2, isAscii c = true then
    match y.1 with
    | .error e => x = some (.error e)
    | .ok (a, t) => ∃ i, At s i t ∧ x = some (.ok (a, i))
  else x = none

/-- A cursor does what a reader does. -/
def Sim (s : Text) (x : Cursor α) (r : Reader α) : Prop := ∀ i t, At s i t → Agrees s (x i) (r t)

theorem agrees_ok (h : At s i t) (a : α) : Agrees s (some (.ok (a, i))) (.ok (a, t), []) := by
  rw [Agrees, if_pos (by simp)]
  exact ⟨i, h, rfl⟩

theorem Sim.pure (s : Text) (a : α) : Sim s (pure a) (pure a) := fun _ _ h => agrees_ok h a

variable {r : Reader α}

/-- Composition. -/
theorem Sim.bind {x : Cursor α} {f : α → Cursor β} {g : α → Reader β} (h : Sim s x r)
    (hf : ∀ a, Sim s (f a) (g a)) : Sim s (x >>= f) (r >>= g) := by
  intro i t hat
  have hx := h i t hat
  rw [cursor_bind, reader_bind]
  rcases hr : r t with ⟨e | ⟨a, t'⟩, passed⟩
  · rw [hr, Agrees] at hx
    rw [Agrees]
    by_cases hp : ∀ c ∈ passed, isAscii c = true
    · rw [if_pos hp] at hx ⊢
      rw [hx]
    · rw [if_neg hp] at hx ⊢
      rw [hx]
  · rw [hr, Agrees] at hx
    by_cases hp : ∀ c ∈ passed, isAscii c = true
    · rw [if_pos hp] at hx
      obtain ⟨j, hj, heq⟩ := hx
      have hnext := hf a j t' hj
      rw [heq]
      rw [Agrees] at hnext ⊢
      have hiff : (∀ c ∈ passed ++ (g a t').2, isAscii c = true) ↔
          ∀ c ∈ (g a t').2, isAscii c = true := by
        rw [List.forall_mem_append]
        exact and_iff_right hp
      simp only [hiff]
      exact hnext
    · rw [if_neg hp] at hx
      rw [hx, Agrees, if_neg]
      exact fun hall => hp fun c hc => hall c (List.mem_append_left _ hc)

theorem sim_fail (s : Text) (e : Fault) :
    Sim s ((cursor s).fail e : Cursor α) (reader.fail e) := by
  intro i t _
  rw [Agrees, if_pos (by simp [reader])]
  rfl

theorem sim_startsWith (s p : Text) : Sim s ((cursor s).startsWith p) (reader.startsWith p) := by
  intro i t h
  have hcursor : (cursor s).startsWith p i = some (.ok (p.isPrefixOf t, i)) := by
    simp only [cursor, suffix_eq_some_iff.2 h, Option.map_some]
  rw [hcursor]
  exact agrees_ok h _

theorem sim_eat (s p : Text) : Sim s ((cursor s).eat p) (reader.eat p) := by
  intro i t h
  have hcursor : (cursor s).eat p i =
      some (.ok (if p.isPrefixOf t then (true, i + size p) else (false, i))) := by
    simp only [cursor, suffix_eq_some_iff.2 h, Option.map_some]
  rw [hcursor]
  simp only [reader]
  split_ifs with hpre
  · obtain ⟨rest, rfl⟩ := List.isPrefixOf_iff_prefix.1 hpre
    rw [List.drop_left]
    exact agrees_ok h.append _
  · exact agrees_ok h _

theorem sim_atEnd (s : Text) : Sim s (cursor s).atEnd reader.atEnd := by
  intro i t h
  have hend : decide (size s ≤ i) = t.isEmpty := by
    cases t with
    | nil =>
      have hsize := h.size_eq
      rw [size_nil] at hsize
      exact decide_eq_true (by omega)
    | cons c t => exact decide_eq_false (not_le.2 h.lt_size)
  have hcursor : (cursor s).atEnd i = some (.ok (t.isEmpty, i)) := by
    rw [← hend]
    rfl
  rw [hcursor]
  exact agrees_ok h _

theorem sim_word (s : Text) (p : Char → Bool) : Sim s ((cursor s).word p) (reader.word p) := by
  intro i t h
  have hcursor : (cursor s).word p i = some (.ok (t.takeWhile p, i + size (t.takeWhile p))) := by
    simp only [cursor, suffix_eq_some_iff.2 h, Option.map_some]
  rw [hcursor]
  refine agrees_ok (At.append ?_) _
  rwa [List.takeWhile_append_dropWhile]

theorem sim_pass (s : Text) (p : Char → Bool) : Sim s ((cursor s).pass p) (reader.pass p) := by
  intro i t h
  have hsplit : At s i (t.takeWhile p ++ t.dropWhile p) := by
    rwa [List.takeWhile_append_dropWhile]
  simp only [cursor, reader, walk_eq h, Agrees]
  split_ifs with hall
  · rw [Option.bind_some, hsplit.slice, Option.map_some]
    exact ⟨_, hsplit.append, rfl⟩
  · rfl

/-! ### What readers leave -/

/-- A reader does not run out of rounds and leaves what `P` says. -/
def Ensures (r : Reader α) (t : Text) (P : α → Text → Prop) : Prop :=
  match (r t).1 with
  | .error e => e ≠ .stuck
  | .ok (a, t) => P a t

variable {P : α → Text → Prop} {f : α → Reader β}

theorem Ensures.bind {Q : β → Text → Prop} (h : Ensures r t P)
    (hf : ∀ a t, P a t → Ensures (f a) t Q) : Ensures (r >>= f) t Q := by
  rw [Ensures, reader_bind]
  rw [Ensures] at h
  rcases hr : r t with ⟨e | ⟨a, t'⟩, passed⟩
  · rw [hr] at h
    exact h
  · rw [hr] at h
    exact hf a t' h

theorem Ensures.mono {P Q : α → Text → Prop} (h : Ensures r t P) (hPQ : ∀ a t, P a t → Q a t) :
    Ensures r t Q := by
  rw [Ensures] at h ⊢
  rcases hr : (r t).1 with e | ⟨a, t'⟩
  · rw [hr] at h
    exact h
  · rw [hr] at h
    exact hPQ a t' h

theorem Ensures.ne_stuck (h : Ensures r t P) : (r t).1 ≠ .error .stuck := by
  intro hr
  rw [Ensures, hr] at h
  exact h rfl

theorem ensures_pure (h : P a t) : Ensures (pure a) t P := h

theorem ensures_fail (message t : Text) :
    Ensures (reader.fail (.failed message)) t P := fun h => by cases h

theorem ensures_startsWith (p t : Text) :
    Ensures (reader.startsWith p) t fun b u => u = t ∧ b = p.isPrefixOf t := ⟨rfl, rfl⟩

theorem ensures_eat (p t : Text) :
    Ensures (reader.eat p) t fun b u =>
      (b = true ∧ u.length + p.length = t.length) ∨ (b = false ∧ u = t) := by
  simp only [Ensures, reader]
  split_ifs with hpre
  · have hle := (List.isPrefixOf_iff_prefix.1 hpre).length_le
    exact .inl ⟨rfl, by rw [List.length_drop]; omega⟩
  · exact .inr ⟨rfl, rfl⟩

theorem ensures_atEnd (t : Text) :
    Ensures reader.atEnd t fun b u => u = t ∧ b = t.isEmpty := ⟨rfl, rfl⟩

theorem length_takeWhile_add (p : Char → Bool) (t : Text) :
    (t.dropWhile p).length + (t.takeWhile p).length = t.length := by
  rw [Nat.add_comm, ← List.length_append, List.takeWhile_append_dropWhile]

theorem ensures_word (p : Char → Bool) (t : Text) :
    Ensures (reader.word p) t fun a u => u.length + a.length = t.length :=
  length_takeWhile_add p t

theorem ensures_pass (p : Char → Bool) (t : Text) :
    Ensures (reader.pass p) t fun a u => u.length + a.length = t.length :=
  length_takeWhile_add p t

/-! ### Runs of readers -/

/-- A reader gives a value, leaves a text and passes some characters. -/
def Runs (r : Reader α) (t : Text) (a : α) (t' : Text) (passed : List Char) : Prop :=
  r t = (.ok (a, t'), passed)

variable {t₁ t₂ : Text}

theorem Runs.bind {b : β} {passed passed' : List Char} (h : Runs r t a t₁ passed)
    (hf : Runs (f a) t₁ b t₂ passed') : Runs (r >>= f) t b t₂ (passed ++ passed') := by
  rw [Runs] at h hf ⊢
  rw [reader_bind, h]
  dsimp only
  rw [hf]

theorem Runs.silent {b : β} {passed : List Char} (h : Runs r t a t₁ [])
    (hf : Runs (f a) t₁ b t₂ passed) : Runs (r >>= f) t b t₂ passed :=
  h.bind hf

theorem Runs.bind_silent {b : β} {passed : List Char} (h : Runs r t a t₁ passed)
    (hf : Runs (f a) t₁ b t₂ []) : Runs (r >>= f) t b t₂ passed := by
  have hall := h.bind hf
  rwa [List.append_nil] at hall

theorem Runs.pure (a : α) (t : Text) : Runs (pure a) t a t [] := rfl

theorem runs_startsWith (p t : Text) : Runs (reader.startsWith p) t (p.isPrefixOf t) t [] := rfl

theorem runs_eat (p t : Text) : Runs (reader.eat p) (p ++ t) true t [] := by
  simp only [Runs, reader]
  rw [if_pos (List.isPrefixOf_iff_prefix.2 (List.prefix_append p t)), List.drop_left]

theorem runs_eat_of_not {want : Text} (h : ¬ want <+: t) :
    Runs (reader.eat want) t false t [] := by
  simp only [Runs, reader]
  rw [if_neg (mt List.isPrefixOf_iff_prefix.1 h)]

theorem runs_atEnd (t : Text) : Runs reader.atEnd t t.isEmpty t [] := rfl

variable {mid : Text}

section

variable (hmid : ∀ c ∈ mid, p c = true) (ht : ∀ c ∈ t.head?, p c = false)

include hmid ht

theorem takeWhile_append_stop : (mid ++ t).takeWhile p = mid := by
  rw [List.takeWhile_append_of_pos hmid]
  cases t with
  | nil => rw [List.takeWhile_nil, List.append_nil]
  | cons c t =>
    rw [List.takeWhile_cons_of_neg (by rw [ht c rfl]; decide), List.append_nil]

theorem dropWhile_append_stop : (mid ++ t).dropWhile p = t := by
  have hsplit := (mid ++ t).takeWhile_append_dropWhile (p := p)
  rw [takeWhile_append_stop hmid ht] at hsplit
  exact List.append_cancel_left hsplit

theorem runs_word : Runs (reader.word p) (mid ++ t) mid t [] := by
  simp only [Runs, reader]
  rw [takeWhile_append_stop hmid ht, dropWhile_append_stop hmid ht]

theorem runs_pass : Runs (reader.pass p) (mid ++ t) mid t mid := by
  simp only [Runs, reader]
  rw [takeWhile_append_stop hmid ht, dropWhile_append_stop hmid ht]

end

end Oak.Lib
