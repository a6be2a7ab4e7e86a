import Mathlib.Data.List.Basic
import Mathlib.Data.List.TakeWhile
import Mathlib.Data.Nat.Notation

/-!
# Text by bytes

A string is a list of characters, whose places are counted in bytes of UTF-8. A slice with an end
within a character does not exist; a program that asks for it panics.

* `At s i rest`: at byte `i` of `s` stands `rest`.
* `scan p s i`: where a loop ends that passes over bytes with `p` from byte `i` on.

## Main results

* `suffix_eq_some_iff`, `At.slice`: the slices that exist.
* `At.scan_cases`: a loop that does not tell apart the bytes of longer characters ends at the
  boundary of one.
* `At.findText`: so does the search for a text.
-/

namespace Oak.Lib

/-- A string. -/
abbrev Text := List Char

namespace Text

/-- What holds of the characters of a text is decided along the text. -/
instance (priority := high) decidableBAll (text : Text) (p : Char → Prop) [DecidablePred p] :
    Decidable (∀ c ∈ text, p c) := List.decidableBAll p text

instance (priority := high) decidableHead (c : Option Char) (p : Char → Prop) [DecidablePred p] :
    Decidable (∀ d ∈ c, p d) := Option.decidableForallMem c

variable {s rest mid pat : Text} {c d : Char} {i j n : ℕ} {p : UInt8 → Bool}

/-- The bytes of a text. -/
def bytes (s : Text) : List UInt8 := s.flatMap String.utf8EncodeChar

/-- The number of bytes. -/
def size (s : Text) : ℕ := (bytes s).length

/-- The byte at a place. -/
def byteAt (s : Text) (i : ℕ) : Option UInt8 := (bytes s)[i]?

/-- The text from a byte on. -/
def suffix : Text → ℕ → Option Text
  | s, 0 => some s
  | [], _ + 1 => none
  | c :: s, i + 1 => if c.utf8Size ≤ i + 1 then suffix s (i + 1 - c.utf8Size) else none

/-- The text up to a byte. -/
def initial : Text → ℕ → Option Text
  | _, 0 => some []
  | [], _ + 1 => none
  | c :: s, i + 1 =>
    if c.utf8Size ≤ i + 1 then (initial s (i + 1 - c.utf8Size)).map (c :: ·) else none

/-- The text from one byte to another. -/
def slice (s : Text) (i j : ℕ) : Option Text :=
  if i ≤ j then (suffix s i).bind fun rest => initial rest (j - i) else none

/-- A loop that passes over bytes. -/
def scan (p : UInt8 → Bool) (s : Text) (i : ℕ) : ℕ :=
  i + (((bytes s).drop i).takeWhile p).length

/-- The place of the first occurrence of a text. -/
def findText (pat : Text) : Text → Option ℕ
  | [] => if pat = [] then some 0 else none
  | c :: s =>
    if pat.isPrefixOf (c :: s) then some 0 else (findText pat s).map fun i => c.utf8Size + i

/-- What stands before and behind the last occurrence of a character. -/
def splitLast (c : Char) : Text → Option (Text × Text)
  | [] => none
  | d :: s =>
    match splitLast c s with
    | some (before, behind) => some (d :: before, behind)
    | none => if d = c then some ([], s) else none

/-- At byte `i` of `s` stands `rest`. -/
def At (s : Text) (i : ℕ) (rest : Text) : Prop := ∃ pre, s = pre ++ rest ∧ size pre = i

/-! ### Bytes -/

@[simp] theorem bytes_nil : bytes [] = [] := rfl

@[simp] theorem bytes_cons (c : Char) (s : Text) :
    bytes (c :: s) = String.utf8EncodeChar c ++ bytes s := List.flatMap_cons

@[simp] theorem bytes_append (s t : Text) : bytes (s ++ t) = bytes s ++ bytes t :=
  List.flatMap_append

@[simp] theorem size_nil : size [] = 0 := rfl

@[simp] theorem size_cons (c : Char) (s : Text) : size (c :: s) = c.utf8Size + size s := by
  rw [size, bytes_cons, List.length_append, String.length_utf8EncodeChar, size]

@[simp] theorem size_append (s t : Text) : size (s ++ t) = size s + size t := by
  rw [size, bytes_append, List.length_append, size, size]

theorem length_le_size (s : Text) : s.length ≤ size s := by
  induction s with
  | nil => exact le_rfl
  | cons c s ih =>
    rw [List.length_cons, size_cons]
    have := c.utf8Size_pos
    omega

/-- The first byte of a character. -/
def firstByte (c : Char) : UInt8 := (String.utf8EncodeChar c).headD 0

/-- A character of one byte. -/
def isAscii (c : Char) : Bool := c.val ≤ 127

theorem utf8Size_of_isAscii (h : isAscii c = true) : c.utf8Size = 1 :=
  Char.utf8Size_eq_one_iff.2 (of_decide_eq_true h)

theorem encode_of_isAscii (h : isAscii c = true) : String.utf8EncodeChar c = [c.toUInt8] :=
  String.utf8EncodeChar_eq_singleton (utf8Size_of_isAscii h)

theorem toNat_of_isAscii (h : isAscii c = true) : c.toUInt8.toNat = c.val.toNat := by
  have hle : c.val.toNat ≤ 127 := UInt32.le_iff_toNat_le.1 (of_decide_eq_true h)
  rw [Char.toUInt8, UInt32.toNat_toUInt8, Nat.mod_eq_of_lt (by omega)]

theorem le_of_mem_encode (h : isAscii c = false) : ∀ b ∈ String.utf8EncodeChar c, 128 ≤ b := by
  have hor (x y : UInt8) (hy : 128 ≤ y) : 128 ≤ x ||| y := by
    rw [UInt8.le_iff_toNat_le] at hy ⊢
    rw [UInt8.toNat_or]
    exact hy.trans Nat.right_le_or
  have hone : c.utf8Size ≠ 1 := fun hsize =>
    absurd (Char.utf8Size_eq_one_iff.1 hsize) (of_decide_eq_false h)
  have hmark : (128 : UInt8) ≤ 0x80 ∧ (128 : UInt8) ≤ 0xc0 ∧ (128 : UInt8) ≤ 0xe0 ∧
      (128 : UInt8) ≤ 0xf0 := by decide
  rcases c.utf8Size_eq with hsize | hsize | hsize | hsize
  · exact absurd hsize hone
  · rw [String.utf8EncodeChar_eq_cons_cons hsize]
    simp only [List.forall_mem_cons, List.not_mem_nil, false_imp_iff, implies_true, and_true]
    exact ⟨hor _ _ hmark.2.1, hor _ _ hmark.1⟩
  · rw [String.utf8EncodeChar_eq_cons_cons_cons hsize]
    simp only [List.forall_mem_cons, List.not_mem_nil, false_imp_iff, implies_true, and_true]
    exact ⟨hor _ _ hmark.2.2.1, hor _ _ hmark.1, hor _ _ hmark.1⟩
  · rw [String.utf8EncodeChar_eq_cons_cons_cons_cons hsize]
    simp only [List.forall_mem_cons, List.not_mem_nil, false_imp_iff, implies_true, and_true]
    exact ⟨hor _ _ hmark.2.2.2, hor _ _ hmark.1, hor _ _ hmark.1, hor _ _ hmark.1⟩

theorem encode_ne_nil (c : Char) : String.utf8EncodeChar c ≠ [] := by
  rw [← List.length_pos_iff, String.length_utf8EncodeChar]
  exact c.utf8Size_pos

theorem encode_eq_cons (c : Char) :
    String.utf8EncodeChar c = firstByte c :: (String.utf8EncodeChar c).tail := by
  obtain ⟨b, l, hl⟩ := List.exists_cons_of_ne_nil (encode_ne_nil c)
  rw [firstByte, hl]
  rfl

theorem firstByte_of_isAscii (h : isAscii c = true) : firstByte c = c.toUInt8 := by
  rw [firstByte, encode_of_isAscii h]
  rfl

theorem le_firstByte (h : isAscii c = false) : 128 ≤ firstByte c := by
  refine le_of_mem_encode h _ ?_
  rw [encode_eq_cons]
  exact List.mem_cons_self

/-- The first byte tells the characters of one byte from all others. -/
theorem firstByte_eq_iff (hd : isAscii d = true) : firstByte c = d.toUInt8 ↔ c = d := by
  have hlt : d.toUInt8.toNat ≤ 127 := by
    rw [toNat_of_isAscii hd]
    exact UInt32.le_iff_toNat_le.1 (of_decide_eq_true hd)
  constructor
  · intro heq
    cases hc : isAscii c with
    | true =>
      rw [firstByte_of_isAscii hc, ← UInt8.toNat_inj, toNat_of_isAscii hc,
        toNat_of_isAscii hd, UInt32.toNat_inj] at heq
      exact Char.ext heq
    | false =>
      have hle := UInt8.le_iff_toNat_le.1 (le_firstByte hc)
      rw [heq] at hle
      exact absurd (hle.trans hlt) (by decide)
  · rintro rfl
    exact firstByte_of_isAscii hd

/-! ### Places -/

theorem At.start (s : Text) : At s 0 s := ⟨[], rfl, rfl⟩

theorem At.append (h : At s i (mid ++ rest)) : At s (i + size mid) rest := by
  obtain ⟨pre, rfl, rfl⟩ := h
  exact ⟨pre ++ mid, (List.append_assoc ..).symm, size_append pre mid⟩

theorem At.cons (h : At s i (c :: rest)) : At s (i + c.utf8Size) rest := by
  have hc : At s i ([c] ++ rest) := h
  have hnext := hc.append
  rwa [size_cons, size_nil, Nat.add_zero] at hnext

theorem At.cons_ascii (h : At s i (c :: rest)) (hc : isAscii c = true) : At s (i + 1) rest :=
  utf8Size_of_isAscii hc ▸ h.cons

theorem At.size_eq (h : At s i rest) : i + size rest = size s := by
  obtain ⟨pre, rfl, rfl⟩ := h
  exact (size_append pre rest).symm

theorem At.length_le (h : At s i rest) : rest.length ≤ size s := by
  have hsize := h.size_eq
  have hle := length_le_size rest
  omega

theorem At.lt_size (h : At s i (c :: rest)) : i < size s := by
  have hsize := h.size_eq
  have hpos := c.utf8Size_pos
  rw [size_cons] at hsize
  omega

theorem At.drop_bytes (h : At s i rest) : (bytes s).drop i = bytes rest := by
  obtain ⟨pre, rfl, rfl⟩ := h
  rw [bytes_append, size, List.drop_left]

theorem At.byteAt_eq (h : At s i rest) : byteAt s i = (bytes rest).head? := by
  rw [byteAt, ← h.drop_bytes, List.head?_drop]

theorem At.byteAt_nil (h : At s i []) : byteAt s i = none := h.byteAt_eq

theorem At.byteAt_cons (h : At s i (c :: rest)) : byteAt s i = some (firstByte c) := by
  rw [h.byteAt_eq, bytes_cons, encode_eq_cons]
  rfl

theorem suffix_append (pre rest : Text) : suffix (pre ++ rest) (size pre) = some rest := by
  induction pre with
  | nil =>
    rw [List.nil_append, size_nil, suffix]
  | cons c pre ih =>
    obtain ⟨n, hn⟩ : ∃ n, size (c :: pre) = n + 1 := by
      refine Nat.exists_eq_succ_of_ne_zero ?_
      have := c.utf8Size_pos
      rw [size_cons]
      omega
    have hsize : c.utf8Size + size pre = n + 1 := by rw [← size_cons, hn]
    rw [hn, List.cons_append, suffix, if_pos (by omega),
      show n + 1 - c.utf8Size = size pre by omega, ih]

theorem suffix_eq_some_iff : suffix s i = some rest ↔ At s i rest := by
  constructor
  · intro h
    induction s, i using suffix.induct with
    | case1 s =>
      rw [suffix] at h
      obtain rfl := Option.some.inj h
      exact .start s
    | case2 i =>
      rw [suffix] at h
      exact absurd h (by simp)
    | case3 c s i hle ih =>
      rw [suffix, if_pos hle] at h
      obtain ⟨pre, rfl, hsize⟩ := ih h
      exact ⟨c :: pre, rfl, by rw [size_cons, hsize]; omega⟩
    | case4 c s i hle =>
      rw [suffix, if_neg hle] at h
      exact absurd h (by simp)
  · rintro ⟨pre, rfl, rfl⟩
    exact suffix_append pre rest

theorem initial_append (mid rest : Text) : initial (mid ++ rest) (size mid) = some mid := by
  induction mid with
  | nil => rw [List.nil_append, size_nil, initial]
  | cons c mid ih =>
    obtain ⟨n, hn⟩ : ∃ n, size (c :: mid) = n + 1 := by
      refine Nat.exists_eq_succ_of_ne_zero ?_
      have := c.utf8Size_pos
      rw [size_cons]
      omega
    have hsize : c.utf8Size + size mid = n + 1 := by rw [← size_cons, hn]
    rw [hn, List.cons_append, initial, if_pos (by omega),
      show n + 1 - c.utf8Size = size mid by omega, ih, Option.map_some]

/-- A slice between two places at boundaries. -/
theorem At.slice (h : At s i (mid ++ rest)) : slice s i (i + size mid) = some mid := by
  rw [Text.slice, if_pos (Nat.le_add_right _ _), suffix_eq_some_iff.2 h, Option.bind_some,
    Nat.add_sub_cancel_left, initial_append]

/-! ### Loops over bytes -/

/-- A test that does not tell apart the bytes of longer characters. -/
def Uniform (p : UInt8 → Bool) : Prop := ∀ b b' : UInt8, 128 ≤ b → 128 ≤ b' → p b = p b'

theorem takeWhile_bytes (hp : Uniform p) (s : Text) :
    (bytes s).takeWhile p = bytes (s.takeWhile fun c => p (firstByte c)) := by
  induction s with
  | nil => rfl
  | cons c s ih =>
    rw [bytes_cons]
    by_cases hc : p (firstByte c) = true
    · have hall : ∀ b ∈ String.utf8EncodeChar c, p b = true := by
        intro b hb
        cases hascii : isAscii c with
        | true =>
          rw [encode_of_isAscii hascii, List.mem_singleton] at hb
          rwa [hb, ← firstByte_of_isAscii hascii]
        | false =>
          rw [hp b (firstByte c) (le_of_mem_encode hascii b hb) (le_firstByte hascii)]
          exact hc
      rw [List.takeWhile_append_of_pos hall, ih, List.takeWhile_cons, if_pos hc, bytes_cons]
    · rw [encode_eq_cons, List.cons_append, List.takeWhile_cons, if_neg hc, List.takeWhile_cons,
        if_neg hc, bytes_nil]

theorem At.scan (h : At s i rest) (hp : Uniform p) :
    Text.scan p s i = i + size (rest.takeWhile fun c => p (firstByte c)) := by
  rw [Text.scan, h.drop_bytes, takeWhile_bytes hp, size]

theorem At.scan_at (h : At s i rest) (hp : Uniform p) :
    At s (Text.scan p s i) (rest.dropWhile fun c => p (firstByte c)) := by
  rw [h.scan hp]
  refine At.append ?_
  rwa [List.takeWhile_append_dropWhile]

theorem At.slice_scan (h : At s i rest) (hp : Uniform p) :
    Text.slice s i (Text.scan p s i) = some (rest.takeWhile fun c => p (firstByte c)) := by
  have hsplit : At s i ((rest.takeWhile fun c => p (firstByte c)) ++
      rest.dropWhile fun c => p (firstByte c)) := by
    rwa [List.takeWhile_append_dropWhile]
  rw [h.scan hp, hsplit.slice]

/-- A loop ends at the first character that fails the test. -/
theorem At.scan_append (h : At s i (mid ++ c :: rest)) (hp : Uniform p)
    (hmid : ∀ d ∈ mid, p (firstByte d) = true) (hc : p (firstByte c) = false) :
    Text.scan p s i = i + size mid := by
  rw [h.scan hp, List.takeWhile_append_of_pos hmid, List.takeWhile_cons, hc,
    if_neg Bool.false_ne_true, List.append_nil]

theorem At.scan_all (h : At s i rest) (hp : Uniform p)
    (hrest : ∀ d ∈ rest, p (firstByte d) = true) : Text.scan p s i = size s := by
  rw [h.scan hp, List.takeWhile_eq_self_iff.2 hrest, h.size_eq]

theorem At.scan_cases (h : At s i rest) (hp : Uniform p) :
    Text.scan p s i = size s ∨ ∃ mid c tail, rest = mid ++ c :: tail ∧
      Text.scan p s i = i + size mid ∧ p (firstByte c) = false := by
  rcases hdrop : rest.dropWhile fun c => p (firstByte c) with _ | ⟨c, tail⟩
  · exact .inl (h.scan_all hp (List.dropWhile_eq_nil_iff.1 hdrop))
  · refine .inr ⟨rest.takeWhile fun c => p (firstByte c), c, tail, ?_, h.scan hp, ?_⟩
    · rw [← hdrop, List.takeWhile_append_dropWhile]
    · have hhead := List.head?_dropWhile_not (fun c => p (firstByte c)) rest
      rw [hdrop] at hhead
      simpa using hhead

/-- Bytes of longer characters are no characters of one byte. -/
theorem ne_of_le {b : UInt8} (hd : isAscii d = true) (hb : 128 ≤ b) : b ≠ d.toUInt8 := by
  rintro rfl
  have hle := UInt8.le_iff_toNat_le.1 hb
  rw [toNat_of_isAscii hd] at hle
  exact absurd (hle.trans (UInt32.le_iff_toNat_le.1 (of_decide_eq_true hd))) (by decide)

theorem uniform_ne (hd : isAscii d = true) : Uniform fun b => decide (b ≠ d.toUInt8) := by
  intro b b' hb hb'
  dsimp only
  rw [decide_eq_true (ne_of_le hd hb), decide_eq_true (ne_of_le hd hb')]

/-- A byte below the others stands at the boundary of its character. -/
theorem exists_of_bytes {b : UInt8} (hb : b < 128) (h : (bytes s)[n]? = some b) :
    ∃ mid c tail, s = mid ++ c :: tail ∧ size mid = n ∧ isAscii c = true ∧ c.toUInt8 = b := by
  induction s generalizing n with
  | nil => exact absurd h (by simp)
  | cons c s ih =>
    rw [bytes_cons] at h
    by_cases hn : n < (String.utf8EncodeChar c).length
    · rw [List.getElem?_append_left hn] at h
      have hmem := List.mem_of_getElem? h
      cases hc : isAscii c with
      | true =>
        rw [encode_of_isAscii hc, List.length_singleton] at hn
        rw [encode_of_isAscii hc, List.mem_singleton] at hmem
        exact ⟨[], c, s, rfl, by rw [size_nil]; omega, hc, hmem.symm⟩
      | false => exact absurd hb (UInt8.not_lt.2 (le_of_mem_encode hc b hmem))
    · rw [List.getElem?_append_right (not_lt.1 hn)] at h
      obtain ⟨mid, d, tail, rfl, hsize, hd, hbyte⟩ := ih h
      rw [String.length_utf8EncodeChar] at hn hsize
      exact ⟨c :: mid, d, tail, rfl, by rw [size_cons]; omega, hd, hbyte⟩

/-! ### The search for a text -/

theorem findText_eq_some (h : findText pat rest = some n) :
    ∃ mid tail, rest = mid ++ (pat ++ tail) ∧ size mid = n := by
  induction rest generalizing n with
  | nil =>
    rw [findText] at h
    split_ifs at h with hpat
    obtain rfl := Option.some.inj h
    exact ⟨[], [], by rw [hpat]; rfl, rfl⟩
  | cons c rest ih =>
    rw [findText] at h
    split_ifs at h with hpre
    · obtain rfl := Option.some.inj h
      obtain ⟨tail, htail⟩ := List.isPrefixOf_iff_prefix.1 hpre
      exact ⟨[], tail, htail.symm, rfl⟩
    · obtain ⟨m, hm, rfl⟩ := Option.map_eq_some_iff.1 h
      obtain ⟨mid, tail, rfl, rfl⟩ := ih hm
      exact ⟨c :: mid, tail, rfl, size_cons c mid⟩

theorem At.findText (h : At s i rest) (hfind : findText pat rest = some n) :
    ∃ tail, At s (i + n + size pat) tail ∧ tail.length ≤ rest.length := by
  obtain ⟨mid, tail, rfl, rfl⟩ := findText_eq_some hfind
  refine ⟨tail, h.append.append, ?_⟩
  rw [List.length_append, List.length_append]
  omega

/-! ### The last occurrence of a character -/

theorem splitLast_eq_none_iff : splitLast c s = none ↔ c ∉ s := by
  induction s with
  | nil => exact iff_of_true rfl List.not_mem_nil
  | cons d s ih =>
    rw [splitLast, List.mem_cons, not_or, ← ih]
    rcases hlast : splitLast c s with _ | p
    · dsimp only
      split_ifs with hd
      · exact iff_of_false (by simp) fun h => h.1 hd.symm
      · exact iff_of_true rfl ⟨Ne.symm hd, rfl⟩
    · exact iff_of_false (by simp) fun h => by simp at h

theorem splitLast_append (h : c ∉ rest) (mid : Text) :
    splitLast c (mid ++ c :: rest) = some (mid, rest) := by
  induction mid with
  | nil => rw [List.nil_append, splitLast, splitLast_eq_none_iff.2 h, if_pos rfl]
  | cons d mid ih => rw [List.cons_append, splitLast, ih]

theorem splitLast_eq_some_iff :
    splitLast c s = some (mid, rest) ↔ s = mid ++ c :: rest ∧ c ∉ rest := by
  refine ⟨fun h => ?_, fun h => h.1 ▸ splitLast_append h.2 mid⟩
  induction s generalizing mid with
  | nil => cases h
  | cons d s ih =>
    rw [splitLast] at h
    rcases hlast : splitLast c s with _ | ⟨before, behind⟩
    · rw [hlast] at h
      dsimp only at h
      split_ifs at h with hd
      obtain ⟨rfl, rfl⟩ := Prod.mk.inj (Option.some.inj h)
      exact ⟨by rw [hd, List.nil_append], splitLast_eq_none_iff.1 hlast⟩
    · rw [hlast] at h
      obtain ⟨rfl, rfl⟩ := Prod.mk.inj (Option.some.inj h)
      obtain ⟨rfl, hnot⟩ := ih hlast
      exact ⟨rfl, hnot⟩

end Text

end Oak.Lib
