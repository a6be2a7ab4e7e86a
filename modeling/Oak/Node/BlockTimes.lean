import Oak.Core.Exact
import Oak.Node.Block

/-!
# Blocks with stored times

The setters of `BlockCore` in `oak-node/src/block.rs` on the times as they are stored, which are
rounded. `none` is an overflow.

* `BlockTimes` are the times of a `BlockCore`.

## Main results

* `BlockCore.setIn_times`, `BlockCore.setLengthAndMediaOut_times`,
  `BlockCore.setLengthAndMediaIn_times`: where all times are exact, the setters do with the stored
  times what those of `BlockCore` do with rational numbers.
-/

namespace Oak.Node

open Oak.Core

/-- The times of a `BlockCore`. -/
structure BlockTimes where
  in_ : Fraction
  out : Fraction
  mediaIn : Fraction
  deriving DecidableEq

namespace BlockTimes

variable (b : BlockTimes)

/-- `length`. -/
def length : Option Fraction := b.out.sub b.in_

/-- The range becomes `TimeRange::new(in_, out)`. -/
def withRange (in_ out : Fraction) : BlockTimes :=
  if out.cmp in_ = .lt then ⟨out, in_, b.mediaIn⟩ else ⟨in_, out, b.mediaIn⟩

/-- `set_in`. -/
def setIn (in_ : Fraction) : Option BlockTimes := do
  let length ← b.length
  let out ← in_.add length
  some (b.withRange in_ out)

/-- `set_length_and_media_out`. -/
def setLengthAndMediaOut (length : Fraction) : Option BlockTimes := do
  let old ← b.length
  let out ← b.in_.add old
  let in_ ← out.sub length
  let b := b.withRange in_ out
  some { b with mediaIn := b.in_ }

/-- `set_length_and_media_in`. -/
def setLengthAndMediaIn (length : Fraction) : Option BlockTimes := do
  let out ← b.in_.add length
  some (b.withRange b.in_ out)

end BlockTimes

namespace BlockCore

open Fraction

variable {F : Type*} (c : BlockCore F) {t : Rational}

/-- The stored times of a block. -/
def times : BlockTimes := ⟨ofRat c.in_, ofRat c.out, ofRat c.mediaIn⟩

theorem withRange_times (s t : Rational) :
    c.times.withRange (ofRat s) (ofRat t) = ({ c with range := .new s t } : BlockCore F).times := by
  rw [BlockTimes.withRange, TimeRange.new, cmp_ofRat]
  by_cases h : t < s
  · rw [if_pos h, if_pos (compare_lt_iff_lt.2 h)]
    rfl
  · rw [if_neg h, if_neg (mt compare_lt_iff_lt.1 h)]
    rfl

variable {c}

theorem length_times (hin : Exact c.in_) (hout : Exact c.out) (hlength : Exact c.length) :
    c.times.length = some (ofRat c.length) := sub_ofRat hout hin hlength

theorem setIn_times (h : Exacts [c.in_, c.out, c.length, t, t + c.length]) :
    c.times.setIn (ofRat t) = some (c.setIn t).times := by
  simp only [exacts_cons, exacts_nil, and_true] at h
  obtain ⟨hin, hout, hlength, ht, hsum⟩ := h
  rw [BlockTimes.setIn, length_times hin hout hlength]
  simp only [Option.bind_eq_bind, Option.bind_some, add_ofRat ht hlength hsum, withRange_times]
  rfl

theorem setLengthAndMediaOut_times (h : Exacts [c.in_, c.out, c.length, t, c.out - t]) :
    c.times.setLengthAndMediaOut (ofRat t) = some (c.setLengthAndMediaOut t).times := by
  simp only [exacts_cons, exacts_nil, and_true] at h
  obtain ⟨hin, hout, hlength, ht, hdiff⟩ := h
  have hadd : c.times.in_.add (ofRat c.length) = some (ofRat c.out) := by
    rw [← c.in_add_length] at hout ⊢
    exact add_ofRat hin hlength hout
  rw [BlockTimes.setLengthAndMediaOut, length_times hin hout hlength]
  simp only [Option.bind_eq_bind, Option.bind_some, hadd, sub_ofRat hout ht hdiff, withRange_times]
  rw [BlockCore.setLengthAndMediaOut, in_add_length]
  rfl

theorem setLengthAndMediaIn_times (h : Exacts [c.in_, t, c.in_ + t]) :
    c.times.setLengthAndMediaIn (ofRat t) = some (c.setLengthAndMediaIn t).times := by
  simp only [exacts_cons, exacts_nil, and_true] at h
  obtain ⟨hin, ht, hsum⟩ := h
  rw [BlockTimes.setLengthAndMediaIn, show c.times.in_.add (ofRat t) = _ from add_ofRat hin ht hsum]
  simp only [Option.bind_eq_bind, Option.bind_some]
  exact congrArg some (withRange_times c c.in_ (c.in_ + t))

end BlockCore

end Oak.Node
