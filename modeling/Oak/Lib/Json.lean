import Oak.Lib.Assoc
import Mathlib.Data.Int.Notation
import Mathlib.Data.List.Basic
import Mathlib.Data.Nat.Notation

/-!
# Records as JSON

A value is written as a document and read back. Numbers are the only values that may change on the
way: a float that is not finite is written as null, which is no float, and a finite one is read as
the nearest float that the reader finds for its digits.

* `Codec` is a writer with its reader. Its laws say what is read from what was written, and that the
  floats are all that can change.
* `Fields` is the same for some fields of an object. The reader looks them up by name, takes a
  default for one that is missing, and ignores all others.

## Main results

* `Codec.read_write_eq_iff`: a value is read as it was written exactly when its floats are finite
  and each is read back as it was.
* `Codec.write_injective_of_finite`: finite values with the same document are the same.
-/

namespace Oak.Lib

/-- A JSON document. -/
inductive Json (F : Type*) where
  | null
  | bool (b : Bool)
  | int (i : ℤ)
  | float (f : F)
  | string (s : String)
  | array (items : List (Json F))
  | object (fields : List (String × Json F))

/-- A float of 32 or of 64 bits. -/
inductive FloatWidth where
  | single | double
  deriving DecidableEq, Repr

/-- Floats as a JSON library takes them; `reread` is the float that is read from the digits of a
finite one. -/
class JsonFloat (F : Type*) where
  zero : F
  isFinite : F → Bool
  reread : FloatWidth → F → F

variable {F : Type*} [JsonFloat F] {α β : Type*}

/-- A float is written as its digits, or as null. -/
def Json.ofFloat (f : F) : Json F := if JsonFloat.isFinite f then .float f else .null

/-- All floats are finite. -/
def finite (floats : List (FloatWidth × F)) : Bool := floats.all fun x => JsonFloat.isFinite x.2

@[simp] theorem finite_append (l l' : List (FloatWidth × F)) :
    finite (l ++ l') = (finite l && finite l') := List.all_append

theorem finite_iff {floats : List (FloatWidth × F)} :
    finite floats = true ↔ ∀ x ∈ floats, JsonFloat.isFinite x.2 = true := List.all_eq_true

/-- Values as documents. The reader is given what it reads digits as; `mapFloats` changes the floats
of a value. -/
structure Codec (F : Type*) [JsonFloat F] (α : Type*) where
  write : α → Json F
  read : (FloatWidth → F → F) → Json F → Option α
  floats : α → List (FloatWidth × F)
  mapFloats : (FloatWidth → F → F) → α → α
  mapFloats_eq_iff : ∀ g a, mapFloats g a = a ↔ ∀ x ∈ floats a, g x.1 x.2 = x.2
  read_write : ∀ g a, read g (write a) = if finite (floats a) then some (mapFloats g a) else none

variable (c : Codec F α) (g : FloatWidth → F → F)

namespace Codec

/-- What is read is what was written, when the floats are finite and are read back as they were. -/
theorem read_write_eq_iff (a : α) :
    c.read g (c.write a) = some a ↔
      finite (c.floats a) = true ∧ ∀ x ∈ c.floats a, g x.1 x.2 = x.2 := by
  rw [c.read_write]
  split_ifs with hfinite
  · rw [Option.some.injEq, c.mapFloats_eq_iff, hfinite]
    exact ⟨fun h => ⟨rfl, h⟩, fun h => h.2⟩
  · exact iff_of_false (by simp) fun h => hfinite h.1

/-- Finite values with the same document are the same. -/
theorem write_injective_of_finite {a b : α} (h : c.write a = c.write b)
    (hfinite : finite (c.floats a) = true) : a = b := by
  have hsame (a : α) : c.mapFloats (fun _ f => f) a = a := (c.mapFloats_eq_iff _ _).2 fun _ _ => rfl
  have hread := c.read_write (fun _ f => f) b
  rw [← h, c.read_write, if_pos hfinite, hsame, hsame] at hread
  split_ifs at hread
  exact Option.some.inj hread

/-! ### Single values -/

/-- Signed integers. -/
def int : Codec F ℤ where
  write := .int
  read _
    | .int i => some i
    | _ => none
  floats _ := []
  mapFloats _ i := i
  mapFloats_eq_iff _ _ := by simp
  read_write _ _ := rfl

/-- Unsigned integers. -/
def nat : Codec F ℕ where
  write n := .int n
  read _
    | .int i => if 0 ≤ i then some i.toNat else none
    | _ => none
  floats _ := []
  mapFloats _ n := n
  mapFloats_eq_iff _ _ := by simp
  read_write _ n := by
    dsimp only
    rw [if_pos (Int.natCast_nonneg n), Int.toNat_natCast]
    rfl

def bool : Codec F Bool where
  write := .bool
  read _
    | .bool b => some b
    | _ => none
  floats _ := []
  mapFloats _ b := b
  mapFloats_eq_iff _ _ := by simp
  read_write _ _ := rfl

def string : Codec F String where
  write := .string
  read _
    | .string s => some s
    | _ => none
  floats _ := []
  mapFloats _ s := s
  mapFloats_eq_iff _ _ := by simp
  read_write _ _ := rfl

/-- Floats: null is none. -/
def float (w : FloatWidth) : Codec F F where
  write := Json.ofFloat
  read g
    | .float f => some (g w f)
    | _ => none
  floats f := [(w, f)]
  mapFloats g f := g w f
  mapFloats_eq_iff _ _ := by simp
  read_write g f := by
    rw [Json.ofFloat, finite, List.all_cons, List.all_nil, Bool.and_true]
    cases JsonFloat.isFinite f <;> rfl

/-! ### Lists -/

/-- The items of an array, each of which must be readable. -/
def readItems (c : Codec F α) (g : FloatWidth → F → F) : List (Json F) → Option (List α)
  | [] => some []
  | j :: js =>
    match c.read g j, c.readItems g js with
    | some a, some as => some (a :: as)
    | _, _ => none

theorem readItems_write (as : List α) :
    c.readItems g (as.map c.write) =
      if finite (as.flatMap c.floats) then some (as.map (c.mapFloats g)) else none := by
  induction as with
  | nil => rfl
  | cons a as ih =>
    rw [List.map_cons, readItems, c.read_write, ih, List.flatMap_cons, finite_append, List.map_cons]
    cases finite (c.floats a) <;> cases finite (as.flatMap c.floats) <;> rfl

/-- Lists as arrays. -/
def list : Codec F (List α) where
  write as := .array (as.map c.write)
  read g
    | .array js => c.readItems g js
    | _ => none
  floats as := as.flatMap c.floats
  mapFloats g as := as.map (c.mapFloats g)
  mapFloats_eq_iff g as := by
    induction as with
    | nil => simp
    | cons a as ih =>
      rw [List.map_cons, List.cons.injEq, c.mapFloats_eq_iff, ih, List.flatMap_cons]
      simp only [List.mem_append, or_imp, forall_and]
  read_write g as := c.readItems_write g as

end Codec

/-! ### Objects -/

/-- Some fields of an object. The reader is given the object as a lookup. -/
structure Fields (F : Type*) [JsonFloat F] (α : Type*) where
  names : List String
  write : α → List (String × Json F)
  read : (FloatWidth → F → F) → (String → Option (Json F)) → Option α
  floats : α → List (FloatWidth × F)
  mapFloats : (FloatWidth → F → F) → α → α
  mapFloats_eq_iff : ∀ g a, mapFloats g a = a ↔ ∀ x ∈ floats a, g x.1 x.2 = x.2
  names_write : ∀ a, (write a).map Prod.fst = names
  read_write : ∀ g a l, (∀ x ∈ write a, l x.1 = some x.2) →
    read g l = if finite (floats a) then some (mapFloats g a) else none

namespace Fields

/-- One field, and what it is when it is missing. -/
def field (name : String) (c : Codec F α) (default : α) : Fields F α where
  names := [name]
  write a := [(name, c.write a)]
  read g l :=
    match l name with
    | some j => c.read g j
    | none => some default
  floats := c.floats
  mapFloats := c.mapFloats
  mapFloats_eq_iff := c.mapFloats_eq_iff
  names_write _ := rfl
  read_write g a l hl := by
    rw [hl (name, c.write a) List.mem_cons_self]
    exact c.read_write g a

/-- Fields and more fields. -/
def and (p : Fields F α) (q : Fields F β) : Fields F (α × β) where
  names := p.names ++ q.names
  write a := p.write a.1 ++ q.write a.2
  read g l :=
    match p.read g l, q.read g l with
    | some a, some b => some (a, b)
    | _, _ => none
  floats a := p.floats a.1 ++ q.floats a.2
  mapFloats g a := (p.mapFloats g a.1, q.mapFloats g a.2)
  mapFloats_eq_iff g a := by
    rw [Prod.ext_iff, p.mapFloats_eq_iff, q.mapFloats_eq_iff]
    simp only [List.mem_append, or_imp, forall_and]
  names_write a := by rw [List.map_append, p.names_write, q.names_write]
  read_write g a l hl := by
    rw [p.read_write g a.1 l fun x hx => hl x (List.mem_append_left _ hx),
      q.read_write g a.2 l fun x hx => hl x (List.mem_append_right _ hx), finite_append]
    cases finite (p.floats a.1) <;> cases finite (q.floats a.2) <;> rfl

/-- The fields of a record. -/
def record (p : Fields F α) (make : α → β) (parts : β → α) (hmake : ∀ b, make (parts b) = b)
    (hparts : ∀ a, parts (make a) = a) : Fields F β where
  names := p.names
  write b := p.write (parts b)
  read g l := (p.read g l).map make
  floats b := p.floats (parts b)
  mapFloats g b := make (p.mapFloats g (parts b))
  mapFloats_eq_iff g b := by
    rw [← p.mapFloats_eq_iff g (parts b)]
    exact ⟨fun h => by rw [← hparts (p.mapFloats g (parts b)), h], fun h => by rw [h, hmake]⟩
  names_write b := p.names_write (parts b)
  read_write g b l hl := by
    rw [p.read_write g (parts b) l hl]
    cases finite (p.floats (parts b)) <;> rfl

/-- A record as an object, with other fields beside its own. -/
def object (p : Fields F α) (others : List (String × Json F))
    (hnodup : (p.names ++ others.map Prod.fst).Nodup) : Codec F α where
  write a := .object (p.write a ++ others)
  read g
    | .object fields => p.read g fun name => fields.lookup name
    | _ => none
  floats := p.floats
  mapFloats := p.mapFloats
  mapFloats_eq_iff := p.mapFloats_eq_iff
  read_write g a := by
    refine p.read_write g a _ fun x hx => ?_
    refine lookup_of_nodup ?_ (List.mem_append_left _ hx)
    rwa [List.map_append, p.names_write]

end Fields

end Oak.Lib
