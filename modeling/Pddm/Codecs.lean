import Mathlib

/-!
# Codecs

Values as bytes: how many there are, which ones, in which chunks they are handed on, and the
way back. A reader that has decoded a value goes on behind the bytes the value takes.
-/
namespace Pddm

/-- The lowest bytes of a number, the least significant one first. -/
def leBytes : ℕ → ℕ → List UInt8
  | 0, _ => []
  | width + 1, n => UInt8.ofNat (n % 256) :: leBytes width (n / 256)

def leNat : List UInt8 → ℕ
  | [] => 0
  | b :: bs => b.toNat + 256 * leNat bs

@[simp] theorem length_leBytes (width n : ℕ) : (leBytes width n).length = width := by
  induction width generalizing n with
  | zero => rfl
  | succ width ih => simp [leBytes, ih]

theorem leNat_leBytes (width n : ℕ) : leNat (leBytes width n) = n % 256 ^ width := by
  induction width generalizing n with
  | zero => simp [leBytes, leNat, Nat.mod_one]
  | succ width ih =>
    have hbyte : (UInt8.ofNat (n % 256)).toNat = n % 256 := by simp
    rw [leBytes, leNat, ih, hbyte, pow_succ, mul_comm (256 ^ width), Nat.mod_mul]

structure Codec (α : Type) where
  bytesSize : α → ℕ
  toBytes : α → List UInt8
  /-- The same bytes, chunk by chunk. -/
  postObject : α → List (List UInt8)
  fromBytes : List UInt8 → Option α

namespace Codec
variable {α : Type} {c : Codec α} {a : α}

/-- A value takes the bytes that it says, and is read back whatever follows them. -/
structure Serializes (c : Codec α) (a : α) : Prop where
  length : (c.toBytes a).length = c.bytesSize a
  decode : ∀ rest, c.fromBytes (c.toBytes a ++ rest) = some a

structure Sound (c : Codec α) (a : α) : Prop extends Serializes c a where
  chunks : (c.postObject a).flatten = c.toBytes a

def next (c : Codec α) (buffer : List UInt8) : Option (α × List UInt8) :=
  (c.fromBytes buffer).map fun a => (a, buffer.drop (c.bytesSize a))

theorem Serializes.next (h : c.Serializes a) (rest : List UInt8) :
    c.next (c.toBytes a ++ rest) = some (a, rest) := by
  simp [Codec.next, h.decode, ← h.length]

section Plain

def plain (width : ℕ) (encode : α → ℕ) (decode : ℕ → Option α) : Codec α where
  bytesSize _ := width
  toBytes a := leBytes width (encode a)
  postObject a := [leBytes width (encode a)]
  fromBytes buffer :=
    if width ≤ buffer.length then decode (leNat (buffer.take width)) else none

theorem plain_sound {width : ℕ} {encode : α → ℕ} {decode : ℕ → Option α}
    (hlt : encode a < 256 ^ width) (h : decode (encode a) = some a) :
    (plain width encode decode).Sound a where
  length := length_leBytes width (encode a)
  decode rest := by
    have htake : (leBytes width (encode a) ++ rest).take width = leBytes width (encode a) :=
      List.take_left' (length_leBytes width (encode a))
    simp only [plain, List.length_append, length_leBytes, le_add_iff_nonneg_right, zero_le, if_true,
      htake, leNat_leBytes, Nat.mod_eq_of_lt hlt, h]
  chunks := by simp [plain]

/-- A signed integer in two's complement. -/
def signed (width : ℕ) : Codec ℤ :=
  plain width (fun i => (i % 256 ^ width).toNat) fun n => some (Int.bmod n (256 ^ width))

theorem signed_sound {width : ℕ} {i : ℤ} (hlow : -(256 ^ width / 2) ≤ i)
    (hhigh : i < (256 ^ width + 1) / 2) : (signed width).Sound i := by
  have hpos : (0 : ℤ) < 256 ^ width := by positivity
  have hnonneg := Int.emod_nonneg i hpos.ne'
  have hlt := Int.emod_lt_of_pos i hpos
  refine plain_sound ?_ (congrArg some ?_)
  · zify
    rwa [Int.toNat_of_nonneg hnonneg]
  · have hemod := Int.emod_bmod i (256 ^ width)
    push_cast at hemod
    rw [Int.toNat_of_nonneg hnonneg, hemod]
    exact Int.bmod_eq_of_le (by push_cast; exact hlow) (by push_cast; exact hhigh)

def IsInt (i : ℤ) : Prop := -2 ^ 31 ≤ i ∧ i < 2 ^ 31

instance (i : ℤ) : Decidable (IsInt i) := inferInstanceAs (Decidable (_ ∧ _))

def int : Codec ℤ := signed 4

theorem int_sound {i : ℤ} (h : IsInt i) : int.Sound i :=
  signed_sound (by norm_num; exact h.1) (by norm_num; exact h.2)

@[simp] theorem int_bytesSize (i : ℤ) : int.bytesSize i = 4 := rfl

@[simp] theorem length_int (i : ℤ) : (int.toBytes i).length = 4 := length_leBytes _ _

/-- An unsigned integer of 64 bits. -/
def size : Codec ℕ := plain 8 (fun n => n % 2 ^ 64) some

theorem size_sound {n : ℕ} (h : n < 2 ^ 64) : size.Sound n := by
  have hmod : n % 2 ^ 64 = n := Nat.mod_eq_of_lt h
  refine plain_sound ?_ (congrArg some hmod)
  rw [hmod]
  norm_num
  exact h

@[simp] theorem size_bytesSize (n : ℕ) : size.bytesSize n = 8 := rfl

@[simp] theorem length_size (n : ℕ) : (size.toBytes n).length = 8 := length_leBytes _ _

def tag : Codec ℕ := plain 2 (fun n => n % 2 ^ 16) some

theorem tag_sound {n : ℕ} (h : n < 2 ^ 16) : tag.Sound n := by
  have hmod : n % 2 ^ 16 = n := Nat.mod_eq_of_lt h
  refine plain_sound ?_ (congrArg some hmod)
  rw [hmod]
  norm_num
  exact h

@[simp] theorem tag_bytesSize (n : ℕ) : tag.bytesSize n = 2 := rfl

@[simp] theorem length_tag (n : ℕ) : (tag.toBytes n).length = 2 := length_leBytes _ _

def bool : Codec Bool :=
  plain 1 Bool.toNat fun n => if n = 0 then some false else if n = 1 then some true else none

theorem bool_sound (b : Bool) : bool.Sound b := by
  cases b <;> exact plain_sound (by decide) rfl

@[simp] theorem bool_bytesSize (b : Bool) : bool.bytesSize b = 1 := rfl

@[simp] theorem length_bool (b : Bool) : (bool.toBytes b).length = 1 := length_leBytes _ _

end Plain
section Counted

def readMany (c : Codec α) : ℕ → List UInt8 → Option (List α)
  | 0, _ => some []
  | count + 1, buffer => do
      let (a, buffer) ← c.next buffer
      let as ← readMany c count buffer
      some (a :: as)

/-- Values one after the other, behind their number. -/
def counted (c : Codec α) : Codec (List α) where
  bytesSize as := 4 + (as.map c.bytesSize).sum
  toBytes as := int.toBytes as.length ++ as.flatMap c.toBytes
  postObject as := [int.toBytes as.length, as.flatMap c.toBytes]
  fromBytes buffer := do
    let (count, buffer) ← int.next buffer
    readMany c count.toNat buffer

theorem length_flatMap {as : List α} (h : ∀ a ∈ as, c.Sound a) :
    (as.flatMap c.toBytes).length = (as.map c.bytesSize).sum := by
  induction as with
  | nil => rfl
  | cons a as ih =>
    simp only [List.flatMap_cons, List.length_append, List.map_cons, List.sum_cons,
      (h a (by simp)).length, ih fun b hb => h b (by simp [hb])]

theorem readMany_flatMap {as : List α} (h : ∀ a ∈ as, c.Sound a) (rest : List UInt8) :
    readMany c as.length (as.flatMap c.toBytes ++ rest) = some as := by
  induction as with
  | nil => rfl
  | cons a as ih =>
    simp only [List.length_cons, readMany, List.flatMap_cons, List.append_assoc,
      (h a (by simp)).next, ih fun b hb => h b (by simp [hb]), Option.bind_eq_bind,
      Option.bind_some]

theorem counted_sound {as : List α} (hlength : as.length < 2 ^ 31) (h : ∀ a ∈ as, c.Sound a) :
    (counted c).Sound as where
  length := by
    simp only [counted, List.length_append, length_int, length_flatMap h]
  decode rest := by
    have hcount : int.Sound (as.length : ℤ) := int_sound ⟨by omega, by exact_mod_cast hlength⟩
    simp only [counted, List.append_assoc, hcount.next, Option.bind_eq_bind, Option.bind_some,
      Int.toNat_natCast, readMany_flatMap h]
  chunks := by simp [counted]

end Counted
end Codec
end Pddm
