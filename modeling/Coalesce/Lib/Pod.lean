import Mathlib.Algebra.Order.Ring.Int
import Mathlib.Logic.Equiv.Basic
import Mathlib.Tactic.Ring
import Mathlib.Tactic.Zify

/-!
# Plain data

A type is plain data of size `n` if its values are the byte strings of length `n`: every such string is one value, and
different strings are different values.  Structures whose fields are bytes and byte arrays are plain data, with their
fields one after the other.  Numbers are kept in byte arrays, least significant byte first.
-/

/-! ### Little-endian numbers -/

namespace LittleEndian

def value (bs : List UInt8) : ℕ := bs.foldr (fun b n => b.toNat + 256 * n) 0

/-- The lowest `w` bytes of a number. -/
def bytes : (w n : ℕ) → List UInt8
  | 0, _ => []
  | w + 1, n => UInt8.ofNat n :: bytes w (n / 256)

theorem length_bytes (w n : ℕ) : (bytes w n).length = w := by
  induction w generalizing n with
  | zero => rfl
  | succ w ih => rw [bytes, List.length_cons, ih]

theorem value_cons (b : UInt8) (bs : List UInt8) : value (b :: bs) = b.toNat + 256 * value bs := rfl

theorem value_lt (bs : List UInt8) : value bs < 256 ^ bs.length := by
  induction bs with
  | nil => exact Nat.one_pos
  | cons b bs ih =>
    calc value (b :: bs) < 256 + 256 * value bs := Nat.add_lt_add_right b.toNat_lt _
      _ = 256 * (value bs + 1) := by ring
      _ ≤ 256 * 256 ^ bs.length := Nat.mul_le_mul_left _ ih
      _ = 256 ^ (b :: bs).length := (pow_succ' 256 bs.length).symm

theorem value_bytes {w n : ℕ} (h : n < 256 ^ w) : value (bytes w n) = n := by
  induction w generalizing n with
  | zero =>
    rw [pow_zero, Nat.lt_one_iff] at h
    exact h.symm
  | succ w ih =>
    have hdiv : n / 256 < 256 ^ w := Nat.div_lt_of_lt_mul (by rwa [pow_succ, Nat.mul_comm] at h)
    have hlow : (UInt8.ofNat n).toNat = n % 256 := UInt8.toNat_ofNat'
    rw [bytes, value_cons, ih hdiv, hlow]
    exact Nat.mod_add_div n 256

end LittleEndian

/-- An array of `w` bytes. -/
abbrev Word (w : ℕ) := Vector UInt8 w

namespace Word

variable {w : ℕ}

def zero : Word w := Vector.replicate w 0

def toNat (v : Word w) : ℕ := LittleEndian.value v.toList

/-- The number `n` in `w` bytes; what does not fit is cut off. -/
def ofNat (w n : ℕ) : Word w := ⟨(LittleEndian.bytes w n).toArray, by rw [List.size_toArray, LittleEndian.length_bytes]⟩

theorem toNat_ofNat {n : ℕ} (h : n < 256 ^ w) : (ofNat w n).toNat = n := LittleEndian.value_bytes h

/-- Two's complement. -/
def toInt (v : Word w) : ℤ := if 2 * v.toNat < 256 ^ w then v.toNat else v.toNat - 256 ^ w

def ofInt (w : ℕ) (x : ℤ) : Word w := ofNat w (x % 256 ^ w).toNat

theorem toInt_ofInt {x : ℤ} (hlo : -256 ^ w ≤ 2 * x) (hhi : 2 * x < 256 ^ w) : (ofInt w x).toInt = x := by
  have hpos : (0 : ℤ) < 256 ^ w := pow_pos (by decide) w
  have hnonneg := Int.emod_nonneg x hpos.ne'
  have hlt := Int.emod_lt_of_pos x hpos
  have hcast : (((x % 256 ^ w).toNat : ℕ) : ℤ) = x % 256 ^ w := Int.toNat_of_nonneg hnonneg
  have hnat : (x % 256 ^ w).toNat < 256 ^ w := by
    zify
    rwa [hcast]
  have hmod : x % 256 ^ w = x ∨ x % 256 ^ w = x + 256 ^ w := by
    rcases lt_or_ge x 0 with hneg | hpos'
    · right
      rw [← Int.add_emod_right x (256 ^ w)]
      exact Int.emod_eq_of_lt (by omega) (by omega)
    · exact .inl (Int.emod_eq_of_lt hpos' (by omega))
  unfold toInt ofInt
  rw [toNat_ofNat hnat]
  split
  · rename_i h
    zify at h
    omega
  · rename_i h
    zify at h
    omega

end Word

/-! ### Formats -/

structure Pod (α : Type*) where
  size : ℕ
  toBytes : α → List UInt8
  ofBytes : List UInt8 → Option α
  length_toBytes : ∀ x, (toBytes x).length = size
  ofBytes_toBytes : ∀ x, ofBytes (toBytes x) = some x
  toBytes_of_ofBytes : ∀ {bs x}, ofBytes bs = some x → toBytes x = bs
  isSome_ofBytes : ∀ {bs}, bs.length = size → (ofBytes bs).isSome

namespace Pod

variable {α β : Type*} (f : Pod α) (g : Pod β)

theorem ofBytes_eq_some {f : Pod α} {bs : List UInt8} {x : α} : f.ofBytes bs = some x ↔ f.toBytes x = bs := by
  constructor
  · exact f.toBytes_of_ofBytes
  · rintro rfl
    exact f.ofBytes_toBytes x

theorem toBytes_injective : Function.Injective f.toBytes := by
  intro x y h
  have hx := f.ofBytes_toBytes x
  rw [h, f.ofBytes_toBytes] at hx
  exact (Option.some.inj hx).symm

/-- The value of a string of zeros. -/
def zeroed : α := (f.ofBytes (List.replicate f.size 0)).get (f.isSome_ofBytes List.length_replicate)

def byte : Pod UInt8 where
  size := 1
  toBytes b := [b]
  ofBytes
    | [b] => some b
    | _ => none
  length_toBytes _ := rfl
  ofBytes_toBytes _ := rfl
  toBytes_of_ofBytes {bs x} h := by
    rcases bs with - | ⟨b, - | ⟨b', bs⟩⟩
    · cases h
    · exact congrArg (fun b => [b]) (Option.some.inj h).symm
    · cases h
  isSome_ofBytes {bs} h := by
    obtain ⟨b, rfl⟩ := List.length_eq_one_iff.1 h
    rfl

def bytes (n : ℕ) : Pod (Word n) where
  size := n
  toBytes v := v.toList
  ofBytes bs := if h : bs.length = n then some ⟨bs.toArray, by rw [List.size_toArray, h]⟩ else none
  length_toBytes v := v.length_toList
  ofBytes_toBytes v := by rw [dif_pos v.length_toList]; rfl
  toBytes_of_ofBytes {bs v} h := by
    split at h
    · obtain rfl := Option.some.inj h
      rfl
    · cases h
  isSome_ofBytes {bs} h := by rw [dif_pos h]; rfl

/-- The record without fields. -/
def unit : Pod Unit where
  size := 0
  toBytes _ := []
  ofBytes
    | [] => some ()
    | _ => none
  length_toBytes _ := rfl
  ofBytes_toBytes _ := rfl
  toBytes_of_ofBytes {bs x} h := by
    cases bs with
    | nil => rfl
    | cons => cases h
  isSome_ofBytes {bs} h := by
    obtain rfl := List.length_eq_zero_iff.1 h
    rfl

/-- One after the other. -/
def prod : Pod (α × β) where
  size := f.size + g.size
  toBytes x := f.toBytes x.1 ++ g.toBytes x.2
  ofBytes bs := (f.ofBytes (bs.take f.size)).bind fun x => (g.ofBytes (bs.drop f.size)).map fun y => (x, y)
  length_toBytes x := by rw [List.length_append, f.length_toBytes, g.length_toBytes]
  ofBytes_toBytes x := by
    rw [List.take_left' (f.length_toBytes _), List.drop_left' (f.length_toBytes _), f.ofBytes_toBytes,
      g.ofBytes_toBytes]
    rfl
  toBytes_of_ofBytes {bs x} h := by
    obtain ⟨y, hy, h⟩ := Option.bind_eq_some_iff.1 h
    obtain ⟨z, hz, rfl⟩ := Option.map_eq_some_iff.1 h
    rw [f.toBytes_of_ofBytes hy, g.toBytes_of_ofBytes hz, List.take_append_drop]
  isSome_ofBytes {bs} h := by
    have hf : (bs.take f.size).length = f.size := by rw [List.length_take, h]; omega
    have hg : (bs.drop f.size).length = g.size := by rw [List.length_drop, h]; omega
    obtain ⟨x, hx⟩ := Option.isSome_iff_exists.1 (f.isSome_ofBytes hf)
    obtain ⟨y, hy⟩ := Option.isSome_iff_exists.1 (g.isSome_ofBytes hg)
    rw [hx, Option.bind_some, hy]
    rfl

/-- The value at the front of a string. -/
def read (bs : List UInt8) : Option α := f.ofBytes (bs.take f.size)

theorem read_eq_some {f : Pod α} {bs : List UInt8} {x : α} : f.read bs = some x ↔ f.toBytes x <+: bs := by
  rw [read, ofBytes_eq_some, List.prefix_iff_eq_take, f.length_toBytes]

/-- A structure with the fields of `α`. -/
def congr (e : α ≃ β) : Pod β where
  size := f.size
  toBytes x := f.toBytes (e.symm x)
  ofBytes bs := (f.ofBytes bs).map e
  length_toBytes x := f.length_toBytes _
  ofBytes_toBytes x := by rw [f.ofBytes_toBytes, Option.map_some, e.apply_symm_apply]
  toBytes_of_ofBytes {bs x} h := by
    obtain ⟨y, hy, rfl⟩ := Option.map_eq_some_iff.1 h
    rw [e.symm_apply_apply, f.toBytes_of_ofBytes hy]
  isSome_ofBytes h := by rw [Option.isSome_map]; exact f.isSome_ofBytes h

end Pod
