import Mathlib.Data.Char
import Mathlib.Data.List.Lex
import Mathlib.Data.String.Basic

/-!
# The order of encoded strings

A character is encoded in one to four bytes: a leading byte, which says how many follow, and the
following bytes with six bits each. A longer code has a greater leading byte, and codes of the same
length are ordered like numbers written in base 64. So no code is the beginning of another, and to
compare two strings byte by byte is to compare them character by character.

## Main definitions

- `Utf8.scalars`, `Utf8.bytes` — the characters of a string as numbers and as bytes

## Main statements

- `Utf8.encodeChar_lt` — the codes of two characters differ where they are compared first
- `Utf8.bytes_lt_iff` — the bytes of two strings are ordered like their characters
-/

namespace EagerLambda

namespace Utf8

open String (utf8EncodeChar)

/-- The Unicode scalar values of a string. -/
def scalars (s : String) : List Nat := s.toList.map Char.toNat

/-- The bytes that encode a string. -/
def bytes (s : String) : List UInt8 := s.toUTF8.data.toList

variable {c d : Char} {v w count : Nat} {r s : List UInt8}

-- ════════════════════════════════════════════════════════════════════════
-- Encoded characters
-- ════════════════════════════════════════════════════════════════════════

/-- The bytes after the leading one: six bits of the number each, the highest first. -/
def following : (count : Nat) → (v : Nat) → List UInt8
  | 0, _ => []
  | count + 1, v => UInt8.ofNat (v / 64 ^ count % 64 + 128) :: following count v

/-- How many bytes follow the leading byte of a scalar value. -/
def followers (v : Nat) : Nat :=
  if v ≤ 0x7f then 0 else if v ≤ 0x7ff then 1 else if v ≤ 0xffff then 2 else 3

/-- What is added to the highest bits of a scalar value to say how many bytes follow. -/
def mark : (count : Nat) → Nat
  | 0 => 0
  | 1 => 0xc0
  | 2 => 0xe0
  | _ => 0xf0

/-- The leading byte of a scalar value. -/
def leading (v : Nat) : Nat := v / 64 ^ followers v + mark (followers v)

/-- A byte is below another if its number is. -/
theorem ofNat_lt_ofNat (hv : v < w) (hw : w < 256) : UInt8.ofNat v < UInt8.ofNat w :=
  (UInt8.ofNat_lt_iff_lt (Nat.lt_trans hv hw) hw).2 hv

/-- Of two digits in base `64`, and what follows them, the first that differs decides. -/
theorem lt_digits {high high' low low' p : Nat} (h : low + p * high < low' + p * high')
    (hlow' : low' < p) : high < high' ∨ high = high' ∧ low < low' := by
  rcases Nat.lt_trichotomy high high' with hlt | rfl | hgt
  · exact .inl hlt
  · exact .inr ⟨rfl, by omega⟩
  · have hmul : p * high' + p ≤ p * high := Nat.mul_le_mul_left p hgt
    omega

/-- Numbers of the same length are ordered like their bytes. -/
theorem following_lt (h : v % 64 ^ count < w % 64 ^ count) :
    following count v ++ r < following count w ++ s := by
  induction count with
  | zero => omega
  | succ count ih =>
    rw [Nat.mod_pow_succ, Nat.mod_pow_succ] at h
    have hlow : w % 64 ^ count < 64 ^ count := Nat.mod_lt _ (Nat.pow_pos (by decide))
    rw [following, following, List.cons_append, List.cons_append, List.cons_lt_cons_iff]
    rcases lt_digits h hlow with hhigh | ⟨hhigh, hrest⟩
    · exact .inl (ofNat_lt_ofNat (by omega) (by omega))
    · exact .inr ⟨by rw [hhigh], ih hrest⟩

theorem toNat_lt (c : Char) : c.toNat < 0x110000 := by
  rcases c.valid with hlow | ⟨-, hhigh⟩
  · exact Nat.lt_trans hlow (by decide)
  · exact hhigh

/-- The length of the code of a scalar value and its leading byte. -/
theorem leading_cases (v : Nat) :
    v ≤ 0x7f ∧ followers v = 0 ∧ leading v = v ∨
    0x7f < v ∧ v ≤ 0x7ff ∧ followers v = 1 ∧ leading v = v / 64 + 0xc0 ∨
    0x7ff < v ∧ v ≤ 0xffff ∧ followers v = 2 ∧ leading v = v / 4096 + 0xe0 ∨
    0xffff < v ∧ followers v = 3 ∧ leading v = v / 262144 + 0xf0 := by
  simp only [leading, followers]
  split
  · next h => exact .inl ⟨h, rfl, by simp [mark]⟩
  · split
    · next h h' => exact .inr (.inl ⟨by omega, h', rfl, rfl⟩)
    · split
      · next h h' => exact .inr (.inr (.inl ⟨by omega, h', rfl, rfl⟩))
      · next h => exact .inr (.inr (.inr ⟨by omega, rfl, rfl⟩))

/-- A character is encoded by its leading byte and the bytes that follow it. -/
theorem encodeChar_eq (c : Char) :
    utf8EncodeChar c =
      UInt8.ofNat (leading c.toNat) :: following (followers c.toNat) c.toNat := by
  have hlast := toNat_lt c
  have hval : c.val.toNat = c.toNat := rfl
  rw [utf8EncodeChar, hval]
  generalize c.toNat = v at hlast
  rcases leading_cases v with ⟨hv, hcount, hlead⟩ | ⟨hv, hv', hcount, hlead⟩ |
    ⟨hv, hv', hcount, hlead⟩ | ⟨hv, hcount, hlead⟩
  · rw [if_pos hv, hcount, hlead]
    rfl
  · have htop : v / 64 % 32 = v / 64 := by omega
    rw [if_neg (by omega), if_pos hv', hcount, hlead, htop]
    simp [following]
  · have htop : v / 4096 % 16 = v / 4096 := by omega
    rw [if_neg (by omega), if_neg (by omega), if_pos hv', hcount, hlead, htop]
    simp [following]
  · have htop : v / 262144 % 8 = v / 262144 := by omega
    rw [if_neg (by omega), if_neg (by omega), if_neg (by omega), hcount, hlead, htop]
    simp [following]

/-- Of two scalar values, the greater has the greater leading byte, or the same and more in the
bytes that follow. -/
theorem leading_lt (h : v < w) (hw : w < 0x110000) :
    leading w < 256 ∧ (leading v < leading w ∨ leading v = leading w ∧ followers v = followers w ∧
      v % 64 ^ followers w < w % 64 ^ followers w) := by
  rcases leading_cases v with ⟨_, hcount, hlead⟩ | ⟨_, _, hcount, hlead⟩ |
    ⟨_, _, hcount, hlead⟩ | ⟨_, hcount, hlead⟩ <;>
  rcases leading_cases w with ⟨_, hcount', hlead'⟩ | ⟨_, _, hcount', hlead'⟩ |
    ⟨_, _, hcount', hlead'⟩ | ⟨_, hcount', hlead'⟩ <;>
  · rw [hcount, hcount', hlead, hlead']
    omega

/-- The codes of two characters are ordered like the characters, whatever follows them. -/
theorem encodeChar_lt (h : c < d) (r s : List UInt8) :
    utf8EncodeChar c ++ r < utf8EncodeChar d ++ s := by
  have hlt : c.toNat < d.toNat := UInt32.lt_iff_toNat_lt.1 h
  obtain ⟨hbyte, hcases⟩ := leading_lt hlt (toNat_lt d)
  rw [encodeChar_eq, encodeChar_eq, List.cons_append, List.cons_append, List.cons_lt_cons_iff]
  rcases hcases with hlead | ⟨hlead, hcount, hrest⟩
  · exact .inl (ofNat_lt_ofNat hlead hbyte)
  · exact .inr ⟨by rw [hlead], by rw [hcount]; exact following_lt hrest⟩

-- ════════════════════════════════════════════════════════════════════════
-- Encoded strings
-- ════════════════════════════════════════════════════════════════════════

theorem bytes_eq (s : String) : bytes s = s.toList.flatMap utf8EncodeChar := by
  have hencode : s.toUTF8 = s.toList.utf8Encode := by
    rw [String.toUTF8_eq_toByteArray, String.utf8Encode_toList]
  rw [bytes, hencode, List.utf8Encode, List.data_toByteArray]

section Code

variable {α : Type} [LT α] {code : Char → List α} {cs ds : List Char}

/-- If the codes of two characters are ordered like these whatever follows them, the codes of two
lists of characters are. -/
theorem flatMap_lt (hne : ∀ c, code c ≠ [])
    (hlt : ∀ c d, c < d → ∀ r s, code c ++ r < code d ++ s) (h : cs < ds) :
    cs.flatMap code < ds.flatMap code := by
  induction h with
  | @nil d ds =>
    obtain ⟨first, rest, hcode⟩ := List.exists_cons_of_ne_nil (hne d)
    rw [List.flatMap_nil, List.flatMap_cons, hcode]
    exact List.nil_lt_cons _ _
  | @rel c cs d ds hcd =>
    rw [List.flatMap_cons, List.flatMap_cons]
    exact hlt c d hcd _ _
  | @cons c cs ds _ ih =>
    rw [List.flatMap_cons, List.flatMap_cons]
    exact List.append_left_lt ih

theorem flatMap_lt_iff [Std.Asymm fun x y : α => x < y] (hne : ∀ c, code c ≠ [])
    (hlt : ∀ c d, c < d → ∀ r s, code c ++ r < code d ++ s) :
    cs.flatMap code < ds.flatMap code ↔ cs < ds := by
  refine ⟨fun h => ?_, flatMap_lt hne hlt⟩
  rcases lt_trichotomy cs ds with hcd | rfl | hdc
  · exact hcd
  · exact absurd h (List.lt_asymm h)
  · exact absurd h (List.lt_asymm (flatMap_lt hne hlt hdc))

end Code

/-- Strings are ordered like their bytes. -/
theorem bytes_lt_iff {a b : String} : bytes a < bytes b ↔ a < b := by
  rw [bytes_eq, bytes_eq, String.lt_iff_toList_lt]
  refine flatMap_lt_iff (fun c => ?_) fun _ _ => encodeChar_lt
  rw [encodeChar_eq]
  exact List.cons_ne_nil _ _

/-- Strings are ordered like their scalar values. -/
theorem scalars_lt_iff {a b : String} : scalars a < scalars b ↔ a < b := by
  rw [scalars, scalars, List.map_eq_flatMap, List.map_eq_flatMap, String.lt_iff_toList_lt]
  refine flatMap_lt_iff (fun _ => List.cons_ne_nil _ _) fun c d hcd r s => ?_
  exact List.cons_lt_cons_iff.2 (.inl (UInt32.lt_iff_toNat_lt.1 hcd))

end Utf8

end EagerLambda
