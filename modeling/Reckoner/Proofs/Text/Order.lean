import Mathlib.Algebra.Ring.Nat
import Mathlib.Tactic.Common

/-!
# The order of texts

Texts are compared character by character. Comparing them byte by byte in UTF-8 comes to the
same. The first byte of a character tells how many follow, and it is greater the more there
are. Each byte that follows holds six bits of the character's number, the highest first.

* `Text.code`: the bytes of a number by the count of those that follow the first;
* `Text.precedes_code`: greater numbers have greater bytes, if their counts are the same;
* `Text.precedes_utf8EncodeChar`: greater characters have greater bytes;
* `Text.bytes_lt`: greater texts have greater bytes.
-/

namespace Reckoner

namespace Text

/-- The bytes of a text in UTF-8. -/
def bytes (text : String) : List UInt8 := text.toUTF8.data.toList

theorem bytes_eq (text : String) : bytes text = text.toList.flatMap String.utf8EncodeChar := by
  rw [bytes, String.toUTF8_eq_toByteArray, ← String.utf8Encode_toList, List.utf8Encode,
    List.data_toByteArray, List.toList_toArray]

/-! ## Bytes that come first -/

/-- The bytes `xs` come before `ys`, whatever follows on either side. -/
def Precedes (xs ys : List UInt8) : Prop := ∀ left right, xs ++ left < ys ++ right

theorem precedes_of_lt {m n : Nat} (h : m < n) (hn : n < 256) (xs ys : List UInt8) :
    Precedes (UInt8.ofNat m :: xs) (UInt8.ofNat n :: ys) := by
  have hbyte : UInt8.ofNat m < UInt8.ofNat n :=
    (UInt8.ofNat_lt_iff_lt (Nat.lt_trans h hn) hn).mpr h
  exact fun _ _ => List.cons_lt_cons_iff.mpr (.inl hbyte)

theorem Precedes.append {xs ys : List UInt8} (h : Precedes xs ys) (us vs : List UInt8) :
    Precedes (xs ++ us) (ys ++ vs) := by
  intro left right
  rw [List.append_assoc, List.append_assoc]
  exact h _ _

theorem Precedes.append_left {xs ys : List UInt8} (h : Precedes xs ys) (us : List UInt8) :
    Precedes (us ++ xs) (us ++ ys) := by
  intro left right
  rw [List.append_assoc, List.append_assoc]
  exact List.append_left_lt (h _ _)

/-! ## Numbers -/

/-- The bytes of a number: the first with a mark, and a count of bytes that follow it. -/
def code (mark : Nat) : Nat → Nat → List UInt8
  | 0, n => [UInt8.ofNat (n + mark)]
  | count + 1, n => code mark count (n / 64) ++ [UInt8.ofNat (n % 64 + 128)]

variable {mark count m n : Nat}

theorem div_pow_succ (n count : Nat) : n / 64 ^ (count + 1) = n / 64 / 64 ^ count := by
  rw [Nat.pow_succ', Nat.div_div_eq_div_mul]

theorem exists_code_eq (mark count n : Nat) :
    ∃ xs, code mark count n = UInt8.ofNat (n / 64 ^ count + mark) :: xs := by
  induction count generalizing n with
  | zero => exact ⟨[], by rw [code, Nat.pow_zero, Nat.div_one]⟩
  | succ count ih =>
    obtain ⟨xs, hxs⟩ := ih (n / 64)
    exact ⟨xs ++ [UInt8.ofNat (n % 64 + 128)], by rw [code, hxs, div_pow_succ]; rfl⟩

/-- The last byte decides between numbers that agree in all bits before it. -/
theorem precedes_code (h : m < n) (hn : n / 64 ^ count + mark < 256) :
    Precedes (code mark count m) (code mark count n) := by
  induction count generalizing m n with
  | zero =>
    rw [Nat.pow_zero, Nat.div_one] at hn
    exact precedes_of_lt (by omega) hn [] []
  | succ count ih =>
    rw [div_pow_succ] at hn
    rcases Nat.lt_or_ge (m / 64) (n / 64) with hless | hge
    · exact (ih hless hn).append _ _
    · have heq : m / 64 = n / 64 := by omega
      rw [code, code, heq]
      exact (precedes_of_lt (by omega) (by omega) [] []).append_left _

/-! ## Characters -/

/-- The count of bytes that follow the first one of a character. -/
def following (n : Nat) : Nat :=
  if n < 128 then 0 else if n < 2048 then 1 else if n < 65536 then 2 else 3

/-- The mark of a first byte that so many bytes follow. -/
def markOf : Nat → Nat
  | 0 => 0
  | 1 => 192
  | 2 => 224
  | _ => 240

theorem toNat_lt (c : Char) : c.toNat < 1114112 := by
  rcases c.valid with h | ⟨-, h⟩
  · exact Nat.lt_trans h (by omega)
  · exact h

theorem utf8EncodeChar_eq (c : Char) : String.utf8EncodeChar c =
    code (markOf (following c.toNat)) (following c.toNat) c.toNat := by
  have hlt := toNat_lt c
  show _ = code (markOf (following c.val.toNat)) (following c.val.toNat) c.val.toNat
  unfold following
  fun_cases String.utf8EncodeChar c with
  | case1 v h =>
    rw [if_pos (Nat.lt_succ_of_le h)]
    rfl
  | case2 v h h' =>
    have hlead : v / 64 % 32 = v / 64 := by omega
    rw [if_neg (by omega), if_pos (Nat.lt_succ_of_le h'), hlead]
    rfl
  | case3 v h h' h'' =>
    have hlead : v / 4096 % 16 = v / 64 / 64 := by omega
    rw [if_neg (by omega), if_neg (by omega), if_pos (Nat.lt_succ_of_le h''), hlead]
    rfl
  | case4 v h h' h'' =>
    have hlead : v / 262144 % 8 = v / 64 / 64 / 64 := by
      change v < 1114112 at hlt
      omega
    have hsecond : v / 4096 = v / 64 / 64 := by omega
    rw [if_neg (by omega), if_neg (by omega), if_neg (by omega), hlead, hsecond]
    rfl

/-- What the first byte of a character holds. -/
def firstByte (n : Nat) : Nat := n / 64 ^ following n + markOf (following n)

theorem exists_utf8EncodeChar_eq (c : Char) :
    ∃ xs, String.utf8EncodeChar c = UInt8.ofNat (firstByte c.toNat) :: xs := by
  rw [utf8EncodeChar_eq]
  exact exists_code_eq _ _ _

theorem firstByte_lt (h : n < 1114112) : firstByte n < 256 := by
  unfold firstByte following
  split_ifs <;> simp only [markOf] <;> omega

theorem firstByte_lt_firstByte (h : m < n) (hf : following m ≠ following n) :
    firstByte m < firstByte n := by
  unfold firstByte following at *
  split_ifs at * <;> simp only [markOf] <;> omega

/-- Where as many bytes follow, all of them decide, and elsewhere the first one. -/
theorem precedes_utf8EncodeChar {c d : Char} (h : c < d) :
    Precedes (String.utf8EncodeChar c) (String.utf8EncodeChar d) := by
  have hlt : c.toNat < d.toNat := h
  have hd : firstByte d.toNat < 256 := firstByte_lt (toNat_lt d)
  by_cases hf : following c.toNat = following d.toNat
  · rw [utf8EncodeChar_eq, utf8EncodeChar_eq, hf]
    exact precedes_code hlt hd
  · obtain ⟨xs, hxs⟩ := exists_utf8EncodeChar_eq c
    obtain ⟨ys, hys⟩ := exists_utf8EncodeChar_eq d
    rw [hxs, hys]
    exact precedes_of_lt (firstByte_lt_firstByte hlt hf) hd xs ys

/-! ## Texts -/

theorem flatMap_utf8EncodeChar_lt {cs ds : List Char} (h : cs < ds) :
    cs.flatMap String.utf8EncodeChar < ds.flatMap String.utf8EncodeChar := by
  induction h with
  | @nil d ds =>
    obtain ⟨xs, hxs⟩ := exists_utf8EncodeChar_eq d
    rw [List.flatMap_nil, List.flatMap_cons, hxs]
    exact List.Lex.nil
  | rel hlt => exact precedes_utf8EncodeChar hlt _ _
  | cons _ ih => exact List.append_left_lt ih

/-- A text that is less has bytes that are less. -/
theorem bytes_lt {text other : String} (h : text < other) : bytes text < bytes other := by
  rw [bytes_eq, bytes_eq]
  exact flatMap_utf8EncodeChar_lt h

end Text

end Reckoner
